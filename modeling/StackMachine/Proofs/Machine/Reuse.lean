import StackMachine.Proofs.Machine.Identities

/-!
# Machines that are used again

A machine that is started again keeps its program and its settings and forgets everything else, but
for the containers and strings of its heap: it begins as a new machine past that heap
(`Machine.restart_eq_within`). A run past a heap goes step by step as the run without it
(`Run.advance_within`), so what can be seen of its outcome is the same, whatever programs were
loaded and run before and however their runs ended (`reused_machine_as_new`). Only the addresses of
payloads tell the two apart.
-/

namespace StackMachine

/-- **A machine that is started again** is a new one past its heap. -/
theorem Machine.restart_eq_within (m : Machine) :
    m.restart = (start m.config m.program).within { older := m.heap } := by
  simp [restart, start, within, under, Config.under, past, Heap.past, Value.past, Scalar.past]

/-! ## What can be seen of an outcome -/

/-- What can be seen of an outcome: the texts of the results, or the error; the texts of the values
that are left on the stack and in the variables; and the trace. -/
structure View where
  result : Except MachineError (List String)
  stack : List String
  slots : List String
  sink : Sink

/-- The texts of values in a machine. -/
def Machine.texts (m : Machine) (values : Array Value) : List String :=
  values.toList.map m.heap.render

def Outcome.view (o : Outcome) : View where
  result := o.result.map o.machine.texts
  stack := o.machine.texts o.machine.stack
  slots := o.machine.texts o.machine.slots
  sink := o.sink

/-- **An outcome in other surroundings** looks like the outcome without them. -/
theorem Outcome.view_within (o : Outcome) (w : Surroundings) : (o.within w).view = o.view := by
  obtain ⟨m, sink, result⟩ := o
  have htexts (values : Array Value) :
      (m.within w).texts (values.map (Value.past w.older)) = m.texts values := by
    rw [Machine.texts, Machine.texts, Array.toList_map, List.map_map]
    exact List.map_congr_left fun v _ => Heap.render_past m.heap v
  have hresult : (result.map (Array.map (Value.past w.older))).map (m.within w).texts =
      result.map m.texts := by
    cases result with
    | error e => rfl
    | ok values => exact congrArg Except.ok (htexts values)
  show View.mk ((result.map (Array.map (Value.past w.older))).map (m.within w).texts)
    ((m.within w).texts (m.stack.map _)) ((m.within w).texts (m.slots.map _)) sink = _
  rw [hresult, htexts, htexts]
  rfl

/-- Where its payloads are kept cannot be seen of an outcome. -/
theorem Outcome.view_relocated (o : Outcome) (a : Addresses) :
    (o.under (.relocated a)).view = o.view := rfl

/-! ## Sessions -/

/-- What is asked of a machine: to take the program of a file, or to run. -/
inductive Machine.Call where
  | load (bytes : List UInt8)
  | run (sink : Sink)

/-- The program of a machine after a call. -/
def Machine.Call.loaded (p : Program) : Machine.Call → Program
  | .load bytes => (Program.decode bytes).toOption.getD p
  | .run _ => p

/-- What a call leaves. A file that is rejected leaves the machine as it is, and a run that ends
leaves the machine with which it ended; one that does not end leaves nothing. -/
inductive Machine.Leaves (m : Machine) : Machine.Call → Machine → Prop
  | loaded {bytes : List UInt8} {n : Machine} (h : m.load bytes = .ok n) : m.Leaves (.load bytes) n
  | rejected {bytes : List UInt8} {e : MachineError} (h : m.load bytes = .error e) :
      m.Leaves (.load bytes) m
  | ran {sink : Sink} {k : Nat} {o : Outcome} (h : (m.begin sink).advance k = .inr o) :
      m.Leaves (.run sink) o.machine

/-- What is left when calls are made one after another. -/
inductive Machine.Session : Machine → List Machine.Call → Machine → Prop
  | nil (m : Machine) : Session m [] m
  | cons {m n k : Machine} {call : Machine.Call} {calls : List Machine.Call}
      (hcall : m.Leaves call n) (hrest : Session n calls k) : Session m (call :: calls) k

namespace Machine

variable {m n : Machine}

/-- **Loading** changes the program and nothing else, and nothing at all where the file is rejected.
-/
theorem Leaves.eq_of_load {bytes : List UInt8} (h : m.Leaves (.load bytes) n) :
    match Program.decode bytes with
    | .ok q => n = { m with program := q }
    | .error _ => n = m := by
  cases hdecode : Program.decode bytes with
  | ok q =>
    have hload : m.load bytes = .ok { m with program := q } := by rw [load, hdecode]
    cases h with
    | loaded hloaded => exact Except.ok.inj (hloaded.symm.trans hload)
    | rejected hrejected => exact absurd (hrejected.symm.trans hload) nofun
  | error e =>
    have hload : m.load bytes = .error (.format e) := by rw [load, hdecode]
    cases h with
    | loaded hloaded => exact absurd (hloaded.symm.trans hload) nofun
    | rejected hrejected => rfl

/-- A call keeps the settings, and the program is the one that was loaded last. -/
theorem Leaves.keeps {call : Call} (h : m.Leaves call n) :
    n.config = m.config ∧ n.program = call.loaded m.program := by
  cases call with
  | load bytes =>
    have hload := h.eq_of_load
    rw [Call.loaded]
    split at hload
    · next q hq =>
      rw [hload, hq]
      exact ⟨rfl, rfl⟩
    · next e he =>
      rw [hload, he]
      exact ⟨rfl, rfl⟩
  | run sink =>
    cases h with
    | @ran _ k o hran =>
      have hbounded := Run.bounded_advance (r := m.begin sink) m.bounded_restart k
      rw [hran] at hbounded
      exact ⟨hbounded.limits, hbounded.program⟩

theorem Session.keeps {calls : List Call} (h : m.Session calls n) :
    n.config = m.config ∧ n.program = calls.foldl Call.loaded m.program := by
  induction h with
  | nil => exact ⟨rfl, rfl⟩
  | cons hcall hrest ih =>
    rw [hcall.keeps.1, hcall.keeps.2] at ih
    exact ih

/-- What can be seen of a run of a machine is what can be seen of that of a new one, which may keep
its payloads elsewhere. -/
theorem view_begin (m : Machine) {sink : Sink}
    (hspares : Run.SparesIdentities ⟨.start m.config m.program, sink⟩) (a : Addresses)
    (fuel : Nat) :
    ((m.begin sink).advance fuel).getRight?.map Outcome.view =
      (runWithin fuel { m.config with addresses := a } m.program sink).map Outcome.view := by
  have hbegin : m.begin sink = Run.within { older := m.heap } ⟨.start m.config m.program, sink⟩ :=
    congrArg (Run.mk · sink) m.restart_eq_within
  have hadvance := Run.advance_within (w := { older := m.heap }) rfl rfl
    (fun n s i hs hi => Instruction.showsAlikeWithin_of_not (hspares n s i hs hi) _) fuel
  rw [hbegin, hadvance, runWithin_relocated (hspares.showsAlike a), runWithin]
  cases Run.advance ⟨.start m.config m.program, sink⟩ fuel with
  | inl r => rfl
  | inr o => exact congrArg some ((o.view_within _).trans (o.view_relocated a).symm)

end Machine

/-- **A machine that is used again is as good as a new one.** However often programs were loaded
into a machine and run before, whatever files were rejected and however the runs ended, it has its
settings and the program that was loaded last. Loading changes nothing else, and nothing at all
where the file is rejected. A run looks after every number of steps like that of a new machine with
that program, wherever that one keeps its payloads: it has ended when the other has, and then the
texts of the results or the error, those of the stack and of the variables, and the trace are the
same. That holds of every run in which no address of a payload is shown. -/
theorem reused_machine_as_new {config : Config} {calls : List Machine.Call} {m : Machine}
    (hm : (Machine.start config {}).Session calls m) :
    let p := calls.foldl Machine.Call.loaded {}
    m.config = config ∧ m.program = p ∧
    (∀ bytes n, m.Leaves (.load bytes) n →
      match Program.decode bytes with
      | .ok q => n = { m with program := q }
      | .error _ => n = m) ∧
    ∀ sink, Run.SparesIdentities ⟨.start config p, sink⟩ → ∀ a fuel,
      ((m.begin sink).advance fuel).getRight?.map Outcome.view =
        (runWithin fuel { config with addresses := a } p sink).map Outcome.view := by
  intro p
  obtain ⟨hconfig, hprogram⟩ := hm.keeps
  refine ⟨hconfig, hprogram, fun bytes n hn => hn.eq_of_load, fun sink hspares a fuel => ?_⟩
  have hview := m.view_begin (by rwa [hconfig, hprogram]) a fuel
  rwa [hconfig, hprogram] at hview

/-- A run fails in a call with two scopes open and a variable defined, then a file is rejected, and
the program is run again. -/
theorem failed_call_forgotten :
    let p : Program := {
      code := #[0x1c, 0x05, 0, 0, 0, 0, 0x18, 0x03, 0, 0x0b, 21, 0, 0, 0, 0, 0, 0, 0, 0x23, 0, 0,
        0x1c, 0x1a, 0, 0, 0, 0, 0, 0, 0, 0, 0x30]
      strings := #[.ofText "a"] }
    ∃ (m : Machine) (o : Outcome),
      (Machine.start {} {}).Session [.load p.encode, .run {}, .load []] m ∧
        m.marks = [1, 0] ∧ m.frames = #[21] ∧ m.heap.stringCount = 1 ∧
        runWithin 9 {} p {} = some o ∧
        o.result = .error (.fault 31 (.typeMismatch .neg "string")) ∧
        ((m.begin {}).advance 9).getRight?.map Outcome.view = some o.view := by
  intro p
  obtain ⟨o, ho, hfields⟩ : ∃ o, runWithin 9 {} p {} = some o ∧
      (o.machine.marks, o.machine.frames, o.machine.heap.stringCount, o.result) =
        ([1, 0], #[21], 1, .error (.fault 31 (.typeMismatch .neg "string"))) :=
    Option.map_eq_some_iff.1 (by decide +kernel)
  simp only [Prod.mk.injEq] at hfields
  obtain ⟨hmarks, hframes, hstrings, hresult⟩ := hfields
  have hdecode : Program.decode p.encode = .ok p := by decide +kernel
  have hload : (Machine.start {} {}).load p.encode = .ok (.start {} p) := by
    rw [Machine.load, hdecode]
    rfl
  have hrun : ((Machine.start {} p).begin {}).advance 9 = .inr o := runWithin_eq_some_iff.1 ho
  have hsession : (Machine.start {} {}).Session [.load p.encode, .run {}, .load []] o.machine :=
    .cons (.loaded hload) (.cons (.ran hrun) (.cons (.rejected rfl) (.nil _)))
  have hloaded : [.load p.encode, .run {}, .load []].foldl Machine.Call.loaded {} = p := by
    decide +kernel
  have hspares : Run.SparesIdentities ⟨.start {} p, {}⟩ :=
    Run.sparesIdentities_of_code (by decide +kernel) {} {}
  have hview := (reused_machine_as_new hsession).2.2.2 {} (by rwa [hloaded]) default 9
  rw [hloaded] at hview
  exact ⟨o.machine, o, hsession, hmarks, hframes, hstrings, ho, hresult,
    hview.trans (congrArg (Option.map Outcome.view) ho)⟩

end StackMachine
