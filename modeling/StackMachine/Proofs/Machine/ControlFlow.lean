import StackMachine.Proofs.Assembly.Sealed
import StackMachine.Proofs.Machine.Governed

/-!
# Where control can go

In a run of a sealed program control stands at landings only, and so does every address by which it
may go on later: the return addresses, and the addresses of the functions that the machine holds
anywhere. That is a discipline (`Program.landings`) which governs the program, so the run never
meets code that cannot be decoded, a target outside the code or a string that is not in the pool.
-/

namespace StackMachine

/-! ## What a machine holds -/

/-- A scalar is on the stack, in a variable, or in a container as an item, a key, a value or a
prototype. -/
def Machine.Holds (m : Machine) (s : Scalar) : Prop :=
  .scalar s ∈ m.stack ∨ .scalar s ∈ m.slots ∨ (∃ items ∈ m.heap.arrays, .scalar s ∈ items) ∨
    ∃ t ∈ m.heap.tables,
      (∃ e ∈ t.entries, e.key = s ∨ e.value = .scalar s) ∨ t.prototype = some (.scalar s)

theorem Machine.Obeys.holds {D : Discipline} {p : Program} {m : Machine} (hm : m.Obeys D p)
    {s : Scalar} (hs : m.Holds s) : D.scalar s := by
  rcases hs with hs | hs | ⟨items, hitems, hs⟩ | ⟨t, ht, hs⟩
  · exact hm.stack _ hs
  · exact hm.slots _ hs
  · exact hm.heap.arrays items hitems _ hs
  · have htable := hm.heap.tables t ht
    rcases hs with ⟨e, he, rfl | hvalue⟩ | hprototype
    · exact htable.keys e he
    · have hmeets := htable.values e he
      rw [hvalue] at hmeets
      exact hmeets
    · exact htable.prototype _ hprototype

/-! ## The discipline of landings -/

/-- Control stands at landings, functions name landings, and no fault is one of code that is broken.
-/
def Program.landings (p : Program) : Discipline where
  scalar s := ∀ f, s = .function f → p.Landing f.address.toNat
  address := p.Landing
  fault why := (∀ x, why ≠ .invalidJump x) ∧ ∀ n, why ≠ .missingString n

namespace Program.Sealed

variable {p : Program}

theorem lawful_landings (p : Program) : p.landings.Lawful p where
  nil := nofun
  bool := nofun
  number := nofun
  string := nofun
  function := fun f hf => hf f rfl
  jump := fun _ hx houtside => absurd hx.le_size (Nat.not_le.2 houtside)
  fault := fun hjump hstring => ⟨hjump, hstring⟩

/-- An instruction of the stream brings in landings and strings of the pool only. -/
theorem admits (hp : p.Sealed) (hsize : p.code.size < 2 ^ 64) {i : Instruction}
    (hi : .ok i ∈ instructions p.code) : p.landings.Admits p i where
  next := hp.decodes.landing_next hi
  target := by
    intro hop
    refine hp.targets i hi ?_
    rcases hop with hop | hop | hop <;> rw [hop] <;> rfl
  function := by
    intro hop arity f hf
    obtain rfl := Scalar.function.inj hf
    have hland : p.Landing i.argument.toNat := hp.targets i hi (by rw [hop]; rfl)
    have hfits := Nat.mod_eq_of_lt (Nat.lt_of_le_of_lt hland.le_size hsize)
    rwa [UInt64.toNat_ofNat', hfits]
  missing := by
    intro hop hnone
    have hlt := hp.strings i hi hop
    rw [Array.getElem?_eq_getElem hlt] at hnone
    contradiction
  string := by
    intro hop e he id f hf
    contradiction

/-- **The landings of a sealed program govern it.** -/
theorem governs_landings (hp : p.Sealed) (hsize : p.code.size < 2 ^ 64) :
    p.landings.Governs p where
  lawful := lawful_landings p
  start := hp.decodes.landing_zero
  admits := by
    intro x i hx hi
    have hlt : x < p.code.size := by
      have hnext := next_le_of_decode hi
      have := i.lt_next
      have := offset_of_decode hi
      omega
    obtain ⟨j, hj, hmem⟩ := Landing.exists_decode hx hlt
    rw [hi] at hj
    obtain rfl := Except.ok.inj hj
    exact hp.admits hsize hmem

end Program.Sealed

/-! ## Control flow integrity -/

/-- Control stands at a landing of the program, and wherever it may go on later is one. -/
structure Machine.Confined (p : Program) (m : Machine) : Prop where
  ip : p.Landing m.ip
  frames : ∀ x ∈ m.frames, p.Landing x
  functions : ∀ f, m.Holds (.function f) → p.Landing f.address.toNat

/-- A run whose control is confined and that, if it has ended, did not end because of the code: not
where nothing can be decoded, not with a target outside the code, not with a string that is not in
the pool. -/
def Program.Confines (p : Program) : Run ⊕ Outcome → Prop
  | .inl r => r.machine.Confined p
  | .inr o => o.machine.Confined p ∧ (∀ e, o.result ≠ .error (.undecodable e)) ∧
      (∀ offset x, o.result ≠ .error (.fault offset (.invalidJump x))) ∧
      ∀ offset n, o.result ≠ .error (.fault offset (.missingString n))

theorem Machine.Obeys.confined {p : Program} {m : Machine} (hm : m.Obeys p.landings p) :
    m.Confined p where
  ip := hm.ip
  frames := hm.frames
  functions := fun f hf => hm.holds hf f rfl

theorem Program.Sealed.confines {p : Program} (hp : p.Sealed) (hsize : p.code.size < 2 ^ 64)
    (config : Config) (sink : Sink) (n : Nat) :
    p.Confines (Run.advance ⟨.start config p, sink⟩ n) := by
  have hrun := Run.obeys_advance_start (hp.governs_landings hsize) config sink n
  cases hn : Run.advance ⟨.start config p, sink⟩ n with
  | inl r =>
    rw [hn] at hrun
    exact Machine.Obeys.confined hrun
  | inr o =>
    rw [hn] at hrun
    refine ⟨hrun.machine.confined, ?_, ?_, ?_⟩
    · intro e he
      -- Where control stands, an instruction of the stream is decoded.
      obtain ⟨x, hx, hlt, herror⟩ := hrun.undecodable e he
      obtain ⟨i, hi, -⟩ := Landing.exists_decode hx hlt
      rw [hi] at herror
      contradiction
    · intro offset x hx
      exact (hrun.fault offset _ hx).1 x rfl
    · intro offset k hk
      exact (hrun.fault offset _ hk).2 k rfl

/-- **Control flow integrity.** However a program is assembled by steps that take code addresses
from labels alone, and whatever the limits and the trace of the machine that runs it, control stands
at the beginning of an instruction or at the end of the code in every state of the run; so do the
return addresses and the functions that the machine holds. The run does not end because of the code.
That the code has fewer than 2⁶⁴ bytes holds of any code in memory. -/
theorem assembled_control_flow_confined {steps : List AssemblyStep} {p : Program}
    (hsteps : ∀ s ∈ steps, s.byLabel) (hp : (Assembly.afterAll {} steps).finish = .ok p)
    (hsize : p.code.size < 2 ^ 64) (config : Config) (sink : Sink) (n : Nat) :
    p.Confines (Run.advance ⟨.start config p, sink⟩ n) :=
  (Assembly.sealed_of_byLabel hsteps hp hsize).confines hsize config sink n

/-- A function at a label that is placed later is pushed, called and returned from. -/
theorem labelled_call_confined :
    let steps : List AssemblyStep := [
      .newLabel (some "callee"), .emitWith .pushInt (.u8 0), .emitJump .pushFunction ⟨0⟩,
      .emitWith .call (.u16 0), .emit .ret, .placeLabel ⟨0⟩, .emit .pushTrue, .emit .ret]
    let p : Program := {
      code := #[0x03, 0, 0x0b, 15, 0, 0, 0, 0, 0, 0, 0, 0x23, 0, 0, 0x24, 0x01, 0x24] }
    (∀ s ∈ steps, s.byLabel) ∧ (Assembly.afterAll {} steps).finish = .ok p ∧
      p.code.size < 2 ^ 64 ∧ p.Confines (Run.advance ⟨.start {} p, {}⟩ 6) := by
  intro steps p
  have hsteps : ∀ s ∈ steps, s.byLabel := by decide
  have hp : (Assembly.afterAll {} steps).finish = .ok p := by decide +kernel
  have hsize : p.code.size < 2 ^ 64 := by decide
  exact ⟨hsteps, hp, hsize, assembled_control_flow_confined hsteps hp hsize {} {} 6⟩

end StackMachine
