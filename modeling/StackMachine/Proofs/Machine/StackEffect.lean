import StackMachine.Machine.Execute
import StackMachine.Proofs.Prelude

/-!
# Stack effects

The opcode and the immediate of an instruction say how many values it takes from the top of the
stack and how many it gives for them (`Opcode.need`, `Opcode.given`). An instruction underflows
exactly on a stack with fewer values than it needs, but that a conditional jump first looks where it
would go; and where it succeeds nothing below those values has changed (`stack_effect_static`).
-/

namespace StackMachine

/-! ## The effect of an opcode -/

/-- How many values an instruction takes from the stack, by its immediate. -/
def Opcode.need (op : Opcode) (n : Nat) : Nat :=
  match op with
  | .makeArray => n
  | .makeTable => 2 * n
  | .makeFlaggedTable => 3 * n
  | .makeDerivedTable => 2 * n + 1
  | .makeDerivedFlaggedTable => 3 * n + 1
  | .call => n + 1
  | .set => 3
  | .add | .sub | .mul | .div | .mod | .eq | .ne | .lt | .le | .gt | .ge | .get | .delete => 2
  | .pushFunction | .pop | .dup | .define | .destructure | .store | .jumpIf | .jumpUnless => 1
  | .neg | .not | .inspect | .isNil | .identity => 1
  | .pushNil | .pushTrue | .pushFalse | .pushInt | .pushNumber | .pushString | .load => 0
  | .enterScope | .leaveScope | .jump | .ret => 0

/-- How many values an instruction leaves in place of those, by its immediate. -/
def Opcode.given (op : Opcode) (n : Nat) : Nat :=
  match op with
  | .call => n
  | .dup => 2
  | .set | .delete | .pop | .define | .destructure | .store => 0
  | .jump | .jumpIf | .jumpUnless | .ret | .enterScope | .leaveScope => 0
  | _ => 1

/-- By how much an instruction makes the stack higher. -/
def Opcode.delta (op : Opcode) (n : Nat) : Int := op.given n - op.need n

example : Opcode.makeDerivedFlaggedTable.delta 4 = -12 ∧ Opcode.call.delta 7 = -1 := by decide

namespace Exec

variable {α β : Type} {need given taken more : Nat}

/-! ## Computations that trade values -/

/-- A computation on this machine needs so many values on the stack: with fewer it underflows, and
otherwise, unless it fails for another reason, it gives so many values in their place. -/
def TradesAt (x : Exec α) (m : Machine) (need given : Nat) : Prop :=
  match x m with
  | .ok _ n => need ≤ m.stack.size ∧ ∃ out : List Value, out.length = given ∧
      n.stack.toList = m.stack.toList.take (m.stack.size - need) ++ out
  | .error e _ => e = .stackUnderflow ↔ m.stack.size < need

theorem TradesAt.underflow_iff {x : Exec α} {m : Machine} (h : TradesAt x m need given) :
    (∃ n, x m = .error .stackUnderflow n) ↔ m.stack.size < need := by
  unfold TradesAt at h
  cases hrun : x m with
  | ok a n =>
    rw [hrun] at h
    exact ⟨nofun, fun hfew => absurd hfew (Nat.not_lt.2 h.1)⟩
  | error e n =>
    rw [hrun] at h
    constructor
    · rintro ⟨k, hk⟩
      exact h.1 (EStateM.Result.error.inj hk).1
    · intro hfew
      exact ⟨n, by rw [h.2 hfew]⟩

/-- What a success leaves: the stack is higher by what was given, and was high enough. -/
theorem TradesAt.size_of_ok {x : Exec α} {m n : Machine} {a : α} (h : TradesAt x m need given)
    (hrun : x m = .ok a n) : need ≤ m.stack.size ∧ n.stack.size + need = m.stack.size + given := by
  rw [TradesAt, hrun] at h
  obtain ⟨henough, out, hout, hstack⟩ := h
  have hsize := congrArg List.length hstack
  rw [List.length_append, List.length_take, hout, Array.length_toList, Array.length_toList] at hsize
  exact ⟨henough, by omega⟩

/-- What a success leaves: below the values that it needed nothing has changed. -/
theorem TradesAt.getElem?_of_ok {x : Exec α} {m n : Machine} {a : α} (h : TradesAt x m need given)
    (hrun : x m = .ok a n) {place : Nat} (hplace : place < m.stack.size - need) :
    n.stack[place]? = m.stack[place]? := by
  rw [TradesAt, hrun] at h
  obtain ⟨henough, out, -, hstack⟩ := h
  have hbelow : place < (m.stack.toList.take (m.stack.size - need)).length := by
    rw [List.length_take, Array.length_toList]
    omega
  rw [← Array.getElem?_toList, hstack, List.getElem?_append_left hbelow,
    List.getElem?_take_of_lt hplace, Array.getElem?_toList]

/-- A computation trades so many values for so many others on every machine. -/
def Trades (x : Exec α) (need given : Nat) : Prop :=
  ∀ m, TradesAt x m need given

/-- A computation only takes values from the stack, and fails only if there are too few. -/
def Takes (x : Exec α) (taken : Nat) : Prop :=
  ∀ m : Machine,
    match x m with
    | .ok _ n => taken ≤ m.stack.size ∧
        n.stack.toList = m.stack.toList.take (m.stack.size - taken)
    | .error e _ => e = .stackUnderflow ∧ m.stack.size < taken

theorem Takes.trades {x : Exec α} (hx : Takes x taken) : Trades x taken 0 := by
  intro m
  have hm := hx m
  unfold TradesAt
  cases hrun : x m with
  | ok a n =>
    rw [hrun] at hm
    exact ⟨hm.1, [], rfl, by rw [hm.2, List.append_nil]⟩
  | error e n =>
    rw [hrun] at hm
    exact ⟨fun _ => hm.2, fun _ => hm.1⟩

theorem Trades.pure (a : α) : Trades (Pure.pure a : Exec α) 0 0 := fun m =>
  ⟨Nat.zero_le _, [], rfl, by simp⟩

/-- What fails for another reason than an underflow trades nothing. -/
theorem Trades.throw {e : Fault} (he : e ≠ .stackUnderflow) :
    Trades (throw e : Exec α) 0 given := fun _ =>
  ⟨fun h => absurd h he, fun h => absurd h (Nat.not_lt_zero _)⟩

/-- **Values are taken first**, and more are needed of those that are left. -/
theorem Takes.bind {x : Exec α} {f : α → Exec β} (hx : Takes x taken)
    (hf : ∀ a, Trades (f a) need given) : Trades (x >>= f) (need + taken) given := by
  intro m
  have hm := hx m
  unfold TradesAt
  cases hrun : x m with
  | error e n =>
    rw [hrun] at hm
    rw [bind_of_error hrun]
    exact ⟨fun _ => Nat.lt_add_left need hm.2, fun _ => hm.1⟩
  | ok a n =>
    rw [hrun] at hm
    obtain ⟨henough, hstack⟩ := hm
    have hsize : n.stack.size = m.stack.size - taken := by
      rw [← Array.length_toList, hstack, List.length_take, Array.length_toList]
      exact Nat.min_eq_left (Nat.sub_le _ _)
    have hrest := hf a n
    rw [TradesAt, hsize] at hrest
    rw [bind_of_ok hrun]
    cases hnext : f a n with
    | error e k =>
      rw [hnext] at hrest
      exact hrest.trans (by omega)
    | ok b k =>
      rw [hnext] at hrest
      obtain ⟨henough', out, hout, hstack'⟩ := hrest
      refine ⟨by omega, out, hout, ?_⟩
      rw [hstack', hstack, List.take_take, Nat.sub_sub, Nat.add_comm need]
      rw [Nat.min_eq_left (by omega)]

/-- **Values are given last**, after a computation that leaves its own. -/
theorem Trades.bind {x : Exec α} {f : α → Exec β} (hx : Trades x need given)
    (hf : ∀ a, Trades (f a) 0 more) : Trades (x >>= f) need (more + given) := by
  intro m
  have hm := hx m
  unfold TradesAt at hm ⊢
  cases hrun : x m with
  | error e n =>
    rw [hrun] at hm
    rw [bind_of_error hrun]
    exact hm
  | ok a n =>
    rw [hrun] at hm
    obtain ⟨henough, out, hout, hstack⟩ := hm
    have hrest := hf a n
    unfold TradesAt at hrest
    rw [bind_of_ok hrun]
    cases hnext : f a n with
    | error e k =>
      rw [hnext] at hrest
      exact hrest.trans (by omega)
    | ok b k =>
      rw [hnext] at hrest
      obtain ⟨-, out', hout', hstack'⟩ := hrest
      refine ⟨henough, out ++ out', by rw [List.length_append, hout, hout', Nat.add_comm], ?_⟩
      have hall : n.stack.toList.take (n.stack.size - 0) = n.stack.toList := by simp
      rw [hstack', hall, hstack, List.append_assoc]

/-- A computation that does not look at the stack, and fails for other reasons only. -/
theorem Trades.aside {x : Exec α}
    (hx : ∀ m, match x m with
      | .ok _ n => n.stack = m.stack
      | .error e _ => e ≠ .stackUnderflow) : Trades x 0 0 := by
  intro m
  have hm := hx m
  unfold TradesAt
  cases hrun : x m with
  | ok a n =>
    rw [hrun] at hm
    exact ⟨Nat.zero_le _, [], rfl, by rw [hm]; simp⟩
  | error e n =>
    rw [hrun] at hm
    exact ⟨fun h => absurd h hm, fun h => absurd h (Nat.not_lt_zero _)⟩

end Exec

namespace Machine

open Exec (Trades TradesAt Takes)

/-! ## The operand stack and the heap -/

/-- A stack with a top value is what is below it, and that value. -/
private theorem toList_of_back? {xs : Array Value} {v : Value} (h : xs.back? = some v) :
    1 ≤ xs.size ∧ xs.toList.take (xs.size - 1) ++ [v] = xs.toList := by
  have hlast : v ∈ xs.toList.getLast? := by simp [h]
  have hsplit := List.dropLast_append_getLast? v hlast
  rw [List.dropLast_eq_take, Array.length_toList] at hsplit
  have hnonempty : xs ≠ #[] := fun hempty => by
    rw [hempty] at h
    contradiction
  exact ⟨Array.size_pos_iff.2 hnonempty, hsplit⟩

theorem takes_pop : Takes pop 1 := by
  intro m
  unfold pop
  cases hback : m.stack.back? with
  | none =>
    have hempty : m.stack = #[] := Array.back?_eq_none_iff.1 hback
    exact ⟨rfl, by rw [hempty]; decide⟩
  | some v =>
    refine ⟨(toList_of_back? hback).1, ?_⟩
    show m.stack.pop.toList = _
    rw [Array.toList_pop, List.dropLast_eq_take, Array.length_toList]

theorem takes_take (n : Nat) : Takes (take n) n := by
  intro m
  unfold take
  by_cases hfew : m.stack.size < n
  · rw [if_pos hfew]
    exact ⟨rfl, hfew⟩
  · rw [if_neg hfew]
    refine ⟨Nat.le_of_not_lt hfew, ?_⟩
    show (m.stack.shrink (m.stack.size - n)).toList = _
    simp

theorem takes_get : Takes get 0 := fun m => ⟨Nat.zero_le _, by simp⟩

theorem takes_make (f : Heap → Value × Heap) : Takes (make f) 0 :=
  fun m => ⟨Nat.zero_le _, by simp⟩

theorem takes_modify {f : Machine → Machine} (hf : ∀ m, (f m).stack = m.stack) :
    Takes (modify f) 0 :=
  fun m => ⟨Nat.zero_le _, by simp [hf]⟩

theorem trades_push (v : Value) : Trades (push v) 0 1 := by
  intro m
  unfold TradesAt push
  by_cases hfull : m.config.maxStack ≤ m.stack.size
  · rw [if_pos hfull]
    exact ⟨nofun, fun h => absurd h (Nat.not_lt_zero _)⟩
  · rw [if_neg hfull]
    exact ⟨Nat.zero_le _, [v], rfl, by simp⟩

theorem trades_top : Trades top 1 1 := by
  intro m
  unfold TradesAt top
  cases hback : m.stack.back? with
  | none =>
    have hempty : m.stack = #[] := Array.back?_eq_none_iff.1 hback
    exact ⟨fun _ => by rw [hempty]; decide, fun _ => rfl⟩
  | some v =>
    obtain ⟨henough, hsplit⟩ := toList_of_back? hback
    exact ⟨henough, [v], rfl, hsplit.symm⟩

/-- A value that was made is pushed. -/
theorem trades_make (f : Heap → Value × Heap) : Trades (do push (← make f)) 0 1 :=
  (takes_make f).bind fun v => trades_push v

theorem trades_liftAccess {α : Type} (result : Except AccessError α) :
    Trades (liftAccess result) 0 0 := by
  refine Trades.aside fun m => ?_
  cases result with
  | ok a => rfl
  | error e => exact nofun

theorem trades_updateHeap (f : Heap → Except AccessError Heap) : Trades (updateHeap f) 0 0 := by
  refine Trades.aside fun m => ?_
  unfold updateHeap
  cases f m.heap with
  | ok heap => rfl
  | error e => exact nofun

/-! ## Pushing -/

theorem trades_pushString (index : Nat) : Trades (pushString index) 0 1 := by
  refine takes_get.bind fun m => ?_
  split
  · exact Trades.throw nofun
  · exact trades_make _

/-- A fault that shows a value which was taken off the stack. -/
private theorem trades_mismatch (op : Opcode) (v : Value) :
    Trades (do throw (.typeMismatch op ((← get).heap.render v)) : Exec Unit) 0 1 :=
  takes_get.bind fun _ => Trades.throw nofun

theorem trades_pushFunction (address : Nat) : Trades (pushFunction address) 1 1 := by
  refine takes_pop.bind fun arity => ?_
  split
  · split
    · exact trades_push _
    · exact trades_mismatch _ arity
  · exact trades_mismatch _ arity

/-- No value of a table is missed once all of them were taken. -/
theorem setPairs_ne_underflow :
    ∀ (t : Table) (items : List Value), setPairs t items ≠ .error .stackUnderflow
  | t, [] => nofun
  | t, [_] => nofun
  | t, key :: value :: rest => by
    rw [setPairs]
    cases key.toKey with
    | ok k => exact setPairs_ne_underflow _ rest
    | error e => exact nofun

theorem setTriples_ne_underflow (h : Heap) :
    ∀ (t : Table) (items : List Value), setTriples h t items ≠ .error .stackUnderflow
  | t, [] => nofun
  | t, [_] => nofun
  | t, [_, _] => nofun
  | t, key :: flags :: value :: rest => by
    rw [setTriples]
    cases flagsOf? flags with
    | none => exact nofun
    | some f =>
      cases key.toKey with
      | ok k => exact setTriples_ne_underflow h _ rest
      | error e => exact nofun

theorem trades_makeTable {n need : Nat} (derived flagged : Bool)
    (hneed : tableNeed n derived flagged = need) :
    Trades (makeTable n derived flagged) need 1 := by
  subst hneed
  refine (takes_take _).trades.bind fun items => takes_get.bind fun m => ?_
  split
  · exact trades_make _
  · next e he =>
    refine Trades.throw fun hunderflow => ?_
    rw [hunderflow, tableOf] at he
    split at he
    · exact setTriples_ne_underflow _ _ _ he
    · exact setPairs_ne_underflow _ _ he

/-! ## Variables and scopes -/

theorem trades_define : Trades define 1 0 :=
  takes_pop.bind fun _ => (takes_modify fun _ => rfl).trades

theorem trades_destructure (expected : Nat) : Trades (destructure expected) 1 0 := by
  refine takes_pop.bind fun v => ?_
  split
  · refine takes_get.bind fun m => ?_
    dsimp only
    split
    · exact (takes_modify fun _ => rfl).trades
    · exact Trades.throw nofun
  · exact Trades.throw nofun

theorem trades_loadVariable (index : Nat) : Trades (loadVariable index) 0 1 := by
  refine takes_get.bind fun m => ?_
  split
  · exact trades_push _
  · exact Trades.throw nofun

theorem trades_storeVariable (index : Nat) : Trades (storeVariable index) 1 0 := by
  refine takes_pop.bind fun v => takes_get.bind fun m => ?_
  dsimp only
  split
  · exact (takes_modify fun _ => rfl).trades
  · exact Trades.throw nofun

theorem trades_enterScope : Trades enterScope 0 0 := (takes_modify fun _ => rfl).trades

theorem trades_leaveScope : Trades leaveScope 0 0 := by
  refine Trades.aside fun m => ?_
  unfold leaveScope
  cases m.marks with
  | nil => exact nofun
  | cons mark marks => rfl

/-! ## Operators and access -/

theorem trades_negate : Trades negate 1 1 := by
  refine takes_pop.bind fun v => ?_
  split
  · exact trades_push _
  · exact Trades.throw nofun

theorem trades_binary (op : Opcode) (a b : Value) : Trades (binary op a b) 0 0 := by
  refine takes_get.bind fun m => ?_
  dsimp only
  split
  · exact Trades.pure _
  · exact Trades.pure _
  · split
    · exact Trades.pure _
    · exact Trades.throw nofun
  · exact (takes_make _).trades
  · split
    · exact Trades.pure _
    · exact Trades.throw nofun
  · exact Trades.throw nofun

theorem trades_operator (op : Opcode) : Trades (operator op) 2 1 :=
  takes_pop.bind fun b => takes_pop.bind fun a =>
    (trades_binary op a b).bind fun v => trades_push v

theorem trades_replace (f : Machine → Value → Value) : Trades (replace f) 1 1 :=
  takes_pop.bind fun _ => takes_get.bind fun _ => trades_push _

theorem trades_getIndexed : Trades getIndexed 2 1 :=
  takes_pop.bind fun _ => takes_pop.bind fun _ => takes_get.bind fun _ =>
    (trades_liftAccess _).bind fun v => trades_push v

theorem trades_setIndexed : Trades setIndexed 3 0 :=
  takes_pop.bind fun _ => takes_pop.bind fun _ => takes_pop.bind fun _ => trades_updateHeap _

theorem trades_deleteIndexed : Trades deleteIndexed 2 0 :=
  takes_pop.bind fun _ => takes_pop.bind fun _ => trades_updateHeap _

theorem trades_inspect : Trades inspect 1 1 :=
  takes_pop.bind fun _ => takes_get.bind fun _ => trades_make _

/-! ## Control -/

theorem trades_checkTarget (target : Nat) : Trades (checkTarget target) 0 0 := by
  refine Trades.aside fun m => ?_
  unfold checkTarget
  by_cases hinside : target ≤ m.program.code.size
  · rw [if_pos hinside]
  · rw [if_neg hinside]
    exact nofun

theorem trades_jump (target : Nat) : Trades (jump target) 0 0 :=
  (trades_checkTarget target).bind fun _ => Trades.pure _

/-- A conditional jump that is not out of the code takes its condition. -/
theorem tradesAt_jumpWhen {m : Machine} {target : Nat} (truth : Bool)
    (hinside : target ≤ m.program.code.size) : TradesAt (jumpWhen truth target) m 1 0 := by
  have hchecked : checkTarget target m = .ok () m := if_pos hinside
  have hrest : Trades (do
      let v ← pop
      let m ← get
      Pure.pure (if m.heap.truthy v = truth then Flow.jump target else .next)) 1 0 :=
    takes_pop.bind fun _ => takes_get.bind fun _ => Trades.pure _
  have hm := hrest m
  rw [TradesAt] at hm ⊢
  rw [jumpWhen, bind_of_ok hchecked]
  exact hm

/-- A conditional jump out of the code fails before it looks at the stack. -/
theorem jumpWhen_outside {m : Machine} {target : Nat} (truth : Bool)
    (houtside : m.program.code.size < target) :
    jumpWhen truth target m = .error (.invalidJump target) m :=
  bind_of_error (if_neg (Nat.not_le.2 houtside))

/-- A call that succeeds has found a function below its arguments, and has taken it off. -/
theorem exists_of_call_ok {count back : Nat} {m n : Machine} {flow : Flow}
    (h : call count back m = .ok flow n) :
    count + 1 ≤ m.stack.size ∧ ∃ f,
      m.stack[m.stack.size - (count + 1)]? = some (.function f) ∧
      n = { m with
        stack := m.stack.eraseIdxIfInBounds (m.stack.size - (count + 1))
        pristine := m.pristine && m.stack.size != 1
        frames := m.frames.push back } := by
  unfold call at h
  by_cases hfew : m.stack.size < count + 1
  · rw [if_pos hfew] at h
    contradiction
  · rw [if_neg hfew, Nat.sub_sub] at h
    have hslot : m.stack.size - (count + 1) < m.stack.size := by omega
    refine ⟨Nat.le_of_not_lt hfew, ?_⟩
    dsimp only at h
    split at h
    · next f hf =>
      split at h
      · contradiction
      · split at h
        · contradiction
        · split at h
          · contradiction
          · obtain ⟨-, rfl⟩ := EStateM.Result.ok.inj h
            rw [Array.getD, dif_pos hslot] at hf
            exact ⟨f, Array.getElem?_eq_some_iff.2 ⟨hslot, hf⟩, rfl⟩
    · contradiction

/-- A call takes the function from below its arguments, which stay in order. -/
theorem toList_of_call_ok {count back : Nat} {m n : Machine} {flow : Flow}
    (h : call count back m = .ok flow n) :
    count + 1 ≤ m.stack.size ∧ n.stack.toList =
      m.stack.toList.take (m.stack.size - (count + 1)) ++
        m.stack.toList.drop (m.stack.size - count) := by
  obtain ⟨henough, f, -, rfl⟩ := exists_of_call_ok h
  have hnext : m.stack.size - (count + 1) + 1 = m.stack.size - count := by omega
  refine ⟨henough, ?_⟩
  rw [Array.toList_eraseIdxIfInBounds, List.eraseIdx_eq_take_drop_succ, hnext]

theorem trades_call (count back : Nat) : Trades (call count back) (count + 1) count := by
  intro m
  unfold TradesAt
  cases hrun : call count back m with
  | ok flow n =>
    obtain ⟨henough, hstack⟩ := toList_of_call_ok hrun
    refine ⟨henough, _, ?_, hstack⟩
    rw [List.length_drop, Array.length_toList]
    omega
  | error e n =>
    unfold call at hrun
    by_cases hfew : m.stack.size < count + 1
    · rw [if_pos hfew] at hrun
      exact ⟨fun _ => hfew, fun _ => (EStateM.Result.error.inj hrun).1.symm⟩
    · rw [if_neg hfew] at hrun
      refine ⟨fun he => ?_, fun h => absurd h hfew⟩
      -- The checks that follow fail for reasons of their own.
      rw [he] at hrun
      dsimp only at hrun
      split at hrun
      · split at hrun
        · cases hrun
        · split at hrun
          · cases hrun
          · split at hrun
            · cases hrun
            · cases hrun
      · cases hrun

theorem trades_ret : Trades ret 0 0 := by
  refine Trades.aside fun m => ?_
  unfold ret
  cases m.frames.back? <;> rfl

/-! ## Instructions -/

/-- What leads on to the next instruction trades as its opcode says. -/
theorem trades_operate (op : Opcode) (a : Argument)
    (hop : op ∉ [.jump, .jumpIf, .jumpUnless, .call, .ret]) :
    Trades (operate op a) (op.need a.toNat) (op.given a.toNat) := by
  cases op with
  | pushNil | pushTrue | pushFalse | pushInt | pushNumber => exact trades_push _
  | pushString => exact trades_pushString _
  | makeArray => exact (takes_take _).trades.bind fun items => trades_make _
  | makeTable => exact trades_makeTable false false (by simp [tableNeed, Opcode.need, Nat.mul_comm])
  | makeFlaggedTable =>
    exact trades_makeTable false true (by simp [tableNeed, Opcode.need, Nat.mul_comm])
  | makeDerivedTable =>
    exact trades_makeTable true false (by simp [tableNeed, Opcode.need, Nat.mul_comm])
  | makeDerivedFlaggedTable =>
    exact trades_makeTable true true (by simp [tableNeed, Opcode.need, Nat.mul_comm])
  | pushFunction => exact trades_pushFunction _
  | pop => exact takes_pop.bind fun _ => Trades.pure _
  | dup => exact trades_top.bind fun v => trades_push v
  | define => exact trades_define
  | destructure => exact trades_destructure _
  | load => exact trades_loadVariable _
  | store => exact trades_storeVariable _
  | enterScope => exact trades_enterScope
  | leaveScope => exact trades_leaveScope
  | neg => exact trades_negate
  | not => exact trades_replace fun m v => .bool !(m.heap.truthy v)
  | isNil => exact trades_replace fun _ v => .bool v.isNil
  | identity => exact trades_replace fun m v => m.config.addresses.shown v
  | add | sub | mul | div | mod | eq | ne | lt | le | gt | ge => exact trades_operator _
  | get => exact trades_getIndexed
  | set => exact trades_setIndexed
  | delete => exact trades_deleteIndexed
  | inspect => exact trades_inspect
  | jump | jumpIf | jumpUnless | call | ret => simp at hop

end Machine

/-- A conditional jump to an address that is neither in the code nor just after it. -/
def Instruction.JumpsOutside (i : Instruction) (p : Program) : Prop :=
  (i.opcode = .jumpIf ∨ i.opcode = .jumpUnless) ∧ p.code.size < i.argument.toNat

namespace Machine

open Exec (Trades TradesAt)

/-- **Every instruction trades as its opcode says**, unless it is a conditional jump out of the
code. -/
theorem tradesAt_execute (i : Instruction) (m : Machine) (hinside : ¬i.JumpsOutside m.program) :
    TradesAt (execute i) m (i.opcode.need i.argument.toNat) (i.opcode.given i.argument.toNat) := by
  have hlead (hop : i.opcode ∉ [.jump, .jumpIf, .jumpUnless, .call, .ret]) :
      TradesAt (do operate i.opcode i.argument; pure Flow.next : Exec Flow) m
        (i.opcode.need i.argument.toNat) (0 + i.opcode.given i.argument.toNat) :=
    (trades_operate i.opcode i.argument hop).bind (fun _ => Trades.pure _) m
  rw [Nat.zero_add] at hlead
  obtain ⟨offset, op, a⟩ := i
  cases op with
  | jump => exact trades_jump _ m
  | jumpIf => exact tradesAt_jumpWhen true (Nat.not_lt.1 fun h => hinside ⟨.inl rfl, h⟩)
  | jumpUnless => exact tradesAt_jumpWhen false (Nat.not_lt.1 fun h => hinside ⟨.inr rfl, h⟩)
  | call => exact trades_call _ _ m
  | ret => exact trades_ret m
  | _ => exact hlead (by simp)

/-- A conditional jump out of the code fails as such, whatever the stack holds. -/
theorem execute_of_jumpsOutside {i : Instruction} {m : Machine} (h : i.JumpsOutside m.program) :
    execute i m = .error (.invalidJump i.argument.toNat) m := by
  obtain ⟨offset, op, a⟩ := i
  obtain ⟨hop, htarget⟩ := h
  rcases hop with rfl | rfl
  · exact jumpWhen_outside true htarget
  · exact jumpWhen_outside false htarget

/-- An instruction that succeeds has traded as its opcode says. -/
theorem size_of_execute_ok {i : Instruction} {m n : Machine} {flow : Flow}
    (h : execute i m = .ok flow n) :
    i.opcode.need i.argument.toNat ≤ m.stack.size ∧
      n.stack.size + i.opcode.need i.argument.toNat =
        m.stack.size + i.opcode.given i.argument.toNat := by
  have hinside : ¬i.JumpsOutside m.program := fun houtside => by
    rw [execute_of_jumpsOutside houtside] at h
    contradiction
  exact (tradesAt_execute i m hinside).size_of_ok h

/-- **The stack effect of an instruction is static.** It depends on the opcode and the immediate
only. A conditional jump out of the code fails as such, whatever the stack holds. Otherwise an
instruction underflows exactly when the stack holds fewer values than it needs; and when it succeeds
the stack is higher by what its opcode says, and each place below the values that it needed holds
what it held. The arguments of a call stay in order above those. -/
theorem stack_effect_static (i : Instruction) (m : Machine) :
    let need := i.opcode.need i.argument.toNat
    (i.JumpsOutside m.program →
      execute i m = .error (.invalidJump i.argument.toNat) m) ∧
    (¬i.JumpsOutside m.program →
      ((∃ n, execute i m = .error .stackUnderflow n) ↔ m.stack.size < need)) ∧
    ∀ flow n, execute i m = .ok flow n →
      (n.stack.size : Int) = m.stack.size + i.opcode.delta i.argument.toNat ∧
      (∀ place < m.stack.size - need, n.stack[place]? = m.stack[place]?) ∧
      (i.opcode = .call → n.stack.toList.drop (m.stack.size - need) =
        m.stack.toList.drop (m.stack.size - i.argument.toNat)) := by
  intro need
  refine ⟨execute_of_jumpsOutside, fun hinside => (tradesAt_execute i m hinside).underflow_iff, ?_⟩
  intro flow n hrun
  have hinside : ¬i.JumpsOutside m.program := fun h => by
    rw [execute_of_jumpsOutside h] at hrun
    contradiction
  have htrades := tradesAt_execute i m hinside
  obtain ⟨henough, hsize⟩ := htrades.size_of_ok hrun
  refine ⟨?_, fun place hplace => htrades.getElem?_of_ok hrun hplace, ?_⟩
  · rw [Opcode.delta]
    omega
  · intro hop
    obtain ⟨offset, op, a⟩ := i
    obtain rfl : op = .call := hop
    obtain ⟨-, hstack⟩ := toList_of_call_ok hrun
    have hbelow : (m.stack.toList.take (m.stack.size - need)).length = m.stack.size - need := by
      rw [List.length_take, Array.length_toList]
      exact Nat.min_eq_left (Nat.sub_le _ _)
    rw [hstack]
    exact List.drop_left' hbelow

end Machine
end StackMachine
