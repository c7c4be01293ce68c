import StackMachine.Machine.Execute
import StackMachine.Proofs.Prelude

/-!
# Keys that errors quote

An access fails with a quoted key when the key is not there, or is no index of an array. What is
quoted is the text of the key that was given (`Heap.Fails.quotes`), whichever container the access
came to along the prototypes: what is in a container shows in the text of a key only if the key is
that container. An instruction quotes no other key than the operand that it accesses a container by
(`Machine.execute_quotes`).
-/

namespace StackMachine

/-- The key that an error quotes. -/
def AccessError.quoted? : AccessError → Option String
  | keyNotFound key | invalidIndex key => some key
  | notHashable _ | notIndexable _ | indexOutOfRange _ _ | chainTooDeep _ => none

/-- The key that a fault quotes. -/
def Fault.quoted? : Fault → Option String
  | access e => e.quoted?
  | _ => none

/-! ## Access -/

namespace Heap

variable {α β : Type} {h : Heap} {key : Value} {text : String}

/-- If a result is an error that quotes a key, it quotes the text of the given one. -/
def Quotes (h : Heap) (key : Value) (result : Except AccessError α) : Prop :=
  ∀ e text, result = .error e → e.quoted? = some text → text = h.render key

theorem quotes_ok (a : α) : h.Quotes key (.ok a) := nofun

/-- An error without a key. -/
theorem quotes_error {e : AccessError} (he : e.quoted? = none) :
    h.Quotes key (.error e : Except AccessError α) := by
  rintro _ text ⟨⟩ htext
  rw [he] at htext
  contradiction

/-- An error with the key. -/
theorem quotes_key {e : AccessError} (he : e.quoted? = some (h.render key)) :
    h.Quotes key (.error e : Except AccessError α) := by
  rintro _ text ⟨⟩ htext
  rw [he] at htext
  exact (Option.some.inj htext).symm

theorem Quotes.bind {x : Except AccessError α} {f : α → Except AccessError β}
    (hx : h.Quotes key x) (hf : ∀ a, x = .ok a → h.Quotes key (f a)) : h.Quotes key (x >>= f) := by
  intro e text he
  rcases bind_eq_error he with he | ⟨a, ha, he⟩
  · exact hx e text he
  · exact hf a ha e text he

theorem render_scalar (h : Heap) (k : Scalar) : h.render (.scalar k) = k.text := by
  rw [render, renderIn]
  rfl

theorem quotes_keyNotFound (h : Heap) (k : Scalar) :
    h.Quotes (.scalar k) (.error (.keyNotFound k.text) : Except AccessError α) :=
  quotes_key (congrArg some (h.render_scalar k).symm)

theorem quotes_index (h : Heap) (key : Value) : h.Quotes key (h.index key) := by
  unfold index
  split
  · exact quotes_ok _
  · exact quotes_key rfl

theorem quotes_item (h : Heap) (id : Nat) (key : Value) : h.Quotes key (h.item id key) := by
  refine Quotes.bind (h.quotes_index key) fun i _ => ?_
  split
  · exact quotes_ok _
  · exact quotes_error rfl

/-- A value that is no key is not quoted. -/
theorem quotes_toKey_bind {f : Scalar → Except AccessError β}
    (hf : ∀ k, key = .scalar k → h.Quotes key (f k)) : h.Quotes key (key.toKey >>= f) := by
  cases key with
  | scalar k => exact hf k rfl
  | ref r => exact quotes_error rfl

/-- **A chain of prototypes** quotes the key that it began with. -/
theorem quotes_lookupWithin (h : Heap) (links id : Nat) (k : Scalar) :
    h.Quotes (.scalar k) (h.lookupWithin links id k) := by
  induction links generalizing id with
  | zero =>
    unfold lookupWithin
    split
    · exact quotes_ok _
    · split
      · exact h.quotes_keyNotFound k
      · exact quotes_error rfl
      · exact h.quotes_item _ _
      · exact quotes_error rfl
  | succ links ih =>
    unfold lookupWithin
    split
    · exact quotes_ok _
    · split
      · exact h.quotes_keyNotFound k
      · exact quotes_error rfl
      · exact h.quotes_item _ _
      · exact ih _

theorem quotes_get (h : Heap) (container key : Value) :
    h.Quotes key (h.get container key) := by
  unfold get
  split
  · exact quotes_error rfl
  · exact h.quotes_item _ key
  · refine quotes_toKey_bind ?_
    rintro k rfl
    exact h.quotes_lookupWithin _ _ k

theorem quotes_lookupFrom (h : Heap) (t : Table) (key : Value) :
    h.Quotes key (h.lookupFrom t key) := by
  refine quotes_toKey_bind ?_
  rintro k rfl
  split
  · exact quotes_ok _
  · split
    · exact h.quotes_keyNotFound k
    · exact h.quotes_lookupWithin _ _ k
    · exact h.quotes_get _ _

theorem quotes_set (h : Heap) (container key value : Value) :
    h.Quotes key (h.set container key value) := by
  unfold set
  split
  · exact quotes_error rfl
  · refine Quotes.bind (h.quotes_index key) fun i _ => ?_
    dsimp only
    split
    · exact quotes_ok _
    · split
      · exact quotes_ok _
      · exact quotes_error rfl
  · exact quotes_toKey_bind fun k _ => quotes_ok _

theorem quotes_delete (h : Heap) (container key : Value) :
    h.Quotes key (h.delete container key) := by
  unfold delete
  split
  · exact quotes_error rfl
  · refine Quotes.bind (h.quotes_index key) fun i _ => ?_
    split
    · exact quotes_error rfl
    · exact quotes_ok _
  · refine quotes_toKey_bind ?_
    rintro k rfl
    split
    · exact h.quotes_keyNotFound k
    · split
      · exact h.quotes_keyNotFound k
      · exact quotes_ok _

/-- An access by a key fails. -/
inductive Fails (h : Heap) (key : Value) (e : AccessError) : Prop
  | get (container : Value) (hget : h.get container key = .error e)
  | lookup (t : Table) (hlookup : h.lookupFrom t key = .error e)
  | set (container value : Value) (hset : h.set container key value = .error e)
  | delete (container : Value) (hdelete : h.delete container key = .error e)

/-- **An access that fails quotes the text of its key**, if it quotes any. -/
theorem Fails.quotes {e : AccessError} (hfails : h.Fails key e)
    (hquoted : e.quoted? = some text) : text = h.render key := by
  cases hfails with
  | get container hget => exact h.quotes_get container key e text hget hquoted
  | lookup t hlookup => exact h.quotes_lookupFrom t key e text hlookup hquoted
  | set container value hset => exact h.quotes_set container key value e text hset hquoted
  | delete container hdelete => exact h.quotes_delete container key e text hdelete hquoted

end Heap

/-! ## Instructions -/

namespace Exec

variable {α β : Type} {E : Fault → Prop} {m : Machine}

/-- However a computation fails on a machine, its fault satisfies `E`. -/
def FailsOnly (E : Fault → Prop) (x : Exec α) (m : Machine) : Prop :=
  ∀ why n, x m = .error why n → E why

/-- A computation that succeeds does not fail. -/
theorem FailsOnly.of_ok {x : Exec α} {a : α} {n : Machine} (h : x m = .ok a n) :
    FailsOnly E x m := by
  intro why n' hfails
  rw [h] at hfails
  contradiction

theorem FailsOnly.pure (a : α) : FailsOnly E (Pure.pure a) m := FailsOnly.of_ok rfl

theorem FailsOnly.get : FailsOnly E get m := FailsOnly.of_ok rfl

theorem FailsOnly.modify (f : Machine → Machine) : FailsOnly E (modify f) m := FailsOnly.of_ok rfl

theorem FailsOnly.throw {why : Fault} (h : E why) : FailsOnly E (throw why : Exec α) m := by
  rintro _ n ⟨⟩
  exact h

/-- **One computation after another.** -/
theorem FailsOnly.bind {x : Exec α} {f : α → Exec β} (hx : FailsOnly E x m)
    (hf : ∀ a n, x m = .ok a n → FailsOnly E (f a) n) : FailsOnly E (x >>= f) m := by
  cases hrun : x m with
  | error why n =>
    intro why' n' h
    rw [bind_of_error hrun] at h
    cases h
    exact hx why n hrun
  | ok a n =>
    intro why' n' h
    rw [bind_of_ok hrun] at h
    exact hf a n hrun why' n' h

end Exec

namespace Machine

open Exec (FailsOnly)

variable {m n : Machine} {E : Fault → Prop}

/-- What is left when a value is taken off the stack. -/
theorem pop_eq_ok {v : Value} (h : pop m = .ok v n) :
    m.stack.back? = some v ∧ n.stack = m.stack.pop ∧ n.heap = m.heap := by
  unfold pop at h
  split at h
  · contradiction
  · next htop =>
    cases h
    exact ⟨htop, rfl, rfl⟩

/-! ### Instructions that access no container -/

section

variable (hE : ∀ why : Fault, why.quoted? = none → E why)

include hE

theorem failsOnly_push (v : Value) : FailsOnly E (push v) m := by
  intro why n h
  unfold push at h
  split at h <;> cases h
  exact hE _ rfl

theorem failsOnly_pop : FailsOnly E pop m := by
  intro why n h
  unfold pop at h
  split at h <;> cases h
  exact hE _ rfl

theorem failsOnly_take (count : Nat) : FailsOnly E (take count) m := by
  intro why n h
  unfold take at h
  split at h <;> cases h
  exact hE _ rfl

theorem failsOnly_top : FailsOnly E top m := by
  intro why n h
  unfold top at h
  split at h <;> cases h
  exact hE _ rfl

theorem failsOnly_make_push (f : Heap → Value × Heap) :
    FailsOnly E (do push (← make f)) m :=
  FailsOnly.bind (FailsOnly.of_ok rfl) fun v _ _ => failsOnly_push hE v

theorem failsOnly_pushString (index : Nat) : FailsOnly E (pushString index) m := by
  refine FailsOnly.bind FailsOnly.get fun m' _ _ => ?_
  split
  · exact FailsOnly.throw (hE _ rfl)
  · exact failsOnly_make_push hE _

theorem failsOnly_pushFunction (address : Nat) : FailsOnly E (pushFunction address) m := by
  have hmismatch (v : Value) (m : Machine) : FailsOnly E
      (do throw (.typeMismatch .pushFunction ((← get).heap.render v)) : Exec Unit) m :=
    FailsOnly.bind FailsOnly.get fun _ _ _ => FailsOnly.throw (hE _ rfl)
  refine FailsOnly.bind (failsOnly_pop hE) fun arity _ _ => ?_
  split
  · split
    · exact failsOnly_push hE _
    · exact hmismatch arity _
  · exact hmismatch arity _

omit hE in
/-- The only access error of a table that is made is about a value that is no key. -/
theorem quoted?_setPairs {why : Fault} :
    ∀ (t : Table) (items : List Value), setPairs t items = .error why → why.quoted? = none
  | _, [] => nofun
  | _, [_] => nofun
  | t, key :: value :: rest => by
    rw [setPairs]
    cases key with
    | scalar k => exact quoted?_setPairs _ rest
    | ref r =>
      rintro ⟨⟩
      rfl

omit hE in
theorem quoted?_setTriples {why : Fault} (h : Heap) :
    ∀ (t : Table) (items : List Value), setTriples h t items = .error why → why.quoted? = none
  | _, [] => nofun
  | _, [_] => nofun
  | _, [_, _] => nofun
  | t, key :: flags :: value :: rest => by
    rw [setTriples]
    cases flagsOf? flags with
    | none =>
      rintro ⟨⟩
      rfl
    | some f =>
      cases key with
      | scalar k => exact quoted?_setTriples h _ rest
      | ref r =>
        rintro ⟨⟩
        rfl

theorem failsOnly_makeTable (count : Nat) (derived flagged : Bool) :
    FailsOnly E (makeTable count derived flagged) m := by
  refine FailsOnly.bind (failsOnly_take hE _) fun items _ _ => ?_
  refine FailsOnly.bind FailsOnly.get fun m' _ _ => ?_
  split
  · exact failsOnly_make_push hE _
  · next why hwhy =>
    refine FailsOnly.throw (hE _ ?_)
    unfold tableOf at hwhy
    cases flagged with
    | true => exact quoted?_setTriples _ _ _ hwhy
    | false => exact quoted?_setPairs _ _ hwhy

theorem failsOnly_define : FailsOnly E define m :=
  FailsOnly.bind (failsOnly_pop hE) fun _ _ _ => FailsOnly.modify _

theorem failsOnly_destructure (expected : Nat) : FailsOnly E (destructure expected) m := by
  refine FailsOnly.bind (failsOnly_pop hE) fun v _ _ => ?_
  split
  · refine FailsOnly.bind FailsOnly.get fun m' _ _ => ?_
    dsimp only
    split
    · exact FailsOnly.modify _
    · exact FailsOnly.throw (hE _ rfl)
  · exact FailsOnly.throw (hE _ rfl)

theorem failsOnly_loadVariable (index : Nat) : FailsOnly E (loadVariable index) m := by
  refine FailsOnly.bind FailsOnly.get fun m' _ _ => ?_
  split
  · exact failsOnly_push hE _
  · exact FailsOnly.throw (hE _ rfl)

theorem failsOnly_storeVariable (index : Nat) : FailsOnly E (storeVariable index) m := by
  refine FailsOnly.bind (failsOnly_pop hE) fun v _ _ => ?_
  refine FailsOnly.bind FailsOnly.get fun m' _ _ => ?_
  dsimp only
  split
  · exact FailsOnly.modify _
  · exact FailsOnly.throw (hE _ rfl)

theorem failsOnly_leaveScope : FailsOnly E leaveScope m := by
  intro why n h
  unfold leaveScope at h
  split at h <;> cases h
  exact hE _ rfl

theorem failsOnly_negate : FailsOnly E negate m := by
  refine FailsOnly.bind (failsOnly_pop hE) fun v _ _ => ?_
  split
  · exact failsOnly_push hE _
  · exact FailsOnly.throw (hE _ rfl)

theorem failsOnly_binary (op : Opcode) (a b : Value) : FailsOnly E (binary op a b) m := by
  refine FailsOnly.bind FailsOnly.get fun m' _ _ => ?_
  dsimp only
  split
  · exact FailsOnly.pure _
  · exact FailsOnly.pure _
  · split
    · exact FailsOnly.pure _
    · exact FailsOnly.throw (hE _ rfl)
  · exact FailsOnly.of_ok rfl
  · split
    · exact FailsOnly.pure _
    · exact FailsOnly.throw (hE _ rfl)
  · exact FailsOnly.throw (hE _ rfl)

theorem failsOnly_operator (op : Opcode) : FailsOnly E (operator op) m :=
  FailsOnly.bind (failsOnly_pop hE) fun b _ _ =>
    FailsOnly.bind (failsOnly_pop hE) fun a _ _ =>
      FailsOnly.bind (failsOnly_binary hE op a b) fun v _ _ => failsOnly_push hE v

theorem failsOnly_replace (f : Machine → Value → Value) : FailsOnly E (replace f) m :=
  FailsOnly.bind (failsOnly_pop hE) fun _ _ _ =>
    FailsOnly.bind FailsOnly.get fun _ _ _ => failsOnly_push hE _

theorem failsOnly_inspect : FailsOnly E inspect m :=
  FailsOnly.bind (failsOnly_pop hE) fun _ _ _ =>
    FailsOnly.bind FailsOnly.get fun _ _ _ => failsOnly_make_push hE _

theorem failsOnly_checkTarget (target : Nat) : FailsOnly E (checkTarget target) m := by
  intro why n h
  unfold checkTarget at h
  split at h <;> cases h
  exact hE _ rfl

theorem failsOnly_jumpWhen (truth : Bool) (target : Nat) :
    FailsOnly E (jumpWhen truth target) m :=
  FailsOnly.bind (failsOnly_checkTarget hE target) fun _ _ _ =>
    FailsOnly.bind (failsOnly_pop hE) fun _ _ _ =>
      FailsOnly.bind FailsOnly.get fun _ _ _ => FailsOnly.pure _

theorem failsOnly_call (count back : Nat) : FailsOnly E (call count back) m := by
  intro why n h
  simp only [call] at h
  split at h
  · cases h
    exact hE _ rfl
  · split at h
    · split_ifs at h <;> cases h <;> exact hE _ rfl
    · cases h
      exact hE _ rfl

end

/-! ### Instructions that access a container -/

variable {text : String}

/-- The operand that an instruction accesses a container by. -/
def keyOperand? (op : Opcode) (stack : Array Value) : Option Value :=
  match op with
  | .get | .delete => stack.back?
  | .set => stack.pop.back?
  | _ => none

/-- A fault quotes no key but the operand. -/
def QuotesOperand (op : Opcode) (m : Machine) (why : Fault) : Prop :=
  ∀ text, why.quoted? = some text →
    ∃ key, keyOperand? op m.stack = some key ∧ text = m.heap.render key

theorem quotesOperand_of_unquoting {op : Opcode} {why : Fault} (h : why.quoted? = none) :
    QuotesOperand op m why := by
  intro text htext
  rw [h] at htext
  contradiction

/-- The heap is changed by an access with the operand. -/
theorem failsOnly_updateHeap {op : Opcode} {key : Value} {f : Heap → Except AccessError Heap}
    (hkey : keyOperand? op m.stack = some key) (hheap : n.heap = m.heap)
    (hf : m.heap.Quotes key (f m.heap)) :
    FailsOnly (QuotesOperand op m) (updateHeap f) n := by
  intro why n' h text htext
  unfold updateHeap at h
  rw [hheap] at h
  split at h
  · contradiction
  · next e he =>
    cases h
    exact ⟨key, hkey, hf e text he htext⟩

theorem failsOnly_getIndexed : FailsOnly (QuotesOperand .get m) getIndexed m := by
  have hE (why : Fault) : why.quoted? = none → QuotesOperand .get m why :=
    quotesOperand_of_unquoting
  refine FailsOnly.bind (failsOnly_pop hE) fun key m₁ h₁ => ?_
  refine FailsOnly.bind (failsOnly_pop hE) fun container m₂ h₂ => ?_
  obtain ⟨htop, -, hheap₁⟩ := pop_eq_ok h₁
  obtain ⟨-, -, hheap₂⟩ := pop_eq_ok h₂
  refine FailsOnly.bind FailsOnly.get ?_
  rintro _ _ ⟨⟩
  refine FailsOnly.bind ?_ fun v _ _ => failsOnly_push hE v
  intro why n h text htext
  unfold liftAccess at h
  split at h
  · contradiction
  · next e he =>
    cases h
    rw [hheap₂, hheap₁] at he
    exact ⟨key, htop, m.heap.quotes_get container key e text he htext⟩

theorem failsOnly_setIndexed : FailsOnly (QuotesOperand .set m) setIndexed m := by
  have hE (why : Fault) : why.quoted? = none → QuotesOperand .set m why :=
    quotesOperand_of_unquoting
  refine FailsOnly.bind (failsOnly_pop hE) fun value m₁ h₁ => ?_
  refine FailsOnly.bind (failsOnly_pop hE) fun key m₂ h₂ => ?_
  refine FailsOnly.bind (failsOnly_pop hE) fun container m₃ h₃ => ?_
  obtain ⟨-, hstack₁, hheap₁⟩ := pop_eq_ok h₁
  obtain ⟨htop, -, hheap₂⟩ := pop_eq_ok h₂
  obtain ⟨-, -, hheap₃⟩ := pop_eq_ok h₃
  rw [hstack₁] at htop
  exact failsOnly_updateHeap htop (hheap₃.trans (hheap₂.trans hheap₁))
    (m.heap.quotes_set container key value)

theorem failsOnly_deleteIndexed : FailsOnly (QuotesOperand .delete m) deleteIndexed m := by
  have hE (why : Fault) : why.quoted? = none → QuotesOperand .delete m why :=
    quotesOperand_of_unquoting
  refine FailsOnly.bind (failsOnly_pop hE) fun key m₁ h₁ => ?_
  refine FailsOnly.bind (failsOnly_pop hE) fun container m₂ h₂ => ?_
  obtain ⟨htop, -, hheap₁⟩ := pop_eq_ok h₁
  obtain ⟨-, -, hheap₂⟩ := pop_eq_ok h₂
  refine failsOnly_updateHeap htop (hheap₂.trans hheap₁) fun e text he => ?_
  exact m.heap.quotes_delete container key e text (map_eq_error_iff.1 he)

/-- **An instruction quotes no key but its operand.** -/
theorem execute_quotes (i : Instruction) (m : Machine) :
    FailsOnly (QuotesOperand i.opcode m) (execute i) m := by
  obtain ⟨offset, op, arg⟩ := i
  have hE (why : Fault) : why.quoted? = none → QuotesOperand op m why :=
    quotesOperand_of_unquoting
  have hpush (v : Value) : FailsOnly (QuotesOperand op m) (push v) m := failsOnly_push hE v
  have hoperate {x : Exec Unit} (hx : FailsOnly (QuotesOperand op m) x m) :
      FailsOnly (QuotesOperand op m) (do x; pure Flow.next) m :=
    FailsOnly.bind hx fun _ _ _ => FailsOnly.pure _
  show FailsOnly (QuotesOperand op m) (execute ⟨offset, op, arg⟩) m
  cases op with
  | jump => exact FailsOnly.bind (failsOnly_checkTarget hE _) fun _ _ _ => FailsOnly.pure _
  | jumpIf | jumpUnless => exact failsOnly_jumpWhen hE _ _
  | call => exact failsOnly_call hE _ _
  | ret =>
    intro why n h
    simp only [execute, ret] at h
    split at h <;> cases h
  | pushNil | pushTrue | pushFalse | pushInt | pushNumber => exact hoperate (hpush _)
  | pushString => exact hoperate (failsOnly_pushString hE _)
  | makeArray =>
    exact hoperate <| FailsOnly.bind (failsOnly_take hE _) fun _ _ _ => failsOnly_make_push hE _
  | makeTable | makeFlaggedTable | makeDerivedTable | makeDerivedFlaggedTable =>
    exact hoperate (failsOnly_makeTable hE _ _ _)
  | pushFunction => exact hoperate (failsOnly_pushFunction hE _)
  | pop => exact hoperate <| FailsOnly.bind (failsOnly_pop hE) fun _ _ _ => FailsOnly.pure _
  | dup => exact hoperate <| FailsOnly.bind (failsOnly_top hE) fun _ _ _ => failsOnly_push hE _
  | define => exact hoperate (failsOnly_define hE)
  | destructure => exact hoperate (failsOnly_destructure hE _)
  | load => exact hoperate (failsOnly_loadVariable hE _)
  | store => exact hoperate (failsOnly_storeVariable hE _)
  | enterScope => exact hoperate (FailsOnly.modify _)
  | leaveScope => exact hoperate (failsOnly_leaveScope hE)
  | neg => exact hoperate (failsOnly_negate hE)
  | not => exact hoperate (failsOnly_replace hE fun m v => .bool !(m.heap.truthy v))
  | isNil => exact hoperate (failsOnly_replace hE fun _ v => .bool v.isNil)
  | identity => exact hoperate (failsOnly_replace hE fun m v => m.config.addresses.shown v)
  | add | sub | mul | div | mod | eq | ne | lt | le | gt | ge =>
    exact hoperate (failsOnly_operator hE _)
  | get => exact hoperate failsOnly_getIndexed
  | set => exact hoperate failsOnly_setIndexed
  | delete => exact hoperate failsOnly_deleteIndexed
  | inspect => exact hoperate (failsOnly_inspect hE)

end Machine
end StackMachine
