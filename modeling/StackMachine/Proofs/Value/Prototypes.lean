import StackMachine.Proofs.Machine.Keeps

/-!
# The chain of prototypes

What a table does not have itself is asked of its prototype, and of the prototype of that one, as
long as they are tables. The search gives the value of the first table that has the key, or says
what is at the end of the chain, and it gives up after `chainLimit` links, so it ends on cycles too
(`lookup_follows_chain`). It makes no difference whether it starts from a table in the heap or from
one at hand, which takes the first link by itself.
-/

namespace StackMachine.Heap

/-! ## Chains -/

/-- The prototype of a table, if that is a table. -/
def parent? (h : Heap) (id : Nat) : Option Nat :=
  match (h.tableAt id).prototype with
  | some (.table next) => some next
  | _ => none

/-- The table that so many links lead to. -/
def ancestor? (h : Heap) (id : Nat) : Nat → Option Nat
  | 0 => some id
  | n + 1 => (h.ancestor? id n).bind h.parent?

/-- None of the first tables of a chain, so many of them, has an own entry for a key. -/
def LacksBefore (h : Heap) (id : Nat) (k : Scalar) (n : Nat) : Prop :=
  ∀ i a, i < n → h.ancestor? id i = some a → (h.tableAt a).find? k = none

/-- What a table has for a key when no link to another table is followed. -/
inductive TableAnswer (h : Heap) (id : Nat) (k : Scalar) : Except AccessError Value → Prop
  /-- An own entry gives its value. -/
  | found {e : Entry} (own : (h.tableAt id).find? k = some e) : TableAnswer h id k (.ok e.value)
  /-- Without an entry and a prototype the key is not found. -/
  | missing (own : (h.tableAt id).find? k = none) (last : (h.tableAt id).prototype = none) :
      TableAnswer h id k (.error (.keyNotFound k.text))
  /-- A prototype that is no table is asked as itself. -/
  | asked {prototype : Value} (own : (h.tableAt id).find? k = none)
      (last : (h.tableAt id).prototype = some prototype)
      (other : ∀ next, prototype ≠ .table next) :
      TableAnswer h id k (h.get prototype (.scalar k))

/-- What a chain of tables has for a key, when at most so many links are followed. -/
inductive ChainAnswer (h : Heap) (links id : Nat) (k : Scalar) : Except AccessError Value → Prop
  /-- A table answers, and the tables before it lack the key. -/
  | answered {i a : Nat} {r : Except AccessError Value} (within : i ≤ links)
      (place : h.ancestor? id i = some a) (lacks : h.LacksBefore id k i)
      (answer : h.TableAnswer a k r) : ChainAnswer h links id k r
  /-- The chain goes on after the last link that is followed, and the tables lack the key. -/
  | tooDeep {a : Nat} (place : h.ancestor? id (links + 1) = some a)
      (lacks : h.LacksBefore id k (links + 1)) :
      ChainAnswer h links id k (.error (.chainTooDeep chainLimit))

variable {h : Heap} {id next links n a : Nat} {k : Scalar} {r r' : Except AccessError Value}

theorem parent?_eq_some_iff :
    h.parent? id = some next ↔ (h.tableAt id).prototype = some (.table next) := by
  unfold parent?
  split
  · next other hprototype => simp [hprototype]
  · next hother =>
    constructor
    · intro h
      contradiction
    · intro hprototype
      exact absurd hprototype (hother next)

/-- The links can also be counted from the first one. -/
theorem ancestor?_succ (h : Heap) (id n : Nat) :
    h.ancestor? id (n + 1) = (h.parent? id).bind fun next => h.ancestor? next n := by
  induction n with
  | zero => cases hnext : h.parent? id <;> simp [ancestor?, hnext]
  | succ n ih =>
    rw [ancestor?, ih]
    cases h.parent? id <;> rfl

theorem ancestor?_succ_of_parent? (hnext : h.parent? id = some next) (n : Nat) :
    h.ancestor? id (n + 1) = h.ancestor? next n := by
  rw [ancestor?_succ, hnext, Option.bind_some]

theorem exists_parent?_of_ancestor? (ha : h.ancestor? id (n + 1) = some a) :
    ∃ next, h.parent? id = some next := by
  rw [ancestor?_succ] at ha
  obtain ⟨next, hnext, -⟩ := Option.bind_eq_some_iff.1 ha
  exact ⟨next, hnext⟩

/-! ## Tables that lack a key -/

theorem lacksBefore_zero (h : Heap) (id : Nat) (k : Scalar) : h.LacksBefore id k 0 := by
  intro i a hi
  omega

theorem LacksBefore.own (hlacks : h.LacksBefore id k (n + 1)) :
    (h.tableAt id).find? k = none := hlacks 0 id (Nat.succ_pos n) rfl

/-- A table that lacks a key, before the chain of its prototype. -/
theorem lacksBefore_succ_iff (hown : (h.tableAt id).find? k = none)
    (hnext : h.parent? id = some next) :
    h.LacksBefore id k (n + 1) ↔ h.LacksBefore next k n := by
  constructor
  · intro hlacks i a hi ha
    rw [← ancestor?_succ_of_parent? hnext] at ha
    exact hlacks (i + 1) a (Nat.succ_lt_succ hi) ha
  · intro hlacks i a hi ha
    cases i with
    | zero =>
      obtain rfl := Option.some.inj ha
      exact hown
    | succ i =>
      rw [ancestor?_succ_of_parent? hnext] at ha
      exact hlacks i a (Nat.lt_of_succ_lt_succ hi) ha

/-- A table gives one answer. -/
theorem TableAnswer.unique (hr : h.TableAnswer id k r) (hr' : h.TableAnswer id k r') :
    r = r' := by
  cases hr <;> cases hr' <;> simp_all

/-- A table that lacks the key and has a prototype that is a table does not answer. -/
theorem TableAnswer.not_next (hr : h.TableAnswer id k r)
    (hown : (h.tableAt id).find? k = none) : h.parent? id ≠ some next := by
  rw [Ne, parent?_eq_some_iff]
  intro hnext
  cases hr with
  | found own =>
    rw [hown] at own
    contradiction
  | missing own last =>
    rw [hnext] at last
    contradiction
  | asked own last other =>
    rw [hnext] at last
    exact other next (Option.some.inj last).symm

/-! ## One table after the other -/

/-- **A table that answers** gives the answer of its chain. -/
theorem TableAnswer.chainAnswer_iff (hr : h.TableAnswer id k r) :
    h.ChainAnswer links id k r' ↔ r = r' := by
  constructor
  · intro hr'
    cases hr' with
    | @answered i a _ within place lacks answer =>
      cases i with
      | zero =>
        obtain rfl := Option.some.inj place
        exact hr.unique answer
      | succ i =>
        obtain ⟨next, hnext⟩ := exists_parent?_of_ancestor? place
        exact absurd hnext (hr.not_next lacks.own)
    | tooDeep place lacks =>
      obtain ⟨next, hnext⟩ := exists_parent?_of_ancestor? place
      exact absurd hnext (hr.not_next lacks.own)
  · rintro rfl
    exact .answered (Nat.zero_le links) rfl (lacksBefore_zero h id k) hr

section

variable (hown : (h.tableAt id).find? k = none) (hnext : h.parent? id = some next)

include hown hnext

/-- **No link is left** to the prototype of a table that lacks the key. -/
theorem chainAnswer_zero_iff :
    h.ChainAnswer 0 id k r ↔ .error (.chainTooDeep chainLimit) = r := by
  constructor
  · intro hr
    cases hr with
    | answered within place lacks answer =>
      obtain rfl := Nat.le_zero.1 within
      obtain rfl := Option.some.inj place
      exact absurd hnext (answer.not_next hown)
    | tooDeep place lacks => rfl
  · rintro rfl
    have hlacks := (lacksBefore_succ_iff hown hnext).2 (lacksBefore_zero h next k)
    exact .tooDeep (ancestor?_succ_of_parent? hnext 0) hlacks

/-- **A link is followed** from a table that lacks the key, and one link less is left to its
prototype. -/
theorem chainAnswer_succ_iff :
    h.ChainAnswer (links + 1) id k r ↔ h.ChainAnswer links next k r := by
  constructor
  · intro hr
    cases hr with
    | @answered i a _ within place lacks answer =>
      cases i with
      | zero =>
        obtain rfl := Option.some.inj place
        exact absurd hnext (answer.not_next hown)
      | succ i =>
        rw [ancestor?_succ_of_parent? hnext] at place
        rw [lacksBefore_succ_iff hown hnext] at lacks
        exact .answered (Nat.le_of_succ_le_succ within) place lacks answer
    | tooDeep place lacks =>
      rw [ancestor?_succ_of_parent? hnext] at place
      exact .tooDeep place ((lacksBefore_succ_iff hown hnext).1 lacks)
  · intro hr
    cases hr with
    | answered within place lacks answer =>
      rw [← ancestor?_succ_of_parent? hnext] at place
      rw [← lacksBefore_succ_iff hown hnext] at lacks
      exact .answered (Nat.succ_le_succ within) place lacks answer
    | tooDeep place lacks =>
      rw [← ancestor?_succ_of_parent? hnext] at place
      exact .tooDeep place ((lacksBefore_succ_iff hown hnext).2 lacks)

end

/-! ## The search -/

/-- **The search gives what the chain has**, by induction on the links that may still be
followed. -/
theorem lookupWithin_eq_iff : h.lookupWithin links id k = r ↔ h.ChainAnswer links id k r := by
  fun_induction lookupWithin with
  | case1 links id e hown => exact (TableAnswer.found hown).chainAnswer_iff.symm
  | case2 links id hown hlast => exact (TableAnswer.missing hown hlast).chainAnswer_iff.symm
  | case3 links id hown s hlast =>
    exact (TableAnswer.asked hown hlast nofun).chainAnswer_iff.symm
  | case4 links id hown i hlast =>
    exact (TableAnswer.asked hown hlast nofun).chainAnswer_iff.symm
  | case5 id hown next hlast =>
    exact (chainAnswer_zero_iff hown (parent?_eq_some_iff.2 hlast)).symm
  | case6 id hown next hlast links ih =>
    exact ih.trans (chainAnswer_succ_iff hown (parent?_eq_some_iff.2 hlast)).symm

/-- A table at hand takes the first link by itself and has the others left. -/
theorem lookupFrom_tableAt (h : Heap) (id : Nat) (key : Value) :
    h.lookupFrom (h.tableAt id) key = h.lookup id key := by
  cases key with
  | ref c => rfl
  | scalar k =>
    show h.lookupFrom (h.tableAt id) (.scalar k) = h.lookupWithin (chainLimit - 1 + 1) id k
    rw [lookupWithin, lookupFrom, Value.toKey]
    dsimp only [bind, Except.bind]
    cases (h.tableAt id).find? k with
    | some e => rfl
    | none =>
      cases (h.tableAt id).prototype with
      | none => rfl
      | some prototype =>
        cases prototype with
        | scalar s => rfl
        | ref c => cases c <;> rfl

/-! ## Reading in a machine -/

section

open Exec (Keeps)

variable (h : Heap)

theorem keepsHeap_pop : Keeps (·.heap = h) (fun _ => True) Machine.pop fun _ => True := by
  intro m hm
  cases htop : m.stack.back? <;> simp [Machine.pop, htop, hm]

theorem keepsHeap_push (v : Value) :
    Keeps (·.heap = h) (fun _ => True) (Machine.push v) fun _ => True := by
  intro m hm
  by_cases hfull : m.config.maxStack ≤ m.stack.size <;> simp [Machine.push, hfull, hm]

theorem keepsHeap_liftAccess (result : Except AccessError Value) :
    Keeps (·.heap = h) (fun _ => True) (Machine.liftAccess result) fun _ => True := by
  intro m hm
  cases result <;> simp [Machine.liftAccess, hm]

/-- **Reading from a container** leaves the heap as it was, whether it fails or not. -/
theorem keepsHeap_getIndexed :
    Keeps (·.heap = h) (fun _ => True) Machine.getIndexed fun _ => True := by
  refine Keeps.bind (keepsHeap_pop h) fun key _ => ?_
  refine Keeps.bind (keepsHeap_pop h) fun container _ => ?_
  refine Keeps.bind Keeps.get fun m _ => ?_
  refine Keeps.bind (keepsHeap_liftAccess h _) fun v _ => ?_
  exact keepsHeap_push h v

end

/-- **Looking a key up follows the chain of prototypes**, at most 256 links, in any heap and from
any of its tables. The value is that of the first table of the chain with an own entry; without one
the key is not found, or is asked of the prototype that is no table, or the chain is too deep. An
array or a table as key is always refused. A table at hand and a reference to the table give the
same, and the instruction that reads leaves the heap as it was. -/
theorem lookup_follows_chain (h : Heap) (id : Nat) :
    (∀ k r, h.lookup id (.scalar k) = r ↔ h.ChainAnswer chainLimit id k r) ∧
      (∀ c, h.lookup id (.ref c) = .error (.notHashable c.tag)) ∧
      (∀ key, h.lookupFrom (h.tableAt id) key = h.lookup id key ∧
        h.get (.table id) key = h.lookup id key) ∧
      ∀ m a,
        match Machine.operate .get a m with
        | .ok _ n | .error _ n => n.heap = m.heap := by
  refine ⟨fun k r => lookupWithin_eq_iff, fun c => rfl, ?_, ?_⟩
  · intro key
    exact ⟨lookupFrom_tableAt h id key, rfl⟩
  · intro m a
    have hkeeps := keepsHeap_getIndexed m.heap m rfl
    rw [Machine.operate]
    split
    · next n hrun =>
      rw [hrun] at hkeeps
      exact hkeeps.1
    · next e n hrun =>
      rw [hrun] at hkeeps
      exact hkeeps.1

-- A table that is its own prototype: the chain has no end, and the search gives up.
example :
    let h : Heap := { tables := #[{ prototype := some (.table 0) }] }
    h.lookup 0 (.bool true) = .error (.chainTooDeep 256) := by
  decide +kernel

end Heap
end StackMachine
