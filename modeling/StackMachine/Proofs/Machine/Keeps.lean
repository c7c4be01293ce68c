import Mathlib
import StackMachine.Machine.Execute

/-!
# Computations that keep an invariant

A computation on a machine keeps an invariant when the machine that it leaves meets the invariant
again, whether the computation fails or not. The rules here follow the way computations are built.
-/

namespace StackMachine.Exec

variable {α β : Type} {I : Machine → Prop} {E : Fault → Prop} {Q : α → Prop} {R : β → Prop}

/-- A computation keeps an invariant. What it gives satisfies `Q`, and how it fails satisfies
`E`. -/
def Keeps (I : Machine → Prop) (E : Fault → Prop) (x : Exec α) (Q : α → Prop) : Prop :=
  ∀ m, I m →
    match x m with
    | .ok a n => I n ∧ Q a
    | .error e n => I n ∧ E e

theorem Keeps.pure {a : α} (h : Q a) : Keeps I E (Pure.pure a) Q :=
  fun _ hm => ⟨hm, h⟩

theorem Keeps.throw {e : Fault} (h : E e) : Keeps I E (throw e : Exec α) Q :=
  fun _ hm => ⟨hm, h⟩

/-- The machine that is read meets the invariant. -/
theorem Keeps.get : Keeps I E get I :=
  fun _ hm => ⟨hm, hm⟩

theorem Keeps.modify {f : Machine → Machine} (h : ∀ m, I m → I (f m)) :
    Keeps I E (modify f) fun _ => True :=
  fun m hm => ⟨h m hm, trivial⟩

/-- **One computation after another.** -/
theorem Keeps.bind {x : Exec α} {f : α → Exec β} (hx : Keeps I E x Q)
    (hf : ∀ a, Q a → Keeps I E (f a) R) : Keeps I E (x >>= f) R := by
  intro m hm
  have hfirst := hx m hm
  show match EStateM.bind x f m with
    | .ok b n => I n ∧ R b
    | .error e n => I n ∧ E e
  unfold EStateM.bind
  -- A failure of the first computation is one of both, with the machine that it leaves.
  cases hrun : x m with
  | error e n =>
    rw [hrun] at hfirst
    exact hfirst
  | ok a n =>
    rw [hrun] at hfirst
    exact hf a hfirst.2 n hfirst.1

end StackMachine.Exec
