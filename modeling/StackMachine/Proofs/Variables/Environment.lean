import Mathlib
import StackMachine.Assembly.Scopes
import StackMachine.Value.Basic

/-!
# Environments

The visible variables with their values and the scopes that are open, newest first. A name stands
for its newest variable. An environment is seen from two sides: the assembler knows the scopes but
no values (`Environment.scopes`), the machine knows values and marks but no names
(`Environment.slots`, `Environment.marks`). The lemmas say that the two sides agree on what leaving
a scope, looking up and assigning come to.
-/

namespace StackMachine

/-- Variables and open scopes, newest first. -/
inductive Environment where
  | empty
  | scope (outer : Environment)
  | declared (v : Variable) (value : Value) (older : Environment)

namespace Environment

/-! ## What actions on variables mean -/

/-- The value of the newest variable of a name. -/
def lookup (name : String) : Environment → Option Value
  | empty => none
  | scope e => e.lookup name
  | declared v value e => if v.name = name then some value else e.lookup name

/-- The newest variable of a name takes a value. -/
def assign? (name : String) (value : Value) : Environment → Option Environment
  | empty => none
  | scope e => (e.assign? name value).map scope
  | declared v old e =>
    if v.name = name then some (declared v value e)
    else (e.assign? name value).map (declared v old)

/-- The newest scope is left with its variables. -/
def leave? : Environment → Option Environment
  | empty => none
  | scope e => some e
  | declared _ _ e => e.leave?

/-- How many variables there are. -/
def size : Environment → Nat
  | empty => 0
  | scope e => e.size
  | declared _ _ e => e.size + 1

/-! ## The two sides -/

/-- The environment as the assembler knows it. -/
def scopes : Environment → Scopes
  | empty => {}
  | scope e => e.scopes.enter
  | declared v _ e => e.scopes.push v

/-- The values as the machine holds them, by their indices. -/
def slots : Environment → Array Value
  | empty => #[]
  | scope e => e.slots
  | declared _ value e => e.slots.push value

/-- The marks of the open scopes, innermost first. -/
def marks : Environment → List Nat
  | empty => []
  | scope e => e.size :: e.marks
  | declared _ _ e => e.marks

@[simp] theorem size_slots (e : Environment) : e.slots.size = e.size := by
  induction e with
  | empty => rfl
  | scope e ih => exact ih
  | declared v value e ih => simp [slots, size, ih]

@[simp] theorem length_visible (e : Environment) : e.scopes.visible.length = e.size := by
  induction e with
  | empty => rfl
  | scope e ih => rw [scopes, Scopes.visible_enter, ih, size]
  | declared v value e ih => rw [scopes, Scopes.visible_push, List.length_cons, ih, size]

/-! ## Leaving a scope -/

/-- A variable does not matter to what leaving a scope leaves. -/
theorem exit?_push (s : Scopes) (v : Variable) : (s.push v).exit? = s.exit? := by
  obtain ⟨inner, outer⟩ := s
  cases inner <;> rfl

theorem exit?_scopes (e : Environment) : e.scopes.exit? = e.leave?.map scopes := by
  induction e with
  | empty => rfl
  | scope e ih => exact Scopes.exit?_enter e.scopes
  | declared v value e ih => rw [scopes, exit?_push, ih, leave?]

/-- **Leaving a scope** cuts the variables back to the innermost mark. -/
theorem marks_of_leave? {e f : Environment} (h : e.leave? = some f) :
    e.marks = f.size :: f.marks ∧ e.slots.shrink f.size = f.slots ∧ f.size ≤ e.size := by
  -- The variables of what is left stand before those of the scope.
  have hprefix : e.marks = f.size :: f.marks ∧ ∃ later, e.slots = f.slots ++ later := by
    induction e with
    | empty => contradiction
    | scope e ih =>
      obtain rfl := Option.some.inj h
      exact ⟨rfl, #[], Array.append_empty.symm⟩
    | declared v value e ih =>
      obtain ⟨hmarks, later, hlater⟩ := ih h
      refine ⟨hmarks, later.push value, ?_⟩
      rw [slots, hlater, Array.append_push]
  obtain ⟨hmarks, later, hlater⟩ := hprefix
  refine ⟨hmarks, ?_, ?_⟩
  · rw [hlater, ← size_slots f, Array.shrink_eq_take]
    simp
  · rw [← size_slots e, ← size_slots f, hlater, Array.size_append]
    exact Nat.le_add_right _ _

/-! ## Names and indices -/

/-- **Looking up**: the index that a name resolves to is where its value is held. -/
theorem lookup_of_resolve? {e : Environment} {name : String} {b : Binding}
    (h : e.scopes.resolve? name = some b) :
    ∃ value, e.lookup name = some value ∧ e.slots[b.index]? = some value := by
  induction e with
  | empty => contradiction
  | scope e ih =>
    rw [scopes, Scopes.resolve?, Scopes.visible_enter] at h
    exact ih h
  | declared v value e ih =>
    rw [scopes, Scopes.resolve?, Scopes.visible_push, Scopes.resolveIn] at h
    by_cases hname : v.name = name
    · rw [if_pos hname] at h
      obtain rfl := Option.some.inj h
      refine ⟨value, by rw [lookup, if_pos hname], ?_⟩
      rw [slots, length_visible, ← size_slots e, Array.getElem?_push, if_pos rfl]
    · rw [if_neg hname] at h
      -- An older variable keeps its index below the newest one.
      obtain ⟨found, hlookup, hslot⟩ := ih h
      refine ⟨found, by rw [lookup, if_neg hname, hlookup], ?_⟩
      have hlt : b.index < e.slots.size := (Array.getElem?_eq_some_iff.1 hslot).1
      rw [slots, Array.getElem?_push, if_neg (Nat.ne_of_lt hlt)]
      exact hslot

/-- **Assigning**: the value goes where the name resolves to, and nothing else changes. -/
theorem assign?_of_resolve? {e : Environment} {name : String} {b : Binding} (value : Value)
    (h : e.scopes.resolve? name = some b) :
    ∃ f, e.assign? name value = some f ∧ f.slots = e.slots.setIfInBounds b.index value ∧
      f.scopes = e.scopes ∧ f.marks = e.marks ∧ f.size = e.size := by
  induction e with
  | empty => contradiction
  | scope e ih =>
    rw [scopes, Scopes.resolve?, Scopes.visible_enter] at h
    obtain ⟨f, hassign, hslots, hscopes, hmarks, hsize⟩ := ih h
    refine ⟨scope f, by rw [assign?, hassign]; rfl, hslots, ?_, ?_, hsize⟩
    · rw [scopes, hscopes, scopes]
    · rw [marks, hmarks, hsize, marks]
  | declared v old e ih =>
    rw [scopes, Scopes.resolve?, Scopes.visible_push, Scopes.resolveIn] at h
    by_cases hname : v.name = name
    · rw [if_pos hname] at h
      obtain rfl := Option.some.inj h
      refine ⟨declared v value e, by rw [assign?, if_pos hname], ?_, rfl, rfl, rfl⟩
      have hpushed : e.slots.size < (e.slots.push old).size := by
        rw [Array.size_push]
        omega
      rw [slots, slots, length_visible, ← size_slots e, Array.setIfInBounds, dif_pos hpushed,
        Array.set_push, dif_neg (Nat.lt_irrefl _)]
    · rw [if_neg hname] at h
      obtain ⟨f, hassign, hslots, hscopes, hmarks, hsize⟩ := ih h
      obtain ⟨found, -, hslot⟩ := lookup_of_resolve? h
      have hlt : b.index < e.slots.size := (Array.getElem?_eq_some_iff.1 hslot).1
      refine ⟨declared v old f, ?_, ?_, ?_, hmarks, ?_⟩
      · rw [assign?, if_neg hname, hassign]
        rfl
      · have hpushed : b.index < (e.slots.push old).size := by
          rw [Array.size_push]
          omega
        rw [slots, slots, hslots, Array.setIfInBounds, dif_pos hlt, Array.setIfInBounds,
          dif_pos hpushed, Array.set_push, dif_pos hlt]
      · rw [scopes, hscopes, scopes]
      · rw [size, hsize, size]

end Environment
end StackMachine
