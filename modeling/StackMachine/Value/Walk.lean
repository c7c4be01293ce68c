import StackMachine.Value.Equality
import StackMachine.Value.Rendering

/-!
# Walks with a shared list

Rendering and comparing, call by call: all calls share one list of what is being walked, to which a
container or a pair is added when it is entered and from which it is taken when it is left. A call
is one for a value, with all that is done for its parts outside of the calls for them. Only so many
calls may be nested; a walk that needs more gives nothing. The texts and answers are those of
`Heap.render` and `Heap.equals`, which hand the list down instead of sharing it.
-/

namespace StackMachine

/-! ## The list that calls share -/

/-- What the calls of a walk share. -/
structure Walk.State (σ : Type) where
  /-- What is being walked, innermost first. -/
  active : List σ := []
  /-- What the list was after each of its changes, latest first. -/
  past : List (List σ) := []
deriving DecidableEq, Repr

/-- A computation that shares the list; it gives nothing when too many calls would be nested. -/
abbrev Walk (σ : Type) := StateT (Walk.State σ) Option

namespace Walk

variable {σ α : Type}

/-- Whether nothing is being walked. -/
def idle : Walk σ Bool := do
  pure (← get).active.isEmpty

/-- The list is changed. -/
def State.become (s : State σ) (active : List σ) : State σ :=
  { active, past := active :: s.past }

/-- Something is entered, unless it is being walked already. -/
def enter [DecidableEq σ] (p : σ) : Walk σ Bool := do
  let s ← get
  if p ∈ s.active then
    pure false
  else
    set (s.become (p :: s.active))
    pure true

/-- What was entered last is left. -/
def leave : Walk σ Unit :=
  modify fun s => s.become s.active.tail

/-- What is done inside of something that is entered and then left again; something else is given
where it is met again inside of itself. -/
def inside [DecidableEq σ] (p : σ) (again : α) (x : Walk σ α) : Walk σ α := do
  if ← enter p then
    let a ← x
    leave
    pure a
  else
    pure again

end Walk

namespace Heap

/-! ## Rendering -/

/-- The texts of the parts of a container that are shown, by a call for each value and each key. -/
def partsInto (h : Heap) (call : Value → Walk Ref String) : Ref → Walk Ref (List String)
  | .array id => (h.items id).toList.mapM call
  | .table id => (h.tableAt id).publicEntries.mapM fun e => do
    let key ← call (.scalar e.key)
    let value ← call e.value
    pure (key ++ ": " ++ value)

/-- The text of a value by so many nested calls at most. -/
def renderInto (h : Heap) : Nat → Value → Walk Ref String
  | 0, _ => failure
  | _ + 1, .scalar s => do
    pure (if ← Walk.idle then s.text else s.quotedText)
  | frames + 1, .ref r =>
    Walk.inside r (r.bracketed "...") do
      let parts ← h.partsInto (h.renderInto frames) r
      pure (r.bracketed (", ".intercalate parts))

/-! ## Equality -/

/-- Whether two containers have equal parts, by a call for each pair up to the first that
differs. -/
def sameInto (h : Heap) (call : Value → Value → Walk (Ref × Ref) Bool) :
    Ref → Ref → Walk (Ref × Ref) Bool
  | .array i, .array j =>
    if (h.items i).size = (h.items j).size then
      ((h.items i).toList.zip (h.items j).toList).allM fun pair => call pair.1 pair.2
    else
      pure false
  | .table i, .table j =>
    if (h.tableAt i).entries.length = (h.tableAt j).entries.length then
      (h.tableAt i).entries.allM fun e =>
        match (h.tableAt j).find? e.key with
        | some o => call e.value o.value
        | none => pure false
    else
      pure false
  | _, _ => pure false

/-- Whether two values are equal by so many nested calls at most. -/
def equalsInto (h : Heap) : Nat → Value → Value → Walk (Ref × Ref) Bool
  | 0, _, _ => failure
  | _ + 1, .scalar s, .scalar t => pure (s.equals t)
  | frames + 1, .ref r, .ref s =>
    if r = s then pure true
    else if r.tag = s.tag then
      Walk.inside (r, s) true (h.sameInto (h.equalsInto frames) r s)
    else
      pure false
  | _ + 1, _, _ => pure false

end Heap
end StackMachine
