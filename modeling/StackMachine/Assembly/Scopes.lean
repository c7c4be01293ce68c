/-!
# Scopes of variables

The variables that can be seen while code is assembled: those of the open scopes, innermost first,
and those declared outside all of them. A variable has the index that it will have on the variable
stack of the machine, which counts the visible variables declared before it.
-/

namespace StackMachine

/-- A declared variable. -/
structure Variable where
  name : String
  isMutable : Bool
deriving DecidableEq

/-- What a name stands for: an index on the variable stack. -/
structure Binding where
  index : Nat
  isMutable : Bool
deriving DecidableEq, Repr

/-- The visible variables, newest first within each scope. -/
structure Scopes where
  /-- The open scopes, innermost first. -/
  inner : List (List Variable) := []
  /-- The variables declared outside all open scopes. -/
  outer : List Variable := []
deriving DecidableEq

namespace Scopes

/-- All visible variables, newest first. -/
def visible (s : Scopes) : List Variable := s.inner.flatten ++ s.outer

/-- The variables of the innermost scope. -/
def innermost (s : Scopes) : List Variable :=
  match s.inner with
  | [] => s.outer
  | scope :: _ => scope

/-- A scope is opened. -/
def enter (s : Scopes) : Scopes := { s with inner := [] :: s.inner }

/-- The innermost scope is closed with its variables; there may be none. -/
def exit? (s : Scopes) : Option Scopes :=
  match s.inner with
  | [] => none
  | _ :: rest => some { s with inner := rest }

/-- A variable is declared in the innermost scope. -/
def push (s : Scopes) (v : Variable) : Scopes :=
  match s.inner with
  | [] => { s with outer := v :: s.outer }
  | scope :: rest => { s with inner := (v :: scope) :: rest }

/-- Whether the innermost scope declares a name. -/
def declares (s : Scopes) (name : String) : Bool :=
  s.innermost.any fun v => v.name == name

/-- The newest visible declaration of a name among variables that are given newest first. -/
def resolveIn (name : String) : List Variable → Option Binding
  | [] => none
  | v :: older =>
    if v.name = name then some ⟨older.length, v.isMutable⟩ else resolveIn name older

/-- What a name stands for: its newest visible declaration. -/
def resolve? (s : Scopes) (name : String) : Option Binding := resolveIn name s.visible

theorem visible_push (s : Scopes) (v : Variable) : (s.push v).visible = v :: s.visible := by
  obtain ⟨inner, outer⟩ := s
  cases inner <;> simp [push, visible]

theorem visible_enter (s : Scopes) : s.enter.visible = s.visible := by
  simp [enter, visible]

theorem exit?_enter (s : Scopes) : s.enter.exit? = some s := rfl

end Scopes
end StackMachine
