import StackMachine.Assembly.Step
import StackMachine.Proofs.Listing.Grammar

/-!
# Calls as steps of assembling

The steps of the calls that a listing spells. A label is made where its name is first mentioned, so
its number is the place of that name among the names in the order of their first mention, and stays
so whatever is mentioned later.
-/

namespace StackMachine.Listing

/-! ## Names and steps -/

/-- The names in the order of their first mention, after a name is mentioned. -/
def noted (known : List String) (name : String) : List String :=
  if name ∈ known then known else known ++ [name]

/-- The label of a name, by the place of the name. -/
def labelOf (known : List String) (name : String) : Label := ⟨known.idxOf name⟩

/-- The step that makes the label of a name, unless it was made. -/
def mentionSteps (known : List String) (name : String) : List AssemblyStep :=
  if name ∈ known then [] else [.newLabel (some name)]

namespace Call

/-- The name of the label that a call mentions. -/
def name? : Call → Option String
  | define name | jump _ name => some name
  | emit _ | emitWith _ _ => none

/-- The name of the label that a call defines. -/
def defined? : Call → Option String
  | define name => some name
  | _ => none

/-- The names after a call. -/
def noted (known : List String) (call : Call) : List String :=
  (call.name?.map (Listing.noted known)).getD known

/-- The steps of a call, when names were mentioned before. -/
def steps (known : List String) : Call → List AssemblyStep
  | define name => mentionSteps known name ++ [.placeLabel (labelOf known name)]
  | emit op => [.emit op]
  | emitWith op imm => [.emitWith op imm]
  | jump op name => mentionSteps known name ++ [.emitJump op (labelOf known name)]

end Call

/-- The names after a sequence of calls. -/
def notedFrom (known : List String) (calls : List Call) : List String :=
  calls.foldl Call.noted known

/-- The steps of a sequence of calls. -/
def stepsFrom (known : List String) : List Call → List AssemblyStep
  | [] => []
  | call :: calls => call.steps known ++ stepsFrom (call.noted known) calls

/-- The names that calls define, in their order. -/
def definedIn (calls : List Call) : List String := calls.filterMap Call.defined?

/-! ## Names in the order of their first mention -/

theorem mem_noted {known : List String} {name x : String} :
    x ∈ noted known name ↔ x ∈ known ∨ x = name := by
  unfold noted
  split
  · next hname =>
    constructor
    · exact Or.inl
    · rintro (hx | rfl)
      · exact hx
      · exact hname
  · simp

/-- The names known are those known before and those mentioned. -/
theorem mem_notedFrom {known : List String} {calls : List Call} {x : String} :
    x ∈ notedFrom known calls ↔ x ∈ known ∨ ∃ call ∈ calls, call.name? = some x := by
  induction calls generalizing known with
  | nil => simp [notedFrom]
  | cons call calls ih =>
    have hcall : x ∈ call.noted known ↔ x ∈ known ∨ call.name? = some x := by
      unfold Call.noted
      cases call.name? with
      | none => simp
      | some name => simp [mem_noted, eq_comm]
    rw [notedFrom, List.foldl_cons]
    change x ∈ notedFrom (call.noted known) calls ↔ _
    rw [ih, hcall]
    simp [or_assoc]

theorem mem_definedIn {calls : List Call} {x : String} :
    x ∈ definedIn calls ↔ .define x ∈ calls := by
  rw [definedIn, List.mem_filterMap]
  constructor
  · rintro ⟨call, hcall, hx⟩
    cases call with
    | define name =>
      obtain rfl := Option.some.inj hx
      exact hcall
    | emit op | emitWith op imm | jump op name => contradiction
  · intro hx
    exact ⟨_, hx, rfl⟩

/-- What is defined was mentioned. -/
theorem mem_notedFrom_of_mem_definedIn {known : List String} {calls : List Call} {x : String}
    (hx : x ∈ definedIn calls) : x ∈ notedFrom known calls :=
  mem_notedFrom.2 (Or.inr ⟨_, mem_definedIn.1 hx, rfl⟩)

theorem notedFrom_append (known : List String) (before after : List Call) :
    notedFrom known (before ++ after) = notedFrom (notedFrom known before) after :=
  List.foldl_append ..

theorem stepsFrom_append (known : List String) (before after : List Call) :
    stepsFrom known (before ++ after) =
      stepsFrom known before ++ stepsFrom (notedFrom known before) after := by
  induction before generalizing known with
  | nil => rfl
  | cons call before ih =>
    rw [List.cons_append, stepsFrom, stepsFrom, ih, List.append_assoc]
    rfl

theorem stepsFrom_concat (known : List String) (calls : List Call) (call : Call) :
    stepsFrom known (calls ++ [call]) =
      stepsFrom known calls ++ call.steps (notedFrom known calls) := by
  rw [stepsFrom_append, stepsFrom, stepsFrom, List.append_nil]

theorem notedFrom_concat (known : List String) (calls : List Call) (call : Call) :
    notedFrom known (calls ++ [call]) = call.noted (notedFrom known calls) := by
  rw [notedFrom_append]
  rfl

theorem definedIn_concat (calls : List Call) (call : Call) :
    definedIn (calls ++ [call]) = definedIn calls ++ call.defined?.toList := by
  rw [definedIn, List.filterMap_append]
  cases call <;> rfl

/-- Names keep their places when more are mentioned. -/
theorem prefix_noted (known : List String) (name : String) : known <+: noted known name := by
  unfold noted
  split
  · exact List.prefix_refl known
  · exact List.prefix_append known [name]

theorem prefix_notedFrom (known : List String) (calls : List Call) :
    known <+: notedFrom known calls := by
  induction calls generalizing known with
  | nil => exact List.prefix_refl known
  | cons call calls ih =>
    refine List.IsPrefix.trans ?_ (ih (call.noted known))
    unfold Call.noted
    cases call.name? with
    | none => exact List.prefix_refl known
    | some name => exact prefix_noted known name

/-- No name is noted twice. -/
theorem nodup_notedFrom {known : List String} (h : known.Nodup) (calls : List Call) :
    (notedFrom known calls).Nodup := by
  induction calls generalizing known with
  | nil => exact h
  | cons call calls ih =>
    refine ih ?_
    unfold Call.noted
    cases call.name? with
    | none => exact h
    | some name =>
      rw [Option.map_some, Option.getD_some, noted]
      split
      · exact h
      · next hname => simpa using h.concat hname

/-- The label of a name stays the same after its first mention. -/
theorem labelOf_notedFrom (known : List String) (name : String) (calls : List Call) :
    labelOf (notedFrom (noted known name) calls) name = labelOf known name := by
  have hmem : name ∈ noted known name := mem_noted.2 (Or.inr rfl)
  rw [labelOf, ← (prefix_notedFrom (noted known name) calls).idxOf_eq_of_mem hmem, labelOf, noted]
  split
  · rfl
  · next hname =>
    rw [List.idxOf_append_of_notMem hname, List.idxOf_eq_length hname, List.idxOf_cons_self,
      Nat.add_zero]

/-- Different names have different labels. -/
theorem eq_of_labelOf_eq {known : List String} {name other : String} (hname : name ∈ known)
    (h : labelOf known name = labelOf known other) : name = other :=
  (List.idxOf_inj hname).1 (Label.mk.inj h)

/-! ## Steps that place labels -/

theorem eq_of_mem_mentionSteps {known : List String} {name : String} {step : AssemblyStep}
    (h : step ∈ mentionSteps known name) : step = .newLabel (some name) := by
  unfold mentionSteps at h
  split at h
  · contradiction
  · exact List.mem_singleton.1 h

/-- A label that is placed is that of a name that is defined. -/
theorem exists_of_placeLabel_mem {known : List String} {calls : List Call} {l : Label}
    (h : .placeLabel l ∈ stepsFrom known calls) :
    ∃ name ∈ definedIn calls, l = labelOf (notedFrom known calls) name := by
  induction calls generalizing known with
  | nil => contradiction
  | cons call calls ih =>
    rw [stepsFrom, List.mem_append] at h
    rcases h with h | h
    · cases call with
      | define name =>
        rw [Call.steps, List.mem_append, List.mem_singleton] at h
        rcases h with h | h
        · cases eq_of_mem_mentionSteps h
        · refine ⟨name, mem_definedIn.2 List.mem_cons_self, ?_⟩
          rw [AssemblyStep.placeLabel.inj h]
          exact (labelOf_notedFrom known name calls).symm
      | jump op name =>
        rw [Call.steps, List.mem_append, List.mem_singleton] at h
        rcases h with h | h
        · cases eq_of_mem_mentionSteps h
        · contradiction
      | emit op | emitWith op imm => simp [Call.steps] at h
    · obtain ⟨name, hname, hl⟩ := ih h
      exact ⟨name, mem_definedIn.2 (List.mem_cons_of_mem _ (mem_definedIn.1 hname)), hl⟩

end StackMachine.Listing
