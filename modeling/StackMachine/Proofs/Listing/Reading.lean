import StackMachine.Proofs.Assembly.Performed
import StackMachine.Proofs.Listing.Calls

/-!
# The reader makes the calls

The reader performs the steps of the calls that a listing spells and nothing else: `Follows` says
what it has done and what it knows of the labels after some calls. It gets through the lines of a
listing exactly when they spell calls that define no label twice and whose steps all succeed
(`reads_lines`).
-/

namespace StackMachine.Listing.Reader

open Assembly (performAll_append performAll_append_of_ok performAll_singleton)

/-! ## The labels of the reader -/

/-- The entries are those of the names known, in their order, and tell which of them are defined.
-/
structure Records (entries : List LabelEntry) (known defined : List String) : Prop where
  names : entries.map LabelEntry.name = known
  numbered : ∀ (i : Nat) (e : LabelEntry), entries[i]? = some e → e.label = ⟨i⟩
  marked : ∀ e ∈ entries, e.definedAt.isSome ↔ e.name ∈ defined

/-- The reader has read what spells these calls. -/
structure Follows (r : Reader) (calls : List Call) : Prop where
  performed : Assembly.performAll {} (stepsFrom [] calls) = .ok r.assembly
  made : r.assembly.labels.size = r.labels.length
  records : Records r.labels (notedFrom [] calls) (definedIn calls)
  once : (definedIn calls).Nodup

variable {r s : Reader} {calls : List Call} {entries : List LabelEntry}
  {known defined : List String}

theorem place_eq_ok {α : Type} {span : Span} {x : Except AssemblyError α} {y : α}
    (h : place span x = .ok y) : x = .ok y :=
  mapError_eq_ok_iff.1 h

theorem follows_empty : Follows {} [] where
  performed := rfl
  made := rfl
  records := ⟨rfl, by simp, by simp⟩
  once := .nil

theorem entry?_eq (r : Reader) (name : String) :
    r.entry? name = r.labels[(r.labels.map LabelEntry.name).idxOf name]? := by
  unfold entry?
  induction r.labels with
  | nil => rfl
  | cons e entries ih =>
    rw [List.find?_cons, List.map_cons, List.idxOf_cons]
    by_cases hname : e.name == name
    · simp [hname]
    · simp [hname, ih]

/-- A name that was mentioned has the entry of its place. -/
theorem Records.entry?_of_mem (h : Records r.labels known defined) {name : String}
    (hname : name ∈ known) :
    ∃ e, r.entry? name = some e ∧ e ∈ r.labels ∧ e.name = name ∧ e.label = labelOf known name := by
  have hlt : known.idxOf name < r.labels.length := by
    rw [← List.length_map LabelEntry.name, h.names]
    exact List.idxOf_lt_length_iff.2 hname
  have hentry : r.entry? name = some r.labels[known.idxOf name] := by
    rw [entry?_eq, h.names, List.getElem?_eq_getElem hlt]
  refine ⟨_, hentry, List.getElem_mem hlt, ?_, h.numbered _ _ (List.getElem?_eq_getElem hlt)⟩
  simpa using List.find?_some hentry

/-- A name that was not mentioned has no entry. -/
theorem Records.entry?_of_notMem (h : Records r.labels known defined) {name : String}
    (hname : name ∉ known) : r.entry? name = none := by
  have hlength : known.idxOf name = r.labels.length := by
    rw [List.idxOf_eq_length hname, ← h.names, List.length_map]
  rw [entry?_eq, h.names, hlength, List.getElem?_eq_none (Nat.le_refl _)]

/-- A new entry stands for a new name, which is not defined. -/
theorem Records.push (h : Records entries known defined) {name : String} (hname : name ∉ defined)
    (span : Span) :
    Records (entries ++ [{ name, label := ⟨entries.length⟩, firstUse := span }])
      (known ++ [name]) defined where
  names := by rw [List.map_append, h.names]; rfl
  numbered := by
    intro i e he
    rw [List.getElem?_append] at he
    split at he
    · exact h.numbered i e he
    · next hle =>
      have hi : i = entries.length := by
        have hlt := (List.getElem?_eq_some_iff.1 he).1
        rw [List.length_singleton] at hlt
        omega
      subst hi
      rw [Nat.sub_self] at he
      obtain rfl := Option.some.inj he
      rfl
  marked := by
    intro e he
    rcases List.mem_append.1 he with he | he
    · exact h.marked e he
    · obtain rfl := List.mem_singleton.1 he
      simpa using hname

/-- Marking a name as defined. -/
theorem Records.mark (h : Records entries known defined) (name : String) (span : Span) :
    Records
      (entries.map fun e => if e.name = name then { e with definedAt := some span } else e)
      known (defined ++ [name]) where
  names := by
    rw [← h.names, List.map_map]
    refine List.map_congr_left fun e _ => ?_
    rw [Function.comp_apply]
    split <;> rfl
  numbered := by
    intro i e he
    rw [List.getElem?_map] at he
    obtain ⟨f, hf, rfl⟩ := Option.map_eq_some_iff.1 he
    rw [← h.numbered i f hf]
    split <;> rfl
  marked := by
    intro e he
    obtain ⟨f, hf, rfl⟩ := List.mem_map.1 he
    by_cases hname : f.name = name
    · simp [hname]
    · simpa [hname] using h.marked f hf

/-- **Mentioning a name** gives its label and makes it if the name is new. -/
theorem Follows.mention (h : r.Follows calls) (name : String) (span : Span) :
    ∃ t, r.mention name span = (labelOf (notedFrom [] calls) name, t) ∧
      r.assembly.performAll (mentionSteps (notedFrom [] calls) name) = .ok t.assembly ∧
      t.assembly.knows (labelOf (notedFrom [] calls) name) ∧
      t.assembly.labels.size = t.labels.length ∧
      Records t.labels (noted (notedFrom [] calls) name) (definedIn calls) := by
  unfold Reader.mention mentionSteps noted
  by_cases hname : name ∈ notedFrom [] calls
  · obtain ⟨e, hentry, -, -, hlabel⟩ := h.records.entry?_of_mem hname
    rw [hentry, if_pos hname, if_pos hname]
    refine ⟨r, by rw [← hlabel], rfl, ?_, h.made, h.records⟩
    rw [Assembly.knows, h.made, ← List.length_map LabelEntry.name, h.records.names]
    exact decide_eq_true (List.idxOf_lt_length_iff.2 hname)
  · have hnew : name ∉ definedIn calls := fun hx => hname (mem_notedFrom_of_mem_definedIn hx)
    have hlabel : labelOf (notedFrom [] calls) name = ⟨r.assembly.labels.size⟩ := by
      rw [labelOf, List.idxOf_eq_length hname, h.made, ← h.records.names, List.length_map]
    rw [h.records.entry?_of_notMem hname, if_neg hname, if_neg hname, hlabel]
    refine ⟨_, rfl, rfl, ?_, ?_, ?_⟩
    · simp [Assembly.knows]
    · simp [h.made]
    · show Records (_ ++ [{ name, label := ⟨r.assembly.labels.size⟩, firstUse := span }]) _ _
      rw [h.made]
      exact h.records.push hnew span

/-- The reader goes on by one call. -/
theorem Follows.extend (h : r.Follows calls) {call : Call}
    (hsteps : r.assembly.performAll (call.steps (notedFrom [] calls)) = .ok s.assembly)
    (hmade : s.assembly.labels.size = s.labels.length)
    (hrecords : Records s.labels (call.noted (notedFrom [] calls))
      (definedIn calls ++ call.defined?.toList))
    (hnew : ∀ name, call.defined? = some name → name ∉ definedIn calls) :
    s.Follows (calls ++ [call]) where
  performed := by rw [stepsFrom_concat, performAll_append_of_ok h.performed, hsteps]
  made := hmade
  records := by rwa [notedFrom_concat, definedIn_concat]
  once := by
    rw [definedIn_concat]
    refine List.nodup_append.2 ⟨h.once, by cases call.defined? <;> simp, ?_⟩
    rintro x hx name hname rfl
    exact hnew x (by simpa using hname) hx

/-! ## What the reader gets through -/

/-- A label that is defined was not defined before. -/
theorem Follows.notMem_of_define (h : r.Follows calls) {name : String} {span : Span}
    (hs : r.define name span = .ok s) : name ∉ definedIn calls := by
  intro hname
  obtain ⟨e, hentry, hmem, rfl, -⟩ :=
    h.records.entry?_of_mem (mem_notedFrom_of_mem_definedIn hname)
  obtain ⟨first, hfirst⟩ := Option.isSome_iff_exists.1 ((h.records.marked e hmem).2 hname)
  rw [define, hentry, Option.bind_some, hfirst] at hs
  contradiction

/-- **A label that was not defined** is defined where the reader stands. -/
theorem Follows.define (h : r.Follows calls) {name : String} (hname : name ∉ definedIn calls)
    (span : Span) : ∃ s, r.define name span = .ok s ∧ s.Follows (calls ++ [.define name]) := by
  have hundefined : (r.entry? name).bind LabelEntry.definedAt = none := by
    by_cases hknown : name ∈ notedFrom [] calls
    · obtain ⟨e, hentry, hmem, rfl, -⟩ := h.records.entry?_of_mem hknown
      rw [hentry, Option.bind_some, ← Option.not_isSome_iff_eq_none, h.records.marked e hmem]
      exact hname
    · rw [h.records.entry?_of_notMem hknown, Option.bind_none]
  -- Mentioning the name makes its label if need be, and then the label is placed.
  obtain ⟨t, hmention, hsteps, hknown, hmade, hrecords⟩ := h.mention name span
  obtain ⟨b, hplace⟩ : ∃ b, t.assembly.placeLabel (labelOf (notedFrom [] calls) name) = .ok b :=
    ⟨_, if_pos hknown⟩
  refine ⟨{ t with assembly := b }.markDefined name span, ?_, h.extend ?_ ?_ ?_ ?_⟩
  · rw [Reader.define, hundefined]
    dsimp only
    rw [hmention]
    dsimp only
    rw [hplace]
    rfl
  · rw [Call.steps, performAll_append_of_ok hsteps, performAll_singleton, Assembly.perform, hplace]
    rfl
  · have hlabels : b.labels.size = t.assembly.labels.size := by
      rw [Assembly.placeLabel_ok hplace]
      simp
    rw [markDefined, List.length_map]
    exact hlabels.trans hmade
  · exact hrecords.mark name span
  · rintro _ ⟨⟩
    exact hname

/-- A statement is assembled by the last step of its call, after its label is made. -/
private theorem Follows.emit_eq (h : r.Follows calls) (statement : Statement) (span : Span) :
    ∃ (before : List AssemblyStep) (step : AssemblyStep) (t : Reader),
      statement.call.steps (notedFrom [] calls) = before ++ [step] ∧
      r.assembly.performAll before = .ok t.assembly ∧
      r.emit statement span =
        place span ((t.assembly.perform step).map fun x => { t with assembly := x.2 }) ∧
      (∀ b reply, t.assembly.perform step = .ok (reply, b) →
        b.labels.size = t.labels.length) ∧
      Records t.labels (statement.call.noted (notedFrom [] calls)) (definedIn calls) := by
  obtain ⟨op, operand⟩ := statement
  cases operand with
  | none =>
    refine ⟨[], .emit op, r, rfl, rfl, ?_, ?_, h.records⟩
    · rw [Reader.emit, Assembly.perform]
      dsimp only
      cases r.assembly.emit op <;> rfl
    · intro b reply hb
      obtain ⟨c, hemit, ⟨⟩⟩ := exists_of_map_ok hb
      obtain ⟨-, rfl⟩ := Assembly.emit_ok hemit
      exact h.made
  | immediate imm =>
    refine ⟨[], .emitWith op imm, r, rfl, rfl, ?_, ?_, h.records⟩
    · rw [Reader.emit, Assembly.perform]
      dsimp only
      cases r.assembly.emitWith op imm <;> rfl
    · intro b reply hb
      obtain ⟨c, hemit, ⟨⟩⟩ := exists_of_map_ok hb
      obtain ⟨-, -, rfl⟩ := Assembly.emitWith_ok hemit
      exact h.made
  | target name nameSpan =>
    obtain ⟨t, hmention, hsteps, -, hmade, hrecords⟩ := h.mention name nameSpan
    refine ⟨_, .emitJump op (labelOf (notedFrom [] calls) name), t, rfl, hsteps, ?_, ?_, hrecords⟩
    · rw [Reader.emit, Assembly.perform]
      dsimp only
      rw [hmention]
      dsimp only
      cases t.assembly.emitJump op (labelOf (notedFrom [] calls) name) <;> rfl
    · intro b reply hb
      obtain ⟨c, hjump, ⟨⟩⟩ := exists_of_map_ok hb
      obtain ⟨-, hrefer⟩ := Assembly.emitJump_ok hjump
      obtain ⟨-, rfl⟩ := Assembly.referTo_ok hrefer
      simpa [Assembly.append] using hmade

/-- **A statement that is assembled** makes its call. -/
theorem Follows.emit (h : r.Follows calls) {statement : Statement} {span : Span}
    (hs : r.emit statement span = .ok s) : s.Follows (calls ++ [statement.call]) := by
  obtain ⟨before, step, t, hsplit, hbefore, heq, hmade, hrecords⟩ := h.emit_eq statement span
  rw [heq] at hs
  obtain ⟨⟨reply, b⟩, hstep, rfl⟩ := exists_of_map_ok (place_eq_ok hs)
  have hdefined : statement.call.defined? = none := by
    unfold Statement.call
    split <;> rfl
  refine h.extend ?_ (hmade b reply hstep) ?_ (by simp [hdefined])
  · rw [hsplit, performAll_append_of_ok hbefore, performAll_singleton, hstep]
    rfl
  · rwa [hdefined, Option.toList_none, List.append_nil]

/-- A statement whose call can be made is assembled. -/
theorem Follows.exists_emit (h : r.Follows calls) {statement : Statement} {b : Assembly}
    (hsteps : r.assembly.performAll (statement.call.steps (notedFrom [] calls)) = .ok b)
    (span : Span) : ∃ s, r.emit statement span = .ok s := by
  obtain ⟨before, step, t, hsplit, hbefore, heq, -⟩ := h.emit_eq statement span
  rw [hsplit, performAll_append_of_ok hbefore, performAll_singleton] at hsteps
  obtain ⟨x, hstep, -⟩ := exists_of_map_ok hsteps
  rw [heq, hstep]
  exact ⟨_, rfl⟩

/-! ## Reading as making calls -/

/-- Calls that can be made: they define no label twice, and their steps succeed. -/
structure Feasible (calls : List Call) : Prop where
  once : (definedIn calls).Nodup
  performed : ∃ b, Assembly.performAll {} (stepsFrom [] calls) = .ok b

theorem Feasible.of_append {before after : List Call} (h : Feasible (before ++ after)) :
    Feasible before := by
  obtain ⟨honce, b, hb⟩ := h
  rw [definedIn, List.filterMap_append] at honce
  rw [stepsFrom_append, performAll_append] at hb
  obtain ⟨c, hc, -⟩ := exists_of_bind_ok hb
  exact ⟨honce.of_append_left, c, hc⟩

/-- After calls that were made, what can be made on top of them can be made from there. -/
theorem Follows.exists_performAll (h : r.Follows calls) {call : Call}
    (hfeasible : Feasible (calls ++ [call])) :
    ∃ b, r.assembly.performAll (call.steps (notedFrom [] calls)) = .ok b := by
  obtain ⟨b, hb⟩ := hfeasible.performed
  rw [stepsFrom_concat, performAll_append_of_ok h.performed] at hb
  exact ⟨b, hb⟩

/-- A way of reading makes the calls that `Spelled` says, and only fails on what spells none or
calls that cannot be made. -/
structure Reads {α : Type} (f : Reader → α → Except CauseAt Reader)
    (Spelled : α → List Call → Prop) : Prop where
  sound : ∀ {r s calls x}, Follows r calls → f r x = .ok s →
    ∃ more, Spelled x more ∧ s.Follows (calls ++ more)
  complete : ∀ {r calls x more}, Follows r calls → Spelled x more → Feasible (calls ++ more) →
    ∃ s, f r x = .ok s ∧ s.Follows (calls ++ more)

/-- **Reading one thing after another** makes the calls of all of them. -/
theorem Reads.foldlM {α : Type} {f : Reader → α → Except CauseAt Reader}
    {Spelled : α → List Call → Prop} (hf : Reads f Spelled) :
    Reads (fun r xs => xs.foldlM f r)
      (fun xs calls => ∃ parts, List.Forall₂ Spelled xs parts ∧ calls = parts.flatten) where
  sound := by
    intro r s calls xs h hs
    induction xs generalizing r calls with
    | nil =>
      obtain rfl := Except.ok.inj hs
      exact ⟨[], ⟨[], .nil, rfl⟩, by simpa using h⟩
    | cons x xs ih =>
      rw [List.foldlM_cons] at hs
      obtain ⟨t, ht, hs⟩ := exists_of_bind_ok hs
      obtain ⟨more, hmore, hfollows⟩ := hf.sound h ht
      obtain ⟨_, ⟨parts, hparts, rfl⟩, hrest⟩ := ih hfollows hs
      exact ⟨_, ⟨more :: parts, .cons hmore hparts, rfl⟩, by simpa using hrest⟩
  complete := by
    rintro r calls xs _ h ⟨parts, hparts, rfl⟩ hfeasible
    induction hparts generalizing r calls with
    | nil => exact ⟨r, rfl, by simpa using h⟩
    | cons hx hxs ih =>
      -- What can be made in the end can be made after each part.
      rw [List.flatten_cons, ← List.append_assoc] at hfeasible ⊢
      obtain ⟨t, ht, hfollows⟩ := hf.complete h hx hfeasible.of_append
      obtain ⟨s, hs, hrest⟩ := ih hfollows hfeasible
      refine ⟨s, ?_, hrest⟩
      rw [List.foldlM_cons, ht]
      exact hs

theorem reads_define :
    Reads (fun r (label : String × Span) => r.define label.1 label.2)
      (fun label calls => calls = [.define label.1]) where
  sound := by
    intro r s calls label h hs
    obtain ⟨t, ht, hfollows⟩ := h.define (h.notMem_of_define hs) label.2
    obtain rfl := Except.ok.inj (hs.symm.trans ht)
    exact ⟨_, rfl, hfollows⟩
  complete := by
    rintro r calls label _ h rfl hfeasible
    refine h.define (fun hname => ?_) label.2
    have honce := hfeasible.once
    rw [definedIn_concat] at honce
    exact List.disjoint_of_nodup_append honce hname (by simp [Call.defined?])

theorem reads_emit :
    Reads (fun r (x : Statement × Span) => r.emit x.1 x.2)
      (fun x calls => calls = [x.1.call]) where
  sound := fun h hs => ⟨_, rfl, h.emit hs⟩
  complete := by
    rintro r calls x _ h rfl hfeasible
    obtain ⟨b, hb⟩ := h.exists_performAll hfeasible
    obtain ⟨s, hs⟩ := h.exists_emit hb x.2
    exact ⟨s, hs, h.emit hs⟩

/-- The calls of the labels that a line begins with. -/
theorem forall₂_define_iff {labels : List (String × Span)} {parts : List (List Call)} :
    List.Forall₂ (fun label calls => calls = [.define label.1]) labels parts ↔
      parts = labels.map fun label => [.define label.1] := by
  induction labels generalizing parts with
  | nil => simp
  | cons label labels ih =>
    constructor
    · rintro ⟨⟩
      next part parts hpart hparts => rw [hpart, ih.1 hparts, List.map_cons]
    · rintro rfl
      exact .cons rfl (ih.2 rfl)

theorem flatten_map_define (labels : List (String × Span)) :
    (labels.map fun label => [Call.define label.1]).flatten =
      labels.map fun label => .define label.1 := by
  rw [← List.flatMap_def, ← List.map_eq_flatMap]

/-- **Reading a line** makes the calls that the line spells. -/
theorem reads_line :
    Reads line (fun lexemes calls => SpellsLine (lexemes.map Lexeme.token) calls) where
  sound := by
    intro r s calls lexemes h hs
    unfold line at hs
    -- The labels of the line come first, then its statement if there is one.
    obtain ⟨t, hlabels, hs⟩ := exists_of_bind_ok hs
    obtain ⟨_, ⟨parts, hparts, rfl⟩, hfollows⟩ := reads_define.foldlM.sound h hlabels
    rw [forall₂_define_iff.1 hparts, flatten_map_define] at hfollows
    split at hs
    · contradiction
    · next hstatement =>
      obtain rfl := Except.ok.inj hs
      exact ⟨_, spellsLine_iff.2 ⟨none, hstatement, rfl⟩, by simpa using hfollows⟩
    · next statement hstatement =>
      refine ⟨_, spellsLine_iff.2 ⟨some statement, hstatement, rfl⟩, ?_⟩
      simpa using hfollows.emit hs
  complete := by
    rintro r calls lexemes _ h hspells hfeasible
    obtain ⟨statement, hstatement, rfl⟩ := spellsLine_iff.1 hspells
    rw [← List.append_assoc] at hfeasible ⊢
    obtain ⟨t, hlabels, hfollows⟩ := reads_define.foldlM.complete h
      ⟨_, forall₂_define_iff.2 rfl, (flatten_map_define _).symm⟩ hfeasible.of_append
    cases statement with
    | none =>
      refine ⟨t, ?_, by simpa using hfollows⟩
      unfold line
      simp only [hstatement]
      rw [hlabels]
      rfl
    | some statement =>
      obtain ⟨s, hs, hrest⟩ := reads_emit.complete (x := (statement, _)) hfollows rfl hfeasible
      refine ⟨s, ?_, hrest⟩
      unfold line
      simp only [hstatement]
      rw [hlabels]
      exact hs

/-- **The reader gets through the lines** of a listing by making the calls that the listing
spells. -/
theorem reads_lines :
    Reads (fun r lexemes => (linesOf lexemes).foldlM line r)
      (fun lexemes calls => Spells (lexemes.map Lexeme.token) calls) where
  sound := by
    intro r s calls lexemes h hs
    obtain ⟨_, ⟨parts, hparts, rfl⟩, hfollows⟩ := reads_line.foldlM.sound h hs
    refine ⟨_, ⟨parts, ?_, rfl⟩, hfollows⟩
    rwa [← map_linesOf, List.forall₂_map_left_iff]
  complete := by
    rintro r calls lexemes _ h ⟨parts, hparts, rfl⟩ hfeasible
    rw [← map_linesOf, List.forall₂_map_left_iff] at hparts
    exact reads_line.foldlM.complete h ⟨parts, hparts, rfl⟩ hfeasible

end StackMachine.Listing.Reader
