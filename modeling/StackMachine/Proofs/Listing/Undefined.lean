import StackMachine.Proofs.Assembly.Patching
import StackMachine.Proofs.Listing.Acceptance
import StackMachine.Proofs.Listing.Mentions
import StackMachine.Proofs.Listing.Scanning

/-!
# Labels that are not defined

A listing with well formed lines that mentions a label it does not define is no program. The error
names the first of these labels and points at the first place where it stands; nothing else that the
assembly refuses comes out of a listing, short of a pool that is full
(`undefined_label_at_first_mention`).
-/

namespace StackMachine.Listing

variable {lexemes : List Lexeme} {calls : List Call} {name : String} {m : Mention}
  {before after : List Mention} {source : String}

/-! ## Defined labels -/

theorem SpellsLine.define_mem_iff {tokens : List Token} (h : SpellsLine tokens calls) :
    .define name ∈ calls ↔ .labelDef name ∈ tokens := by
  induction h with
  | blank => simp
  | instruction hword hoperand => cases hoperand <;> simp
  | label hrest ih => simp [ih]

/-- The lines hold all lexemes but the newlines. -/
theorem flatten_linesOf (lexemes : List Lexeme) :
    (linesOf lexemes).flatten = lexemes.filter fun l => l.token ≠ .newline := by
  induction lexemes with
  | nil => rfl
  | cons l lexemes ih =>
    rw [linesOf]
    by_cases hl : l.token = .newline
    · simp [hl, ih]
    · rw [if_neg hl, List.filter_cons, if_pos (by simpa using hl), ← ih]
      cases linesOf lexemes <;> rfl

theorem length_flatten_linesOf_le (lexemes : List Lexeme) :
    (linesOf lexemes).flatten.length ≤ lexemes.length := by
  rw [flatten_linesOf]
  exact List.length_filter_le _ _

theorem Spells.mem_definedIn_iff (h : Spells (lexemes.map Lexeme.token) calls) :
    name ∈ definedIn calls ↔ Defines lexemes name := by
  obtain ⟨parts, hparts, rfl⟩ := h
  rw [← map_linesOf, List.forall₂_map_left_iff] at hparts
  have hlines : .define name ∈ parts.flatten ↔
      ∃ span, ⟨.labelDef name, span⟩ ∈ (linesOf lexemes).flatten := by
    generalize linesOf lexemes = lines at hparts
    induction hparts with
    | nil => simp
    | cons hline hlines ih =>
      rw [List.flatten_cons, List.flatten_cons, List.mem_append, ih, hline.define_mem_iff,
        List.mem_map]
      simp only [List.mem_append, exists_or]
      refine or_congr_left ⟨?_, ?_⟩
      · rintro ⟨⟨_, span⟩, hmem, rfl⟩
        exact ⟨span, hmem⟩
      · rintro ⟨span, hmem⟩
        exact ⟨_, hmem, rfl⟩
  rw [mem_definedIn, hlines, flatten_linesOf, Defines]
  simp

/-! ## Labels by number -/

/-- The labels that calls make are the names noted, in their order. -/
theorem createdNames_stepsFrom (known : List String) (calls : List Call) :
    known.map some ++ createdNames (stepsFrom known calls) =
      (notedFrom known calls).map some := by
  induction calls generalizing known with
  | nil => simp [stepsFrom, createdNames, notedFrom]
  | cons call calls ih =>
    have hcall : known.map some ++ createdNames (call.steps known) =
        (call.noted known).map some := by
      cases call with
      | define name | jump op name =>
        simp only [Call.steps, Call.noted, Call.name?, mentionSteps, noted, Option.map_some,
          Option.getD_some]
        split <;> simp [createdNames, AssemblyStep.created?]
      | emit op | emitWith op imm => simp [Call.steps, createdNames, AssemblyStep.created?,
          Call.noted, Call.name?]
    rw [stepsFrom, createdNames, List.filterMap_append]
    change _ ++ (createdNames _ ++ createdNames _) = _
    rw [← List.append_assoc, hcall, ih]
    rfl

namespace Reader

variable {r s : Reader} {entries : List LabelEntry} {known defined : List String}

/-- An entry is found by what is different in all entries. -/
theorem find?_key_of_mem {κ : Type} [DecidableEq κ] {key : LabelEntry → κ}
    (h : (entries.map key).Nodup) {e : LabelEntry} (he : e ∈ entries) :
    (entries.find? fun f => key f == key e) = some e := by
  have hsome : (entries.find? fun f => key f == key e).isSome :=
    List.find?_isSome.2 ⟨e, he, by simp⟩
  obtain ⟨f, hf⟩ := Option.isSome_iff_exists.1 hsome
  have hkey : key f = key e := by simpa using List.find?_some hf
  rw [hf, List.inj_on_of_nodup_map h (List.mem_of_find?_eq_some hf) he hkey]

/-- The order of the entries does not matter for what is found so. -/
theorem find?_key_of_perm {κ : Type} [DecidableEq κ] {key : LabelEntry → κ}
    {others : List LabelEntry} (h : (entries.map key).Nodup) (hperm : others.Perm entries) (x : κ) :
    (others.find? fun f => key f == x) = entries.find? fun f => key f == x := by
  refine (List.find?_eq_find?_of_perm hperm.symm ?_).symm
  rintro e ⟨he, hx⟩ f ⟨hf, hy⟩
  have hkey : key e = key f := (beq_iff_eq.1 hx).trans (beq_iff_eq.1 hy).symm
  exact List.inj_on_of_nodup_map h he hf hkey

theorem Records.nodup_labels (h : Records entries known defined) :
    (entries.map LabelEntry.label).Nodup := by
  have hlabels : entries.map LabelEntry.label = (List.range entries.length).map Label.mk := by
    refine List.ext_getElem? fun i => ?_
    rw [List.getElem?_map, List.getElem?_map]
    by_cases hi : i < entries.length
    · rw [List.getElem?_eq_getElem hi, List.getElem?_range hi, Option.map_some, Option.map_some,
        h.numbered i _ (List.getElem?_eq_getElem hi)]
    · rw [List.getElem?_eq_none (by omega), List.getElem?_eq_none (by simpa using hi)]
      rfl
  rw [hlabels]
  exact List.nodup_range.map fun _ _ heq => Label.mk.inj heq

/-- **The order of the entries does not matter**, neither for a name that is looked up nor for a
label that is blamed. -/
theorem Records.of_perm (h : Records r.labels known defined) (hknown : known.Nodup)
    (hperm : entries.Perm r.labels) :
    (∀ name, Reader.entry? { r with labels := entries } name = r.entry? name) ∧
      { r with labels := entries }.finish = r.finish := by
  constructor
  · intro name
    exact find?_key_of_perm (h.names ▸ hknown) hperm name
  · have hblame : { r with labels := entries }.blame = r.blame := by
      funext error
      cases error with
      | unresolvedLabel label _ =>
        exact congrArg (fun found => (found.map LabelEntry.firstUse).getD {})
          (find?_key_of_perm h.nodup_labels hperm label)
      | _ => rfl
    rw [finish, hblame]
    rfl

/-! ## Finishing what was read -/

/-- A label is placed when its name is defined. -/
theorem Follows.placedIn_iff (h : r.Follows calls) {i : Nat}
    (hi : (notedFrom [] calls)[i]? = some name) :
    PlacedIn (stepsFrom [] calls) ⟨i⟩ ↔ name ∈ definedIn calls := by
  obtain ⟨hlt, rfl⟩ := List.getElem?_eq_some_iff.1 hi
  have hlabel : labelOf (notedFrom [] calls) (notedFrom [] calls)[i] = ⟨i⟩ := by
    rw [labelOf, (nodup_notedFrom .nil calls).idxOf_getElem]
  rw [← Assembly.isSome_address?_iff, Assembly.afterAll_of_performAll h.performed, ← hlabel]
  exact isSome_address?_iff h.performed h.once (List.getElem_mem hlt)

/-- **The first label that is not defined** is blamed, where it was mentioned first. -/
theorem Follows.finish_eq (h : r.Follows calls)
    (hseen : r.seen = firstMentions (before ++ m :: after)) (hm : m.name ∉ definedIn calls)
    (hbefore : ∀ p ∈ before, p.name ∈ definedIn calls) :
    r.finish = .error ⟨.assembly (.unresolvedLabel
      ⟨(before.map Mention.name).toFinset.card⟩ (some m.name)), m.span⟩ := by
  have hnew : m.name ∉ before.map Mention.name := by
    intro hmem
    obtain ⟨p, hp, hname⟩ := List.mem_map.1 hmem
    exact hm (hname ▸ hbefore p hp)
  obtain ⟨more, hmore⟩ := firstMentions_append_cons hnew after
  rw [hmore] at hseen
  rw [← length_firstMentions]
  -- The names of the labels are those of the first mentions, and so are their spans.
  have hknown : notedFrom [] calls = r.seen.map Mention.name := by
    rw [← h.records.names, seen, List.map_map]
    rfl
  rw [hseen, List.map_append, List.map_cons] at hknown
  have hentry : r.seen[(firstMentions before).length]? = some m := by simp [hseen]
  obtain ⟨e, he, rfl⟩ := Option.map_eq_some_iff.1 ((List.getElem?_map ..).symm.trans hentry)
  have hblame : r.blame (.unresolvedLabel ⟨(firstMentions before).length⟩ (some e.name)) =
      e.firstUse := by
    have hfind := find?_key_of_mem h.records.nodup_labels (List.mem_of_getElem? he)
    rw [h.records.numbered _ e he] at hfind
    rw [blame, hfind]
    rfl
  have hfinish : r.assembly.finish =
      .error (.unresolvedLabel ⟨(firstMentions before).length⟩ (some e.name)) := by
    have hcreated := createdNames_stepsFrom [] calls
    rw [List.map_nil, List.nil_append] at hcreated
    rw [← Assembly.afterAll_of_performAll h.performed, Assembly.finish_afterAll_eq_error_iff]
    refine ⟨⟨(firstMentions before).length⟩, some e.name, ?_, ?_, ?_, rfl⟩
    · simp [hcreated, hknown]
    · have hplace : (notedFrom [] calls)[(firstMentions before).length]? = some e.name := by
        simp [hknown]
      rw [h.placedIn_iff hplace]
      exact hm
    · rintro ⟨i⟩ hi
      have hlt : i < ((firstMentions before).map Mention.name).length := by simpa using hi
      have hplace :
          (notedFrom [] calls)[i]? = some ((firstMentions before).map Mention.name)[i] := by
        rw [hknown, List.getElem?_append_left hlt, List.getElem?_eq_getElem hlt]
      rw [h.placedIn_iff hplace]
      obtain ⟨p, hp, hname⟩ :=
        List.mem_map.1 (mem_map_name_firstMentions.1 (List.getElem_mem hlt))
      exact hname ▸ hbefore p hp
  rw [finish, hfinish, Except.mapError, hblame]

/-! ## What the assembly refuses on the way -/

/-- Defining a label fails only because it is defined. -/
theorem Follows.define_error (h : r.Follows calls) {span : Span} {c : CauseAt}
    (hr : r.define name span = .error c) : ∃ first, c = ⟨.duplicateLabel name first, span⟩ := by
  by_cases hname : name ∈ definedIn calls
  · obtain ⟨e, hentry, hmem, rfl, -⟩ :=
      h.records.entry?_of_mem (mem_notedFrom_of_mem_definedIn hname)
    obtain ⟨first, hfirst⟩ := Option.isSome_iff_exists.1 ((h.records.marked e hmem).2 hname)
    rw [Reader.define, hentry, Option.bind_some, hfirst] at hr
    exact ⟨first, (Except.error.inj hr).symm⟩
  · obtain ⟨s, hs, -⟩ := h.define hname span
    rw [hs] at hr
    contradiction

/-- A statement of the right shape is refused only because the pool is full. -/
theorem Follows.emit_error (h : r.Follows calls) (hcalls : ∀ call ∈ calls, call.WellShaped)
    {statement : Statement} (hshape : statement.call.WellShaped) {span at' : Span}
    {error : AssemblyError} (hr : r.emit statement span = .error ⟨.assembly error, at'⟩) :
    error = .poolFull ∧ 2 ^ 32 < (textsIn (calls ++ [statement.call])).length := by
  have hroom : (textsIn calls).length ≤ 2 ^ 32 := by
    simpa using (performAll_stepsFrom_iff hcalls rfl (Nat.zero_le _)).1 ⟨_, h.performed⟩
  have hall : ∀ call ∈ calls ++ [statement.call], call.WellShaped := by
    intro call hcall
    rcases List.mem_append.1 hcall with hcall | hcall
    · exact hcalls call hcall
    · obtain rfl := List.mem_singleton.1 hcall
      exact hshape
  have hfull : 2 ^ 32 < (textsIn (calls ++ [statement.call])).length := by
    by_contra hle
    have hperformed :
        ∃ b, Assembly.performAll {} (stepsFrom [] (calls ++ [statement.call])) = .ok b :=
      (performAll_stepsFrom_iff hall rfl (Nat.zero_le _)).2 (by simpa using Nat.not_lt.1 hle)
    obtain ⟨b, hb⟩ := hperformed
    rw [stepsFrom_concat, Assembly.performAll_append_of_ok h.performed] at hb
    obtain ⟨s, hs⟩ := h.exists_emit hb span
    rw [hs] at hr
    contradiction
  refine ⟨?_, hfull⟩
  obtain ⟨op, operand⟩ := statement
  cases operand with
  | none | target name nameSpan =>
    -- Only a text could have filled the pool.
    rw [textsIn, List.filterMap_append, List.length_append] at hfull
    exact absurd hroom (Nat.not_le.2 hfull)
  | immediate imm =>
    rw [Reader.emit] at hr
    dsimp only at hr
    rw [Assembly.emitWith_eq hshape] at hr
    split at hr
    · obtain ⟨herror, -⟩ := CauseAt.mk.inj (Except.error.inj hr)
      exact (Cause.assembly.inj herror).symm
    · contradiction

/-- A line is refused by the assembly only because the pool is full. -/
theorem Follows.line_error (h : r.Follows calls) (hcalls : ∀ call ∈ calls, call.WellShaped)
    {line : List Lexeme} {span : Span} {error : AssemblyError}
    (hr : r.line line = .error ⟨.assembly error, span⟩) :
    error = .poolFull ∧ ∃ more, SpellsLine (line.map Lexeme.token) more ∧
      2 ^ 32 < (textsIn (calls ++ more)).length := by
  unfold Reader.line at hr
  rcases bind_eq_error hr with hr | ⟨t, hlabels, hr⟩
  · obtain ⟨_, label, _, t, -, ht, hlabel⟩ := exists_of_foldlM_error hr
    obtain ⟨made, -, hfollows⟩ := reads_define.foldlM.sound h ht
    obtain ⟨first, ⟨⟩⟩ := hfollows.define_error hlabel
  · obtain ⟨_, ⟨parts, hparts, rfl⟩, hfollows⟩ := reads_define.foldlM.sound h hlabels
    rw [forall₂_define_iff.1 hparts, flatten_map_define] at hfollows
    split at hr
    · cases hr
    · contradiction
    · next statement hstatement =>
      have hspells := spellsLine_iff.2 ⟨some statement, hstatement, rfl⟩
      have hshapes := hspells.wellShaped
      simp only [List.mem_append] at hshapes
      obtain ⟨rfl, hfull⟩ := hfollows.emit_error
        (fun call hcall => (List.mem_append.1 hcall).elim (hcalls call) fun hmem =>
          hshapes call (.inl hmem))
        (hshapes _ (.inr (by simp))) hr
      exact ⟨rfl, _, hspells, by simpa using hfull⟩

end Reader

/-- **The lines of a listing** are refused by the assembly only because the pool is full. -/
theorem lines_error {error : AssemblyError} {span : Span}
    (h : (linesOf lexemes).foldlM Reader.line {} = .error ⟨.assembly error, span⟩) :
    error = .poolFull ∧ 2 ^ 32 < lexemes.length := by
  obtain ⟨before, line, after, r, hlines, hr, hline⟩ := exists_of_foldlM_error h
  obtain ⟨_, ⟨parts, hparts, rfl⟩, hfollows⟩ :=
    Reader.reads_line.foldlM.sound Reader.follows_empty hr
  rw [List.nil_append] at hfollows
  have htokens := List.forall₂_map_left_iff.2 hparts
  obtain ⟨rfl, more, hmore, hfull⟩ := hfollows.line_error (wellShaped_of_forall₂ htokens) hline
  refine ⟨rfl, ?_⟩
  have htexts := length_textsIn_flatten_le (List.rel_append htokens (.cons hmore .nil))
  have hlength := length_flatten_linesOf_le lexemes
  simp only [hlines, List.flatten_append, List.flatten_cons, List.flatten_nil, List.append_nil,
    List.length_append, ← List.map_flatten, List.length_map] at htexts hlength
  omega

/-! ## The first label that is not defined -/

/-- The first mention of a label that a listing does not define, and the mentions before it. -/
structure FirstUndefined (lexemes : List Lexeme) (before : List Mention) (m : Mention) : Prop where
  mentioned : ∃ after, mentions lexemes = before ++ m :: after
  undefined : ¬Defines lexemes m.name
  defined : ∀ p ∈ before, Defines lexemes p.name

theorem exists_firstUndefined (h : ∃ m ∈ mentions lexemes, ¬Defines lexemes m.name) :
    ∃ before m, FirstUndefined lexemes before m := by
  classical
  obtain ⟨m, hm⟩ : ∃ m, (mentions lexemes).find? (fun m => ¬Defines lexemes m.name) = some m := by
    rw [← Option.isSome_iff_exists, List.find?_isSome]
    simpa using h
  obtain ⟨hundefined, before, after, hms, hbefore⟩ := List.find?_eq_some_iff_append.1 hm
  exact ⟨before, m, ⟨after, hms⟩, by simpa using hundefined, by simpa using hbefore⟩

/-- What is blamed for a label that is not defined. -/
def undefinedCause (before : List Mention) (m : Mention) : CauseAt where
  cause := .assembly (.unresolvedLabel ⟨(before.map Mention.name).toFinset.card⟩ (some m.name))
  span := m.span

variable {r : Reader}

/-- **A reader at the end of a listing** blames the first label that is not defined. -/
theorem Reader.Follows.finish_of_firstUndefined (h : r.Follows calls)
    (hspells : Spells (lexemes.map Lexeme.token) calls)
    (hlines : (linesOf lexemes).foldlM Reader.line {} = .ok r)
    (hfirst : FirstUndefined lexemes before m) : r.finish = .error (undefinedCause before m) := by
  obtain ⟨⟨after, hms⟩, hm, hbefore⟩ := hfirst
  have hseen := Reader.seen_lines hlines
  rw [hms] at hseen
  refine h.finish_eq hseen (by rwa [hspells.mem_definedIn_iff]) fun p hp => ?_
  exact hspells.mem_definedIn_iff.2 (hbefore p hp)

theorem exists_undefined_of_finish_error (h : r.Follows calls)
    (hspells : Spells (lexemes.map Lexeme.token) calls)
    (hlines : (linesOf lexemes).foldlM Reader.line {} = .ok r) {c : CauseAt}
    (hr : r.finish = .error c) : ∃ m ∈ mentions lexemes, ¬Defines lexemes m.name := by
  by_contra hnone
  have hall : ∀ m ∈ mentions lexemes, Defines lexemes m.name := by simpa using hnone
  have hdefined : ∀ name ∈ notedFrom [] calls, name ∈ definedIn calls := by
    intro name hname
    have hseen : name ∈ r.seen.map Mention.name := by
      rw [← h.records.names] at hname
      rw [Reader.seen, List.map_map]
      exact hname
    rw [Reader.seen_lines hlines, mem_map_name_firstMentions] at hseen
    obtain ⟨m, hm, rfl⟩ := List.mem_map.1 hseen
    exact hspells.mem_definedIn_iff.2 (hall m hm)
  obtain ⟨p, hp⟩ := h.exists_finish_iff.2 hdefined
  rw [finish_eq_ok_iff.2 hp] at hr
  contradiction

/-- **A listing that was read to its end** fails because of the first label that it does not
define. -/
theorem exists_of_finish_error (hlines : (linesOf lexemes).foldlM Reader.line {} = .ok r)
    {c : CauseAt} (hr : r.finish = .error c) :
    ∃ before m, FirstUndefined lexemes before m ∧ c = undefinedCause before m := by
  obtain ⟨calls, hspells, hfollows⟩ := Reader.reads_lines.sound Reader.follows_empty hlines
  rw [List.nil_append] at hfollows
  obtain ⟨before, m, hfirst⟩ := exists_firstUndefined
    (exists_undefined_of_finish_error hfollows hspells hlines hr)
  have hm := hfollows.finish_of_firstUndefined hspells hlines hfirst
  exact ⟨before, m, hfirst, Except.error.inj (hr.symm.trans hm)⟩

/-- **What the assembly refuses** in lexemes is their first label that is not defined. -/
theorem assembleLexemes_error {error : AssemblyError} {span : Span}
    (h : assembleLexemes lexemes = .error ⟨.assembly error, span⟩) :
    error = .poolFull ∧ 2 ^ 32 < lexemes.length ∨
      ∃ before m, FirstUndefined lexemes before m ∧
        (⟨.assembly error, span⟩ : CauseAt) = undefinedCause before m := by
  rcases bind_eq_error h with hlines | ⟨r, hlines, hfinish⟩
  · exact .inl (lines_error hlines)
  · exact .inr (exists_of_finish_error hlines hfinish)

/-- Well formed lines with a label that is not defined are refused because of it. -/
theorem assembleLexemes_of_undefined (hspells : Spells (lexemes.map Lexeme.token) calls)
    (honce : (definedIn calls).Nodup) (hroom : (textsIn calls).length ≤ 2 ^ 32)
    (hfirst : FirstUndefined lexemes before m) :
    assembleLexemes lexemes = .error (undefinedCause before m) := by
  have hfeasible : Reader.Feasible calls :=
    ⟨honce, (performAll_stepsFrom_iff hspells.wellShaped rfl (Nat.zero_le _)).2 (by simpa)⟩
  obtain ⟨r, hlines, hfollows⟩ :=
    Reader.reads_lines.complete Reader.follows_empty hspells hfeasible
  rw [assembleLexemes, hlines]
  exact hfollows.finish_of_firstUndefined hspells hlines hfirst

/-- A label that is not defined stands where it is mentioned as a word. -/
theorem FirstUndefined.word_mem (h : FirstUndefined lexemes before m) :
    ⟨.word m.name, m.span⟩ ∈ lexemes := by
  obtain ⟨⟨after, hms⟩, hm, -⟩ := h
  have hmem : m ∈ mentions lexemes := by simp [hms]
  obtain ⟨line, hline, hmem⟩ := List.mem_flatMap.1 hmem
  have hsub : ∀ l ∈ line, l ∈ lexemes := by
    intro l hl
    have hflat := List.mem_flatten_of_mem hline hl
    rw [flatten_linesOf] at hflat
    exact List.mem_of_mem_filter hflat
  rcases mem_of_mem_lineMentions hmem with hdef | hword
  · exact absurd ⟨m.span, hsub _ hdef⟩ hm
  · exact hsub _ hword

/-- **The first label that is not defined is blamed, where it was mentioned first.** For every
source:

* What the assembly refuses is a label that no line defines, and all labels mentioned before it are
  defined. It goes by its number among the labels in the order of their first mention, and the error
  is where its name stands, on the line of that word. The pool is full only for a source of more
  than 2³² characters.
* If the lines are well formed, no label is defined twice and there is room for the texts, as there
  always is if the source has at most 2³² characters, then a label that is mentioned and not defined
  gives this error.
* The order in which the reader keeps its entries does not matter, whatever it has read. -/
theorem undefined_label_at_first_mention (source : String) :
    (∀ error span line, assemble source = .error ⟨.assembly error, span, line⟩ →
      error = .poolFull ∧ 2 ^ 32 < source.length ∨
      ∃ lexemes before m, lex source = .ok lexemes ∧ FirstUndefined lexemes before m ∧
        error = .unresolvedLabel ⟨(before.map Mention.name).toFinset.card⟩ (some m.name) ∧
        span = m.span ∧ line = lineNumber source m.span.start ∧
        ∃ k tokens, line = k + 1 ∧ (linesOf lexemes)[k]? = some tokens ∧
          ⟨.word m.name, m.span⟩ ∈ tokens) ∧
    (∀ lexemes calls, lex source = .ok lexemes → Spells (lexemes.map Lexeme.token) calls →
      (definedIn calls).Nodup → source.length ≤ 2 ^ 32 ∨ (textsIn calls).length ≤ 2 ^ 32 →
      (∃ m ∈ mentions lexemes, ¬Defines lexemes m.name) →
      ∃ before m, FirstUndefined lexemes before m ∧ assemble source = .error
        ⟨.assembly (.unresolvedLabel ⟨(before.map Mention.name).toFinset.card⟩ (some m.name)),
          m.span, lineNumber source m.span.start⟩) ∧
    ∀ lines r entries, List.foldlM Reader.line {} lines = .ok r → entries.Perm r.labels →
      (∀ name, Reader.entry? { r with labels := entries } name = r.entry? name) ∧
        { r with labels := entries }.finish = r.finish := by
  refine ⟨?_, ?_, ?_⟩
  · intro error span line h
    unfold assemble at h
    cases hlex : lex source with
    | error e =>
      rw [hlex] at h
      cases h
    | ok lexemes =>
      rw [hlex] at h
      cases hassemble : assembleLexemes lexemes with
      | ok p =>
        simp only [hassemble] at h
        cases h
      | error c =>
        simp only [hassemble] at h
        obtain ⟨cause, at'⟩ := c
        cases h
        rcases assembleLexemes_error hassemble with ⟨rfl, hfull⟩ | ⟨before, m, hfirst, hc⟩
        · exact .inl ⟨rfl, Nat.lt_of_lt_of_le hfull (length_le_of_lex hlex)⟩
        · cases hc
          obtain ⟨k, tokens, hline, htokens, hmem⟩ :=
            exists_line_of_lex hlex hfirst.word_mem nofun
          exact .inr ⟨lexemes, before, m, rfl, hfirst, rfl, rfl, rfl, k, tokens, hline, htokens,
            hmem⟩
  · intro lexemes calls hlex hspells honce hroom hundefined
    obtain ⟨before, m, hfirst⟩ := exists_firstUndefined hundefined
    have htexts : (textsIn calls).length ≤ 2 ^ 32 :=
      hroom.elim ((hspells.length_textsIn_le_of_lex hlex).trans ·) id
    refine ⟨before, m, hfirst, ?_⟩
    rw [assemble, hlex]
    dsimp only
    rw [assembleLexemes_of_undefined hspells honce htexts hfirst]
    rfl
  · intro lines r entries hlines hperm
    obtain ⟨calls, -, hfollows⟩ := Reader.reads_line.foldlM.sound Reader.follows_empty hlines
    exact hfollows.records.of_perm (nodup_notedFrom .nil _) hperm

/-- Of two labels that are used and never defined the first one is blamed, the third label of the
listing: one before it is defined later, and one where it stands. -/
theorem undefined_label_after_two_others :
    let source := "JMP b\na: JMPF c\nb:\nJMP d\nJMP c"
    let calls : List Call := [.jump .jump "b", .define "a", .jump .jumpUnless "c", .define "b",
      .jump .jump "d", .jump .jump "c"]
    assemble source = .error ⟨.assembly (.unresolvedLabel ⟨2⟩ (some "c")), ⟨14, 15⟩, 2⟩ ∧
    ∃ lexemes before m, lex source = .ok lexemes ∧ Spells (lexemes.map Lexeme.token) calls ∧
      FirstUndefined lexemes before m ∧ m = ⟨"c", 14, 15⟩ ∧
      (before.map Mention.name).toFinset.card = 2 := by
  intro source calls
  have hassemble : assemble source =
      .error ⟨.assembly (.unresolvedLabel ⟨2⟩ (some "c")), ⟨14, 15⟩, 2⟩ := by decide +kernel
  have htokens : (lex source).map (List.map Lexeme.token) = .ok
      [.word "JMP", .word "b", .newline, .labelDef "a", .word "JMPF", .word "c", .newline,
        .labelDef "b", .newline, .word "JMP", .word "d", .newline, .word "JMP", .word "c"] := by
    decide +kernel
  obtain ⟨lexemes, hlex, htokens⟩ := exists_of_map_ok htokens
  have hspells : Spells (lexemes.map Lexeme.token) calls := by
    rw [htokens]
    have hjump : SpellsMnemonic "JMP" .jump := rfl
    have hunless : SpellsMnemonic "JMPF" .jumpUnless := rfl
    exact ⟨[[.jump .jump "b"], [.define "a", .jump .jumpUnless "c"], [.define "b"],
      [.jump .jump "d"], [.jump .jump "c"]], .cons (.instruction hjump (.label rfl)) <|
        .cons (.label (.instruction hunless (.label rfl))) <| .cons (.label .blank) <|
        .cons (.instruction hjump (.label rfl)) <|
        .cons (.instruction hjump (.label rfl)) .nil, rfl⟩
  obtain ⟨hblamed, hrefused, -⟩ := undefined_label_at_first_mention source
  obtain ⟨m, hm, hundefined⟩ : ∃ m ∈ mentions lexemes, ¬Defines lexemes m.name := by
    rcases hblamed _ _ _ hassemble with ⟨hfull, -⟩ | ⟨others, before, m, hothers, hfirst, -⟩
    · contradiction
    · obtain rfl := Except.ok.inj (hothers.symm.trans hlex)
      obtain ⟨after, hms⟩ := hfirst.mentioned
      exact ⟨m, by simp [hms], hfirst.undefined⟩
  obtain ⟨before, ⟨name, span⟩, hfirst, herror⟩ :=
    hrefused lexemes calls hlex hspells (by decide) (.inl (by decide)) ⟨m, hm, hundefined⟩
  obtain ⟨hcause, hspan, -⟩ := Error.mk.inj (Except.error.inj (hassemble.symm.trans herror))
  obtain ⟨hlabel, hname⟩ := AssemblyError.unresolvedLabel.inj (Cause.assembly.inj hcause)
  exact ⟨hassemble, lexemes, before, _, hlex, hspells, hfirst,
    (congrArg₂ Mention.mk (Option.some.inj hname) hspan).symm, (Label.mk.inj hlabel).symm⟩

end StackMachine.Listing
