import StackMachine.Proofs.Listing.Reading

/-!
# Which listings are accepted

A listing is accepted exactly when its lines are those of the grammar, no label is defined twice,
every label that is named is defined and the pool has room for the texts
(`exists_assembleLexemes_iff`).
-/

namespace StackMachine.Listing

open Assembly (performAll_append performAll_append_of_ok performAll_singleton)

variable {known : List String} {calls : List Call} {a b : Assembly}

/-! ## Room in the pool -/

/-- Making a label, if need be, leaves it known and the pool as it was. -/
theorem exists_mention (hmade : a.labels.size = known.length) (name : String) :
    ∃ b, a.performAll (mentionSteps known name) = .ok b ∧ b.knows (labelOf known name) ∧
      b.labels.size = (noted known name).length ∧ b.strings = a.strings := by
  unfold mentionSteps noted
  by_cases hname : name ∈ known
  · rw [if_pos hname, if_pos hname]
    refine ⟨a, rfl, ?_, hmade, rfl⟩
    rw [Assembly.knows, hmade]
    exact decide_eq_true (List.idxOf_lt_length_iff.2 hname)
  · rw [if_neg hname, if_neg hname]
    refine ⟨_, rfl, ?_, ?_, rfl⟩
    · simp [Assembly.knows, Assembly.newLabel, labelOf, List.idxOf_eq_length hname, hmade]
    · simp [Assembly.newLabel, hmade]

private theorem exists_emitWith {op : Opcode} {imm : Immediate} (hshape : imm.shape = op.shape)
    (hroom : imm.shape = .string → a.strings.size < 2 ^ 32) : ∃ b, a.emitWith op imm = .ok b := by
  unfold Assembly.emitWith
  rw [if_neg (not_not.2 hshape)]
  cases imm with
  | text s => exact ⟨_, if_pos (hroom rfl)⟩
  | u8 n | u16 n | u32 n | u64 n | f64 x => exact ⟨_, rfl⟩

private theorem exists_emitJump {op : Opcode} {label : Label} (hshape : op.shape = .u64)
    (hknown : a.knows label) : ∃ b, a.emitJump op label = .ok b := by
  unfold Assembly.emitJump
  rw [if_neg (not_not.2 hshape), if_pos hknown]
  exact ⟨_, if_pos hknown⟩

/-- What an immediate adds to the pool is the text of its call. -/
private theorem size_pooled (op : Opcode) (imm : Immediate) :
    imm.pooled.size = (Call.emitWith op imm).text?.toList.length := by
  cases imm <;> rfl

/-- A call can be made when there is room for its text. -/
theorem exists_performAll_steps {call : Call} (hshape : call.WellShaped)
    (hmade : a.labels.size = known.length)
    (hroom : a.strings.size + call.text?.toList.length ≤ 2 ^ 32) :
    ∃ b, a.performAll (call.steps known) = .ok b ∧
      b.labels.size = (call.noted known).length ∧
      b.strings.size = a.strings.size + call.text?.toList.length := by
  cases call with
  | define name =>
    obtain ⟨b, hb, hknown, hlabels, hstrings⟩ := exists_mention hmade name
    obtain ⟨c, hplace⟩ : ∃ c, b.placeLabel (labelOf known name) = .ok c := ⟨_, if_pos hknown⟩
    refine ⟨c, ?_, ?_, ?_⟩
    · rw [Call.steps, performAll_append_of_ok hb, performAll_singleton, Assembly.perform, hplace]
      rfl
    · rw [Assembly.placeLabel_ok hplace, Array.size_modify]
      exact hlabels
    · rw [Assembly.placeLabel_ok hplace, ← hstrings]
      rfl
  | emit op =>
    refine ⟨a.append [op.code], ?_, hmade, rfl⟩
    rw [Call.steps, performAll_singleton, Assembly.perform, Assembly.emit, if_pos (by exact hshape)]
    rfl
  | emitWith op imm =>
    obtain ⟨b, hemit⟩ : ∃ b, a.emitWith op imm = .ok b := by
      refine exists_emitWith hshape fun hstring => ?_
      cases imm with
      | text s => exact hroom
      | u8 n | u16 n | u32 n | u64 n | f64 x => contradiction
    obtain ⟨-, -, hb⟩ := Assembly.emitWith_ok hemit
    refine ⟨b, ?_, ?_, ?_⟩
    · rw [Call.steps, performAll_singleton, Assembly.perform, hemit]
      rfl
    · rw [hb]
      exact hmade
    · rw [hb, Array.size_append, size_pooled op imm]
  | jump op name =>
    obtain ⟨b, hb, hknown, hlabels, hstrings⟩ := exists_mention hmade name
    have hop : op.shape = .u64 := hshape
    obtain ⟨c, hjump⟩ := exists_emitJump hop hknown
    obtain ⟨-, hrefer⟩ := Assembly.emitJump_ok hjump
    obtain ⟨-, hc⟩ := Assembly.referTo_ok hrefer
    refine ⟨c, ?_, ?_, ?_⟩
    · rw [Call.steps, performAll_append_of_ok hb, performAll_singleton, Assembly.perform, hjump]
      rfl
    · rw [hc, Array.size_modify]
      exact hlabels
    · rw [hc, ← hstrings]
      rfl

/-- A call that was made found room for its text. -/
theorem room_of_performAll_steps {call : Call} (hroom : a.strings.size ≤ 2 ^ 32)
    (h : a.performAll (call.steps known) = .ok b) :
    a.strings.size + call.text?.toList.length ≤ 2 ^ 32 := by
  cases call with
  | emitWith op imm =>
    rw [Call.steps, performAll_singleton, Assembly.perform] at h
    obtain ⟨_, h, -⟩ := exists_of_map_ok h
    obtain ⟨c, hemit, -⟩ := exists_of_map_ok h
    obtain ⟨-, htext, -⟩ := Assembly.emitWith_ok hemit
    cases imm with
    | text s => exact htext rfl
    | u8 n | u16 n | u32 n | u64 n | f64 x => exact hroom
  | define name | emit op | jump op name => exact hroom

/-- **When a sequence of calls can be made**: there is room for all texts. -/
theorem performAll_stepsFrom_iff (hshape : ∀ call ∈ calls, call.WellShaped)
    (hmade : a.labels.size = known.length) (hroom : a.strings.size ≤ 2 ^ 32) :
    (∃ b, a.performAll (stepsFrom known calls) = .ok b) ↔
      a.strings.size + (textsIn calls).length ≤ 2 ^ 32 := by
  induction calls generalizing a known with
  | nil => exact ⟨fun _ => hroom, fun _ => ⟨a, rfl⟩⟩
  | cons call calls ih =>
    have hcall := hshape call List.mem_cons_self
    have hcalls : ∀ c ∈ calls, c.WellShaped := fun c hc => hshape c (List.mem_cons_of_mem _ hc)
    -- The pool grows by the text of the first call, and the others need the room that is left.
    rw [textsIn_cons, List.length_append, ← Nat.add_assoc, stepsFrom]
    constructor
    · rintro ⟨b, hb⟩
      rw [performAll_append] at hb
      obtain ⟨c, hc, hb⟩ := exists_of_bind_ok hb
      have htext := room_of_performAll_steps hroom hc
      obtain ⟨_, hc', hlabels, hstrings⟩ := exists_performAll_steps hcall hmade htext
      obtain rfl := Except.ok.inj (hc.symm.trans hc')
      rw [← hstrings] at htext ⊢
      exact (ih hcalls hlabels htext).1 ⟨b, hb⟩
    · intro hlength
      obtain ⟨c, hc, hlabels, hstrings⟩ :=
        exists_performAll_steps hcall hmade (Nat.le_of_add_right_le hlength)
      rw [← hstrings] at hlength
      rw [performAll_append_of_ok hc]
      exact (ih hcalls hlabels (Nat.le_of_add_right_le hlength)).2 hlength

/-! ## Labels that were placed -/

/-- A label that is not defined has no address. -/
theorem address?_eq_none (h : Assembly.performAll {} (stepsFrom [] calls) = .ok a) {name : String}
    (hname : name ∈ notedFrom [] calls) (hnew : name ∉ definedIn calls) :
    a.address? (labelOf (notedFrom [] calls) name) = none := by
  rw [Assembly.address?_performAll h]
  · rfl
  · intro hplace
    obtain ⟨other, hother, hlabel⟩ := exists_of_placeLabel_mem hplace
    exact hnew (eq_of_labelOf_eq hname hlabel ▸ hother)

/-- **A label has the position of its last definition.** -/
theorem exists_address? {before after : List Call} {name : String}
    (h : Assembly.performAll {} (stepsFrom [] (before ++ .define name :: after)) = .ok a)
    (hlast : name ∉ definedIn after) :
    ∃ b, Assembly.performAll {} (stepsFrom [] before) = .ok b ∧
      a.address? (labelOf (notedFrom [] (before ++ .define name :: after)) name) =
        some b.position := by
  rw [stepsFrom_append, performAll_append] at h
  obtain ⟨b, hb, h⟩ := exists_of_bind_ok h
  refine ⟨b, hb, ?_⟩
  rw [notedFrom_append]
  generalize notedFrom [] before = known at h ⊢
  -- The label is made, if need be, and then placed where the code stands.
  rw [stepsFrom, Call.steps, List.append_assoc, performAll_append] at h
  obtain ⟨c, hmention, h⟩ := exists_of_bind_ok h
  obtain ⟨reply, d, hplace, hafter⟩ := Assembly.performAll_cons_ok h
  have hposition : c.position = b.position := by
    unfold mentionSteps at hmention
    split at hmention <;> obtain rfl := Except.ok.inj hmention <;> rfl
  have hlabel : labelOf (notedFrom known (.define name :: after)) name = labelOf known name :=
    labelOf_notedFrom known name after
  rw [hlabel, Assembly.address?_performAll hafter, Assembly.address?_perform hplace, if_pos rfl,
    hposition]
  intro hagain
  obtain ⟨other, hother, hsame⟩ := exists_of_placeLabel_mem hagain
  have hmem : name ∈ notedFrom (noted known name) after :=
    (prefix_notedFrom _ after).subset (mem_noted.2 (Or.inr rfl))
  rw [← labelOf_notedFrom known name after] at hsame
  exact hlast (eq_of_labelOf_eq hmem hsame ▸ hother)

/-- What is defined once has an address. -/
theorem isSome_address?_iff (h : Assembly.performAll {} (stepsFrom [] calls) = .ok a)
    (honce : (definedIn calls).Nodup) {name : String} (hname : name ∈ notedFrom [] calls) :
    (a.address? (labelOf (notedFrom [] calls) name)).isSome ↔ name ∈ definedIn calls := by
  constructor
  · intro hsome
    by_contra hnew
    rw [address?_eq_none h hname hnew] at hsome
    contradiction
  · intro hdefined
    obtain ⟨before, after, rfl⟩ := List.append_of_mem (mem_definedIn.1 hdefined)
    rw [definedIn, List.filterMap_append] at honce
    have hlast : name ∉ definedIn after := (List.nodup_cons.1 honce.of_append_right).1
    obtain ⟨b, -, hb⟩ := exists_address? h hlast
    rw [hb]
    rfl

/-- **An assembly can be finished** when every name that was mentioned is defined. -/
theorem Reader.Follows.exists_finish_iff {r : Reader} (h : r.Follows calls) :
    (∃ p, r.assembly.finish = .ok p) ↔ ∀ name ∈ notedFrom [] calls, name ∈ definedIn calls := by
  have hsize : r.assembly.labels.size = (notedFrom [] calls).length := by
    rw [h.made, ← h.records.names, List.length_map]
  rw [Assembly.exists_finish_iff]
  constructor
  · intro hplaced name hname
    rw [← isSome_address?_iff h.performed h.once hname]
    have hlt : (labelOf (notedFrom [] calls) name).index < r.assembly.labels.size := by
      rw [hsize]
      exact List.idxOf_lt_length_iff.2 hname
    rw [Assembly.address?, Array.getElem?_eq_getElem hlt]
    exact hplaced _ (Array.getElem_mem hlt)
  · intro hdefined slot hslot
    obtain ⟨k, hk, rfl⟩ := Array.mem_iff_getElem.1 hslot
    have hk' : k < (notedFrom [] calls).length := hsize ▸ hk
    have hmem := List.getElem_mem hk'
    have hlabel : labelOf (notedFrom [] calls) (notedFrom [] calls)[k] = ⟨k⟩ := by
      rw [labelOf, (nodup_notedFrom .nil calls).idxOf_getElem]
    have hsome := (isSome_address?_iff h.performed h.once hmem).2 (hdefined _ hmem)
    rw [hlabel, Assembly.address?, Array.getElem?_eq_getElem hk] at hsome
    exact hsome

/-! ## Accepted listings -/

/-- The labels of calls are in order: none is defined twice, and every one that is named is
defined. -/
structure Resolved (calls : List Call) : Prop where
  once : (definedIn calls).Nodup
  defined : ∀ op name, .jump op name ∈ calls → .define name ∈ calls

/-- Every name that was mentioned is defined when every name that is used is. -/
theorem mentioned_defined_iff :
    (∀ name ∈ notedFrom [] calls, name ∈ definedIn calls) ↔
      ∀ op name, .jump op name ∈ calls → .define name ∈ calls := by
  constructor
  · intro h op name hjump
    exact mem_definedIn.1 (h name (mem_notedFrom.2 (Or.inr ⟨_, hjump, rfl⟩)))
  · intro h name hname
    obtain ⟨call, hcall, hmention⟩ := (mem_notedFrom.1 hname).resolve_left List.not_mem_nil
    rw [mem_definedIn]
    cases call with
    | define other =>
      obtain rfl := Option.some.inj hmention
      exact hcall
    | jump op other =>
      obtain rfl := Option.some.inj hmention
      exact h op other hcall
    | emit op | emitWith op imm => contradiction

theorem finish_eq_ok_iff {r : Reader} {p : Program} :
    r.finish = .ok p ↔ r.assembly.finish = .ok p :=
  mapError_eq_ok_iff

/-- A listing that is accepted spells calls, and its program is what they assemble. -/
theorem exists_follows_of_assembleLexemes {lexemes : List Lexeme} {p : Program}
    (h : assembleLexemes lexemes = .ok p) :
    ∃ (r : Reader) (calls : List Call), Spells (lexemes.map Lexeme.token) calls ∧
      r.Follows calls ∧ r.assembly.finish = .ok p := by
  obtain ⟨r, hlines, hfinish⟩ := exists_of_bind_ok h
  obtain ⟨calls, hspells, hfollows⟩ := Reader.reads_lines.sound Reader.follows_empty hlines
  exact ⟨r, calls, hspells, hfollows, finish_eq_ok_iff.1 hfinish⟩

/-- **Which lexemes are accepted.** -/
theorem exists_assembleLexemes_iff {lexemes : List Lexeme} :
    (∃ p, assembleLexemes lexemes = .ok p) ↔
      ∃ calls, Spells (lexemes.map Lexeme.token) calls ∧ Resolved calls ∧
        (textsIn calls).length ≤ 2 ^ 32 := by
  constructor
  · rintro ⟨p, hp⟩
    obtain ⟨r, calls, hspells, hfollows, hfinish⟩ := exists_follows_of_assembleLexemes hp
    refine ⟨calls, hspells, ⟨hfollows.once, ?_⟩, ?_⟩
    · exact mentioned_defined_iff.1 (hfollows.exists_finish_iff.1 ⟨p, hfinish⟩)
    · have hroom := (performAll_stepsFrom_iff hspells.wellShaped rfl (Nat.zero_le _)).1
        ⟨_, hfollows.performed⟩
      simpa using hroom
  · rintro ⟨calls, hspells, ⟨honce, hdefined⟩, hroom⟩
    have hfeasible : Reader.Feasible calls := by
      refine ⟨honce, (performAll_stepsFrom_iff hspells.wellShaped rfl (Nat.zero_le _)).2 ?_⟩
      simpa using hroom
    obtain ⟨r, hlines, hfollows⟩ :=
      Reader.reads_lines.complete Reader.follows_empty hspells hfeasible
    obtain ⟨p, hp⟩ := hfollows.exists_finish_iff.2 (mentioned_defined_iff.2 hdefined)
    refine ⟨p, ?_⟩
    unfold assembleLexemes
    rw [hlines]
    exact finish_eq_ok_iff.2 hp

theorem assemble_eq_ok_iff {source : String} {lexemes : List Lexeme} {p : Program}
    (hlex : lex source = .ok lexemes) :
    assemble source = .ok p ↔ assembleLexemes lexemes = .ok p := by
  unfold assemble
  rw [hlex]
  exact mapError_eq_ok_iff

/-- **The program of a listing** is one that a sequence of steps assembles. -/
theorem assemble_steps {source : String} {p : Program} (h : assemble source = .ok p) :
    ∃ steps, (Assembly.afterAll {} steps).finish = .ok p := by
  cases hlex : lex source with
  | error e =>
    rw [assemble, hlex] at h
    contradiction
  | ok lexemes =>
    obtain ⟨r, calls, -, hfollows, hfinish⟩ :=
      exists_follows_of_assembleLexemes ((assemble_eq_ok_iff hlex).1 h)
    refine ⟨stepsFrom [] calls, ?_⟩
    rwa [Assembly.afterAll_of_performAll hfollows.performed]

end StackMachine.Listing
