import StackMachine.Command.Respond
import StackMachine.Proofs.Assembler.Refinement

/-!
# Errors that point at a corrupt program

An error says itself whether it is the program or its producer that is at fault, and so does the
code of its diagnostic. For every error of a machine the two agree, and every reader of the
diagnostic is told the same: the JSON member, and the note that is displayed. For every error of an
assembler they agree but for one: leaving a scope that was never entered is bad input by itself and
a fault of the producer by its code (`error_classes_agree_except_scope_exit`). All codes are in the
catalogue.
-/

namespace StackMachine

/-! ## What a diagnostic tells its readers -/

namespace Diagnostic

variable {d : Diagnostic}

/-- The remark on a corrupt program. -/
def corruptNote : String := "note: the program or its producer is corrupt"

/-- The text of the remark on a corrupt program where it is displayed. -/
def corruptLine : Segment := bare (" " ++ corruptNote ++ "\n")

/-- The diagnostic tells everyone the same: by its code, as JSON and when it is displayed. -/
structure TellsInternal (d : Diagnostic) (internal : Bool) : Prop where
  code : d.isInternal = internal
  json : ∃ members, d.toJson = .object members ∧
    ∀ value, ("internal", value) ∈ members ↔ value = .bool internal
  display : corruptLine ∈ d.segments ↔ internal = true

/-- The code of the diagnostic is found in the catalogue. -/
def Catalogued (d : Diagnostic) : Prop :=
  ∃ entry, d.code = some entry.code ∧ Catalogue.find? entry.code = some entry

theorem corruptLine_mem_remark_iff {text : String} :
    corruptLine ∈ remark text ↔ text = corruptNote := by
  have hindent : corruptLine ≠ bare "  " := by decide +kernel
  have hsign : corruptLine ≠ styled .dim "=" := nofun
  simp only [remark, List.mem_cons, List.not_mem_nil, or_false, hindent, hsign, false_or]
  constructor
  · intro h
    have htext := congrArg Segment.text h
    simpa [corruptLine, bare] using htext.symm
  · rintro rfl
    rfl

theorem corruptLine_notMem_heading : corruptLine ∉ d.heading := by
  have hcolon : corruptLine ≠ bare ": " := by decide +kernel
  have hend : corruptLine ≠ bare "\n" := by decide +kernel
  simp only [heading, List.mem_cons, List.not_mem_nil, or_false, hcolon, hend, false_or, not_or]
  exact ⟨nofun, nofun⟩

theorem note_eq_corruptNote_iff {note : String} :
    "note: " ++ note = corruptNote ↔ note = "the program or its producer is corrupt" := by
  have hnote : corruptNote = "note: " ++ "the program or its producer is corrupt" := rfl
  rw [hnote, String.append_right_inj]

theorem suggestion_ne_corruptNote (s : String) : "suggestion: " ++ s ≠ corruptNote := by
  intro h
  have hlist := congrArg String.toList h
  rw [String.toList_append] at hlist
  exact absurd (List.cons.inj hlist).1 (by decide)

/-- Without marks, and without a note that is the remark itself, the remark on a corrupt program is
displayed only for its own sake. -/
theorem corruptLine_mem_segments_iff (hmarks : d.marks = [])
    (hnotes : "the program or its producer is corrupt" ∉ d.notes) :
    corruptLine ∈ d.segments ↔ d.isInternal = true := by
  have hexcerpt : d.primaryExcerpt = [] := by
    rw [primaryExcerpt, hmarks]
    rfl
  have hnote : corruptLine ∉ d.notes.flatMap fun note => remark ("note: " ++ note) := by
    intro h
    obtain ⟨note, hnote, hline⟩ := List.mem_flatMap.1 h
    rw [corruptLine_mem_remark_iff, note_eq_corruptNote_iff] at hline
    exact hnotes (hline ▸ hnote)
  have hsuggestion (s : String) : corruptLine ∉ remark ("suggestion: " ++ s) :=
    mt corruptLine_mem_remark_iff.1 (suggestion_ne_corruptNote s)
  have hcorrupt : corruptLine ∈ remark "note: the program or its producer is corrupt" :=
    corruptLine_mem_remark_iff.2 rfl
  rw [segments, hexcerpt, hmarks]
  simp only [List.filter_nil, List.flatMap_nil, List.append_nil, List.mem_append,
    corruptLine_notMem_heading, hnote, false_or]
  cases d.suggestion <;> cases d.isInternal <;> simp [hsuggestion, hcorrupt]

/-- **Every reader is told what the code says.** -/
theorem tellsInternal (hmarks : d.marks = [])
    (hnotes : "the program or its producer is corrupt" ∉ d.notes) :
    d.TellsInternal d.isInternal where
  code := rfl
  json := by
    refine ⟨_, rfl, fun value => ?_⟩
    cases d.code <;> cases d.suggestion <;> simp
  display := corruptLine_mem_segments_iff hmarks hnotes

end Diagnostic

/-! ## The catalogue -/

namespace Catalogue

/-- The codes for corrupt programs. -/
def corruptCodes : List String := corrupt.map CatalogueEntry.code

/-- All codes of the catalogue. -/
def codes : List String := all.map CatalogueEntry.code

theorem corruptCodes_eq : corruptCodes =
    ["ZOE-I002", "ZOE-I003", "ZOE-I004", "ZOE-I005", "ZOE-I006", "ZOE-I007", "ZOE-I008"] := rfl

theorem codes_eq : codes =
    ["ZOE-F001", "ZOE-F002", "ZOE-F003", "ZOE-F004", "ZOE-F005",
      "ZOE-A001", "ZOE-A002", "ZOE-A003", "ZOE-A004", "ZOE-A005",
      "ZOE-L001", "ZOE-L002", "ZOE-L003",
      "ZOE-R001", "ZOE-R002", "ZOE-R003", "ZOE-R004", "ZOE-R005", "ZOE-R006", "ZOE-R007",
      "ZOE-R008"] ++ corruptCodes := rfl

/-- An entry is found by its code, for codes are written in upper case. -/
theorem exists_find?_eq {code : String} (h : code ∈ codes) :
    ∃ e, find? code = some e ∧ e.code = code := by
  have hupper : ∀ c ∈ codes, c.toList.map Char.toUpper = c.toList := by
    rw [codes_eq]
    decide +kernel
  obtain ⟨e, he, rfl⟩ := List.mem_map.1 h
  have hfound : (find? e.code).isSome := by
    rw [find?, List.find?_isSome]
    exact ⟨e, he, beq_iff_eq.2 (hupper _ h).symm⟩
  obtain ⟨found, hfind⟩ := Option.isSome_iff_exists.1 hfound
  have hcode := List.find?_some hfind
  rw [beq_iff_eq, hupper _ h, String.toList_inj] at hcode
  exact ⟨found, hfind, hcode⟩

/-- The codes for corrupt programs are told by how they begin. -/
theorem isPrefixOf_iff {code : String} (h : code ∈ codes) :
    "ZOE-I".toList.isPrefixOf code.toList = true ↔ code ∈ corruptCodes := by
  have hall : ∀ c ∈ codes,
      ("ZOE-I".toList.isPrefixOf c.toList = true ↔ c ∈ corruptCodes) := by
    rw [codes_eq]
    decide +kernel
  exact hall code h

end Catalogue

namespace Diagnostic

variable {d : Diagnostic} {code : String}

theorem catalogued_of_mem (hcode : d.code = some code) (h : code ∈ Catalogue.codes) :
    d.Catalogued := by
  obtain ⟨e, hfind, rfl⟩ := Catalogue.exists_find?_eq h
  exact ⟨e, hcode, hfind⟩

theorem isInternal_iff (hcode : d.code = some code) (h : code ∈ Catalogue.codes) :
    d.isInternal = true ↔ code ∈ Catalogue.corruptCodes := by
  rw [isInternal, hcode]
  exact Catalogue.isPrefixOf_iff h

end Diagnostic

/-! ## Errors of machines -/

theorem FormatError.code_mem (e : FormatError) : e.code ∈ Catalogue.codes := by
  rw [Catalogue.codes_eq]
  cases e <;> simp [code]

/-- A file that is no program is not the fault of a producer. -/
theorem FormatError.code_notMem (e : FormatError) : e.code ∉ Catalogue.corruptCodes := by
  rw [Catalogue.corruptCodes_eq]
  cases e <;> simp [code]

namespace MachineError

theorem code_mem (e : MachineError) : e.code ∈ Catalogue.codes := by
  cases e with
  | format e => exact e.code_mem
  | fault offset why =>
    rw [Catalogue.codes_eq, Catalogue.corruptCodes_eq]
    cases why <;> simp [code, Fault.code]
  | undecodable e =>
    rw [Catalogue.codes_eq, Catalogue.corruptCodes_eq]
    cases e <;> simp [code]
  | stepLimit | traceRefused =>
    rw [Catalogue.codes_eq]
    simp [code]

/-- **The code of a machine error** is for corrupt programs when the error says so. -/
theorem code_mem_corruptCodes_iff (e : MachineError) :
    e.code ∈ Catalogue.corruptCodes ↔ e.isInternal = true := by
  cases e with
  | format e => exact iff_of_false e.code_notMem Bool.false_ne_true
  | fault offset why =>
    rw [Catalogue.corruptCodes_eq]
    cases why <;> simp [code, Fault.code, isInternal]
  | undecodable e =>
    rw [Catalogue.corruptCodes_eq]
    cases e <;> simp [code, isInternal]
  | stepLimit | traceRefused =>
    rw [Catalogue.corruptCodes_eq]
    simp [code, isInternal]

theorem code_diagnostic (e : MachineError) : e.diagnostic.code = some e.code := by
  cases e <;> rfl

theorem marks_diagnostic (e : MachineError) : e.diagnostic.marks = [] := by
  cases e <;> rfl

theorem notes_diagnostic (e : MachineError) : e.diagnostic.notes = [] := by
  cases e <;> rfl

theorem isInternal_diagnostic (e : MachineError) : e.diagnostic.isInternal = e.isInternal := by
  rw [Bool.eq_iff_iff, Diagnostic.isInternal_iff e.code_diagnostic e.code_mem,
    code_mem_corruptCodes_iff]

/-- **The diagnostic of a machine error** tells what the error says. -/
theorem tellsInternal (e : MachineError) : e.diagnostic.TellsInternal e.isInternal := by
  rw [← isInternal_diagnostic]
  refine Diagnostic.tellsInternal e.marks_diagnostic ?_
  rw [notes_diagnostic]
  exact List.not_mem_nil

/-- So does the report of a run, which may have a note on the instruction that failed. -/
theorem tellsInternal_runtimeFailure (e : MachineError) (p : Program) :
    (Command.runtimeFailure p e).TellsInternal e.isInternal := by
  unfold Command.runtimeFailure
  split
  · next i _ =>
    rw [← isInternal_diagnostic]
    refine Diagnostic.tellsInternal (d := { e.diagnostic with
      notes := e.diagnostic.notes ++ ["at " ++ i.text p] }) e.marks_diagnostic ?_
    rw [notes_diagnostic, List.nil_append, List.mem_singleton]
    intro h
    have hlist := congrArg String.toList h
    rw [String.toList_append] at hlist
    exact absurd (List.cons.inj hlist).1 (by decide)
  · exact e.tellsInternal

end MachineError

/-! ## Errors of assemblers -/

namespace AssemblyError

theorem code_mem (e : AssemblyError) : e.code ∈ Catalogue.codes := by
  rw [Catalogue.codes_eq, Catalogue.corruptCodes_eq]
  cases e <;> simp [code]

/-- **The code of an assembly error** is for corrupt programs when the error says so, and when a
scope is left that was not entered. -/
theorem code_mem_corruptCodes_iff (e : AssemblyError) :
    e.code ∈ Catalogue.corruptCodes ↔ e.isInternal = true ∨ e = .scopeUnderflow := by
  rw [Catalogue.corruptCodes_eq]
  cases e <;> simp [code, isInternal]

theorem isInternal_diagnostic_iff (e : AssemblyError) :
    e.diagnostic.isInternal = true ↔ e.isInternal = true ∨ e = .scopeUnderflow :=
  (Diagnostic.isInternal_iff rfl e.code_mem).trans e.code_mem_corruptCodes_iff

theorem tellsInternal (e : AssemblyError) :
    e.diagnostic.TellsInternal (e.isInternal || e == .scopeUnderflow) := by
  have hclass : e.diagnostic.isInternal = (e.isInternal || e == .scopeUnderflow) := by
    rw [Bool.eq_iff_iff, isInternal_diagnostic_iff, Bool.or_eq_true, beq_iff_eq]
  rw [← hclass]
  exact Diagnostic.tellsInternal rfl List.not_mem_nil

/-- **The diagnostic of an assembly error** tells what the error says in all cases but one. -/
theorem tellsInternal_isInternal_iff (e : AssemblyError) :
    e.diagnostic.TellsInternal e.isInternal ↔ e ≠ .scopeUnderflow := by
  constructor
  · rintro h rfl
    exact absurd (h.code.symm.trans (tellsInternal _).code) (by decide)
  · intro hne
    have htells := e.tellsInternal
    rwa [beq_false_of_ne hne, Bool.or_false] at htells

end AssemblyError

/-! ## Leaving a scope that was not entered -/

namespace Assembly

variable {a : Assembly} {step : AssemblyStep}

/-- Only leaving a scope fails because no scope is open. -/
theorem eq_exitScope_of_perform (h : a.perform step = .error .scopeUnderflow) :
    step = .exitScope := by
  cases step with
  | exitScope => rfl
  | newLabel name => contradiction
  | emit op | enterScope =>
    rw [perform, map_eq_error_iff] at h
    simp only [enterScope, emit] at h
    split at h <;> cases h
  | emitWith op imm =>
    rw [perform, map_eq_error_iff] at h
    by_cases hshape : imm.shape = op.shape
    · rw [emitWith_eq hshape] at h
      split at h <;> cases h
    · simp only [emitWith, if_pos hshape] at h
      cases h
  | placeLabel label =>
    rw [perform, map_eq_error_iff, placeLabel] at h
    split at h <;> cases h
  | referTo label =>
    rw [perform, map_eq_error_iff, referTo] at h
    split at h <;> cases h
  | emitJump op label =>
    rw [perform, map_eq_error_iff, emitJump, referTo] at h
    split_ifs at h <;> cases h
  | declare name isMutable =>
    rw [perform, map_eq_error_iff, declare] at h
    split at h <;> cases h
  | resolve name =>
    rw [perform, map_eq_error_iff, resolve] at h
    split at h <;> cases h

/-- A label that is not placed is the only reason why a program cannot be finished. -/
theorem exists_label_of_patchAll_error {code : Array UInt8} {index : Nat} {slots : List LabelSlot}
    {e : AssemblyError} (h : patchAll code index slots = .error e) :
    ∃ label name, e = .unresolvedLabel label name := by
  induction slots generalizing code index with
  | nil => contradiction
  | cons slot rest ih =>
    rw [patchAll] at h
    split at h
    · exact ⟨_, _, (Except.error.inj h).symm⟩
    · exact ih h

end Assembly

namespace Assembler

variable {s : Assembler} {step : AssemblyStep}

/-- **A call fails because no scope is open** exactly when it leaves one and none is. -/
theorem answer_eq_scopeUnderflow_iff (h : s.Ordered) :
    s.answer step = .error .scopeUnderflow ↔ step = .exitScope ∧ s.bases = [] := by
  constructor
  · intro hanswer
    have hstep := hanswer
    rw [answer_eq h, map_eq_error_iff] at hstep
    obtain rfl := Assembly.eq_exitScope_of_perform hstep
    obtain ⟨code, strings, labels, visible, bases⟩ := s
    cases bases with
    | nil => exact ⟨rfl, rfl⟩
    | cons base bases => contradiction
  · rintro ⟨rfl, hbases⟩
    obtain ⟨code, strings, labels, visible, bases⟩ := s
    obtain rfl : bases = [] := hbases
    rfl

theorem finish_ne_scopeUnderflow (s : Assembler) : s.finish ≠ .error .scopeUnderflow := by
  intro h
  rcases bind_eq_error h with h | ⟨code, -, h⟩
  · obtain ⟨label, name, he⟩ := Assembly.exists_label_of_patchAll_error h
    contradiction
  · contradiction

end Assembler

open Assembler (afterAll) in
/-- **An error and its diagnostic point at a corrupt program together**, but for one error. Every
error of a machine, and so of every file that is loaded and of every run, has a code that is found
in the catalogue; its diagnostic tells what the error says, with and without the note on the
instruction that failed. So does every error of an assembler but one, whose diagnostic points at a
corrupt program when the error does not. A call gives this error exactly when it leaves a scope and
none is open, after any calls before it, and finishing a program never does. -/
theorem error_classes_agree_except_scope_exit (failure : MachineError) (p : Program)
    (refusal : AssemblyError) (steps : List AssemblyStep) (step : AssemblyStep) :
    (failure.diagnostic.Catalogued ∧ failure.diagnostic.TellsInternal failure.isInternal ∧
      (Command.runtimeFailure p failure).TellsInternal failure.isInternal) ∧
    (refusal.diagnostic.Catalogued ∧
      refusal.diagnostic.TellsInternal (refusal.isInternal || refusal == .scopeUnderflow) ∧
      (refusal.diagnostic.TellsInternal refusal.isInternal ↔ refusal ≠ .scopeUnderflow)) ∧
    ((afterAll {} steps).answer step = .error .scopeUnderflow ↔
      step = .exitScope ∧ (afterAll {} steps).bases = []) ∧
    (afterAll {} steps).finish ≠ .error .scopeUnderflow := by
  refine ⟨⟨?_, failure.tellsInternal, failure.tellsInternal_runtimeFailure p⟩,
    ⟨?_, refusal.tellsInternal, refusal.tellsInternal_isInternal_iff⟩, ?_,
    Assembler.finish_ne_scopeUnderflow _⟩
  · exact Diagnostic.catalogued_of_mem failure.code_diagnostic failure.code_mem
  · exact Diagnostic.catalogued_of_mem rfl refusal.code_mem
  · exact Assembler.answer_eq_scopeUnderflow_iff (Assembler.ordered_afterAll steps)

/-- A new assembler leaves a scope that was not entered: the error does not point at a corrupt
program, and its diagnostic does. -/
theorem unmatched_scope_exit_classified_twice :
    let e : AssemblyError := .scopeUnderflow
    (Assembler.afterAll {} []).answer .exitScope = .error e ∧
      e.isInternal = false ∧ e.diagnostic.TellsInternal true ∧
      ¬e.diagnostic.TellsInternal e.isInternal := by
  intro e
  obtain ⟨-, ⟨-, htells, hagrees⟩, hcall, -⟩ :=
    error_classes_agree_except_scope_exit .traceRefused {} e [] .exitScope
  exact ⟨hcall.2 ⟨rfl, rfl⟩, rfl, htells, fun h => hagrees.1 h rfl⟩

end StackMachine
