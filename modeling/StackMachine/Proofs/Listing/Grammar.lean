import StackMachine.Listing.Reader
import StackMachine.Proofs.Prelude

/-!
# The grammar of listings

What the tokens of a listing spell: calls of the assembler in which labels go by their names. A
line is any number of label definitions and after them perhaps one instruction, a mnemonic with
exactly the operand that its shape asks for. A line is read without an error exactly when the
grammar has it, and it is read as the calls that it spells (`spellsLine_iff`).
-/

namespace StackMachine.Listing

/-! ## Calls -/

/-- A call of the assembler that a listing spells. -/
inductive Call where
  | define (name : String)
  | emit (op : Opcode)
  | emitWith (op : Opcode) (imm : Immediate)
  | jump (op : Opcode) (name : String)
deriving DecidableEq

/-- The call that a statement asks for. -/
def Statement.call (s : Statement) : Call :=
  match s.operand with
  | .none => .emit s.opcode
  | .immediate imm => .emitWith s.opcode imm
  | .target name _ => .jump s.opcode name

/-! ## What tokens spell -/

/-- A word is a mnemonic up to ASCII case. -/
def SpellsMnemonic (word : String) (op : Opcode) : Prop :=
  word.toList.map Char.toUpper = op.mnemonic.toList

/-- A numeral is decimal digits only and stands for a natural number. -/
def SpellsNatural (text : String) (n : Nat) : Prop :=
  (∀ c ∈ text.toList, c.isDigit) ∧ Number.digitsValue text.toList = n

/-- The words that are numbers. -/
inductive SpellsNumber : String → Number → Prop where
  | infinity : SpellsNumber "inf" .infinity
  | nan : SpellsNumber "nan" .nan
  | mixedNaN : SpellsNumber "NaN" .nan

/-- What tokens spell as the operand of an opcode. A numeral fits the width of an integer shape when
it stands for an integer of that width. -/
inductive SpellsOperand (op : Opcode) : List Token → Call → Prop where
  | none (hshape : op.shape = .none) : SpellsOperand op [] (.emit op)
  | u8 {text : String} {n : UInt8} (hshape : op.shape = .u8) (h : SpellsNatural text n.toNat) :
    SpellsOperand op [.number text] (.emitWith op (.u8 n))
  | u16 {text : String} {n : UInt16} (hshape : op.shape = .u16)
    (h : SpellsNatural text n.toNat) : SpellsOperand op [.number text] (.emitWith op (.u16 n))
  | u32 {text : String} {n : UInt32} (hshape : op.shape = .u32)
    (h : SpellsNatural text n.toNat) : SpellsOperand op [.number text] (.emitWith op (.u32 n))
  | u64 {text : String} {n : UInt64} (hshape : op.shape = .u64)
    (h : SpellsNatural text n.toNat) : SpellsOperand op [.number text] (.emitWith op (.u64 n))
  | label {name : String} (hshape : op.shape = .u64) :
    SpellsOperand op [.word name] (.jump op name)
  | numeral {text : String} (hshape : op.shape = .f64) :
    SpellsOperand op [.number text] (.emitWith op (.f64 (Number.ofNumeral text.toList)))
  | number {word : String} {x : Number} (hshape : op.shape = .f64) (h : SpellsNumber word x) :
    SpellsOperand op [.word word] (.emitWith op (.f64 x))
  | minus {word : String} {x : Number} (hshape : op.shape = .f64) (h : SpellsNumber word x) :
    SpellsOperand op [.minus, .word word] (.emitWith op (.f64 x.neg))
  | text {s : String} (hshape : op.shape = .string) :
    SpellsOperand op [.text s] (.emitWith op (.text s))

/-- What the tokens of a line spell. -/
inductive SpellsLine : List Token → List Call → Prop where
  | blank : SpellsLine [] []
  | instruction {word : String} {op : Opcode} {operand : List Token} {call : Call}
    (hword : SpellsMnemonic word op) (hoperand : SpellsOperand op operand call) :
    SpellsLine (.word word :: operand) [call]
  | label {name : String} {rest : List Token} {calls : List Call} (hrest : SpellsLine rest calls) :
    SpellsLine (.labelDef name :: rest) (.define name :: calls)

/-- What the tokens of a listing spell, line after line. -/
def Spells (tokens : List Token) (calls : List Call) : Prop :=
  ∃ lines, List.Forall₂ SpellsLine (tokens.splitOn .newline) lines ∧ calls = lines.flatten

/-! ## Mnemonics and numerals -/

theorem ofMnemonic?_eq_some_iff {word : String} {op : Opcode} :
    Opcode.ofMnemonic? word = some op ↔ SpellsMnemonic word op := by
  constructor
  · intro h
    have hfound : op.mnemonic = String.ofList (word.toList.map Char.toUpper) := by
      simpa using List.find?_some h
    rw [SpellsMnemonic, hfound, String.toList_ofList]
  · intro h
    rw [Opcode.ofMnemonic?, h, String.ofList_toList]
    -- No two opcodes share a mnemonic.
    cases op <;> rfl

theorem natural?_eq_some_iff {text : String} {bound n : Nat} :
    natural? text bound = some n ↔ SpellsNatural text n ∧ n < bound := by
  unfold natural? SpellsNatural
  simp only [List.all_eq_true]
  split
  · next hdigits =>
    split
    · next hlt =>
      constructor
      · intro h
        obtain rfl := Option.some.inj h
        exact ⟨⟨hdigits, rfl⟩, hlt⟩
      · rintro ⟨⟨-, rfl⟩, -⟩
        rfl
    · next hge =>
      constructor
      · intro h
        contradiction
      · rintro ⟨⟨-, rfl⟩, hlt⟩
        exact absurd hlt hge
  · next hdigits =>
    constructor
    · intro h
      contradiction
    · rintro ⟨⟨h, -⟩, -⟩
      exact absurd h hdigits

theorem numberWord?_eq_some_iff {word : String} {x : Number} :
    numberWord? word = some x ↔ SpellsNumber word x := by
  constructor
  · intro h
    unfold numberWord? at h
    split at h
    · next hinf =>
      subst hinf
      obtain rfl := Option.some.inj h
      exact .infinity
    · split at h
      · next hnan =>
        obtain rfl := Option.some.inj h
        rcases hnan with rfl | rfl
        · exact .nan
        · exact .mixedNaN
      · contradiction
  · rintro ⟨⟩ <;> rfl

private theorem exists_of_map_natural? {text : String} {bound : Nat} {f : Nat → Immediate}
    {imm : Immediate} (h : (natural? text bound).map f = some imm) :
    ∃ n, SpellsNatural text n ∧ n < bound ∧ f n = imm := by
  obtain ⟨n, hn, hf⟩ := Option.map_eq_some_iff.1 h
  obtain ⟨hspells, hlt⟩ := natural?_eq_some_iff.1 hn
  exact ⟨n, hspells, hlt, hf⟩

/-- The immediate of an integer shape stands for the numeral that it is read from. -/
theorem spellsOperand_of_integer? {op : Opcode} {text : String} {imm : Immediate}
    (h : integer? op.shape text = some imm) :
    SpellsOperand op [.number text] (.emitWith op imm) := by
  unfold integer? at h
  split at h
  · next hshape =>
    obtain ⟨n, hspells, hlt, rfl⟩ := exists_of_map_natural? h
    exact .u8 hshape (by rwa [UInt8.toNat_ofNat', Nat.mod_eq_of_lt hlt])
  · next hshape =>
    obtain ⟨n, hspells, hlt, rfl⟩ := exists_of_map_natural? h
    exact .u16 hshape (by rwa [UInt16.toNat_ofNat', Nat.mod_eq_of_lt hlt])
  · next hshape =>
    obtain ⟨n, hspells, hlt, rfl⟩ := exists_of_map_natural? h
    exact .u32 hshape (by rwa [UInt32.toNat_ofNat', Nat.mod_eq_of_lt hlt])
  · next hshape =>
    obtain ⟨n, hspells, hlt, rfl⟩ := exists_of_map_natural? h
    exact .u64 hshape (by rwa [UInt64.toNat_ofNat', Nat.mod_eq_of_lt hlt])
  · contradiction

/-! ## Operands -/

private theorem numberWord_eq_ok {word : String} {span : Span} {x : Number}
    (h : numberWord word span = .ok x) : SpellsNumber word x := by
  unfold numberWord at h
  split at h
  · next y hy =>
    obtain rfl := Except.ok.inj h
    exact numberWord?_eq_some_iff.1 hy
  · contradiction

/-- **What is read as an operand** is spelled by the lexemes that it takes. -/
theorem spellsOperand_of_readOperand {op : Opcode} {mnemonic : Span} {lexemes rest : List Lexeme}
    {operand : Operand} (h : readOperand op mnemonic lexemes = .ok (operand, rest)) :
    ∃ taken, lexemes = taken ++ rest ∧
      SpellsOperand op (taken.map Lexeme.token) (Statement.call ⟨op, operand⟩) := by
  unfold readOperand at h
  split at h
  · next hshape =>
    obtain ⟨rfl, rfl⟩ := Prod.mk.inj (Except.ok.inj h)
    exact ⟨[], rfl, .none hshape⟩
  · split at h
    · contradiction
    · next token span later =>
      split at h
      · next text hshape =>
        obtain ⟨rfl, rfl⟩ := Prod.mk.inj (Except.ok.inj h)
        exact ⟨[_], rfl, .numeral hshape⟩
      · next word hshape =>
        obtain ⟨x, hx, hrest⟩ := exists_of_bind_ok h
        obtain ⟨rfl, rfl⟩ := Prod.mk.inj (Except.ok.inj hrest)
        exact ⟨[_], rfl, .number hshape (numberWord_eq_ok hx)⟩
      · next hshape =>
        split at h
        · next word wordSpan last =>
          obtain ⟨x, hx, hrest⟩ := exists_of_bind_ok h
          obtain ⟨rfl, rfl⟩ := Prod.mk.inj (Except.ok.inj hrest)
          exact ⟨[_, _], rfl, .minus hshape (numberWord_eq_ok hx)⟩
        · contradiction
      · next s hshape =>
        obtain ⟨rfl, rfl⟩ := Prod.mk.inj (Except.ok.inj h)
        exact ⟨[_], rfl, .text hshape⟩
      · next name hshape =>
        obtain ⟨rfl, rfl⟩ := Prod.mk.inj (Except.ok.inj h)
        exact ⟨[_], rfl, .label hshape⟩
      -- The four integer shapes are read alike.
      iterate 4
        · next text hshape =>
          split at h
          · next imm himm =>
            obtain ⟨rfl, rfl⟩ := Prod.mk.inj (Except.ok.inj h)
            exact ⟨[_], rfl, spellsOperand_of_integer? himm⟩
          · contradiction
      · contradiction

private theorem exists_of_map_token {lexemes : List Lexeme} {t : Token} {ts : List Token}
    (h : lexemes.map Lexeme.token = t :: ts) :
    ∃ span rest, lexemes = ⟨t, span⟩ :: rest ∧ rest.map Lexeme.token = ts := by
  obtain ⟨⟨token, span⟩, rest, rfl, rfl, hrest⟩ := List.map_eq_cons_iff.1 h
  exact ⟨span, rest, rfl, hrest⟩

/-- A numeral of an integer shape is read as the immediate that it stands for. -/
private theorem readOperand_of_integer? {op : Opcode} (mnemonic : Span) {lexemes : List Lexeme}
    {text : String} {imm : Immediate} (hlexemes : lexemes.map Lexeme.token = [.number text])
    (himm : integer? op.shape text = some imm) :
    ∃ operand, readOperand op mnemonic lexemes = .ok (operand, []) ∧
      Statement.call ⟨op, operand⟩ = .emitWith op imm := by
  obtain ⟨span, rest, rfl, hrest⟩ := exists_of_map_token hlexemes
  obtain rfl := List.map_eq_nil_iff.1 hrest
  refine ⟨.immediate imm, ?_, rfl⟩
  cases hshape : op.shape with
  | u8 | u16 | u32 | u64 =>
    rw [hshape] at himm
    simp [readOperand, hshape, himm]
  | none | f64 | string =>
    rw [hshape] at himm
    simp [integer?] at himm

/-- **What spells an operand** is read as one, with nothing left. -/
theorem readOperand_of_spellsOperand {op : Opcode} (mnemonic : Span) {lexemes : List Lexeme}
    {call : Call} (h : SpellsOperand op (lexemes.map Lexeme.token) call) :
    ∃ operand, readOperand op mnemonic lexemes = .ok (operand, []) ∧
      Statement.call ⟨op, operand⟩ = call := by
  generalize htokens : lexemes.map Lexeme.token = tokens at h
  cases h with
  | none hshape =>
    obtain rfl := List.map_eq_nil_iff.1 htokens
    exact ⟨.none, if_pos hshape, rfl⟩
  | u8 hshape h =>
    refine readOperand_of_integer? mnemonic htokens ?_
    rw [hshape, integer?, natural?_eq_some_iff.2 ⟨h, UInt8.toNat_lt _⟩]
    simp
  | u16 hshape h =>
    refine readOperand_of_integer? mnemonic htokens ?_
    rw [hshape, integer?, natural?_eq_some_iff.2 ⟨h, UInt16.toNat_lt _⟩]
    simp
  | u32 hshape h =>
    refine readOperand_of_integer? mnemonic htokens ?_
    rw [hshape, integer?, natural?_eq_some_iff.2 ⟨h, UInt32.toNat_lt _⟩]
    simp
  | u64 hshape h =>
    refine readOperand_of_integer? mnemonic htokens ?_
    rw [hshape, integer?, natural?_eq_some_iff.2 ⟨h, UInt64.toNat_lt _⟩]
    simp
  | label hshape =>
    obtain ⟨span, rest, rfl, hrest⟩ := exists_of_map_token htokens
    obtain rfl := List.map_eq_nil_iff.1 hrest
    refine ⟨.target _ span, ?_, rfl⟩
    simp [readOperand, hshape]
  | numeral hshape =>
    obtain ⟨span, rest, rfl, hrest⟩ := exists_of_map_token htokens
    obtain rfl := List.map_eq_nil_iff.1 hrest
    refine ⟨.immediate _, ?_, rfl⟩
    simp [readOperand, hshape]
  | number hshape h =>
    obtain ⟨span, rest, rfl, hrest⟩ := exists_of_map_token htokens
    obtain rfl := List.map_eq_nil_iff.1 hrest
    refine ⟨.immediate _, ?_, rfl⟩
    simp [readOperand, hshape, numberWord, numberWord?_eq_some_iff.2 h]
  | minus hshape h =>
    obtain ⟨span, rest, rfl, hrest⟩ := exists_of_map_token htokens
    obtain ⟨wordSpan, last, rfl, hlast⟩ := exists_of_map_token hrest
    obtain rfl := List.map_eq_nil_iff.1 hlast
    refine ⟨.immediate _, ?_, rfl⟩
    simp [readOperand, hshape, numberWord, numberWord?_eq_some_iff.2 h]
  | text hshape =>
    obtain ⟨span, rest, rfl, hrest⟩ := exists_of_map_token htokens
    obtain rfl := List.map_eq_nil_iff.1 hrest
    refine ⟨.immediate _, ?_, rfl⟩
    simp [readOperand, hshape]

/-! ## Lines -/

/-- A statement that is read is spelled by all of its lexemes. -/
theorem spellsLine_of_readStatement? {lexemes : List Lexeme} {s : Option Statement}
    (h : readStatement? lexemes = .ok s) :
    SpellsLine (lexemes.map Lexeme.token) (s.map Statement.call).toList := by
  unfold readStatement? at h
  split at h
  · obtain rfl := Except.ok.inj h
    exact .blank
  · next word span rest =>
    split at h
    · contradiction
    · next op hop =>
      obtain ⟨⟨operand, left⟩, hoperand, hleft⟩ := exists_of_bind_ok h
      -- Nothing may be left over after the operand.
      cases left with
      | cons extra _ => contradiction
      | nil =>
        obtain rfl := Except.ok.inj hleft
        obtain ⟨taken, htaken, hspells⟩ := spellsOperand_of_readOperand hoperand
        rw [List.append_nil] at htaken
        subst htaken
        exact .instruction (ofMnemonic?_eq_some_iff.1 hop) hspells
  · contradiction

/-- Reading a line finds exactly what the line spells: the labels that it begins with, and a
statement or nothing. -/
theorem spellsLine_iff {lexemes : List Lexeme} {calls : List Call} :
    SpellsLine (lexemes.map Lexeme.token) calls ↔
      ∃ s, readStatement? (leadingLabels lexemes).2 = .ok s ∧
        calls = (leadingLabels lexemes).1.map (fun label => .define label.1) ++
          (s.map Statement.call).toList := by
  induction lexemes generalizing calls with
  | nil =>
    constructor
    · rintro ⟨⟩
      exact ⟨none, rfl, rfl⟩
    · rintro ⟨s, hs, rfl⟩
      exact spellsLine_of_readStatement? hs
  | cons lexeme lexemes ih =>
    obtain ⟨token, span⟩ := lexeme
    cases token with
    | labelDef name =>
      constructor
      · rintro ⟨⟩
        next rest hrest =>
        obtain ⟨s, hs, rfl⟩ := ih.1 hrest
        exact ⟨s, hs, rfl⟩
      · rintro ⟨s, hs, rfl⟩
        exact .label (ih.2 ⟨s, hs, rfl⟩)
    | word word =>
      constructor
      · rintro ⟨⟩
        next op call hword hoperand =>
        obtain ⟨operand, hread, rfl⟩ := readOperand_of_spellsOperand span hoperand
        refine ⟨some ⟨op, operand⟩, ?_, rfl⟩
        show readStatement? (⟨.word word, span⟩ :: lexemes) = _
        rw [readStatement?, ofMnemonic?_eq_some_iff.2 hword]
        dsimp only
        rw [hread]
        rfl
      · rintro ⟨s, hs, rfl⟩
        exact spellsLine_of_readStatement? hs
    | number text | text s | minus | newline =>
      constructor
      · rintro ⟨⟩
      · rintro ⟨s, hs, rfl⟩
        exact spellsLine_of_readStatement? hs

/-- A line spells one thing at most. -/
theorem SpellsLine.unique {tokens : List Token} {calls others : List Call}
    (h : SpellsLine tokens calls) (hother : SpellsLine tokens others) : calls = others := by
  -- Some lexemes have these tokens, and reading them gives one result.
  have htokens : (tokens.map fun t => Lexeme.mk t {}).map Lexeme.token = tokens := by
    rw [List.map_map]
    exact List.map_id tokens
  rw [← htokens, spellsLine_iff] at h hother
  obtain ⟨s, hs, rfl⟩ := h
  obtain ⟨t, ht, rfl⟩ := hother
  obtain rfl := Except.ok.inj (hs.symm.trans ht)
  rfl

/-! ## Listings -/

/-- A listing spells one sequence of calls at most. -/
theorem Spells.unique {tokens : List Token} {calls others : List Call}
    (h : Spells tokens calls) (hother : Spells tokens others) : calls = others := by
  obtain ⟨parts, hparts, rfl⟩ := h
  obtain ⟨otherParts, hotherParts, rfl⟩ := hother
  have hline : Relator.RightUnique SpellsLine := fun _ _ _ => SpellsLine.unique
  rw [List.right_unique_forall₂' hline hparts hotherParts]

/-- The tokens of the lines are the tokens split at newlines. -/
theorem map_linesOf (lexemes : List Lexeme) :
    (linesOf lexemes).map (List.map Lexeme.token) =
      (lexemes.map Lexeme.token).splitOn .newline := by
  induction lexemes with
  | nil => rfl
  | cons lexeme lexemes ih =>
    rw [linesOf, List.map_cons, List.splitOn, List.splitOnP_cons_eq_if_modifyHead]
    rw [List.splitOn] at ih
    by_cases hline : lexeme.token = .newline
    · rw [if_pos hline, if_pos (by simpa using hline), ← ih]
      rfl
    · rw [if_neg hline, if_neg (by simpa using hline), ← ih]
      cases hlines : linesOf lexemes with
      | nil =>
        rw [hlines] at ih
        exact absurd ih.symm (List.splitOnP_ne_nil _ _)
      | cons line lines => rfl

/-! ## Shapes -/

/-- The operand of a call has the shape that its opcode asks for. -/
def Call.WellShaped : Call → Prop
  | .define _ => True
  | .emit op => op.shape = .none
  | .emitWith op imm => imm.shape = op.shape
  | .jump op _ => op.shape = .u64

theorem SpellsOperand.wellShaped {op : Opcode} {tokens : List Token} {call : Call}
    (h : SpellsOperand op tokens call) : call.WellShaped := by
  cases h with
  | none hshape | label hshape => exact hshape
  | u8 hshape | u16 hshape | u32 hshape | u64 hshape | numeral hshape | number hshape
  | minus hshape | text hshape => exact hshape.symm

theorem SpellsLine.wellShaped {tokens : List Token} {calls : List Call}
    (h : SpellsLine tokens calls) : ∀ call ∈ calls, call.WellShaped := by
  induction h with
  | blank => simp
  | instruction hword hoperand => simpa using hoperand.wellShaped
  | label hrest ih => simpa using ⟨trivial, ih⟩

theorem wellShaped_of_forall₂ {lines : List (List Token)} {parts : List (List Call)}
    (h : List.Forall₂ SpellsLine lines parts) : ∀ call ∈ parts.flatten, call.WellShaped := by
  induction h with
  | nil => simp
  | cons hline hlines ih =>
    intro call hcall
    rcases List.mem_append.1 hcall with hcall | hcall
    · exact hline.wellShaped call hcall
    · exact ih call hcall

/-- Every call that a listing spells has an operand of the right shape. -/
theorem Spells.wellShaped {tokens : List Token} {calls : List Call} (h : Spells tokens calls) :
    ∀ call ∈ calls, call.WellShaped := by
  obtain ⟨parts, hparts, rfl⟩ := h
  exact wellShaped_of_forall₂ hparts

/-! ## Texts -/

/-- The text that a call puts into the pool. -/
def Call.text? : Call → Option String
  | .emitWith _ (.text s) => some s
  | _ => none

/-- The texts that calls put into the pool, in their order. -/
def textsIn (calls : List Call) : List String := calls.filterMap Call.text?

theorem textsIn_cons (call : Call) (calls : List Call) :
    textsIn (call :: calls) = call.text?.toList ++ textsIn calls := by
  unfold textsIn
  cases htext : call.text? with
  | none => rw [List.filterMap_cons_none htext]; rfl
  | some s => rw [List.filterMap_cons_some htext]; rfl

theorem SpellsOperand.length_text?_le {op : Opcode} {tokens : List Token} {call : Call}
    (h : SpellsOperand op tokens call) : call.text?.toList.length ≤ tokens.length := by
  cases h <;> simp [Call.text?]

theorem SpellsLine.length_textsIn_le {tokens : List Token} {calls : List Call}
    (h : SpellsLine tokens calls) : (textsIn calls).length ≤ tokens.length := by
  induction h with
  | blank => exact Nat.le_refl _
  | instruction hword hoperand =>
    rw [textsIn_cons, List.length_append, List.length_cons]
    exact Nat.le_succ_of_le hoperand.length_text?_le
  | label hrest ih => exact Nat.le_succ_of_le ih

/-- The texts of lines are no more than their tokens. -/
theorem length_textsIn_flatten_le {lines : List (List Token)} {parts : List (List Call)}
    (h : List.Forall₂ SpellsLine lines parts) :
    (textsIn parts.flatten).length ≤ lines.flatten.length := by
  induction h with
  | nil => exact Nat.le_refl _
  | cons hline hlines ih =>
    rw [List.flatten_cons, List.flatten_cons, textsIn, List.filterMap_append, List.length_append,
      List.length_append]
    exact Nat.add_le_add hline.length_textsIn_le ih

/-- Splitting adds nothing. -/
private theorem length_flatten_splitOn_le (tokens : List Token) :
    (tokens.splitOn .newline).flatten.length ≤ tokens.length := by
  induction tokens with
  | nil => exact Nat.le_refl _
  | cons token tokens ih =>
    rw [List.splitOn, List.splitOnP_cons_eq_if_modifyHead, List.length_cons]
    rw [List.splitOn] at ih
    split
    · exact Nat.le_succ_of_le ih
    · cases hlines : tokens.splitOnP (· == .newline) with
      | nil => exact absurd hlines (List.splitOnP_ne_nil _ _)
      | cons line lines =>
        rw [hlines] at ih
        exact Nat.succ_le_succ ih

/-- Every text is a token. -/
theorem Spells.length_textsIn_le {tokens : List Token} {calls : List Call}
    (h : Spells tokens calls) : (textsIn calls).length ≤ tokens.length := by
  obtain ⟨parts, hparts, rfl⟩ := h
  exact (length_textsIn_flatten_le hparts).trans (length_flatten_splitOn_le tokens)

/-- Every token takes a character at least. -/
private theorem length_le_of_lexFrom {offset : Nat} {cs : List Char} {lexemes : List Lexeme}
    (h : lexFrom offset cs = .ok lexemes) : lexemes.length ≤ cs.length := by
  induction offset, cs using lexFrom.induct generalizing lexemes with
  | case1 offset =>
    rw [lexFrom] at h
    obtain rfl := Except.ok.inj h
    exact Nat.le_refl _
  | case2 offset c cs taken span hlt hpiece =>
    rename_i ih
    rw [lexFrom] at h
    simp only [hpiece] at h
    exact Nat.le_trans (ih h) (Nat.le_of_lt hlt)
  | case3 offset c cs taken span hlt t hpiece =>
    rename_i ih
    rw [lexFrom] at h
    simp only [hpiece] at h
    obtain ⟨later, hlater, rfl⟩ := exists_of_map_ok h
    exact Nat.lt_of_le_of_lt (ih hlater) hlt
  | case4 offset c cs hlt hpiece =>
    rw [lexFrom] at h
    simp only [hpiece] at h
    contradiction

theorem length_le_of_lex {source : String} {lexemes : List Lexeme}
    (h : lex source = .ok lexemes) : lexemes.length ≤ source.length := by
  rw [← String.length_toList]
  exact length_le_of_lexFrom h

/-- A source has a character at least for each text that it puts into the pool. -/
theorem Spells.length_textsIn_le_of_lex {source : String} {lexemes : List Lexeme}
    {calls : List Call} (h : Spells (lexemes.map Lexeme.token) calls)
    (hlex : lex source = .ok lexemes) : (textsIn calls).length ≤ source.length := by
  have htokens := h.length_textsIn_le
  rw [List.length_map] at htokens
  exact htokens.trans (length_le_of_lex hlex)

end StackMachine.Listing
