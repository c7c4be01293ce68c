import Mathlib.Data.Finset.Card
import Mathlib.Data.List.Dedup
import StackMachine.Proofs.Listing.Calls

/-!
# Mentions of labels

A line mentions the labels that it defines and the label that its instruction names. The reader has
an entry for each label that was mentioned, in the order in which they were mentioned first, with
the place of that mention (`seen_lines`).
-/

namespace StackMachine.Listing

/-- A label by its name, and where the name stands. -/
structure Mention where
  name : String
  span : Span
deriving DecidableEq

/-- What the operand of an opcode mentions: a word in the place of an address. -/
def operandMentions (op : Opcode) : List Lexeme → List Mention
  | ⟨.word name, span⟩ :: _ => if op.shape = .u64 then [⟨name, span⟩] else []
  | _ => []

/-- What a line mentions: the labels that it defines, and then the label that is the operand of its
instruction. -/
def lineMentions : List Lexeme → List Mention
  | ⟨.labelDef name, span⟩ :: rest => ⟨name, span⟩ :: lineMentions rest
  | ⟨.word mnemonic, _⟩ :: rest =>
    ((Opcode.ofMnemonic? mnemonic).map (operandMentions · rest)).getD []
  | _ => []

/-- What a listing mentions, line after line. -/
def mentions (lexemes : List Lexeme) : List Mention := (linesOf lexemes).flatMap lineMentions

/-- A label is defined on some line. -/
def Defines (lexemes : List Lexeme) (name : String) : Prop :=
  ∃ span, ⟨.labelDef name, span⟩ ∈ lexemes

/-! ## First mentions -/

/-- The first mentions, after one more mention. -/
def noteMention (known : List Mention) (m : Mention) : List Mention :=
  if m.name ∈ known.map Mention.name then known else known ++ [m]

/-- Of each label its first mention, in their order. -/
def firstMentions (ms : List Mention) : List Mention := ms.foldl noteMention []

variable {known before after ms : List Mention} {m : Mention} {name : String} {span : Span}

theorem prefix_foldl_noteMention (known ms : List Mention) :
    known <+: ms.foldl noteMention known := by
  induction ms generalizing known with
  | nil => exact List.prefix_refl known
  | cons m ms ih =>
    refine List.IsPrefix.trans ?_ (ih (noteMention known m))
    unfold noteMention
    split
    · exact List.prefix_refl known
    · exact List.prefix_append known [m]

theorem map_name_noteMention (known : List Mention) (m : Mention) :
    (noteMention known m).map Mention.name = noted (known.map Mention.name) m.name := by
  unfold noteMention noted
  split <;> simp

theorem mem_map_name_foldl {x : String} :
    x ∈ (ms.foldl noteMention known).map Mention.name ↔
      x ∈ known.map Mention.name ∨ x ∈ ms.map Mention.name := by
  induction ms generalizing known with
  | nil => simp
  | cons m ms ih =>
    rw [List.foldl_cons, ih, map_name_noteMention, mem_noted, List.map_cons, List.mem_cons,
      or_assoc]

theorem nodup_map_name_foldl (h : (known.map Mention.name).Nodup) (ms : List Mention) :
    ((ms.foldl noteMention known).map Mention.name).Nodup := by
  induction ms generalizing known with
  | nil => exact h
  | cons m ms ih =>
    refine ih ?_
    unfold noteMention
    split
    · exact h
    · next hname => simpa using h.concat hname

theorem mem_map_name_firstMentions {x : String} :
    x ∈ (firstMentions ms).map Mention.name ↔ x ∈ ms.map Mention.name := by
  rw [firstMentions, mem_map_name_foldl]
  simp

/-- There are as many first mentions as different names. -/
theorem length_firstMentions (ms : List Mention) :
    (firstMentions ms).length = (ms.map Mention.name).toFinset.card := by
  have hnone : (([] : List Mention).map Mention.name).Nodup := List.nodup_nil
  have hnodup : ((firstMentions ms).map Mention.name).Nodup := nodup_map_name_foldl hnone ms
  rw [← List.length_map Mention.name, ← List.toFinset_card_of_nodup hnodup]
  congr 1
  ext x
  rw [List.mem_toFinset, List.mem_toFinset, mem_map_name_firstMentions]

/-- A name that was not mentioned before is mentioned first here. -/
theorem firstMentions_append_cons (hm : m.name ∉ before.map Mention.name) (after : List Mention) :
    ∃ more, firstMentions (before ++ m :: after) = firstMentions before ++ m :: more := by
  have hnew : m.name ∉ (firstMentions before).map Mention.name := by
    rwa [mem_map_name_firstMentions]
  obtain ⟨more, hmore⟩ := prefix_foldl_noteMention (firstMentions before ++ [m]) after
  refine ⟨more, ?_⟩
  rw [firstMentions, List.foldl_append, List.foldl_cons]
  change List.foldl noteMention (noteMention (firstMentions before) m) after = _
  rw [noteMention, if_neg hnew, ← hmore, List.append_assoc, List.singleton_append]

/-! ## What a line mentions -/

/-- The label that a statement names. -/
def Statement.mention? (s : Statement) : Option Mention :=
  match s.operand with
  | .target name span => some ⟨name, span⟩
  | _ => none

theorem mention?_of_readOperand {op : Opcode} {mnemonic : Span} {lexemes rest : List Lexeme}
    {operand : Operand} (h : readOperand op mnemonic lexemes = .ok (operand, rest)) :
    (Statement.mention? ⟨op, operand⟩).toList = operandMentions op lexemes := by
  unfold readOperand at h
  split at h
  · next hshape =>
    obtain ⟨rfl, rfl⟩ := Prod.mk.inj (Except.ok.inj h)
    unfold operandMentions
    rw [hshape]
    split <;> rfl
  · split at h
    · contradiction
    · next token span later =>
      split at h
      · next text hshape =>
        obtain ⟨rfl, rfl⟩ := Prod.mk.inj (Except.ok.inj h)
        rfl
      · next word hshape =>
        obtain ⟨x, hx, hrest⟩ := exists_of_bind_ok h
        obtain ⟨rfl, rfl⟩ := Prod.mk.inj (Except.ok.inj hrest)
        simp [operandMentions, hshape, Statement.mention?]
      · next hshape =>
        split at h
        · next word wordSpan last =>
          obtain ⟨x, hx, hrest⟩ := exists_of_bind_ok h
          obtain ⟨rfl, rfl⟩ := Prod.mk.inj (Except.ok.inj hrest)
          rfl
        · contradiction
      · next s hshape =>
        obtain ⟨rfl, rfl⟩ := Prod.mk.inj (Except.ok.inj h)
        rfl
      · next name hshape =>
        obtain ⟨rfl, rfl⟩ := Prod.mk.inj (Except.ok.inj h)
        simp [operandMentions, hshape, Statement.mention?]
      -- The four integer shapes are read alike.
      iterate 4
        · next text hshape =>
          split at h
          · next imm himm =>
            obtain ⟨rfl, rfl⟩ := Prod.mk.inj (Except.ok.inj h)
            rfl
          · contradiction
      · contradiction

/-- **What a line mentions** is what the reader mentions when it reads the line. -/
theorem lineMentions_eq {lexemes : List Lexeme} {s : Option Statement}
    (h : readStatement? (leadingLabels lexemes).2 = .ok s) :
    lineMentions lexemes = (leadingLabels lexemes).1.map (fun label => ⟨label.1, label.2⟩) ++
      (s.bind Statement.mention?).toList := by
  induction lexemes with
  | nil =>
    obtain rfl := Except.ok.inj h
    rfl
  | cons lexeme lexemes ih =>
    obtain ⟨token, span⟩ := lexeme
    cases token with
    | labelDef name =>
      rw [lineMentions, ih h]
      rfl
    | word word =>
      have h' : readStatement? (⟨.word word, span⟩ :: lexemes) = .ok s := h
      rw [readStatement?] at h'
      split at h'
      · contradiction
      · next op hop =>
        obtain ⟨⟨operand, left⟩, hoperand, hleft⟩ := exists_of_bind_ok h'
        cases left with
        | cons extra _ => contradiction
        | nil =>
          obtain rfl := Except.ok.inj hleft
          rw [lineMentions, hop]
          exact (mention?_of_readOperand hoperand).symm
    | number text | text s | minus | newline => contradiction

theorem mem_of_mem_lineMentions {lexemes : List Lexeme} (h : m ∈ lineMentions lexemes) :
    ⟨.labelDef m.name, m.span⟩ ∈ lexemes ∨ ⟨.word m.name, m.span⟩ ∈ lexemes := by
  fun_induction lineMentions lexemes with
  | case1 name span rest ih =>
    rcases List.mem_cons.1 h with rfl | h
    · exact .inl List.mem_cons_self
    · exact (ih h).imp (List.mem_cons_of_mem _) (List.mem_cons_of_mem _)
  | case2 mnemonic span rest =>
    cases hop : Opcode.ofMnemonic? mnemonic with
    | none => simp [hop] at h
    | some op =>
      rw [hop] at h
      change m ∈ operandMentions op rest at h
      unfold operandMentions at h
      split at h
      · next name span later =>
        split at h
        · obtain rfl := List.mem_singleton.1 h
          exact .inr (List.mem_cons_of_mem _ List.mem_cons_self)
        · contradiction
      · contradiction
  | case3 => contradiction

/-! ## What the reader knows -/

namespace Reader

/-- The first mentions that the reader knows of. -/
def seen (r : Reader) : List Mention := r.labels.map fun e => ⟨e.name, e.firstUse⟩

variable {r s : Reader}

theorem entry?_eq_none_iff : r.entry? name = none ↔ name ∉ r.seen.map Mention.name := by
  simp [seen, entry?]

theorem seen_mention (r : Reader) (name : String) (span : Span) :
    (r.mention name span).2.seen = noteMention r.seen ⟨name, span⟩ := by
  unfold mention noteMention
  cases hentry : r.entry? name with
  | some e =>
    have hname : name ∈ r.seen.map Mention.name := by
      by_contra hname
      rw [entry?_eq_none_iff.2 hname] at hentry
      contradiction
    rw [if_pos hname]
  | none =>
    rw [if_neg (entry?_eq_none_iff.1 hentry)]
    simp [seen]

theorem seen_define (h : r.define name span = .ok s) :
    s.seen = noteMention r.seen ⟨name, span⟩ := by
  unfold define at h
  split at h
  · contradiction
  · obtain ⟨assembly, -, h⟩ := exists_of_bind_ok h
    obtain rfl := Except.ok.inj h
    rw [← seen_mention]
    simp only [seen, markDefined, List.map_map]
    refine List.map_congr_left fun e _ => ?_
    rw [Function.comp_apply]
    split <;> rfl

theorem seen_emit {statement : Statement} (h : r.emit statement span = .ok s) :
    s.seen = statement.mention?.toList.foldl noteMention r.seen := by
  obtain ⟨op, operand⟩ := statement
  cases operand with
  | none | immediate =>
    obtain ⟨assembly, -, h⟩ := exists_of_bind_ok h
    obtain rfl := Except.ok.inj h
    rfl
  | target name nameSpan =>
    obtain ⟨assembly, -, h⟩ := exists_of_bind_ok h
    obtain rfl := Except.ok.inj h
    exact seen_mention r name nameSpan

theorem seen_labels {labels : List (String × Span)}
    (h : labels.foldlM (fun r (name, span) => r.define name span) r = .ok s) :
    s.seen = (labels.map fun label => Mention.mk label.1 label.2).foldl noteMention r.seen := by
  induction labels generalizing r with
  | nil =>
    obtain rfl := Except.ok.inj h
    rfl
  | cons label labels ih =>
    rw [List.foldlM_cons] at h
    obtain ⟨t, ht, h⟩ := exists_of_bind_ok h
    rw [ih h, seen_define ht]
    rfl

theorem seen_line {lexemes : List Lexeme} (h : r.line lexemes = .ok s) :
    s.seen = (lineMentions lexemes).foldl noteMention r.seen := by
  unfold line at h
  obtain ⟨t, hlabels, h⟩ := exists_of_bind_ok h
  split at h
  · contradiction
  · next hstatement =>
    obtain rfl := Except.ok.inj h
    rw [lineMentions_eq hstatement, seen_labels hlabels]
    simp
  · next statement hstatement =>
    rw [lineMentions_eq hstatement, seen_emit h, seen_labels hlabels, ← List.foldl_append]
    rfl

/-- **After the lines of a listing** the reader knows all labels by their first mentions. -/
theorem seen_lines {lexemes : List Lexeme} (h : (linesOf lexemes).foldlM line {} = .ok r) :
    r.seen = firstMentions (mentions lexemes) := by
  unfold mentions firstMentions
  change r.seen = List.foldl noteMention ({} : Reader).seen _
  generalize linesOf lexemes = lines, ({} : Reader) = start at h ⊢
  induction lines generalizing start with
  | nil =>
    obtain rfl := Except.ok.inj h
    rfl
  | cons line lines ih =>
    rw [List.foldlM_cons] at h
    obtain ⟨t, ht, h⟩ := exists_of_bind_ok h
    rw [List.flatMap_cons, List.foldl_append, ← seen_line ht]
    exact ih t h

end Reader
end StackMachine.Listing
