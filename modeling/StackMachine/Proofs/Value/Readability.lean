import StackMachine.Proofs.Number.ReadBack
import StackMachine.Proofs.Text.ReadBack
import StackMachine.Proofs.Value.Held
import StackMachine.Proofs.Value.OwnEntries
import StackMachine.Value.Rendering

/-!
# Containers told by their texts

Two containers that are written alike are equal, when their texts leave nothing out: neither
reaches itself, all entries are public, no number is a NaN and strings have the hashes of their
texts (`render_unambiguous`). Strings may hold brackets, commas and quotes, and texts that look like
other values.

The induction is on how the one container is written, and follows the text of the other. A part is
told by its text wherever a comma, a colon or a bracket may follow: the first character tells the
kind, a string ends at its closing quote, and no other scalar has such a character.
-/

namespace StackMachine

open Text (Ended Tells NoCloser closers ended_cons_iff tells_of_ne tells_of_noCloser tells_quoted
  tells_list)

/-! ## Scalars that are alike -/

/-- A scalar that its text tells from those that are not equal to it. -/
structure Scalar.Legible (k : Scalar) : Prop where
  rightlyHashed : k.RightlyHashed
  notNaN : ∀ x, k = .number x → x.isNaN = false

namespace Scalar

theorem legible_string (s : SharedString) (hs : s.hash = hashText s.text) :
    (string s).Legible where
  rightlyHashed := by
    rintro _ ⟨⟩
    exact hs
  notNaN := by rintro _ ⟨⟩

theorem legible_number (x : Number) (hx : x.isNaN = false) : (number x).Legible where
  rightlyHashed := by rintro _ ⟨⟩
  notNaN := by
    rintro _ ⟨⟩
    exact hx

theorem legible_bool (b : Bool) : (bool b).Legible where
  rightlyHashed := by rintro _ ⟨⟩
  notNaN := by rintro _ ⟨⟩

end Scalar

/-- Two scalars that are equal, and equal to the same scalars. -/
structure Scalar.Alike (s t : Scalar) : Prop where
  equals : s.equals t = true
  same : ∀ u : Scalar, u.equals s = u.equals t

theorem Scalar.Legible.alike_self {s : Scalar} (hs : s.Legible) : s.Alike s :=
  ⟨equals_self_iff.2 hs.notNaN, fun _ => rfl⟩

/-- A number is equal to both zeros or to none. -/
theorem Number.equals_zero_neg (x : Number) : x.equals zero.neg = x.equals zero := by
  have hfinite : zero.isFinite = true ∧ zero.neg.isFinite = true := by decide
  have hunits : zero.neg.units = zero.units := by decide
  rw [equals, equals, hfinite.1, hfinite.2, hunits, Bool.and_true]
  split
  · rfl
  · next hx =>
    -- An infinity or a NaN has the bits of neither.
    have hbits {y : Number} (hy : y.isFinite = true) : (x.bits == y.bits) = false := by
      rw [beq_eq_false_iff_ne]
      intro hxy
      obtain rfl : x = y := congrArg Number.mk hxy
      exact hx hy
    rw [hbits hfinite.1, hbits hfinite.2]

/-- Numbers of one text are alike: they are one number, or both are zero. -/
theorem Number.alike_of_text_eq {x y : Number} (hx : x.isNaN = false) (hy : y.isNaN = false)
    (h : x.text = y.text) : (Scalar.number x).Alike (.number y) := by
  have hzeros {z w : Number} (hz : z.isZero = true) (hw : w.isZero = true) (u : Number) :
      u.equals z = u.equals w := by
    rcases eq_of_isZero hz with rfl | rfl <;> rcases eq_of_isZero hw with rfl | rfl <;>
      simp only [equals_zero_neg]
  have hsame (u : Number) : u.equals x = u.equals y := by
    have hreread := reread_eq_of_text_eq h
    rw [reread, reread, hx, hy, if_neg Bool.false_ne_true, if_neg Bool.false_ne_true] at hreread
    split at hreread
    · next hxzero =>
      split at hreread
      · next hyzero => exact hzeros hxzero hyzero u
      · next hyzero => exact absurd (hreread ▸ (by decide : zero.isZero = true)) hyzero
    · next hxzero =>
      split at hreread
      · exact absurd (hreread ▸ (by decide : zero.isZero = true)) hxzero
      · rw [hreread]
  refine ⟨?_, fun u => ?_⟩
  · show x.equals y = true
    rw [← hsame x, equals_self hx]
  · cases u with
    | number u => exact hsame u
    | _ => rfl

/-- Strings of one text are alike when they have its hash. -/
theorem SharedString.alike_of_text_eq {s t : SharedString} (hs : s.hash = hashText s.text)
    (ht : t.hash = hashText t.text) (h : s.text = t.text) :
    (Scalar.string s).Alike (.string t) := by
  have hhash : s.hash = t.hash := by rw [hs, ht, h]
  refine ⟨by simp [Scalar.equals, h, hhash], fun u => ?_⟩
  cases u <;> simp [Scalar.equals, h, hhash]

/-! ## The texts of scalars -/

/-- The kind of the values whose texts begin with a character. -/
def Tag.ofFirst? : Char → Option Tag
  | ',' | ':' | ']' | '\x7d' => none
  | 'n' => some .nil
  | 't' | 'f' => some .bool
  | '"' => some .string
  | '<' => some .function
  | '[' => some .array
  | '\x7b' => some .table
  | _ => some .number

/-- A text begins as those of the values of a kind do. -/
def Tag.Begins (t : Tag) (cs : List Char) : Prop := cs.head?.bind Tag.ofFirst? = some t

theorem Tag.Begins.append {t : Tag} {cs : List Char} (h : t.Begins cs) (ds : List Char) :
    t.Begins (cs ++ ds) := by
  cases cs with
  | nil => contradiction
  | cons c cs => exact h

theorem Tag.Begins.not_ended {t : Tag} {cs : List Char} (h : t.Begins cs) : ¬Ended cs := by
  cases cs with
  | nil => contradiction
  | cons c cs =>
    rw [ended_cons_iff]
    simp only [closers, List.mem_cons, List.not_mem_nil, or_false, not_or]
    refine ⟨?_, ?_, ?_, ?_⟩ <;> rintro rfl <;> contradiction

/-- Texts of different kinds are not the same. -/
theorem Tag.Begins.tells {t u : Tag} {cs ds : List Char} (hcs : t.Begins cs) (hds : u.Begins ds)
    (htu : t ≠ u) (P : Prop) : Tells cs ds P := by
  cases cs with
  | nil => contradiction
  | cons c cs =>
    cases ds with
    | nil => contradiction
    | cons d ds =>
      refine tells_of_ne ?_ cs ds P
      rintro rfl
      exact htu (Option.some.inj (hcs.symm.trans hds))

theorem notMem_closers_of_isDigit {c : Char} (hc : c.isDigit = true) : c ∉ closers := by
  simp only [closers, List.mem_cons, List.not_mem_nil, or_false, not_or]
  refine ⟨?_, ?_, ?_, ?_⟩ <;> rintro rfl <;> contradiction

theorem Number.PlainNumeral.noCloser {digits : List Char} (h : PlainNumeral digits) :
    NoCloser digits := by
  cases h with
  | whole _ hdigits => exact fun c hc => notMem_closers_of_isDigit (hdigits c hc)
  | places _ hdigits _ hplaces =>
    intro c hc
    rcases List.mem_append.1 hc with hc | hc
    · exact notMem_closers_of_isDigit (hdigits c hc)
    · rcases List.mem_cons.1 hc with rfl | hc
      · decide
      · exact notMem_closers_of_isDigit (hplaces c hc)

/-- No closer is in the text of a number. -/
theorem Number.noCloser_text (x : Number) : NoCloser x.text.toList := by
  have hspelled := x.spelled_text
  generalize x.text = text at hspelled
  generalize x.reread = y at hspelled
  cases hspelled with
  | numeral hdigits =>
    rw [String.toList_ofList]
    exact hdigits.noCloser
  | negativeNumeral hdigits =>
    rw [String.toList_ofList]
    exact List.forall_mem_cons.2 ⟨by decide, hdigits.noCloser⟩
  | _ => decide

/-- A text of a number that is no NaN begins with a digit, with a minus or with the first letter of
an infinity. -/
theorem Number.begins_text {x : Number} (hx : x.isNaN = false) :
    Tag.number.Begins x.text.toList := by
  have hspelled := x.spelled_text
  have hreread : x.reread ≠ nan := by
    rw [reread, hx, if_neg Bool.false_ne_true]
    split
    · decide
    · rintro rfl
      contradiction
  generalize x.text = text at hspelled
  generalize x.reread = y at hspelled hreread
  cases hspelled with
  | nan => contradiction
  | infinity | negativeInfinity => rfl
  | numeral hdigits =>
    obtain ⟨c, cs, rfl, hc⟩ := hdigits.exists_cons
    rw [String.toList_ofList]
    show Tag.ofFirst? c = some .number
    unfold Tag.ofFirst?
    split <;> first | rfl | exact absurd hc (by decide)
  | negativeNumeral hdigits =>
    rw [String.toList_ofList]
    rfl

/-- A decimal numeral is told by its text up to a character that is no digit. -/
theorem Number.toDigits_append_inj {m n : Nat} {c : Char} (hc : c.isDigit = false)
    {rest rest' : List Char}
    (h : Nat.toDigits 10 m ++ c :: rest = Nat.toDigits 10 n ++ c :: rest') :
    m = n ∧ rest = rest' := by
  have hcut (n : Nat) := takeWhile_append_cons (p := Char.isDigit)
    (fun _ => isDigit_of_mem_toDigits (n := n)) hc
  obtain ⟨htake, hdrop⟩ := hcut m rest
  rw [h, (hcut n rest').1] at htake
  rw [h, (hcut n rest').2] at hdrop
  refine ⟨?_, (List.cons.inj hdrop).2.symm⟩
  rw [← digitsValue_toDigits m, ← htake, digitsValue_toDigits]

namespace Scalar

/-- The characters of a function. -/
theorem toList_text_function (f : Function) : (quotedText (.function f)).toList =
    ['<', 'f', 'n', ' ', '@'] ++ (Nat.toDigits 10 f.address.toNat ++
      '/' :: (Nat.toDigits 10 f.arity.toNat ++ ['>'])) := by
  simp [quotedText, textWith, Text.decimal]

/-- The first character of a scalar inside a container tells its kind. -/
theorem Legible.begins_quotedText {s : Scalar} (hs : s.Legible) :
    s.tag.Begins s.quotedText.toList := by
  cases s with
  | nil => rfl
  | bool b => cases b <;> rfl
  | number x => exact Number.begins_text (hs.notNaN x rfl)
  | string s =>
    rw [quotedText, textWith, Text.quoted, String.toList_ofList]
    rfl
  | function f =>
    rw [toList_text_function]
    rfl

theorem noCloser_text_function (f : Function) :
    NoCloser (quotedText (.function f)).toList := by
  have hdigits (n : Nat) : NoCloser (Nat.toDigits 10 n) :=
    (Number.plainNumeral_toDigits n).noCloser
  have hstart : NoCloser ['<', 'f', 'n', ' ', '@'] := by decide
  rw [toList_text_function]
  refine List.forall_mem_append.2 ⟨hstart, List.forall_mem_append.2 ⟨hdigits _, ?_⟩⟩
  exact List.forall_mem_cons.2 ⟨by decide,
    List.forall_mem_append.2 ⟨hdigits _, (by decide : NoCloser ['>'])⟩⟩

/-- **Scalars inside a container are told by their texts.** -/
theorem Legible.tells {s t : Scalar} (hs : s.Legible) (ht : t.Legible) :
    Tells s.quotedText.toList t.quotedText.toList (s.Alike t) := by
  by_cases htag : s.tag = t.tag
  · cases s <;> cases t <;> try contradiction
    case nil.nil =>
      have hnil : NoCloser nil.quotedText.toList := by decide
      exact tells_of_noCloser hnil hnil fun _ => hs.alike_self
    case bool.bool b c =>
      have hbool (b : Bool) : NoCloser (quotedText (.bool b)).toList := by
        cases b <;> decide
      refine tells_of_noCloser (hbool b) (hbool c) fun h => ?_
      obtain rfl : b = c := by cases b <;> cases c <;> first | rfl | exact absurd h (by decide)
      exact hs.alike_self
    case number.number x y =>
      exact tells_of_noCloser x.noCloser_text y.noCloser_text fun h =>
        Number.alike_of_text_eq (hs.notNaN x rfl) (ht.notNaN y rfl) (String.toList_inj.1 h)
    case string.string s t =>
      exact (tells_quoted s.text t.text).imp
        (SharedString.alike_of_text_eq (hs.rightlyHashed s rfl) (ht.rightlyHashed t rfl))
    case function.function f g =>
      refine tells_of_noCloser (noCloser_text_function f) (noCloser_text_function g)
        fun h => ?_
      rw [toList_text_function, toList_text_function] at h
      obtain ⟨haddress, h⟩ := Number.toDigits_append_inj (by decide) (List.append_cancel_left h)
      obtain ⟨harity, -⟩ := Number.toDigits_append_inj (by decide) h
      obtain rfl : f = g := by
        obtain ⟨address, arity⟩ := f
        obtain rfl := UInt64.toNat_inj.1 haddress
        obtain rfl := UInt16.toNat_inj.1 harity
        rfl
      exact hs.alike_self
  · exact hs.begins_quotedText.tells ht.begins_quotedText htag _

end Scalar

/-! ## Containers without cycles -/

namespace Heap

variable {h : Heap}

/-- What a container holds: the items of an array, or the values of a table. Keys and the prototype
are no parts. -/
def parts (h : Heap) : Ref → List Value
  | .array id => (h.items id).toList
  | .table id => (h.tableAt id).entries.map Entry.value

/-- A container is a part of another one. -/
def Holds (h : Heap) (r s : Ref) : Prop := .ref s ∈ h.parts r

/-- A container is another one, or a part of it at any depth. -/
def Reaches (h : Heap) : Ref → Ref → Prop := Relation.ReflTransGen h.Holds

/-- Neither the container nor any part of it, at any depth, is a part of itself. -/
def Acyclic (h : Heap) (a : Ref) : Prop := ∀ r, h.Reaches a r → ¬Relation.TransGen h.Holds r r

/-- A container whose text leaves out none of its parts. -/
structure Legible (h : Heap) (r : Ref) : Prop where
  parts : ∀ v ∈ h.parts r, v.Meets Scalar.Legible
  built : ∀ id, r = .table id → (h.tableAt id).Built
  entries : ∀ id, r = .table id → ∀ e ∈ (h.tableAt id).entries,
    e.flags.isPublic = true ∧ e.key.Legible

theorem legible_array {id : Nat} (hitems : ∀ v ∈ (h.items id).toList, v.Meets Scalar.Legible) :
    h.Legible (.array id) where
  parts := hitems
  built := by rintro _ ⟨⟩
  entries := by rintro _ ⟨⟩

theorem legible_table {id : Nat} (hbuilt : (h.tableAt id).Built)
    (hentries : ∀ e ∈ (h.tableAt id).entries,
      e.value.Meets Scalar.Legible ∧ e.flags.isPublic = true ∧ e.key.Legible) :
    h.Legible (.table id) where
  parts := by
    intro v hv
    obtain ⟨e, he, rfl⟩ := List.mem_map.1 hv
    exact (hentries e he).1
  built := by
    rintro _ ⟨⟩
    exact hbuilt
  entries := by
    rintro _ ⟨⟩ e he
    exact (hentries e he).2

/-- A value that is written in full inside the containers that are open: a scalar stands in one of
them, and no container is met again. -/
def Clear (h : Heap) (opened : List Ref) : Value → Prop
  | .scalar s => opened ≠ [] ∧ s.Legible
  | .ref a => h.Acyclic a ∧ ∀ r, h.Reaches a r → h.Legible r ∧ r ∉ opened

/-- A container is acyclic where every part has a lower rank than what holds it. -/
theorem acyclic_of_rank {rank : Ref → Nat} (hrank : ∀ r s, h.Holds r s → rank s < rank r)
    (a : Ref) : h.Acyclic a := by
  have hlower {r s : Ref} (hrs : Relation.TransGen h.Holds r s) : rank s < rank r := by
    induction hrs with
    | single hs => exact hrank _ _ hs
    | tail _ hs ih => exact (hrank _ _ hs).trans ih
  exact fun r _ hr => Nat.lt_irrefl _ (hlower hr)

theorem Acyclic.part {r s : Ref} (hr : h.Acyclic r) (hs : h.Holds r s) : h.Acyclic s :=
  fun t ht => hr t (.head hs ht)

/-- The parts of what is written in full are. -/
theorem Clear.part {opened : List Ref} {r : Ref} (hr : h.Clear opened (.ref r)) {v : Value}
    (hv : v ∈ h.parts r) : h.Clear (r :: opened) v := by
  obtain ⟨hacyclic, hreaches⟩ := hr
  cases v with
  | scalar s => exact ⟨List.cons_ne_nil r opened, (hreaches r .refl).1.parts _ hv⟩
  | ref s =>
    refine ⟨hacyclic.part hv, fun t ht => ?_⟩
    obtain ⟨hlegible, hopened⟩ := hreaches t (.head hv ht)
    refine ⟨hlegible, fun hmem => ?_⟩
    rcases List.mem_cons.1 hmem with rfl | hmem
    · exact hacyclic t .refl (.head' hv ht)
    · exact hopened hmem

/-! ## The texts of containers -/

theorem toList_renderIn_array {opened : List Ref} {id : Nat} (hid : .array id ∉ opened) :
    (h.renderIn opened (.array id)).toList = '[' :: ([',', ' '].intercalate
      ((h.items id).toList.map fun v => (h.renderIn (.array id :: opened) v).toList) ++ [']']) := by
  have hparts : (h.shown (.array id)).map (fun part =>
      part.1 ++ h.renderIn (.array id :: opened) part.2) =
      (h.items id).toList.map fun v => h.renderIn (.array id :: opened) v := by
    rw [shown, List.map_map]
    exact List.map_congr_left fun v _ => String.empty_append
  rw [renderIn_ref h hid, hparts]
  simp [Ref.bracketed, Function.comp_def]

theorem toList_renderIn_table {opened : List Ref} {id : Nat} (hid : .table id ∉ opened)
    (hpublic : ∀ e ∈ (h.tableAt id).entries, e.flags.isPublic = true) :
    (h.renderIn opened (.table id)).toList = '\x7b' :: ([',', ' '].intercalate
      ((h.tableAt id).entries.map fun e => e.key.quotedText.toList ++
        ':' :: ' ' :: (h.renderIn (.table id :: opened) e.value).toList) ++ ['\x7d']) := by
  have hentries : (h.tableAt id).publicEntries = (h.tableAt id).entries :=
    List.filter_eq_self.2 hpublic
  rw [renderIn_ref h hid, shown, hentries]
  simp [Ref.bracketed, Function.comp_def]

/-- The first character of what is written in full tells the kind. -/
theorem Clear.begins_renderIn {opened : List Ref} {v : Value} (hv : h.Clear opened v) :
    v.tag.Begins (h.renderIn opened v).toList := by
  cases v with
  | scalar s =>
    obtain ⟨hopened, hs⟩ := hv
    rw [renderIn, if_neg (by simpa using hopened)]
    exact hs.begins_quotedText
  | ref r =>
    rw [renderIn_ref h (hv.2 r .refl).2]
    cases r with
    | array id =>
      rw [Ref.bracketed, String.toList_append, String.toList_append]
      rfl
    | table id =>
      rw [Ref.bracketed, String.toList_append, String.toList_append]
      rfl

/-! ## Equal parts -/

/-- Two values are equal when they do not clash and what is below them is equal. -/
theorem equals_of_below {a b : Value} (hab : ¬h.Clash (a, b))
    (hbelow : ∀ p, h.Below (a, b) p → h.equals p.1 p.2 = true) : h.equals a b = true := by
  by_contra hdiffers
  obtain ⟨n, hn⟩ := equals_eq_false_iff.1 (Bool.not_eq_true _ ▸ hdiffers)
  cases hn with
  | clash hclash => exact hab hclash
  | step hq hn =>
    have hequals := hbelow _ hq
    rw [equals_eq_false_iff.2 ⟨_, hn⟩] at hequals
    contradiction

/-- Arrays are equal when their items are, one by one. -/
theorem equals_array {i j : Nat}
    (hitems : List.Forall₂ (fun x y => h.equals x y = true) (h.items i).toList
      (h.items j).toList) : h.equals (.array i) (.array j) = true := by
  refine equals_of_below (fun hclash => ?_) fun p hp => ?_
  · cases hclash with
    | tags hne => exact hne rfl
    | items _ hne => exact hne (by simpa using hitems.length_eq)
  · cases hp with
    | item _ hx hy =>
      rw [← Array.getElem?_toList] at hx hy
      obtain ⟨hi, rfl⟩ := List.getElem?_eq_some_iff.1 hx
      obtain ⟨hj, rfl⟩ := List.getElem?_eq_some_iff.1 hy
      exact hitems.get hi hj

/-- Tables are equal when their keys are alike and their values equal, one by one: the key of an
entry finds the entry at the same place of the other table, where no other key is equal to it. -/
theorem equals_table {i j : Nat} (hj : (h.tableAt j).KnowsKeys)
    (hentries : List.Forall₂
      (fun e o : Entry => e.key.Alike o.key ∧ h.equals e.value o.value = true)
      (h.tableAt i).entries (h.tableAt j).entries) :
    h.equals (.table i) (.table j) = true := by
  have hpartner {e : Entry} (he : e ∈ (h.tableAt i).entries) :
      ∃ (n : Nat) (o : Entry), (h.tableAt j).entries[n]? = some o ∧
        e.key.Alike o.key ∧ h.equals e.value o.value = true := by
    obtain ⟨n, hn, rfl⟩ := List.mem_iff_getElem.1 he
    have hn' := hentries.length_eq ▸ hn
    obtain ⟨hkey, hvalue⟩ := hentries.get hn hn'
    exact ⟨n, _, List.getElem?_eq_getElem hn', hkey, hvalue⟩
  refine equals_of_below (fun hclash => ?_) fun p hp => ?_
  · cases hclash with
    | tags hne => exact hne rfl
    | entries _ hne => exact hne hentries.length_eq
    | missing _ he hnone =>
      obtain ⟨n, o, ho, hkey, -⟩ := hpartner he
      have hmissing := hj.missing _ hnone o (List.mem_of_getElem? ho)
      rw [Scalar.equals_comm, hkey.equals] at hmissing
      contradiction
  · cases hp with
    | entry _ he hm hf =>
      obtain ⟨n, o, ho, hkey, hvalue⟩ := hpartner he
      obtain ⟨f, hf', hequals⟩ := hj.found _ _ hm
      obtain rfl := Option.some.inj (hf'.symm.trans hf)
      rw [hkey.same] at hequals
      obtain rfl := hj.apart _ _ _ _ hf ho hequals
      obtain rfl := Option.some.inj (hf.symm.trans ho)
      exact hvalue

/-! ## Reading the text -/

section

variable {opened opened' : List Ref}

/-- Arrays are told by their texts when their items are. -/
theorem Clear.tells_array {i j : Nat} (hi : h.Clear opened (.array i))
    (hj : h.Clear opened' (.array j))
    (hitems : ∀ x ∈ (h.items i).toList, ∀ y ∈ (h.items j).toList,
      Tells (h.renderIn (.array i :: opened) x).toList (h.renderIn (.array j :: opened') y).toList
        (h.equals x y = true)) :
    Tells (h.renderIn opened (.array i)).toList (h.renderIn opened' (.array j)).toList
      (h.equals (.array i) (.array j) = true) := by
  rw [toList_renderIn_array (hi.2 _ .refl).2, toList_renderIn_array (hj.2 _ .refl).2]
  refine (tells_list (by decide) (by decide) (fun x hx => ?_) (fun y hy => ?_) hitems '[').imp
    equals_array
  · exact (hi.part hx).begins_renderIn.not_ended
  · exact (hj.part hy).begins_renderIn.not_ended

/-- Tables are told by their texts when their values are: the keys always are. -/
theorem Clear.tells_table {i j : Nat} (hi : h.Clear opened (.table i))
    (hj : h.Clear opened' (.table j))
    (hvalues : ∀ e ∈ (h.tableAt i).entries, ∀ o ∈ (h.tableAt j).entries,
      Tells (h.renderIn (.table i :: opened) e.value).toList
        (h.renderIn (.table j :: opened') o.value).toList (h.equals e.value o.value = true)) :
    Tells (h.renderIn opened (.table i)).toList (h.renderIn opened' (.table j)).toList
      (h.equals (.table i) (.table j) = true) := by
  obtain ⟨hlegible, hopened⟩ := hi.2 _ .refl
  obtain ⟨hlegible', hopened'⟩ := hj.2 _ .refl
  have hentries := hlegible.entries i rfl
  have hentries' := hlegible'.entries j rfl
  rw [toList_renderIn_table hopened fun e he => (hentries e he).1,
    toList_renderIn_table hopened' fun o ho => (hentries' o ho).1]
  refine (tells_list (by decide) (by decide) (fun e he => ?_) (fun o ho => ?_)
    (fun e he o ho => ?_) '\x7b').imp (equals_table (hlegible'.built j rfl).knowsKeys)
  · exact ((hentries e he).2.begins_quotedText.append _).not_ended
  · exact ((hentries' o ho).2.begins_quotedText.append _).not_ended
  · exact ((hentries e he).2.tells (hentries' o ho).2).entry (hvalues e he o ho)

/-- **What is written in full is told by its text**, wherever it ends. The induction is on how the
first value is written; the second one is written with as many parts, because a list ends at its
bracket and not before. -/
theorem Clear.tells {v w : Value} (hv : h.Clear opened v) (hw : h.Clear opened' w) :
    Tells (h.renderIn opened v).toList (h.renderIn opened' w).toList
      (h.equals v w = true) := by
  induction opened, v using renderIn.induct h generalizing opened' w with
  | case1 opened s hempty => exact absurd (List.isEmpty_iff.1 hempty) hv.1
  | case2 opened s hnonempty =>
    cases w with
    | ref r => exact hv.begins_renderIn.tells hw.begins_renderIn (s.tag_ne_tag r) _
    | scalar t =>
      rw [renderIn, if_neg hnonempty, renderIn, if_neg (by simpa using hw.1), equals, equalsIn]
      exact (hv.2.tells hw.2).imp Scalar.Alike.equals
  | case3 opened r hr => exact absurd hr (hv.2 r .refl).2
  | case4 opened r hr ih =>
    by_cases htag : r.tag = w.tag
    · rcases w with t | s
      · exact absurd htag.symm (t.tag_ne_tag r)
      · cases r <;> cases s <;> try contradiction
        case array.array i j =>
          refine hv.tells_array hw fun x hx y hy => ?_
          exact ih "" x (List.mem_map_of_mem hx) (hv.part hx) (hw.part hy)
        case table.table i j =>
          refine hv.tells_table hw fun e he o ho => ?_
          have hpublic : e ∈ (h.tableAt i).publicEntries :=
            List.mem_filter.2 ⟨he, ((hv.2 _ .refl).1.entries i rfl e he).1⟩
          exact ih (e.key.quotedText ++ ": ") e.value (List.mem_map_of_mem hpublic)
            (hv.part (List.mem_map_of_mem he)) (hw.part (List.mem_map_of_mem ho))
    · exact hv.begins_renderIn.tells hw.begins_renderIn htag _

end

/-- **Containers that are written alike are equal.** Two arrays or tables are given that do not
reach themselves, at any depth, and whose tables are made by setting and deleting keys; all entries
are public, no number is a NaN, and the strings have the hashes of their texts. When both have one
text, they are equal. -/
theorem render_unambiguous (h : Heap) {a b : Ref} (ha : h.Acyclic a) (hb : h.Acyclic b)
    (hlegible : ∀ r, h.Reaches a r ∨ h.Reaches b r → h.Legible r)
    (hab : h.render (.ref a) = h.render (.ref b)) : h.equals (.ref a) (.ref b) = true := by
  have hclear {r : Ref} (hr : h.Acyclic r) (hlegible : ∀ s, h.Reaches r s → h.Legible s) :
      h.Clear [] (.ref r) :=
    ⟨hr, fun s hs => ⟨hlegible s hs, List.not_mem_nil⟩⟩
  have htells := (hclear ha fun r hr => hlegible r (.inl hr)).tells
    (hclear hb fun r hr => hlegible r (.inr hr))
  exact (htells Text.ended_nil Text.ended_nil (by rw [← render, hab, render])).1

/-- Two arrays with the two zeros, and each with a table of its own that has an array of its own,
are written alike: brackets and commas inside the strings do not count. -/
theorem nested_arrays_of_one_text :
    let one : Number := ⟨0x3ff0000000000000⟩
    let table (id : Nat) : Table :=
      ({} : Table).set (.string { text := "]", id }) (.array id) .standard
        |>.set (.number one) (.bool true) .standard
    let h : Heap :=
      { arrays := #[#[.number .zero, .table 0], #[.number (.neg .zero), .table 1],
          #[.string { text := "1, [2]", id := 4 }], #[.string { text := "1, [2]", id := 5 }]]
        tables := #[table 2, table 3] }
    (h.Acyclic (.array 0) ∧ h.Acyclic (.array 1)) ∧
      (∀ r, h.Reaches (.array 0) r ∨ h.Reaches (.array 1) r → h.Legible r) ∧
      h.render (.array 0) = "[0, \x7b\"]\": [\"1, [2]\"], 1: true\x7d]" ∧
      h.render (.array 0) = h.render (.array 1) ∧
      h.equals (.array 0) (.array 1) = true := by
  intro one table h
  have hentries (id : Nat) : (table id).entries =
      [⟨.string { text := "]", id }, .array id, .standard⟩,
        ⟨.number one, .bool true, .standard⟩] := by
    simp [table, Table.set, Table.position?, Scalar.equals]
  -- The arrays with a table come first, then the tables, then the arrays with a string.
  let rank (r : Ref) : Nat :=
    if r = .array 0 ∨ r = .array 1 then 2 else if r.tag = .table then 1 else 0
  have hrank : ∀ r s, h.Holds r s → rank s < rank r := by
    rintro (id | id) s hs
    · rcases id with _ | _ | _ | _ | id <;> simp [Holds, parts, items, h] at hs <;>
        simp [hs, rank, Ref.tag]
    · rcases id with _ | _ | id <;> simp [Holds, parts, tableAt, h, hentries] at hs <;>
        simp [hs, rank, Ref.tag]
  have hstring (text : String) (id : Nat) := Scalar.legible_string { text, id } rfl
  have hzero := Scalar.legible_number .zero (by decide)
  have hnegative := Scalar.legible_number Number.zero.neg (by decide)
  have hone := Scalar.legible_number one (by decide)
  have htrue := Scalar.legible_bool true
  have hlegible (r : Ref) : h.Legible r := by
    rcases r with id | id
    · refine legible_array ?_
      rcases id with _ | _ | _ | _ | id <;>
        simp [items, h, Value.Meets, hstring, hzero, hnegative]
    · have htable (id : Nat) : (table id).Built := (Table.Built.empty.set ..).set ..
      have hbuilt : (h.tableAt id).Built := by
        rcases id with _ | _ | id
        · exact htable 2
        · exact htable 3
        · exact .empty
      refine legible_table hbuilt ?_
      rcases id with _ | _ | id <;>
        simp [tableAt, h, hentries, Value.Meets, hstring, hone, htrue, Flags.standard]
  have hacyclic := acyclic_of_rank hrank
  have htext : h.render (.array 0) = h.render (.array 1) := by decide +kernel
  exact ⟨⟨hacyclic _, hacyclic _⟩, fun r _ => hlegible r, by decide +kernel, htext,
    render_unambiguous h (hacyclic _) (hacyclic _) (fun r _ => hlegible r) htext⟩

end Heap
end StackMachine
