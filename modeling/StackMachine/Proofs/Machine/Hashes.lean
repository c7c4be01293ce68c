import StackMachine.Proofs.Assembly.Pool
import StackMachine.Proofs.Machine.Bounds
import StackMachine.Proofs.Machine.ControlFlow
import StackMachine.Proofs.Machine.StackEffect
import StackMachine.Proofs.Program.Container
import StackMachine.Proofs.Value.Keys

/-!
# Hashes of strings

Whether two strings are equal, and where a string is found as a key, is decided by their hashes
before their texts, and a string that was pushed from the pool has the hash that the pool has for
it. A program that was read from a file or assembled has the right hashes in its pool, so every
string that a machine makes while it runs the program has the hash of its text
(`Program.governs_rightHashes`). Then only the texts decide.
-/

namespace StackMachine

/-! ## Right hashes -/

/-- What a string may keep as its hash: the one that it came with, if with any, until it is asked
for its hash, and that one afterwards. -/
inductive SharedString.Keeps (s : SharedString) : Option UInt64 → Prop
  | preset : Keeps s s.presetHash
  | asked : Keeps s (some s.hash)

/-- Nothing is kept, or the hash of the text. -/
theorem SharedString.Keeps.eq {s : SharedString} (hs : s.hash = hashText s.text)
    {kept : Option UInt64} (h : s.Keeps kept) : kept = none ∨ kept = some (hashText s.text) := by
  cases h with
  | asked => exact .inr (congrArg some hs)
  | preset =>
    cases hpreset : s.presetHash with
    | none => exact .inl rfl
    | some preset =>
      have hhash : s.hash = preset := by rw [SharedString.hash, hpreset]; rfl
      exact .inr (congrArg some (hhash.symm.trans hs))

/-- Every entry of the pool has the hash of its text. -/
def Program.RightlyHashed (p : Program) : Prop := ∀ e ∈ p.strings, e.hash = hashText e.text

/-- A program that was read from a file or assembled. -/
def Program.Issued (p : Program) : Prop :=
  (∃ bytes, Program.decode bytes = .ok p) ∨
    ∃ steps, (Assembly.afterAll {} steps).finish = .ok p

/-- **No program has a wrong hash in its pool**: a file is read only if its hashes are right, and an
assembly computes them. -/
theorem Program.Issued.rightlyHashed {p : Program} (hp : p.Issued) : p.RightlyHashed := by
  intro e he
  rcases hp with ⟨bytes, hbytes⟩ | ⟨steps, hsteps⟩
  · exact ((eq_encode_of_decode hbytes).1 e he).hash_eq
  · rw [Assembly.strings_finish hsteps] at he
    exact (Assembly.genuine_of_mem_strings he).hash_eq

/-! ## Strings in a machine -/

/-- Strings have the hashes of their texts. Control may stand anywhere, and anything may fail. -/
def Discipline.rightHashes : Discipline where
  scalar := Scalar.RightlyHashed
  address _ := True
  fault _ := True

/-- **The hashes of a machine stay right**: a string is pushed from the pool with the hash that is
there, or made without one. -/
theorem Program.RightlyHashed.governs {p : Program} (hp : p.RightlyHashed) :
    Discipline.rightHashes.Governs p where
  lawful := {
    nil := nofun
    bool := nofun
    number := nofun
    string := by
      rintro text id s ⟨⟩
      rfl
    function := fun _ _ => trivial
    jump := fun _ _ _ => trivial
    fault := fun _ _ => trivial }
  start := trivial
  admits := fun _ i _ _ => {
    next := trivial
    target := fun _ => trivial
    function := fun _ _ => nofun
    missing := fun _ _ => trivial
    string := by
      rintro - e he id s ⟨⟩
      exact hp e (Array.mem_of_getElem? he) }

/-! ## Equality and keys -/

/-- Whether a scalar is a string with this text. -/
def Scalar.isText (text : String) : Scalar → Bool
  | .string s => s.text == text
  | _ => false

theorem Scalar.text_unique {k : Scalar} {a b : String} (ha : k.isText a = true)
    (hb : k.isText b = true) : a = b := by
  cases k with
  | string s => exact (beq_iff_eq.1 ha).symm.trans (beq_iff_eq.1 hb)
  | nil | bool | number | function => contradiction

section

variable {s t : SharedString}

/-- Strings with the hashes of their texts are equal when their texts are. -/
theorem Scalar.equals_string (hs : s.hash = hashText s.text) (ht : t.hash = hashText t.text) :
    equals (.string s) (.string t) = decide (s.text = t.text) := by
  have hhash (h : s.text = t.text) : s.hash = t.hash := by rw [hs, ht, h]
  rw [equals, Bool.eq_iff_iff, Bool.and_eq_true, beq_iff_eq, beq_iff_eq, decide_eq_true_eq]
  exact ⟨And.left, fun h => ⟨h, hhash h⟩⟩

/-- A string is compared with a key by text alone where both have the hashes of their texts. -/
theorem Scalar.matches_string {k : Scalar} (hk : k.RightlyHashed)
    (hs : s.hash = hashText s.text) :
    (k.equals (.string s) && k.hash == (Scalar.string s).hash) = k.isText s.text := by
  cases k with
  | string c =>
    have hc := hk c rfl
    have hhash (h : c.text = s.text) : c.hash = s.hash := by rw [hc, hs, h]
    rw [equals_string hc hs, isText, Bool.eq_iff_iff, Bool.and_eq_true, decide_eq_true_eq,
      beq_iff_eq, beq_iff_eq]
    exact ⟨And.left, fun h => ⟨h, hhash h⟩⟩
  | nil | bool | number | function => rfl

namespace Table

variable {u : Table}

/-- **A string is found by its text**, as if the entries were searched from the front. -/
theorem position?_string (hu : ∀ e ∈ u.entries, e.key.RightlyHashed)
    (hs : s.hash = hashText s.text) :
    u.position? (.string s) = u.entries.findIdx? fun e => e.key.isText s.text := by
  have hfirst : (u.entries.findIdx? fun e =>
      e.key.equals (.string s) && e.key.hash == (Scalar.string s).hash) =
      u.entries.findIdx? fun e => e.key.isText s.text := by
    generalize u.entries = entries at hu
    induction entries with
    | nil => rfl
    | cons e entries ih =>
      rw [List.findIdx?_cons, List.findIdx?_cons,
        ih fun o ho => hu o (List.mem_cons_of_mem e ho),
        Scalar.matches_string (hu e List.mem_cons_self) hs]
  unfold position?
  rw [hfirst]
  cases u.entries.findIdx? fun e => e.key.isText s.text <;> rfl

/-- Two strings are found at one place exactly when they have one text. -/
theorem position?_string_iff (hu : ∀ e ∈ u.entries, e.key.RightlyHashed)
    (hs : s.hash = hashText s.text) (ht : t.hash = hashText t.text) {place : Nat}
    (hplace : u.position? (.string s) = some place) :
    u.position? (.string t) = some place ↔ s.text = t.text := by
  rw [position?_string hu hs] at hplace
  rw [position?_string hu ht]
  constructor
  · intro hplace'
    obtain ⟨e, he, hkey⟩ := exists_of_findIdx?_eq_some hplace
    obtain ⟨e', he', hkey'⟩ := exists_of_findIdx?_eq_some hplace'
    obtain rfl := Option.some.inj (he.symm.trans he')
    exact Scalar.text_unique hkey hkey'
  · intro htext
    rwa [← htext]

end Table

/-- Reading with a string looks at its text and its hash. -/
theorem Heap.get_string_congr (h : Heap) (htext : s.text = t.text) (hhash : s.hash = t.hash)
    (container : Value) : h.get container (.string s) = h.get container (.string t) := by
  have hequals (k : Scalar) : k.equals (.string s) = k.equals (.string t) := by
    cases k <;> simp only [Scalar.equals, htext, hhash]
  have hfind (u : Table) : u.find? (.string s) = u.find? (.string t) := by
    unfold Table.find? Table.position?
    simp only [hequals, Scalar.hash, hhash]
  have hkey : (Scalar.string s).text = (Scalar.string t).text := htext
  have hrender : h.render (.string s) = h.render (.string t) := by
    rw [render, render, renderIn, renderIn]
    exact hkey
  have hitem (id : Nat) : h.item id (.string s) = h.item id (.string t) := by
    rw [item, item, index, index, hrender]
    rfl
  -- A chain of prototypes is followed in the same way, table by table.
  have hlookup (links id : Nat) :
      h.lookupWithin links id (.string s) = h.lookupWithin links id (.string t) := by
    induction links generalizing id with
    | zero =>
      unfold lookupWithin
      simp only [hfind, hkey, hitem]
    | succ links ih =>
      unfold lookupWithin
      simp only [hfind, hkey, hitem, ih]
  rcases container with k | id | id
  · rfl
  · exact hitem id
  · exact hlookup chainLimit id

end

namespace Machine

variable {m : Machine} {v : Value} {rest : List Value}

/-- The top value is taken off. -/
theorem pop_of_toList (h : m.stack.toList = rest ++ [v]) :
    ∃ n, pop m = .ok v n ∧ n.stack.toList = rest ∧ n.heap = m.heap ∧ n.config = m.config := by
  have hback : m.stack.back? = some v := by
    rw [← Array.getLast?_toList, h, List.getLast?_concat]
  refine ⟨{ m with stack := m.stack.pop, pristine := m.pristine && m.stack.size != 1 },
    by rw [pop, hback], ?_, rfl, rfl⟩
  rw [Array.toList_pop, h, List.dropLast_concat]

/-- **The test for equality** of the top two values succeeds where the limit allows two. -/
theorem execute_eq {i : Instruction} {a b : Value} (hop : i.opcode = .eq)
    (hstack : m.stack.toList = rest ++ [a, b]) (hroom : rest.length < m.config.maxStack) :
    ∃ n, execute i m = .ok .next n ∧ n.stack.toList = rest ++ [.bool (m.heap.equals a b)] := by
  have hsplit : m.stack.toList = (rest ++ [a]) ++ [b] := by rw [hstack, List.append_assoc]; rfl
  obtain ⟨m₁, hpop₁, hstack₁, hheap₁, hconfig₁⟩ := pop_of_toList hsplit
  obtain ⟨m₂, hpop₂, hstack₂, hheap₂, hconfig₂⟩ := pop_of_toList hstack₁
  have hpush : push (.bool (m.heap.equals a b)) m₂ =
      .ok () { m₂ with stack := m₂.stack.push (.bool (m.heap.equals a b)) } := by
    refine if_neg (Nat.not_le.2 ?_)
    rwa [hconfig₂, hconfig₁, ← Array.length_toList, hstack₂]
  have hbinary : binary .eq a b m₂ = .ok (.bool (m.heap.equals a b)) m₂ := by
    rw [← hheap₁, ← hheap₂]
    rfl
  have hoperate : operate .eq i.argument m =
      .ok () { m₂ with stack := m₂.stack.push (.bool (m.heap.equals a b)) } :=
    (bind_of_ok hpop₁).trans <| (bind_of_ok hpop₂).trans <|
      (bind_of_ok hbinary).trans hpush
  have hexecute : execute i = (do operate .eq i.argument; pure .next) := by
    rw [execute, hop]
  refine ⟨_, (congrFun hexecute m).trans (bind_of_ok hoperate), ?_⟩
  rw [Array.toList_push, hstack₂]

end Machine

/-! ## Every run -/

/-- A machine in which every string has the hash of its text, with room on the stack for a value in
place of two that are there. -/
structure Machine.RightlyHashed (m : Machine) : Prop where
  holds : ∀ s, m.Holds (.string s) → s.hash = hashText s.text
  keys : ∀ t ∈ m.heap.tables, ∀ e ∈ t.entries, e.key.RightlyHashed
  room : 2 ≤ m.stack.size → m.stack.size ≤ m.config.maxStack

/-- **Every state of a run** has right hashes. -/
theorem Run.rightlyHashed_advance {p : Program} (hp : p.RightlyHashed) (config : Config)
    (sink : Sink) (n : Nat) :
    (machineOf (advance ⟨.start config p, sink⟩ n)).RightlyHashed := by
  have hobeys := obeys_advance_start hp.governs config sink n
  have hbounded := bounded_advance (r := ⟨.start config p, sink⟩)
    (Machine.bounded_start config p) n
  generalize advance ⟨.start config p, sink⟩ n = state at hobeys hbounded ⊢
  have hmachine : (machineOf state).Obeys Discipline.rightHashes p ∧
      (machineOf state).Bounded config p := by
    cases state with
    | inl r => exact ⟨hobeys, hbounded⟩
    | inr o => exact ⟨hobeys.machine, hbounded⟩
  exact {
    holds := fun s hs => hmachine.1.holds hs s rfl
    keys := fun t ht => (hmachine.1.heap.tables t ht).keys
    room := fun htwo => by
      have hlimit := hmachine.2.stack
      rw [hmachine.2.limits]
      omega }

/-- **Hashes of strings are right in a running machine.** However the program was read from a file
or assembled, and in every state of a run of it, the pool has the hash of each text, and what any
string on the stack, in a variable or in a container keeps as its hash is nothing or the hash of its
text. So two such strings are equal exactly when their texts are, and a test for equality of the top
two values says so. A table has a string as a key exactly where it has its text, two strings are
found at one place exactly when their texts are equal, and reading with either then gives the same.
-/
theorem string_hashes_right {p : Program} (hp : p.Issued) (config : Config) (sink : Sink)
    (n : Nat) :
    let m := Run.machineOf (Run.advance ⟨.start config p, sink⟩ n)
    (∀ e ∈ p.strings, e.hash = hashText e.text) ∧
    (∀ s, m.Holds (.string s) → ∀ kept, s.Keeps kept →
      kept = none ∨ kept = some (hashText s.text)) ∧
    (∀ s t, m.Holds (.string s) → m.Holds (.string t) →
      (m.heap.equals (.string s) (.string t) = true ↔ s.text = t.text) ∧
      (∀ u ∈ m.heap.tables, ∀ place, u.position? (.string s) = some place →
        (u.position? (.string t) = some place ↔ s.text = t.text)) ∧
      (s.text = t.text →
        ∀ container, m.heap.get container (.string s) = m.heap.get container (.string t))) ∧
    (∀ s, m.Holds (.string s) → ∀ u ∈ m.heap.tables,
      u.position? (.string s) = u.entries.findIdx? fun e => e.key.isText s.text) ∧
    ∀ (i : Instruction) (rest : List Value) (s t : SharedString), i.opcode = .eq →
      m.stack.toList = rest ++ [.string s, .string t] →
      ∃ m', m.execute i = .ok .next m' ∧
        m'.stack.toList = rest ++ [.bool (decide (s.text = t.text))] := by
  intro m
  have hm : m.RightlyHashed := Run.rightlyHashed_advance hp.rightlyHashed config sink n
  have hequals {s t : SharedString} (hs : m.Holds (.string s)) (ht : m.Holds (.string t)) :
      m.heap.equals (.string s) (.string t) = decide (s.text = t.text) := by
    rw [Heap.equals, Heap.equalsIn]
    exact Scalar.equals_string (hm.holds s hs) (hm.holds t ht)
  refine ⟨hp.rightlyHashed, fun s hs kept hkept => hkept.eq (hm.holds s hs), ?_, ?_, ?_⟩
  · intro s t hs ht
    refine ⟨by rw [hequals hs ht, decide_eq_true_eq], fun u hu place hplace => ?_, ?_⟩
    · exact Table.position?_string_iff (hm.keys u hu) (hm.holds s hs) (hm.holds t ht) hplace
    · intro htext
      have hhash : s.hash = t.hash := by rw [hm.holds s hs, hm.holds t ht, htext]
      exact m.heap.get_string_congr htext hhash
  · intro s hs u hu
    exact Table.position?_string (hm.keys u hu) (hm.holds s hs)
  · intro i rest s t hop hstack
    have hmem {v : Value} (hv : v ∈ [.string s, .string t]) : v ∈ m.stack := by
      rw [← Array.mem_toList_iff, hstack]
      exact List.mem_append_right rest hv
    have hsize : m.stack.size = rest.length + 2 := by
      rw [← Array.length_toList, hstack, List.length_append]
      rfl
    have hroom := hm.room (by omega)
    rw [← hequals (.inl (hmem (by simp))) (.inl (hmem (by simp)))]
    exact Machine.execute_eq hop hstack (by omega)

/-- Two texts of the pool are joined and compared with a third one. The join has no hash of its own,
and the string of the pool has one. -/
theorem join_equals_pooled :
    let p : Program := {
      code := #[0x05, 0, 0, 0, 0, 0x05, 1, 0, 0, 0, 0x38, 0x05, 2, 0, 0, 0, 0x3d]
      strings := #[.ofText "a", .ofText "b", .ofText "ab"] }
    let m := Run.machineOf (Run.advance ⟨.start {} p, {}⟩ 4)
    p.Issued ∧
      m.stack.toList = [.nil, .string ⟨"ab", none, 2⟩, .string ⟨"ab", some (hashText "ab"), 3⟩] ∧
      ∃ m', m.execute ⟨16, .eq, .none⟩ = .ok .next m' ∧ m'.stack.toList = [.nil, .bool true] := by
  intro p m
  have hp : p.Issued := Or.inl ⟨p.encode, by decide +kernel⟩
  have hstack : m.stack.toList =
      [.nil] ++ [.string ⟨"ab", none, 2⟩, .string ⟨"ab", some (hashText "ab"), 3⟩] := by
    decide +kernel
  obtain ⟨-, -, -, -, hequal⟩ := string_hashes_right hp {} {} 4
  -- The state is not computed once more where the test for equality is applied to it.
  have hm : m = Run.machineOf (Run.advance ⟨.start {} p, {}⟩ 4) := rfl
  clear_value m
  rw [← hm] at hequal
  obtain ⟨m', hrun, hstack'⟩ := hequal ⟨16, .eq, .none⟩ _ _ _ rfl hstack
  refine ⟨hp, hstack, m', hrun, ?_⟩
  rw [hstack', decide_eq_true rfl]
  rfl

end StackMachine
