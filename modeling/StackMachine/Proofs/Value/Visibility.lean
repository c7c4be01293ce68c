import StackMachine.Machine.Run
import StackMachine.Proofs.Machine.QuotedKeys

/-!
# What is shown of a heap

Two heaps show the same when their arrays have the same items and their tables the same public
entries, in the same order. Entries that are not public, prototypes and what may be written do not
matter. A program that knows a key can tell such heaps apart, but no text does
(`hidden_entries_never_show`): neither that of a value, nor a line of the trace, nor a key that an
error quotes.

The induction is along the rendering in one heap. The containers inside of which a value is rendered
are those on the way to it through what is shown, so both heaps open the same, and a container that
is met again on such a way is met again in both.
-/

namespace StackMachine

/-! ## Heaps that show the same -/

/-- What is shown of an entry. -/
def Entry.shown (e : Entry) : Scalar × Value := (e.key, e.value)

/-- A value without the identity of a string. -/
def Value.withoutIdentity : Value → Value
  | string s => .string { s with id := 0 }
  | v => v

namespace Heap

variable {h h' : Heap}

/-- The heaps have the same containers, the arrays the same items and the tables the same public
entries. -/
structure ShowsAs (h h' : Heap) : Prop where
  arrays : h.arrays = h'.arrays
  tables : h.tables.size = h'.tables.size
  publicEntries : ∀ id, (h.tableAt id).publicEntries.map Entry.shown =
    (h'.tableAt id).publicEntries.map Entry.shown

/-- Making a string shows nothing. -/
theorem ShowsAs.newString (hshows : h.ShowsAs h') (text text' : String) :
    Heap.ShowsAs (h.newString text).2 (h'.newString text').2 where
  arrays := hshows.arrays
  tables := hshows.tables
  publicEntries := hshows.publicEntries

/-- The parts of a container that are shown are the same. -/
theorem ShowsAs.shown (hshows : h.ShowsAs h') (r : Ref) : h.shown r = h'.shown r := by
  cases r with
  | array id => simp only [Heap.shown, items, hshows.arrays]
  | table id =>
    have hparts (t : Table) :
        t.publicEntries.map (fun e => (e.key.quotedText ++ ": ", e.value)) =
          (t.publicEntries.map Entry.shown).map
            fun part => (part.1.quotedText ++ ": ", part.2) := by
      rw [List.map_map]
      rfl
    rw [Heap.shown, Heap.shown, hparts, hparts, hshows.publicEntries]

/-- **A value has the same text** inside the same containers. -/
theorem ShowsAs.renderIn (hshows : h.ShowsAs h') (opened : List Ref) (v : Value) :
    h.renderIn opened v = h'.renderIn opened v := by
  induction opened, v using renderIn.induct h with
  | case1 opened s hempty | case2 opened s hempty => rw [Heap.renderIn, Heap.renderIn]
  | case3 opened r hr => rw [Heap.renderIn, dif_pos hr, Heap.renderIn, dif_pos hr]
  | case4 opened r hr ih =>
    rw [renderIn_ref h hr, renderIn_ref h' hr, ← hshows.shown]
    exact congrArg (r.bracketed <| ", ".intercalate ·)
      (List.map_congr_left fun part hpart => congrArg (part.1 ++ ·) (ih part.1 part.2 hpart))

/-- The identity of a string is not shown either. -/
theorem renderIn_withoutIdentity (h : Heap) (opened : List Ref) (v : Value) :
    h.renderIn opened v.withoutIdentity = h.renderIn opened v := by
  unfold Value.withoutIdentity
  split
  · rw [renderIn, renderIn]
    rfl
  · rfl

theorem ShowsAs.renderIn_of_eq (hshows : h.ShowsAs h') (opened : List Ref) {v v' : Value}
    (hv : v.withoutIdentity = v'.withoutIdentity) :
    h.renderIn opened v = h'.renderIn opened v' := by
  rw [hshows.renderIn, ← renderIn_withoutIdentity, hv, renderIn_withoutIdentity]

end Heap

/-! ## Machines that show the same -/

namespace Machine

variable {α β : Type} {m m' : Machine} {v v' : Value}

/-- The machines differ at most in what their heaps do not show and in the identities of the strings
on their stacks. -/
structure ShowsAs (m m' : Machine) : Prop where
  rest : { m with stack := m'.stack, heap := m'.heap } = m'
  stack : m.stack.map Value.withoutIdentity = m'.stack.map Value.withoutIdentity
  heap : m.heap.ShowsAs m'.heap

/-- Two computations end in the same way, with machines that show the same. -/
inductive EndAlike : EStateM.Result Fault Machine α → EStateM.Result Fault Machine α → Prop
  | ok (a : α) {n n' : Machine} (h : n.ShowsAs n') : EndAlike (.ok a n) (.ok a n')
  | error (why : Fault) {n n' : Machine} (h : n.ShowsAs n') :
      EndAlike (.error why n) (.error why n')

theorem EndAlike.andThen {x x' : Exec α} (h : EndAlike (x m) (x' m')) (b : β) :
    EndAlike ((do let _ ← x; pure b : Exec β) m) ((do let _ ← x'; pure b : Exec β) m') := by
  generalize hx : x m = result, hx' : x' m' = result' at h
  cases h with
  | ok a h =>
    rw [bind_of_ok hx, bind_of_ok hx']
    exact .ok b h
  | error why h =>
    rw [bind_of_error hx, bind_of_error hx']
    exact .error why h

theorem ShowsAs.config (h : m.ShowsAs m') : m.config = m'.config := by
  rw [← h.rest]

theorem ShowsAs.size_stack (h : m.ShowsAs m') : m.stack.size = m'.stack.size := by
  simpa only [Array.size_map] using congrArg Array.size h.stack

/-- The values at the tops of the stacks. -/
theorem ShowsAs.back? (h : m.ShowsAs m') :
    m.stack.back?.map Value.withoutIdentity = m'.stack.back?.map Value.withoutIdentity := by
  rw [← Array.back?_map, ← Array.back?_map, h.stack]

theorem endAlike_push (h : m.ShowsAs m') (hv : v.withoutIdentity = v'.withoutIdentity) :
    EndAlike (push v m) (push v' m') := by
  unfold push
  rw [h.config, h.size_stack]
  split
  · exact .error _ h
  · refine .ok () ⟨?_, ?_, h.heap⟩
    · rw [← h.rest]
    · simp only [Array.map_push, h.stack, hv]

/-- **What INSPECT pushes**: the text of the value that it takes off. -/
theorem inspect_eq_push (htop : m.stack.back? = some v) :
    inspect m = push (.string { text := m.heap.render v, id := m.heap.stringCount })
      { m with stack := m.stack.pop, pristine := m.pristine && m.stack.size != 1
               heap := { m.heap with stringCount := m.heap.stringCount + 1 } } := by
  have hpop : pop m = .ok v { m with
      stack := m.stack.pop, pristine := m.pristine && m.stack.size != 1 } := by
    rw [pop, htop]
  rw [inspect, bind_of_ok hpop]
  rfl

theorem inspect_eq_error (htop : m.stack.back? = none) :
    inspect m = .error .stackUnderflow m := by
  have hpop : pop m = .error .stackUnderflow m := by
    rw [pop, htop]
  rw [inspect, bind_of_error hpop]

/-- **INSPECT shows nothing else.** -/
theorem endAlike_inspect (h : m.ShowsAs m') : EndAlike (inspect m) (inspect m') := by
  have hback := h.back?
  cases htop : m.stack.back? with
  | none =>
    rw [htop, Option.map_none, eq_comm, Option.map_eq_none_iff] at hback
    rw [inspect_eq_error htop, inspect_eq_error hback]
    exact .error _ h
  | some v =>
    rw [htop, Option.map_some, eq_comm, Option.map_eq_some_iff] at hback
    obtain ⟨v', htop', hv⟩ := hback
    rw [inspect_eq_push htop, inspect_eq_push htop']
    refine endAlike_push ⟨?_, ?_, h.heap.newString "" ""⟩ ?_
    · rw [← h.rest, ← h.size_stack]
    · rw [Array.map_pop, Array.map_pop, h.stack]
    · rw [Heap.render, h.heap.renderIn_of_eq [] hv.symm]
      rfl

/-- **The line of the trace** that shows the stack. -/
theorem ShowsAs.stackLine (h : m.ShowsAs m') : m.stackLine = m'.stackLine := by
  have hlines : m.stack.toList.map (m.heap.renderIn [.array m.heap.arrays.size]) =
      m'.stack.toList.map (m'.heap.renderIn [.array m'.heap.arrays.size]) := by
    have hstack : m.stack.toList.map Value.withoutIdentity =
        m'.stack.toList.map Value.withoutIdentity := by
      rw [← Array.toList_map, ← Array.toList_map, h.stack]
    have hvalues (m : Machine) : m.stack.toList.map (m.heap.renderIn [.array m.heap.arrays.size]) =
        (m.stack.toList.map Value.withoutIdentity).map
          (m.heap.renderIn [.array m.heap.arrays.size]) := by
      rw [List.map_map]
      exact List.map_congr_left fun v _ => (m.heap.renderIn_withoutIdentity _ v).symm
    rw [hvalues m, hvalues m', hstack, h.heap.arrays]
    exact List.map_congr_left fun v _ => h.heap.renderIn _ v
  rw [Machine.stackLine, Machine.stackLine, hlines]

/-- The operand that is a key. -/
theorem ShowsAs.keyOperand? (h : m.ShowsAs m') (op : Opcode) :
    (keyOperand? op m.stack).map Value.withoutIdentity =
      (keyOperand? op m'.stack).map Value.withoutIdentity := by
  unfold Machine.keyOperand?
  split
  · exact h.back?
  · exact h.back?
  · rw [← Array.back?_map, ← Array.back?_map, Array.map_pop, Array.map_pop, h.stack]
  · rfl

/-- **The key that a fault quotes.** -/
theorem ShowsAs.quoted_eq (h : m.ShowsAs m') {i : Instruction} {why why' : Fault} {n n' : Machine}
    (hfails : execute i m = .error why n) (hfails' : execute i m' = .error why' n')
    {text text' : String} (htext : why.quoted? = some text) (htext' : why'.quoted? = some text') :
    text = text' := by
  obtain ⟨key, hkey, rfl⟩ := execute_quotes i m why n hfails text htext
  obtain ⟨key', hkey', rfl⟩ := execute_quotes i m' why' n' hfails' text' htext'
  have hkeys := h.keyOperand? i.opcode
  rw [hkey, hkey'] at hkeys
  exact h.heap.renderIn_of_eq [] (Option.some.inj hkeys)

end Machine

open Machine (EndAlike)

/-- **Hidden entries never show.** In two heaps with the same containers, in which arrays have the
same items and tables the same public entries, every value has the same text, and a failed access
by a key quotes the same text of the key if it quotes any. Machines with such heaps and the same
values on their stacks write the same line of the trace, INSPECT ends in the same way for both and
leaves such machines again, and an instruction that quotes a key for both quotes the same. -/
theorem hidden_entries_never_show :
    (∀ h h' : Heap, h.ShowsAs h' →
      (∀ v, h.render v = h'.render v) ∧
      ∀ key e e' text text', h.Fails key e → h'.Fails key e' →
        e.quoted? = some text → e'.quoted? = some text' → text = text') ∧
    ∀ m m' : Machine, m.ShowsAs m' →
      m.stackLine = m'.stackLine ∧
      (∀ i, i.opcode = .inspect → EndAlike (Machine.execute i m) (Machine.execute i m')) ∧
      ∀ i why why' n n' text text',
        Machine.execute i m = .error why n → Machine.execute i m' = .error why' n' →
        why.quoted? = some text → why'.quoted? = some text' → text = text' := by
  refine ⟨fun h h' hshows => ⟨hshows.renderIn [], ?_⟩,
    fun m m' hmachine => ⟨hmachine.stackLine, ?_, ?_⟩⟩
  · intro key e e' text text' hfails hfails' htext htext'
    rw [hfails.quotes htext, hfails'.quotes htext']
    exact hshows.renderIn [] key
  · rintro ⟨offset, op, arg⟩ rfl
    exact (Machine.endAlike_inspect hmachine).andThen Flow.next
  · intro i why why' n n' text text' hfails hfails' htext htext'
    exact hmachine.quoted_eq hfails hfails' htext htext'

/-- An array with a table that has the array again, in two heaps. The table hides another table,
which is also its prototype, in the one, and a number in the other, and only in the one may it be
written. A lookup tells the heaps apart; what is shown does not. -/
theorem hidden_table_never_shows :
    let key (text : String) (id : Nat) : Scalar := .string { text, id }
    let h : Heap :=
      { arrays := #[#[.table 0, .array 0]]
        tables := #[
          { entries := [⟨key "self" 0, .array 0, ⟨true, true⟩⟩,
              ⟨key "secret" 1, .table 1, ⟨false, true⟩⟩]
            prototype := some (.table 1) },
          { entries := [⟨key "code" 2, .number .zero, ⟨true, true⟩⟩] }] }
    let h' : Heap :=
      { arrays := #[#[.table 0, .array 0]]
        tables := #[
          { entries := [⟨key "secret" 1, .number .zero, ⟨false, false⟩⟩,
              ⟨key "self" 0, .array 0, ⟨true, false⟩⟩] },
          { entries := [⟨key "code" 2, .number .zero, ⟨true, false⟩⟩] }]
        stringCount := 5 }
    let m : Machine := { heap := h, stack := #[.array 0, .scalar (key "s" 3)] }
    let m' : Machine := { heap := h', stack := #[.array 0, .scalar (key "s" 4)] }
    (h.ShowsAs h' ∧ m.ShowsAs m' ∧
      h.get (.table 0) (.scalar (key "secret" 1)) ≠ h'.get (.table 0) (.scalar (key "secret" 1))) ∧
      (∀ v, h.render v = h'.render v) ∧ m.stackLine = m'.stackLine ∧
      EndAlike (Machine.execute ⟨0, .inspect, .none⟩ m)
        (Machine.execute ⟨0, .inspect, .none⟩ m') := by
  intro key h h' m m'
  have hshows : h.ShowsAs h' := by
    refine ⟨rfl, rfl, ?_⟩
    rintro (_ | _ | id) <;> rfl
  have hmachine : m.ShowsAs m' := ⟨rfl, by simp [m, m', key, Value.withoutIdentity], hshows⟩
  obtain ⟨hheaps, hmachines⟩ := hidden_entries_never_show
  obtain ⟨hrender, -⟩ := hheaps h h' hshows
  obtain ⟨hline, hinspect, -⟩ := hmachines m m' hmachine
  exact ⟨⟨hshows, hmachine, by decide +kernel⟩, hrender, hline, hinspect _ rfl⟩

end StackMachine
