import StackMachine.Proofs.Prelude
import StackMachine.Value.Walk

/-!
# How deep walks nest

Values may be cyclic, so nothing about a value says how deep the calls that render or compare it may
nest. What gets smaller is the number of containers, or of pairs of them, that are not in the list
which the calls share: a call that is nested has one more in the list than the call around it. So a
heap with `n` containers is rendered by at most `n + 1` nested calls and compared by at most
`n * n + 1` (`cycle_guards_bound_nesting`), nothing is in the list twice, and every call gives the
list back as it got it, which is why the functions that hand the list down give the same.
-/

namespace StackMachine

namespace Walk

variable {σ α β : Type} {x : Walk σ α} {f : α → Walk σ β} {active : List σ} {s s' : State σ}

theorem bind_eq_some {b : β} (h : (x >>= f) s = some (b, s')) :
    ∃ a t, x s = some (a, t) ∧ f a t = some (b, s') := by
  obtain ⟨⟨a, t⟩, hx, hf⟩ := Option.bind_eq_some_iff.1 h
  exact ⟨a, t, hx, hf⟩

theorem bind_of_some {a : α} {t : State σ} (h : x s = some (a, t)) : (x >>= f) s = f a t := by
  show (x s).bind _ = f a t
  rw [h]
  rfl

/-! ## What is entered and left -/

section

variable [DecidableEq σ] {p : σ} {again : α}

theorem inside_of_mem (h : p ∈ s.active) : inside p again x s = some (again, s) := by
  have henter : enter p s = some (false, s) := by
    show (if p ∈ s.active then _ else _ : Walk σ Bool) s = _
    rw [if_pos h]
    rfl
  rw [inside, bind_of_some henter]
  rfl

theorem inside_of_notMem (h : p ∉ s.active) :
    inside p again x s = (x (s.become (p :: s.active))).map fun r =>
      (r.1, r.2.become r.2.active.tail) := by
  have henter : enter p s = some (true, s.become (p :: s.active)) := by
    show (if p ∈ s.active then _ else _ : Walk σ Bool) s = _
    rw [if_neg h]
    rfl
  rw [inside, bind_of_some henter]
  show (x (s.become (p :: s.active))).bind _ = _
  cases x (s.become (p :: s.active)) <;> rfl

end

/-! ## Lists that are given back -/

/-- Nothing is in the list twice, nor ever was. -/
structure State.Distinct (s : State σ) : Prop where
  active : s.active.Nodup
  past : ∀ list ∈ s.past, list.Nodup

theorem distinct_empty : State.Distinct ({} : State σ) :=
  ⟨List.nodup_nil, List.forall_mem_nil _⟩

theorem State.Distinct.become (hs : s.Distinct) (hactive : active.Nodup) :
    (s.become active).Distinct where
  active := hactive
  past := List.forall_mem_cons.2 ⟨hactive, hs.past⟩

/-- However a computation ends, it gives the list back as it got it, and nothing was in the list
twice meanwhile. -/
def Restores (x : Walk σ α) : Prop :=
  ∀ s a s', x s = some (a, s') → s'.active = s.active ∧ (s.Distinct → s'.Distinct)

theorem Restores.pure (a : α) : Restores (Pure.pure a : Walk σ α) := by
  rintro s _ _ ⟨⟩
  exact ⟨rfl, id⟩

theorem Restores.failure : Restores (failure : Walk σ α) := nofun

theorem Restores.idle : Restores (idle : Walk σ Bool) := by
  rintro s _ _ ⟨⟩
  exact ⟨rfl, id⟩

theorem Restores.bind (hx : Restores x) (hf : ∀ a, Restores (f a)) : Restores (x >>= f) := by
  intro s b s' h
  obtain ⟨a, t, hxs, hft⟩ := bind_eq_some h
  obtain ⟨hactive, hdistinct⟩ := hx s a t hxs
  obtain ⟨hactive', hdistinct'⟩ := hf a t b s' hft
  exact ⟨hactive'.trans hactive, hdistinct' ∘ hdistinct⟩

theorem Restores.mapM {xs : List β} {g : β → Walk σ α} (hg : ∀ y ∈ xs, Restores (g y)) :
    Restores (xs.mapM g) := by
  induction xs with
  | nil => exact Restores.pure []
  | cons y ys ih =>
    obtain ⟨hy, hys⟩ := List.forall_mem_cons.1 hg
    rw [List.mapM_cons]
    exact hy.bind fun _ => (ih hys).bind fun _ => Restores.pure _

theorem Restores.allM {xs : List β} {g : β → Walk σ Bool} (hg : ∀ y ∈ xs, Restores (g y)) :
    Restores (xs.allM g) := by
  induction xs with
  | nil => exact Restores.pure true
  | cons y ys ih =>
    obtain ⟨hy, hys⟩ := List.forall_mem_cons.1 hg
    refine hy.bind fun same => ?_
    cases same with
    | true => exact ih hys
    | false => exact Restores.pure false

/-- **What is entered is left**, on every way out. -/
theorem Restores.inside [DecidableEq σ] {p : σ} {again : α} (hx : Restores x) :
    Restores (inside p again x) := by
  intro s a s' h
  by_cases hp : p ∈ s.active
  · rw [inside_of_mem hp] at h
    cases h
    exact ⟨rfl, id⟩
  · rw [inside_of_notMem hp, Option.map_eq_some_iff] at h
    obtain ⟨⟨b, t⟩, hrun, heq⟩ := h
    cases heq
    obtain ⟨hactive, hdistinct⟩ := hx _ b t hrun
    have htail : t.active.tail = s.active := by
      rw [hactive]
      rfl
    refine ⟨htail, fun hs => ?_⟩
    have ht := hdistinct (hs.become (List.nodup_cons.2 ⟨hp, hs.active⟩))
    exact ht.become (ht.active.sublist (List.tail_sublist _))

/-! ## Results -/

/-- Where this is being walked, a computation gives the result and the list as it was. -/
def Gives (x : Walk σ α) (active : List σ) (a : α) : Prop :=
  ∀ past, ∃ past', x ⟨active, past⟩ = some (a, ⟨active, past'⟩)

theorem Gives.pure (a : α) : Gives (Pure.pure a) active a :=
  fun past => ⟨past, rfl⟩

theorem Gives.bind {a : α} {b : β} (hx : Gives x active a) (hf : Gives (f a) active b) :
    Gives (x >>= f) active b := by
  intro past
  obtain ⟨between, hrun⟩ := hx past
  obtain ⟨past', hrun'⟩ := hf between
  exact ⟨past', (bind_of_some hrun).trans hrun'⟩

theorem Gives.mapM {xs : List β} {g : β → Walk σ α} {result : β → α}
    (hg : ∀ y ∈ xs, Gives (g y) active (result y)) : Gives (xs.mapM g) active (xs.map result) := by
  induction xs with
  | nil => exact Gives.pure []
  | cons y ys ih =>
    obtain ⟨hy, hys⟩ := List.forall_mem_cons.1 hg
    rw [List.mapM_cons]
    exact hy.bind ((ih hys).bind (Gives.pure _))

theorem Gives.allM {xs : List β} {g : β → Walk σ Bool} {result : β → Bool}
    (hg : ∀ y ∈ xs, Gives (g y) active (result y)) : Gives (xs.allM g) active (xs.all result) := by
  induction xs with
  | nil => exact Gives.pure true
  | cons y ys ih =>
    obtain ⟨hy, hys⟩ := List.forall_mem_cons.1 hg
    refine Gives.bind hy ?_
    rw [List.all_cons]
    cases result y with
    | true => exact ih hys
    | false => exact Gives.pure false

/-- A result inside of what is entered, which is the other one where it is being walked already. -/
theorem Gives.inside [DecidableEq σ] {p : σ} {a again : α} (hagain : p ∈ active → a = again)
    (hx : p ∉ active → Gives x (p :: active) a) : Gives (inside p again x) active a := by
  intro past
  by_cases hp : p ∈ active
  · rw [hagain hp]
    exact ⟨past, inside_of_mem hp⟩
  · obtain ⟨past', hrun⟩ := hx hp ((p :: active) :: past)
    refine ⟨active :: past', ?_⟩
    rw [inside_of_notMem hp]
    exact congrArg (Option.map _) hrun

end Walk

namespace Heap

open Walk (Restores Gives)

variable {h : Heap}

/-! ## Rendering -/

theorem restores_partsInto {call : Value → Walk Ref String} (hcall : ∀ v, Restores (call v))
    (r : Ref) : Restores (h.partsInto call r) := by
  cases r with
  | array id => exact Restores.mapM fun v _ => hcall v
  | table id =>
    exact Restores.mapM fun e _ =>
      (hcall _).bind fun _ => (hcall _).bind fun _ => Restores.pure _

/-- **Every call that renders** gives the list of open containers back. -/
theorem restores_renderInto (h : Heap) (frames : Nat) (v : Value) :
    Restores (h.renderInto frames v) := by
  induction frames generalizing v with
  | zero => exact Restores.failure
  | succ frames ih =>
    cases v with
    | scalar s => exact Restores.idle.bind fun _ => Restores.pure _
    | ref r =>
      exact Restores.inside ((restores_partsInto ih r).bind fun _ => Restores.pure _)

/-- The texts of parts that were rendered inside of open containers. -/
theorem gives_partsInto {call : Value → Walk Ref String} {r : Ref} {opened : List Ref}
    (hopened : opened ≠ [])
    (hcall : r ∈ h.refs → ∀ v, Gives (call v) opened (h.renderIn opened v)) :
    Gives (h.partsInto call r) opened
      ((h.shown r).map fun part => part.1 ++ h.renderIn opened part.2) := by
  cases r with
  | array id =>
    have htexts : (h.shown (.array id)).map (fun part => part.1 ++ h.renderIn opened part.2) =
        (h.items id).toList.map (h.renderIn opened) := by
      rw [shown, List.map_map]
      exact List.map_congr_left fun v _ => String.empty_append
    rw [htexts]
    exact Gives.mapM fun v hv => hcall (mem_refs_of_shown (List.mem_map_of_mem hv)) v
  | table id =>
    have htexts : (h.shown (.table id)).map (fun part => part.1 ++ h.renderIn opened part.2) =
        (h.tableAt id).publicEntries.map fun e =>
          h.renderIn opened (.scalar e.key) ++ ": " ++ h.renderIn opened e.value := by
      rw [shown, List.map_map]
      refine List.map_congr_left fun e _ => ?_
      rw [renderIn, if_neg (by simpa using hopened)]
      rfl
    rw [htexts]
    refine Gives.mapM fun e he => ?_
    have hcalls := hcall (mem_refs_of_shown (List.mem_map_of_mem he))
    exact (hcalls _).bind ((hcalls _).bind (Gives.pure _))

/-- **So many calls suffice as containers are not open**, and one for the value itself. -/
theorem gives_renderInto {frames : Nat} {opened : List Ref}
    (hframes : h.closedCount opened < frames) (v : Value) :
    Gives (h.renderInto frames v) opened (h.renderIn opened v) := by
  -- A call that is nested has one call fewer left and one container more open.
  induction frames generalizing opened v with
  | zero => exact absurd hframes (Nat.not_lt_zero _)
  | succ frames ih =>
    cases v with
    | scalar s =>
      rw [renderIn]
      exact fun past => ⟨past, rfl⟩
    | ref r =>
      refine Gives.inside (fun hr => ?_) fun hr => ?_
      · rw [renderIn, dif_pos hr]
      · rw [renderIn_ref h hr]
        refine Gives.bind (gives_partsInto (List.cons_ne_nil _ _) fun hrefs w => ?_) (Gives.pure _)
        have hless := closedCount_cons_lt hrefs hr
        exact ih (by omega) w

/-! ## Equality -/

theorem restores_sameInto {call : Value → Value → Walk (Ref × Ref) Bool}
    (hcall : ∀ a b, Restores (call a b)) (r s : Ref) : Restores (h.sameInto call r s) := by
  unfold sameInto
  split
  · split
    · exact Restores.allM fun pair _ => hcall pair.1 pair.2
    · exact Restores.pure false
  · split
    · refine Restores.allM fun e _ => ?_
      split
      · exact hcall _ _
      · exact Restores.pure false
    · exact Restores.pure false
  · exact Restores.pure false

/-- **Every call that compares** gives the list of pairs back. -/
theorem restores_equalsInto (h : Heap) (frames : Nat) (a b : Value) :
    Restores (h.equalsInto frames a b) := by
  induction frames generalizing a b with
  | zero => exact Restores.failure
  | succ frames ih =>
    unfold equalsInto
    split
    · contradiction
    · exact Restores.pure _
    · split
      · exact Restores.pure true
      · split
        · next hframes _ _ =>
          obtain rfl := Nat.succ.inj hframes
          exact Restores.inside (restores_sameInto ih _ _)
        · exact Restores.pure false
    · exact Restores.pure false

/-- Looking for everything first and testing it then, or both member by member, is the same. -/
theorem any_all_mapM {α β : Type} (f : α → Option β) (test : β → Bool) (xs : List α) :
    (xs.mapM f).any (·.all test) = xs.all fun x => (f x).any test := by
  induction xs with
  | nil => rfl
  | cons x xs ih =>
    rw [List.mapM_cons, List.all_cons, ← ih]
    cases f x with
    | none => rfl
    | some y => cases xs.mapM f <;> simp

theorem table_mem_refs_of_entry {id : Nat} {e : Entry} (he : e ∈ (h.tableAt id).entries) :
    Ref.table id ∈ h.refs := by
  by_contra hid
  rw [tableAt_eq_empty (mt table_mem_refs hid)] at he
  contradiction

/-- What is found when the parts of two containers are compared, pair by pair. -/
theorem gives_sameInto {call : Value → Value → Walk (Ref × Ref) Bool} {r s : Ref}
    {active : List (Ref × Ref)}
    (hcall : (r, s) ∈ h.refPairs → ∀ a b, Gives (call a b) active (h.equalsIn active a b)) :
    Gives (h.sameInto call r s) active
      ((h.paired? r s).any fun pairs => pairs.all fun pair =>
        h.equalsIn active pair.1 pair.2) := by
  cases r with
  | array i =>
    cases s with
    | array j =>
      simp only [sameInto, paired?]
      split
      · next hsize =>
        refine Gives.allM fun pair hpair => hcall (mem_refPairs.2 ?_) _ _
        exact mem_refs_of_paired? (by rw [paired?, if_pos hsize]) hpair
      · exact Gives.pure false
    | table j => exact Gives.pure false
  | table i =>
    cases s with
    | array j => exact Gives.pure false
    | table j =>
      simp only [sameInto, paired?]
      split
      · next hlength =>
        rw [any_all_mapM]
        refine Gives.allM fun e he => ?_
        -- The second table has as many entries as the first, so it is one of the heap too.
        obtain ⟨o', ho'⟩ := List.exists_mem_of_length_pos (hlength ▸ List.length_pos_of_mem he)
        have hpairs := mem_refPairs.2 ⟨table_mem_refs_of_entry he, table_mem_refs_of_entry ho'⟩
        cases (h.tableAt j).find? e.key with
        | none => exact Gives.pure false
        | some o => exact hcall hpairs _ _
      · exact Gives.pure false

theorem paired?_eq_none {r s : Ref} (htag : r.tag ≠ s.tag) : h.paired? r s = none := by
  cases r <;> cases s <;> first | rfl | exact absurd rfl htag

/-- **So many calls suffice as pairs are not being compared**, and one for the values themselves.
Only containers of one kind are ever compared part by part. -/
theorem gives_equalsInto {frames : Nat} {active : List (Ref × Ref)}
    (hframes : h.freshCount active < frames) (hkind : ∀ p ∈ active, p.1.tag = p.2.tag)
    (a b : Value) : Gives (h.equalsInto frames a b) active (h.equalsIn active a b) := by
  induction frames generalizing active a b with
  | zero => exact absurd hframes (Nat.not_lt_zero _)
  | succ frames ih =>
    cases a with
    | scalar s =>
      cases b with
      | scalar t =>
        rw [equalsIn]
        exact Gives.pure _
      | ref t =>
        rw [equalsIn]
        exact Gives.pure _
        all_goals simp
    | ref r =>
      cases b with
      | scalar t =>
        rw [equalsIn]
        exact Gives.pure _
        all_goals simp
      | ref s =>
        unfold equalsInto
        split
        · next heq =>
          rw [equalsIn, if_pos heq]
          exact Gives.pure true
        · next hne =>
          split
          · next htag =>
            refine Gives.inside (fun hp => ?_) fun hp => ?_
            · rw [equalsIn, if_neg hne, dif_pos hp]
            · rw [equalsIn_ref hne hp]
              refine gives_sameInto fun hpairs => ?_
              have hless := freshCount_cons_lt hpairs hp
              exact ih (by omega) (List.forall_mem_cons.2 ⟨htag, hkind⟩)
          · next htag =>
            -- A pair of two kinds is not in the list, where it would count as equal.
            have hp : (r, s) ∉ active := fun hp => htag (hkind _ hp)
            rw [equalsIn_ref hne hp, paired?_eq_none htag]
            exact Gives.pure false

/-! ## Both -/

theorem length_refs (h : Heap) : h.refs.length = h.arrays.size + h.tables.size := by
  simp [refs]

theorem length_refPairs (h : Heap) : h.refPairs.length = h.refs.length * h.refs.length := by
  simp [refPairs, List.length_flatMap]

/-- **Cycle guards bound how deep calls nest.** In a heap with `n` containers, shared and cyclic as
they may be, `n + 1` nested calls render every value and `n * n + 1` compare every two, with the
results of the functions that hand their list down, and neither a container nor a pair is in the
shared list twice at any time. Every call that returns, wherever it is made and however many calls
may still be nested, gives the list back as it got it. -/
theorem cycle_guards_bound_nesting (h : Heap) :
    let n := h.arrays.size + h.tables.size
    (∀ frames, n + 1 ≤ frames → ∀ v, ∃ s : Walk.State Ref,
      h.renderInto frames v {} = some (h.render v, s) ∧ ∀ opened ∈ s.past, opened.Nodup) ∧
    (∀ frames v s text s', h.renderInto frames v s = some (text, s') → s'.active = s.active) ∧
    (∀ frames, n * n + 1 ≤ frames → ∀ a b, ∃ s : Walk.State (Ref × Ref),
      h.equalsInto frames a b {} = some (h.equals a b, s) ∧ ∀ active ∈ s.past, active.Nodup) ∧
    (∀ frames a b s same s', h.equalsInto frames a b s = some (same, s') →
      s'.active = s.active) := by
  intro n
  have hn : h.refs.length = n := h.length_refs
  refine ⟨fun frames hframes v => ?_,
    fun frames v s text s' hrun => (h.restores_renderInto frames v s text s' hrun).1,
    fun frames hframes a b => ?_,
    fun frames a b s same s' hrun => (h.restores_equalsInto frames a b s same s' hrun).1⟩
  · have hclosed : h.closedCount [] ≤ n := hn ▸ List.countP_le_length
    obtain ⟨past, hrun⟩ := gives_renderInto (by omega : h.closedCount [] < frames) v []
    obtain ⟨-, hdistinct⟩ := h.restores_renderInto frames v _ _ _ hrun
    exact ⟨_, hrun, (hdistinct Walk.distinct_empty).past⟩
  · have hfresh : h.freshCount [] ≤ n * n := by
      rw [← hn, ← length_refPairs]
      exact List.countP_le_length
    obtain ⟨past, hrun⟩ := gives_equalsInto (by omega : h.freshCount [] < frames)
      (List.forall_mem_nil _) a b []
    obtain ⟨-, hdistinct⟩ := h.restores_equalsInto frames a b _ _ _ hrun
    exact ⟨_, hrun, (hdistinct Walk.distinct_empty).past⟩

/-- Two arrays, each in itself: one call alone does not render the first, and the nested calls find
them equal. -/
theorem self_containing_arrays_end :
    let h : Heap := { arrays := #[#[.array 0], #[.array 1]] }
    h.renderInto 1 (.array 0) {} = none ∧ h.render (.array 0) = "[[...]]" ∧
      h.equals (.array 0) (.array 1) = true := by
  intro h
  obtain ⟨hrender, -, hequals, -⟩ := cycle_guards_bound_nesting h
  obtain ⟨s, hs, -⟩ := hrender 3 le_rfl (.array 0)
  obtain ⟨t, ht, -⟩ := hequals 5 le_rfl (.array 0) (.array 1)
  refine ⟨rfl, ?_, ?_⟩
  · exact Option.some.inj (congrArg (Option.map Prod.fst) hs).symm
  · exact Option.some.inj (congrArg (Option.map Prod.fst) ht).symm

end Heap
end StackMachine
