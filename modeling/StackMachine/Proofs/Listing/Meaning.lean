import StackMachine.Proofs.Assembly.Sealed
import StackMachine.Proofs.Listing.Acceptance

/-!
# What a listing means

The program of a listing is the one that its calls assemble, in the order of the lines. Its code is
read as one instruction for each call that emits one; an operand is what was spelled, and a label is
the offset of the first instruction after its definition, or the end of the code
(`accepted_and_read_as_spelled`).
-/

namespace StackMachine.Listing

open Assembly (performAll_append performAll_append_of_ok)

variable {known : List String} {calls : List Call} {a b : Assembly} {p : Program}

/-! ## Instructions of calls -/

namespace Call

/-- Whether a call emits an instruction. -/
def emits : Call → Bool
  | define _ => false
  | _ => true

/-- The instruction that a call emits: its opcode, and what is passed as its operand. -/
def instruction? (known : List String) : Call → Option (Opcode × Passed)
  | define _ => none
  | emit op => some (op, .nothing)
  | emitWith op imm => some (op, .immediate imm)
  | jump op name => some (op, .label (labelOf known name))

/-- An instruction is what a call asks for, when the program has these strings and `target` says
where labels lead. -/
def ReadAs (strings : Array PoolEntry) (target : String → Nat → Prop) : Call → Instruction → Prop
  | define _, _ => False
  | emit op, i => i.opcode = op ∧ i.argument = .none
  | emitWith op imm, i =>
    i.opcode = op ∧ (Passed.immediate imm).ReadAs strings (fun _ _ => False) i.argument
  | jump op name, i => i.opcode = op ∧ ∃ x, target name x ∧ i.argument = .u64 (UInt64.ofNat x)

end Call

/-- A label leads to the first instruction after its definition, or to the end of the code. -/
def LeadsTo (calls : List Call) (is : List Instruction) (size : Nat) (name : String) (x : Nat) :
    Prop :=
  ∃ before after, calls = before ++ .define name :: after ∧
    x = (is[before.countP Call.emits]?.map Instruction.offset).getD size

theorem referTo_notMem_stepsFrom (known : List String) (calls : List Call) (l : Label) :
    .referTo l ∉ stepsFrom known calls := by
  induction calls generalizing known with
  | nil => simp [stepsFrom]
  | cons call calls ih =>
    rw [stepsFrom, List.mem_append]
    rintro (h | h)
    · cases call with
      | define name | jump op name =>
        rcases List.mem_append.1 h with h | h
        · cases eq_of_mem_mentionSteps h
        · cases List.mem_singleton.1 h
      | emit op | emitWith op imm => cases List.mem_singleton.1 h
    · exact ih _ h

theorem filterMap_mentionSteps (known : List String) (name : String) :
    (mentionSteps known name).filterMap AssemblyStep.instruction? = [] := by
  unfold mentionSteps
  split <;> rfl

/-- The steps of a call ask for its instruction, whatever calls come later. -/
theorem filterMap_steps (known : List String) (call : Call) (calls : List Call) :
    (call.steps known).filterMap AssemblyStep.instruction? =
      (call.instruction? (notedFrom known (call :: calls))).toList := by
  cases call with
  | define name =>
    rw [Call.steps, List.filterMap_append, filterMap_mentionSteps]
    rfl
  | emit op | emitWith op imm => rfl
  | jump op name =>
    have hlabel : labelOf (notedFrom known (.jump op name :: calls)) name = labelOf known name :=
      labelOf_notedFrom known name calls
    rw [Call.steps, List.filterMap_append, filterMap_mentionSteps, Call.instruction?, hlabel]
    rfl

/-- **The steps of calls** ask for the instructions of the calls. -/
theorem filterMap_stepsFrom (known : List String) (calls : List Call) :
    (stepsFrom known calls).filterMap AssemblyStep.instruction? =
      calls.filterMap (Call.instruction? (notedFrom known calls)) := by
  induction calls generalizing known with
  | nil => rfl
  | cons call calls ih =>
    rw [stepsFrom, List.filterMap_append, filterMap_steps known call calls, ih]
    change _ ++ calls.filterMap (Call.instruction? (notedFrom known (call :: calls))) = _
    cases hcall : call.instruction? (notedFrom known (call :: calls)) with
    | none => rw [List.filterMap_cons_none hcall]; rfl
    | some x => rw [List.filterMap_cons_some hcall]; rfl

theorem Call.isSome_instruction? (known : List String) (call : Call) :
    (call.instruction? known).isSome = call.emits := by
  cases call <;> rfl

/-- As many instructions are emitted as calls emit one. -/
theorem length_emittingCalls (h : a.performAll (stepsFrom known calls) = .ok b) :
    (a.emittingCalls (stepsFrom known calls)).length = calls.countP Call.emits := by
  have hmap := congrArg List.length (Assembly.map_emittingCalls h)
  rw [List.length_map, filterMap_stepsFrom, List.length_filterMap_eq_countP] at hmap
  rw [hmap]
  simp only [Call.isSome_instruction?]

/-! ## Where labels lead -/

theorem laidOut_of_performAll {steps : List AssemblyStep}
    (h : Assembly.performAll {} steps = .ok a) : a.LaidOut (Assembly.emittedAll {} steps) := by
  rw [← Assembly.afterAll_of_performAll h]
  exact Assembly.laidOut_afterAll steps

/-- **A label leads to the position of its definition**, where the next instruction stands. -/
theorem leadsTo_addressOf (h : Assembly.performAll {} (stepsFrom [] calls) = .ok a)
    (honce : (definedIn calls).Nodup) (hp : a.finish = .ok p) {name : String}
    (hname : .define name ∈ calls) {is : List Instruction}
    (his : (Assembly.emittingCalls {} (stepsFrom [] calls)).map EmittingCall.position =
      is.map Instruction.offset) :
    LeadsTo calls is p.code.size name (a.addressOf (labelOf (notedFrom [] calls) name)) := by
  obtain ⟨before, after, rfl⟩ := List.append_of_mem hname
  refine ⟨before, after, rfl, ?_⟩
  have hlast : name ∉ definedIn after := by
    rw [definedIn, List.filterMap_append] at honce
    exact (List.nodup_cons.1 honce.of_append_right).1
  obtain ⟨b, hb, haddress⟩ := exists_address? h hlast
  have hlaid := laidOut_of_performAll h
  have hsize : p.code.size = a.position := by rw [hlaid.size_finish hp, hlaid.position]
  rw [stepsFrom_append] at h his
  rw [performAll_append_of_ok hb] at h
  rw [Assembly.emittingCalls_append hb] at his
  -- The instructions before the definition are those of the calls before it.
  have hnext : is[before.countP Call.emits]?.map Instruction.offset =
      (b.emittingCalls (stepsFrom (notedFrom [] before) (.define name :: after))).head?.map
        EmittingCall.position := by
    rw [← List.getElem?_map, ← his, List.map_append, ← length_emittingCalls hb,
      ← List.length_map EmittingCall.position, List.getElem?_append_right (Nat.le_refl _),
      Nat.sub_self, ← List.head?_eq_getElem?, List.head?_map]
  rw [hnext, hsize, (laidOut_of_performAll hb).head?_emittingCalls
    (referTo_notMem_stepsFrom _ _) h]
  exact Assembly.addressOf_of_address? haddress

/-! ## The program of a listing -/

/-- Where labels lead is no matter to immediates. -/
private theorem readAs_immediate {strings : Array PoolEntry} {target other : Label → Nat → Prop}
    {imm : Immediate} {arg : Argument}
    (h : (Passed.immediate imm).ReadAs strings target arg) :
    (Passed.immediate imm).ReadAs strings other arg := by
  cases imm <;> exact h

/-- What is read as a call asked for is read as the call, when its label leads where the address of
the label is. -/
theorem Call.readAs_of_instruction? {strings : Array PoolEntry} {address : Label → Nat}
    {target : String → Nat → Prop} {call : Call} {x : Opcode × Passed} {i : Instruction}
    (hcall : call.instruction? known = some x)
    (htarget : ∀ op name, call = .jump op name → target name (address (labelOf known name)))
    (hop : i.opcode = x.1)
    (harg : x.2.ReadAs strings (fun l y => y = address l) i.argument) :
    call.ReadAs strings target i := by
  cases call with
  | define name => contradiction
  | emit op =>
    obtain rfl := Option.some.inj hcall
    exact ⟨hop, harg⟩
  | emitWith op imm =>
    obtain rfl := Option.some.inj hcall
    exact ⟨hop, readAs_immediate harg⟩
  | jump op name =>
    obtain rfl := Option.some.inj hcall
    obtain ⟨y, rfl, harg⟩ := harg
    exact ⟨hop, _, htarget op name rfl, harg⟩

/-- What is read as calls asked for is read as the calls. -/
theorem forall₂_readAs {strings : Array PoolEntry} {address : Label → Nat}
    {target : String → Nat → Prop} {is : List Instruction}
    (htarget : ∀ op name, .jump op name ∈ calls → target name (address (labelOf known name)))
    (h : List.Forall₂
      (fun (x : Opcode × Passed) i =>
        i.opcode = x.1 ∧ x.2.ReadAs strings (fun l y => y = address l) i.argument)
      (calls.filterMap (Call.instruction? known)) is) :
    List.Forall₂ (Call.ReadAs strings target) (calls.filter Call.emits) is := by
  induction calls generalizing is with
  | nil =>
    cases h
    exact .nil
  | cons call calls ih =>
    have hrest : ∀ op name, .jump op name ∈ calls → target name (address (labelOf known name)) :=
      fun op name hjump => htarget op name (List.mem_cons_of_mem _ hjump)
    have hemits := call.isSome_instruction? known
    cases hcall : call.instruction? known with
    | none =>
      rw [hcall] at hemits
      rw [List.filterMap_cons_none hcall] at h
      rw [List.filter_cons_of_neg (by simp [← hemits])]
      exact ih hrest h
    | some x =>
      rw [hcall] at hemits
      rw [List.filterMap_cons_some hcall] at h
      rw [List.filter_cons_of_pos hemits.symm]
      cases h with
      | cons hi his =>
        refine .cons (call.readAs_of_instruction? hcall ?_ hi.1 hi.2) (ih hrest his)
        rintro op name rfl
        exact htarget op name List.mem_cons_self

/-- **The code of finished calls** is read as the instructions that the calls emit. -/
theorem forall₂_instructions (h : Assembly.performAll {} (stepsFrom [] calls) = .ok a)
    (honce : (definedIn calls).Nodup)
    (hdefined : ∀ op name, .jump op name ∈ calls → .define name ∈ calls)
    (hp : a.finish = .ok p) :
    ∃ is, instructions p.code = is.map .ok ∧
      List.Forall₂ (Call.ReadAs p.strings (LeadsTo calls is p.code.size))
        (calls.filter Call.emits) is := by
  have hraw := referTo_notMem_stepsFrom [] calls
  have hafter := Assembly.afterAll_of_performAll h
  have hlaid := laidOut_of_performAll h
  have hwhole := Assembly.whole_of_noReference hraw
  -- The calls that emit are read as what they asked for, at the positions before them.
  have hcalls : List.Forall₂ (EmittingCall.ReadAs p.strings fun l x => x = a.addressOf l)
      (Assembly.emittingCalls {} (stepsFrom [] calls))
      (placed 0 ((Assembly.emittedAll {} (stepsFrom [] calls)).filterMap
        (Emission.operation? a.addressOf))) := by
    rw [Assembly.strings_finish hp, ← hafter]
    exact Assembly.laidOut_empty.forall₂_emittingCalls hraw fun _ _ _ => rfl
  refine ⟨_, hlaid.instructions_finish hwhole hp, ?_⟩
  generalize placed 0 _ = is at hcalls ⊢
  have hoffsets : (Assembly.emittingCalls {} (stepsFrom [] calls)).map EmittingCall.position =
      is.map Instruction.offset := by
    rw [← List.forall₂_eq_eq_eq, List.forall₂_map_left_iff, List.forall₂_map_right_iff]
    exact hcalls.imp fun call i hi => hi.offset.symm
  have hasked : List.Forall₂
      (fun (x : Opcode × Passed) i =>
        i.opcode = x.1 ∧ x.2.ReadAs p.strings (fun l y => y = a.addressOf l) i.argument)
      (calls.filterMap (Call.instruction? (notedFrom [] calls))) is := by
    rw [← filterMap_stepsFrom, ← Assembly.map_emittingCalls h, List.forall₂_map_left_iff]
    exact hcalls.imp fun call i hi => ⟨hi.opcode, hi.argument⟩
  exact forall₂_readAs
    (fun op name hjump => leadsTo_addressOf h honce hp (hdefined op name hjump) hoffsets) hasked

/-- **A listing is accepted exactly when the grammar has it**, and means the calls that it spells.
For every source that is cut into tokens:

* It is assembled exactly when its lines spell calls that define no label twice and define every
  label that they name, and that put no more texts into the pool than the pool can hold, which no
  source of at most 2³² characters does.
* The program is then the one that the calls assemble, all of which succeed, in the order of the
  lines. Its code is read without an error as one instruction for each call that emits one, with the
  opcode and the operand that were spelled. A label is the offset of the first instruction after its
  definition, or the end of the code if there is none. -/
theorem accepted_and_read_as_spelled {source : String} {lexemes : List Lexeme}
    (hlex : lex source = .ok lexemes) :
    ((∃ p, assemble source = .ok p) ↔
      ∃ calls, Spells (lexemes.map Lexeme.token) calls ∧ Resolved calls ∧
        (textsIn calls).length ≤ 2 ^ 32) ∧
    (source.length ≤ 2 ^ 32 → ∀ calls, Spells (lexemes.map Lexeme.token) calls →
      (textsIn calls).length ≤ 2 ^ 32) ∧
    ∀ p calls, assemble source = .ok p → Spells (lexemes.map Lexeme.token) calls →
      (∃ a, Assembly.performAll {} (stepsFrom [] calls) = .ok a ∧ a.finish = .ok p) ∧
      ∃ is, instructions p.code = is.map .ok ∧
        List.Forall₂ (Call.ReadAs p.strings (LeadsTo calls is p.code.size))
          (calls.filter Call.emits) is := by
  refine ⟨?_, ?_, ?_⟩
  · simp only [assemble_eq_ok_iff hlex]
    exact exists_assembleLexemes_iff
  · intro hlength calls hspells
    exact (hspells.length_textsIn_le_of_lex hlex).trans hlength
  · intro p calls hp hspells
    obtain ⟨r, made, hmade, hfollows, hfinish⟩ :=
      exists_follows_of_assembleLexemes ((assemble_eq_ok_iff hlex).1 hp)
    obtain rfl := hmade.unique hspells
    have hresolved := mentioned_defined_iff.1 (hfollows.exists_finish_iff.1 ⟨p, hfinish⟩)
    exact ⟨⟨_, hfollows.performed, hfinish⟩,
      forall₂_instructions hfollows.performed hfollows.once hresolved hfinish⟩

/-- Two labels on a line, one of them used later and one never, a word for a number with a minus
before it, and a label that is defined after its use at the end of the code. -/
theorem labels_at_both_ends_read_as_spelled :
    let source := "a: b: pstr \"x\"\nPNUM -inf\nJMPF end\nJMP b\nend:"
    let tokens : List Token := [
      .labelDef "a", .labelDef "b", .word "pstr", .text "x", .newline,
      .word "PNUM", .minus, .word "inf", .newline,
      .word "JMPF", .word "end", .newline,
      .word "JMP", .word "b", .newline,
      .labelDef "end"]
    let calls : List Call := [
      .define "a", .define "b", .emitWith .pushString (.text "x"),
      .emitWith .pushNumber (.f64 Number.infinity.neg), .jump .jumpUnless "end", .jump .jump "b",
      .define "end"]
    let p : Program := {
      code := #[0x05, 0, 0, 0, 0, 0x04, 0, 0, 0, 0, 0, 0, 0xf0, 0xff,
        0x22, 32, 0, 0, 0, 0, 0, 0, 0, 0x20, 0, 0, 0, 0, 0, 0, 0, 0]
      strings := #[.ofText "x"] }
    ∃ lexemes, lex source = .ok lexemes ∧ lexemes.map Lexeme.token = tokens ∧
      Spells tokens calls ∧ assemble source = .ok p ∧
      ∃ is, instructions p.code = is.map .ok ∧
        List.Forall₂ (Call.ReadAs p.strings (LeadsTo calls is p.code.size))
          (calls.filter Call.emits) is := by
  intro source tokens calls p
  have htokens : (lex source).map (List.map Lexeme.token) = .ok tokens := by decide +kernel
  obtain ⟨lexemes, hlex, htokens⟩ := exists_of_map_ok htokens
  have hassemble : assemble source = .ok p := by decide +kernel
  have hspells : Spells tokens calls := by
    refine ⟨[[.define "a", .define "b", .emitWith .pushString (.text "x")],
      [.emitWith .pushNumber (.f64 Number.infinity.neg)], [.jump .jumpUnless "end"],
      [.jump .jump "b"], [.define "end"]], ?_, rfl⟩
    have hstring : SpellsMnemonic "pstr" .pushString := rfl
    have hnumber : SpellsMnemonic "PNUM" .pushNumber := rfl
    have hunless : SpellsMnemonic "JMPF" .jumpUnless := rfl
    have hjump : SpellsMnemonic "JMP" .jump := rfl
    exact .cons (.label (.label (.instruction hstring (.text rfl)))) <|
      .cons (.instruction hnumber (.minus rfl .infinity)) <|
      .cons (.instruction hunless (.label rfl)) <| .cons (.instruction hjump (.label rfl)) <|
      .cons (.label .blank) .nil
  obtain ⟨-, -, hmeans⟩ := accepted_and_read_as_spelled hlex
  exact ⟨lexemes, hlex, htokens, hspells, hassemble,
    (hmeans p calls hassemble (htokens ▸ hspells)).2⟩

end StackMachine.Listing
