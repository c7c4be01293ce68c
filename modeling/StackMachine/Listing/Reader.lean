import StackMachine.Listing.Statement

/-!
# Reading listings

A listing is assembled line by line: first the labels that a line defines, then its statement. A
label may be used before it is defined, and is made when it is first mentioned.
-/

namespace StackMachine.Listing

/-! ## What can go wrong -/

/-- Why a listing is not a program. -/
inductive Cause where
  | unexpectedInput (snippet : String)
  | malformed (fault : Malformed)
  | duplicateLabel (name : String) (first : Span)
  | assembly (error : AssemblyError)
deriving DecidableEq

/-- Why a listing is not a program, and where that shows. -/
structure Error where
  cause : Cause
  span : Span
  line : Nat
deriving DecidableEq

/-- What is wrong, without the place. -/
def Cause.message : Cause → String
  | unexpectedInput snippet => "unexpected input '" ++ snippet ++ "'"
  | malformed fault => fault.message
  | duplicateLabel name _ => "label '" ++ name ++ "' is defined twice"
  | assembly error => error.message

/-- The message of a listing error. -/
def Error.message (e : Error) : String :=
  "line " ++ Text.decimal e.line ++ ": " ++ e.cause.message

/-! ## Lines -/

/-- The lexemes of each line, without the newlines. There is always at least one line. -/
def linesOf : List Lexeme → List (List Lexeme)
  | [] => [[]]
  | l :: ls =>
    if l.token = .newline then [] :: linesOf ls
    else
      match linesOf ls with
      | [] => [[l]]
      | line :: lines => (l :: line) :: lines

/-- The labels that a line begins with, and the lexemes after them. -/
def leadingLabels : List Lexeme → List (String × Span) × List Lexeme
  | ⟨.labelDef name, span⟩ :: rest =>
    let (labels, rest) := leadingLabels rest
    ((name, span) :: labels, rest)
  | rest => ([], rest)

/-! ## Labels by name -/

/-- A label that the listing has mentioned. -/
structure LabelEntry where
  name : String
  label : Label
  firstUse : Span
  definedAt : Option Span := none
deriving DecidableEq

/-- What was read so far: the assembly, and the labels in the order of their first mention. -/
structure Reader where
  assembly : Assembly := {}
  labels : List LabelEntry := []

/-- What is wrong with a listing, and where that shows. -/
structure CauseAt where
  cause : Cause
  span : Span
deriving DecidableEq

namespace Reader

/-- The entry of a name, if the name was mentioned. -/
def entry? (r : Reader) (name : String) : Option LabelEntry :=
  r.labels.find? fun e => e.name == name

/-- The label of a name that is mentioned at a span. The first mention makes the label. -/
def mention (r : Reader) (name : String) (span : Span) : Label × Reader :=
  match r.entry? name with
  | some e => (e.label, r)
  | none =>
    let (label, assembly) := r.assembly.newLabel (some name)
    (label, { assembly, labels := r.labels ++ [{ name, label, firstUse := span }] })

/-- The name is marked as defined at a span. -/
def markDefined (r : Reader) (name : String) (span : Span) : Reader :=
  { r with labels := r.labels.map fun e =>
      if e.name = name then { e with definedAt := some span } else e }

/-- The result of a step of assembling, with errors placed at a span. -/
def place {α : Type} (span : Span) (result : Except AssemblyError α) : Except CauseAt α :=
  result.mapError fun e => ⟨.assembly e, span⟩

/-- A label is defined at the current position. -/
def define (r : Reader) (name : String) (span : Span) : Except CauseAt Reader :=
  match (r.entry? name).bind LabelEntry.definedAt with
  | some first => .error ⟨.duplicateLabel name first, span⟩
  | none => do
    let (label, r) := r.mention name span
    let assembly ← place span (r.assembly.placeLabel label)
    pure ({ r with assembly }.markDefined name span)

/-- A statement is assembled; its mnemonic stands at a span. -/
def emit (r : Reader) (s : Statement) (span : Span) : Except CauseAt Reader :=
  match s.operand with
  | .none => do
    let assembly ← place span (r.assembly.emit s.opcode)
    pure { r with assembly }
  | .immediate imm => do
    let assembly ← place span (r.assembly.emitWith s.opcode imm)
    pure { r with assembly }
  | .target name nameSpan => do
    let (label, r) := r.mention name nameSpan
    let assembly ← place span (r.assembly.emitJump s.opcode label)
    pure { r with assembly }

/-- A line is assembled. -/
def line (r : Reader) (lexemes : List Lexeme) : Except CauseAt Reader := do
  let (labels, rest) := leadingLabels lexemes
  let r ← labels.foldlM (fun r (name, span) => r.define name span) r
  match readStatement? rest with
  | .error e => .error ⟨.malformed e.fault, e.span⟩
  | .ok none => pure r
  | .ok (some s) => r.emit s ((rest.head?.map Lexeme.span).getD {})

/-- Where the label of an error was first mentioned. -/
def blame (r : Reader) : AssemblyError → Span
  | .unresolvedLabel label _ =>
    ((r.labels.find? fun e => e.label == label).map LabelEntry.firstUse).getD {}
  | _ => {}

/-- The program that was read. -/
def finish (r : Reader) : Except CauseAt Program :=
  r.assembly.finish.mapError fun e => ⟨.assembly e, r.blame e⟩

end Reader

/-! ## Listings -/

/-- The program of lexemes. -/
def assembleLexemes (lexemes : List Lexeme) : Except CauseAt Program := do
  let r ← (linesOf lexemes).foldlM Reader.line ({} : Reader)
  r.finish

/-- The program of a listing. -/
def assemble (source : String) : Except Error Program :=
  let located (cause : Cause) (span : Span) : Error :=
    ⟨cause, span, lineNumber source span.start⟩
  match lex source with
  | .error e => .error (located (.unexpectedInput e.snippet) e.span)
  | .ok lexemes => (assembleLexemes lexemes).mapError fun e => located e.cause e.span

end StackMachine.Listing
