/-!
# The command line

What the program is asked to do: one of four subcommands with a file or an error code, and options
that may stand before or after it. An option with a value takes it after an equals sign or from the
next argument; after two dashes nothing is an option. Nothing may be given twice.
-/

namespace StackMachine

/-- A request of the command line. -/
inductive Command where
  /-- Assemble a listing, to the given file if there is one. -/
  | assemble (listing : String) (output : Option String)
  | run (file : String) (trace : Bool) (maxSteps : Option Nat) (json : Bool)
  | disassemble (file : String) (json : Bool)
  | explain (code : String)
deriving DecidableEq, Repr

namespace Command

/-! ## Options -/

/-- Whether an option takes a value. -/
inductive OptionKind where
  | flag
  | valued
deriving DecidableEq

/-- An option of a subcommand. -/
structure OptionSpec where
  name : String
  /-- The letter of its short form. -/
  letter : Option Char := none
  kind : OptionKind

/-- The arguments of a subcommand, sorted: what stands alone, and the options with their values. -/
structure Sorted where
  positional : List String := []
  options : List (String × String) := []

/-- The arguments with one more that stands alone. -/
def Sorted.addPositional (s : Sorted) (arg : String) : Sorted :=
  { s with positional := s.positional ++ [arg] }

/-- The arguments with one more option, if it was not given before. -/
def Sorted.addOption? (s : Sorted) (name value : String) : Option Sorted :=
  if s.options.any (·.1 == name) then none
  else some { s with options := s.options ++ [(name, value)] }

/-- Whether an argument is read as an option and cannot be the value of one before it. -/
def looksLikeOption (arg : String) : Bool :=
  match arg.toList with
  | '-' :: _ :: _ => true
  | _ => false

/-- An argument that names an option: the option, and the value that is joined to it. -/
def named? (specs : List OptionSpec) (arg : String) : Option (OptionSpec × Option String) :=
  match arg.toList with
  | '-' :: '-' :: long =>
    let name := long.takeWhile (· ≠ '=')
    (specs.find? fun s => s.name.toList == name).map fun spec =>
      match long.dropWhile (· ≠ '=') with
      | _ :: value => (spec, some (String.ofList value))
      | [] => (spec, none)
  | '-' :: letter :: joined =>
    (specs.find? fun s => s.letter == some letter).map fun spec =>
      match joined with
      | [] => (spec, none)
      | '=' :: value => (spec, some (String.ofList value))
      | value => (spec, some (String.ofList value))
  | _ => none

/-- The arguments of a subcommand with the given options, sorted, unless they are not understood. -/
def sort (specs : List OptionSpec) (sorted : Sorted) : List String → Option Sorted
  | [] => some sorted
  | arg :: args =>
    if arg = "--" then some (args.foldl Sorted.addPositional sorted)
    else if looksLikeOption arg then
      match named? specs arg with
      | none => none
      | some (⟨name, _, .flag⟩, none) => do sort specs (← sorted.addOption? name "") args
      | some (⟨_, _, .flag⟩, some _) => none
      | some (⟨name, _, .valued⟩, some value) => do
        sort specs (← sorted.addOption? name value) args
      | some (⟨name, _, .valued⟩, none) =>
        match args with
        | [] => none
        | value :: args =>
          if looksLikeOption value then none
          else do sort specs (← sorted.addOption? name value) args
    else sort specs (sorted.addPositional arg) args

/-! ## Values -/

/-- A path; it may not be empty. -/
def path? (arg : String) : Option String := if arg = "" then none else some arg

/-- A number of steps: digits, perhaps with a plus before them, below 2⁶⁴. -/
def steps? (arg : String) : Option Nat :=
  let digits := match arg.toList with
    | '+' :: digits => digits
    | digits => digits
  if digits ≠ [] ∧ digits.all Char.isDigit then
    let n := digits.foldl (fun n c => 10 * n + (c.toNat - '0'.toNat)) 0
    if n < UInt64.size then some n else none
  else
    none

/-- The one argument that stands alone. -/
def Sorted.single? (s : Sorted) : Option String :=
  match s.positional with
  | [arg] => some arg
  | _ => none

/-- Whether a flag was given. -/
def Sorted.has (s : Sorted) (name : String) : Bool := s.options.any (·.1 == name)

/-- The value of an option as it is read; nothing if the option was not given. -/
def Sorted.value? {α : Type} (s : Sorted) (name : String) (read : String → Option α) :
    Option (Option α) :=
  match s.options.find? (·.1 == name) with
  | none => some none
  | some (_, value) => (read value).map some

/-! ## Requests -/

/-- The request that the arguments make, unless they are not understood. -/
def ofArguments? : List String → Option Command
  | "asm" :: args => do
    let s ← sort [⟨"output", some 'o', .valued⟩] {} args
    let output ← s.value? "output" path?
    pure (.assemble (← path? (← s.single?)) output)
  | "run" :: args => do
    let s ← sort [⟨"trace", none, .flag⟩, ⟨"max-steps", none, .valued⟩, ⟨"json", none, .flag⟩]
      {} args
    let maxSteps ← s.value? "max-steps" steps?
    pure (.run (← path? (← s.single?)) (s.has "trace") maxSteps (s.has "json"))
  | "disasm" :: args => do
    let s ← sort [⟨"json", none, .flag⟩] {} args
    pure (.disassemble (← path? (← s.single?)) (s.has "json"))
  | "explain" :: args => do
    let s ← sort [] {} args
    pure (.explain (← s.single?))
  | _ => none

/-- The file that a request reads. -/
def input? : Command → Option String
  | assemble listing _ => some listing
  | run file _ _ _ => some file
  | disassemble file _ => some file
  | explain _ => none

/-- Whether errors are reported as JSON. -/
def reportsJson : Command → Bool
  | run _ _ _ json => json
  | disassemble _ json => json
  | assemble _ _ | explain _ => false

/-- The name of a file without its extension: what stands before the last point, unless the name
begins with it. -/
def stem (name : List Char) : List Char :=
  let reversed := name.reverse
  match reversed.dropWhile (· ≠ '.') with
  | _ :: before => if before = [] then name else before.reverse
  | [] => name

/-- The path of the program that is made of a listing: the extension of the listing, if it has one,
gives way to `zb`. -/
def defaultOutput (listing : String) : String :=
  let reversed := listing.toList.reverse
  let name := (reversed.takeWhile (· ≠ '/')).reverse
  let folder := (reversed.dropWhile (· ≠ '/')).reverse
  String.ofList (folder ++ stem name ++ ".zb".toList)

end Command
end StackMachine
