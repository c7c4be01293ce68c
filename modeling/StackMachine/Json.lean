import StackMachine.Number.Text
import StackMachine.Text.Numeral

/-!
# JSON

The JSON that reports are written in: values, their compact text, and their text with one item a
line.
-/

namespace StackMachine

/-- A JSON value. Members of an object stand in the order in which they are written. -/
inductive Json where
  | null
  | bool (b : Bool)
  | natural (n : Nat)
  | number (x : Number)
  | string (s : String)
  | array (items : List Json)
  | object (members : List (String × Json))

namespace Json

/-- One character of a string. Quotes, backslashes and controls are escaped; nothing else is. -/
def escapeChar (c : Char) : List Char :=
  match c with
  | '"' => ['\\', '"']
  | '\\' => ['\\', '\\']
  | '\x08' => ['\\', 'b']
  | '\t' => ['\\', 't']
  | '\n' => ['\\', 'n']
  | '\x0c' => ['\\', 'f']
  | '\r' => ['\\', 'r']
  | c =>
    if c.toNat < 0x20 then ['\\', 'u'] ++ Text.padDigits 4 (Nat.toDigits 16 c.toNat) else [c]

/-- A string between quotes. -/
def stringText (s : String) : String :=
  String.ofList ('"' :: s.toList.flatMap escapeChar ++ ['"'])

/-- The text of a value without parts. -/
def atomText : Json → String
  | null => "null"
  | bool b => if b then "true" else "false"
  | natural n => Text.decimal n
  | number x => x.jsonText
  | string s => stringText s
  | array _ => "[]"
  | object _ => "\x7b\x7d"

mutual

/-- The text of a value without blanks. -/
def compact : Json → String
  | array items => "[" ++ ",".intercalate (compactItems items) ++ "]"
  | object members => "\x7b" ++ ",".intercalate (compactMembers members) ++ "\x7d"
  | atom => atom.atomText

/-- The texts of items without blanks. -/
def compactItems : List Json → List String
  | [] => []
  | item :: items => item.compact :: compactItems items

/-- The texts of members without blanks. -/
def compactMembers : List (String × Json) → List String
  | [] => []
  | (key, value) :: members => (stringText key ++ ":" ++ value.compact) :: compactMembers members

end

/-- Parts between brackets, each on a line of its own and set in by two columns more than the
brackets; nothing between them if there are no parts. -/
def block (indent : Nat) (opening closing : String) (parts : List String) : String :=
  match parts with
  | [] => opening ++ closing
  | parts =>
    let margin (n : Nat) : String := "\n" ++ String.ofList (List.replicate n ' ')
    opening ++ margin (indent + 2) ++ ("," ++ margin (indent + 2)).intercalate parts ++
      margin indent ++ closing

mutual

/-- The text of a value that begins at an indentation, with one item a line. -/
def prettyAt (indent : Nat) : Json → String
  | array items => block indent "[" "]" (prettyItems (indent + 2) items)
  | object members => block indent "\x7b" "\x7d" (prettyMembers (indent + 2) members)
  | atom => atom.atomText

/-- The texts of items with one item a line. -/
def prettyItems (indent : Nat) : List Json → List String
  | [] => []
  | item :: items => item.prettyAt indent :: prettyItems indent items

/-- The texts of members with one item a line. -/
def prettyMembers (indent : Nat) : List (String × Json) → List String
  | [] => []
  | (key, value) :: members =>
    (stringText key ++ ": " ++ value.prettyAt indent) :: prettyMembers indent members

end

/-- The text of a value with one item a line. -/
def pretty (j : Json) : String := j.prettyAt 0

end Json
end StackMachine
