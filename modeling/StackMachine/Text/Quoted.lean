import StackMachine.Text.Unseen

/-!
# Quoted text

Text between double quotes, as it stands inside containers and in disassembly. Quotes, backslashes
and the usual controls have a short escape, and whatever could not be read off the page is shown by
its number.
-/

namespace StackMachine.Text

/-- One character of quoted text. -/
def quoteChar (c : Char) : List Char :=
  match c with
  | '\x00' => ['\\', '0']
  | '\t' => ['\\', 't']
  | '\n' => ['\\', 'n']
  | '\r' => ['\\', 'r']
  | '"' => ['\\', '"']
  | '\\' => ['\\', '\\']
  | c => if isUnseen c then ['\\', 'u', '\x7b'] ++ Nat.toDigits 16 c.toNat ++ ['\x7d'] else [c]

/-- Text between double quotes. -/
def quoted (s : String) : String :=
  String.ofList ('"' :: s.toList.flatMap quoteChar ++ ['"'])

end StackMachine.Text
