/-!
# Catalogue of error codes

Every code that a diagnostic may carry, with a summary and an explanation.
-/

namespace StackMachine

/-- An error code with what it means. -/
structure CatalogueEntry where
  code : String
  summary : String
  /-- The lines of the explanation after its heading. -/
  body : List String

/-- The explanation: a heading, and the lines below it. -/
def CatalogueEntry.explanation (e : CatalogueEntry) : String :=
  "## " ++ e.code ++ ": " ++ e.summary ++ "\n\n" ++ String.join (e.body.map (· ++ "\n"))

namespace Catalogue

/-- Container files. -/
def container : List CatalogueEntry := [
  ⟨"ZOE-F001", "file shorter than the header", [
    "Every ZB file starts with 16 bytes: the 8-byte magic `ZOEBC\\0\\0\\x01`",
    "followed by the little-endian offset of the string pool. The input ended",
    "before those 16 bytes.",
    "",
    "The file is probably empty or was cut off while being written."]⟩,
  ⟨"ZOE-F002", "bad magic or version", [
    "The first 8 bytes are not `ZOEBC\\0\\0\\x01`. Either the file is not a ZB",
    "file at all, or it was written by an incompatible format version.",
    "",
    "Listings (text) must be assembled first:",
    "",
    "    zoe asm program.zasm -o program.zb"]⟩,
  ⟨"ZOE-F003", "string pool offset out of range", [
    "Bytes 8..16 hold the offset where the string pool begins. It must be at",
    "least 16 (the header size) and no larger than the file. Anything else",
    "means the header is corrupt."]⟩,
  ⟨"ZOE-F004", "malformed string pool entry", [
    "Each string pool entry is UTF-8 text, a NUL byte, then an 8-byte hash.",
    "An entry was missing its terminator, was not valid UTF-8, or ran out of",
    "bytes before its hash. Trailing junk after the last entry also lands",
    "here."]⟩,
  ⟨"ZOE-F005", "string pool hash mismatch", [
    "The hash stored after a pool string does not match the hash of its text.",
    "The file was modified after it was written, or produced by a tool using a",
    "different hash function."]⟩]

/-- Assembling. -/
def assembling : List CatalogueEntry := [
  ⟨"ZOE-A001", "wrong immediate for opcode", [
    "Every opcode has a fixed operand shape (none, u8, u16, u32, u64, f64 or a",
    "string). The immediate supplied does not have that shape.",
    "",
    "**Example:**",
    "",
    "    PINT 3.5      ; PINT takes a u8, use PNUM for floats"]⟩,
  ⟨"ZOE-A002", "variable declared twice in one scope", [
    "A name may be declared once per scope. Inner scopes may shadow names",
    "from outer ones."]⟩,
  ⟨"ZOE-A003", "unknown variable", [
    "The name is not declared in the current scope or any enclosing one."]⟩,
  ⟨"ZOE-A004", "string pool full", [
    "String operands are 4-byte pool indices, so a program can hold at most",
    "2^32 pool entries."]⟩,
  ⟨"ZOE-A005", "unresolved label at finalize", [
    "A label was created but never given an address. Every label must be",
    "resolved before the program is finalized, whether or not it is",
    "referenced.",
    "",
    "Listings report the same mistake as ZOE-L003, pointing at the first use",
    "of the label."]⟩]

/-- Listings. -/
def listings : List CatalogueEntry := [
  ⟨"ZOE-L001", "unexpected input in listing", [
    "The listing contains characters that are not part of any token. Valid",
    "input is mnemonics, `label:` definitions, numbers, double-quoted strings",
    "and `;` comments.",
    "",
    "**Example:**",
    "",
    "    PNUM $5"]⟩,
  ⟨"ZOE-L002", "malformed listing line", [
    "Each line holds optional label definitions, then at most one mnemonic and",
    "its operand. This covers unknown mnemonics, missing or extra operands,",
    "integers that do not fit the operand width and labels defined twice.",
    "",
    "**Example:**",
    "",
    "    PINT 300      ; PINT takes a u8",
    "    POP 1         ; POP takes no operand"]⟩,
  ⟨"ZOE-L003", "label never defined", [
    "A jump or PFUN names a label that no line defines.",
    "",
    "**Example:**",
    "",
    "    JMP done",
    "    ; missing `done:` somewhere below"]⟩]

/-- Running. -/
def running : List CatalogueEntry := [
  ⟨"ZOE-R001", "operand stack underflow", [
    "An instruction needed more operands than the stack held.",
    "",
    "**Example:**",
    "",
    "    PINT 1",
    "    ADD           ; ADD needs two values"]⟩,
  ⟨"ZOE-R002", "operand stack overflow", [
    "The operand stack or the call stack grew past its configured limit,",
    "usually through unbounded recursion or a loop that pushes without",
    "popping."]⟩,
  ⟨"ZOE-R003", "operand type mismatch", [
    "The operator does not accept the operand types it was given. Arithmetic",
    "needs numbers, `ADD` and comparisons also accept two strings, `CALL`",
    "needs a function below its arguments and `CMVAR` needs an array."]⟩,
  ⟨"ZOE-R004", "indexed access failed", [
    "`GET`, `SET` or `DEL` failed: the key is missing from the table and its",
    "prototypes, the array index is out of range or not an integer, the key",
    "is an array or table (which cannot be hashed), or the container is not",
    "indexable at all."]⟩,
  ⟨"ZOE-R005", "arity mismatch", [
    "`CMVAR n` was given an array whose length is not `n`, or `CALL n` was",
    "used on a function declared with a different arity.",
    "",
    "**Example:**",
    "",
    "    PINT 1",
    "    PINT 2",
    "    PINT 3",
    "    PARR 3",
    "    CMVAR 2       ; three elements, two slots"]⟩,
  ⟨"ZOE-R006", "invalid table flags", [
    "`PTABF` and `PTABPF` expect each entry's flags as an integer from 0 to 3",
    "(bit 0 = PUBLIC, bit 1 = MUTABLE)."]⟩,
  ⟨"ZOE-R007", "step budget exhausted", [
    "The program executed more instructions than `--max-steps` allows. Raise",
    "the limit, or look for a jump that never reaches its exit."]⟩,
  ⟨"ZOE-R008", "trace output failed", [
    "Writing the execution trace failed, typically because stderr was closed."]⟩]

/-- Corrupt programs. -/
def corrupt : List CatalogueEntry := [
  ⟨"ZOE-I002", "label from another assembler", [
    "A label handle was used with an assembler that did not create it."]⟩,
  ⟨"ZOE-I003", "scope exit without enter", [
    "`POPS` ran (or `exit_scope` was called) with no matching `PSHS`. Scope",
    "instructions are emitted in pairs, so this points at corrupt bytecode."]⟩,
  ⟨"ZOE-I004", "unknown opcode", [
    "The byte at the instruction pointer is not a defined opcode. Either the",
    "file is corrupt or a jump landed in the middle of an instruction."]⟩,
  ⟨"ZOE-I005", "truncated instruction", [
    "The code ended in the middle of an instruction's operand."]⟩,
  ⟨"ZOE-I006", "variable index out of range", [
    "`GVAR` or `SVAR` named a variable slot that does not exist. Slot numbers",
    "are assigned when the program is assembled, so this indicates a",
    "producer bug or a `POPS` that discarded the slot."]⟩,
  ⟨"ZOE-I007", "jump outside code", [
    "A jump, call or function address points past the end of the code."]⟩,
  ⟨"ZOE-I008", "missing string pool entry", [
    "`PSTR` referred to a pool index the file does not contain."]⟩]

/-- Every entry. -/
def all : List CatalogueEntry := container ++ assembling ++ listings ++ running ++ corrupt

/-- The entry of a code, in upper or lower case. -/
def find? (code : String) : Option CatalogueEntry :=
  let upper := code.toList.map Char.toUpper
  all.find? fun e => e.code.toList == upper

end Catalogue
end StackMachine
