/-
  ClassLang/Assembly/Layout.lean
  ==============================
  **The assembly text of a whole program.**

  The text is a list of lines: the data segment with one line for each string, then
  the code segment with the printing routines, the entry point followed by the way
  out, and the methods.  Blocks of code are set apart by empty lines.

  A data line gives printable bytes in quoted runs and all others as numbers; the
  quote itself is a number, so nothing inside a run needs an escape.
-/
import ClassLang.Assembly.Printing
import ClassLang.DataSection

namespace ClassLang

/-! ### Data lines -/

namespace DataEntry

/-- Bytes that stand for themselves inside a quoted run. -/
def isPlain (byte : UInt8) : Bool :=
  0x20 ≤ byte && byte < 0x7f && byte != 0x22

/-- A run of plain bytes between quotes, if there is any. -/
def run (bytes : List UInt8) : List String :=
  if bytes.isEmpty then []
  else [String.ofList (['"'] ++ bytes.map (fun byte => Char.ofNat byte.toNat) ++ ['"'])]

/-- The operands for the bytes, where `pending` is the plain run that is still growing. -/
def operandsFrom (pending : List UInt8) : List UInt8 → List String
  | [] => run pending
  | byte :: rest =>
    if isPlain byte then operandsFrom (pending ++ [byte]) rest
    else run pending ++ toString byte.toNat :: operandsFrom [] rest

/-- The operands of a data line: the bytes, then a newline and a zero. -/
def operands (entry : DataEntry) : List String :=
  operandsFrom [] entry.bytes ++ ["10", "0"]

def line (entry : DataEntry) : String :=
  entry.label ++ " db " ++ String.intercalate ", " entry.operands

end DataEntry

/-! ### The layout -/

/-- All that goes into the assembly text. -/
structure Layout where
  data : List DataEntry
  entry : Listing Instruction
  methods : List (Listing Instruction)
deriving DecidableEq, Repr

namespace Layout

/-- A remark on how the program has to be linked. -/
def linkNote : String := "; no _start symbol, link with ld -m elf_i386 -e _main"

def written (lines : List (Line Instruction)) : List String :=
  lines.map fun line => (line.map Instruction.text).text

def lines (layout : Layout) : List String :=
  ["segment .data"] ++ layout.data.map DataEntry.line ++
  ["", "segment .text", "global _main", linkNote, ""] ++
  written Printing.number ++ [""] ++
  written Printing.string ++ [""] ++
  written layout.entry.lines ++ written Printing.exit ++
  layout.methods.flatMap fun method => "" :: written method.lines

/-- The whole text, each line ended by a newline. -/
def text (layout : Layout) : String :=
  String.join (layout.lines.map (· ++ "\n"))

end Layout

end ClassLang
