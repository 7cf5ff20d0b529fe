/-
  ClassLang/Assembly/Listing.lean
  ===============================
  **The code of one routine, line by line.**

  A line holds a label or an instruction.  Listings are generic in what an
  instruction is: generated listings hold `Instruction`s, and writing them out
  turns each into its text (`Listing.written`).  On text, a label is followed by a
  colon and an instruction is indented by four spaces.
-/
import ClassLang.Assembly.Instruction
import ClassLang.Label
import ClassLang.Text.Blank

namespace ClassLang

inductive Line (ι : Type) where
  | label (name : String)
  | instruction (code : ι)
deriving DecidableEq, Repr

def Line.map {ι κ : Type} (f : ι → κ) : Line ι → Line κ
  | .label name => .label name
  | .instruction code => .instruction (f code)

def Line.ofCode {ι : Type} (code : List ι) : List (Line ι) :=
  code.map .instruction

def indentation : String := "    "

def Line.text : Line String → String
  | .label name => name ++ ":"
  | .instruction code => indentation ++ code

/-- The code of a routine.  The entry point belongs to no class. -/
structure Listing (ι : Type) where
  owner : Option String
  method : String
  lines : List (Line ι)
deriving DecidableEq, Repr

namespace Listing

/-- The label that a routine is entered by. -/
def entryLabel {ι : Type} (listing : Listing ι) : String :=
  Label.entry listing.owner listing.method

def map {ι κ : Type} (f : ι → κ) (listing : Listing ι) : Listing κ :=
  ⟨listing.owner, listing.method, listing.lines.map (Line.map f)⟩

def written (listing : Listing Instruction) : Listing String :=
  listing.map Instruction.text

def textLines (listing : Listing String) : List String :=
  listing.lines.map Line.text

/-- The whole text of a listing, each line ended by a newline. -/
def text (listing : Listing String) : String :=
  String.join (listing.textLines.map (· ++ "\n"))

/-- The indented lines of a listing, without the blanks they begin with. -/
def instructions (listing : Listing String) : List String :=
  (listing.textLines.filter fun line => indentation.toList.isPrefixOf line.toList).map
    Text.trimStart

end Listing

end ClassLang
