/-
  ClassLang/Text/Blank.lean
  =========================
  **Blank characters.**

  The characters that only separate tokens are those with the property
  `White_Space`: the tabulators and line ends of ASCII, the plain space, the next
  line control, and the space, line and paragraph separators beyond ASCII.
-/

namespace ClassLang.Text

/-- Code points of the blank characters, as closed ranges in increasing order. -/
def blankRanges : List (Nat × Nat) :=
  [(0x9, 0xd), (0x20, 0x20), (0x85, 0x85), (0xa0, 0xa0), (0x1680, 0x1680), (0x2000, 0x200a),
    (0x2028, 0x2029), (0x202f, 0x202f), (0x205f, 0x205f), (0x3000, 0x3000)]

/-- A character that separates tokens and means nothing itself. -/
def isBlank (c : Char) : Bool :=
  blankRanges.any fun range => range.1 ≤ c.toNat && c.toNat ≤ range.2

def trimStart (text : String) : String :=
  String.ofList (text.toList.dropWhile isBlank)

/-- A newline is blank, so the newline that ends a comment needs no rule of its own. -/
theorem isBlank_newline : isBlank '\n' = true := by decide

end ClassLang.Text
