/-
  ClassLang/Position.lean
  =======================
  **Lines and columns of a source text.**

  A position counts characters, not bytes: lines and columns both start at 1, a
  newline is the only character that starts a line, and every other character
  takes one column.  The position behind a stretch of text is therefore a fold
  over it.
-/

namespace ClassLang

/-- A line and a column of the source text, both counted from 1. -/
structure Position where
  line : Nat
  column : Nat
deriving DecidableEq, Repr, Inhabited

namespace Position

/-- Where every text begins. -/
def start : Position := ⟨1, 1⟩

def next (p : Position) (c : Char) : Position :=
  if c = '\n' then ⟨p.line + 1, 1⟩ else ⟨p.line, p.column + 1⟩

def after (p : Position) (text : List Char) : Position :=
  text.foldl next p

@[simp] theorem after_nil (p : Position) : p.after [] = p := rfl

@[simp] theorem after_cons (p : Position) (c : Char) (text : List Char) :
    p.after (c :: text) = (p.next c).after text := rfl

end Position

end ClassLang
