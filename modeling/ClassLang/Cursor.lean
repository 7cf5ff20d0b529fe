/-
  ClassLang/Cursor.lean
  =====================
  **A place in a list of tokens.**

  A cursor remembers the token taken last and the tokens still ahead.  Nothing is
  ever put back, so all that can happen to a cursor is that it moves forward;
  `Leads` is that relation, and everything that reads tokens is built to respect
  it.  The token taken last is where a fault is reported.
-/
import ClassLang.Token.Basic

namespace ClassLang

/-- The token taken last, if any, and the tokens ahead. -/
structure Cursor where
  last : Option Token
  ahead : List Token
deriving DecidableEq, Repr

namespace Cursor

def ofTokens (tokens : List Token) : Cursor :=
  ⟨none, tokens⟩

def remaining (c : Cursor) : Nat :=
  c.ahead.length

def atEnd (c : Cursor) : Bool :=
  c.ahead.isEmpty

/-- The token `n` places ahead; the next token is at place 0. -/
def nth? (c : Cursor) (n : Nat) : Option Token :=
  c.ahead[n]?

/-- The next token exists and says what the test asks for. -/
def nextIs (c : Cursor) (test : Lexeme → Bool) : Bool :=
  c.ahead.head?.any fun token => test token.lexeme

/-- Where the reading stands: at the token taken last, before that at the first token, and at the
    start of the text if there are no tokens at all. -/
def position (c : Cursor) : Position :=
  match c.last, c.ahead with
  | some token, _ => token.position
  | none, token :: _ => token.position
  | none, [] => .start

/-! ### Moving forward -/

/-- The first cursor comes to the second by taking tokens. -/
inductive Leads : Cursor → Cursor → Prop where
  | refl (c : Cursor) : Leads c c
  | step {last : Option Token} {token : Token} {ahead : List Token} {c : Cursor} :
      Leads ⟨some token, ahead⟩ c → Leads ⟨last, token :: ahead⟩ c

namespace Leads

theorem trans {a b c : Cursor} (hab : a.Leads b) (hbc : b.Leads c) : a.Leads c := by
  induction hab with
  | refl => exact hbc
  | step _ ih => exact .step (ih hbc)

theorem take {last : Option Token} {token : Token} {ahead : List Token} :
    Leads ⟨last, token :: ahead⟩ ⟨some token, ahead⟩ :=
  .step (.refl _)

/-- The tokens ahead only become fewer. -/
theorem remaining_le {a b : Cursor} (h : a.Leads b) : b.remaining ≤ a.remaining := by
  induction h with
  | refl => exact Nat.le_refl _
  | step _ ih => exact Nat.le_trans ih (Nat.le_succ _)

/-- What is ahead later was ahead before. -/
theorem isSuffix {a b : Cursor} (h : a.Leads b) : b.ahead <:+ a.ahead := by
  induction h with
  | refl => exact List.suffix_refl _
  | step _ ih => exact ih.trans (List.suffix_cons _ _)

end Leads

end Cursor

end ClassLang
