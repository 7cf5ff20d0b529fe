/-
  ClassLang/Proofs/Taking.lean
  ============================
  **What readers read, in terms of lexemes.**

  `Takes c ls c'` says that a cursor comes from `c` to `c'` by taking tokens that say
  exactly `ls`.  For every piece that a rule is put together from there is one lemma
  here that tells when the piece is done and with what result; the lemmas are all
  equivalences, so a rule can be read from left to right (it is done, hence the
  tokens were of a certain form) and from right to left (the tokens are of that form,
  hence it is done).
-/
import ClassLang.Reading
import ClassLang.Proofs.Grammar

namespace ClassLang

theorem toOption_eq_some {ε α : Type} {e : Except ε α} {a : α} :
    e.toOption = some a ↔ e = .ok a := by
  cases e <;> simp [Except.toOption]

namespace Cursor

/-- The cursor comes to another one by taking tokens that say the given lexemes. -/
inductive Takes : Cursor → List Lexeme → Cursor → Prop where
  | nil (c : Cursor) : Takes c [] c
  | cons {last : Option Token} {token : Token} {ahead : List Token} {ls : List Lexeme}
      {c : Cursor} : Takes ⟨some token, ahead⟩ ls c →
      Takes ⟨last, token :: ahead⟩ (token.lexeme :: ls) c

namespace Takes

variable {a b c : Cursor} {l : Lexeme} {ls ls' : List Lexeme}

@[simp] theorem nil_iff : a.Takes [] b ↔ b = a := by
  constructor
  · intro h
    cases h
    rfl
  · rintro rfl
    exact .nil _

theorem append_iff : a.Takes (ls ++ ls') c ↔ ∃ b, a.Takes ls b ∧ b.Takes ls' c := by
  constructor
  · intro h
    induction ls generalizing a with
    | nil => exact ⟨a, .nil a, h⟩
    | cons l ls ih =>
      cases h with
      | cons htail =>
        obtain ⟨b, hab, hbc⟩ := ih htail
        exact ⟨b, .cons hab, hbc⟩
  · rintro ⟨b, hab, hbc⟩
    induction hab with
    | nil => exact hbc
    | cons _ ih => exact .cons (ih hbc)

theorem cons_iff : a.Takes (l :: ls) c ↔ ∃ b, a.Takes [l] b ∧ b.Takes ls c :=
  @append_iff a c [l] ls

/-- The lexemes ahead tell what can be taken. -/
theorem lexemes_ahead (h : a.Takes ls b) :
    a.ahead.map Token.lexeme = ls ++ b.ahead.map Token.lexeme := by
  induction h with
  | nil => rfl
  | cons _ ih => simpa using ih

theorem of_lexemes {rest : List Lexeme} (h : a.ahead.map Token.lexeme = ls ++ rest) :
    ∃ b, a.Takes ls b ∧ b.ahead.map Token.lexeme = rest := by
  induction ls generalizing a with
  | nil => exact ⟨a, .nil a, h⟩
  | cons l ls ih =>
    obtain ⟨last, _ | ⟨token, ahead⟩⟩ := a
    · simp at h
    · simp only [List.map_cons, List.cons_append, List.cons.injEq] at h
      obtain ⟨b, htakes, hrest⟩ := ih (a := ⟨some token, ahead⟩) h.2
      exact ⟨b, h.1 ▸ .cons htakes, hrest⟩

/-- Each lexeme taken is one token less ahead. -/
theorem remaining (h : a.Takes ls b) : b.remaining + ls.length = a.remaining := by
  have hlen := congrArg List.length h.lexemes_ahead
  simp only [List.length_map, List.length_append] at hlen
  simp only [Cursor.remaining]
  omega

/-- The first lexeme that can be taken is the one that a test of the next token sees. -/
theorem nextIs (h : a.Takes (l :: ls) b) (test : Lexeme → Bool) : a.nextIs test = test l := by
  cases h with
  | cons _ => rfl

theorem singleton_iff : a.Takes [l] b ↔
    ∃ token ahead, a.ahead = token :: ahead ∧ token.lexeme = l ∧ b = ⟨some token, ahead⟩ := by
  constructor
  · intro h
    cases h with
    | cons htail => exact ⟨_, _, rfl, rfl, nil_iff.1 htail⟩
  · obtain ⟨last, tokens⟩ := a
    rintro ⟨token, ahead, rfl, rfl, rfl⟩
    exact .cons (.nil _)

/-- The lexemes to be taken are those that lie ahead. -/
theorem lookahead (h : a.Takes ls b) {n : Nat} (hn : n ≤ ls.length) :
    (a.ahead.take n).map Token.lexeme = ls.take n := by
  rw [← List.map_take.symm, h.lexemes_ahead, List.take_append_of_le_length hn]

end Takes

end Cursor

/-! ### Pieces of steps -/

namespace Reading

variable {σ α β : Type} [HasCursor σ]

@[simp] theorem pure_done {a b : α} {s t : σ} :
    (pure a : Reading σ α).run s = .done b t ↔ a = b ∧ t = s := by
  simp only [run_pure, Outcome.done.injEq, eq_comm (a := s)]

@[simp] theorem fail_done {fault : Fault} {a : α} {s t : σ} :
    ¬ (fail fault : Reading σ α).run s = .done a t := by
  simp

@[simp] theorem bind_done {r : Reading σ α} {next : α → Reading σ β} {s t : σ} {b : β} :
    (r >>= next).run s = .done b t ↔ ∃ a u, r.run s = .done a u ∧ (next a).run u = .done b t := by
  rw [run_bind]
  cases hr : r.run s with
  | done a u =>
    constructor
    · intro h
      exact ⟨a, u, rfl, h⟩
    · rintro ⟨a', u', heq, h⟩
      cases heq
      exact h
  | stopped fault u => simp

@[simp] theorem ofExcept_done {e : Except Fault α} {a : α} {s t : σ} :
    (ofExcept e : Reading σ α).run s = .done a t ↔ e = .ok a ∧ t = s := by
  cases e with
  | ok b => simp [ofExcept, done, eq_comm]
  | error fault => simp [ofExcept]

@[simp] theorem ite_done {p : Prop} [Decidable p] {r r' : Reading σ α} {s t : σ} {a : α} :
    (if p then r else r').run s = .done a t ↔
      (p ∧ r.run s = .done a t) ∨ (¬ p ∧ r'.run s = .done a t) := by
  by_cases hp : p <;> simp [hp]

@[simp] theorem state_done {s t u : σ} :
    (state : Reading σ σ).run s = .done u t ↔ u = s ∧ t = s := by
  simp only [run_state, Outcome.done.injEq, eq_comm]

end Reading

namespace Reader

open Cursor (Takes)

variable {c c' : Cursor}

@[simp] theorem take_done {l : Lexeme} : take.run c = .done l c' ↔ c.Takes [l] c' := by
  obtain ⟨last, _ | ⟨token, ahead⟩⟩ := c
  · simp [take, Reader.token, Reading.run_bind, Takes.singleton_iff]
  · simp only [take, Reader.token, Reading.run_bind, Reading.run_pure, Outcome.done.injEq,
      Takes.singleton_iff]
    constructor
    · rintro ⟨rfl, rfl⟩
      exact ⟨token, ahead, rfl, rfl, rfl⟩
    · rintro ⟨token', ahead', heq, rfl, rfl⟩
      cases heq
      exact ⟨rfl, rfl⟩

@[simp] theorem nextIs_done {test : Lexeme → Bool} {b : Bool} :
    (nextIs test).run c = .done b c' ↔ b = c.nextIs test ∧ c' = c := by
  simp only [nextIs, Reading.bind_done, Reading.state_done, Reading.pure_done]
  constructor
  · rintro ⟨_, _, ⟨rfl, rfl⟩, rfl, rfl⟩
    exact ⟨rfl, rfl⟩
  · rintro ⟨rfl, rfl⟩
    exact ⟨c', c', ⟨rfl, rfl⟩, rfl, rfl⟩

theorem expect_done {wanted : Expectation} {test : Lexeme → Bool} {u : Unit} :
    (expect wanted test).run c = .done u c' ↔ ∃ l, test l = true ∧ c.Takes [l] c' := by
  simp only [expect, Reading.bind_done, take_done, Reading.ite_done, Reading.pure_done,
    Reading.fail_done, and_false, or_false]
  constructor
  · rintro ⟨l, d, htakes, htest, -, rfl⟩
    exact ⟨l, htest, htakes⟩
  · rintro ⟨l, htest, htakes⟩
    exact ⟨l, c', htakes, htest, trivial, rfl⟩

@[simp] theorem mark_done {m : Punctuation} {u : Unit} :
    (mark m).run c = .done u c' ↔ c.Takes [Tree.mark m] c' := by
  simp [mark, expect_done, Lexeme.isMark]

@[simp] theorem word_done {w : Keyword} {u : Unit} :
    (word w).run c = .done u c' ↔ c.Takes [Tree.word w] c' := by
  simp [word, expect_done, Lexeme.isWord]

@[simp] theorem operator_done {op : Operator} {u : Unit} :
    (operator op).run c = .done u c' ↔ c.Takes [.operator op] c' := by
  simp [operator, expect_done, Lexeme.isOperator]

@[simp] theorem identifier_done {x : String} :
    identifier.run c = .done x c' ↔ c.Takes [Tree.ident x] c' := by
  simp only [identifier, Reading.bind_done, take_done]
  constructor
  · rintro ⟨l, d, htakes, hrun⟩
    split at hrun
    · simp only [Reading.pure_done] at hrun
      obtain ⟨rfl, rfl⟩ := hrun
      exact htakes
    · simp at hrun
  · intro htakes
    exact ⟨_, c', htakes, by simp⟩

@[simp] theorem reject_done {α : Type} {wanted : Expectation} {a : α} :
    ¬ (reject wanted : Reader α).run c = .done a c' := by
  simp [reject]

end Reader

end ClassLang
