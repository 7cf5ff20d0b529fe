/-
  ClassLang/Proofs/Names.lean
  ===========================
  **What the tokens of a text can say.**

  A list of lexemes can hold anything; the lexemes of a text cannot.  An identifier
  begins with a letter or an underscore, goes on with letters, digits and underscores,
  and is no reserved word; a number fits a signed word of 32 bits.  `Lexeme.Proper`
  says so, and `proper_of_tokenize` is the statement that the lexer makes nothing else.
  Two things rest on it: a name that is not that of a built-in type can only mean a
  class, and labels of different kinds can be told apart by their shape.
-/
import ClassLang.Token.Lexer
import ClassLang.Ty

namespace ClassLang

open Lexer (isWordStart isWordPart)

/-- The spelling of an identifier: a word that is not reserved. -/
structure IsName (x : String) : Prop where
  first : ∃ c rest, x.toList = c :: rest ∧ isWordStart c = true
  parts : ∀ c ∈ x.toList, isWordPart c = true
  free : Keyword.ofText? x = none

/-- Lexemes that the lexer can make. -/
def Lexeme.Proper : Lexeme → Prop
  | .identifier x => IsName x
  | .number digits => ∃ n, Text.word? digits.toList = some n
  | _ => True

namespace Lexer

theorem proper_of_cutWord {c : Char} {rest : List Char} (h : isWordStart c = true) :
    (cutWord (c :: rest)).lexeme.Proper := by
  have hpart : isWordPart c = true := by
    simp only [isWordStart, isWordPart, Char.isAlphanum, Bool.or_eq_true] at h ⊢
    exact h.imp_left Or.inl
  simp only [cutWord, wordLexeme]
  cases hword : Keyword.ofText? (String.ofList ((c :: rest).takeWhile isWordPart)) with
  | some word => trivial
  | none =>
    refine ⟨⟨c, rest.takeWhile isWordPart, ?_, h⟩, ?_, hword⟩
    · rw [String.toList_ofList, List.takeWhile_cons, hpart]
      rfl
    · intro d hd
      rw [String.toList_ofList] at hd
      exact List.all_eq_true.1 List.all_takeWhile d hd

theorem proper_of_cutNumber {sign text : List Char} {k : Cut} (h : cutNumber sign text = .ok k) :
    k.lexeme.Proper := by
  unfold cutNumber at h
  dsimp only at h
  split at h
  · simp at h
  · split at h
    · simp at h
    · split at h
      · simp at h
      · rename_i n hn
        cases h
        exact ⟨n, by rw [String.toList_ofList]; exact hn⟩

theorem proper_of_cutOperator? {c : Char} {rest : List Char} {k : Cut}
    (h : cutOperator? c rest = some k) : k.lexeme.Proper := by
  unfold cutOperator? at h
  split at h <;> cases h <;> trivial

theorem proper_of_cut {c : Char} {rest : List Char} {k : Cut} (h : cut c rest = .ok k) :
    k.lexeme.Proper := by
  unfold cut at h
  split at h
  · cases h
    trivial
  · split at h
    · rename_i hop
      cases h
      exact proper_of_cutOperator? hop
    · split at h
      · unfold cutString at h
        split at h <;> cases h
        trivial
      · split at h
        · exact proper_of_cutNumber h
        · split at h
          · exact proper_of_cutNumber h
          · split at h
            · rename_i hstart
              cases h
              exact proper_of_cutWord hstart
            · simp at h

theorem proper_of_tokensFrom {p : Position} {text : List Char} {tokens : List Token}
    (h : tokensFrom p text = .ok tokens) : ∀ token ∈ tokens, token.lexeme.Proper := by
  fun_induction tokensFrom p text generalizing tokens with
  | case1 =>
    cases h
    simp
  | case2 => cases h
  | case3 p text gap c rest _ start k hcut =>
    rename_i ih
    cases hrest : tokensFrom (start.after k.spelling) k.rest with
    | error located =>
      rw [hrest] at h
      cases h
    | ok rest =>
      rw [hrest] at h
      cases h
      intro token htoken
      rcases List.mem_cons.1 htoken with rfl | htoken
      · exact proper_of_cut hcut
      · exact ih hrest token htoken

end Lexer

theorem proper_of_tokenize {source : String} {tokens : List Token}
    (h : tokenize source = .ok tokens) : ∀ token ∈ tokens, token.lexeme.Proper :=
  Lexer.proper_of_tokensFrom h

theorem IsName.ne_empty {x : String} (h : IsName x) : x ≠ "" := by
  rintro rfl
  obtain ⟨c, rest, hx, -⟩ := h.first
  cases hx

/-- A name is never that of a built-in type. -/
theorem IsName.ofText {x : String} (h : IsName x) : Ty.ofText x = .object x := by
  unfold Ty.ofText
  split
  · exact absurd h.free (by decide)
  · exact absurd h.free (by decide)
  · rfl

theorem proper_lexemes {source : String} {tokens : List Token} (h : tokenize source = .ok tokens) :
    ∀ l ∈ tokens.map Token.lexeme, l.Proper := by
  intro l hl
  obtain ⟨token, htoken, rfl⟩ := List.mem_map.1 hl
  exact proper_of_tokenize h token htoken

end ClassLang
