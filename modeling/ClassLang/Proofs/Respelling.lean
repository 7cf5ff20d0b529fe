/-
  ClassLang/Proofs/Respelling.lean
  ================================
  **The layout of a program does not matter.**

  The tokens of a text can be written down anew: every token as it is spelled, strings
  in quotes and with escapes, and blanks and comments between them at will, as long as
  there is something.  A `Respelled` text is made of the same lexemes, since what
  separates two lexemes never runs on from the first of them (`stopsBefore_separator`).
  Whatever the pass finds in the one it finds in the other, since it does not look at
  positions.  So both are compiled to the same assembly text, or both are rejected for
  the same fault; the fault fixes its kind and its message, but not its place.
-/
import ClassLang.Proofs.LexicalGrammar
import ClassLang.Proofs.PositionIndependence

namespace ClassLang

open Lexer (isWordPart)

/-! ### Separators -/

/-- Blanks and comments, where every comment has its newline. -/
inductive IsSeparator : List Char → Prop where
  | nil : IsSeparator []
  | blank {c : Char} {gap : List Char} (hblank : Text.isBlank c = true) (h : IsSeparator gap) :
      IsSeparator (c :: gap)
  | comment {line gap : List Char} (hline : '\n' ∉ line) (h : IsSeparator gap) :
      IsSeparator ('/' :: '/' :: (line ++ '\n' :: gap))

/-- A separator is a gap whatever follows. -/
theorem IsSeparator.isGap {gap : List Char} (h : IsSeparator gap) (rest : List Char) :
    IsGap gap rest := by
  induction h with
  | nil => exact .nil
  | blank hblank _ ih => exact .blank hblank ih
  | comment hline _ ih => exact .comment hline (by simp) (.blank Text.isBlank_newline ih)

/-- A separator begins with a character that no lexeme goes on with. -/
theorem IsSeparator.head {gap : List Char} (h : IsSeparator gap) {c : Char} (hc : c ∈ gap.head?) :
    isWordPart c = false ∧ c ≠ '=' := by
  cases h with
  | nil => cases hc
  | comment hline _ =>
    cases hc
    decide
  | @blank d gap hblank _ =>
    cases hc
    have hvisible : ¬ (0x21 ≤ c.toNat ∧ c.toNat ≤ 0x7e) := by
      rintro ⟨hlow, hhigh⟩
      rw [Lexer.isBlank_eq_false hlow hhigh] at hblank
      cases hblank
    refine ⟨Lexer.isWordPart_eq_false.2 ⟨?_, ?_⟩, ?_⟩
    · rw [Bool.eq_false_iff]
      intro hstart
      have hrange := Lexer.range_of_isWordStart hstart
      omega
    · rw [Bool.eq_false_iff]
      intro hdigit
      have hrange := Lexer.range_of_isDigit hdigit
      omega
    · rintro rfl
      exact hvisible (by decide)

/-- No lexeme runs on into a separator, nor into the end of the text. -/
theorem stopsBefore_separator {gap rest : List Char} (h : IsSeparator gap)
    (hrest : rest ≠ [] → gap ≠ []) (lexeme : Lexeme) : lexeme.StopsBefore (gap ++ rest) := by
  have hhead : ∀ c ∈ (gap ++ rest).head?, isWordPart c = false ∧ c ≠ '=' := by
    intro c hc
    cases gap with
    | nil =>
      cases rest with
      | nil => cases hc
      | cons d rest => exact absurd rfl (hrest (List.cons_ne_nil d rest))
    | cons d gap => exact h.head hc
  cases lexeme with
  | identifier | keyword | number => exact fun c hc => (hhead c hc).1
  | string | punctuation => trivial
  | operator op =>
    cases op with
    | assign => exact fun c hc => (hhead c hc).2
    | compare relation =>
      cases relation with
      | greater | less => exact fun c hc => (hhead c hc).2
      | equal | greaterEqual | lessEqual => trivial

/-! ### Texts that spell given lexemes -/

/-- A text that begins with the first of the lexemes and spells all of them in their order, with
    separators that are not empty between them. -/
inductive Respells : List Lexeme → List Char → Prop where
  | nil : Respells [] []
  | cons {lexeme : Lexeme} {lexemes : List Lexeme} {spelling gap rest : List Char}
      (hspelled : lexeme.SpelledAs spelling) (hgap : IsSeparator gap)
      (hne : lexemes ≠ [] → gap ≠ []) (hrest : Respells lexemes rest) :
      Respells (lexeme :: lexemes) (spelling ++ (gap ++ rest))

/-- The lexemes are written down anew, with or without a separator in front and behind. -/
def Respelled (lexemes : List Lexeme) (text : List Char) : Prop :=
  ∃ gap rest, IsSeparator gap ∧ Respells lexemes rest ∧ text = gap ++ rest

theorem Respells.ne_nil {lexemes : List Lexeme} {text : List Char} (h : Respells lexemes text)
    (hne : text ≠ []) : lexemes ≠ [] := by
  rintro rfl
  cases h
  exact hne rfl

/-- A text that spells lexemes is made of tokens that say just these. -/
theorem exists_lexed_of_respells {lexemes : List Lexeme} {text : List Char}
    (h : Respells lexemes text) {gap : List Char} (hgap : IsSeparator gap) (before : List Char) :
    ∃ tokens, Lexed before (gap ++ text) tokens ∧ tokens.map Token.lexeme = lexemes := by
  induction h generalizing gap before with
  | nil =>
    refine ⟨[], ?_, rfl⟩
    rw [List.append_nil]
    exact .finish (hgap.isGap [])
  | @cons lexeme lexemes spelling gap' rest hspelled hgap' hne hrest ih =>
    have hstops := stopsBefore_separator hgap' (fun h => hne (hrest.ne_nil h)) lexeme
    obtain ⟨tokens, hlexed, htokens⟩ := ih hgap' (before ++ gap ++ spelling)
    refine ⟨_, .token (hgap.isGap _) hspelled hstops hlexed, ?_⟩
    rw [List.map_cons, htokens]

theorem Respelled.exists_tokens {lexemes : List Lexeme} {text : String}
    (h : Respelled lexemes text.toList) :
    ∃ tokens, tokenize text = .ok tokens ∧ tokens.map Token.lexeme = lexemes := by
  obtain ⟨gap, rest, hgap, hrespells, htext⟩ := h
  obtain ⟨tokens, hlexed, htokens⟩ := exists_lexed_of_respells hrespells hgap []
  rw [← htext] at hlexed
  exact ⟨tokens, Lexer.tokensFrom_of_lexed hlexed, htokens⟩

/-! ### A spelling for every lexeme -/

/-- How a character of a string is written: with one of the four escapes, or as it is. -/
def escaped (c : Char) : List Char :=
  match c with
  | '\n' => ['\\', 'n']
  | '\t' => ['\\', 't']
  | '"' => ['\\', '"']
  | '\\' => ['\\', '\\']
  | c => [c]

namespace Lexeme

/-- The lexeme as it is written in a text. -/
def spelling : Lexeme → List Char
  | .string content => '"' :: (content.toList.flatMap escaped ++ ['"'])
  | lexeme => lexeme.literal.toList

/-- The lexemes one after the other, each with a separator behind it. -/
def spellAll (gap : List Char) (lexemes : List Lexeme) : List Char :=
  lexemes.flatMap fun lexeme => lexeme.spelling ++ gap

theorem isQuoted_escaped (content : List Char) : IsQuoted content (content.flatMap escaped) := by
  induction content with
  | nil => exact .nil
  | cons c content ih =>
    rw [List.flatMap_cons]
    unfold escaped
    split
    · exact .newline ih
    · exact .tabulator ih
    · exact .quote ih
    · exact .backslash ih
    · rename_i hnewline _ hquote hbackslash
      exact .plain hquote hbackslash hnewline ih

/-- A lexeme that can be spelled at all is spelled so. -/
theorem SpelledAs.spelling {lexeme : Lexeme} {written : List Char} (h : lexeme.SpelledAs written) :
    lexeme.SpelledAs lexeme.spelling := by
  cases h with
  | punctuation mark =>
    have htext : (Lexeme.punctuation mark).spelling = [mark.char] := String.toList_singleton _
    rw [htext]
    exact .punctuation mark
  | operator op => exact .operator op
  | keyword word => exact .keyword word
  | identifier hname => exact .identifier hname
  | number hnumeral => exact .number hnumeral
  | string hquoted => exact .string (isQuoted_escaped _)

end Lexeme

theorem Lexed.spelledAs {before text : List Char} {tokens : List Token}
    (h : Lexed before text tokens) :
    ∀ token ∈ tokens, ∃ written, token.lexeme.SpelledAs written := by
  induction h with
  | finish => simp
  | token _ hspelled _ _ ih =>
    intro token htoken
    rcases List.mem_cons.1 htoken with rfl | htoken
    · exact ⟨_, hspelled⟩
    · exact ih token htoken

/-- Every separator can be used to write the tokens of a text down anew. -/
theorem respelled_spellAll {source : String} {tokens : List Token} {gap : List Char}
    (h : tokenize source = .ok tokens) (hgap : IsSeparator gap) (hne : gap ≠ []) :
    Respelled (tokens.map Token.lexeme) (Lexeme.spellAll gap (tokens.map Token.lexeme)) := by
  have hlexed : Lexed [] source.toList tokens := Lexer.lexed_of_tokensFrom h
  have hspelled := hlexed.spelledAs
  have hrespells : Respells (tokens.map Token.lexeme)
      (Lexeme.spellAll gap (tokens.map Token.lexeme)) := by
    clear h hlexed
    induction tokens with
    | nil => exact .nil
    | cons token tokens ih =>
      obtain ⟨written, hwritten⟩ := hspelled token List.mem_cons_self
      have hrest := ih fun token htoken => hspelled token (List.mem_cons_of_mem _ htoken)
      rw [List.map_cons, Lexeme.spellAll, List.flatMap_cons, List.append_assoc]
      exact .cons hwritten.spelling hgap (fun _ => hne) hrest
  exact ⟨[], _, .nil, hrespells, rfl⟩

/-! ### Compiling a respelled text -/

theorem fault_assemble {source : String} {tokens : List Token} (h : tokenize source = .ok tokens) :
    (assemble source).mapError Located.fault =
      ((compileTokens tokens).mapError Located.fault).map (·.layout.text) := by
  have hcompile : compile source = compileTokens tokens := by
    rw [compile, h]
    rfl
  rw [assemble, hcompile]
  cases compileTokens tokens with
  | ok compilation => rfl
  | error located => rfl

/-- Writing the tokens of a text down anew changes neither what they say nor what the text is
    compiled to.  If the text is rejected, so is the new one, for the same fault. -/
theorem assemble_respelled {source text : String} {tokens : List Token}
    (h : tokenize source = .ok tokens)
    (hrespelled : Respelled (tokens.map Token.lexeme) text.toList) :
    (∃ tokens', tokenize text = .ok tokens' ∧
        tokens'.map Token.lexeme = tokens.map Token.lexeme) ∧
      (assemble text).mapError Located.fault = (assemble source).mapError Located.fault := by
  obtain ⟨tokens', htokens', hsame⟩ := hrespelled.exists_tokens
  refine ⟨⟨tokens', htokens', hsame⟩, ?_⟩
  rw [fault_assemble htokens', fault_assemble h, compileTokens_eq hsame]

/-- A text with nothing between its tokens. -/
def denseText : String :=
  "main()\x7bprints(\"a\\n\\\"b\");\x7d"

/-- The same tokens with an empty comment behind each of them. -/
def commentedText : String :=
  "main//\n(//\n)//\n\x7b//\nprints//\n(//\n\"a\\n\\\"b\"//\n)//\n;//\n\x7d//\n"

theorem assemble_respelled_commented :
    ∃ tokens, tokenize denseText = .ok tokens ∧
      Respelled (tokens.map Token.lexeme) commentedText.toList ∧
        (∃ tokens', tokenize commentedText = .ok tokens' ∧
          tokens'.map Token.lexeme = tokens.map Token.lexeme) ∧
        (assemble commentedText).mapError Located.fault =
          (assemble denseText).mapError Located.fault := by
  have hcomment : IsSeparator ['/', '/', '\n'] := .comment List.not_mem_nil .nil
  have htext : (tokenize denseText).toOption.map
      (fun tokens => Lexeme.spellAll ['/', '/', '\n'] (tokens.map Token.lexeme)) =
        some commentedText.toList := by
    decide +kernel
  cases htokens : tokenize denseText with
  | error located =>
    rw [htokens] at htext
    cases htext
  | ok tokens =>
    rw [htokens] at htext
    have hrespelled := respelled_spellAll htokens hcomment (List.cons_ne_nil _ _)
    rw [show Lexeme.spellAll _ _ = commentedText.toList from Option.some.inj htext] at hrespelled
    exact ⟨tokens, rfl, hrespelled, assemble_respelled htokens hrespelled⟩

end ClassLang
