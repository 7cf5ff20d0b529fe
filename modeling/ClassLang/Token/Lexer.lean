/-
  ClassLang/Token/Lexer.lean
  ==========================
  **From text to tokens.**

  The text is read as alternating gaps and lexemes.  A gap is any run of blanks
  and comments; a comment runs from `//` to the end of its line.  Behind a gap
  the first character decides what kind of lexeme follows, and each kind takes the
  longest stretch it can.

  Every cut splits the text without loss: a gap and what is left join to the text
  (`splitGap_append`), and so do the spelling of a lexeme and what is left
  (`joined_of_cut`).  Positions need no bookkeeping in the cuts, since the position
  behind a stretch of text is a fold over it.
-/
import ClassLang.Diagnostic
import ClassLang.Text.Blank
import ClassLang.Text.Numeral

namespace ClassLang.Lexer

/-! ### Gaps -/

/-- Split off the blanks and comments that a text begins with.  The flag tells whether the text
    begins inside a comment; a newline ends the comment and belongs to the gap itself. -/
def splitGap (inComment : Bool) : List Char → List Char × List Char
  | [] => ([], [])
  | c :: rest =>
    if inComment then
      let (gap, left) := splitGap (c != '\n') rest
      (c :: gap, left)
    else if Text.isBlank c then
      let (gap, left) := splitGap false rest
      (c :: gap, left)
    else if c = '/' ∧ rest.head? = some '/' then
      let (gap, left) := splitGap true rest
      (c :: gap, left)
    else
      ([], c :: rest)

/-- A gap and what is left behind it make up the text. -/
theorem splitGap_append (inComment : Bool) (text : List Char) :
    (splitGap inComment text).1 ++ (splitGap inComment text).2 = text := by
  induction text generalizing inComment with
  | nil => rfl
  | cons c rest ih =>
    rw [splitGap]
    split
    · simp [ih]
    · split
      · simp [ih]
      · split
        · simp [ih]
        · rfl

/-! ### Cutting one lexeme -/

/-- A lexeme cut off the front of a text: how it was spelled, and what is left. -/
structure Cut where
  lexeme : Lexeme
  spelling : List Char
  rest : List Char
deriving Repr

/-- Why no lexeme can be cut: the fault, and the stretch of text between the start of the lexeme
    and the place to blame. -/
structure Misfit where
  fault : LexicalFault
  before : List Char
deriving Repr

/-- Letters that begin a word. -/
def isWordStart (c : Char) : Bool :=
  c.isAlpha || c == '_'

def isWordPart (c : Char) : Bool :=
  c.isAlphanum || c == '_'

/-- A word is reserved or an identifier. -/
def wordLexeme (word : String) : Lexeme :=
  match Keyword.ofText? word with
  | some keyword => .keyword keyword
  | none => .identifier word

/-- The longest word at the front of a text. -/
def cutWord (text : List Char) : Cut :=
  let word := text.takeWhile isWordPart
  ⟨wordLexeme (String.ofList word), word, text.dropWhile isWordPart⟩

/-- The number behind a sign, which may be empty.  Digits are required, no word may follow
    directly, and the value has to fit a word of the machine, in this order. -/
def cutNumber (sign text : List Char) : Except Misfit Cut :=
  let digits := text.takeWhile Char.isDigit
  let rest := text.dropWhile Char.isDigit
  let spelling := sign ++ digits
  if digits.isEmpty then
    .error ⟨.loneMinus, []⟩
  else
    match rest.head?.filter isWordStart with
    | some next => .error ⟨.malformedNumber (String.ofList spelling) next, []⟩
    | none =>
      match Text.word? spelling with
      | none => .error ⟨.numberOutsideRange (String.ofList spelling), []⟩
      | some _ => .ok ⟨.number (String.ofList spelling), spelling, rest⟩

/-- The character that a letter stands for behind a backslash. -/
def unescape? : Char → Option Char
  | 'n' => some '\n'
  | 't' => some '\t'
  | '"' => some '"'
  | '\\' => some '\\'
  | _ => none

/-- What follows the opening quote of a string. -/
inductive StringTail where
  -- content, spelling with the closing quote, and what is left
  | closed (content spelling rest : List Char)
  -- a newline or the end of the text comes first
  | unclosed
  -- the text before the backslash, and the character behind it
  | unknownEscape (before : List Char) (c : Char)
deriving Repr

/-- Put one more character, spelled in the given way, in front. -/
def StringTail.push (c : Char) (spelled : List Char) : StringTail → StringTail
  | .closed content spelling rest => .closed (c :: content) (spelled ++ spelling) rest
  | .unclosed => .unclosed
  | .unknownEscape before escape => .unknownEscape (spelled ++ before) escape

theorem StringTail.push_eq_closed {c : Char} {spelled content spelling rest : List Char}
    {tail : StringTail} : tail.push c spelled = .closed content spelling rest ↔
      ∃ content' spelling', tail = .closed content' spelling' rest ∧
        c :: content' = content ∧ spelled ++ spelling' = spelling := by
  cases tail with
  | closed content' spelling' rest' =>
    simp only [push, closed.injEq]
    constructor
    · rintro ⟨hcontent, hspelling, rfl⟩
      exact ⟨content', spelling', ⟨rfl, rfl, rfl⟩, hcontent, hspelling⟩
    · rintro ⟨_, _, ⟨rfl, rfl, rfl⟩, hcontent, hspelling⟩
      exact ⟨hcontent, hspelling, rfl⟩
  | unclosed | unknownEscape before escape => simp [push]

def stringTail : List Char → StringTail
  | [] => .unclosed
  | '"' :: rest => .closed [] ['"'] rest
  | ['\\'] => .unclosed
  | '\\' :: escape :: rest =>
    match unescape? escape with
    | some c => (stringTail rest).push c ['\\', escape]
    | none => .unknownEscape [] escape
  | c :: rest => if c = '\n' then .unclosed else (stringTail rest).push c [c]

/-- The string whose opening quote stands before the text.  An unclosed string is blamed at its
    opening quote, an unknown escape at its backslash. -/
def cutString (text : List Char) : Except Misfit Cut :=
  match stringTail text with
  | .closed content spelling rest =>
      .ok ⟨.string (String.ofList content), '"' :: spelling, rest⟩
  | .unclosed => .error ⟨.unterminatedString, []⟩
  | .unknownEscape before c => .error ⟨.unknownEscape c, '"' :: before⟩

/-- The operator at the front of a text.  Where two characters make an operator they win over the
    first one alone. -/
def cutOperator? (c : Char) (rest : List Char) : Option Cut :=
  match c, rest with
  | '=', '=' :: left => some ⟨.operator (.compare .equal), ['=', '='], left⟩
  | '=', left => some ⟨.operator .assign, ['='], left⟩
  | '>', '=' :: left => some ⟨.operator (.compare .greaterEqual), ['>', '='], left⟩
  | '>', left => some ⟨.operator (.compare .greater), ['>'], left⟩
  | '<', '=' :: left => some ⟨.operator (.compare .lessEqual), ['<', '='], left⟩
  | '<', left => some ⟨.operator (.compare .less), ['<'], left⟩
  | _, _ => none

/-- Cut the lexeme that begins with the character `c`. -/
def cut (c : Char) (rest : List Char) : Except Misfit Cut :=
  match Punctuation.ofChar? c with
  | some mark => .ok ⟨.punctuation mark, [c], rest⟩
  | none =>
    match cutOperator? c rest with
    | some cut => .ok cut
    | none =>
      if c = '"' then cutString rest
      else if c = '-' then cutNumber ['-'] rest
      else if c.isDigit then cutNumber [] (c :: rest)
      else if isWordStart c then .ok (cutWord (c :: rest))
      else .error ⟨.unsupportedCharacter c, []⟩

/-! ### Nothing is lost by a cut -/

theorem joined_of_cutNumber {sign text : List Char} {k : Cut} (h : cutNumber sign text = .ok k) :
    k.spelling ++ k.rest = sign ++ text ∧ k.spelling ≠ [] := by
  unfold cutNumber at h
  dsimp only at h
  split at h
  · simp at h
  · rename_i hdigits
    split at h
    · simp at h
    · split at h
      · simp at h
      · simp only [Except.ok.injEq] at h
        subst h
        refine ⟨?_, ?_⟩
        · simp [List.append_assoc, List.takeWhile_append_dropWhile]
        · intro hnil
          simp only [List.append_eq_nil_iff] at hnil
          simp [hnil.2] at hdigits

theorem joined_of_stringTail {text content spelling rest : List Char}
    (h : stringTail text = .closed content spelling rest) : spelling ++ rest = text := by
  fun_induction stringTail text generalizing content spelling rest with
  | case1 => simp at h
  | case2 left =>
    simp only [StringTail.closed.injEq] at h
    obtain ⟨_, rfl, rfl⟩ := h
    rfl
  | case3 => simp at h
  | case4 escape left c hc ih =>
    obtain ⟨content', spelling', ht, -, rfl⟩ := StringTail.push_eq_closed.1 h
    simp [ih ht]
  | case5 => simp at h
  | case6 => simp at h
  | case7 c left _ _ _ _ ih =>
    obtain ⟨content', spelling', ht, -, rfl⟩ := StringTail.push_eq_closed.1 h
    simp [ih ht]

theorem joined_of_cutString {text : List Char} {k : Cut} (h : cutString text = .ok k) :
    k.spelling ++ k.rest = '"' :: text ∧ k.spelling ≠ [] := by
  unfold cutString at h
  split at h
  · rename_i content spelling rest ht
    simp only [Except.ok.injEq] at h
    subst h
    simp [joined_of_stringTail ht]
  · simp at h
  · simp at h

theorem joined_of_cutOperator? {c : Char} {rest : List Char} {k : Cut}
    (h : cutOperator? c rest = some k) : k.spelling ++ k.rest = c :: rest ∧ k.spelling ≠ [] := by
  unfold cutOperator? at h
  split at h <;> simp only [Option.some.injEq, reduceCtorEq] at h <;> subst h <;> simp

/-- The spelling of a lexeme and what is left behind it make up the text, and a spelling is never
    empty. -/
theorem joined_of_cut {c : Char} {rest : List Char} {k : Cut} (h : cut c rest = .ok k) :
    k.spelling ++ k.rest = c :: rest ∧ k.spelling ≠ [] := by
  unfold cut at h
  split at h
  · simp only [Except.ok.injEq] at h
    subst h
    simp
  · split at h
    · rename_i hop
      simp only [Except.ok.injEq] at h
      subst h
      exact joined_of_cutOperator? hop
    · split at h
      · rename_i hc
        subst hc
        exact joined_of_cutString h
      · split at h
        · rename_i hc
          subst hc
          exact joined_of_cutNumber h
        · split at h
          · exact joined_of_cutNumber h
          · split at h
            · rename_i hword
              simp only [Except.ok.injEq] at h
              subst h
              have hpart : isWordPart c = true := by
                simp only [isWordStart, isWordPart, Char.isAlphanum, Bool.or_eq_true] at hword ⊢
                exact hword.imp_left Or.inl
              simp [cutWord, List.takeWhile_append_dropWhile, hpart]
            · simp at h

/-- Behind a lexeme less text is left. -/
theorem length_rest_lt_of_cut {c : Char} {rest : List Char} {k : Cut} (h : cut c rest = .ok k) :
    k.rest.length < (c :: rest).length := by
  obtain ⟨hjoin, hne⟩ := joined_of_cut h
  have hlen := congrArg List.length hjoin
  have hpos := List.length_pos_iff.2 hne
  simp only [List.length_append] at hlen
  omega

/-! ### The whole text -/

/-- The tokens of a text that begins at the position `p`, or the first lexical fault. -/
def tokensFrom (p : Position) (text : List Char) : Except Located (List Token) :=
  match _hgap : splitGap false text with
  | (_, []) => .ok []
  | (gap, c :: rest) =>
    let start := p.after gap
    match _hcut : cut c rest with
    | .error misfit => .error ⟨.lexical misfit.fault, start.after misfit.before⟩
    | .ok k => (tokensFrom (start.after k.spelling) k.rest).map (⟨k.lexeme, start⟩ :: ·)
termination_by text.length
decreasing_by
  have happend := congrArg List.length (splitGap_append false text)
  have hlt := length_rest_lt_of_cut _hcut
  simp only [_hgap, List.length_append] at happend
  omega

end Lexer

/-- The tokens of a source text, or its first lexical fault and where that is. -/
def tokenize (source : String) : Except Located (List Token) :=
  Lexer.tokensFrom .start source.toList

end ClassLang
