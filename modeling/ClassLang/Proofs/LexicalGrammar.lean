/-
  ClassLang/Proofs/LexicalGrammar.lean
  ====================================
  **Which texts are made of tokens, and of which.**

  The lexer walks through a text and cuts off what it can.  Here is the same said of the
  text as a whole: it is a sequence of gaps and spellings in turn, beginning and ending
  with a gap, where every spelling is one of the lexeme that the token says, goes on as
  long as it can, and stands at the line and the column of the token.  `Lexed` is that
  statement, and it mentions neither the lexer nor the order in which it tries things.

  `tokenize_eq_ok_iff` says that the lexer accepts the texts that are lexed in this
  sense, and no others, and that it finds their tokens.  In one direction each cut of
  the lexer is looked at by itself (`gap_of_splitGap`, `spelledAs_of_cut`).  In the other
  direction a gap must end where the grammar says it does (`splitGap_of_gap`), and the
  lexeme behind it must be cut whole (`cut_of_spelledAs`).
-/
import ClassLang.Proofs.Names

namespace ClassLang

open Lexer (isWordStart isWordPart splitGap cut cutWord cutNumber cutString cutOperator? stringTail
  unescape? Cut StringTail wordLexeme tokensFrom)

/-! ### Gaps -/

/-- A gap before the rest of a text: blanks and comments in any order.  A comment goes on up to the
    next newline, which is not part of it, or up to the end of the text. -/
inductive IsGap : (gap rest : List Char) → Prop where
  | nil {rest : List Char} : IsGap [] rest
  | blank {c : Char} {gap rest : List Char} (hblank : Text.isBlank c = true)
      (hgap : IsGap gap rest) : IsGap (c :: gap) rest
  | comment {line gap rest : List Char} (hline : '\n' ∉ line)
      (hend : ∀ c ∈ (gap ++ rest).head?, c = '\n') (hgap : IsGap gap rest) :
      IsGap ('/' :: '/' :: (line ++ gap)) rest

/-! ### Spellings -/

/-- A minus or nothing, and one or more digits, with a value that a signed 32-bit word holds. -/
def IsNumeral (spelling : List Char) : Prop :=
  ∃ digits, digits ≠ [] ∧ (∀ d ∈ digits, d.isDigit = true) ∧
    ((spelling = digits ∧ Text.digitsValue digits ≤ 2147483647) ∨
      (spelling = '-' :: digits ∧ Text.digitsValue digits ≤ 2147483648))

/-- How the content of a string can be written between its quotes: a quote, a backslash and a
    newline only as an escape, a tabulator in both ways, and all else as it is. -/
inductive IsQuoted : (content spelling : List Char) → Prop where
  | nil : IsQuoted [] []
  | plain {c : Char} {content spelling : List Char} (hquote : c ≠ '"') (hbackslash : c ≠ '\\')
      (hnewline : c ≠ '\n') (h : IsQuoted content spelling) :
      IsQuoted (c :: content) (c :: spelling)
  | newline {content spelling : List Char} (h : IsQuoted content spelling) :
      IsQuoted ('\n' :: content) ('\\' :: 'n' :: spelling)
  | tabulator {content spelling : List Char} (h : IsQuoted content spelling) :
      IsQuoted ('\t' :: content) ('\\' :: 't' :: spelling)
  | quote {content spelling : List Char} (h : IsQuoted content spelling) :
      IsQuoted ('"' :: content) ('\\' :: '"' :: spelling)
  | backslash {content spelling : List Char} (h : IsQuoted content spelling) :
      IsQuoted ('\\' :: content) ('\\' :: '\\' :: spelling)

/-- The four letters that make an escape are those of the grammar. -/
theorem IsQuoted.escape {escape c : Char} {content spelling : List Char}
    (hc : unescape? escape = some c) (h : IsQuoted content spelling) :
    IsQuoted (c :: content) ('\\' :: escape :: spelling) := by
  unfold unescape? at hc
  split at hc <;> cases hc
  · exact .newline h
  · exact .tabulator h
  · exact .quote h
  · exact .backslash h

namespace Lexeme

/-- How a lexeme can be written.  A word is reserved or an identifier, never both. -/
inductive SpelledAs : Lexeme → List Char → Prop where
  | punctuation (mark : Punctuation) : SpelledAs (.punctuation mark) [mark.char]
  | operator (op : Operator) : SpelledAs (.operator op) op.text.toList
  | keyword (word : Keyword) : SpelledAs (.keyword word) word.text.toList
  | identifier {x : String} (h : IsName x) : SpelledAs (.identifier x) x.toList
  | number {digits : String} (h : IsNumeral digits.toList) :
      SpelledAs (.number digits) digits.toList
  | string {content : String} {spelling : List Char} (h : IsQuoted content.toList spelling) :
      SpelledAs (.string content) ('"' :: (spelling ++ ['"']))

/-- The lexeme is as long as it can be: a word or a number does not run into a letter, a digit or an
    underscore, and an operator of one character not into an equals sign. -/
def StopsBefore (rest : List Char) : Lexeme → Prop
  | .identifier _ | .keyword _ | .number _ => ∀ c ∈ rest.head?, isWordPart c = false
  | .operator .assign | .operator (.compare .greater) | .operator (.compare .less) =>
      ∀ c ∈ rest.head?, c ≠ '='
  | _ => True

end Lexeme

/-! ### Texts -/

/-- The line and the column that follow a text: one line more than it has newlines, and one column
    more than there are characters behind the last of them. -/
def Position.behind (text : List Char) : Position :=
  ⟨1 + text.count '\n', 1 + (text.reverse.takeWhile (· ≠ '\n')).length⟩

/-- A text that stands behind another one is a sequence of gaps and spellings, and these are the
    tokens that it is made of. -/
inductive Lexed : (before text : List Char) → List Token → Prop where
  | finish {before gap : List Char} (hgap : IsGap gap []) : Lexed before gap []
  | token {before gap spelling rest : List Char} {lexeme : Lexeme} {tokens : List Token}
      (hgap : IsGap gap (spelling ++ rest)) (hspelled : lexeme.SpelledAs spelling)
      (hstops : lexeme.StopsBefore rest)
      (hrest : Lexed (before ++ gap ++ spelling) rest tokens) :
      Lexed before (gap ++ (spelling ++ rest)) (⟨lexeme, .behind (before ++ gap)⟩ :: tokens)

theorem Position.behind_append_singleton (text : List Char) (c : Char) :
    behind (text ++ [c]) = (behind text).next c := by
  by_cases hc : c = '\n'
  · subst hc
    simp only [behind, next, List.count_append, List.reverse_append]
    simp
    omega
  · simp only [behind, next, List.count_append, List.reverse_append]
    simp [hc]
    omega

/-- The position that the lexer has come to behind a text. -/
theorem Position.after_behind (before text : List Char) :
    (behind before).after text = behind (before ++ text) := by
  induction text generalizing before with
  | nil => simp
  | cons c text ih =>
    rw [after_cons, ← behind_append_singleton, ih, List.append_assoc]
    rfl

/-! ### Gaps, cut and put together -/

namespace Lexer

theorem splitGap_true_cons (c : Char) (rest : List Char) :
    splitGap true (c :: rest) =
      (c :: (splitGap (c != '\n') rest).1, (splitGap (c != '\n') rest).2) := rfl

theorem splitGap_blank {c : Char} (h : Text.isBlank c = true) (rest : List Char) :
    splitGap false (c :: rest) = (c :: (splitGap false rest).1, (splitGap false rest).2) := by
  simp [splitGap, h]

theorem splitGap_slashes (rest : List Char) :
    splitGap false ('/' :: '/' :: rest) =
      ('/' :: (splitGap true ('/' :: rest)).1, (splitGap true ('/' :: rest)).2) := by
  have hslash : Text.isBlank '/' = false := by decide
  simp [splitGap, hslash]

/-- What the lexer takes for a gap is one; and if the text begins inside a comment, the rest of the
    comment comes first. -/
theorem gap_of_splitGap (inComment : Bool) (text : List Char) :
    if inComment then
      ∃ line gap, (splitGap true text).1 = line ++ gap ∧ '\n' ∉ line ∧
        (∀ c ∈ (gap ++ (splitGap true text).2).head?, c = '\n') ∧
          IsGap gap (splitGap true text).2
    else IsGap (splitGap false text).1 (splitGap false text).2 := by
  induction text generalizing inComment with
  | nil =>
    cases inComment with
    | false => exact .nil
    | true => exact ⟨[], [], rfl, by simp, by simp [splitGap], .nil⟩
  | cons c rest ih =>
    have hgap : IsGap (splitGap false rest).1 (splitGap false rest).2 := ih false
    obtain ⟨line, gap, hsplit, hline, hend, hbehind⟩ := ih true
    cases inComment with
    | true =>
      show ∃ line gap, _
      rw [splitGap_true_cons]
      by_cases hc : c = '\n'
      · subst hc
        exact ⟨[], _, rfl, by simp, by simp, .blank Text.isBlank_newline hgap⟩
      · have hflag : (c != '\n') = true := by simpa using hc
        rw [hflag]
        refine ⟨c :: line, gap, by rw [hsplit]; rfl, ?_, hend, hbehind⟩
        rw [List.mem_cons, not_or]
        exact ⟨fun heq => hc heq.symm, hline⟩
    | false =>
      show IsGap _ _
      by_cases hblank : Text.isBlank c = true
      · rw [splitGap_blank hblank]
        exact .blank hblank hgap
      · by_cases hcomment : c = '/' ∧ rest.head? = some '/'
        · obtain ⟨rfl, hhead⟩ := hcomment
          obtain ⟨rest, rfl⟩ := List.head?_eq_some_iff.1 hhead
          rw [splitGap_slashes]
          -- the second slash belongs to the comment, since what follows a comment is a newline
          cases line with
          | nil =>
            rw [splitGap_true_cons, List.nil_append] at hsplit
            have hslash := hend '/' (by rw [← hsplit]; simp)
            exact absurd hslash (by decide)
          | cons d line =>
            rw [hsplit]
            rw [splitGap_true_cons, List.cons_append, List.cons.injEq] at hsplit
            obtain ⟨rfl, -⟩ := hsplit
            rw [List.mem_cons, not_or] at hline
            exact .comment hline.2 hend hbehind
        · have hstop : splitGap false (c :: rest) = ([], c :: rest) := by
            simp [splitGap, hblank, hcomment]
          rw [hstop]
          exact .nil

theorem isGap_splitGap (text : List Char) :
    IsGap (splitGap false text).1 (splitGap false text).2 :=
  gap_of_splitGap false text

/-- A comment is taken whole. -/
theorem splitGap_line {line : List Char} (h : '\n' ∉ line) (text : List Char) :
    splitGap true (line ++ text) = (line ++ (splitGap true text).1, (splitGap true text).2) := by
  induction line with
  | nil => rfl
  | cons c line ih =>
    rw [List.mem_cons, not_or] at h
    have hflag : (c != '\n') = true := by simpa using fun heq : c = '\n' => h.1 heq.symm
    rw [List.cons_append, splitGap_true_cons, hflag, ih h.2]
    rfl

/-- Where a comment has come to its end, the lexer goes on as outside of comments. -/
theorem splitGap_true_eq {text : List Char} (h : ∀ c ∈ text.head?, c = '\n') :
    splitGap true text = splitGap false text := by
  cases text with
  | nil => rfl
  | cons c rest =>
    obtain rfl := h c (by simp)
    rw [splitGap_true_cons, splitGap_blank Text.isBlank_newline]
    rfl

/-- A gap is cut off whole, if what follows begins neither with a blank nor with a slash. -/
theorem splitGap_of_gap {gap rest : List Char} (h : IsGap gap rest)
    (hrest : ∀ c ∈ rest.head?, Text.isBlank c = false ∧ c ≠ '/') :
    splitGap false (gap ++ rest) = (gap, rest) := by
  induction h with
  | @nil rest =>
    cases rest with
    | nil => rfl
    | cons c rest =>
      obtain ⟨hblank, hslash⟩ := hrest c (by simp)
      simp [splitGap, hblank, hslash]
  | @blank c gap rest hblank _ ih => rw [List.cons_append, splitGap_blank hblank, ih hrest]
  | @comment line gap rest hline hend _ ih =>
    have hslash : '\n' ∉ '/' :: line := by
      rw [List.mem_cons, not_or]
      exact ⟨by decide, hline⟩
    have hwhole : splitGap true ('/' :: (line ++ (gap ++ rest))) =
        ('/' :: (line ++ gap), rest) := by
      rw [← List.cons_append, splitGap_line hslash, splitGap_true_eq hend, ih hrest]
      rfl
    rw [List.cons_append, List.cons_append, List.append_assoc, splitGap_slashes, hwhole]

/-! ### Cut lexemes are spelled lexemes -/

theorem isWordPart_eq_false {c : Char} :
    isWordPart c = false ↔ isWordStart c = false ∧ c.isDigit = false := by
  simp only [isWordPart, isWordStart, Char.isAlphanum, Bool.or_eq_false_iff]
  exact and_right_comm

/-- What is left behind a run of characters begins with another kind of character. -/
theorem head?_dropWhile {test : Char → Bool} {text : List Char} {c : Char}
    (h : c ∈ (text.dropWhile test).head?) : test c = false := by
  have hnot := List.head?_dropWhile_not test text
  rw [Option.mem_def.1 h] at hnot
  exact hnot

theorem wordLexeme_spelledAs {word : List Char} {c : Char} {rest : List Char}
    (hword : word = c :: rest) (hstart : isWordStart c = true)
    (hparts : ∀ d ∈ word, isWordPart d = true) :
    (wordLexeme (String.ofList word)).SpelledAs word := by
  unfold wordLexeme
  cases hkeyword : Keyword.ofText? (String.ofList word) with
  | some keyword =>
    have htext : keyword.text = String.ofList word := by
      simpa using List.find?_some hkeyword
    have hspelled := Lexeme.SpelledAs.keyword keyword
    rwa [htext, String.toList_ofList] at hspelled
  | none =>
    have hname : IsName (String.ofList word) := by
      refine ⟨⟨c, rest, ?_, hstart⟩, ?_, hkeyword⟩
      · rw [String.toList_ofList, hword]
      · rw [String.toList_ofList]
        exact hparts
    have hspelled := Lexeme.SpelledAs.identifier hname
    rwa [String.toList_ofList] at hspelled

theorem wordLexeme_stopsBefore {rest : List Char} (word : String)
    (h : ∀ c ∈ rest.head?, isWordPart c = false) : (wordLexeme word).StopsBefore rest := by
  unfold wordLexeme
  split
  · exact h
  · exact h

theorem exists_word? {text : List Char} {n : Int} (h : Text.integer? text = some n) :
    (∃ m, Text.word? text = some m) ↔ -2147483648 ≤ n ∧ n ≤ 2147483647 := by
  simp [Text.word?, h, Option.filter_eq_some_iff, Text.isWord]

/-- The numerals that the lexer takes: it comes to digits behind a minus or nothing, so a plus is
    never part of one. -/
theorem isNumeral_iff {sign digits : List Char} (hsign : sign = [] ∨ sign = ['-'])
    (hne : digits ≠ []) (hdigits : ∀ d ∈ digits, d.isDigit = true) :
    IsNumeral (sign ++ digits) ↔ ∃ n, Text.word? (sign ++ digits) = some n := by
  have hnatural : Text.natural? digits = some (Text.digitsValue digits) := by
    have hall : digits.all Char.isDigit = true := List.all_eq_true.2 hdigits
    rw [Text.natural?, if_pos ⟨hne, hall⟩]
  obtain ⟨d, rest, rfl⟩ := List.exists_cons_of_ne_nil hne
  have hd : d.isDigit = true := hdigits d (by simp)
  have hminus : d ≠ '-' := by
    rintro rfl
    exact absurd hd (by decide)
  have hplus : d ≠ '+' := by
    rintro rfl
    exact absurd hd (by decide)
  rcases hsign with rfl | rfl
  · have hinteger : Text.integer? (d :: rest) = some (Text.digitsValue (d :: rest) : Int) := by
      unfold Text.integer?
      split
      · rename_i heq
        exact absurd (List.cons.inj heq).1 hminus
      · rename_i heq
        exact absurd (List.cons.inj heq).1 hplus
      · rw [hnatural]
        rfl
    rw [List.nil_append, exists_word? hinteger]
    constructor
    · rintro ⟨digits, -, -, ⟨rfl, hle⟩ | ⟨heq, -⟩⟩
      · omega
      · exact absurd (List.cons.inj heq).1 hminus
    · intro hrange
      exact ⟨d :: rest, hne, hdigits, .inl ⟨rfl, by omega⟩⟩
  · have hinteger : Text.integer? ('-' :: d :: rest) =
        some (-(Text.digitsValue (d :: rest) : Int)) := by
      rw [Text.integer?, hnatural]
      rfl
    rw [List.singleton_append, exists_word? hinteger]
    constructor
    · rintro ⟨digits, -, hall, ⟨rfl, -⟩ | ⟨heq, hle⟩⟩
      · exact absurd (hall '-' (by simp)) (by decide)
      · cases heq
        omega
    · intro hrange
      exact ⟨d :: rest, hne, hdigits, .inr ⟨rfl, by omega⟩⟩

/-- When a number is cut: the digits are there, no word runs into them, and the value fits. -/
theorem cutNumber_ok {sign text : List Char} (hsign : sign = [] ∨ sign = ['-']) {k : Cut} :
    cutNumber sign text = .ok k ↔
      text.takeWhile Char.isDigit ≠ [] ∧
        (∀ c ∈ (text.dropWhile Char.isDigit).head?, isWordStart c = false) ∧
          IsNumeral (sign ++ text.takeWhile Char.isDigit) ∧
            k = ⟨.number (String.ofList (sign ++ text.takeWhile Char.isDigit)),
              sign ++ text.takeWhile Char.isDigit, text.dropWhile Char.isDigit⟩ := by
  have hdigits : ∀ d ∈ text.takeWhile Char.isDigit, d.isDigit = true :=
    List.all_eq_true.1 List.all_takeWhile
  have hfollows : (text.dropWhile Char.isDigit).head?.filter isWordStart = none ↔
      ∀ c ∈ (text.dropWhile Char.isDigit).head?, isWordStart c = false := by
    simp [Option.filter_eq_none_iff]
  unfold cutNumber
  dsimp only
  by_cases hempty : text.takeWhile Char.isDigit = []
  · simp [hempty]
  · rw [isNumeral_iff hsign hempty hdigits, if_neg (by simpa using hempty), ← hfollows]
    cases (text.dropWhile Char.isDigit).head?.filter isWordStart with
    | some next => simp
    | none =>
      cases hword : Text.word? (sign ++ text.takeWhile Char.isDigit) with
      | none => simp
      | some n => simp [hempty, eq_comm]

theorem spelledAs_of_cutNumber {sign text : List Char} (hsign : sign = [] ∨ sign = ['-']) {k : Cut}
    (h : cutNumber sign text = .ok k) :
    k.lexeme.SpelledAs k.spelling ∧ k.lexeme.StopsBefore k.rest := by
  obtain ⟨-, hfollows, hnumeral, rfl⟩ := (cutNumber_ok hsign).1 h
  constructor
  · rw [← String.toList_ofList (l := sign ++ _)] at hnumeral
    have hspelled := Lexeme.SpelledAs.number hnumeral
    rwa [String.toList_ofList] at hspelled
  · intro c hc
    exact isWordPart_eq_false.2 ⟨hfollows c hc, head?_dropWhile hc⟩

/-- What stands between the quotes is the content. -/
theorem isQuoted_of_stringTail {text content spelling rest : List Char}
    (h : stringTail text = .closed content spelling rest) :
    ∃ inner, spelling = inner ++ ['"'] ∧ IsQuoted content inner := by
  fun_induction stringTail text generalizing content spelling rest with
  | case1 => cases h
  | case2 left =>
    cases h
    exact ⟨[], rfl, .nil⟩
  | case3 => cases h
  | case4 escape left c hc ih =>
    obtain ⟨content', spelling', htail, rfl, rfl⟩ := StringTail.push_eq_closed.1 h
    obtain ⟨inner, rfl, hquoted⟩ := ih htail
    exact ⟨'\\' :: escape :: inner, rfl, hquoted.escape hc⟩
  | case5 => cases h
  | case6 => cases h
  | case7 c left hquote hlast hescape hnewline ih =>
    obtain ⟨content', spelling', htail, rfl, rfl⟩ := StringTail.push_eq_closed.1 h
    obtain ⟨inner, rfl, hquoted⟩ := ih htail
    have hbackslash : c ≠ '\\' := by
      rintro rfl
      cases left with
      | nil => exact hlast rfl rfl
      | cons d left => exact hescape d left rfl rfl
    exact ⟨c :: inner, rfl, .plain hquote hbackslash hnewline hquoted⟩

theorem spelledAs_of_cutOperator? {c : Char} {rest : List Char} {k : Cut}
    (h : cutOperator? c rest = some k) :
    k.lexeme.SpelledAs k.spelling ∧ k.lexeme.StopsBefore k.rest := by
  have hhead : ∀ left : List Char, (∀ tail, left = '=' :: tail → False) →
      ∀ c ∈ left.head?, c ≠ '=' := by
    intro left hleft c hc heq
    obtain ⟨tail, rfl⟩ := List.head?_eq_some_iff.1 hc
    exact hleft tail (by rw [heq])
  unfold cutOperator? at h
  split at h <;> cases h
  · exact ⟨.operator (.compare .equal), trivial⟩
  · rename_i hleft
    exact ⟨.operator .assign, hhead rest hleft⟩
  · exact ⟨.operator (.compare .greaterEqual), trivial⟩
  · rename_i hleft
    exact ⟨.operator (.compare .greater), hhead rest hleft⟩
  · exact ⟨.operator (.compare .lessEqual), trivial⟩
  · rename_i hleft
    exact ⟨.operator (.compare .less), hhead rest hleft⟩

/-- What the lexer cuts off is a spelling of the lexeme, and the lexeme is as long as it can be. -/
theorem spelledAs_of_cut {c : Char} {rest : List Char} {k : Cut} (h : cut c rest = .ok k) :
    k.lexeme.SpelledAs k.spelling ∧ k.lexeme.StopsBefore k.rest := by
  unfold cut at h
  split at h
  · rename_i mark hmark
    cases h
    have hchar : c = mark.char := by
      unfold Punctuation.ofChar? at hmark
      split at hmark <;> cases hmark <;> rfl
    rw [hchar]
    exact ⟨.punctuation mark, trivial⟩
  · split at h
    · rename_i hoperator
      cases h
      exact spelledAs_of_cutOperator? hoperator
    · split at h
      · unfold cutString at h
        split at h
        · rename_i content spelling left htail
          cases h
          obtain ⟨inner, rfl, hquoted⟩ := isQuoted_of_stringTail htail
          rw [← String.toList_ofList (l := content)] at hquoted
          exact ⟨.string hquoted, trivial⟩
        · cases h
        · cases h
      · split at h
        · exact spelledAs_of_cutNumber (.inr rfl) h
        · split at h
          · exact spelledAs_of_cutNumber (.inl rfl) h
          · split at h
            · rename_i hstart
              cases h
              have hpart : isWordPart c = true := by
                simp only [isWordStart, isWordPart, Char.isAlphanum, Bool.or_eq_true] at hstart ⊢
                exact hstart.imp_left Or.inl
              have hword : (c :: rest).takeWhile isWordPart = c :: rest.takeWhile isWordPart := by
                rw [List.takeWhile_cons, if_pos hpart]
              constructor
              · exact wordLexeme_spelledAs hword hstart (List.all_eq_true.1 List.all_takeWhile)
              · exact wordLexeme_stopsBefore _ fun d hd => head?_dropWhile hd
            · cases h

/-! ### Spelled lexemes are cut whole -/

/-- A run of characters is taken whole if what follows begins with another kind of character. -/
theorem takeWhile_append_of_head {test : Char → Bool} {run rest : List Char}
    (hrun : ∀ c ∈ run, test c = true) (hrest : ∀ c ∈ rest.head?, test c = false) :
    (run ++ rest).takeWhile test = run ∧ (run ++ rest).dropWhile test = rest := by
  induction run with
  | nil =>
    cases rest with
    | nil => exact ⟨rfl, rfl⟩
    | cons c rest => simp [hrest c (by simp)]
  | cons c run ih =>
    obtain ⟨htake, hdrop⟩ := ih fun d hd => hrun d (List.mem_cons_of_mem _ hd)
    have hc : test c = true := hrun c (by simp)
    simp [hc, htake, hdrop]

theorem range_of_isDigit {c : Char} (h : c.isDigit = true) : 0x30 ≤ c.toNat ∧ c.toNat ≤ 0x39 := by
  have hrange : '0'.val ≤ c.val ∧ c.val ≤ '9'.val := by simpa [Char.isDigit] using h
  exact ⟨UInt32.le_iff_toNat_le.1 hrange.1, UInt32.le_iff_toNat_le.1 hrange.2⟩

theorem range_of_isWordStart {c : Char} (h : isWordStart c = true) :
    0x41 ≤ c.toNat ∧ c.toNat ≤ 0x7a := by
  have hword : ((c.isUpper || c.isLower) || c == '_') = true := h
  rw [Bool.or_eq_true, Bool.or_eq_true, beq_iff_eq] at hword
  rcases hword with (hupper | hlower) | rfl
  · have hrange : 'A'.val ≤ c.val ∧ c.val ≤ 'Z'.val := of_decide_eq_true hupper
    have hlow : 0x41 ≤ c.toNat := UInt32.le_iff_toNat_le.1 hrange.1
    have hhigh : c.toNat ≤ 0x5a := UInt32.le_iff_toNat_le.1 hrange.2
    omega
  · have hlower : (decide ('a'.val ≤ c.val) && decide (c.val ≤ 'z'.val)) = true := hlower
    have hrange : 'a'.val ≤ c.val ∧ c.val ≤ 'z'.val := by simpa using hlower
    have hlow : 0x61 ≤ c.toNat := UInt32.le_iff_toNat_le.1 hrange.1
    have hhigh : c.toNat ≤ 0x7a := UInt32.le_iff_toNat_le.1 hrange.2
    omega
  · decide

/-- A letter, a digit or an underscore begins neither a mark, an operator nor a string. -/
theorem cut_of_isWordPart {c : Char} {rest : List Char} (h : isWordPart c = true) :
    cut c rest =
      if c.isDigit then cutNumber [] (c :: rest) else .ok (cutWord (c :: rest)) := by
  have hmark : Punctuation.ofChar? c = none := by
    unfold Punctuation.ofChar?
    split <;> first | rfl | exact absurd h (by decide)
  have hoperator : cutOperator? c rest = none := by
    unfold cutOperator?
    split <;> first | rfl | exact absurd h (by decide)
  have hquote : c ≠ '"' := by
    rintro rfl
    exact absurd h (by decide)
  have hminus : c ≠ '-' := by
    rintro rfl
    exact absurd h (by decide)
  cases hdigit : c.isDigit with
  | true => simp [cut, hmark, hoperator, hquote, hminus, hdigit]
  | false =>
    have hstart : isWordStart c = true := by
      rw [← Bool.not_eq_false]
      intro hstart
      rw [isWordPart_eq_false.2 ⟨hstart, hdigit⟩] at h
      cases h
    simp [cut, hmark, hoperator, hquote, hminus, hdigit, hstart]

theorem cut_minus (rest : List Char) : cut '-' rest = cutNumber ['-'] rest := rfl

theorem cut_quote (rest : List Char) : cut '"' rest = cutString rest := rfl

/-- A word is cut whole, reserved or not. -/
theorem cut_of_word {word rest : List Char} {c : Char} {tail : List Char} (hword : word = c :: tail)
    (hstart : isWordStart c = true) (hparts : ∀ d ∈ word, isWordPart d = true)
    (hrest : ∀ d ∈ rest.head?, isWordPart d = false) :
    cut c (tail ++ rest) = .ok ⟨wordLexeme (String.ofList word), word, rest⟩ := by
  obtain ⟨htake, hdrop⟩ := takeWhile_append_of_head hparts hrest
  subst hword
  have hdigit : c.isDigit = false := by
    rw [Bool.eq_false_iff]
    intro hdigit
    have hlow := (range_of_isWordStart hstart).1
    have hhigh := (range_of_isDigit hdigit).2
    omega
  rw [List.cons_append] at htake hdrop
  rw [cut_of_isWordPart (hparts c List.mem_cons_self), hdigit, cutWord, htake, hdrop]
  rfl

theorem cut_of_numeral {digits : String} {rest : List Char} (h : IsNumeral digits.toList)
    (hrest : ∀ c ∈ rest.head?, isWordPart c = false) :
    ∃ c tail, digits.toList = c :: tail ∧
      cut c (tail ++ rest) = .ok ⟨.number digits, digits.toList, rest⟩ := by
  obtain ⟨run, hne, hrun, hspelling⟩ := id h
  have hdigit : ∀ c ∈ rest.head?, c.isDigit = false := fun c hc =>
    (isWordPart_eq_false.1 (hrest c hc)).2
  have hstart : ∀ c ∈ rest.head?, isWordStart c = false := fun c hc =>
    (isWordPart_eq_false.1 (hrest c hc)).1
  obtain ⟨htake, hdrop⟩ := takeWhile_append_of_head hrun hdigit
  have hnumber : ∀ sign : List Char, (sign = [] ∨ sign = ['-']) → digits.toList = sign ++ run →
      cutNumber sign (run ++ rest) = .ok ⟨.number digits, digits.toList, rest⟩ := by
    intro sign hsign heq
    refine (cutNumber_ok hsign).2 ?_
    rw [htake, hdrop, ← heq, String.ofList_toList]
    exact ⟨hne, hstart, h, rfl⟩
  rcases hspelling with ⟨heq, -⟩ | ⟨heq, -⟩
  · obtain ⟨d, tail, rfl⟩ := List.exists_cons_of_ne_nil hne
    refine ⟨d, tail, heq, ?_⟩
    have hd : d.isDigit = true := hrun d List.mem_cons_self
    have hpart : isWordPart d = true := by simp [isWordPart, Char.isAlphanum, hd]
    rw [cut_of_isWordPart hpart, if_pos hd]
    exact hnumber [] (.inl rfl) heq
  · refine ⟨'-', run, heq, ?_⟩
    rw [cut_minus]
    exact hnumber ['-'] (.inr rfl) heq

/-- A string is cut up to its closing quote. -/
theorem stringTail_of_isQuoted {content spelling : List Char} (h : IsQuoted content spelling)
    (rest : List Char) :
    stringTail (spelling ++ '"' :: rest) = .closed content (spelling ++ ['"']) rest := by
  induction h with
  | nil => simp [stringTail]
  | @plain c content spelling hquote hbackslash hnewline _ ih =>
    rw [List.cons_append, stringTail, if_neg hnewline, ih]
    · rfl
    · exact hquote
    · intro heq
      exact absurd heq hbackslash
    · intro d tail heq
      exact absurd heq hbackslash
  | newline _ ih | tabulator _ ih | quote _ ih | backslash _ ih =>
    rw [List.cons_append, List.cons_append, stringTail, ih]
    rfl

/-- An operator is cut whole. -/
theorem cutOperator?_of_stopsBefore {op : Operator} {rest : List Char}
    (hstops : (Lexeme.operator op).StopsBefore rest) :
    ∃ c tail, op.text.toList = c :: tail ∧ Punctuation.ofChar? c = none ∧
      cutOperator? c (tail ++ rest) = some ⟨.operator op, op.text.toList, rest⟩ := by
  have hrest : (∀ c ∈ rest.head?, c ≠ '=') → ∀ tail, rest ≠ '=' :: tail := by
    rintro hhead tail rfl
    exact hhead '=' (by simp) rfl
  cases op with
  | assign =>
    refine ⟨'=', [], rfl, rfl, ?_⟩
    simp [cutOperator?, hrest hstops]
    rfl
  | compare relation =>
    cases relation with
    | equal => exact ⟨'=', ['='], rfl, rfl, rfl⟩
    | greaterEqual => exact ⟨'>', ['='], rfl, rfl, rfl⟩
    | lessEqual => exact ⟨'<', ['='], rfl, rfl, rfl⟩
    | greater =>
      refine ⟨'>', [], rfl, rfl, ?_⟩
      simp [cutOperator?, hrest hstops]
      rfl
    | less =>
      refine ⟨'<', [], rfl, rfl, ?_⟩
      simp [cutOperator?, hrest hstops]
      rfl

/-- Reserved words are words. -/
theorem word_of_keyword (word : Keyword) :
    ∃ c tail, word.text.toList = c :: tail ∧ isWordStart c = true ∧
      ∀ d ∈ word.text.toList, isWordPart d = true := by
  have hstart : word.text.toList.head?.any isWordStart = true := by
    cases word <;> decide
  have hparts : word.text.toList.all isWordPart = true := by
    cases word <;> decide
  obtain ⟨c, hc, hword⟩ := Option.any_eq_true _ _ |>.1 hstart
  obtain ⟨tail, htext⟩ := List.head?_eq_some_iff.1 hc
  exact ⟨c, tail, htext, hword, List.all_eq_true.1 hparts⟩

/-- The spelling of a lexeme is cut whole where the lexeme is as long as it can be. -/
theorem cut_of_spelledAs {lexeme : Lexeme} {spelling rest : List Char}
    (h : lexeme.SpelledAs spelling) (hstops : lexeme.StopsBefore rest) :
    ∃ c tail, spelling = c :: tail ∧ cut c (tail ++ rest) = .ok ⟨lexeme, spelling, rest⟩ := by
  cases h with
  | punctuation mark =>
    refine ⟨mark.char, [], rfl, ?_⟩
    rw [List.nil_append, cut, Punctuation.ofChar?_char]
  | operator op =>
    obtain ⟨c, tail, htext, hmark, hoperator⟩ := cutOperator?_of_stopsBefore hstops
    refine ⟨c, tail, htext, ?_⟩
    rw [cut, hmark, hoperator]
  | keyword word =>
    obtain ⟨c, tail, htext, hstart, hparts⟩ := word_of_keyword word
    refine ⟨c, tail, htext, ?_⟩
    rw [cut_of_word htext hstart hparts hstops, String.ofList_toList, wordLexeme,
      Keyword.ofText?_text]
  | @identifier x hname =>
    obtain ⟨c, tail, hx, hstart⟩ := hname.first
    refine ⟨c, tail, hx, ?_⟩
    rw [cut_of_word hx hstart hname.parts hstops, String.ofList_toList, wordLexeme, hname.free]
  | @number digits hnumeral => exact cut_of_numeral hnumeral hstops
  | @string content inner hquoted =>
    refine ⟨'"', inner ++ ['"'], rfl, ?_⟩
    rw [cut_quote, cutString, List.append_assoc, List.singleton_append,
      stringTail_of_isQuoted hquoted]
    simp

/-! ### The whole text -/

/-- Every lexeme begins with a visible ASCII character. -/
theorem visible_of_cut {c : Char} {rest : List Char} {k : Cut} (h : cut c rest = .ok k) :
    0x21 ≤ c.toNat ∧ c.toNat ≤ 0x7e := by
  unfold cut at h
  split at h
  · rename_i hmark
    unfold Punctuation.ofChar? at hmark
    split at hmark <;> first | decide | cases hmark
  · split at h
    · rename_i hoperator
      unfold cutOperator? at hoperator
      split at hoperator <;> first | decide | cases hoperator
    · split at h
      · rename_i hc
        rw [hc]
        decide
      · split at h
        · rename_i hc
          rw [hc]
          decide
        · split at h
          · rename_i hdigit
            have hrange := range_of_isDigit hdigit
            omega
          · split at h
            · rename_i hstart
              have hrange := range_of_isWordStart hstart
              omega
            · cases h

/-- No visible ASCII character is blank. -/
theorem isBlank_eq_false {c : Char} (hlow : 0x21 ≤ c.toNat) (hhigh : c.toNat ≤ 0x7e) :
    Text.isBlank c = false := by
  simp only [Text.isBlank, Text.blankRanges, List.any_cons, List.any_nil, Bool.or_false,
    Bool.or_eq_false_iff, Bool.and_eq_false_iff, decide_eq_false_iff_not]
  omega

/-- No lexeme begins with a blank or with a slash. -/
theorem not_blank_of_cut {c : Char} {rest : List Char} {k : Cut} (h : cut c rest = .ok k) :
    Text.isBlank c = false ∧ c ≠ '/' := by
  constructor
  · obtain ⟨hlow, hhigh⟩ := visible_of_cut h
    exact isBlank_eq_false hlow hhigh
  · rintro rfl
    cases h

theorem tokensFrom_finish {p : Position} {gap : List Char} (h : IsGap gap []) :
    tokensFrom p gap = .ok [] := by
  have hsplit := splitGap_of_gap h (by simp)
  rw [List.append_nil] at hsplit
  rw [tokensFrom]
  split
  · rfl
  · rename_i heq
    rw [hsplit] at heq
    cases heq

theorem tokensFrom_token {p : Position} {gap spelling rest : List Char} {lexeme : Lexeme}
    (hgap : IsGap gap (spelling ++ rest)) (hspelled : lexeme.SpelledAs spelling)
    (hstops : lexeme.StopsBefore rest) :
    tokensFrom p (gap ++ (spelling ++ rest)) =
      (tokensFrom ((p.after gap).after spelling) rest).map (⟨lexeme, p.after gap⟩ :: ·) := by
  obtain ⟨c, tail, rfl, hcut⟩ := cut_of_spelledAs hspelled hstops
  have hsplit : splitGap false (gap ++ (c :: tail ++ rest)) = (gap, c :: (tail ++ rest)) := by
    refine splitGap_of_gap hgap fun d hd => ?_
    cases hd
    exact not_blank_of_cut hcut
  rw [tokensFrom]
  split
  · rename_i heq
    rw [hsplit] at heq
    cases heq
  · rename_i heq
    rw [hsplit] at heq
    cases heq
    split
    · rename_i hcut'
      rw [hcut] at hcut'
      cases hcut'
    · rename_i hcut'
      rw [hcut] at hcut'
      cases hcut'
      rfl

/-- The lexer finds the tokens that a text is made of. -/
theorem tokensFrom_of_lexed {before text : List Char} {tokens : List Token}
    (h : Lexed before text tokens) : tokensFrom (.behind before) text = .ok tokens := by
  induction h with
  | finish hgap => exact tokensFrom_finish hgap
  | token hgap hspelled hstops _ ih =>
    rw [tokensFrom_token hgap hspelled hstops, Position.after_behind, Position.after_behind, ih]
    rfl

/-- A text that the lexer accepts is made of the tokens that it finds. -/
theorem lexed_of_tokensFrom {before text : List Char} {tokens : List Token}
    (h : tokensFrom (.behind before) text = .ok tokens) : Lexed before text tokens := by
  generalize hp : Position.behind before = p at h
  fun_induction tokensFrom p text generalizing before tokens with
  | case1 p text gap hsplit =>
    cases h
    have happend := splitGap_append false text
    have hgap := isGap_splitGap text
    rw [hsplit] at happend hgap
    rw [← happend, List.append_nil]
    exact .finish hgap
  | case2 => cases h
  | case3 p text gap c rest hsplit start k hcut =>
    rename_i ih
    subst hp
    have happend := splitGap_append false text
    have hgap := isGap_splitGap text
    obtain ⟨hjoined, -⟩ := joined_of_cut hcut
    obtain ⟨hspelled, hstops⟩ := spelledAs_of_cut hcut
    have hstart : start = .behind (before ++ gap) := Position.after_behind before gap
    cases hrest : tokensFrom (start.after k.spelling) k.rest with
    | error located =>
      rw [hrest] at h
      cases h
    | ok tokens =>
      rw [hrest] at h
      cases h
      rw [hsplit, ← hjoined] at happend hgap
      rw [← happend, hstart]
      refine .token hgap hspelled hstops (ih ?_ hrest)
      rw [hstart, Position.after_behind]

end Lexer

/-- The lexer accepts the texts that are made of tokens, and it finds these tokens. -/
theorem tokenize_eq_ok_iff {source : String} {tokens : List Token} :
    tokenize source = .ok tokens ↔ Lexed [] source.toList tokens := by
  constructor
  · intro h
    exact Lexer.lexed_of_tokensFrom h
  · intro h
    exact Lexer.tokensFrom_of_lexed h

end ClassLang
