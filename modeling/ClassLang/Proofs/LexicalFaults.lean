/-
  ClassLang/Proofs/LexicalFaults.lean
  ===================================
  **Where a text stops being made of tokens, and why.**

  A text that the lexer rejects is cut at one place.  What stands before it is made of
  tokens when it is looked at alone, and these are the ones that the lexer has read by
  then; what stands behind it begins with something that is no lexeme.  The six things
  that can be wrong there are the constructors of `Misfits`, which says for each of them
  what the text looks like, without the lexer and without the order in which it tries
  things.

  The fault is reported where the misfit begins, with one exception: an unknown escape is
  reported at its backslash, which is why a misfit comes with the stretch of text between
  its beginning and the place to blame.
-/
import ClassLang.Proofs.LexicalGrammar

namespace ClassLang

open Lexer (isWordStart isWordPart splitGap cut cutWord cutNumber cutString cutOperator? stringTail
  unescape? Cut Misfit StringTail tokensFrom)

/-! ### Misfits -/

/-- A text that begins with something that is no lexeme; the fault that this is, and what stands
    between the beginning and the place to blame. -/
inductive Misfits : (text : List Char) → LexicalFault → (before : List Char) → Prop where
  -- a character that no lexeme begins with, a slash that opens no comment among them
  | character {c : Char} {rest : List Char} (hblank : Text.isBlank c = false)
      (hcomment : ¬(c = '/' ∧ rest.head? = some '/'))
      (hstart : ∀ (lexeme : Lexeme) (tail : List Char), ¬lexeme.SpelledAs (c :: tail)) :
      Misfits (c :: rest) (.unsupportedCharacter c) []
  | minus {rest : List Char} (hdigit : ∀ d ∈ rest.head?, d.isDigit = false) :
      Misfits ('-' :: rest) .loneMinus []
  | malformed {sign digits rest : List Char} {c : Char} (hsign : sign = [] ∨ sign = ['-'])
      (hne : digits ≠ []) (hdigits : ∀ d ∈ digits, d.isDigit = true)
      (hword : isWordStart c = true) :
      Misfits (sign ++ digits ++ c :: rest)
        (.malformedNumber (String.ofList (sign ++ digits)) c) []
  | outside {sign digits rest : List Char} (hne : digits ≠ [])
      (hdigits : ∀ d ∈ digits, d.isDigit = true)
      (hrange : (sign = [] ∧ 2147483647 < Text.digitsValue digits) ∨
        (sign = ['-'] ∧ 2147483648 < Text.digitsValue digits))
      (hends : ∀ c ∈ rest.head?, isWordPart c = false) :
      Misfits (sign ++ digits ++ rest) (.numberOutsideRange (String.ofList (sign ++ digits))) []
  | escape {content spelling rest : List Char} {c : Char} (hquoted : IsQuoted content spelling)
      (hescape : c ∉ ['n', 't', '"', '\\']) :
      Misfits ('"' :: (spelling ++ '\\' :: c :: rest)) (.unknownEscape c) ('"' :: spelling)
  -- at the end of the text a backslash may be left that has nothing to escape
  | unclosed {content spelling rest : List Char} (hquoted : IsQuoted content spelling)
      (hends : rest = [] ∨ rest = ['\\'] ∨ rest.head? = some '\n') :
      Misfits ('"' :: (spelling ++ rest)) .unterminatedString []

/-! ### Cutting a text short -/

theorem mem_head?_append {α : Type} {a : α} {as bs : List α} (h : a ∈ as.head?) :
    a ∈ (as ++ bs).head? := by
  obtain ⟨tail, rfl⟩ := List.head?_eq_some_iff.1 h
  exact rfl

/-- A gap stays one where the text behind it is cut short. -/
theorem IsGap.of_append {gap rest more : List Char} (h : IsGap gap (rest ++ more)) :
    IsGap gap rest := by
  generalize htext : rest ++ more = text at h
  induction h with
  | nil => exact .nil
  | blank hblank _ ih => exact .blank hblank (ih htext)
  | @comment line gap text hline hend _ ih =>
    refine .comment hline ?_ (ih htext)
    intro c hc
    apply hend
    rw [← htext, ← List.append_assoc]
    exact mem_head?_append hc

theorem Lexeme.StopsBefore.of_append {lexeme : Lexeme} {rest more : List Char}
    (h : lexeme.StopsBefore (rest ++ more)) : lexeme.StopsBefore rest := by
  unfold StopsBefore at h ⊢
  split at h
  · intro c hc
    exact h c (mem_head?_append hc)
  · intro c hc
    exact h c (mem_head?_append hc)
  · intro c hc
    exact h c (mem_head?_append hc)
  · intro c hc
    exact h c (mem_head?_append hc)
  · intro c hc
    exact h c (mem_head?_append hc)
  · intro c hc
    exact h c (mem_head?_append hc)
  · trivial

theorem Lexeme.stopsBefore_nil (lexeme : Lexeme) : lexeme.StopsBefore [] := by
  unfold StopsBefore
  split <;> simp

namespace Lexer

/-! ### Tokens read -/

/-- The tokens that the lexer has read when it comes to the end of a text, or to a fault. -/
def tokensRead (p : Position) (text : List Char) : List Token :=
  match _hgap : splitGap false text with
  | (_, []) => []
  | (gap, c :: rest) =>
    let start := p.after gap
    match _hcut : cut c rest with
    | .error _ => []
    | .ok k => ⟨k.lexeme, start⟩ :: tokensRead (start.after k.spelling) k.rest
termination_by text.length
decreasing_by
  have happend := congrArg List.length (splitGap_append false text)
  have hlt := length_rest_lt_of_cut _hcut
  simp only [_hgap, List.length_append] at happend
  omega

variable {p : Position} {text gap rest : List Char} {c : Char}

theorem tokensRead_misfit {misfit : Misfit} (hgap : splitGap false text = (gap, c :: rest))
    (hcut : cut c rest = .error misfit) : tokensRead p text = [] := by
  rw [tokensRead]
  split
  · rfl
  · rename_i heq
    rw [hgap] at heq
    cases heq
    split
    · rfl
    · rename_i hcut'
      rw [hcut] at hcut'
      cases hcut'

theorem tokensRead_token {k : Cut} (hgap : splitGap false text = (gap, c :: rest))
    (hcut : cut c rest = .ok k) :
    tokensRead p text =
      ⟨k.lexeme, p.after gap⟩ :: tokensRead ((p.after gap).after k.spelling) k.rest := by
  rw [tokensRead]
  split
  · rename_i heq
    rw [hgap] at heq
    cases heq
  · rename_i heq
    rw [hgap] at heq
    cases heq
    split
    · rename_i hcut'
      rw [hcut] at hcut'
      cases hcut'
    · rename_i hcut'
      rw [hcut] at hcut'
      cases hcut'
      rfl

/-! ### What cannot be cut -/

/-- Behind a gap there is neither a blank nor a comment. -/
theorem not_blank_of_splitGap {inComment : Bool} {left : List Char}
    (h : (splitGap inComment text).2 = c :: left) :
    Text.isBlank c = false ∧ ¬(c = '/' ∧ left.head? = some '/') := by
  induction text generalizing inComment with
  | nil => cases h
  | cons d rest ih =>
    rw [splitGap] at h
    split at h
    · exact ih h
    · split at h
      · exact ih h
      · split at h
        · exact ih h
        · rename_i hblank hcomment
          cases h
          exact ⟨Bool.eq_false_iff.2 hblank, hcomment⟩

/-- The first character settles whether there is an operator. -/
theorem cutOperator?_eq_none {rest' : List Char} (h : cutOperator? c rest = none) :
    cutOperator? c rest' = none := by
  unfold cutOperator? at h ⊢
  split at h <;> try cases h
  rename_i hassign hgreater hless _ _ _
  split
  · exact (hassign rfl).elim
  · exact (hassign rfl).elim
  · exact (hgreater rfl).elim
  · exact (hgreater rfl).elim
  · exact (hless rfl).elim
  · exact (hless rfl).elim
  · rfl

/-- What no rule of the lexer begins with, no lexeme begins with. -/
theorem not_spelledAs (hmark : Punctuation.ofChar? c = none)
    (hoperator : cutOperator? c rest = none)
    (hquote : c ≠ '"') (hminus : c ≠ '-') (hdigit : c.isDigit = false)
    (hword : isWordStart c = false) (lexeme : Lexeme) (tail : List Char) :
    ¬lexeme.SpelledAs (c :: tail) := by
  intro hspelled
  obtain ⟨d, left, heq, hcut⟩ := cut_of_spelledAs hspelled lexeme.stopsBefore_nil
  cases heq
  have hnone : cutOperator? c (tail ++ []) = none := cutOperator?_eq_none hoperator
  rw [cut, hmark, hnone] at hcut
  simp [hquote, hminus, hdigit, hword] at hcut

/-- Digits that are no numeral with their sign are beyond the range. -/
theorem beyond_of_not_isNumeral {sign digits : List Char} (hsign : sign = [] ∨ sign = ['-'])
    (hne : digits ≠ []) (hdigits : ∀ d ∈ digits, d.isDigit = true)
    (h : ¬IsNumeral (sign ++ digits)) :
    sign = [] ∧ 2147483647 < Text.digitsValue digits ∨
      sign = ['-'] ∧ 2147483648 < Text.digitsValue digits := by
  rcases hsign with rfl | rfl
  · refine .inl ⟨rfl, Nat.lt_of_not_le fun hle => h ?_⟩
    exact ⟨digits, hne, hdigits, .inl ⟨rfl, hle⟩⟩
  · refine .inr ⟨rfl, Nat.lt_of_not_le fun hle => h ?_⟩
    exact ⟨digits, hne, hdigits, .inr ⟨rfl, hle⟩⟩

theorem misfits_of_cutNumber {sign : List Char} {misfit : Misfit}
    (hsign : (sign = [] ∧ text.head?.any Char.isDigit = true) ∨ sign = ['-'])
    (h : cutNumber sign text = .error misfit) :
    Misfits (sign ++ text) misfit.fault misfit.before := by
  have hsigns : sign = [] ∨ sign = ['-'] := hsign.imp_left And.left
  have hdigits : ∀ d ∈ text.takeWhile Char.isDigit, d.isDigit = true :=
    List.all_eq_true.1 List.all_takeWhile
  have hsplit : sign ++ text =
      sign ++ text.takeWhile Char.isDigit ++ text.dropWhile Char.isDigit := by
    rw [List.append_assoc, List.takeWhile_append_dropWhile]
  unfold cutNumber at h
  dsimp only at h
  split at h
  · rename_i hempty
    cases h
    -- only a sign can have no digits behind it
    have hnone : ∀ d ∈ text.head?, d.isDigit = false := by
      intro d hd
      obtain ⟨tail, rfl⟩ := List.head?_eq_some_iff.1 hd
      rw [Bool.eq_false_iff]
      intro hdigit
      simp [hdigit] at hempty
    rcases hsign with ⟨-, hfirst⟩ | rfl
    · obtain ⟨d, hd, hdigit⟩ := Option.any_eq_true _ _ |>.1 hfirst
      rw [hnone d hd] at hdigit
      cases hdigit
    · exact .minus hnone
  · rename_i hempty
    have hne : text.takeWhile Char.isDigit ≠ [] := by simpa using hempty
    split at h
    · rename_i next hnext
      cases h
      obtain ⟨hhead, hword⟩ := Option.filter_eq_some_iff.1 hnext
      obtain ⟨tail, htail⟩ := List.head?_eq_some_iff.1 hhead
      rw [hsplit, htail]
      exact .malformed hsigns hne hdigits hword
    · rename_i hnext
      split at h
      · rename_i hvalue
        cases h
        rw [hsplit]
        have hends : ∀ d ∈ (text.dropWhile Char.isDigit).head?, isWordPart d = false := by
          intro d hd
          apply isWordPart_eq_false.2
          refine ⟨?_, head?_dropWhile hd⟩
          have hnot := Option.filter_eq_none_iff.1 hnext d hd
          simpa using hnot
        have hnumeral : ¬IsNumeral (sign ++ text.takeWhile Char.isDigit) := by
          rw [isNumeral_iff hsigns hne hdigits, hvalue]
          simp
        exact .outside hne hdigits (beyond_of_not_isNumeral hsigns hne hdigits hnumeral) hends
      · cases h

/-- How a text behind an opening quote goes on, if the string is not closed or has an escape that
    there is not. -/
def StringTail.Stops (text : List Char) : StringTail → Prop
  | .closed _ _ _ => True
  | .unclosed => ∃ content spelling rest, text = spelling ++ rest ∧ IsQuoted content spelling ∧
      (rest = [] ∨ rest = ['\\'] ∨ rest.head? = some '\n')
  | .unknownEscape before c => ∃ content rest, text = before ++ '\\' :: c :: rest ∧
      IsQuoted content before ∧ c ∉ ['n', 't', '"', '\\']

theorem StringTail.Stops.push {text spelled : List Char} {c : Char} {tail : StringTail}
    (h : tail.Stops text) (hspelled : ∀ {content spelling}, IsQuoted content spelling →
      IsQuoted (c :: content) (spelled ++ spelling)) :
    (tail.push c spelled).Stops (spelled ++ text) := by
  cases tail with
  | closed content spelling rest => trivial
  | unclosed =>
    obtain ⟨content, spelling, rest, rfl, hquoted, hends⟩ := h
    exact ⟨_, _, rest, (List.append_assoc ..).symm, hspelled hquoted, hends⟩
  | unknownEscape before escape =>
    obtain ⟨content, rest, rfl, hquoted, hescape⟩ := h
    exact ⟨_, rest, (List.append_assoc ..).symm, hspelled hquoted, hescape⟩

theorem stops_stringTail (text : List Char) : (stringTail text).Stops text := by
  fun_induction stringTail text with
  | case1 => exact ⟨[], [], [], rfl, .nil, .inl rfl⟩
  | case2 => trivial
  | case3 => exact ⟨[], [], ['\\'], rfl, .nil, .inr (.inl rfl)⟩
  | case4 escape left c hc ih => exact ih.push (.escape hc)
  | case5 escape left hc =>
    refine ⟨[], left, rfl, .nil, ?_⟩
    intro hmem
    simp only [List.mem_cons, List.not_mem_nil, or_false] at hmem
    rcases hmem with rfl | rfl | rfl | rfl <;> cases hc
  | case6 left =>
    exact ⟨[], [], _, rfl, .nil, .inr (.inr rfl)⟩
  | case7 c left hquote hlast hescape hnewline ih =>
    have hbackslash : c ≠ '\\' := by
      rintro rfl
      cases left with
      | nil => exact hlast rfl rfl
      | cons d left => exact hescape d left rfl rfl
    exact ih.push (.plain hquote hbackslash hnewline)

theorem misfits_of_cutString {misfit : Misfit} (h : cutString text = .error misfit) :
    Misfits ('"' :: text) misfit.fault misfit.before := by
  have hstops := stops_stringTail text
  unfold cutString at h
  split at h
  · cases h
  · rename_i htail
    cases h
    rw [htail] at hstops
    obtain ⟨content, spelling, rest, rfl, hspelling, hends⟩ := hstops
    exact .unclosed hspelling hends
  · rename_i htail
    cases h
    rw [htail] at hstops
    obtain ⟨content, rest, rfl, hspelling, hescape⟩ := hstops
    exact .escape hspelling hescape

/-- Where no lexeme can be cut off behind a gap, the text begins with a misfit. -/
theorem misfits_of_cut {misfit : Misfit} (hblank : Text.isBlank c = false)
    (hcomment : ¬(c = '/' ∧ rest.head? = some '/')) (h : cut c rest = .error misfit) :
    Misfits (c :: rest) misfit.fault misfit.before := by
  unfold cut at h
  split at h
  · cases h
  · rename_i hmark
    split at h
    · cases h
    · rename_i hoperator
      split at h
      · rename_i hquote
        subst hquote
        exact misfits_of_cutString h
      · rename_i hquote
        split at h
        · rename_i hminus
          subst hminus
          exact misfits_of_cutNumber (.inr rfl) h
        · rename_i hminus
          split at h
          · rename_i hdigit
            exact misfits_of_cutNumber (.inl ⟨rfl, by simpa using hdigit⟩) h
          · rename_i hdigit
            split at h
            · cases h
            · rename_i hword
              cases h
              rw [Bool.not_eq_true] at hdigit hword
              exact .character hblank hcomment
                (not_spelledAs hmark hoperator hquote hminus hdigit hword)

/-! ### The whole text -/

/-- A text that the lexer rejects is made of the tokens read up to a misfit. -/
theorem exists_misfit {before : List Char} {located : Located}
    (h : tokensFrom (.behind before) text = .error located) :
    ∃ u v fault blamed, text = u ++ v ∧
      Lexed before u (tokensRead (.behind before) text) ∧ Misfits v fault blamed ∧
        located = ⟨.lexical fault, .behind (before ++ u ++ blamed)⟩ := by
  generalize hp : Position.behind before = p at h
  fun_induction tokensFrom p text generalizing before with
  | case1 => cases h
  | case2 p text gap c rest hsplit start misfit =>
    rename_i hcut
    cases h
    subst hp
    have happend := splitGap_append false text
    have hgap := isGap_splitGap text
    have hrest : (splitGap false text).2 = c :: rest := by rw [hsplit]
    obtain ⟨hblank, hcomment⟩ := not_blank_of_splitGap hrest
    rw [hsplit] at happend hgap
    refine ⟨gap, c :: rest, misfit.fault, misfit.before, happend.symm, ?_,
      misfits_of_cut hblank hcomment hcut, ?_⟩
    · rw [tokensRead_misfit hsplit hcut]
      have hgap : IsGap gap ([] ++ c :: rest) := hgap
      exact .finish hgap.of_append
    · rw [← Position.after_behind, ← Position.after_behind]
  | case3 p text gap c rest hsplit start k hcut =>
    rename_i ih
    subst hp
    have happend := splitGap_append false text
    have hgap := isGap_splitGap text
    obtain ⟨hjoined, -⟩ := joined_of_cut hcut
    obtain ⟨hspelled, hstops⟩ := spelledAs_of_cut hcut
    have hstart : start = .behind (before ++ gap) := Position.after_behind before gap
    have hbehind : .behind (before ++ gap ++ k.spelling) = start.after k.spelling := by
      rw [hstart, Position.after_behind]
    cases hrest : tokensFrom (start.after k.spelling) k.rest with
    | ok tokens =>
      rw [hrest] at h
      cases h
    | error located' =>
      rw [hrest] at h
      cases h
      obtain ⟨u, v, fault, blamed, hcuts, hlexed, hmisfits, hlocated⟩ := ih hbehind hrest
      rw [hsplit, ← hjoined, hcuts] at happend hgap
      rw [hcuts] at hstops
      refine ⟨gap ++ (k.spelling ++ u), v, fault, blamed, ?_, ?_, hmisfits, ?_⟩
      · rw [← happend]
        simp only [List.append_assoc]
      · rw [tokensRead_token hsplit hcut, Position.after_behind]
        have hgap : IsGap gap (k.spelling ++ u ++ v) := by
          rw [List.append_assoc]
          exact hgap
        rw [hstart] at hlexed
        exact .token hgap.of_append hspelled hstops.of_append hlexed
      · rw [hlocated]
        simp only [List.append_assoc]

end Lexer

/-- A text that the lexer rejects is cut in two.  The first part alone is made of tokens, those that
    the lexer has read; the second one begins with what is no lexeme.  The fault is lexical, says
    what is wrong there, and has one place: the line and the column of the first character of the
    second part, or of the backslash if it is an unknown escape. -/
theorem lexical_fault_located {source : String} {located : Located}
    (h : tokenize source = .error located) :
    ∃ (u v : List Char) (fault : LexicalFault) (blamed : List Char),
      source.toList = u ++ v ∧
      tokenize (String.ofList u) = .ok (Lexer.tokensRead .start source.toList) ∧
      Misfits v fault blamed ∧ ((∀ c, fault ≠ .unknownEscape c) → blamed = []) ∧
      located = ⟨.lexical fault, .behind (u ++ blamed)⟩ ∧
      located.diagnostic.category = .lexical ∧
      located.diagnostic.position = some located.position ∧
      located.diagnostic.root = .ofFault located.fault ∧
      located.diagnostic.root.position = none := by
  have hfrom : Lexer.tokensFrom (.behind []) source.toList = .error located := h
  obtain ⟨u, v, fault, blamed, hcuts, hlexed, hmisfits, rfl⟩ := Lexer.exists_misfit hfrom
  have htokens : tokenize (String.ofList u) = .ok (Lexer.tokensRead .start source.toList) := by
    rw [tokenize_eq_ok_iff, String.toList_ofList]
    exact hlexed
  have hblamed : (∀ c, fault ≠ .unknownEscape c) → blamed = [] := by
    intro hfault
    cases hmisfits with
    | escape => exact absurd rfl (hfault _)
    | _ => rfl
  exact ⟨u, v, fault, blamed, hcuts, htokens, hmisfits, hblamed, rfl, rfl, rfl, rfl, rfl⟩

/-- A comment with a misfit in it, which does not count, and behind it a string with an escape that
    there is and one that there is not. -/
def escapingText : String :=
  "int a // 1b\n= 5;\n\tprints(\"a\\tb\\q\");"

theorem lexical_fault_located_escape :
    tokenize escapingText = .error ⟨.lexical (.unknownEscape 'q'), ⟨3, 14⟩⟩ ∧
      ∃ (u v : List Char) (blamed : List Char), escapingText.toList = u ++ v ∧
        tokenize (String.ofList u) = .ok (Lexer.tokensRead .start escapingText.toList) ∧
        (Lexer.tokensRead .start escapingText.toList).map Token.lexeme =
          [.keyword .intType, .identifier "a", .operator .assign, .number "5",
            .punctuation .semicolon, .keyword .prints, .punctuation .leftParen] ∧
        Misfits v (.unknownEscape 'q') blamed ∧ ⟨3, 14⟩ = Position.behind (u ++ blamed) := by
  have hreport : (match tokenize escapingText with
      | .ok _ => none
      | .error located => some located) =
        some (Located.mk (.lexical (.unknownEscape 'q')) ⟨3, 14⟩) := by
    decide +kernel
  cases hfault : tokenize escapingText with
  | ok tokens =>
    rw [hfault] at hreport
    cases hreport
  | error located =>
    rw [hfault] at hreport
    cases hreport
    obtain ⟨u, v, fault, blamed, hcuts, htokens, hmisfits, -, hlocated, -⟩ :=
      lexical_fault_located hfault
    rw [Located.mk.injEq, Fault.lexical.injEq] at hlocated
    obtain ⟨rfl, hposition⟩ := hlocated
    refine ⟨rfl, u, v, blamed, hcuts, htokens, ?_, hmisfits, hposition⟩
    decide +kernel

end ClassLang
