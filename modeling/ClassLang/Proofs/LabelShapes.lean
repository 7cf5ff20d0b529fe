/-
  ClassLang/Proofs/LabelShapes.lean
  =================================
  **Labels of different kinds, told apart by how they are spelled.**

  Labels are made by joining names with underscores, and names may hold underscores
  too, so a label does not tell which names it was made of.  What it does tell is
  enough.  A numbered label has one underscore at its front, two more inside, and
  digits behind the last one (`Numbered`).  The label of a string has at least two
  underscores behind its first character, and what follows them does not begin with a
  digit (`StringShaped`).  No label is both (`not_numbered_of_stringShaped`), and that
  is all that keeps the two kinds apart: neither is ever checked against the other.
-/
import ClassLang.Label
import ClassLang.Proofs.DataLabels
import ClassLang.Proofs.Names

namespace ClassLang

open Lexer (isWordStart isWordPart)

namespace Label

/-! ### Letters of labels -/

/-- The label is made of what words are made of. -/
def Spelled (label : String) : Prop := ∀ c ∈ label.toList, isWordPart c = true

instance (label : String) : Decidable (Spelled label) :=
  decidable_of_iff (label.toList.all isWordPart = true) List.all_eq_true

theorem Spelled.append {s s' : String} (h : Spelled s) (h' : Spelled s') : Spelled (s ++ s') := by
  intro c hc
  rw [String.toList_append, List.mem_append] at hc
  exact hc.elim (h c) (h' c)

theorem spelled_toString (n : Nat) : Spelled (toString n) := by
  intro c hc
  have hdigit : c.isDigit = true :=
    Nat.isDigit_of_mem_toDigits (by decide) (by decide) (Nat.toList_repr ▸ hc)
  simp [isWordPart, Char.isAlphanum, hdigit]

/-! ### Numbered labels -/

/-- The labels that control flow uses. -/
def Numbered (label : String) : Prop :=
  ∃ id, label = elseOf id ∨ label = conditionOf id ∨ label = exitOf id

theorem isNumbered_append (stem : String) (id : Nat) :
    isNumbered stem (stem ++ toString id) = true := by
  have hdigits : (Nat.toDigits 10 id).all Char.isDigit = true :=
    List.all_eq_true.2 fun c hc => Nat.isDigit_of_mem_toDigits (by decide) (by decide) hc
  have hne : (Nat.toDigits 10 id).isEmpty = false := by
    rw [List.isEmpty_eq_false_iff]
    exact Nat.toDigits_ne_nil
  simp [isNumbered, String.toList_append, hdigits, hne]

theorem Numbered.any_isNumbered {label : String} (h : Numbered label) :
    ([elseStem, conditionStem, exitStem].any fun stem => isNumbered stem label) = true := by
  rw [List.any_eq_true]
  obtain ⟨id, rfl | rfl | rfl⟩ := h
  · exact ⟨elseStem, by simp, isNumbered_append elseStem id⟩
  · exact ⟨conditionStem, by simp, isNumbered_append conditionStem id⟩
  · exact ⟨exitStem, by simp, isNumbered_append exitStem id⟩

/-- Numbered labels are among those that no method gets. -/
theorem Numbered.isGenerated {label : String} (h : Numbered label) : isGenerated label = true := by
  rw [Label.isGenerated, h.any_isNumbered, Bool.or_true]

theorem Numbered.spelled {label : String} (h : Numbered label) : Spelled label := by
  obtain ⟨id, rfl | rfl | rfl⟩ := h
  · exact .append (by decide) (spelled_toString id)
  · exact .append (by decide) (spelled_toString id)
  · exact .append (by decide) (spelled_toString id)

theorem not_numbered_of_mem_fixed {label : String} (h : label ∈ fixed) : ¬ Numbered label := by
  have hfixed : ∀ l ∈ fixed,
      ([elseStem, conditionStem, exitStem].any fun stem => isNumbered stem l) = false := by
    decide
  intro hnumbered
  have hany := hnumbered.any_isNumbered
  rw [hfixed label h] at hany
  cases hany

theorem elseOf_injective {m n : Nat} (h : elseOf m = elseOf n) : m = n :=
  toString_injective ((String.append_right_inj elseStem).1 h)

theorem conditionOf_injective {m n : Nat} (h : conditionOf m = conditionOf n) : m = n :=
  toString_injective ((String.append_right_inj conditionStem).1 h)

theorem exitOf_injective {m n : Nat} (h : exitOf m = exitOf n) : m = n :=
  toString_injective ((String.append_right_inj exitStem).1 h)

/-- Labels that begin with different stems are different. -/
theorem append_ne_append {stem stem' : String} {k : Nat}
    (hstem : stem.toList.take k ≠ stem'.toList.take k) (hk : k ≤ stem.toList.length)
    (hk' : k ≤ stem'.toList.length) (s s' : String) : stem ++ s ≠ stem' ++ s' := by
  intro heq
  have htake := congrArg (fun t : String => t.toList.take k) heq
  simp only [String.toList_append, List.take_append_of_le_length hk,
    List.take_append_of_le_length hk'] at htake
  exact hstem htake

theorem elseOf_ne_conditionOf (m n : Nat) : elseOf m ≠ conditionOf n :=
  append_ne_append (k := 2) (by decide) (by decide) (by decide) _ _

theorem elseOf_ne_exitOf (m n : Nat) : elseOf m ≠ exitOf n :=
  append_ne_append (k := 2) (by decide) (by decide) (by decide) _ _

theorem conditionOf_ne_exitOf (m n : Nat) : conditionOf m ≠ exitOf n :=
  append_ne_append (k := 8) (by decide) (by decide) (by decide) _ _

/-! ### Labels of strings -/

/-- The shape of a string's label: behind the name of a class and of a method, or behind that of
    the entry point, comes something that does not begin with a digit. -/
inductive StringShaped : String → Prop where
  | inMethod {owner method y : String} {c : Char} {rest : List Char} (howner : owner ≠ "")
      (hy : y.toList = c :: rest) (hc : isWordStart c = true) :
      StringShaped (owner ++ "_" ++ method ++ "_" ++ y)
  | inEntryPoint {y : String} : StringShaped ("main_" ++ y)

/-- Behind the last underscore there is only one thing. -/
theorem eq_of_append_underscore_eq {p q y z : List Char} (h : p ++ '_' :: y = q ++ '_' :: z)
    (hy : '_' ∉ y) (hz : '_' ∉ z) : y = z := by
  have htake : ∀ p y : List Char, '_' ∉ y →
      (p ++ '_' :: y).reverse.takeWhile (· != '_') = y.reverse := by
    intro p y hy
    have hall : ∀ c ∈ y.reverse, (c != '_') = true := by
      intro c hc
      rw [List.mem_reverse] at hc
      simp only [bne_iff_ne]
      rintro rfl
      exact hy hc
    rw [List.reverse_append, List.reverse_cons, List.append_assoc,
      List.takeWhile_append_of_pos hall]
    simp
  have hreverse := congrArg (fun l => l.reverse.takeWhile (· != '_')) h
  simp only [htake p y hy, htake q z hz] at hreverse
  exact List.reverse_injective hreverse

/-- How numbered labels are spelled: an underscore, two words without underscores, and digits. -/
theorem Numbered.spelling {label : String} (h : Numbered label) :
    ∃ a b digits : List Char, label.toList = '_' :: (a ++ '_' :: (b ++ '_' :: digits)) ∧
      '_' ∉ a ∧ '_' ∉ b ∧ digits ≠ [] ∧ ∀ c ∈ digits, c.isDigit = true := by
  have hdigits : ∀ id, (∀ c ∈ Nat.toDigits 10 id, c.isDigit = true) :=
    fun id c hc => Nat.isDigit_of_mem_toDigits (by decide) (by decide) hc
  obtain ⟨id, rfl | rfl | rfl⟩ := h
  · exact ⟨"else".toList, "statement".toList, Nat.toDigits 10 id,
      by simp [elseOf, elseStem, String.toList_append], by decide, by decide,
      Nat.toDigits_ne_nil, hdigits id⟩
  · exact ⟨"while".toList, "condition".toList, Nat.toDigits 10 id,
      by simp [conditionOf, conditionStem, String.toList_append], by decide, by decide,
      Nat.toDigits_ne_nil, hdigits id⟩
  · exact ⟨"while".toList, "exit".toList, Nat.toDigits 10 id,
      by simp [exitOf, exitStem, String.toList_append], by decide, by decide,
      Nat.toDigits_ne_nil, hdigits id⟩

theorem not_isDigit_of_isWordStart {c : Char} (h : isWordStart c = true) : c.isDigit = false := by
  have hword : ((c.isUpper || c.isLower) || c == '_') = true := h
  have habove : '9'.val < c.val := by
    rw [Bool.or_eq_true, Bool.or_eq_true, beq_iff_eq] at hword
    rcases hword with (hupper | hlower) | rfl
    · have hrange : 'A'.val ≤ c.val ∧ c.val ≤ 'Z'.val := of_decide_eq_true hupper
      exact UInt32.lt_of_lt_of_le (by decide) hrange.1
    · have hrange : 'a'.val ≤ c.val := of_decide_eq_true (Bool.and_eq_true_iff.1 hlower).1
      exact UInt32.lt_of_lt_of_le (by decide) hrange
    · decide
  simp only [Char.isDigit, Bool.and_eq_false_iff, decide_eq_false_iff_not]
  exact .inr (UInt32.not_le.2 habove)

/-- The label of a string is never a numbered one. -/
theorem not_numbered_of_stringShaped {label : String} (h : StringShaped label) :
    ¬ Numbered label := by
  intro hnumbered
  obtain ⟨a, b, digits, hspelling, ha, hb, hne, hdigits⟩ := hnumbered.spelling
  have hnone : '_' ∉ digits := fun hmem => absurd (hdigits _ hmem) (by decide)
  cases h with
  | inEntryPoint =>
    rw [String.toList_append] at hspelling
    exact absurd (List.cons.inj hspelling).1 (by decide)
  | @inMethod owner method y c rest howner hy hc =>
    -- there are three underscores, and one of them is the first character of the owner
    obtain ⟨d, ds, hd⟩ : ∃ d ds, owner.toList = d :: ds := by
      cases howner' : owner.toList with
      | nil => exact absurd (String.toList_eq_nil_iff.1 howner') howner
      | cons d ds => exact ⟨d, ds, rfl⟩
    have hunderscore : "_".toList = ['_'] := rfl
    simp only [String.toList_append, hd, hunderscore, List.append_assoc, List.cons_append,
      List.nil_append] at hspelling
    obtain ⟨-, htail⟩ := List.cons.inj hspelling
    have hcount := congrArg (List.count '_') htail
    simp only [List.count_append, List.count_cons, beq_self_eq_true, if_true,
      List.count_eq_zero_of_not_mem ha, List.count_eq_zero_of_not_mem hb,
      List.count_eq_zero_of_not_mem hnone] at hcount
    have hy' : '_' ∉ y.toList := by
      rw [← List.count_eq_zero]
      omega
    have hlast : ds ++ '_' :: (method.toList ++ '_' :: y.toList) =
        (ds ++ '_' :: method.toList) ++ '_' :: y.toList := by simp
    have hlast' : a ++ '_' :: (b ++ '_' :: digits) = (a ++ '_' :: b) ++ '_' :: digits := by simp
    rw [hlast, hlast'] at htail
    have heq := eq_of_append_underscore_eq htail hy' hnone
    rw [hy] at heq
    have hdigit := hdigits c (heq ▸ List.mem_cons_self ..)
    rw [not_isDigit_of_isWordStart hc] at hdigit
    cases hdigit

end Label

end ClassLang
