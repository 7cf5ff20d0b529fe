/-
  ClassLang/Proofs/GraphicText.lean
  =================================
  **The characters of the assembly text.**

  Whatever a program says, what is written for it is made of the characters from the
  blank to the tilde.  Numbers have digits and perhaps a sign, and the bytes of a string
  that are no such characters are written as numbers.  All else that a piece of text takes
  over from elsewhere is labels, so it is graphic if they are; and a label that is spelled
  like a word is.
-/
import ClassLang.Proofs.LabelClosure
import ClassLang.Proofs.LexicalGrammar

namespace ClassLang

open Lexer (isWordPart)

/-! ### Graphic characters -/

/-- The characters from the blank to the tilde. -/
def isGraphic (c : Char) : Bool := ' ' ≤ c && c ≤ '~'

/-- The text is made of graphic characters. -/
def Graphic (text : String) : Prop := ∀ c ∈ text.toList, isGraphic c = true

instance (text : String) : Decidable (Graphic text) :=
  decidable_of_iff (text.toList.all isGraphic = true) List.all_eq_true

theorem isGraphic_iff {c : Char} : isGraphic c = true ↔ 0x20 ≤ c.toNat ∧ c.toNat ≤ 0x7e := by
  rw [isGraphic, Bool.and_eq_true, decide_eq_true_eq, decide_eq_true_eq]
  exact and_congr UInt32.le_iff_toNat_le UInt32.le_iff_toNat_le

theorem graphic_append {s s' : String} : Graphic (s ++ s') ↔ Graphic s ∧ Graphic s' := by
  simp only [Graphic, String.toList_append, List.forall_mem_append]

theorem graphic_toString {s : String} : Graphic (toString s) ↔ Graphic s := Iff.rfl

theorem graphic_intercalate {separator : String} (h : Graphic separator) {texts : List String}
    (htexts : ∀ text ∈ texts, Graphic text) : Graphic (String.intercalate separator texts) := by
  rw [Graphic, String.toList_intercalate]
  induction texts with
  | nil => simp
  | cons text texts ih =>
    rw [List.forall_mem_cons] at htexts
    cases texts with
    | nil => simpa [Graphic] using htexts.1
    | cons text' texts =>
      have hrest := ih htexts.2
      simp only [List.map_cons, List.intercalate_cons_cons, List.forall_mem_append] at hrest ⊢
      exact ⟨⟨htexts.1, h⟩, hrest⟩

/-- The text has no newline in it. -/
def OneLine (text : String) : Prop := '\n' ∉ text.toList

instance (text : String) : Decidable (OneLine text) :=
  inferInstanceAs (Decidable ('\n' ∉ text.toList))

theorem oneLine_append {s s' : String} : OneLine (s ++ s') ↔ OneLine s ∧ OneLine s' := by
  simp [OneLine, String.toList_append]

theorem Graphic.oneLine {text : String} (h : Graphic text) : OneLine text := by
  intro hnewline
  exact absurd (h _ hnewline) (by decide)

/-! ### Labels and numbers -/

theorem isGraphic_of_isWordPart {c : Char} (h : isWordPart c = true) : isGraphic c = true := by
  rw [isGraphic_iff]
  by_cases hstart : Lexer.isWordStart c = true
  · have hrange := Lexer.range_of_isWordStart hstart
    omega
  · by_cases hdigit : c.isDigit = true
    · have hrange := Lexer.range_of_isDigit hdigit
      omega
    · have hpart := Lexer.isWordPart_eq_false.2 ⟨by simpa using hstart, by simpa using hdigit⟩
      rw [h] at hpart
      cases hpart

theorem Label.Spelled.graphic {label : String} (h : Spelled label) : Graphic label := by
  intro c hc
  exact isGraphic_of_isWordPart (h c hc)

theorem graphic_repr_nat (n : Nat) : Graphic n.repr :=
  (Label.spelled_toString n).graphic

theorem graphic_repr_int (n : Int) : Graphic n.repr := by
  cases n with
  | ofNat n => exact graphic_repr_nat n
  | negSucc n =>
    have htext : (Int.negSucc n).repr = "-" ++ (n + 1).repr := rfl
    rw [htext, graphic_append]
    exact ⟨by decide, graphic_repr_nat (n + 1)⟩

/-! ### Instructions -/

theorem Register.graphic_text (r : Register) : Graphic r.text := by
  cases r <;> decide

theorem Address.graphic_bracketed {base : String} (h : Graphic base) (displacement : Int) :
    Graphic (bracketed base displacement) := by
  unfold bracketed
  split
  · simp +decide [graphic_append, graphic_toString, h]
  · split <;> simp +decide [graphic_append, graphic_toString, graphic_repr_int, h]

theorem Address.graphic_text (address : Address) : Graphic address.text := by
  unfold Address.text
  split
  · exact graphic_bracketed address.base.graphic_text _
  · refine graphic_bracketed ?_ _
    simp +decide [graphic_append, graphic_toString, Register.graphic_text]

theorem Operand.graphic_text {operand : Operand}
    (h : ∀ label, .data label ∈ operand.references → Graphic label) : Graphic operand.text := by
  cases operand with
  | register r => exact r.graphic_text
  | dl => decide
  | immediate n => exact graphic_repr_int n
  | label name => exact h name (List.mem_singleton_self _)
  | memory width address =>
    have haddress := address.graphic_text
    cases width with
    | none => exact haddress
    | some width =>
      cases width <;> simp +decide [Operand.text, graphic_append, graphic_toString, haddress]

theorem Jump.graphic_text (jump : Jump) : Graphic jump.text := by
  cases jump with
  | always => decide
  | holds relation | fails relation => cases relation <;> decide

/-- The label that a reference names. -/
def Reference.name : Reference → String
  | .jump target => target
  | .call target => target
  | .data label => label

theorem Instruction.graphic_text {code : Instruction}
    (h : ∀ ref ∈ code.references, Graphic ref.name) : Graphic code.text := by
  have hoperand : ∀ operand : Operand, (∀ ref ∈ operand.references, Graphic ref.name) →
      Graphic operand.text := by
    intro operand hrefs
    apply Operand.graphic_text
    intro label hlabel
    exact hrefs _ hlabel
  have hregister := Register.graphic_text
  have haddress := Address.graphic_text
  have hjump := Jump.graphic_text
  cases code with
  | mov left right | cmp left right =>
    simp only [references, List.forall_mem_append] at h
    simp +decide [Instruction.text, graphic_append, graphic_toString, hoperand left h.1,
      hoperand right h.2]
  | add target source | sub target source | xor target source =>
    simp +decide [Instruction.text, graphic_append, graphic_toString, hregister, hoperand source h]
  | push source =>
    simp +decide [Instruction.text, graphic_append, graphic_toString, hoperand source h]
  | jump condition target =>
    have htarget : Graphic target := h _ (List.mem_singleton_self _)
    simp +decide [Instruction.text, graphic_append, graphic_toString, hjump, htarget]
  | call target =>
    have htarget : Graphic target := h _ (List.mem_singleton_self _)
    simp +decide [Instruction.text, graphic_append, graphic_toString, htarget]
  | _ => simp +decide [Instruction.text, graphic_append, graphic_toString, hregister, haddress]

/-! ### Data lines -/

namespace DataEntry

/-- A byte that stands for itself is the code of a graphic character. -/
theorem range_of_isPlain {byte : UInt8} (h : isPlain byte = true) :
    0x20 ≤ byte.toNat ∧ byte.toNat ≤ 0x7e ∧ (Char.ofNat byte.toNat).toNat = byte.toNat := by
  simp only [isPlain, Bool.and_eq_true, decide_eq_true_eq] at h
  obtain ⟨⟨hlow, hhigh⟩, -⟩ := h
  have hlow : 32 ≤ byte.toNat := UInt8.le_iff_toNat_le.1 hlow
  have hhigh : byte.toNat < 127 := UInt8.lt_iff_toNat_lt.1 hhigh
  refine ⟨hlow, by omega, ?_⟩
  rw [Char.ofNat, dif_pos (.inl (by omega))]
  rfl

theorem isGraphic_of_isPlain {byte : UInt8} (h : isPlain byte = true) :
    isGraphic (Char.ofNat byte.toNat) = true := by
  obtain ⟨hlow, hhigh, hnat⟩ := range_of_isPlain h
  rw [isGraphic_iff, hnat]
  exact ⟨hlow, hhigh⟩

theorem graphic_run {bytes : List UInt8} (h : ∀ b ∈ bytes, isPlain b = true) :
    ∀ text ∈ run bytes, Graphic text := by
  unfold run
  split
  · simp
  · intro text htext
    have hbytes : ∀ c ∈ bytes.map (fun byte => Char.ofNat byte.toNat), isGraphic c = true := by
      rw [List.forall_mem_map]
      intro b hb
      exact isGraphic_of_isPlain (h b hb)
    have hquote : ∀ c ∈ ['"'], isGraphic c = true := List.forall_mem_singleton.2 rfl
    rw [List.mem_singleton.1 htext, Graphic, String.toList_ofList, List.forall_mem_append,
      List.forall_mem_append]
    exact ⟨⟨hquote, hbytes⟩, hquote⟩

theorem graphic_operandsFrom (bytes : List UInt8) {pending : List UInt8}
    (h : ∀ b ∈ pending, isPlain b = true) : ∀ text ∈ operandsFrom pending bytes, Graphic text := by
  induction bytes generalizing pending with
  | nil => exact graphic_run h
  | cons byte bytes ih =>
    rw [operandsFrom]
    split
    · rename_i hplain
      apply ih
      simpa [or_imp, forall_and] using ⟨h, hplain⟩
    · simp only [List.forall_mem_append, List.forall_mem_cons]
      exact ⟨graphic_run h, graphic_repr_nat _, ih (List.forall_mem_nil _)⟩

theorem graphic_operands (entry : DataEntry) : ∀ text ∈ entry.operands, Graphic text := by
  rw [operands, List.forall_mem_append]
  exact ⟨graphic_operandsFrom entry.bytes (List.forall_mem_nil _), by decide⟩

/-- What stands behind the label of a data line is graphic, whatever the bytes are. -/
theorem exists_line (entry : DataEntry) :
    ∃ directive, Graphic directive ∧ entry.line = entry.label ++ directive := by
  have hcomma : Graphic ", " := by decide
  have hword : Graphic " db " := by decide
  refine ⟨" db " ++ String.intercalate ", " entry.operands, ?_, String.append_assoc⟩
  exact graphic_append.2 ⟨hword, graphic_intercalate hcomma entry.graphic_operands⟩

theorem graphic_line {entry : DataEntry} : Graphic entry.line ↔ Graphic entry.label := by
  obtain ⟨directive, hdirective, hline⟩ := entry.exists_line
  rw [hline, graphic_append]
  exact and_iff_left hdirective

theorem oneLine_line {entry : DataEntry} : OneLine entry.line ↔ OneLine entry.label := by
  obtain ⟨directive, hdirective, hline⟩ := entry.exists_line
  rw [hline, oneLine_append]
  exact and_iff_left hdirective.oneLine

end DataEntry

end ClassLang
