/-
  ClassLang/Proofs/DataDirective.lean
  ===================================
  **What an assembler reads in a data line.**

  A data line is a label, the word `db`, and operands with commas between them.  An
  operand is a run of characters between double quotes, which stand for their own bytes
  whatever they are, or the value of a byte in decimal.  Blanks between operands and
  commas do not matter.  `readOperands` goes over the characters once and has only to
  remember what it is in the middle of.

  The bytes read from the line of an entry are those of the entry, with the newline and
  the zero that end every string (`readDirective?_line`).  So the line tells the entry,
  and since it is a line of graphic characters, nothing in it can be taken for another
  line (`data_line_round_trip`).
-/
import ClassLang.Proofs.GraphicText
import ClassLang.Proofs.TextBytes

namespace ClassLang

/-! ### Reading -/

/-- What the reader of operands is in the middle of. -/
inductive OperandState where
  | fresh                  -- before an operand
  | quoted                 -- inside a run
  | number (n : Nat)       -- inside a numeral, with what its digits say so far
  | closed                 -- behind an operand

/-- A value has to fit a byte. -/
def consByte? (n : Nat) (bytes : Option (List UInt8)) : Option (List UInt8) :=
  if n < 256 then bytes.map (UInt8.ofNat n :: ·) else none

/-- The bytes of the operands of a data line. -/
def readOperands : OperandState → List Char → Option (List UInt8)
  | .fresh, [] => none
  | .fresh, c :: rest =>
    if c = ' ' then readOperands .fresh rest
    else if c = '"' then readOperands .quoted rest
    else if c.isDigit then readOperands (.number (c.toNat - '0'.toNat)) rest
    else none
  | .quoted, [] => none
  | .quoted, c :: rest =>
    if c = '"' then readOperands .closed rest
    else (readOperands .quoted rest).map (String.utf8EncodeChar c ++ ·)
  | .number n, [] => consByte? n (some [])
  | .number n, c :: rest =>
    if c.isDigit then readOperands (.number (10 * n + (c.toNat - '0'.toNat))) rest
    else if c = ',' then consByte? n (readOperands .fresh rest)
    else if c = ' ' then consByte? n (readOperands .closed rest)
    else none
  | .closed, [] => some []
  | .closed, c :: rest =>
    if c = ' ' then readOperands .closed rest
    else if c = ',' then readOperands .fresh rest
    else none

/-- The label and the bytes of a data line. -/
def readDirective? (line : String) : Option (String × List UInt8) :=
  match line.toList.dropWhile (· != ' ') with
  | ' ' :: 'd' :: 'b' :: ' ' :: operands =>
    (readOperands .fresh operands).map fun bytes =>
      (String.ofList (line.toList.takeWhile (· != ' ')), bytes)
  | _ => none

namespace DataEntry

/-! ### Operands -/

/-- Operands with a comma and a blank behind each. -/
def separated (operands : List String) : List Char :=
  operands.flatMap fun operand => operand.toList ++ [',', ' ']

theorem separated_append (operands operands' : List String) :
    separated (operands ++ operands') = separated operands ++ separated operands' :=
  List.flatMap_append

/-- The last operand has nothing behind it. -/
theorem toList_intercalate_snoc (operands : List String) (last : String) :
    (String.intercalate ", " (operands ++ [last])).toList = separated operands ++ last.toList := by
  induction operands with
  | nil => simp [separated]
  | cons first rest ih =>
    rw [separated, List.flatMap_cons, List.append_assoc, ← separated, ← ih]
    cases rest with
    | nil => simp
    | cons second rest => simp

theorem utf8EncodeChar_plain {byte : UInt8} (h : isPlain byte = true) :
    String.utf8EncodeChar (Char.ofNat byte.toNat) = [byte] ∧ Char.ofNat byte.toNat ≠ '"' := by
  obtain ⟨-, hhigh, hnat⟩ := range_of_isPlain h
  constructor
  · rw [utf8EncodeChar_of_ascii (by omega), hnat, UInt8.ofNat_toNat]
  · intro heq
    rw [heq] at hnat
    obtain rfl : byte = 0x22 := UInt8.toNat_inj.1 hnat.symm
    cases h

/-- A run stands for its bytes. -/
theorem readOperands_quoted {bytes : List UInt8} (h : ∀ byte ∈ bytes, isPlain byte = true)
    (rest : List Char) :
    readOperands .quoted (bytes.map (fun byte => Char.ofNat byte.toNat) ++ '"' :: rest) =
      (readOperands .closed rest).map (bytes ++ ·) := by
  induction bytes with
  | nil => simp [readOperands]
  | cons byte bytes ih =>
    rw [List.forall_mem_cons] at h
    obtain ⟨hencode, hquote⟩ := utf8EncodeChar_plain h.1
    rw [List.map_cons, List.cons_append, readOperands, if_neg hquote, ih h.2, hencode,
      Option.map_map]
    rfl

theorem readOperands_run {bytes : List UInt8} (h : ∀ byte ∈ bytes, isPlain byte = true)
    (rest : List Char) :
    readOperands .fresh (separated (run bytes) ++ rest) =
      (readOperands .fresh rest).map (bytes ++ ·) := by
  unfold run
  split
  · rename_i hempty
    rw [List.isEmpty_iff.1 hempty]
    simp [separated]
  · have hquoted := readOperands_quoted h (',' :: ' ' :: rest)
    simpa [separated, readOperands] using hquoted

/-- Digits add up. -/
theorem readOperands_digits {digits : List Char} (h : ∀ c ∈ digits, c.isDigit = true) (n : Nat)
    (rest : List Char) :
    readOperands (.number n) (digits ++ rest) =
      readOperands (.number (Nat.ofDigitChars 10 digits n)) rest := by
  induction digits generalizing n with
  | nil => rfl
  | cons c digits ih =>
    rw [List.forall_mem_cons] at h
    rw [List.cons_append, readOperands, if_pos h.1, ih h.2]
    rfl

theorem readOperands_number (byte : UInt8) (rest : List Char) :
    readOperands .fresh (separated [toString byte.toNat] ++ rest) =
      (readOperands .fresh rest).map (byte :: ·) := by
  have hdigit : ∀ c ∈ Nat.toDigits 10 byte.toNat, c.isDigit = true := fun c hc =>
    Nat.isDigit_of_mem_toDigits (by decide) (by decide) hc
  have hvalue : Nat.ofDigitChars 10 (Nat.toDigits 10 byte.toNat) 0 = byte.toNat :=
    Nat.ofDigitChars_ten_toDigits
  have htext : separated [toString byte.toNat] ++ rest =
      Nat.toDigits 10 byte.toNat ++ ',' :: ' ' :: rest := by
    simp [separated]
  rw [htext]
  cases hdigits : Nat.toDigits 10 byte.toNat with
  | nil => exact absurd hdigits Nat.toDigits_ne_nil
  | cons c digits =>
    rw [hdigits, List.forall_mem_cons] at hdigit
    rw [hdigits, Nat.ofDigitChars_cons, Nat.mul_zero, Nat.zero_add] at hvalue
    have hblank : c ≠ ' ' := by
      rintro rfl
      exact absurd hdigit.1 (by decide)
    have hquote : c ≠ '"' := by
      rintro rfl
      exact absurd hdigit.1 (by decide)
    rw [List.cons_append, readOperands, if_neg hblank, if_neg hquote, if_pos hdigit.1,
      readOperands_digits hdigit.2, hvalue]
    have hcomma : ¬ (','.isDigit = true) := by decide
    rw [readOperands, if_neg hcomma, if_pos rfl, consByte?, if_pos byte.toNat_lt, readOperands,
      if_pos rfl, UInt8.ofNat_toNat]

/-- The operands of some bytes, behind a run that has been begun. -/
theorem readOperands_operandsFrom (pending bytes : List UInt8)
    (h : ∀ byte ∈ pending, isPlain byte = true) (rest : List Char) :
    readOperands .fresh (separated (operandsFrom pending bytes) ++ rest) =
      (readOperands .fresh rest).map (pending ++ bytes ++ ·) := by
  induction bytes generalizing pending with
  | nil => rw [operandsFrom, readOperands_run h, List.append_nil]
  | cons byte bytes ih =>
    rw [operandsFrom]
    split
    · rename_i hplain
      rw [ih _ (by simpa using fun b hb => hb.elim (h b) (· ▸ hplain)), List.append_assoc]
      rfl
    · have hsplit : separated (run pending ++ toString byte.toNat :: operandsFrom [] bytes) =
          separated (run pending) ++ (separated [toString byte.toNat] ++
            separated (operandsFrom [] bytes)) := by
        rw [← separated_append, ← separated_append]
        rfl
      rw [hsplit, List.append_assoc, readOperands_run h, List.append_assoc, readOperands_number,
        ih [] (List.forall_mem_nil _), Option.map_map, Option.map_map]
      congr 1
      funext more
      simp

/-! ### Lines -/

/-- An assembler reads from the line of an entry its label and its bytes, and behind them a newline
    and a zero. -/
theorem readDirective?_line {entry : DataEntry} (h : ' ' ∉ entry.label.toList) :
    readDirective? entry.line = some (entry.label, entry.bytes ++ [10, 0]) := by
  have hlabel : ∀ c ∈ entry.label.toList, (c != ' ') = true := by
    intro c hc
    rw [bne_iff_ne]
    rintro rfl
    exact h hc
  have hoperands : (String.intercalate ", " entry.operands).toList =
      separated (operandsFrom [] entry.bytes) ++ ['1', '0', ',', ' ', '0'] := by
    have hends : entry.operands = (operandsFrom [] entry.bytes ++ ["10"]) ++ ["0"] := by
      simp [operands]
    rw [hends, toList_intercalate_snoc, separated_append, List.append_assoc]
    rfl
  have hline : entry.line.toList = entry.label.toList ++ ' ' :: 'd' :: 'b' :: ' ' ::
      (separated (operandsFrom [] entry.bytes) ++ ['1', '0', ',', ' ', '0']) := by
    rw [line, String.toList_append, String.toList_append, hoperands]
    simp
  have hend : readOperands .fresh ['1', '0', ',', ' ', '0'] = some [10, 0] := by decide
  have hread : readOperands .fresh
      (separated (operandsFrom [] entry.bytes) ++ ['1', '0', ',', ' ', '0']) =
        some (entry.bytes ++ [10, 0]) := by
    rw [readOperands_operandsFrom [] _ (List.forall_mem_nil _), hend]
    rfl
  rw [readDirective?, hline, List.dropWhile_append_of_pos hlabel,
    List.takeWhile_append_of_pos hlabel]
  simp [hread]

/-- An entry is known by its line. -/
theorem eq_of_line_eq {entry other : DataEntry} (h : ' ' ∉ entry.label.toList)
    (hother : ' ' ∉ other.label.toList) (hline : other.line = entry.line) : other = entry := by
  have hread := congrArg readDirective? hline
  rw [readDirective?_line h, readDirective?_line hother, Option.some.injEq, Prod.mk.injEq] at hread
  obtain ⟨hlabel, hbytes⟩ := hread
  have hbytes : other.bytes = entry.bytes := List.append_cancel_right hbytes
  cases entry
  cases other
  rw [mk.injEq]
  exact ⟨hlabel, hbytes⟩

end DataEntry

/-- Whatever the bytes of an entry are, its line is one line of graphic characters if the label is;
    an assembler reads the label and the bytes from it, with a newline and a zero behind them; and
    no other entry has this line. -/
theorem data_line_round_trip {entry : DataEntry} (h : ' ' ∉ entry.label.toList) :
    (OneLine entry.label → OneLine entry.line) ∧ (Graphic entry.label → Graphic entry.line) ∧
      readDirective? entry.line = some (entry.label, entry.bytes ++ [10, 0]) ∧
      ∀ other : DataEntry, ' ' ∉ other.label.toList → other.line = entry.line → other = entry := by
  refine ⟨DataEntry.oneLine_line.2, DataEntry.graphic_line.2, DataEntry.readDirective?_line h, ?_⟩
  intro other hother hline
  exact DataEntry.eq_of_line_eq h hother hline

/-- An entry whose bytes say ` db `, a comma, a backslash and digits, with a quote, a newline, a
    zero and bytes above the graphic ones between them. -/
def awkwardEntry : DataEntry :=
  ⟨"main_s", [0x20, 0x64, 0x62, 0x20, 0x22, 0x2c, 0x20, 0x5c, 0x0a, 0x31, 0x30, 0x00, 0x7f, 0xff]⟩

theorem data_line_round_trip_awkward :
    ' ' ∉ awkwardEntry.label.toList ∧ OneLine awkwardEntry.line ∧ Graphic awkwardEntry.line ∧
      readDirective? awkwardEntry.line =
        some ("main_s", awkwardEntry.bytes ++ [10, 0]) ∧
      ∀ other : DataEntry, ' ' ∉ other.label.toList → other.line = awkwardEntry.line →
        other = awkwardEntry := by
  have hlabel : ' ' ∉ awkwardEntry.label.toList := by decide
  obtain ⟨honeLine, hgraphic, hread, hunique⟩ := data_line_round_trip hlabel
  exact ⟨hlabel, honeLine (by decide), hgraphic (by decide), hread, hunique⟩

end ClassLang
