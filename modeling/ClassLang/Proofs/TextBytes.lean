/-
  ClassLang/Proofs/TextBytes.lean
  ===============================
  **The bytes of a text.**

  Texts are stored and written as bytes, each character as one to four of them.  Two
  things are needed of that encoding: characters below 128 are single bytes, which gives
  the bytes of decimal numerals, digit by digit; and a zero byte stands for the character
  with the number zero and for no other.
-/
import Mathlib.Data.Nat.Init
import ClassLang.Statement.Rules

namespace ClassLang

theorem stringBytes_ofList (cs : List Char) :
    stringBytes (String.ofList cs) = cs.flatMap String.utf8EncodeChar := by
  rw [stringBytes, String.toUTF8, String.toByteArray_ofList, List.utf8Encode]
  simp

theorem stringBytes_append (s t : String) :
    stringBytes (s ++ t) = stringBytes s ++ stringBytes t := by
  simp [stringBytes, String.toUTF8]

theorem utf8EncodeChar_of_ascii {c : Char} (h : c.toNat < 128) :
    String.utf8EncodeChar c = [UInt8.ofNat c.toNat] := by
  have hle : c.val.toNat ≤ 127 := Nat.le_of_lt_succ h
  simp only [String.utf8EncodeChar, hle, if_true]
  rfl

/-! ### Zero bytes -/

theorem takeWhile_bne_cons {α : Type} [BEq α] [LawfulBEq α] {a stop : α} (h : a ≠ stop)
    {as : List α} : (a :: as).takeWhile (· != stop) = a :: as.takeWhile (· != stop) :=
  List.takeWhile_cons_of_pos (bne_iff_ne.2 h)

/-- The character with the number zero. -/
def nul : Char := Char.ofNat 0

/-- No other character has a zero byte. -/
theorem zero_mem_utf8EncodeChar {c : Char} : 0 ∈ String.utf8EncodeChar c ↔ c = nul := by
  have hzero : ∀ m : Nat, (0 : UInt8) = UInt8.ofNat m ↔ m % 256 = 0 := by
    intro m
    rw [← UInt8.toNat_inj, eq_comm]
    simp
  constructor
  · intro h
    simp only [String.utf8EncodeChar] at h
    split at h
    · rw [List.mem_singleton, hzero] at h
      have hval : c.val.toNat = 0 := by omega
      exact Char.ext (UInt32.toNat_inj.1 hval)
    -- all bytes of a longer encoding are at least 128
    · repeat' split at h
      all_goals
        simp only [List.mem_cons, List.not_mem_nil, or_false, hzero] at h
        omega
  · rintro rfl
    decide

theorem zero_mem_stringBytes {s : String} : 0 ∈ stringBytes s ↔ nul ∈ s.toList := by
  rw [← String.ofList_toList (s := s), stringBytes_ofList, String.toList_ofList, List.mem_flatMap]
  constructor
  · rintro ⟨c, hc, hzero⟩
    rwa [zero_mem_utf8EncodeChar.1 hzero] at hc
  · intro hc
    exact ⟨_, hc, zero_mem_utf8EncodeChar.2 rfl⟩

/-- The bytes before the first zero are those of the characters before the first such character. -/
theorem takeWhile_flatMap_utf8EncodeChar {cs : List Char} (h : nul ∈ cs) (rest : List UInt8) :
    (cs.flatMap String.utf8EncodeChar ++ rest).takeWhile (· != 0) =
      (cs.takeWhile (· != nul)).flatMap String.utf8EncodeChar := by
  induction cs with
  | nil => cases h
  | cons c cs ih =>
    by_cases hc : c = nul
    · subst hc
      rfl
    · have hbytes : ∀ b ∈ String.utf8EncodeChar c, (b != 0) = true := by
        intro b hb
        rw [bne_iff_ne]
        rintro rfl
        exact hc (zero_mem_utf8EncodeChar.1 hb)
      have hmore : nul ∈ cs := (List.mem_cons.1 h).resolve_left (Ne.symm hc)
      rw [takeWhile_bne_cons hc, List.flatMap_cons, List.flatMap_cons, List.append_assoc,
        List.takeWhile_append_of_pos hbytes, ih hmore]

/-! ### Decimal numerals -/

/-- The byte of a digit. -/
theorem stringBytes_digit {d : Nat} (h : d < 10) :
    stringBytes (String.ofList [Nat.digitChar d]) = [UInt8.ofNat (48 + d)] := by
  have hdigit := Nat.toNat_digitChar_of_lt_ten h
  rw [stringBytes_ofList, List.flatMap_singleton, utf8EncodeChar_of_ascii (by omega), hdigit]

theorem stringBytes_repr_of_lt {n : Nat} (h : n < 10) :
    stringBytes n.repr = [UInt8.ofNat (48 + n)] := by
  rw [Nat.repr_eq_ofList_toDigits, Nat.toDigits_of_lt_base h, stringBytes_digit h]

theorem stringBytes_repr_of_le {n : Nat} (h : 10 ≤ n) :
    stringBytes n.repr = stringBytes (n / 10).repr ++ [UInt8.ofNat (48 + n % 10)] := by
  rw [Nat.repr_eq_ofList_toDigits, Nat.toDigits_of_base_le (by decide) h, String.ofList_append,
    stringBytes_append, stringBytes_digit (Nat.mod_lt n (by decide)), Nat.repr_eq_ofList_toDigits]

/-- Each digit is one byte. -/
theorem length_stringBytes_repr (n : Nat) :
    (stringBytes n.repr).length = (Nat.toDigits 10 n).length := by
  induction n using Nat.strongRecOn with
  | ind n ih =>
    by_cases hn : n < 10
    · rw [stringBytes_repr_of_lt hn, Nat.toDigits_of_lt_base hn]
      rfl
    · have hle : 10 ≤ n := Nat.le_of_not_lt hn
      rw [stringBytes_repr_of_le hle, Nat.toDigits_of_base_le (by decide) hle, List.length_append,
        List.length_append, ih (n / 10) (by omega)]
      rfl

/-- A number with its sign. -/
theorem stringBytes_toString_int (i : Int) :
    stringBytes (toString i) = (if i < 0 then [45] else []) ++ stringBytes i.natAbs.repr := by
  cases i with
  | ofNat n =>
    have hsign : ¬ Int.ofNat n < 0 := Int.not_lt.2 (Int.natCast_nonneg n)
    rw [if_neg hsign]
    rfl
  | negSucc n =>
    rw [if_pos (Int.negSucc_lt_zero n)]
    exact stringBytes_append "-" (n + 1).repr

end ClassLang
