/-
  ClassLang/Proofs/NumberPrinting.lean
  ====================================
  **The routine that writes a number writes its numeral.**

  The routine makes the numeral from its end: a newline at the top of its buffer, then
  digit by digit downwards as long as the quotient is not zero, then the sign.  The
  buffer has sixteen bytes, and the longest numeral, that of the least number, takes
  twelve with the newline.  Negation wraps around at that number only, and the division
  takes no notice of signs, so it gets its digits like all others.

  `Filled` is the invariant: what has been made so far lies at the end of the buffer,
  with the pointer at its first byte, and nothing has been stored outside.  One turn of
  the loop puts one more byte before the others (`Filled.cons`); the loop as a whole puts
  the digits there (`reaches_digits`), by induction on the quotient.
-/
import ClassLang.Assembly.Printing
import ClassLang.Proofs.Processor
import ClassLang.Proofs.TextBytes

namespace ClassLang.Printing

open Processor

/-! ### The buffer -/

/-- The end of the buffer holds some bytes, and only there has been stored since a state. -/
structure Filled (E P : Processor) (out : List UInt8) : Prop where
  ebp : P.registers .ebp = E.registers .ebp
  ecx : P.registers .ecx = E.registers .ebp - .ofNat 32 out.length
  bytes : bytesFrom P.memory (P.registers .ecx) out.length = out
  stored : StoredIn (Below (E.registers .ebp) 16) E P
  writes : P.writes = E.writes

/-- Store a byte before those that are there. -/
def put (P : Processor) (b : UInt8) : Processor :=
  (P.set .ecx (P.registers .ecx - 1#32)).spoil.storeByte (P.registers .ecx - 1#32) b

section

variable (result : Processor → BitVec 32) {E P Q : Processor} {out : List UInt8}

/-- Other registers and comparisons have no part in it. -/
theorem Filled.congr (h : Filled E P out) (hebp : Q.registers .ebp = P.registers .ebp)
    (hecx : Q.registers .ecx = P.registers .ecx) (hmemory : Q.memory = P.memory)
    (hstored : Q.stored = P.stored) (hwrites : Q.writes = P.writes) : Filled E Q out where
  ebp := hebp.trans h.ebp
  ecx := hecx.trans h.ecx
  bytes := by
    rw [hmemory, hecx]
    exact h.bytes
  stored := by
    obtain ⟨new, hnew, hin⟩ := h.stored
    exact ⟨new, hstored.trans hnew, hin⟩
  writes := hwrites.trans h.writes

theorem Filled.cons (h : Filled E P out) (hroom : out.length < 16) (b : UInt8) :
    Filled E (put P b) (b :: out) := by
  have hnext : (put P b).registers .ecx = P.registers .ecx - 1#32 := by simp [put]
  refine ⟨?_, ?_, ?_, ?_, h.writes⟩
  · rw [← h.ebp]
    simp [put]
  · rw [hnext, h.ecx, List.length_cons]
    bv_omega
  · rw [hnext, List.length_cons, bytesFrom]
    have hself : (put P b).memory (P.registers .ecx - 1#32) = b := by simp [put]
    have hothers : bytesFrom (put P b).memory (P.registers .ecx) out.length =
        bytesFrom P.memory (P.registers .ecx) out.length := by
      refine bytesFrom_congr fun k hk => ?_
      have hne : P.registers .ecx + .ofNat 32 k ≠ P.registers .ecx - 1#32 := by bv_omega
      exact Function.update_of_ne hne b P.memory
    rw [hself, BitVec.sub_add_cancel, hothers, h.bytes]
  · obtain ⟨new, hnew, hin⟩ := h.stored
    refine ⟨(P.registers .ecx - 1#32) :: new, ?_, ?_⟩
    · show (P.registers .ecx - 1#32) :: P.stored = _
      rw [hnew]
      rfl
    · refine List.forall_mem_cons.2 ⟨?_, hin⟩
      rw [h.ecx]
      constructor <;> bv_omega

/-! ### One digit -/

def turn : List Instruction :=
  [.xor .edx (.register .edx), .div .ebx, .add .edx (.immediate 48), .dec .ecx,
    .mov (.memory none (.offBy .ecx 0)) .dl, .cmp (.register .eax) (.immediate 0)]

/-- A single word is divided without overflow. -/
theorem divide?_word {d : BitVec 32} (hedx : P.registers .edx = 0#32) (hd : d ≠ 0#32) :
    P.divide? d =
      some ((P.set .eax (P.registers .eax / d)).set .edx (P.registers .eax % d)).spoil := by
  have hpos : d.toNat ≠ 0 := fun h => hd (BitVec.eq_of_toNat_eq h)
  have hfits : (P.registers .eax).toNat / d.toNat < 2 ^ 32 :=
    Nat.lt_of_le_of_lt (Nat.div_le_self _ _) (P.registers .eax).isLt
  have hdividend : (P.registers .edx).toNat * 2 ^ 32 + (P.registers .eax).toNat =
      (P.registers .eax).toNat := by simp [hedx]
  simp only [divide?, hdividend, hpos, false_or, Nat.not_le.2 hfits, if_false, BitVec.udiv_def,
    BitVec.umod_def]

/-- The quotient by ten, and the digit that is left. -/
def divided (P : Processor) : Processor :=
  ((((P.set .edx 0#32).spoil.set .eax (P.registers .eax / 10#32)).set .edx
    (P.registers .eax % 10#32)).spoil.set .edx (P.registers .eax % 10#32 + 48#32)).spoil

/-- The digit is put before the others, and the quotient compared with zero. -/
def turned (P : Processor) : Processor :=
  (put (divided P) (byteOf (P.registers .eax % 10#32 + 48#32) 0)).compare
    (P.registers .eax / 10#32).toInt 0

theorem exec_turn (hebx : P.registers .ebx = 10#32) : exec? result P turn = some (turned P) := by
  have hdivide := divide?_word (P := (P.set .edx 0#32).spoil) (d := 10#32) (by simp) (by decide)
  have hebx' : (P.set .edx 0#32).spoil.registers .ebx = 10#32 := by simpa using hebx
  simp only [turn, exec?, effect?, word?, Option.map_some, Option.bind_some, BitVec.xor_self]
  rw [hebx', hdivide, Option.bind_some]
  simp [move?, compare?, byte?, word?, Operand.isByte, turned, divided, put]

theorem Filled.turned (h : Filled E P out) (hroom : out.length < 16) :
    Filled E (turned P) (UInt8.ofNat (48 + (P.registers .eax).toNat % 10) :: out) := by
  have hdigit : byteOf (P.registers .eax % 10#32 + 48#32) 0 =
      UInt8.ofNat (48 + (P.registers .eax).toNat % 10) := by
    apply UInt8.toNat_inj.1
    have hlt : (P.registers .eax).toNat % 10 < 10 := Nat.mod_lt _ (by decide)
    simp [toNat_byteOf]
    omega
  have hdivided : Filled E (divided P) out :=
    h.congr (by simp [divided]) (by simp [divided]) rfl rfl rfl
  rw [← hdigit]
  exact (hdivided.cons hroom _).congr rfl rfl rfl rfl rfl

@[simp] theorem turned_eax : (turned P).registers .eax = P.registers .eax / 10#32 := by
  simp [turned, put, divided]

@[simp] theorem turned_ebx : (turned P).registers .ebx = P.registers .ebx := by
  simp [turned, put, divided]

@[simp] theorem turned_esi : (turned P).registers .esi = P.registers .esi := by
  simp [turned, put, divided]

/-- The digits of the quotient are put before the others. -/
theorem reaches_digits (hP : Filled E P out) (hebx : P.registers .ebx = 10#32)
    (hroom : (stringBytes (P.registers .eax).toNat.repr).length + out.length ≤ 16) :
    ∃ Q, Reaches result number (P, .line 14) (Q, .line 22) ∧
      Filled E Q (stringBytes (P.registers .eax).toNat.repr ++ out) ∧
      Q.registers .esi = P.registers .esi := by
  -- the quotient gets smaller with every turn, and what is in the buffer longer by its digit
  induction hq : (P.registers .eax).toNat using Nat.strongRecOn generalizing P out with
  | ind q ih =>
    subst hq
    have hpos : 0 < (stringBytes (P.registers .eax).toNat.repr).length := by
      rw [length_stringBytes_repr]
      exact Nat.length_toDigits_pos
    have hturn : Reaches result number (P, .line 14) (turned P, .line 21) :=
      .trans (reaches_label rfl)
        (reaches_of_exec? turn ⟨number.drop 21, rfl⟩ (exec_turn result hebx))
    have hjump : Reaches result number (turned P, .line 21) (turned P,
        .line (if !((P.registers .eax / 10#32).toInt == 0) then 14 else 22)) :=
      reaches_jump rfl rfl (by decide)
    have hfilled := hP.turned (by omega)
    by_cases hlast : (P.registers .eax).toNat < 10
    · refine ⟨turned P, ?_, ?_, turned_esi⟩
      · have hzero : P.registers .eax / 10#32 = 0#32 :=
          BitVec.eq_of_toNat_eq (Nat.div_eq_of_lt hlast)
        rw [hzero] at hjump
        exact hturn.trans hjump
      · rw [stringBytes_repr_of_lt hlast]
        rwa [Nat.mod_eq_of_lt hlast] at hfilled
    · have hle : 10 ≤ (P.registers .eax).toNat := Nat.le_of_not_lt hlast
      have hquotient : (P.registers .eax / 10#32).toNat = (P.registers .eax).toNat / 10 := rfl
      rw [stringBytes_repr_of_le hle] at hroom ⊢
      rw [List.append_assoc]
      obtain ⟨Q, hreach, hQ, hesi⟩ := ih ((turned P).registers .eax).toNat
        (by rw [turned_eax, hquotient]; omega) hfilled (turned_ebx.trans hebx) (by
          rw [turned_eax, hquotient]
          simp only [List.length_append, List.length_singleton] at hroom
          rw [List.length_cons]
          omega) rfl
      rw [turned_eax, hquotient] at hQ
      have hmore : ((P.registers .eax / 10#32).toInt == 0) = false := by
        have hne : (P.registers .eax / 10#32).toInt ≠ (0#32).toInt := by
          rw [ne_eq, BitVec.toInt_inj]
          intro hzero
          rw [hzero] at hquotient
          have hnone : (0#32).toNat = 0 := rfl
          omega
        simpa using hne
      rw [hmore] at hjump
      exact ⟨Q, (hturn.trans hjump).trans hreach, hQ, hesi.trans turned_esi⟩

/-! ### Before and behind the loop -/

variable {M : Processor}

/-- The argument, the newline, and no sign yet. -/
def begun (M : Processor) (v : BitVec 32) : Processor :=
  ((((((M.enter.set .esp (M.registers .esp - 4#32 - 16#32)).spoil.set .eax v).set .ecx
    (M.registers .esp - 4#32 - 1#32)).storeByte (M.registers .esp - 4#32 - 1#32) 10).set .esi
      0#32).spoil).compare v.toInt 0

theorem reaches_begun : Reaches result number (M.enter, .line 3)
    (begun M (M.wordAt (M.registers .esp + 4#32)), .line 9) := by
  refine reaches_of_exec? [.allocate 16, .load .eax (.offBy .ebp 8),
    .lea .ecx (.offBy .ebp (-1)), storeByte .ecx 10, .xor .esi (.register .esi),
    .cmp (.register .eax) (.immediate 0)] ⟨number.drop 9, rfl⟩ ?_
  have hargument := M.wordAt_enter (k := 4) (by decide)
  have habove : M.registers .esp - 4#32 + 8#32 = M.registers .esp + 4#32 := by bv_omega
  have hbelow : M.registers .esp - 4#32 + 4294967295#32 = M.registers .esp - 4#32 - 1#32 := by
    bv_omega
  have hnewline : byteOf 10#32 0 = 10 := rfl
  simp [exec?, effect?, move?, compare?, word?, byte?, Operand.isByte, Instruction.allocate,
    Instruction.load, storeByte, begun, habove, hargument, hbelow, hnewline]

theorem filled_begun (v : BitVec 32) : Filled M.enter (begun M v) [10] := by
  have hecx : (begun M v).registers .ecx = M.registers .esp - 4#32 - 1#32 := by simp [begun]
  refine ⟨by simp [begun], ?_, ?_, ⟨[M.registers .esp - 4#32 - 1#32], rfl, ?_⟩, rfl⟩
  · rw [hecx, enter_ebp]
    rfl
  · rw [hecx]
    simp [bytesFrom, begun]
  · rw [enter_ebp, List.forall_mem_singleton]
    constructor <;> bv_omega

theorem reaches_ten (P : Processor) :
    Reaches result number (P, .line 12) (P.set .ebx 10#32, .line 14) :=
  .trans (reaches_label rfl)
    (reaches_of_exec? [.set .ebx 10] ⟨number.drop 14, rfl⟩ rfl)

/-- The sign is kept, and the loop entered with the absolute value. -/
theorem reaches_loop : ∃ P, Reaches result number (M.enter, .line 3) (P, .line 14) ∧
    Filled M.enter P [10] ∧ P.registers .ebx = 10#32 ∧
    (P.registers .eax).toNat = (M.wordAt (M.registers .esp + 4#32)).toInt.natAbs ∧
    P.registers .esi = if (M.wordAt (M.registers .esp + 4#32)).toInt < 0 then 1#32 else 0#32 := by
  have hbegun := reaches_begun result (M := M)
  generalize M.wordAt (M.registers .esp + 4#32) = v at *
  have hfilled := filled_begun (M := M) v
  have hsigned := BitVec.toInt_eq_toNat_cond v
  have hjump : Reaches result number (begun M v, .line 9) (begun M v,
      .line (if decide (0 ≤ v.toInt) then 12 else 10)) := reaches_jump rfl rfl (by decide)
  by_cases hsign : v.toInt < 0
  · rw [decide_eq_false (Int.not_le.2 hsign)] at hjump
    have hnegate : Reaches result number (begun M v, .line 10)
        ((((begun M v).set .esi 1#32).set .eax (-v)).spoil, .line 12) := by
      refine reaches_of_exec? [.set .esi 1, .neg .eax] ⟨number.drop 12, rfl⟩ ?_
      simp [exec?, effect?, move?, word?, Instruction.set, begun]
    refine ⟨_, ((hbegun.trans hjump).trans hnegate).trans (reaches_ten result _),
      hfilled.congr (by simp) (by simp) rfl rfl rfl, by simp, ?_, by simp [hsign]⟩
    have heax : (((((begun M v).set .esi 1#32).set .eax (-v)).spoil.set .ebx 10#32).registers
        .eax) = -v := by simp
    -- the least number is its own negative, and without its sign it is its absolute value
    rw [heax, BitVec.toNat_neg]
    split at hsigned <;> omega
  · rw [decide_eq_true (Int.not_lt.1 hsign)] at hjump
    refine ⟨_, (hbegun.trans hjump).trans (reaches_ten result _),
      hfilled.congr (by simp) (by simp) rfl rfl rfl, by simp, ?_, by simp [hsign, begun]⟩
    have heax : ((begun M v).set .ebx 10#32).registers .eax = v := by simp [begun]
    rw [heax]
    split at hsigned <;> omega

/-- The sign of a negative number is put before its digits. -/
theorem reaches_sign {negative : Prop} [Decidable negative] (hP : Filled E P out)
    (hesi : P.registers .esi = if negative then 1#32 else 0#32) (hroom : out.length < 16) :
    ∃ Q, Reaches result number (P, .line 22) (Q, .line 26) ∧
      Filled E Q ((if negative then [45] else []) ++ out) := by
  have hcompare : Reaches result number (P, .line 22)
      (P.compare (P.registers .esi).toInt 0, .line 23) :=
    reaches_of_exec? [.cmp (.register .esi) (.immediate 0)] ⟨number.drop 23, rfl⟩ rfl
  have hjump : Reaches result number (P.compare (P.registers .esi).toInt 0, .line 23)
      (P.compare (P.registers .esi).toInt 0,
        .line (if (P.registers .esi).toInt == 0 then 26 else 24)) :=
    reaches_jump rfl rfl (by decide)
  have hcompared : Filled E (P.compare (P.registers .esi).toInt 0) out :=
    hP.congr rfl rfl rfl rfl rfl
  by_cases hsign : negative
  · rw [if_pos hsign] at hesi
    rw [hesi] at hcompare hjump hcompared
    have hput : Reaches result number (P.compare (1#32).toInt 0, .line 24)
        (put (P.compare (1#32).toInt 0) 45, .line 26) := by
      refine reaches_of_exec? [.dec .ecx, storeByte .ecx 45] ⟨number.drop 26, rfl⟩ ?_
      have hminus : byteOf 45#32 0 = 45 := rfl
      simp [exec?, effect?, move?, byte?, Operand.isByte, storeByte, put, hminus]
    refine ⟨_, (hcompare.trans hjump).trans hput, ?_⟩
    rw [if_pos hsign]
    exact hcompared.cons hroom 45
  · rw [if_neg hsign] at hesi
    rw [hesi] at hcompare hjump hcompared
    refine ⟨_, hcompare.trans hjump, ?_⟩
    rw [if_neg hsign]
    exact hcompared

/-- What is in the buffer is written, and the stack pointer put back. -/
theorem reaches_write (hP : Filled E P out) (hroom : out.length ≤ 16) :
    ∃ Q, Reaches result number (P, .line 26) (Q, .line 33) ∧
      Q.registers .esp = E.registers .ebp ∧ StoredIn (Below (E.registers .ebp) 16) E Q ∧
      Q.writes = E.writes ++ [(1#32, out)] := by
  have hlength : (P.registers .ebp - P.registers .ecx).toNat = out.length := by
    rw [hP.ebp, hP.ecx]
    bv_omega
  have hcount : Reaches result number (P, .line 26) (((P.set .edx (P.registers .ebp)).set .edx
      (P.registers .ebp - P.registers .ecx)).spoil, .line 29) := by
    refine .trans (reaches_label rfl) (reaches_of_exec?
      [.copy .edx .ebp, .sub .edx (.register .ecx)] ⟨number.drop 29, rfl⟩ ?_)
    simp [exec?, effect?, move?, word?, Instruction.copy]
  obtain ⟨Q, hexec, hebp, -, hstored, hwrites⟩ := exec_writeOut result
    ((P.set .edx (P.registers .ebp)).set .edx (P.registers .ebp - P.registers .ecx)).spoil
  have hwrite : Reaches result number (((P.set .edx (P.registers .ebp)).set .edx
      (P.registers .ebp - P.registers .ecx)).spoil, .line 29) (Q, .line 32) :=
    reaches_of_exec? writeOut ⟨number.drop 32, rfl⟩ hexec
  have hback : Reaches result number (Q, .line 32) (Q.set .esp (Q.registers .ebp), .line 33) :=
    reaches_of_exec? [.copy .esp .ebp] ⟨number.drop 33, rfl⟩ rfl
  refine ⟨_, (hcount.trans hwrite).trans hback, ?_, ?_, ?_⟩
  · rw [set_registers_self, hebp, ← hP.ebp]
    simp
  · obtain ⟨new, hnew, hin⟩ := hP.stored
    exact ⟨new, hstored.trans hnew, hin⟩
  · simp only [spoil_registers, set_registers_self, ne_eq, reduceCtorEq, not_false_eq_true,
      set_registers_of_ne, spoil_memory, set_memory, hlength, hP.bytes] at hwrites
    rw [← hP.writes]
    exact hwrites

end

/-! ### The routine -/

/-- Whatever the state is in which the routine is entered, and whatever the system gives back: the
    run comes to the return address of the caller, and from every state on the way.  It has stored
    only in the twenty bytes below that address, and written the numeral of its argument with a
    newline behind, in one call; frame and stack pointer are those of before, but for the return
    address that is off the stack. -/
theorem number_printed (result : Processor → BitVec 32) (M : Processor) :
    ∃ N, Reaches result number (M, .line 0) (N, .returned (M.wordAt (M.registers .esp))) ∧
      (∀ c, Reaches result number (M, .line 0) c →
        Reaches result number c (N, .returned (M.wordAt (M.registers .esp)))) ∧
      Printed 20
        (stringBytes (toString (M.wordAt (M.registers .esp + 4#32)).toInt) ++ [10]) M N := by
  obtain ⟨P₁, hloop, hbuffer, hebx, heax, hesi⟩ := reaches_loop result (M := M)
  generalize (M.wordAt (M.registers .esp + 4#32)).toInt = v at *
  have hdigits : (stringBytes v.natAbs.repr).length ≤ 10 := by
    rw [length_stringBytes_repr, Nat.length_toDigits_le_iff (by decide) (by decide), ← heax]
    have hword := (P₁.registers .eax).isLt
    omega
  obtain ⟨P₂, hturns, hnumeral, hkept⟩ := reaches_digits result hbuffer hebx (by
    rw [heax, List.length_singleton]
    omega)
  rw [heax] at hnumeral
  obtain ⟨P₃, hsign, hsigned⟩ := reaches_sign result hnumeral (hkept.trans hesi) (by
    rw [List.length_append, List.length_singleton]
    omega)
  rw [← List.append_assoc, ← stringBytes_toString_int] at hsigned
  obtain ⟨P₄, hwrite, hesp, hstored, hwrites⟩ := reaches_write result hsigned (by
    rw [stringBytes_toString_int, List.length_append, List.length_append, List.length_singleton]
    split <;> simp only [List.length_singleton, List.length_nil] <;> omega)
  rw [enter_ebp] at hesp hstored
  have hinside : Reaches result number (M.enter, .line 3) (P₄, .line 33) :=
    ((hloop.trans hturns).trans hsign).trans hwrite
  exact exists_printed (by decide) ⟨number.drop 3, rfl⟩ ⟨[], rfl⟩ hinside hesp hstored hwrites

end ClassLang.Printing
