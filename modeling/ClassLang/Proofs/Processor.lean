/-
  ClassLang/Proofs/Processor.lean
  ===============================
  **The processor that runs the printing routines.**

  Generated code is about words on an endless stack.  The printing routines are about
  bytes: they store single bytes, compare single bytes, divide, and hand a stretch of
  memory to the system.  They are run here on the 32-bit processor itself: registers are
  words that wrap around, and so are addresses; memory is made of bytes, and a word in
  it lies with its low byte first.

  Where the processor would fault, there is no next state: a division by zero or with a
  quotient that does not fit a register.  Nor is there one where a jump would go by a
  comparison that arithmetic has spoiled, so a run that goes on to its end has done
  neither.  The system is known by one call, which writes bytes to a descriptor; what it
  leaves in the register of its result is up to the system and a parameter.

  A state carries two records that the processor does not have: the addresses of all
  bytes that have been stored, and what has been written.
-/
import Mathlib.Algebra.Group.Nat.Defs
import ClassLang.Proofs.Machine

namespace ClassLang

/-! ### States -/

structure Processor where
  registers : Register → BitVec 32
  memory : BitVec 32 → UInt8
  compared : Option (Int × Int)
  stored : List (BitVec 32)                      -- the last one first
  writes : List (BitVec 32 × List UInt8)         -- descriptors and bytes

/-- The byte of a word at a place, counted from the low end. -/
def byteOf (w : BitVec 32) (place : Nat) : UInt8 := UInt8.ofNat (w.toNat / 256 ^ place)

/-- Bytes that lie one behind the other. -/
def bytesFrom (memory : BitVec 32 → UInt8) (a : BitVec 32) : Nat → List UInt8
  | 0 => []
  | n + 1 => memory a :: bytesFrom memory (a + 1#32) n

theorem bytesFrom_congr {memory memory' : BitVec 32 → UInt8} {a : BitVec 32} {n : Nat}
    (h : ∀ k < n, memory' (a + .ofNat 32 k) = memory (a + .ofNat 32 k)) :
    bytesFrom memory' a n = bytesFrom memory a n := by
  induction n generalizing a with
  | zero => rfl
  | succ n ih =>
    have hhead := h 0 (Nat.succ_pos n)
    rw [BitVec.add_zero] at hhead
    rw [bytesFrom, bytesFrom, hhead, ih fun k hk => ?_]
    have hnext : a + 1#32 + .ofNat 32 k = a + .ofNat 32 (k + 1) := by bv_omega
    rw [hnext]
    exact h (k + 1) (Nat.succ_lt_succ hk)

theorem getElem?_bytesFrom {memory : BitVec 32 → UInt8} {a : BitVec 32} {n k : Nat} (hk : k < n) :
    (bytesFrom memory a n)[k]? = some (memory (a + .ofNat 32 k)) := by
  induction n generalizing a k with
  | zero => cases hk
  | succ n ih =>
    cases k with
    | zero => rw [BitVec.add_zero]; rfl
    | succ k =>
      have hnext : a + 1#32 + .ofNat 32 k = a + .ofNat 32 (k + 1) := by bv_omega
      rw [bytesFrom, List.getElem?_cons_succ, ih (Nat.lt_of_succ_lt_succ hk), hnext]

theorem take_bytesFrom {memory : BitVec 32 → UInt8} {a : BitVec 32} {n k : Nat} (hk : k ≤ n) :
    (bytesFrom memory a n).take k = bytesFrom memory a k := by
  induction n generalizing a k with
  | zero =>
    obtain rfl : k = 0 := by omega
    rfl
  | succ n ih =>
    cases k with
    | zero => rfl
    | succ k => rw [bytesFrom, List.take_succ_cons, ih (Nat.le_of_succ_le_succ hk), bytesFrom]

namespace Processor

def set (P : Processor) (r : Register) (w : BitVec 32) : Processor :=
  { P with registers := Function.update P.registers r w }

def spoil (P : Processor) : Processor := { P with compared := none }

def compare (P : Processor) (l r : Int) : Processor := { P with compared := some (l, r) }

def storeByte (P : Processor) (a : BitVec 32) (b : UInt8) : Processor :=
  { P with memory := Function.update P.memory a b, stored := a :: P.stored }

def storeWord (P : Processor) (a w : BitVec 32) : Processor :=
  (((P.storeByte a (byteOf w 0)).storeByte (a + 1#32) (byteOf w 1)).storeByte (a + 2#32)
    (byteOf w 2)).storeByte (a + 3#32) (byteOf w 3)

/-- The word at an address. -/
def wordAt (P : Processor) (a : BitVec 32) : BitVec 32 :=
  .ofNat 32 ((P.memory a).toNat + 256 * ((P.memory (a + 1#32)).toNat +
    256 * ((P.memory (a + 2#32)).toNat + 256 * (P.memory (a + 3#32)).toNat)))

def push (P : Processor) (w : BitVec 32) : Processor :=
  (P.set .esp (P.registers .esp - 4#32)).storeWord (P.registers .esp - 4#32) w

def locate (P : Processor) (address : Address) : BitVec 32 :=
  P.registers address.base + (address.index.map P.registers).getD 0 + .ofInt 32 address.displacement

section

variable (P : Processor) (r r' : Register) (a w : BitVec 32) (b : UInt8) (i j : Int)

@[simp] theorem set_registers_self : (P.set r w).registers r = w := by simp [set]

@[simp] theorem set_registers_of_ne (h : r' ≠ r) : (P.set r w).registers r' = P.registers r' := by
  simp [set, h]

@[simp] theorem set_memory : (P.set r w).memory = P.memory := rfl

@[simp] theorem set_writes : (P.set r w).writes = P.writes := rfl

@[simp] theorem spoil_registers : P.spoil.registers = P.registers := rfl

@[simp] theorem spoil_memory : P.spoil.memory = P.memory := rfl

@[simp] theorem compare_registers : (P.compare i j).registers = P.registers := rfl

@[simp] theorem compare_memory : (P.compare i j).memory = P.memory := rfl

@[simp] theorem storeByte_registers : (P.storeByte a b).registers = P.registers := rfl

@[simp] theorem storeByte_memory : (P.storeByte a b).memory = Function.update P.memory a b := rfl

@[simp] theorem storeWord_registers : (P.storeWord a w).registers = P.registers := rfl

@[simp] theorem push_esp : (P.push w).registers .esp = P.registers .esp - 4#32 := by simp [push]

@[simp] theorem push_of_ne (h : r ≠ .esp) : (P.push w).registers r = P.registers r := by
  simp [push, h]

@[simp] theorem locate_offBy (d : Int) :
    P.locate (.offBy r d) = P.registers r + .ofInt 32 d := by
  simp [locate, Address.offBy]

end

/-! ### Words in memory -/

theorem wordAt_congr {P P' : Processor} {a : BitVec 32}
    (h : ∀ k < 4, P'.memory (a + .ofNat 32 k) = P.memory (a + .ofNat 32 k)) :
    P'.wordAt a = P.wordAt a := by
  have h0 := h 0 (by decide)
  rw [BitVec.add_zero] at h0
  have h1 : P'.memory (a + 1#32) = P.memory (a + 1#32) := h 1 (by decide)
  have h2 : P'.memory (a + 2#32) = P.memory (a + 2#32) := h 2 (by decide)
  have h3 : P'.memory (a + 3#32) = P.memory (a + 3#32) := h 3 (by decide)
  rw [wordAt, wordAt, h0, h1, h2, h3]

@[simp] theorem set_wordAt (P : Processor) (r : Register) (w a : BitVec 32) :
    (P.set r w).wordAt a = P.wordAt a := rfl

@[simp] theorem spoil_wordAt (P : Processor) (a : BitVec 32) : P.spoil.wordAt a = P.wordAt a := rfl

theorem toNat_byteOf (w : BitVec 32) (place : Nat) :
    (byteOf w place).toNat = w.toNat / 256 ^ place % 256 := by
  simp [byteOf]

/-- A word that is stored can be read again. -/
@[simp] theorem wordAt_storeWord (P : Processor) (a w : BitVec 32) :
    (P.storeWord a w).wordAt a = w := by
  have h01 : a ≠ a + 1#32 := by bv_omega
  have h02 : a ≠ a + 2#32 := by bv_omega
  have h03 : a ≠ a + 3#32 := by bv_omega
  have h12 : a + 1#32 ≠ a + 2#32 := by bv_omega
  have h13 : a + 1#32 ≠ a + 3#32 := by bv_omega
  have h23 : a + 2#32 ≠ a + 3#32 := by bv_omega
  apply BitVec.eq_of_toNat_eq
  have hw := w.isLt
  simp only [wordAt, storeWord, storeByte_memory, Function.update_self, Function.update_of_ne,
    ne_eq, h01, h02, h03, h12, h13, h23, not_false_eq_true, toNat_byteOf, BitVec.toNat_ofNat]
  omega

/-- Divide the double word in two registers by a third one. -/
def divide? (P : Processor) (divisor : BitVec 32) : Option Processor :=
  let dividend := (P.registers .edx).toNat * 2 ^ 32 + (P.registers .eax).toNat
  if divisor.toNat = 0 ∨ 2 ^ 32 ≤ dividend / divisor.toNat then none
  else some ((P.set .eax (.ofNat 32 (dividend / divisor.toNat))).set .edx
    (.ofNat 32 (dividend % divisor.toNat))).spoil

/-- The system call with number 4: write so many bytes from an address to a descriptor. -/
def write? (P : Processor) (result : BitVec 32) : Option Processor :=
  if P.registers .eax = 4#32 then
    some { P.set .eax result with
      writes := P.writes ++ [(P.registers .ebx,
        bytesFrom P.memory (P.registers .ecx) (P.registers .edx).toNat)] }
  else none

end Processor

/-! ### Instructions -/

/-- Operands of one byte; an instruction with such an operand is about bytes. -/
def Operand.isByte : Operand → Bool
  | .dl => true
  | .memory (some .byte) _ => true
  | _ => false

namespace Processor

/-- The word that an operand stands for.  Where data entries lie is not known here. -/
def word? (P : Processor) : Operand → Option (BitVec 32)
  | .register r => some (P.registers r)
  | .immediate n => some (.ofInt 32 n)
  | .memory _ address => some (P.wordAt (P.locate address))
  | .dl | .label _ => none

/-- The byte that an operand stands for. -/
def byte? (P : Processor) : Operand → Option UInt8
  | .dl => some (byteOf (P.registers .edx) 0)
  | .immediate n => some (byteOf (.ofInt 32 n) 0)
  | .memory _ address => some (P.memory (P.locate address))
  | .register _ | .label _ => none

def move? (P : Processor) (target source : Operand) : Option Processor :=
  match target with
  | .register r => (P.word? source).map (P.set r)
  | .memory _ address =>
    if target.isByte || source.isByte then (P.byte? source).map (P.storeByte (P.locate address))
    else (P.word? source).map (P.storeWord (P.locate address))
  | .dl | .immediate _ | .label _ => none

/-- Numbers are compared with their signs. -/
def compare? (P : Processor) (left right : Operand) : Option Processor :=
  if left.isByte || right.isByte then do
    let l ← P.byte? left
    let r ← P.byte? right
    some (P.compare l.toBitVec.toInt r.toBitVec.toInt)
  else do
    let l ← P.word? left
    let r ← P.word? right
    some (P.compare l.toInt r.toInt)

/-- What an instruction does that goes on to the next line. -/
def effect? (result : Processor → BitVec 32) (P : Processor) : Instruction → Option Processor
  | .mov target source => P.move? target source
  | .lea r address => some (P.set r (P.locate address))
  | .push source => (P.word? source).map P.push
  | .pop r => some ((P.set .esp (P.registers .esp + 4#32)).set r (P.wordAt (P.registers .esp)))
  | .add r source => (P.word? source).map fun w => (P.set r (P.registers r + w)).spoil
  | .sub r source => (P.word? source).map fun w => (P.set r (P.registers r - w)).spoil
  | .xor r source => (P.word? source).map fun w => (P.set r (P.registers r ^^^ w)).spoil
  | .cmp left right => P.compare? left right
  | .neg r => some (P.set r (-P.registers r)).spoil
  | .div r => P.divide? (P.registers r)
  | .inc r => some (P.set r (P.registers r + 1#32)).spoil
  | .dec r => some (P.set r (P.registers r - 1#32)).spoil
  | .systemCall => P.write? (result P)
  | .jump _ _ | .call _ | .ret => none

end Processor

/-! ### Runs -/

/-- Where the processor is: before a line of the code, or back at the address that it returned
    to. -/
inductive Control where
  | line (number : Nat)
  | returned (address : BitVec 32)
deriving DecidableEq

namespace Processor

/-- One step.  The routines call no other routine. -/
def step? (result : Processor → BitVec 32) (lines : List (Line Instruction)) :
    Processor × Control → Option (Processor × Control)
  | (_, .returned _) => none
  | (P, .line n) =>
    match lines[n]? with
    | none => none
    | some (.label _) => some (P, .line (n + 1))
    | some (.instruction (.jump condition target)) => do
      if ← condition.taken? P.compared then (lineOf? lines target).map fun line => (P, .line line)
      else some (P, .line (n + 1))
    | some (.instruction .ret) =>
      some (P.set .esp (P.registers .esp + 4#32), .returned (P.wordAt (P.registers .esp)))
    | some (.instruction code) => (P.effect? result code).map fun P' => (P', .line (n + 1))

/-- One state of a run leads to another. -/
def Reaches (result : Processor → BitVec 32) (lines : List (Line Instruction)) :
    Processor × Control → Processor × Control → Prop :=
  Relation.ReflTransGen fun c c' => step? result lines c = some c'

variable {result : Processor → BitVec 32} {lines : List (Line Instruction)}
  {c c' d : Processor × Control} {P P' P'' : Processor} {n : Nat}

/-- A run that comes to the end of the routine comes there from every state on its way: it cannot
    go another way, stop before, or go on. -/
theorem Reaches.of_returned {address : BitVec 32}
    (h : Reaches result lines c (P, .returned address)) (hd : Reaches result lines c d) :
    Reaches result lines d (P, .returned address) := by
  have hfunctional : Relator.RightUnique fun c c' => step? result lines c = some c' := by
    intro a b b' hb hb'
    exact Option.some.inj (hb.symm.trans hb')
  rcases Relation.ReflTransGen.total_of_right_unique hfunctional h hd with hbehind | hbefore
  · rcases Relation.ReflTransGen.cases_head hbehind with rfl | ⟨e, hstep, -⟩
    · exact .refl
    · cases hstep
  · exact hbefore

/-! ### The record of stores -/

/-- All bytes that differ are on the record. -/
def Recorded (P P' : Processor) : Prop :=
  ∃ new, P'.stored = new ++ P.stored ∧ ∀ a ∉ new, P'.memory a = P.memory a

theorem Recorded.refl (P : Processor) : P.Recorded P := ⟨[], rfl, fun _ _ => rfl⟩

theorem Recorded.trans (h : P.Recorded P') (h' : P'.Recorded P'') : P.Recorded P'' := by
  obtain ⟨new, hstored, hmemory⟩ := h
  obtain ⟨new', hstored', hmemory'⟩ := h'
  refine ⟨new' ++ new, by rw [hstored', hstored, List.append_assoc], fun a ha => ?_⟩
  rw [List.mem_append, not_or] at ha
  rw [hmemory' a ha.1, hmemory a ha.2]

/-- Nothing has been stored. -/
theorem recorded_of_eq (hstored : P'.stored = P.stored) (hmemory : P'.memory = P.memory) :
    P.Recorded P' :=
  ⟨[], hstored, fun a _ => by rw [hmemory]⟩

theorem recorded_storeByte (P : Processor) (a : BitVec 32) (b : UInt8) :
    P.Recorded (P.storeByte a b) := by
  refine ⟨[a], rfl, fun a' ha => ?_⟩
  rw [List.mem_singleton] at ha
  exact Function.update_of_ne ha b P.memory

theorem recorded_storeWord (P : Processor) (a w : BitVec 32) : P.Recorded (P.storeWord a w) :=
  (((recorded_storeByte _ _ _).trans (recorded_storeByte _ _ _)).trans
    (recorded_storeByte _ _ _)).trans (recorded_storeByte _ _ _)

theorem recorded_of_move {target source : Operand} (h : P.move? target source = some P') :
    P.Recorded P' := by
  cases target with
  | register r =>
    obtain ⟨w, -, rfl⟩ := Option.map_eq_some_iff.1 h
    exact recorded_of_eq rfl rfl
  | memory width address =>
    simp only [move?] at h
    split at h
    · obtain ⟨b, -, rfl⟩ := Option.map_eq_some_iff.1 h
      exact recorded_storeByte _ _ _
    · obtain ⟨w, -, rfl⟩ := Option.map_eq_some_iff.1 h
      exact recorded_storeWord _ _ _
  | dl | immediate | label => cases h

theorem recorded_of_compare {left right : Operand} (h : P.compare? left right = some P') :
    P.Recorded P' := by
  unfold compare? at h
  split at h <;>
  · simp only [Option.bind_eq_bind, Option.bind_eq_some_iff, Option.some.injEq] at h
    obtain ⟨l, -, r, -, rfl⟩ := h
    exact recorded_of_eq rfl rfl

theorem recorded_of_effect {code : Instruction} (h : P.effect? result code = some P') :
    P.Recorded P' := by
  cases code with
  | mov target source => exact recorded_of_move h
  | cmp left right => exact recorded_of_compare h
  | push source =>
    obtain ⟨w, -, rfl⟩ := Option.map_eq_some_iff.1 h
    exact (recorded_of_eq rfl rfl).trans (recorded_storeWord _ _ _)
  | add r source | sub r source | xor r source =>
    obtain ⟨w, -, rfl⟩ := Option.map_eq_some_iff.1 h
    exact recorded_of_eq rfl rfl
  | lea r address | pop r | neg r | inc r | dec r =>
    cases h
    exact recorded_of_eq rfl rfl
  | div r =>
    simp only [effect?, divide?, Option.ite_none_left_eq_some, Option.some.injEq] at h
    obtain ⟨-, rfl⟩ := h
    exact recorded_of_eq rfl rfl
  | systemCall =>
    simp only [effect?, write?, Option.ite_none_right_eq_some, Option.some.injEq] at h
    obtain ⟨-, rfl⟩ := h
    exact recorded_of_eq rfl rfl
  | jump condition target | call target | ret => cases h

theorem recorded_of_step (h : step? result lines c = some c') : c.1.Recorded c'.1 := by
  obtain ⟨P, n | address⟩ := c
  · simp only [step?] at h
    split at h
    · cases h
    · cases h
      exact .refl P
    · simp only [Option.bind_eq_bind, Option.bind_eq_some_iff] at h
      obtain ⟨taken, -, h⟩ := h
      split at h
      · obtain ⟨line, -, rfl⟩ := Option.map_eq_some_iff.1 h
        exact .refl P
      · cases h
        exact .refl P
    · cases h
      exact recorded_of_eq rfl rfl
    · obtain ⟨P', heffect, rfl⟩ := Option.map_eq_some_iff.1 h
      exact recorded_of_effect heffect
  · cases h

/-- Memory changes during a run at the addresses on the record only. -/
theorem Reaches.recorded (h : Reaches result lines c c') : c.1.Recorded c'.1 := by
  induction h with
  | refl => exact .refl _
  | tail _ hstep ih => exact ih.trans (recorded_of_step hstep)

/-- All that has been stored since lies in a region. -/
def StoredIn (region : BitVec 32 → Prop) (P P' : Processor) : Prop :=
  ∃ new, P'.stored = new ++ P.stored ∧ ∀ a ∈ new, region a

theorem Recorded.memory_eq {region : BitVec 32 → Prop} (h : P.Recorded P')
    (hin : StoredIn region P P') {a : BitVec 32} (ha : ¬ region a) :
    P'.memory a = P.memory a := by
  obtain ⟨new, hstored, hmemory⟩ := h
  obtain ⟨new', hstored', hregion⟩ := hin
  obtain rfl : new = new' := List.append_cancel_right (hstored.symm.trans hstored')
  exact hmemory a fun hmem => ha (hregion a hmem)

/-! ### Code without jumps -/

def exec? (result : Processor → BitVec 32) : Processor → List Instruction → Option Processor
  | P, [] => some P
  | P, code :: rest => (P.effect? result code).bind fun P' => exec? result P' rest

theorem step?_of_effect {code : Instruction} (hline : lines[n]? = some (.instruction code))
    (h : P.effect? result code = some P') :
    step? result lines (P, .line n) = some (P', .line (n + 1)) := by
  simp only [step?, hline]
  cases code <;> first | (cases h; done) | simp [h]

/-- Instructions that go on from line to line are run where they stand. -/
theorem reaches_of_exec? (code : List Instruction) (hcode : CodeAt lines n (Line.ofCode code))
    (h : exec? result P code = some P') :
    Reaches result lines (P, .line n) (P', .line (n + code.length)) := by
  induction code generalizing P n with
  | nil =>
    cases h
    exact .refl
  | cons c code ih =>
    rw [exec?, Option.bind_eq_some_iff] at h
    obtain ⟨P₁, hfirst, hrest⟩ := h
    have hreach := ih hcode.tail hrest
    rw [List.length_cons, Nat.add_comm code.length 1, ← Nat.add_assoc]
    exact .head (step?_of_effect hcode.head hfirst) hreach

theorem reaches_label {name : String} (hline : lines[n]? = some (.label name)) :
    Reaches result lines (P, .line n) (P, .line (n + 1)) :=
  .single (by simp only [step?, hline])

/-- A jump goes to its label, or on to the next line. -/
theorem reaches_jump {condition : Jump} {target : String} {taken : Bool} {line : Nat}
    (hline : lines[n]? = some (.instruction (.jump condition target)))
    (htaken : condition.taken? P.compared = some taken)
    (htarget : lineOf? lines target = some line) :
    Reaches result lines (P, .line n) (P, .line (if taken then line else n + 1)) := by
  refine .single ?_
  simp only [step?, hline, htaken, htarget]
  cases taken <;> rfl

/-- Back to the address on top of the stack. -/
theorem reaches_ret (result : Processor → BitVec 32) (P : Processor)
    (hline : lines[n]? = some (.instruction .ret)) :
    Reaches result lines (P, .line n)
      (P.set .esp (P.registers .esp + 4#32), .returned (P.wordAt (P.registers .esp))) :=
  .single (by simp only [step?, hline])

/-! ### Routines with a frame -/

/-- The bytes of a stretch that ends below an address. -/
def Below (top : BitVec 32) (size : Nat) (a : BitVec 32) : Prop :=
  1 ≤ (top - a).toNat ∧ (top - a).toNat ≤ size

theorem Below.of_frame {top a : BitVec 32} {size : Nat} (hsize : size + 4 < 2 ^ 31)
    (h : Below (top - 4#32) size a) : Below top (size + 4) a := by
  obtain ⟨hlow, hhigh⟩ := h
  constructor <;> bv_omega

theorem Below.mono {top a : BitVec 32} {size size' : Nat} (h : Below top size a)
    (hle : size ≤ size') : Below top size' a :=
  ⟨h.1, Nat.le_trans h.2 hle⟩

/-- What lies above a stretch is not in it. -/
theorem not_below {top : BitVec 32} {size k : Nat} (h : size + k < 2 ^ 32) :
    ¬ Below top size (top + .ofNat 32 k) := by
  rintro ⟨hlow, hhigh⟩
  bv_omega

/-- What a routine does first: the frame pointer is pushed, and set to where it lies. -/
def enter (P : Processor) : Processor :=
  (P.push (P.registers .ebp)).set .ebp (P.registers .esp - 4#32)

@[simp] theorem enter_ebp (P : Processor) : P.enter.registers .ebp = P.registers .esp - 4#32 := by
  simp [enter]

@[simp] theorem enter_esp (P : Processor) : P.enter.registers .esp = P.registers .esp - 4#32 := by
  simp [enter]

theorem recorded_enter (P : Processor) : P.Recorded P.enter :=
  ((recorded_of_eq rfl rfl).trans (recorded_storeWord _ _ _)).trans (recorded_of_eq rfl rfl)

theorem storedIn_enter (P : Processor) : StoredIn (Below (P.registers .esp) 4) P P.enter := by
  refine ⟨[P.registers .esp - 4#32 + 3#32, P.registers .esp - 4#32 + 2#32,
    P.registers .esp - 4#32 + 1#32, P.registers .esp - 4#32], rfl, fun a ha => ?_⟩
  simp only [List.mem_cons, List.not_mem_nil, or_false] at ha
  rcases ha with rfl | rfl | rfl | rfl <;> constructor <;> bv_omega

/-- Every routine begins with its label and these two instructions. -/
theorem reaches_enter {name : String} (hcode : CodeAt lines 0
    (.label name :: Line.ofCode [.push (.register .ebp), .copy .ebp .esp])) :
    Reaches result lines (P, .line 0) (P.enter, .line 3) :=
  .trans (reaches_label hcode.head) (reaches_of_exec? _ hcode.tail rfl)

/-- What lies above the stack pointer is as it was. -/
theorem wordAt_enter (P : Processor) {k : Nat} (hk : k < 2 ^ 31) :
    P.enter.wordAt (P.registers .esp + .ofNat 32 k) =
      P.wordAt (P.registers .esp + .ofNat 32 k) := by
  refine wordAt_congr fun i hi => P.recorded_enter.memory_eq P.storedIn_enter ?_
  have hsum : P.registers .esp + .ofNat 32 k + .ofNat 32 i =
      P.registers .esp + .ofNat 32 (k + i) := by bv_omega
  rw [hsum]
  exact not_below (by omega)

/-- Write to the standard output. -/
def writeOut : List Instruction := [.set .eax 4, .set .ebx 1, .systemCall]

theorem exec_writeOut (result : Processor → BitVec 32) (P : Processor) :
    ∃ Q, exec? result P writeOut = some Q ∧ Q.registers .ebp = P.registers .ebp ∧
      Q.registers .esp = P.registers .esp ∧ Q.stored = P.stored ∧
      Q.writes = P.writes ++ [(1#32, bytesFrom P.memory (P.registers .ecx)
        (P.registers .edx).toNat)] := by
  have hcall : ((P.set .eax 4#32).set .ebx 1#32).registers .eax = 4#32 := by simp
  have hwrite : exec? result P writeOut =
      ((P.set .eax 4#32).set .ebx 1#32).write? (result ((P.set .eax 4#32).set .ebx 1#32)) := by
    simp [writeOut, exec?, effect?, move?, word?, Instruction.set]
  rw [hwrite, write?, if_pos hcall]
  exact ⟨_, rfl, by simp, by simp, rfl, by simp⟩

/-- What a routine leaves that uses some bytes below the return address, and writes others to the
    standard output. -/
structure Printed (size : Nat) (bytes : List UInt8) (P P' : Processor) : Prop where
  esp : P'.registers .esp = P.registers .esp + 4#32
  ebp : P'.registers .ebp = P.registers .ebp
  stored : StoredIn (Below (P.registers .esp) size) P P'
  memory : ∀ a, ¬ Below (P.registers .esp) size a → P'.memory a = P.memory a
  writes : P'.writes = P.writes ++ [(1#32, bytes)]

/-- A routine ends as it has begun: the frame pointer is popped, and the return address is that of
    the caller, if nothing has been stored but in the frame. -/
theorem reaches_leave (result : Processor → BitVec 32) {size : Nat} {bytes : List UInt8}
    {Q : Processor} (hsize : size + 4 < 2 ^ 31)
    (hcode : CodeAt lines n (Line.ofCode [.pop .ebp, .ret]))
    (hrecorded : P.enter.Recorded Q)
    (hesp : Q.registers .esp = P.registers .esp - 4#32)
    (hstored : StoredIn (Below (P.registers .esp - 4#32) size) P.enter Q)
    (hwrites : Q.writes = P.writes ++ [(1#32, bytes)]) :
    ∃ P', Reaches result lines (Q, .line n) (P', .returned (P.wordAt (P.registers .esp))) ∧
      Printed (size + 4) bytes P P' := by
  have hmemory : ∀ a, ¬ Below (P.registers .esp) (size + 4) a → Q.memory a = P.memory a := by
    intro a ha
    rw [hrecorded.memory_eq hstored fun hframe => ha (hframe.of_frame hsize),
      P.recorded_enter.memory_eq P.storedIn_enter fun hsaved => ha (hsaved.mono (by omega))]
  have hsaved : Q.wordAt (P.registers .esp - 4#32) = P.registers .ebp := by
    rw [wordAt_congr fun k hk => hrecorded.memory_eq hstored (not_below (by omega))]
    exact wordAt_storeWord _ _ _
  have hreturn : Q.wordAt (P.registers .esp) = P.wordAt (P.registers .esp) :=
    wordAt_congr fun k hk => hmemory _ (not_below (by omega))
  have hstack : P.registers .esp - 4#32 + 4#32 = P.registers .esp := BitVec.sub_add_cancel _ _
  have hpop : Q.effect? result (.pop .ebp) =
      some ((Q.set .esp (P.registers .esp)).set .ebp (P.registers .ebp)) := by
    rw [effect?, hesp, hstack, hsaved]
  have hret := reaches_ret result ((Q.set .esp (P.registers .esp)).set .ebp (P.registers .ebp))
    hcode.tail.head
  simp only [ne_eq, reduceCtorEq, not_false_eq_true, set_registers_of_ne, set_registers_self]
    at hret
  have hword : ((Q.set .esp (P.registers .esp)).set .ebp (P.registers .ebp)).wordAt
      (P.registers .esp) = P.wordAt (P.registers .esp) := hreturn
  rw [hword] at hret
  refine ⟨_, .head (step?_of_effect hcode.head hpop) hret, ?_⟩
  obtain ⟨new, hnew, hin⟩ := hstored
  obtain ⟨saved, hold, hsavedIn⟩ := P.storedIn_enter
  refine ⟨by simp, by simp, ⟨new ++ saved, ?_, fun a ha => ?_⟩, hmemory, hwrites⟩
  · rw [List.append_assoc, ← hold]
    exact hnew
  · rcases List.mem_append.1 ha with ha | ha
    · exact (hin a ha).of_frame hsize
    · exact (hsavedIn a ha).mono (by omega)

/-- What remains to be shown of a routine is what it does between entering and leaving. -/
theorem exists_printed {name : String} {size : Nat} {bytes : List UInt8} {Q : Processor}
    (hsize : size + 4 < 2 ^ 31)
    (hfirst : CodeAt lines 0
      (.label name :: Line.ofCode [.push (.register .ebp), .copy .ebp .esp]))
    (hlast : CodeAt lines n (Line.ofCode [.pop .ebp, .ret]))
    (hinside : Reaches result lines (P.enter, .line 3) (Q, .line n))
    (hesp : Q.registers .esp = P.registers .esp - 4#32)
    (hstored : StoredIn (Below (P.registers .esp - 4#32) size) P.enter Q)
    (hwrites : Q.writes = P.writes ++ [(1#32, bytes)]) :
    ∃ P', Reaches result lines (P, .line 0) (P', .returned (P.wordAt (P.registers .esp))) ∧
      (∀ c, Reaches result lines (P, .line 0) c →
        Reaches result lines c (P', .returned (P.wordAt (P.registers .esp)))) ∧
      Printed (size + 4) bytes P P' := by
  obtain ⟨P', hleave, hprinted⟩ :=
    reaches_leave result hsize hlast hinside.recorded hesp hstored hwrites
  have hrun : Reaches result lines (P, .line 0) (P', .returned (P.wordAt (P.registers .esp))) :=
    .trans (reaches_enter hfirst) (hinside.trans hleave)
  exact ⟨P', hrun, fun c hc => hrun.of_returned hc, hprinted⟩

end Processor

end ClassLang
