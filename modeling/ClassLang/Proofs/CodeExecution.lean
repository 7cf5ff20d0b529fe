/-
  ClassLang/Proofs/CodeExecution.lean
  ===================================
  **What the pieces of generated code do to the machine.**

  One statement for each piece that `Value` and `Body` put together: fetching a value
  sets one register and changes nothing else, the address of a place goes to `EBX`,
  and fields are copied or cleared one by one.  Words and addresses are given as
  functions of the machine (`Value.word`, `Place.location`), with no mention of what
  they mean for the program.
-/
import ClassLang.Proofs.ControlFlow
import ClassLang.Proofs.Machine

namespace ClassLang

variable {P : Platform} {M M' : Machine}

/-! ### Words and locations -/

/-- Where the object or the string is that a variable stands for. -/
def Storage.pointer (P : Platform) (M : Machine) : Storage → Int
  | .frame offset => M.registers .ebp - offset
  | .parameter => M.memory (M.registers .ebp + 12)
  | .data label => P.labels label

def Place.location (P : Platform) (M : Machine) : Place → Int
  | .binding symbol storage =>
    match symbol.type, storage with
    | .int, .parameter => M.registers .ebp + 12
    | _, storage => storage.pointer P M
  | .receiverField _ index => M.memory (M.registers .ebp + 8) - 4 * index
  | .objectField _ storage _ index => storage.pointer P M - 4 * index

/-- What fetching a place gives: a number itself, an object or a string by its address. -/
def Place.word (P : Platform) (M : Machine) : Place → Int
  | .binding symbol storage =>
    match symbol.type, storage with
    | .int, .frame offset => M.memory (M.registers .ebp - offset)
    | .int, .parameter => M.memory (M.registers .ebp + 12)
    | _, storage => storage.pointer P M
  | .receiverField _ index => M.memory (M.memory (M.registers .ebp + 8) - 4 * index)
  | .objectField _ storage _ index => M.memory (storage.pointer P M - 4 * index)

def Value.word (P : Platform) (M : Machine) : Value → Int
  | .place p => p.word P M
  | .literal n => n

theorem Storage.pointer_congr (hebp : M'.registers .ebp = M.registers .ebp)
    (hmemory : M'.memory = M.memory) (storage : Storage) :
    storage.pointer P M' = storage.pointer P M := by
  cases storage <;> simp only [pointer, hebp, hmemory]

/-- What a value is depends only on the frame pointer and the memory. -/
theorem Value.word_congr (hebp : M'.registers .ebp = M.registers .ebp)
    (hmemory : M'.memory = M.memory) (value : Value) : value.word P M' = value.word P M := by
  cases value with
  | literal n => rfl
  | place p =>
    cases p with
    | binding symbol storage =>
      have hpointer := Storage.pointer_congr (P := P) hebp hmemory storage
      simp only [word, Place.word]
      split
      · rw [hebp, hmemory]
      · rw [hebp, hmemory]
      · exact hpointer
    | receiverField field index => simp only [word, Place.word, hebp, hmemory]
    | objectField owner storage field index =>
      simp only [word, Place.word, hmemory, Storage.pointer_congr (P := P) hebp hmemory]

/-! ### Fetching -/

theorem exec?_objectAddress (storage : Storage) {r : Register} :
    P.exec? M (storage.objectAddress r) = some (M.set r (storage.pointer P M)) := by
  cases storage <;>
    simp [Storage.objectAddress, Storage.pointer, Instruction.load, Platform.exec?,
      Platform.effect?, Platform.value?]

theorem exec?_fieldAddress (storage : Storage) (index : Nat) {r : Register} :
    P.exec? M (storage.fieldAddress index r) =
      some (M.set r (storage.pointer P M - 4 * index)) := by
  cases storage with
  | frame offset =>
    have hsum : M.registers .ebp - ((offset : Int) + 4 * index) =
        M.registers .ebp - offset - 4 * index := by omega
    simp [Storage.fieldAddress, Storage.pointer, Platform.exec?, Platform.effect?, hsum]
  | parameter | data label =>
    simp only [Storage.fieldAddress]
    rw [Platform.exec?_append_of_eq (exec?_objectAddress _)]
    split
    · rename_i hzero
      simp [Platform.exec?, hzero]
    · simp [Platform.exec?, Platform.effect?]

theorem exec?_fieldValue (storage : Storage) (index : Nat) {r : Register} :
    P.exec? M (storage.fieldValue index r) =
      some (M.set r (M.memory (storage.pointer P M - 4 * index))) := by
  cases storage with
  | frame offset =>
    have hsum : M.registers .ebp - ((offset : Int) + 4 * index) =
        M.registers .ebp - offset - 4 * index := by omega
    simp [Storage.fieldValue, Storage.pointer, Instruction.load, Platform.exec?, Platform.effect?,
      Platform.value?, hsum]
  | parameter | data label =>
    simp only [Storage.fieldValue]
    rw [Platform.exec?_append_of_eq (exec?_objectAddress _)]
    simp [Instruction.load, Platform.exec?, Platform.effect?, Platform.value?]

theorem exec?_address (place : Place) :
    P.exec? M place.address = some (M.set .ebx (place.location P M)) := by
  cases place with
  | binding symbol storage =>
    obtain ⟨name, type, role, label⟩ := symbol
    cases type <;> cases storage <;>
      simp [Place.address, Place.location, Storage.objectAddress, Storage.pointer, Instruction.load,
        Platform.exec?, Platform.effect?, Platform.value?]
  | receiverField field index =>
    simp only [Place.address, Place.location]
    split
    · rename_i hzero
      simp [Instruction.load, Platform.exec?, Platform.effect?, Platform.value?, hzero]
    · simp [Instruction.load, Platform.exec?, Platform.effect?, Platform.value?]
  | objectField owner storage field index => exact exec?_fieldAddress storage index

/-- Fetching a value sets the register and changes nothing else. -/
theorem exec?_fetch (value : Value) {r : Register} :
    P.exec? M (value.fetch r) = some (M.set r (value.word P M)) := by
  cases value with
  | literal n =>
    simp [Value.fetch, Value.word, Instruction.set, Platform.exec?, Platform.effect?,
      Platform.value?]
  | place p =>
    cases p with
    | binding symbol storage =>
      obtain ⟨name, type, role, label⟩ := symbol
      cases type <;> cases storage <;>
        simp [Value.fetch, Place.fetch, Value.word, Place.word, Storage.objectAddress,
          Storage.pointer, Instruction.load, Platform.exec?, Platform.effect?, Platform.value?]
    | receiverField field index =>
      simp [Value.fetch, Place.fetch, Value.word, Place.word, Instruction.load, Platform.exec?,
        Platform.effect?, Platform.value?]
    | objectField owner storage field index => exact exec?_fieldValue storage index

/-! ### Fields -/

/-- The words that an object at an address consists of have been written, and nothing else has
    changed but `EDX`. -/
structure Machine.Fills (M : Machine) (target : Int) (fields : Nat) (words : Nat → Int)
    (M' : Machine) : Prop where
  inside : ∀ i < fields, M'.memory (target - 4 * i) = words i
  outside : ∀ a, (∀ i < fields, a ≠ target - 4 * i) → M'.memory a = M.memory a
  registers : ∀ r, r ≠ .edx → M'.registers r = M.registers r
  output : M'.output = M.output

theorem Machine.Fills.zero (M : Machine) (target : Int) (words : Nat → Int) :
    M.Fills target 0 words M :=
  ⟨fun i hi => absurd hi (Nat.not_lt_zero i), fun _ _ => rfl, fun _ _ => rfl, rfl⟩

/-- One more word is written behind the others. -/
theorem Machine.Fills.succ {target : Int} {fields : Nat} {words : Nat → Int} {M₁ M₂ : Machine}
    (h : M.Fills target fields words M₁)
    (hmemory : M₂.memory = Function.update M₁.memory (target - 4 * fields) (words fields))
    (hregisters : ∀ r, r ≠ .edx → M₂.registers r = M₁.registers r)
    (houtput : M₂.output = M₁.output) : M.Fills target (fields + 1) words M₂ := by
  refine ⟨fun i hi => ?_, fun a ha => ?_, fun r hr => ?_, houtput.trans h.output⟩
  · rw [hmemory]
    by_cases hlast : i = fields
    · subst hlast
      exact Function.update_self ..
    · rw [Function.update_of_ne (by omega)]
      exact h.inside i (by omega)
  · rw [hmemory, Function.update_of_ne (ha fields (Nat.lt_succ_self _))]
    exact h.outside a fun i hi => ha i (by omega)
  · exact (hregisters r hr).trans (h.registers r hr)

/-- New objects are cleared. -/
theorem exec?_zeroFields (M : Machine) (offset fields : Nat) :
    ∃ M', P.exec? M (zeroFields offset fields) = some M' ∧
      M.Fills (M.registers .ebp - offset) fields (fun _ => 0) M' := by
  induction fields with
  | zero => exact ⟨M, rfl, .zero M _ _⟩
  | succ fields ih =>
    obtain ⟨M₁, hexec, hfills⟩ := ih
    have hebp : M₁.registers .ebp = M.registers .ebp := hfills.registers .ebp (by decide)
    have hsplit : zeroFields offset (fields + 1) = zeroFields offset fields ++
        [.mov (.memory (some .dword) (.slot (offset + 4 * fields))) (.immediate 0)] := by
      simp [zeroFields, List.range_succ]
    have hlocation : M₁.registers .ebp - ((offset + 4 * fields : Nat) : Int) =
        M.registers .ebp - offset - 4 * fields := by
      rw [hebp]
      omega
    refine ⟨M₁.write (M.registers .ebp - offset - 4 * fields) 0, ?_,
      hfills.succ rfl (fun _ _ => rfl) rfl⟩
    rw [hsplit, Platform.exec?_append_of_eq hexec, ← hlocation]
    simp [Platform.exec?, Platform.effect?, Platform.value?]

/-- The fields of the object at `EAX` are copied, if it is the same object or lies apart. -/
theorem exec?_copyFields {fields : Nat} {f : Nat → Address} {target : Int}
    (htarget : ∀ (M' : Machine) (i : Nat), M'.registers .ebp = M.registers .ebp →
      M'.registers .ebx = M.registers .ebx → M'.locate (f i) = target - 4 * i)
    (hapart : M.registers .eax = target ∨
      ∀ i < fields, ∀ j < fields, M.registers .eax - 4 * i ≠ target - 4 * j) :
    ∃ M', P.exec? M (copyFields fields f) = some M' ∧
      M.Fills target fields (fun i => M.memory (M.registers .eax - 4 * i)) M' := by
  induction fields with
  | zero => exact ⟨M, rfl, .zero M _ _⟩
  | succ fields ih =>
    obtain ⟨M₁, hexec, hfills⟩ := ih
      (hapart.imp_right fun h i hi j hj => h i (by omega) j (by omega))
    have heax : M₁.registers .eax = M.registers .eax := hfills.registers .eax (by decide)
    have hebp : M₁.registers .ebp = M.registers .ebp := hfills.registers .ebp (by decide)
    have hebx : M₁.registers .ebx = M.registers .ebx := hfills.registers .ebx (by decide)
    -- the field has not been overwritten by those copied before it
    have hword : M₁.memory (M.registers .eax - 4 * fields) =
        M.memory (M.registers .eax - 4 * fields) := by
      refine hfills.outside _ fun i hi => ?_
      rcases hapart with heq | hapart
      · omega
      · exact hapart fields (by omega) i (by omega)
    have hsplit : copyFields (fields + 1) f = copyFields fields f ++
        [Instruction.load .edx (.field .eax fields), Instruction.store (f fields) .edx] := by
      simp [copyFields, List.range_succ]
    let M₂ := M₁.set .edx (M.memory (M.registers .eax - 4 * fields))
    have hlocation : M₂.locate (f fields) = target - 4 * fields :=
      htarget M₂ fields (by simpa [M₂] using hebp) (by simpa [M₂] using hebx)
    refine ⟨M₂.write (target - 4 * fields) (M.memory (M.registers .eax - 4 * fields)), ?_,
      hfills.succ rfl (fun r hr => ?_) rfl⟩
    · rw [hsplit, Platform.exec?_append_of_eq hexec, ← hlocation]
      simp [Platform.exec?, Platform.effect?, Platform.value?, Instruction.load, Instruction.store,
        heax, hword, M₂]
    · exact Machine.set_registers_of_ne _ _ _ _ hr

/-! ### Tests -/

theorem exec?_test (condition : Condition) :
    P.exec? M condition.test = some
      { (M.set .eax (condition.left.word P M)).set .ebx (condition.right.word P M) with
        compared := some (condition.left.word P M, condition.right.word P M) } := by
  have hright : condition.right.word P (M.set .eax (condition.left.word P M)) =
      condition.right.word P M := Value.word_congr (by simp) (by simp) _
  rw [Condition.test, List.append_assoc, Platform.exec?_append_of_eq (exec?_fetch _),
    Platform.exec?_append_of_eq (exec?_fetch _), hright]
  simp [Platform.exec?, Platform.effect?, Platform.value?]

end ClassLang
