/-
  ClassLang/Proofs/ObjectMoves.lean
  =================================
  **New objects and copies of objects, word by word.**

  Three kinds of statements write whole objects: a new object is cleared, and an object
  is copied into a new variable or into one that exists.  Their code has one piece for
  each field, and what address the piece writes to is worked out in three ways: from the
  frame pointer with distances that grow, from `EBX` and from `EAX` with distances below
  the object.  Here the code is run, and it writes the words of the one object and no
  other byte (`objects_moved`).

  Objects may be of any size.  The words of one that is larger than the memory come around
  and meet each other, but two words of an object are either the same word or have no
  byte in common (`fieldAt_cases`), and that is all that the proofs need.
-/
import ClassLang.Proofs.PlaceAccess
import ClassLang.Proofs.StatementEffects

namespace ClassLang

open Instruction (load store)

/-! ### Objects in memory -/

/-- Where a field of the object at an address is. -/
def fieldAt (object : BitVec 32) (index : Nat) : BitVec 32 := object - .ofNat 32 (4 * index)

/-- The byte at an address belongs to an object. -/
def InObject (object : BitVec 32) (fields : Nat) (a : BitVec 32) : Prop :=
  ∃ i < fields, ∃ k < 4, a = fieldAt object i + .ofNat 32 k

/-- Two objects of the same size have no byte in common. -/
def Apart (object object' : BitVec 32) (fields : Nat) : Prop :=
  ∀ a, InObject object fields a → ¬ InObject object' fields a

section

variable {object object' : BitVec 32} {fields fields' : Nat} {a : BitVec 32}

theorem InObject.mono (h : InObject object fields a) (hle : fields ≤ fields') :
    InObject object fields' a := by
  obtain ⟨i, hi, k, hk, rfl⟩ := h
  exact ⟨i, Nat.lt_of_lt_of_le hi hle, k, hk, rfl⟩

theorem Apart.mono (h : Apart object object' fields') (hle : fields ≤ fields') :
    Apart object object' fields := by
  intro a ha ha'
  exact h a (ha.mono hle) (ha'.mono hle)

/-- Two words of an object are one word, or they have no byte in common. -/
theorem fieldAt_cases (object : BitVec 32) (i j : Nat) :
    BitVec.ofNat 32 (4 * i) = .ofNat 32 (4 * j) ∨
      ∀ k < 4, ∀ l < 4, fieldAt object i + .ofNat 32 k ≠ fieldAt object j + .ofNat 32 l := by
  by_cases heq : BitVec.ofNat 32 (4 * i) = .ofNat 32 (4 * j)
  · exact .inl heq
  · right
    intro k hk l hl hmeet
    apply heq
    unfold fieldAt at hmeet
    bv_omega

end

/-! ### Words that are stored -/

namespace Processor

variable {P P' : Processor} {source target : BitVec 32} {fields : Nat}

theorem storeWord_memory_of_ne {a w b : BitVec 32} (h : ∀ k < 4, b ≠ a + .ofNat 32 k) :
    (P.storeWord a w).memory b = P.memory b := by
  have h0 : b ≠ a := by simpa using h 0 (by decide)
  have h1 : b ≠ a + 1#32 := h 1 (by decide)
  have h2 : b ≠ a + 2#32 := h 2 (by decide)
  have h3 : b ≠ a + 3#32 := h 3 (by decide)
  simp only [storeWord, storeByte_memory, Function.update_of_ne, ne_eq, h0, h1, h2, h3,
    not_false_eq_true]

/-- No byte outside an object has changed. -/
def Spares (P P' : Processor) (target : BitVec 32) (fields : Nat) : Prop :=
  ∀ a, ¬ InObject target fields a → P'.memory a = P.memory a

theorem Spares.storeWord (h : P.Spares P' target fields) (w : BitVec 32) :
    P.Spares (P'.storeWord (fieldAt target fields) w) target (fields + 1) := by
  intro a ha
  have hword : ∀ k < 4, a ≠ fieldAt target fields + .ofNat 32 k := by
    rintro k hk rfl
    exact ha ⟨fields, Nat.lt_succ_self _, k, hk, rfl⟩
  have hbefore : ¬ InObject target fields a := fun hin => ha (hin.mono (Nat.le_succ _))
  rw [storeWord_memory_of_ne hword, h a hbefore]

/-- The words of an object have been written, and no other byte.  The words are told by how far
    they lie below the address of the object. -/
structure Fills (P P' : Processor) (target : BitVec 32) (fields : Nat)
    (words : BitVec 32 → BitVec 32) : Prop where
  inside : ∀ i < fields, P'.wordAt (fieldAt target i) = words (.ofNat 32 (4 * i))
  outside : P.Spares P' target fields

/-- One more word is written behind the others. -/
theorem Fills.storeWord {words : BitVec 32 → BitVec 32} (h : P.Fills P' target fields words) :
    P.Fills (P'.storeWord (fieldAt target fields) (words (.ofNat 32 (4 * fields)))) target
      (fields + 1) words where
  inside := by
    intro i hi
    rcases fieldAt_cases target i fields with hsame | hapart
    · rw [fieldAt, fieldAt, hsame]
      exact wordAt_storeWord ..
    · have hlt : i < fields := by
        apply Nat.lt_of_le_of_ne (Nat.le_of_lt_succ hi)
        rintro rfl
        exact hapart 0 (by decide) 0 (by decide) rfl
      rw [wordAt_congr fun k hk => storeWord_memory_of_ne (hapart k hk)]
      exact h.inside i hlt
  outside := h.outside.storeWord _

/-- A word of the source is still what it was when its turn comes: it lies apart from the words
    written so far, or it is one of them and was written with what it held. -/
theorem Fills.wordAt_source (h : P.Fills P' target fields fun d => P.wordAt (source - d))
    (hsafe : source = target ∨ Apart source target (fields + 1)) :
    P'.wordAt (fieldAt source fields) = P.wordAt (fieldAt source fields) := by
  by_cases hwritten : source = target ∧
      ∃ i < fields, BitVec.ofNat 32 (4 * i) = .ofNat 32 (4 * fields)
  · obtain ⟨rfl, i, hi, hsame⟩ := hwritten
    have hword := h.inside i hi
    rw [fieldAt, hsame] at hword
    exact hword
  · refine wordAt_congr fun k hk => h.outside _ ?_
    intro hmeet
    rcases hsafe with rfl | hapart
    · obtain ⟨i, hi, l, hl, heq⟩ := hmeet
      rcases fieldAt_cases source fields i with hsame | hdisjoint
      · exact hwritten ⟨rfl, i, hi, hsame.symm⟩
      · exact hdisjoint k hk l hl heq
    · exact hapart _ ⟨fields, Nat.lt_succ_self _, k, hk, rfl⟩ (hmeet.mono (Nat.le_succ _))

/-! ### The loops -/

variable {labels : String → BitVec 32} {result : Processor → BitVec 32}

@[simp] theorem effect?_linked_allocate (bytes : Nat) :
    P.effect? result ((Instruction.allocate bytes).linked labels) =
      some (P.set .esp (P.registers .esp - .ofNat 32 bytes)).spoil := by
  simp [Instruction.allocate, Instruction.linked, Operand.linked, effect?, word?]

@[simp] theorem effect?_linked_store (address : Address) (r : Register) :
    P.effect? result ((Instruction.store address r).linked labels) =
      some (P.storeWord (P.locate address) (P.registers r)) := rfl

@[simp] theorem effect?_linked_clear (address : Address) :
    P.effect? result
      ((Instruction.mov (.memory (some .dword) address) (.immediate 0)).linked labels) =
        some (P.storeWord (P.locate address) 0#32) := rfl

theorem exec?_zeroFields (labels : String → BitVec 32) (result : Processor → BitVec 32)
    (P : Processor) (offset fields : Nat) :
    ∃ P', P.execLinked? labels result (zeroFields offset fields) = some P' ∧
      P'.registers = P.registers ∧
      P.Fills P' (P.registers .ebp - .ofNat 32 offset) fields fun _ => 0#32 := by
  induction fields with
  | zero => exact ⟨P, rfl, rfl, fun i hi => absurd hi (Nat.not_lt_zero i), fun _ _ => rfl⟩
  | succ fields ih =>
    obtain ⟨P', hexec, hregisters, hfills⟩ := ih
    have hsplit : zeroFields offset (fields + 1) = zeroFields offset fields ++
        [.mov (.memory (some .dword) (.slot (offset + 4 * fields))) (.immediate 0)] := by
      simp [zeroFields, List.range_succ]
    have hlocation : P'.locate (.slot (offset + 4 * fields)) =
        fieldAt (P.registers .ebp - .ofNat 32 offset) fields := by
      rw [locate_slot, hregisters, fieldAt]
      bv_omega
    refine ⟨_, ?exec, ?registers, hfills.storeWord⟩
    case registers => exact hregisters
    rw [hsplit, execLinked?_append, hexec, Option.bind_some, execLinked?_cons,
      effect?_linked_clear, hlocation, Option.bind_some, execLinked?_nil]

/-- From the one processor to the other, the object at the one address has been copied to the
    other address.  The objects may be the same one; if they overlap otherwise, no more is
    known than that only the copy has changed. -/
structure Copies (P P' : Processor) (source target : BitVec 32) (fields : Nat) : Prop where
  words : source = target ∨ Apart source target fields →
    ∀ i < fields, P'.wordAt (fieldAt target i) = P.wordAt (fieldAt source i)
  others : P.Spares P' target fields

theorem Copies.fills (h : P.Copies P' source target fields)
    (hsafe : source = target ∨ Apart source target fields) :
    P.Fills P' target fields fun d => P.wordAt (source - d) :=
  ⟨h.words hsafe, h.others⟩

theorem Copies.set (h : P.Copies P' source target fields) (r : Register) (w : BitVec 32) :
    P.Copies (P'.set r w) source target fields :=
  ⟨h.words, h.others⟩

/-- One more word is copied behind the others. -/
theorem Copies.storeWord (h : P.Copies P' source target fields) :
    P.Copies (P'.storeWord (fieldAt target fields) (P'.wordAt (fieldAt source fields))) source
      target (fields + 1) where
  words := by
    intro hsafe
    have hfills := h.fills (hsafe.imp_right fun hapart => hapart.mono (Nat.le_succ _))
    rw [hfills.wordAt_source hsafe]
    exact hfills.storeWord.inside
  others := h.others.storeWord _

/-- Fields are copied through `EDX`, from the object at `EAX` to wherever the addresses lead. -/
theorem exec?_copyFields (labels : String → BitVec 32) (result : Processor → BitVec 32)
    {address : Nat → Address} (hsource : P.registers .eax = source)
    (haddress : ∀ Q : Processor, (∀ r, r ≠ .edx → Q.registers r = P.registers r) →
      ∀ i, Q.locate (address i) = fieldAt target i) (fields : Nat) :
    ∃ P', P.execLinked? labels result (copyFields fields address) = some P' ∧
      (∀ r, r ≠ .edx → P'.registers r = P.registers r) ∧ P.Copies P' source target fields := by
  induction fields with
  | zero =>
    exact ⟨P, rfl, fun _ _ => rfl, fun _ i hi => absurd hi (Nat.not_lt_zero i), fun _ _ => rfl⟩
  | succ fields ih =>
    obtain ⟨P', hexec, hregisters, hcopies⟩ := ih
    have hsplit : copyFields (fields + 1) address = copyFields fields address ++
        [load .edx (.field .eax fields), store (address fields) .edx] := by
      simp [copyFields, List.range_succ]
    have hfrom : P'.locate (.field .eax fields) = fieldAt source fields := by
      rw [locate_field, hregisters .eax (by decide), hsource, fieldAt]
    have hloaded : ∀ r, r ≠ .edx →
        (P'.set .edx (P'.wordAt (fieldAt source fields))).registers r = P.registers r := by
      intro r hr
      rw [set_registers_of_ne _ _ _ _ hr, hregisters r hr]
    have hto := haddress _ hloaded fields
    refine ⟨(P'.set .edx (P'.wordAt (fieldAt source fields))).storeWord (fieldAt target fields)
      (P'.wordAt (fieldAt source fields)), ?_, hloaded, ?_⟩
    · rw [hsplit, execLinked?_append, hexec, Option.bind_some, execLinked?_cons,
        effect?_linked_load, hfrom, Option.bind_some, execLinked?_cons, effect?_linked_store,
        hto, set_registers_self, Option.bind_some, execLinked?_nil]
    · exact (hcopies.set .edx _).storeWord

end Processor

/-! ### Objects as values -/

variable {labels : String → BitVec 32} {result : Processor → BitVec 32} {P : Processor}

/-- What holds an object is a variable. -/
theorem Value.exists_storage {value : Value} {c : String} (h : value.type = .object c) :
    ∃ symbol storage, value = .place (.binding symbol storage) ∧ symbol.type = .object c := by
  cases value with
  | literal n => cases h
  | place place =>
    cases place with
    | binding symbol storage => exact ⟨symbol, storage, rfl, h⟩
    | receiverField | objectField => cases h

theorem Place.addressAt_set (place : Place) {r : Register} (h : r ≠ .ebp) (w : BitVec 32) :
    place.addressAt labels (P.set r w) = place.addressAt labels P := by
  have hebp : (P.set r w).registers .ebp = P.registers .ebp := by simp [h.symm]
  have hpointer : ∀ storage : Storage,
      storage.pointerAt labels (P.set r w) = storage.pointerAt labels P := by
    intro storage
    cases storage <;> simp [Storage.pointerAt, hebp]
  cases place with
  | binding symbol storage => simp only [addressAt, hpointer, hebp]
  | receiverField field index => simp only [addressAt, hebp, Processor.set_wordAt]
  | objectField owner storage field index => simp only [addressAt, hpointer]

/-- Objects are fetched by their address. -/
theorem Value.exec?_fetch_object (labels : String → BitVec 32) (result : Processor → BitVec 32)
    (P : Processor) {value : Value} {c : String} (h : value.type = .object c) (r : Register) :
    ∃ place, value = .place place ∧ place.type = .object c ∧
      P.execLinked? labels result (value.fetch r) =
        some (P.set r (place.addressAt labels P)) := by
  obtain ⟨⟨name, type, role, label⟩, storage, rfl, rfl⟩ := exists_storage h
  refine ⟨_, rfl, rfl, ?_⟩
  have hpointer : P.execLinked? labels result (storage.objectAddress r) =
      some (P.set r (storage.pointerAt labels P)) := storage.exec?_objectAddress r
  cases storage <;> simpa [fetch, Place.fetch, Place.addressAt] using hpointer

/-! ### Code of statements about objects -/

namespace Command

theorem exec?_createObject (x c : String) (fields offset : Nat) :
    ∃ P', P.execLinked? labels result (createObject x c fields offset).code = some P' ∧
      P.Fills P' (P.registers .ebp - .ofNat 32 offset) fields (fun _ => 0#32) ∧
      P'.registers .esp = P.registers .esp - .ofNat 32 (4 * fields) ∧
      ∀ r, r ≠ .esp → P'.registers r = P.registers r := by
  let Q := (P.set .esp (P.registers .esp - .ofNat 32 (4 * fields))).spoil
  have hother : ∀ r, r ≠ .esp → Q.registers r = P.registers r := by
    intro r hr
    simp [Q, hr]
  obtain ⟨P', hexec, hregisters, hfills⟩ :=
    Processor.exec?_zeroFields labels result Q offset fields
  rw [hother .ebp (by decide)] at hfills
  refine ⟨P', ?_, ⟨hfills.inside, hfills.outside⟩, ?_, ?_⟩
  · rw [code, Processor.execLinked?_cons, Processor.effect?_linked_allocate, Option.bind_some,
      hexec]
  · simp [hregisters, Q]
  · intro r hr
    rw [hregisters, hother r hr]

theorem exec?_copyObject (x : String) {c : String} {source : Value} (h : source.type = .object c)
    (fields offset : Nat) :
    ∃ place, source = .place place ∧ place.type = .object c ∧ ∃ P',
      P.execLinked? labels result (copyObject x c source fields offset).code = some P' ∧
      P.Copies P' (place.addressAt labels P) (P.registers .ebp - .ofNat 32 offset) fields ∧
      P'.registers .eax = place.addressAt labels P ∧
      P'.registers .esp = P.registers .esp - .ofNat 32 (4 * fields) ∧
      ∀ r, r ∉ [.eax, .edx, .esp] → P'.registers r = P.registers r := by
  obtain ⟨place, rfl, htype, hfetch⟩ :=
    Value.exec?_fetch_object labels result P h .eax
  refine ⟨place, rfl, htype, ?_⟩
  let Q := ((P.set .eax (place.addressAt labels P)).set .esp
    (P.registers .esp - .ofNat 32 (4 * fields))).spoil
  have hsource : Q.registers .eax = place.addressAt labels P := by simp [Q]
  have haddress : ∀ R : Processor, (∀ r, r ≠ .edx → R.registers r = Q.registers r) →
      ∀ i, R.locate (.slot (offset + 4 * i)) =
        fieldAt (P.registers .ebp - .ofNat 32 offset) i := by
    intro R hR i
    have hebp : Q.registers .ebp = P.registers .ebp := by simp [Q]
    rw [Processor.locate_slot, hR .ebp (by decide), hebp, fieldAt]
    bv_omega
  obtain ⟨P', hexec, hregisters, hcopies⟩ :=
    Processor.exec?_copyFields labels result hsource haddress fields
  refine ⟨P', ?_, ⟨hcopies.words, hcopies.others⟩, ?_, ?_, ?_⟩
  · rw [code, Processor.execLinked?_append, Processor.execLinked?_append, hfetch, Option.bind_some,
      Processor.execLinked?_cons, Processor.effect?_linked_allocate, Option.bind_some,
      Processor.execLinked?_nil, Option.bind_some,
      Processor.set_registers_of_ne _ _ _ _ (by decide : Register.esp ≠ .eax)]
    exact hexec
  · rw [hregisters .eax (by decide), hsource]
  · simp [hregisters .esp (by decide), Q]
  · intro r hr
    simp only [List.mem_cons, List.not_mem_nil, or_false, not_or] at hr
    obtain ⟨heax, hedx, hesp⟩ := hr
    simp [hregisters r hedx, Q, heax, hesp]

theorem exec?_assignObject (target : Place) {c : String} {value : Value}
    (h : value.type = .object c) (fields : Nat) :
    ∃ place, value = .place place ∧ place.type = .object c ∧ ∃ P',
      P.execLinked? labels result (assignObject target value fields).code = some P' ∧
      P.Copies P' (place.addressAt labels P) (target.addressAt labels P) fields ∧
      P'.registers .eax = place.addressAt labels P ∧
      ∀ r, r ∉ [.eax, .ebx, .edx] → P'.registers r = P.registers r := by
  let P₁ := P.set .ebx (target.addressAt labels P)
  obtain ⟨place, rfl, htype, hfetch⟩ :=
    Value.exec?_fetch_object labels result P₁ h .eax
  rw [place.addressAt_set (by decide)] at hfetch
  refine ⟨place, rfl, htype, ?_⟩
  let Q := P₁.set .eax (place.addressAt labels P)
  have hsource : Q.registers .eax = place.addressAt labels P := by simp [Q]
  have haddress : ∀ R : Processor, (∀ r, r ≠ .edx → R.registers r = Q.registers r) →
      ∀ i, R.locate (.field .ebx i) = fieldAt (target.addressAt labels P) i := by
    intro R hR i
    have hebx : Q.registers .ebx = target.addressAt labels P := by simp [Q, P₁]
    rw [Processor.locate_field, hR .ebx (by decide), hebx, fieldAt]
  obtain ⟨P', hexec, hregisters, hcopies⟩ :=
    Processor.exec?_copyFields labels result hsource haddress fields
  refine ⟨P', ?_, ⟨hcopies.words, hcopies.others⟩, ?_, ?_⟩
  · rw [code, Processor.execLinked?_append, Processor.execLinked?_append, target.exec?_address,
      Option.bind_some, hfetch, Option.bind_some]
    exact hexec
  · rw [hregisters .eax (by decide), hsource]
  · intro r hr
    simp only [List.mem_cons, List.not_mem_nil, or_false, not_or] at hr
    obtain ⟨heax, hebx, hedx⟩ := hr
    simp [hregisters r hedx, Q, P₁, heax, hebx]

end Command

/-! ### New variables -/

/-- A name stands for a variable of a type that is stored in a place. -/
def Context.Binds (Γ : Context) (x : String) (type : Ty) (storage : Storage) : Prop :=
  ∃ symbol, Γ.scope.find? x = some symbol ∧ symbol.type = type ∧
    Γ.storage symbol = .ok storage

/-- Behind its declaration the name of a variable on the stack stands for the bytes that the
    declaration has taken. -/
theorem Standing.binds_onStack {S : Standing} {x : String} (hfree : S.scope.findInnermost? x = none)
    (type : Ty) :
    (S.extend (.onStack x type)).toContext.Binds x type (.frame S.nextOffset) := by
  have hframes : (S.scope.extend (.onStack x type)).frames.findSome? (·.find? x) =
      some (.onStack x type) := Scope.findSome?_extend hfree
  have hfound : (S.scope.extend (.onStack x type)).find? x = some (.onStack x type) := by
    rw [Scope.find?, hframes]
    rfl
  have hoffset : (S.scope.extend (.onStack x type)).offset? S.table x = some S.nextOffset :=
    Scope.offset?_extend S.table hfree
  have hstack : (S.extend (.onStack x type)).stackOffset x = .ok S.nextOffset := by
    simp only [Context.stackOffset, Standing.extend, hoffset]
  refine ⟨.onStack x type, hfound, rfl, ?_⟩
  show ((S.extend (.onStack x type)).stackOffset x).map Storage.frame = .ok (.frame S.nextOffset)
  rw [hstack]
  rfl

/-! ### The statement -/

/-- Whole objects are moved by three kinds of statements, for classes with any number of fields and
    from any state of the machine.  A declaration with a new object clears the words of the new
    variable; one with an object copies its words there; an assignment copies them to the object
    assigned to.  The words copied are those that the source held before, if it is the same object
    or has no byte in common with the copy.  No other byte changes, `EBP` is kept, `EAX` still
    holds the address of the source behind a copy, and `ESP` moves by the bytes of the object in
    a declaration and not at all in an assignment. -/
theorem objects_moved {σ τ : State} {command : Command}
    (h : (Pass.statement Pass.statements).run σ = .done (.simple command) τ)
    (labels : String → BitVec 32) (result : Processor → BitVec 32) (P : Processor) :
    (∀ x c fields offset, command = .createObject x c fields offset →
      fields = σ.table.fieldCount c ∧ τ.Binds x (.object c) (.frame offset) ∧
      ∃ P', P.execLinked? labels result command.code = some P' ∧
        P.Fills P' (P.registers .ebp - .ofNat 32 offset) fields (fun _ => 0#32) ∧
        P'.registers .esp = P.registers .esp - .ofNat 32 (4 * fields) ∧
        ∀ r, r ≠ .esp → P'.registers r = P.registers r) ∧
    (∀ x c source fields offset, command = .copyObject x c source fields offset →
      fields = σ.table.fieldCount c ∧ τ.Binds x (.object c) (.frame offset) ∧
      ∃ place, source = .place place ∧ place.type = .object c ∧ ∃ P',
        P.execLinked? labels result command.code = some P' ∧
        P.Copies P' (place.addressAt labels P) (P.registers .ebp - .ofNat 32 offset) fields ∧
        P'.registers .eax = place.addressAt labels P ∧
        P'.registers .esp = P.registers .esp - .ofNat 32 (4 * fields) ∧
        ∀ r, r ∉ [.eax, .edx, .esp] → P'.registers r = P.registers r) ∧
    (∀ target value fields, command = .assignObject target value fields →
      ∃ c, fields = σ.table.fieldCount c ∧ target.type = .object c ∧
      ∃ place, value = .place place ∧ place.type = .object c ∧ ∃ P',
        P.execLinked? labels result command.code = some P' ∧
        P.Copies P' (place.addressAt labels P) (target.addressAt labels P) fields ∧
        P'.registers .eax = place.addressAt labels P ∧
        ∀ r, r ∉ [.eax, .ebx, .edx] → P'.registers r = P.registers r) := by
  have helaborates : ∃ s, σ.standing.Elaborates s command τ.standing := by
    rcases Pass.statement_cases h with ⟨s, _, hitem, -, -, hsimple⟩ | ⟨_, _, _, _, _, hitem, -⟩
    · cases hitem
      exact ⟨s, hsimple⟩
    · cases hitem
  obtain ⟨s, helaborates⟩ := helaborates
  have hvalued : ∀ {v value type}, σ.standing.valueOf? type v = some value → value.type = type := by
    intro v value type hvalue
    simpa using (Option.filter_eq_some_iff.1 hvalue).2
  generalize hafter : τ.standing = S' at helaborates
  have hbinds : ∀ x type storage, S'.toContext.Binds x type storage →
      τ.Binds x type storage := by
    rintro x type storage hbinds
    rw [← hafter] at hbinds
    exact hbinds
  refine ⟨?_, ?_, ?_⟩
  · rintro x c fields offset rfl
    cases helaborates with
    | create htype hfree hcreated =>
      exact ⟨rfl, hbinds _ _ _ (Standing.binds_onStack hfree _),
        Command.exec?_createObject x c _ _⟩
  · rintro x c source fields offset rfl
    cases helaborates with
    | copy htype hfree hvalue =>
      exact ⟨rfl, hbinds _ _ _ (Standing.binds_onStack hfree _),
        Command.exec?_copyObject x (hvalued hvalue) _ _⟩
  · rintro target value fields rfl
    cases helaborates with
    | assignObject htarget htype hvalue =>
      exact ⟨_, rfl, htype, Command.exec?_assignObject target (hvalued hvalue) _⟩

/-- Before `Pair p = Pair.CreateInstance(); Pair q = p; q = q;`, where pairs have two fields. -/
def beforePairs : State where
  table := ⟨[⟨"Pair", ["x", "y"], []⟩], ["Pair"], []⟩
  scope := .empty
  owner := none
  method := Keyword.mainDef.text
  data := ⟨[], Label.fixed⟩
  cursor := .ofTokens ([.identifier "Pair", .identifier "p", .operator .assign, .identifier "Pair",
    .punctuation .dot, .keyword .create, .punctuation .leftParen, .punctuation .rightParen,
    .punctuation .semicolon, .identifier "Pair", .identifier "q", .operator .assign,
    .identifier "p", .punctuation .semicolon, .identifier "q", .operator .assign, .identifier "q",
    .punctuation .semicolon].map fun lexeme => ⟨lexeme, .start⟩)
  labels := 0
  log := #[]

/-- The state behind the statement that is read next. -/
def State.behindStatement (σ : State) : State := ((Pass.statement Pass.statements).run σ).state

/-- The first variable holds 7 and 9. -/
def pairProcessor : Processor where
  registers r := if r = .ebp then 0x1000#32 else 0#32
  memory a := if a = 0xffc#32 then 7 else if a = 0xff8#32 then 9 else 0
  compared := none
  stored := []
  writes := []

/-- A variable for a pair, on the stack. -/
def pairVariable (name : String) (offset : Nat) : Place :=
  .binding (.onStack name (.object "Pair")) (.frame offset)

theorem objects_moved_pairs :
    (∃ P, (Pass.statement Pass.statements).run beforePairs =
        .done (.simple (.createObject "p" "Pair" 2 4)) beforePairs.behindStatement ∧
      pairProcessor.execLinked? (fun _ => 0#32) (fun _ => 0#32)
        (Command.createObject "p" "Pair" 2 4).code = some P ∧
      P.wordAt 0xffc#32 = 0#32 ∧ P.wordAt 0xff8#32 = 0#32) ∧
    (∃ command P, (Pass.statement Pass.statements).run beforePairs.behindStatement =
        .done (.simple command) beforePairs.behindStatement.behindStatement ∧
      pairProcessor.execLinked? (fun _ => 0#32) (fun _ => 0#32) command.code = some P ∧
      P.wordAt 0xff4#32 = 7#32 ∧ P.wordAt 0xff0#32 = 9#32) ∧
    (∃ command P, (Pass.statement Pass.statements).run
        beforePairs.behindStatement.behindStatement = .done (.simple command)
          beforePairs.behindStatement.behindStatement.behindStatement ∧
      pairProcessor.execLinked? (fun _ => 0#32) (fun _ => 0#32) command.code = some P ∧
      P.wordAt 0xff4#32 = pairProcessor.wordAt 0xff4#32) := by
  have hcreate : (Pass.statement Pass.statements).run beforePairs =
      .done (.simple (.createObject "p" "Pair" 2 4)) beforePairs.behindStatement :=
    Outcome.eq_done (by decide +kernel)
  have hcopy : (Pass.statement Pass.statements).run beforePairs.behindStatement =
      .done (.simple (.copyObject "q" "Pair" (.place (pairVariable "p" 4)) 2 12))
        beforePairs.behindStatement.behindStatement :=
    Outcome.eq_done (by decide +kernel)
  have hassign : (Pass.statement Pass.statements).run beforePairs.behindStatement.behindStatement =
      .done (.simple (.assignObject (pairVariable "q" 12) (.place (pairVariable "q" 12)) 2))
        beforePairs.behindStatement.behindStatement.behindStatement :=
    Outcome.eq_done (by decide +kernel)
  have hapart : Apart 0xffc#32 0xff4#32 2 := by
    rintro _ ⟨i, hi, k, hk, rfl⟩ ⟨j, hj, l, hl, hmeet⟩
    unfold fieldAt at hmeet
    bv_omega
  refine ⟨?_, ?_, ?_⟩
  · obtain ⟨-, -, P, hexec, hfills, -⟩ :=
      (objects_moved hcreate (fun _ => 0#32) (fun _ => 0#32) pairProcessor).1 _ _ _ _ rfl
    exact ⟨P, hcreate, hexec, hfills.inside 0 (by decide), hfills.inside 1 (by decide)⟩
  · obtain ⟨-, -, place, hplace, -, P, hexec, hcopies, -⟩ :=
      (objects_moved hcopy (fun _ => 0#32) (fun _ => 0#32) pairProcessor).2.1 _ _ _ _ _ rfl
    cases hplace
    have hwords := hcopies.words (.inr hapart)
    exact ⟨_, P, hcopy, hexec, (hwords 0 (by decide)).trans (by decide),
      (hwords 1 (by decide)).trans (by decide)⟩
  · obtain ⟨_, -, -, place, hplace, -, P, hexec, hcopies, -⟩ :=
      (objects_moved hassign (fun _ => 0#32) (fun _ => 0#32) pairProcessor).2.2 _ _ _ rfl
    cases hplace
    exact ⟨_, P, hassign, hexec, hcopies.words (.inl rfl) 0 (by decide)⟩

end ClassLang
