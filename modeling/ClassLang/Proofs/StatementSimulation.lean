/-
  ClassLang/Proofs/StatementSimulation.lean
  =========================================
  **Statements without a block do what they mean.**

  One lemma for each thing that a statement can be elaborated to, calls apart: the
  interpreter has a next state, and the code of the command takes the machine to one
  that is related to it.  The lemmas are put together in `Elaborates.simulates`, which
  is all that the simulation of blocks knows about them.
-/
import ClassLang.Proofs.StateRelation

namespace ClassLang

open Source (Datum ObjectRef Record)
open Instruction (release pushRegister)

/-! ### Writing -/

/-- Something has been written, and nothing else has changed that matters. -/
structure Machine.Writes (M : Machine) (o : Output) (M' : Machine) : Prop where
  ebp : M'.registers .ebp = M.registers .ebp
  esp : M'.registers .esp = M.registers .esp
  memory : ∀ a, M.registers .esp ≤ a → M'.memory a = M.memory a
  output : M'.output = M.output ++ [o]

/-- A word is pushed, a printing routine is called, and the word is taken off the stack again. -/
theorem Platform.reaches_print {P : Platform} {lines : List (Line Instruction)} {pc : Nat}
    {M : Machine} {operand : Operand} {w : Int} {target : String} {o : Output}
    (hcode : CodeAt lines pc (Line.ofCode [.push operand, .call target, release 4]))
    (hvalue : P.value? M operand = some w)
    (htarget : (target = Label.printNumber ∧ o = .number w) ∨
      (target = Label.printText ∧ o = .text (P.text (M.push w).memory w))) :
    ∃ M', P.Reaches lines (M, pc) (M', pc + 3) ∧ M.Writes o M' := by
  have hword : (M.push w).memory ((M.push w).registers .esp) = w := by simp
  have hcall : P.step? lines (M.push w, pc + 1) = some (P.print (M.push w) o, pc + 1 + 1) := by
    have hne : Label.printText ≠ Label.printNumber := by decide
    rw [step?, hcode.tail.head]
    rcases htarget with ⟨rfl, rfl⟩ | ⟨rfl, rfl⟩
    · simp only [hword, if_true]
    · simp only [hword, hne, if_true, if_false]
  have hpush : P.effect? M (.push operand) = some (M.push w) := by
    rw [effect?, hvalue, Option.map_some]
  have hrelease : P.effect? (P.print (M.push w) o) (release 4) =
      some (((P.print (M.push w) o).set .esp
        ((P.print (M.push w) o).registers .esp + 4)).spoil) := rfl
  refine ⟨_, reaches_step (step?_of_effect hcode.head hpush) (reaches_step hcall
    (.single (step?_of_effect hcode.tail.tail.head hrelease))), ?_, ?_, fun a ha => ?_, rfl⟩
  · simp [print]
  · simp [print]
  · have hlow : (M.push w).registers .esp ≤ a := by
      rw [Machine.push_esp]
      omega
    have hkept : (P.print (M.push w) o).memory a = (M.push w).memory a := if_pos hlow
    exact hkept.trans (Function.update_of_ne (by omega) ..)

namespace Standing

variable {X : Setting} {A : Activation} {S : Standing} {own : List Placed}
  {owns : List (List Placed)} {σ : Source.State} {M : Machine}

/-! ### Declarations -/

theorem bp_sub_nextOffset (hS : S.Serves X A) (h : Related X A S.scope.frames owns σ M) :
    M.registers .ebp - S.nextOffset = M.registers .esp - 4 := by
  rw [nextOffset, h.ebp, h.esp, hS.table]
  omega

theorem simulates_number (hX : X.Sound) (hA : A.Fits X) (hS : S.Serves X A) {x : String}
    {v : Tree.Value} {value : Value} (hvalue : S.valueOf? .int v = some value)
    (h : Related X A S.scope.frames (own :: owns) σ M) :
    ∃ n σ' M', σ.eval? v = some (.number n) ∧ σ.declare? x (.number n) = some σ' ∧
      X.platform.exec? M (Command.declareNumber x value S.nextOffset).code = some M' ∧
      Related X A (S.extend (.onStack x .int)).scope.frames (own :: owns) σ' M' ∧
      A.Keeps X M M' := by
  obtain ⟨n, heval, hword⟩ := h.number hX hA hS hvalue
  have hslot := bp_sub_nextOffset hS h
  let M' := ((M.set .eax n.toInt).set .esp (M.registers .esp - 4)).spoil.write
    (M.registers .esp - 4) n.toInt
  have hexec : X.platform.exec? M (Command.declareNumber x value S.nextOffset).code = some M' := by
    rw [Command.code, Platform.exec?_append_of_eq (exec?_fetch value), hword]
    simp [Platform.exec?, hslot, M']
  have hebp : M'.registers .ebp = M.registers .ebp := by simp [M']
  have hesp : M'.registers .esp =
      M.registers .esp - A.table.slotBytes (Symbol.onStack x .int).type := by
    simp [M', ClassTable.slotBytes, Symbol.onStack]
  have hnew : M'.memory (M.registers .esp - 4) = n.toInt := Function.update_self ..
  obtain ⟨σ', hdeclare, hrelated, hkeeps⟩ := h.declare hA hebp hesp
    (fun a ha => Function.update_of_ne (by omega) ..) rfl List.prefix_rfl
    (List.forall_mem_nil _) .nil (.number hnew (h.private_below hA (by omega)))
  exact ⟨n, σ', M', heval, hdeclare, hexec, hrelated, hkeeps⟩

theorem simulates_text (hA : A.Fits X) {x : String} {bytes : List UInt8}
    (hentry : ⟨S.stringLabel x, bytes⟩ ∈ X.entries)
    (h : Related X A S.scope.frames (own :: owns) σ M) :
    ∃ σ', σ.declare? x (.text bytes) = some σ' ∧
      Related X A (S.declareString x bytes).scope.frames (own :: owns) σ' M := by
  have hesp : M.registers .esp = M.registers .esp -
      A.table.slotBytes (Symbol.inData x (S.stringLabel x)).type := by
    simp [ClassTable.slotBytes, Symbol.inData]
  obtain ⟨σ', hdeclare, hrelated, -⟩ := h.declare hA rfl hesp (fun _ _ => rfl) rfl
    List.prefix_rfl (List.forall_mem_nil _) .nil (.text hentry)
  exact ⟨σ', hdeclare, hrelated⟩

/-- The bytes of a string variable are those that were stored for it. -/
theorem eval_string (hX : X.Sound) (hS : S.Serves X A) {y label : String}
    (hlabel : S.stringLabel? y = some label) (h : Related X A S.scope.frames owns σ M) :
    σ.eval? (.place (.variable y)) = some (.text (S.bytesAt label)) := by
  obtain ⟨s, hs, -, hlabel⟩ := Context.stringLabel?_eq_some.1 hlabel
  obtain ⟨storage, hstorage⟩ := Context.exists_storage hS.sound hs
  obtain ⟨d, hlookup, hfound⟩ := h.found hS hs hstorage
  cases hfound with
  | parameter _ hparameter =>
    have hnone := (hS.sound.scope.parameter s (hS.parameter.trans hparameter)).2
    rw [hnone] at hlabel
    cases hlabel
  | number | object => cases hlabel
  | @text e he =>
    cases hlabel
    -- labels are distinct, so the entry that was stored is the one in the end
    have hstored : e ∈ S.data.entries := by
      rcases Context.Scope.find?_cases hs with ⟨-, frame, hframe, hmem⟩ | ⟨-, hparameter⟩
      · obtain ⟨e', he', heq⟩ := List.mem_map.1 (hS.labelled frame hframe _ hmem e.label rfl)
        rw [List.inj_on_of_nodup_map hX.labels he (hS.entries.subset he') heq.symm]
        exact he'
      · cases (hS.sound.scope.parameter _ hparameter).2
    have hnodup : (S.data.entries.map (·.label)).Nodup :=
      hX.labels.sublist (hS.entries.sublist.map _)
    have hbytes : S.bytesAt e.label = e.bytes := by
      rw [Context.bytesAt, DataSection.find?, (find?_eq_some_of_nodup hnodup).2 ⟨hstored, rfl⟩]
      rfl
    rw [Source.State.eval?, Source.State.fetch?, hlookup, hbytes]

theorem known_of_resolveType {created c : String}
    (h : (S.table.resolveType created).toOption = some (.object c)) :
    created = c ∧ (S.table.find? c).isSome := by
  rw [toOption_eq_some, ClassTable.resolveType] at h
  split at h
  · rename_i n hn
    split at h
    · rename_i d hd
      cases h
      have heq : created = c := by
        unfold Ty.ofText at hn
        split at hn <;> cases hn
        rfl
      exact ⟨heq, by rw [hd, Option.isSome_some]⟩
    · cases h
  · rename_i hbuiltin
    exact (hbuiltin c (Except.ok.inj h)).elim

/-- A variable of a class, once the words of its object have been written. -/
theorem simulates_object (hX : X.Sound) (hA : A.Fits X) (hS : S.Serves X A) {x c : String}
    {record : Record} {words : Nat → Int} {M₁ M' : Machine} (hknown : (S.table.find? c).isSome)
    (hebp : M₁.registers .ebp = M.registers .ebp)
    (hesp : M₁.registers .esp = M.registers .esp - 4 * S.table.fieldCount c)
    (hmemory : M₁.memory = M.memory) (houtput : M₁.output = M.output)
    (hfills : M₁.Fills (M.registers .esp - 4) (S.table.fieldCount c) words M')
    (hwords : ∀ (i : Nat) f, (X.program.fields c)[i]? = some f → words i = (record f).toInt)
    (h : Related X A S.scope.frames (own :: owns) σ M) :
    ∃ σ' own', σ.declareObject? x c record = some σ' ∧
      Related X A (S.extend (.onStack x (.object c))).scope.frames (own' :: owns) σ' M' ∧
      A.Keeps X M M' := by
  rw [hS.table] at hknown hesp hfills
  obtain ⟨hcount, hslot⟩ := hA.fieldCount hX hknown
  rw [hcount] at hesp hfills
  let o : Placed := ⟨⟨c, σ.heap.length⟩, M.registers .esp - 4⟩
  have hebp' : M'.registers .ebp = M.registers .ebp :=
    (hfills.registers .ebp (by decide)).trans hebp
  have hesp₁ : M'.registers .esp = M.registers .esp - 4 * (X.program.fields c).length :=
    (hfills.registers .esp (by decide)).trans hesp
  have hesp' : M'.registers .esp =
      M.registers .esp - A.table.slotBytes (Symbol.onStack x (.object c)).type := by
    have htype : (Symbol.onStack x (.object c)).type = .object c := rfl
    rw [hesp₁, htype, hslot]
    omega
  have hmemory' : ∀ a, M.registers .esp ≤ a → M'.memory a = M.memory a := by
    intro a ha
    rw [hfills.outside a fun i _ => by omega, hmemory]
  have hwithin : o.Within X.program (M'.registers .esp) (M.registers .esp - 4) := by
    rintro a ⟨hlow, hhigh⟩
    have hsize : o.size X.program = (X.program.fields c).length := rfl
    have haddress : o.address = M.registers .esp - 4 := rfl
    omega
  have hholds : o.Holds X.program (σ.heap ++ [record]) M'.memory := by
    refine ⟨record, List.getElem?_concat_length, fun i f hf => ?_⟩
    rw [hfills.inside i (List.getElem?_eq_some_iff.1 hf).1]
    exact hwords i f hf
  have hlast : HoldsAt X A.table ([o] ++ own) ([o] ++ ((own :: owns).flatten ++ A.outer)) M'.memory
      (.onStack x (.object c)) (.object ⟨c, σ.heap.length⟩) (M.registers .esp - 4) :=
    .object (List.mem_cons_self ..) hknown
  obtain ⟨σ', hdeclare, hrelated, hkeeps⟩ := h.declare hA hebp' hesp' hmemory'
    (hfills.output.trans houtput) (List.prefix_append _ [record])
    (List.forall_mem_singleton.2 ⟨Nat.le_refl _, hwithin, hholds⟩) (List.pairwise_singleton ..)
    hlast
  exact ⟨σ', [o] ++ own, hdeclare, hrelated, hkeeps⟩

theorem simulates_create (hX : X.Sound) (hA : A.Fits X) (hS : S.Serves X A) {x c : String}
    (hknown : (S.table.find? c).isSome) (h : Related X A S.scope.frames (own :: owns) σ M) :
    ∃ σ' own' M', σ.declareObject? x c (fun _ => 0) = some σ' ∧
      X.platform.exec? M (Command.createObject x c (S.table.fieldCount c) S.nextOffset).code =
        some M' ∧
      Related X A (S.extend (.onStack x (.object c))).scope.frames (own' :: owns) σ' M' ∧
      A.Keeps X M M' := by
  let M₁ := (M.set .esp (M.registers .esp - 4 * S.table.fieldCount c)).spoil
  have hallocate : X.platform.effect? M (.allocate (4 * S.table.fieldCount c)) = some M₁ := by
    simp [M₁]
  have hebp : M₁.registers .ebp = M.registers .ebp := by simp [M₁]
  have hesp : M₁.registers .esp = M.registers .esp - 4 * S.table.fieldCount c := by simp [M₁]
  obtain ⟨M', hexec, hfills⟩ :=
    exec?_zeroFields (P := X.platform) M₁ S.nextOffset (S.table.fieldCount c)
  rw [hebp, bp_sub_nextOffset hS h] at hfills
  have hzero : ∀ (i : Nat) f, (X.program.fields c)[i]? = some f →
      0 = ((fun _ => 0 : Record) f).toInt := fun _ _ _ => rfl
  obtain ⟨σ', own', hdeclare, hrelated, hkeeps⟩ :=
    simulates_object hX hA hS (x := x) hknown hebp hesp rfl rfl hfills hzero h
  refine ⟨σ', own', M', hdeclare, ?_, hrelated, hkeeps⟩
  rw [Command.code, Platform.exec?, hallocate, Option.bind_some, hexec]

theorem simulates_copy (hX : X.Sound) (hA : A.Fits X) (hS : S.Serves X A) {x c : String}
    {v : Tree.Value} {value : Value} (hvalue : S.valueOf? (.object c) v = some value)
    (h : Related X A S.scope.frames (own :: owns) σ M) :
    ∃ ref record σ' own' M', σ.eval? v = some (.object ref) ∧ σ.record? ref = some record ∧
      σ.declareObject? x ref.className record = some σ' ∧
      X.platform.exec? M (Command.copyObject x c value (S.table.fieldCount c) S.nextOffset).code =
        some M' ∧
      Related X A (S.extend (.onStack x (.object c))).scope.frames (own' :: owns) σ' M' ∧
      A.Keeps X M M' := by
  obtain ⟨d, heval, hrepresents, hknown⟩ := h.eval hX hA hS hvalue
  replace hknown := hknown c rfl
  rw [← hS.table] at hknown
  generalize hw : value.word X.platform M = w at hrepresents
  cases hrepresents with
  | @object ref _ ho =>
    obtain ⟨record, hrecord, hfields⟩ := h.objects _ ho
    have hslot := bp_sub_nextOffset hS h
    let M₁ := ((M.set .eax w).set .esp
      (M.registers .esp - 4 * S.table.fieldCount ref.className)).spoil
    have hebp₁ : M₁.registers .ebp = M.registers .ebp := by simp [M₁]
    have hesp₁ : M₁.registers .esp =
        M.registers .esp - 4 * S.table.fieldCount ref.className := by simp [M₁]
    have heax₁ : M₁.registers .eax = w := by simp [M₁]
    have hallocate : X.platform.exec? (M.set .eax w)
        [.allocate (4 * S.table.fieldCount ref.className)] = some M₁ := by
      simp [Platform.exec?, M₁]
    -- the source lies above the stack pointer, and the new object below it
    have hapart : ∀ i < S.table.fieldCount ref.className, ∀ j < S.table.fieldCount ref.className,
        M₁.registers .eax - 4 * (i : Int) ≠ M.registers .esp - 4 - 4 * j := by
      intro i hi j _
      rw [hS.table] at hi hknown
      rw [(hA.fieldCount hX hknown).1] at hi
      have hwithin := h.within_stack hA _ ho _ (Placed.covers_field hi)
      simp only at hwithin
      omega
    obtain ⟨M', hexec, hfills⟩ := exec?_copyFields (P := X.platform) (M := M₁)
      (f := fun i => .slot (S.nextOffset + 4 * i)) (fun M₂ i hebp _ => by
        simp only [Machine.locate_slot]
        rw [hebp, hebp₁, ← hslot]
        omega) (.inr hapart)
    rw [heax₁] at hfills
    obtain ⟨σ', own', hdeclare, hrelated, hkeeps⟩ :=
      simulates_object hX hA hS (x := x) hknown hebp₁ hesp₁ rfl rfl hfills hfields h
    refine ⟨ref, record, σ', own', M', heval, hrecord, hdeclare, ?_, hrelated, hkeeps⟩
    rw [Command.code, List.append_assoc, Platform.exec?_append_of_eq (exec?_fetch value), hw,
      Platform.exec?_append_of_eq hallocate, hexec]

/-! ### Assignments -/

theorem simulates_assignNumber (hX : X.Sound) (hA : A.Fits X) (hS : S.Serves X A) {p : Tree.Place}
    {v : Tree.Value} {target : Place} {value : Value} (htarget : S.place? p = some target)
    (htype : target.type = .int) (hvalue : S.valueOf? .int v = some value)
    (h : Related X A S.scope.frames owns σ M) :
    ∃ n σ' M', σ.eval? v = some (.number n) ∧ σ.storeNumber? n p = some σ' ∧
      X.platform.exec? M (Command.assignNumber target value).code = some M' ∧
      Related X A S.scope.frames owns σ' M' ∧ A.Keeps X M M' := by
  obtain ⟨n, heval, hword⟩ := h.number hX hA hS hvalue
  let M₁ := M.set .ebx (target.location X.platform M)
  have hword₁ : value.word X.platform M₁ = n.toInt :=
    (Value.word_congr (by simp [M₁]) rfl value).trans hword
  let M' := (M₁.set .eax n.toInt).write (target.location X.platform M) n.toInt
  have hexec : X.platform.exec? M (Command.assignNumber target value).code = some M' := by
    rw [Command.code, List.append_assoc, Platform.exec?_append_of_eq (exec?_address target),
      Platform.exec?_append_of_eq (exec?_fetch value), hword₁]
    simp [Platform.exec?, M', M₁]
  obtain ⟨σ', hstore, hrelated, hkeeps⟩ := h.storeNumber hX hA hS htarget htype n
    (show M'.memory = _ from rfl) (by simp [M', M₁]) (by simp [M', M₁]) rfl
  exact ⟨n, σ', M', heval, hstore, hexec, hrelated, hkeeps⟩

theorem simulates_assignObject (hX : X.Sound) (hA : A.Fits X) (hS : S.Serves X A) {p : Tree.Place}
    {c : String} {v : Tree.Value} {target : Place} {value : Value}
    (htarget : S.place? p = some target) (htype : target.type = .object c)
    (hvalue : S.valueOf? (.object c) v = some value) (h : Related X A S.scope.frames owns σ M) :
    ∃ ref σ' M', σ.eval? v = some (.object ref) ∧ σ.storeObject? ref p = some σ' ∧
      X.platform.exec? M (Command.assignObject target value (S.table.fieldCount c)).code = some M' ∧
      Related X A S.scope.frames owns σ' M' ∧ A.Keeps X M M' := by
  cases p with
  | receiverField f =>
    obtain ⟨_, -, _, -, rfl⟩ := Context.place?_receiverField.1 htarget
    cases htype
  | objectField x f =>
    obtain ⟨_, -, _, -, _, -, _, -, rfl⟩ := Context.place?_objectField.1 htarget
    cases htype
  | «variable» x =>
    obtain ⟨s, hs, storage, hstorage, rfl⟩ := Context.place?_variable.1 htarget
    have hobject : s.type = .object c := htype
    obtain ⟨ref, rfl, hlookup, ho, hknown⟩ := h.object hA hS hs hstorage hobject
    obtain ⟨d, heval, hrepresents, -⟩ := h.eval hX hA hS hvalue
    have hlocation : (Place.binding s storage).location X.platform M =
        storage.pointer X.platform M := by
      simp only [Place.location, hobject]
    generalize storage.pointer X.platform M = a at ho hlocation
    generalize hw : value.word X.platform M = w at hrepresents
    generalize hc : Ty.object ref.className = type at hrepresents
    cases hrepresents with
    | number | text => cases hc
    | @object ref' _ ho' =>
      rw [Ty.object.injEq] at hc
      have hcount : S.table.fieldCount ref.className =
          (⟨ref, a⟩ : Placed).size X.program := by
        rw [hS.table, (hA.fieldCount hX hknown).1]
        rfl
      let M₁ := (M.set .ebx a).set .eax w
      have hrelated₁ : Related X A S.scope.frames owns σ M₁ :=
        h.scratch hA (by simp [M₁]) (by simp [M₁]) (fun _ _ => rfl) rfl
      obtain ⟨M', hexec, hfills⟩ := exec?_copyFields (P := X.platform) (M := M₁)
        (f := fun i => .field .ebx i) (fun M₂ i _ hebx => by
          have hebx₁ : M₁.registers .ebx = a := by simp [M₁]
          rw [Machine.locate_field, hebx, hebx₁])
        (by simpa [M₁] using hrelated₁.same_or_apart ho ho' hc.symm)
      obtain ⟨record, hrecord, hrelated, hkeeps⟩ := hrelated₁.copyRecord hA ho ho' hc.symm
        (by simpa [M₁] using hfills)
      have hword : value.word X.platform (M.set .ebx a) = w :=
        (Value.word_congr (by simp) rfl value).trans hw
      refine ⟨ref', σ.setRecord ref record, M', heval, ?_, ?_, hrelated, hkeeps⟩
      · simp [Source.State.storeObject?, Source.State.object?, hlookup, hrecord]
      · rw [Command.code, List.append_assoc, Platform.exec?_append_of_eq (exec?_address _),
          hlocation, Platform.exec?_append_of_eq (exec?_fetch value), hword, hcount, hexec]

/-! ### Output -/

variable {lines : List (Line Instruction)} {pc : Nat}

/-- What has been written is the output of the next state. -/
theorem related_write (hA : A.Fits X) {frames : List Frame} {o : Output} {M' : Machine}
    (hwrites : M.Writes o M') (h : Related X A frames owns σ M) :
    Related X A frames owns (σ.write o) M' ∧ A.Keeps X M M' := by
  have hle := h.esp_le
  exact ⟨h.congr hA hwrites.ebp hwrites.esp hwrites.memory hwrites.output,
    .of_memory fun a ha => hwrites.memory a (by omega)⟩

theorem simulates_print (hX : X.Sound) (hA : A.Fits X) (hS : S.Serves X A) {v : Tree.Value}
    {value : Value} (hvalue : S.valueOf? .int v = some value)
    (hcode : CodeAt lines pc (Line.ofCode (Command.print value).code))
    (h : Related X A S.scope.frames owns σ M) :
    ∃ n M', σ.eval? v = some (.number n) ∧
      X.platform.Reaches lines (M, pc) (M', pc + (Command.print value).code.length) ∧
      Related X A S.scope.frames owns (σ.write (.number n.toInt)) M' ∧ A.Keeps X M M' := by
  obtain ⟨n, heval, hword⟩ := h.number hX hA hS hvalue
  rw [Command.code, Line.ofCode, List.map_append] at hcode
  let M₁ := M.set .eax n.toInt
  have hfetch : X.platform.exec? M (value.fetch .eax) = some M₁ := by
    rw [exec?_fetch, hword]
  have hrelated₁ : Related X A S.scope.frames owns σ M₁ :=
    h.scratch hA (by simp [M₁]) (by simp [M₁]) (fun _ _ => rfl) rfl
  have hreach₁ := Platform.reaches_of_exec? hcode.left hfetch
  have hprint := hcode.right
  rw [List.length_map] at hprint
  have heax : X.platform.value? M₁ (.register .eax) = some n.toInt := by
    simp [Platform.value?, M₁]
  obtain ⟨M', hreach, hwrites⟩ := Platform.reaches_print hprint heax (.inl ⟨rfl, rfl⟩)
  obtain ⟨hrelated, hkeeps⟩ := related_write hA hwrites hrelated₁
  refine ⟨n, M', heval, ?_, hrelated, hkeeps⟩
  rw [Command.code, List.length_append, ← Nat.add_assoc]
  exact hreach₁.trans hreach

theorem simulates_printText (hX : X.Sound) (hA : A.Fits X) {frames : List Frame} {e : DataEntry}
    (he : e ∈ X.entries) {operand : Operand}
    (hvalue : X.platform.value? M operand = some (X.platform.labels e.label))
    (hcode : CodeAt lines pc (Line.ofCode [.push operand, .call Label.printText, release 4]))
    (h : Related X A frames owns σ M) :
    ∃ M', X.platform.Reaches lines (M, pc) (M', pc + 3) ∧
      Related X A frames owns (σ.write (.text e.bytes)) M' ∧ A.Keeps X M M' := by
  obtain ⟨M', hreach, hwrites⟩ := Platform.reaches_print hcode hvalue (.inr ⟨rfl, rfl⟩)
  -- pushing the address has not changed the string
  have htext : X.platform.text (M.push (X.platform.labels e.label)).memory
      (X.platform.labels e.label) = e.bytes := by
    refine hX.texts e he _ fun a ha => ?_
    have hle := h.esp_le
    have hbase := hA.below
    rw [Machine.push_memory, Function.update_of_ne (by omega)]
    exact h.above a ha
  rw [htext] at hwrites
  obtain ⟨hrelated, hkeeps⟩ := related_write hA hwrites h
  exact ⟨M', hreach, hrelated, hkeeps⟩

/-- A variable for a string stands for an entry, whose address is pushed. -/
theorem exists_entry (hS : S.Serves X A) {x : String} {s : Symbol}
    (hs : S.scope.find? x = some s) (htype : s.type = .string)
    (h : Related X A S.scope.frames owns σ M) :
    ∃ e ∈ X.entries, ∃ operand, σ.lookup? x = some (.text e.bytes) ∧
      (TextSource.named s).push = .push operand ∧
      X.platform.value? M operand = some (X.platform.labels e.label) := by
  obtain ⟨storage, hstorage⟩ := Context.exists_storage hS.sound hs
  obtain ⟨d, hlookup, hfound⟩ := h.found hS hs hstorage
  cases hfound with
  | number | object => cases htype
  | @text e he => exact ⟨e, he, .label e.label, hlookup, rfl, rfl⟩
  | parameter _ hparameter _ hrepresents =>
    obtain ⟨hrole, -⟩ := hS.sound.scope.parameter s (hS.parameter.trans hparameter)
    rw [htype] at hrepresents
    generalize hw : M.memory (A.bp + 12) = w at hrepresents
    cases hrepresents with
    | @text e he =>
      refine ⟨e, he, .memory (some .dword) .argument, hlookup, ?_, ?_⟩
      · simp only [TextSource.push, hrole]
      · rw [Platform.value?, Machine.locate_argument, h.ebp, hw]
        exact fun h => by cases h

/-! ### All together -/

/-- The entry that is stored last is there in the end. -/
theorem mem_of_store {x : String} {bytes : List UInt8}
    (h : (S.store x bytes).data.entries <+: X.entries) : ⟨S.stringLabel x, bytes⟩ ∈ X.entries :=
  h.subset (List.mem_append_right _ (List.mem_singleton_self _))

/-- A statement without a block that is no call has a meaning, and its code does what it means. -/
theorem Elaborates.simulates (hX : X.Sound) (hA : A.Fits X) (hS : S.Serves X A) {S₁ : Standing}
    {s : Tree.Simple} {command : Command} (hs : S.Elaborates s command S₁)
    (hcall : ∀ callee a, s ≠ .call callee a) (hentries : S₁.data.entries <+: X.entries)
    (hcode : CodeAt lines pc (Line.ofCode command.code))
    (h : Related X A S.scope.frames (own :: owns) σ M) :
    ∃ σ' own' M', σ.simple? s = some σ' ∧
      X.platform.Reaches lines (M, pc) (M', pc + command.code.length) ∧
      Related X A S₁.scope.frames (own' :: owns) σ' M' ∧ A.Keeps X M M' := by
  cases hs with
  | number _ _ hvalue =>
    obtain ⟨n, σ', M', heval, hdeclare, hexec, hrelated⟩ := simulates_number hX hA hS hvalue h
    exact ⟨σ', own, M', by simp [Source.State.simple?, heval, hdeclare],
      Platform.reaches_of_exec? hcode hexec, hrelated⟩
  | text =>
    obtain ⟨σ', hdeclare, hrelated⟩ := simulates_text hA (mem_of_store hentries) h
    exact ⟨σ', own, M, hdeclare, .refl, hrelated, .refl⟩
  | string _ _ hlabel =>
    obtain ⟨σ', hdeclare, hrelated⟩ := simulates_text hA (mem_of_store hentries) h
    exact ⟨σ', own, M, by simp [Source.State.simple?, eval_string hX hS hlabel h, hdeclare], .refl,
      hrelated, .refl⟩
  | create _ _ hcreated =>
    obtain ⟨rfl, hknown⟩ := known_of_resolveType hcreated
    obtain ⟨σ', own', M', hdeclare, hexec, hrelated⟩ := simulates_create hX hA hS hknown h
    exact ⟨σ', own', M', hdeclare, Platform.reaches_of_exec? hcode hexec, hrelated⟩
  | copy _ _ hvalue =>
    obtain ⟨ref, record, σ', own', M', heval, hrecord, hdeclare, hexec, hrelated⟩ :=
      simulates_copy hX hA hS hvalue h
    exact ⟨σ', own', M', by simp [Source.State.simple?, heval, hrecord, hdeclare],
      Platform.reaches_of_exec? hcode hexec, hrelated⟩
  | assignNumber htarget htype hvalue =>
    obtain ⟨n, σ', M', heval, hstore, hexec, hrelated⟩ :=
      simulates_assignNumber hX hA hS htarget htype hvalue h
    exact ⟨σ', own, M', by simp [Source.State.simple?, heval, hstore],
      Platform.reaches_of_exec? hcode hexec, hrelated⟩
  | assignObject htarget htype hvalue =>
    obtain ⟨ref, σ', M', heval, hstore, hexec, hrelated⟩ :=
      simulates_assignObject hX hA hS htarget htype hvalue h
    exact ⟨σ', own, M', by simp [Source.State.simple?, heval, hstore],
      Platform.reaches_of_exec? hcode hexec, hrelated⟩
  | call => exact absurd rfl (hcall _ _)
  | print hvalue =>
    obtain ⟨n, M', heval, hreach, hrelated⟩ := simulates_print hX hA hS hvalue hcode h
    exact ⟨_, own, M', by simp [Source.State.simple?, Source.State.number?, heval], hreach,
      hrelated⟩
  | printLiteral =>
    obtain ⟨M', hreach, hrelated⟩ :=
      simulates_printText hX hA (mem_of_store hentries) rfl hcode h
    exact ⟨_, own, M', rfl, hreach, hrelated⟩
  | printVariable hsymbol htype =>
    obtain ⟨e, he, operand, hlookup, hpush, hvalue⟩ := exists_entry hS hsymbol htype h
    rw [Command.code, hpush] at hcode
    obtain ⟨M', hreach, hrelated⟩ := simulates_printText hX hA he hvalue hcode h
    exact ⟨_, own, M', by simp [Source.State.simple?, hlookup], hreach, hrelated⟩

end Standing

end ClassLang
