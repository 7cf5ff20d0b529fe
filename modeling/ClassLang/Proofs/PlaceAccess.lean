/-
  ClassLang/Proofs/PlaceAccess.lean
  =================================
  **The address of a place and what is fetched from it.**

  The code that leaves the address of a place in `EBX` and the code that fetches what the
  place holds are written down independently of each other, each with its own cases for the
  frame, the argument and the data entries, for numbers and objects, and for the first field
  of an object.  Here both are run, on the processor with its words that wrap around and
  its memory of bytes, and found to speak of the same bytes (`address_and_fetch_agree`).

  This needs that a place is stored where the pass stores what is of its type (`Suited`):
  nothing could be fetched from a number among the data entries.  No place that the pass
  reads is one of those (`Reached.suited`).

  A data entry is where the linker puts it, so code is run with the labels resolved.
-/
import ClassLang.Proofs.Processor
import ClassLang.Proofs.StepInvariants

namespace ClassLang

open Instruction (load)

/-! ### Linked code -/

/-- The operand, with the address of a data entry in the place of its label. -/
def Operand.linked (labels : String → BitVec 32) : Operand → Operand
  | .label name => .immediate (labels name).toInt
  | operand => operand

def Instruction.linked (labels : String → BitVec 32) : Instruction → Instruction
  | .mov target source => .mov (target.linked labels) (source.linked labels)
  | .push source => .push (source.linked labels)
  | .add target source => .add target (source.linked labels)
  | .sub target source => .sub target (source.linked labels)
  | .xor target source => .xor target (source.linked labels)
  | .cmp left right => .cmp (left.linked labels) (right.linked labels)
  | code => code

namespace Processor

/-- Run code without jumps, where data entries lie at the given addresses. -/
def execLinked? (labels : String → BitVec 32) (result : Processor → BitVec 32) (P : Processor)
    (code : List Instruction) : Option Processor :=
  exec? result P (code.map (Instruction.linked labels))

variable (labels : String → BitVec 32) (result : Processor → BitVec 32) (P : Processor)

@[simp] theorem execLinked?_nil : execLinked? labels result P [] = some P := rfl

@[simp] theorem execLinked?_cons (code : Instruction) (rest : List Instruction) :
    execLinked? labels result P (code :: rest) =
      (P.effect? result (code.linked labels)).bind fun P' =>
        execLinked? labels result P' rest := rfl

theorem execLinked?_append (code rest : List Instruction) :
    execLinked? labels result P (code ++ rest) =
      (execLinked? labels result P code).bind fun P' => execLinked? labels result P' rest := by
  induction code generalizing P with
  | nil => rfl
  | cons c code ih =>
    rw [List.cons_append, execLinked?_cons, execLinked?_cons, Option.bind_assoc]
    congr 1
    funext P'
    exact ih P'

@[simp] theorem effect?_linked_load (r : Register) (address : Address) :
    P.effect? result ((load r address).linked labels) =
      some (P.set r (P.wordAt (P.locate address))) := rfl

@[simp] theorem effect?_linked_lea (r : Register) (address : Address) :
    P.effect? result ((Instruction.lea r address).linked labels) =
      some (P.set r (P.locate address)) := rfl

@[simp] theorem effect?_linked_label (r : Register) (name : String) :
    P.effect? result ((Instruction.mov (.register r) (.label name)).linked labels) =
      some (P.set r (labels name)) := by
  simp [Instruction.linked, Operand.linked, effect?, move?, word?]

@[simp] theorem set_set (r : Register) (w w' : BitVec 32) : (P.set r w).set r w' = P.set r w' := by
  simp [set]

/-! ### Addresses -/

@[simp] theorem locate_slot (offset : Nat) :
    P.locate (.slot offset) = P.registers .ebp - .ofNat 32 offset := by
  rw [Address.slot, locate_offBy, BitVec.ofInt_neg, BitVec.ofInt_natCast]
  exact (BitVec.sub_eq_add_neg ..).symm

@[simp] theorem locate_receiver : P.locate .receiver = P.registers .ebp + 8#32 := by
  rw [Address.receiver, locate_offBy]
  rfl

@[simp] theorem locate_argument : P.locate .argument = P.registers .ebp + 12#32 := by
  rw [Address.argument, locate_offBy]
  rfl

@[simp] theorem locate_field (r : Register) (index : Nat) :
    P.locate (.field r index) = P.registers r - .ofNat 32 (4 * index) := by
  have hdisplacement : -4 * (index : Int) = -((4 * index : Nat) : Int) := by omega
  rw [Address.field, locate_offBy, hdisplacement, BitVec.ofInt_neg, BitVec.ofInt_natCast]
  exact (BitVec.sub_eq_add_neg ..).symm

end Processor

/-! ### Where things are -/

variable {labels : String → BitVec 32} {result : Processor → BitVec 32} {P : Processor}

/-- Where the object or the string is that a variable stands for. -/
def Storage.pointerAt (labels : String → BitVec 32) (P : Processor) : Storage → BitVec 32
  | .frame offset => P.registers .ebp - .ofNat 32 offset
  | .parameter => P.wordAt (P.registers .ebp + 12#32)
  | .data label => labels label

/-- Where a place is.  The number that comes as an argument is where it was pushed; an object or a
    string that comes as one is elsewhere. -/
def Place.addressAt (labels : String → BitVec 32) (P : Processor) : Place → BitVec 32
  | .binding symbol storage =>
    match symbol.type, storage with
    | .int, .parameter => P.registers .ebp + 12#32
    | _, storage => storage.pointerAt labels P
  | .receiverField _ index => P.wordAt (P.registers .ebp + 8#32) - .ofNat 32 (4 * index)
  | .objectField _ storage _ index => storage.pointerAt labels P - .ofNat 32 (4 * index)

/-! ### Running the code -/

theorem Storage.exec?_objectAddress (storage : Storage) (r : Register) :
    P.execLinked? labels result (storage.objectAddress r) =
      some (P.set r (storage.pointerAt labels P)) := by
  cases storage <;> simp [objectAddress, pointerAt]

theorem Storage.exec?_fieldAddress (storage : Storage) (index : Nat) (r : Register) :
    P.execLinked? labels result (storage.fieldAddress index r) =
      some (P.set r (storage.pointerAt labels P - .ofNat 32 (4 * index))) := by
  cases storage with
  | frame offset =>
    have hslot : P.registers .ebp - BitVec.ofNat 32 (offset + 4 * index) =
        P.registers .ebp - .ofNat 32 offset - .ofNat 32 (4 * index) := by bv_omega
    simp [fieldAddress, pointerAt, hslot]
  | parameter | data label =>
    simp only [fieldAddress]
    rw [Processor.execLinked?_append, exec?_objectAddress, Option.bind_some]
    by_cases hzero : index = 0
    · simp [hzero]
    · simp [hzero]

/-- The register that the pointer was loaded into is the one that the field is loaded into. -/
theorem Storage.exec?_fieldValue (storage : Storage) (index : Nat) (r : Register) :
    P.execLinked? labels result (storage.fieldValue index r) =
      some (P.set r (P.wordAt (storage.pointerAt labels P - .ofNat 32 (4 * index)))) := by
  cases storage with
  | frame offset =>
    have hslot : P.registers .ebp - BitVec.ofNat 32 (offset + 4 * index) =
        P.registers .ebp - .ofNat 32 offset - .ofNat 32 (4 * index) := by bv_omega
    simp [fieldValue, pointerAt, hslot]
  | parameter | data label =>
    simp only [fieldValue]
    rw [Processor.execLinked?_append, exec?_objectAddress, Option.bind_some]
    simp

theorem Place.exec?_address (place : Place) :
    P.execLinked? labels result place.address =
      some (P.set .ebx (place.addressAt labels P)) := by
  cases place with
  | binding symbol storage =>
    have hpointer : P.execLinked? labels result (storage.objectAddress .ebx) =
        some (P.set .ebx (storage.pointerAt labels P)) := storage.exec?_objectAddress .ebx
    obtain ⟨name, type, role, label⟩ := symbol
    cases type with
    | int =>
      cases storage with
      | frame offset => simp [address, addressAt, Storage.pointerAt]
      | parameter => simp [address, addressAt]
      | data name => simpa [address, addressAt] using hpointer
    | string | object c => cases storage <;> simpa [address, addressAt] using hpointer
  | receiverField field index =>
    by_cases hzero : index = 0
    · simp [address, addressAt, hzero]
    · simp [address, addressAt, hzero]
  | objectField owner storage field index => exact storage.exec?_fieldAddress index .ebx

/-! ### Places of the pass -/

/-- Numbers and objects lie in the frame and strings among the data entries, if they do not come
    as the argument. -/
def Storage.Suits (type : Ty) : Storage → Prop
  | .frame _ => type ≠ .string
  | .parameter => True
  | .data _ => type = .string

/-- The place is stored as what is of its type is; and an object is not among the data entries. -/
def Place.Suited : Place → Prop
  | .binding symbol storage => storage.Suits symbol.type
  | .receiverField _ _ => True
  | .objectField _ storage _ _ => ∀ label, storage ≠ .data label

theorem Place.exec?_fetch {place : Place} (h : place.Suited) (r : Register) :
    P.execLinked? labels result (place.fetch r) =
      some (P.set r (if place.type = .int then P.wordAt (place.addressAt labels P)
        else place.addressAt labels P)) := by
  cases place with
  | binding symbol storage =>
    have hpointer : P.execLinked? labels result (storage.objectAddress r) =
        some (P.set r (storage.pointerAt labels P)) := storage.exec?_objectAddress r
    obtain ⟨name, type, role, label⟩ := symbol
    cases type with
    | int =>
      cases storage with
      | frame offset => simp [fetch, addressAt, Place.type, Storage.pointerAt]
      | parameter => simp [fetch, addressAt, Place.type]
      | data label => cases h
    | string | object c => cases storage <;> simpa [fetch, addressAt, Place.type] using hpointer
  | receiverField field index => simp [fetch, addressAt, Place.type]
  | objectField owner storage field index => exact storage.exec?_fieldValue index r

theorem Context.storage_suits {Γ : Context} (hΓ : Γ.Sound) {x : String} {s : Symbol}
    {storage : Storage} (hs : Γ.scope.find? x = some s) (hstorage : Γ.storage s = .ok storage) :
    storage.Suits s.type := by
  have hlabelled : ∀ {s}, Γ.scope.frames.findSome? (·.find? x) = some s →
      (s.label.isSome = true ↔ s.type = .string) := by
    intro s hframes
    obtain ⟨frame, hframe, hfind⟩ := List.exists_of_findSome?_eq_some hframes
    exact (hΓ.scope.binding frame hframe s (List.mem_of_find?_eq_some hfind)).2
  rcases Context.storage_cases hΓ hs hstorage with ⟨rfl, -, -⟩ | ⟨hframes, hwhere⟩
  · trivial
  · rcases hwhere with ⟨label, rfl, hlabel⟩ | ⟨offset, rfl, hlabel, -⟩
    · apply (hlabelled hframes).1
      rw [hlabel]
      rfl
    · intro htype
      have hsome := (hlabelled hframes).2 htype
      rw [hlabel] at hsome
      cases hsome

/-- Every place that the pass reads, at any moment, is stored as what is of its type is. -/
theorem Reached.suited {tokens : List Token} {P : Progress} (h : Reached tokens P) {first : Lexeme}
    {c c' : Cursor} {place : Place}
    (hrun : (Rule.place P.state.toContext first).run c = .done place c') : place.Suited := by
  have hsound : P.state.toContext.Sound := h.regular.coherent.sound
  obtain ⟨t, -, -, -, -, hplace⟩ := Rule.place_done.1 hrun
  cases t with
  | «variable» x =>
    obtain ⟨s, hs, storage, hstorage, rfl⟩ := Context.place?_variable.1 hplace
    exact Context.storage_suits hsound hs hstorage
  | receiverField f =>
    obtain ⟨_, -, _, -, rfl⟩ := Context.place?_receiverField.1 hplace
    trivial
  | objectField x f =>
    obtain ⟨s, hs, className, htype, _, -, storage, hstorage, rfl⟩ :=
      Context.place?_objectField.1 hplace
    rintro label rfl
    have hstring : s.type = .string := Context.storage_suits hsound hs hstorage
    rw [htype] at hstring
    cases hstring

/-! ### The statement -/

/-- The code for the address of a place leaves it in `EBX` and changes nothing else, and the code
    that fetches from the place into a register changes that register only.  What is fetched is
    the word at that address if the place holds a number, and the address itself if it holds an
    object or a string. -/
theorem address_and_fetch_agree {place : Place} (h : place.Suited) (labels : String → BitVec 32)
    (result : Processor → BitVec 32) (P : Processor) :
    P.execLinked? labels result place.address = some (P.set .ebx (place.addressAt labels P)) ∧
      ∀ r, P.execLinked? labels result ((Value.place place).fetch r) =
        some (P.set r (if place.type = .int then P.wordAt (place.addressAt labels P)
          else place.addressAt labels P)) := by
  refine ⟨place.exec?_address, ?_⟩
  intro r
  exact Place.exec?_fetch h r

/-- The third field of an object that comes as the argument. -/
def argumentField : Place :=
  .objectField ⟨"p", .object "A", .parameter, none⟩ .parameter "w" 2

/-- The argument says that the object is at 0x2000, and its third field holds 5. -/
def calledProcessor : Processor where
  registers r := if r = .ebp then 0x1000#32 else 0#32
  memory a := if a = 0x100d#32 then 0x20 else if a = 0x1ff8#32 then 5 else 0
  compared := none
  stored := []
  writes := []

theorem address_and_fetch_agree_argumentField :
    argumentField.Suited ∧
      calledProcessor.execLinked? (fun _ => 0#32) (fun _ => 0#32) argumentField.address =
        some (calledProcessor.set .ebx 0x1ff8#32) ∧
      ∀ r, calledProcessor.execLinked? (fun _ => 0#32) (fun _ => 0#32)
        ((Value.place argumentField).fetch r) = some (calledProcessor.set r 5#32) := by
  have hsuited : argumentField.Suited := by
    intro label h
    cases h
  obtain ⟨haddress, hfetch⟩ :=
    address_and_fetch_agree hsuited (fun _ => 0#32) (fun _ => 0#32) calledProcessor
  have hplace : argumentField.addressAt (fun _ => 0#32) calledProcessor = 0x1ff8#32 := by decide
  have htype : argumentField.type = .int := rfl
  have hword : calledProcessor.wordAt 0x1ff8#32 = 5#32 := by decide
  rw [hplace] at haddress
  refine ⟨hsuited, haddress, ?_⟩
  intro r
  rw [hfetch r, if_pos htype, hplace, hword]

end ClassLang
