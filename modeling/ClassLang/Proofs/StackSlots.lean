/-
  ClassLang/Proofs/StackSlots.lean
  ================================
  **Every stack slot that is touched belongs to the variable that is named.**

  Generated code reaches variables through the frame pointer, at offsets that the pass
  has worked out from its frames.  That such an offset lies above the stack pointer,
  and inside the right variable, depends on allocations that were emitted elsewhere.

  `slotUses` lists the slots that lines touch, each with the room there is between the
  two pointers at that moment.  `mentions` lists the words that a program tree names,
  each with the variables that are alive there.  `Mention.At` says when a slot is such a
  word: it lies in the room, in the storage of one variable alone, and that variable is
  the newest one of the name.  The two lists match, entry by entry (`touched_slots`).
-/
import ClassLang.Proofs.StackDepth

namespace ClassLang

open Instruction (Sets KeepsFrame Calm)

/-! ### Slots in code -/

/-- The distance below the frame pointer, for an address that is given by one. -/
def Address.slots (address : Address) : List Nat :=
  if address.base = .ebp ∧ address.displacement ≤ 0 then [address.displacement.natAbs] else []

def Operand.slots : Operand → List Nat
  | .memory _ address => address.slots
  | _ => []

/-- The slots that an instruction has among its operands. -/
def Instruction.slots : Instruction → List Nat
  | .mov target source => target.slots ++ source.slots
  | .lea _ address => address.slots
  | .push source | .add _ source | .sub _ source | .xor _ source => source.slots
  | .cmp left right => left.slots ++ right.slots
  | _ => []

def Line.slots : Line Instruction → List Nat
  | .label _ => []
  | .instruction code => code.slots

/-- The bytes between the frame pointer and the stack pointer behind a line: none if it has set the
    one to the other. -/
def Line.room (room : Int) (line : Line Instruction) : Int :=
  if line = .instruction (.copy .ebp .esp) then 0 else room + line.pushed

def roomBehind (room : Int) : List (Line Instruction) → Int
  | [] => room
  | line :: lines => roomBehind (line.room room) lines

/-- The bytes between the two pointers before a line, by what the lines above it do. -/
def roomAt (lines : List (Line Instruction)) (i : Nat) : Int :=
  roomBehind 0 (lines.take i)

/-- The slots that lines touch, each with the room before its line. -/
def slotUses (room : Int) : List (Line Instruction) → List (Int × Nat)
  | [] => []
  | line :: lines => line.slots.map (room, ·) ++ slotUses (line.room room) lines

section

variable {room : Int} {lines : List (Line Instruction)}

theorem slotUses_append (room : Int) (lines lines' : List (Line Instruction)) :
    slotUses room (lines ++ lines') =
      slotUses room lines ++ slotUses (roomBehind room lines) lines' := by
  induction lines generalizing room with
  | nil => rfl
  | cons line lines ih =>
    rw [List.cons_append, slotUses, slotUses, ih, roomBehind, List.append_assoc]

/-- Within a frame the room grows with the stack. -/
theorem roomBehind_eq (h : ∀ c, Line.instruction c ∈ lines → c.KeepsFrame) :
    roomBehind room lines = room + pushed lines := by
  induction lines generalizing room with
  | nil => exact (Int.add_zero room).symm
  | cons line lines ih =>
    have hline : line ≠ .instruction (.copy .ebp .esp) := by
      rintro rfl
      exact (h _ List.mem_cons_self).1 rfl
    rw [roomBehind, ih fun c hc => h c (List.mem_cons_of_mem _ hc), Line.room, if_neg hline, pushed,
      Int.add_assoc]

theorem mem_slotUses {i k : Nat} {line : Line Instruction} (h : lines[i]? = some line)
    (hk : k ∈ line.slots) : (roomBehind room (lines.take i), k) ∈ slotUses room lines := by
  induction lines generalizing i room with
  | nil => cases h
  | cons first lines ih =>
    cases i with
    | zero =>
      cases h
      exact List.mem_append_left _ (List.mem_map_of_mem hk)
    | succ i => exact List.mem_append_right _ (ih h)

/-- Code that leaves both pointers alone touches its slots with the room that there is. -/
theorem slotUses_of_calm {code : List Instruction} (h : ∀ c ∈ code, c.Calm) (room : Int) :
    slotUses room (Line.ofCode code) = (code.flatMap Instruction.slots).map (room, ·) := by
  induction code with
  | nil => rfl
  | cons c code ih =>
    obtain ⟨⟨hpushed, hkeeps⟩, hrest⟩ := List.forall_mem_cons.1 h
    have hline : Line.instruction c ≠ .instruction (.copy .ebp .esp) := by
      intro heq
      cases heq
      exact hkeeps.1 rfl
    have hroom : (Line.instruction c).room room = room := by
      rw [Line.room, if_neg hline]
      show room + c.pushed = room
      rw [hpushed, Int.add_zero]
    show c.slots.map (room, ·) ++ slotUses ((Line.instruction c).room room) (Line.ofCode code) = _
    rw [hroom, ih hrest, List.flatMap_cons, List.map_append]

theorem slotUses_of_sets {target : Register} (htarget : target ≠ .ebp) {code : List Instruction}
    (h : ∀ c ∈ code, c.Sets target) (room : Int) :
    slotUses room (Line.ofCode code) = (code.flatMap Instruction.slots).map (room, ·) :=
  slotUses_of_calm (fun c hc => ⟨(h c hc).1, (h c hc).keepsFrame htarget⟩) room

theorem roomBehind_of_sets {target : Register} (htarget : target ≠ .ebp) {code : List Instruction}
    (h : ∀ c ∈ code, c.Sets target) (room : Int) :
    roomBehind room (Line.ofCode code) = room := by
  rw [roomBehind_eq, (floats_of_still (still_of_sets h)).pushed, Int.add_zero]
  intro c hc
  obtain ⟨c', hc', heq⟩ := List.mem_map.1 hc
  cases heq
  exact (h c hc').keepsFrame htarget

end

/-! ### Slots of places and values -/

@[simp] theorem Address.slots_slot (offset : Nat) : (Address.slot offset).slots = [offset] := by
  simp [slots, slot, offBy]

@[simp] theorem Address.slots_argument : Address.argument.slots = [] := rfl

@[simp] theorem Address.slots_receiver : Address.receiver.slots = [] := rfl

theorem Address.slots_field {object : Register} (h : object ≠ .ebp) (index : Nat) :
    (Address.field object index).slots = [] := by
  simp [slots, field, offBy, h]

/-- The slot of a word of a variable, if the variable lies on the stack. -/
def Storage.slots (word : Nat) : Storage → List Nat
  | .frame offset => [offset + 4 * word]
  | _ => []

def Place.slots : Place → List Nat
  | .binding _ storage => storage.slots 0
  | .receiverField _ _ => []
  | .objectField _ storage _ index => storage.slots index

def Value.slots : Value → List Nat
  | .place p => p.slots
  | .literal _ => []

theorem Storage.slots_objectAddress (storage : Storage) (target : Register) :
    (storage.objectAddress target).flatMap Instruction.slots = storage.slots 0 := by
  cases storage <;> simp [objectAddress, slots, Instruction.load, Instruction.slots, Operand.slots]

theorem Place.slots_address (place : Place) :
    place.address.flatMap Instruction.slots = place.slots := by
  have hfield : ∀ index, (Address.field .ebx index).slots = [] :=
    Address.slots_field (by decide)
  cases place with
  | binding symbol storage =>
    unfold Place.address Place.slots
    dsimp only
    split
    · simp [Storage.slots, Instruction.slots]
    · simp [Storage.slots, Instruction.slots]
    · exact Storage.slots_objectAddress _ _
  | receiverField field index =>
    by_cases hindex : index = 0
    · simp [address, slots, hindex, Instruction.load, Instruction.slots, Operand.slots]
    · simp [address, slots, hindex, Instruction.load, Instruction.slots, Operand.slots, hfield]
  | objectField owner storage field index =>
    cases storage with
    | frame offset => simp [address, slots, Storage.fieldAddress, Storage.slots, Instruction.slots]
    | parameter | data =>
      by_cases hindex : index = 0
      · simp [address, slots, hindex, Storage.fieldAddress, Storage.objectAddress, Storage.slots,
          Instruction.load, Instruction.slots, Operand.slots]
      · simp [address, slots, hindex, Storage.fieldAddress, Storage.objectAddress, Storage.slots,
          Instruction.load, Instruction.slots, Operand.slots, hfield]

theorem Value.slots_fetch (value : Value) {target : Register} (htarget : target ≠ .ebp) :
    (value.fetch target).flatMap Instruction.slots = value.slots := by
  have hfield := Address.slots_field htarget
  cases value with
  | literal n => rfl
  | place p =>
    cases p with
    | binding symbol storage =>
      unfold Value.fetch Place.fetch Value.slots Place.slots
      dsimp only
      split
      · simp [Storage.slots, Instruction.load, Instruction.slots, Operand.slots]
      · simp [Storage.slots, Instruction.load, Instruction.slots, Operand.slots]
      · exact Storage.slots_objectAddress _ _
    | receiverField field index =>
      simp [fetch, Place.fetch, slots, Place.slots, Instruction.load, Instruction.slots,
        Operand.slots, hfield]
    | objectField owner storage field index =>
      cases storage <;> simp [fetch, Place.fetch, slots, Place.slots, Storage.fieldValue,
        Storage.objectAddress, Storage.slots, Instruction.load, Instruction.slots, Operand.slots,
        hfield]

/-! ### Words of variables -/

/-- A word below the frame pointer belongs to a variable. -/
def Tree.Program.Owns (p : Tree.Program) (live : Live) (j k : Nat) : Prop :=
  ∃ v ∈ live[j]?, ∃ word < p.slotWords v.2, k = p.offset live j + 4 * word

/-- A word that is named in a program: the variables that are alive there, the name, and which word
    of the variable it is. -/
structure Mention where
  live : Live
  name : String
  word : Nat
deriving DecidableEq, Repr

/-- A slot is the word that is named.  It is allocated, as are all variables that are alive, and it
    belongs to the newest variable of the name and to no other. -/
structure Mention.At (m : Mention) (p : Tree.Program) (room : Int) (k : Nat) : Prop where
  aligned : 4 ∣ k
  positive : 4 ≤ k
  allocated : (k : Int) ≤ room
  alive : (p.liveBytes m.live : Int) ≤ room
  owned : ∃ j, m.live.findIdx? (·.1 == m.name) = some j ∧ k = p.offset m.live j + 4 * m.word ∧
    ∀ j', p.Owns m.live j' k ↔ j' = j

namespace Tree.Program

variable {p : Tree.Program} {live : Live} {j j' k : Nat}

/-- A word lies between the older variables and the newer ones. -/
theorem Owns.bounds (h : p.Owns live j k) :
    4 + p.liveBytes (live.drop (j + 1)) ≤ k ∧ k ≤ p.liveBytes (live.drop j) ∧ 4 ∣ k := by
  obtain ⟨v, hv, word, hword, rfl⟩ := h
  rw [liveBytes_drop hv, offset, slotBytes]
  have hdvd := four_dvd_liveBytes (p := p) (live.drop (j + 1))
  omega

/-- No two variables share a word. -/
theorem Owns.unique (h : p.Owns live j k) (h' : p.Owns live j' k) : j' = j := by
  obtain ⟨hlow, hhigh, -⟩ := h.bounds
  obtain ⟨hlow', hhigh', -⟩ := h'.bounds
  rcases Nat.lt_trichotomy j j' with hlt | heq | hlt
  · have hle := liveBytes_drop_le (p := p) live (show j + 1 ≤ j' from hlt)
    omega
  · exact heq.symm
  · have hle := liveBytes_drop_le (p := p) live (show j' + 1 ≤ j from hlt)
    omega

end Tree.Program

theorem Mention.at_of_lt {p : Tree.Program} {live : Live} {x : String} {j word : Nat}
    {v : String × Ty} {room : Int} (hj : live.findIdx? (·.1 == x) = some j)
    (hv : live[j]? = some v) (hword : word < p.slotWords v.2)
    (hroom : (p.liveBytes live : Int) ≤ room) :
    Mention.At ⟨live, x, word⟩ p room (p.offset live j + 4 * word) := by
  have howns : p.Owns live j (p.offset live j + 4 * word) := ⟨v, hv, word, hword, rfl⟩
  obtain ⟨hlow, hhigh, hdvd⟩ := howns.bounds
  have hle := Tree.Program.liveBytes_drop_le (p := p) live (Nat.zero_le j)
  rw [List.drop_zero] at hle
  refine ⟨hdvd, by omega, by omega, hroom, j, hj, rfl, fun j' => ⟨fun h => howns.unique h, ?_⟩⟩
  rintro rfl
  exact howns

/-! ### What a program names -/

/-- The type of the newest variable of a name. -/
def Live.type? (live : Live) (x : String) : Option Ty :=
  (live.findIdx? (·.1 == x)).bind fun j => live[j]?.map (·.2)

namespace Tree

section

variable (p : Program) (live : Live)

/-- The words on the stack that a place names.  Strings are stored elsewhere; the parameter and the
    receiver lie above the frame pointer. -/
def Place.mentions : Place → List Mention
  | .variable x =>
    match live.type? x with
    | some .int | some (.object _) => [⟨live, x, 0⟩]
    | _ => []
  | .receiverField _ => []
  | .objectField x f =>
    match live.type? x with
    | some (.object c) => [⟨live, x, (p.fields c).idxOf f⟩]
    | _ => []

def Value.mentions : Value → List Mention
  | .number _ => []
  | .place target => target.mentions p live

def Initial.mentions : Initial → List Mention
  | .value v => v.mentions p live
  | _ => []

def Callee.mentions : Callee → List Mention
  | .object x _ => (Place.variable x).mentions p live
  | _ => []

def argumentMentions : Option Value → List Mention
  | none => []
  | some v => v.mentions p live

/-- The words that a statement names, in the order in which its code comes to them.  A declaration
    ends with all words of the new variable. -/
def Simple.mentions : Simple → List Mention
  | .declare type x initial =>
      initial.mentions p live ++ (List.range (p.slotWords type.type)).map fun word =>
        ⟨(x, type.type) :: live, x, word⟩
  | .assign target v => target.mentions p live ++ v.mentions p live
  | .call callee argument => argumentMentions p live argument ++ callee.mentions p live
  | .print v => v.mentions p live
  | .printText _ => []

def Condition.mentions (c : Condition) : List Mention :=
  c.left.mentions p live ++ c.right.mentions p live

end

/-- The words that the statements of a block name. -/
def Block.mentions (p : Program) : Live → Block → List Mention
  | _, .finish => []
  | live, .simple s rest => s.mentions p live ++ rest.mentions p (s.declares ++ live)
  | live, .branch _ c inner rest =>
      c.mentions p live ++ inner.mentions p live ++ rest.mentions p live

end Tree

/-! ### Code touches what the program names -/

/-- Slots are the words that are named, one after the other. -/
def Tree.Program.Matches (p : Tree.Program) (uses : List (Int × Nat)) (mentions : List Mention) :
    Prop :=
  List.Forall₂ (fun use m => m.At p use.1 use.2) uses mentions

theorem Tree.Program.idxOf_field {p : Tree.Program} (hp : p.WellFormed) {table : ClassTable}
    (hcovers : p.Covers table) {c f : String} {i : Nat} (h : table.fieldIndex? c f = some i) :
    (p.fields c).idxOf f = i ∧ i < p.slotWords (.object c) := by
  rw [ClassTable.fieldIndex?, Option.bind_eq_some_iff] at h
  obtain ⟨d, hd, hindex⟩ := h
  rw [ClassDef.fieldIndex?, List.findIdx?_eq_some_iff_findIdx_eq] at hindex
  rw [slotWords, fields_eq hp hcovers hd]
  exact ⟨hindex.2, hindex.1⟩

namespace Standing

variable {S S' : Standing} {p : Tree.Program} {live : Live}

/-- What a name is stored as tells whether it is a variable on the stack, and where. -/
theorem Mirrors.storage_cases (h : S.Mirrors p live) (hS : S.Sound) {x : String} {s : Symbol}
    {storage : Storage} (hs : S.scope.find? x = some s)
    (hstorage : S.toContext.storage s = .ok storage) :
    (storage = .parameter ∧ live.type? x = none) ∨
      (∃ label, storage = .data label) ∧ s.type = .string ∧ live.type? x = some .string ∨
      ∃ j, storage = .frame (p.offset live j) ∧ live.findIdx? (·.1 == x) = some j ∧
        live[j]? = some (x, s.type) ∧ s.type ≠ .string := by
  rcases Context.storage_cases hS hs hstorage with ⟨rfl, hnone, -⟩ | ⟨hfind, hstored⟩
  · refine .inl ⟨rfl, ?_⟩
    rw [Live.type?, h.absent hnone]
    rfl
  · obtain ⟨j, hj, hlive, hoffset⟩ := h.found hfind
    obtain ⟨frame, hframe, hmem⟩ := List.exists_of_findSome?_eq_some hfind
    have hlabelled := (hS.scope.binding frame hframe s (List.mem_of_find?_eq_some hmem)).2
    rcases hstored with ⟨label, rfl, hlabel⟩ | ⟨offset, rfl, hlabel, hoffset'⟩
    · have hstring : s.type = .string := hlabelled.1 (by rw [hlabel]; rfl)
      refine .inr (.inl ⟨⟨label, rfl⟩, hstring, ?_⟩)
      rw [Live.type?, hj, Option.bind_some, hlive, hstring]
      rfl
    · rw [hoffset, Option.some.injEq] at hoffset'
      refine .inr (.inr ⟨j, by rw [hoffset'], hj, hlive, fun hstring => ?_⟩)
      have hsome := hlabelled.2 hstring
      rw [hlabel] at hsome
      cases hsome

theorem matches_place (hS : S.Amid p live) {t : Tree.Place} {place : Place}
    (h : S.place? t = some place) {room : Int} (hroom : (p.liveBytes live : Int) ≤ room) :
    p.Matches (place.slots.map (room, ·)) (t.mentions p live) := by
  have htype : ∀ {j : Nat} {x : String} {type : Ty}, live.findIdx? (·.1 == x) = some j →
      live[j]? = some (x, type) → live.type? x = some type := by
    intro j x type hj hlive
    rw [Live.type?, hj, Option.bind_some, hlive]
    rfl
  cases t with
  | «variable» x =>
    obtain ⟨s, hs, storage, hstorage, rfl⟩ := Context.place?_variable.1 h
    rcases hS.mirrors.storage_cases hS.sound hs hstorage with ⟨rfl, hnone⟩ |
        ⟨⟨label, rfl⟩, -, hstring⟩ | ⟨j, rfl, hj, hlive, hne⟩
    · rw [Tree.Place.mentions, hnone]
      exact .nil
    · rw [Tree.Place.mentions, hstring]
      exact .nil
    · have hat := Mention.at_of_lt hj hlive
        (hS.mirrors.sized _ (List.mem_of_getElem? hlive) hne) hroom
      rw [Tree.Place.mentions, htype hj hlive]
      cases hs : s.type with
      | int | object => exact .cons hat .nil
      | string => exact absurd hs hne
  | receiverField f =>
    obtain ⟨owner, -, index, -, rfl⟩ := Context.place?_receiverField.1 h
    exact .nil
  | objectField x f =>
    obtain ⟨s, hs, c, hc, index, hindex, storage, hstorage, rfl⟩ := Context.place?_objectField.1 h
    obtain ⟨hfield, hlt⟩ := Tree.Program.idxOf_field hS.wellFormed hS.covers hindex
    rcases hS.mirrors.storage_cases hS.sound hs hstorage with ⟨rfl, hnone⟩ | ⟨-, hstring, -⟩ |
        ⟨j, rfl, hj, hlive, hne⟩
    · rw [Tree.Place.mentions, hnone]
      exact .nil
    · rw [hc] at hstring
      cases hstring
    · rw [hc] at hlive
      rw [Tree.Place.mentions, htype hj hlive]
      dsimp only
      rw [hfield]
      exact .cons (Mention.at_of_lt hj hlive hlt hroom) .nil

theorem matches_value (hS : S.Amid p live) {type : Ty} {v : Tree.Value} {value : Value}
    (h : S.valueOf? type v = some value) {target : Register} (htarget : target ≠ .ebp) {room : Int}
    (hroom : (p.liveBytes live : Int) ≤ room) :
    p.Matches (slotUses room (Line.ofCode (value.fetch target))) (v.mentions p live) := by
  rw [slotUses_of_sets htarget (value.sets_fetch target), value.slots_fetch htarget]
  cases v with
  | number digits =>
    obtain ⟨n, -, -, rfl⟩ := Context.valueOf?_number.1 h
    exact .nil
  | place t =>
    obtain ⟨place, hplace, -, rfl⟩ := Context.valueOf?_place.1 h
    exact matches_place hS hplace hroom

theorem slotUses_zeroFields (offset fields : Nat) (room : Int) :
    slotUses room (Line.ofCode (zeroFields offset fields)) =
      (List.range fields).map fun word => (room, offset + 4 * word) := by
  rw [slotUses_of_calm (calm_zeroFields offset fields), zeroFields, List.flatMap_map,
    List.map_flatMap]
  simp [Instruction.slots, Operand.slots, List.map_eq_flatMap]

theorem slotUses_copyFields (fields : Nat) (target : Nat → Address) (room : Int) :
    slotUses room (Line.ofCode (copyFields fields target)) =
      (List.range fields).flatMap fun word => (target word).slots.map (room, ·) := by
  have hfield : ∀ index, (Address.field .eax index).slots = [] := Address.slots_field (by decide)
  rw [slotUses_of_calm (calm_copyFields fields target), copyFields, List.flatMap_assoc,
    List.map_flatMap]
  simp [Instruction.load, Instruction.store, Instruction.slots, Operand.slots, hfield]

theorem slotUses_copyFields_slot (offset fields : Nat) (room : Int) :
    slotUses room (Line.ofCode (copyFields fields fun word => .slot (offset + 4 * word))) =
      (List.range fields).map fun word => (room, offset + 4 * word) := by
  rw [slotUses_copyFields]
  simp [List.map_eq_flatMap]

theorem slotUses_copyFields_field {object : Register} (h : object ≠ .ebp) (fields : Nat)
    (room : Int) :
    slotUses room (Line.ofCode (copyFields fields fun word => .field object word)) = [] := by
  simp [slotUses_copyFields, Address.slots_field h]

theorem slotUses_storeSlot (offset : Nat) (source : Register) (room : Int) :
    slotUses room (Line.ofCode [.store (.slot offset) source]) = [(room, offset)] := by
  simp [Line.ofCode, slotUses, Line.slots, Instruction.store, Instruction.slots, Operand.slots]

theorem slotUses_allocate (bytes : Nat) (lines : List (Line Instruction)) (room : Int) :
    slotUses room (.instruction (.allocate bytes) :: lines) = slotUses (room + bytes) lines := rfl

theorem slotUses_called {push : Instruction} (hpush : push.slots = []) (target : String)
    (bytes : Nat) (room : Int) :
    slotUses room (Line.ofCode [push, .call target, .release bytes]) = [] := by
  have hcall : (Instruction.call target).slots = [] := rfl
  have hrelease : (Instruction.release bytes).slots = [] := rfl
  simp [Line.ofCode, slotUses, Line.slots, hpush, hcall, hrelease]

theorem fieldCount_eq (hS : S.Amid p live) {c : String} (hknows : S.table.Knows (.object c)) :
    S.table.fieldCount c = p.slotWords (.object c) := by
  have hbytes := Tree.Program.slotBytes_eq hS.wellFormed hS.covers hknows
  rw [ClassTable.slotBytes_object, Tree.Program.slotBytes] at hbytes
  omega

/-- A declaration makes room below all variables that are alive, and then fills the new one word by
    word. -/
theorem matches_declared (hS : S.Amid p live) {x : String} {type : Ty} {fill : List Instruction}
    (hfill : ∀ room, slotUses room (Line.ofCode fill) =
      (List.range (p.slotWords type)).map fun word => (room, S.nextOffset + 4 * word))
    {room : Int} (hroom : (p.liveBytes live : Int) ≤ room) :
    p.Matches (slotUses room (Line.ofCode (.allocate (p.slotBytes type) :: fill)))
      ((List.range (p.slotWords type)).map fun word => ⟨(x, type) :: live, x, word⟩) := by
  have hbytes : (p.liveBytes ((x, type) :: live) : Int) ≤ room + p.slotBytes type := by
    rw [Tree.Program.liveBytes]
    dsimp only
    omega
  have hoffset : S.nextOffset = p.offset ((x, type) :: live) 0 := by
    rw [nextOffset, hS.mirrors.bytes]
    rfl
  have hindex : ((x, type) :: live).findIdx? (·.1 == x) = some 0 := by
    simp [List.findIdx?_cons]
  show p.Matches (slotUses room (.instruction (.allocate _) :: Line.ofCode fill)) _
  rw [slotUses_allocate, hfill, Tree.Program.Matches, List.forall₂_map_left_iff,
    List.forall₂_map_right_iff, List.forall₂_same, hoffset]
  intro word hword
  exact Mention.at_of_lt hindex rfl (List.mem_range.1 hword) hbytes

/-- An assignment finds its target, fetches the value and then stores it where no slot is named. -/
theorem matches_assigned (hS : S.Amid p live) {t : Tree.Place} {target : Place} {type : Ty}
    {v : Tree.Value} {value : Value} {code : List Instruction} (htarget : S.place? t = some target)
    (hvalue : S.valueOf? type v = some value)
    (hcode : ∀ room, slotUses room (Line.ofCode code) = []) {room : Int}
    (hroom : (p.liveBytes live : Int) ≤ room) :
    p.Matches (slotUses room (Line.ofCode (target.address ++ value.fetch .eax ++ code)))
      (t.mentions p live ++ v.mentions p live) := by
  have hebx : Register.ebx ≠ .ebp := by decide
  rw [Line.ofCode_append, slotUses_append, hcode, List.append_nil, Line.ofCode_append,
    slotUses_append, roomBehind_of_sets hebx target.sets_address,
    slotUses_of_sets hebx target.sets_address, target.slots_address]
  exact List.rel_append (matches_place hS htarget hroom) (matches_value hS hvalue (by decide) hroom)

/-- A string that another one begins with is not on the stack. -/
theorem mentions_string (hS : S.Amid p live) {y label : String}
    (h : S.stringLabel? y = some label) : (Tree.Place.variable y).mentions p live = [] := by
  obtain ⟨s, hs, htype, -⟩ := Context.stringLabel?_eq_some.1 h
  obtain ⟨storage, hstorage⟩ := Context.exists_storage hS.sound hs
  rcases hS.mirrors.storage_cases hS.sound hs hstorage with ⟨-, hnone⟩ | ⟨-, -, hstring⟩ |
      ⟨j, -, -, -, hne⟩
  · rw [Tree.Place.mentions, hnone]
  · rw [Tree.Place.mentions, hstring]
  · exact absurd htype hne

/-- An argument is fetched before the receiver, which is fetched with the argument pushed. -/
theorem matches_call (hS : S.Amid p live) {callee : Tree.Callee} {a : Option Tree.Value}
    {receiver : Receiver} {m : String} {signature : Signature} {argument : Option Value}
    (hcallee : S.callee? callee = some (receiver, m))
    (hargument : S.argument? signature.parameter a = some argument) {room : Int}
    (hroom : (p.liveBytes live : Int) ≤ room) :
    p.Matches (slotUses room (Line.ofCode (Command.call receiver signature argument).code))
      (Tree.argumentMentions p live a ++ callee.mentions p live) := by
  have hreceiver : ∀ {room : Int}, (p.liveBytes live : Int) ≤ room →
      p.Matches (slotUses room (Line.ofCode receiver.address)) (callee.mentions p live) := by
    intro room hroom
    rw [slotUses_of_sets (by decide) receiver.sets_address]
    cases callee with
    | bare m | receiver m =>
      obtain ⟨owner, -, heq⟩ := Option.map_eq_some_iff.1 hcallee
      cases heq
      exact .nil
    | object x m =>
      obtain ⟨s, hs, c, -, storage, hstorage, rfl, -⟩ := Context.callee?_object.1 hcallee
      have hplace : S.place? (.variable x) = some (.binding s storage) :=
        Context.place?_variable.2 ⟨s, hs, storage, hstorage, rfl⟩
      rw [Receiver.address, Storage.slots_objectAddress]
      exact matches_place hS hplace hroom
  have hpush : (Instruction.pushRegister .eax).slots = [] := rfl
  rcases Context.argument?_cases hargument with
    ⟨-, rfl, rfl⟩ | ⟨q, v, value, -, rfl, rfl, hvalue⟩
  · simp only [Command.code, List.nil_append, Line.ofCode_append, slotUses_append,
      slotUses_called hpush, List.append_nil]
    exact hreceiver hroom
  · have hpushed : slotUses room (Line.ofCode [.pushRegister .eax]) = [] := rfl
    have hbehind : roomBehind room (Line.ofCode [.pushRegister .eax]) = room + 4 := rfl
    simp only [Command.code, Line.ofCode_append, List.append_assoc, slotUses_append,
      slotUses_called hpush, List.append_nil,
      roomBehind_of_sets (show Register.eax ≠ .ebp by decide) (value.sets_fetch .eax), hpushed,
      hbehind, List.nil_append]
    exact List.rel_append (matches_value hS hvalue (by decide) hroom) (hreceiver (by omega))

/-- A statement touches the words that it names. -/
theorem Elaborates.matches {s : Tree.Simple} {command : Command} (h : S.Elaborates s command S')
    (hproper : ∀ l ∈ s.yield, l.Proper) (hS : S.Amid p live) {room : Int}
    (hroom : (p.liveBytes live : Int) ≤ room) :
    p.Matches (slotUses room (Line.ofCode command.code)) (s.mentions p live) := by
  have heax : Register.eax ≠ .ebp := by decide
  have hfetch : ∀ value : Value, roomBehind room (Line.ofCode (value.fetch .eax)) = room :=
    fun value => roomBehind_of_sets heax (value.sets_fetch .eax) room
  have hpush : (Instruction.pushRegister .eax).slots = [] := rfl
  cases h with
  | @number t x v value htype hfree hvalue =>
    rw [Tree.Simple.yield, List.forall_mem_cons] at hproper
    obtain ⟨heq, -⟩ := knows_of_type? hproper.1 htype
    rw [Command.code, Line.ofCode_append, slotUses_append, hfetch, Tree.Simple.mentions, ← heq]
    refine List.rel_append (matches_value hS hvalue heax hroom) ?_
    show p.Matches (slotUses room (Line.ofCode (.allocate (p.slotBytes .int) :: _))) _
    exact matches_declared hS (slotUses_storeSlot S.nextOffset .eax) hroom
  | text htype hfree =>
    rw [Tree.Simple.yield, List.forall_mem_cons] at hproper
    obtain ⟨heq, -⟩ := knows_of_type? hproper.1 htype
    rw [Tree.Simple.mentions, ← heq]
    exact .nil
  | string htype hfree hlabel =>
    rw [Tree.Simple.yield, List.forall_mem_cons] at hproper
    obtain ⟨heq, -⟩ := knows_of_type? hproper.1 htype
    rw [Tree.Simple.mentions, ← heq, Tree.Initial.mentions, Tree.Value.mentions,
      mentions_string hS hlabel]
    exact .nil
  | @create t x c created htype hfree hcreated =>
    rw [Tree.Simple.yield, List.forall_mem_cons] at hproper
    obtain ⟨heq, hknows⟩ := knows_of_type? hproper.1 htype
    rw [Tree.Simple.mentions, ← heq, fieldCount_eq hS hknows]
    exact matches_declared hS (slotUses_zeroFields S.nextOffset _) hroom
  | @copy t x c v value htype hfree hvalue =>
    rw [Tree.Simple.yield, List.forall_mem_cons] at hproper
    obtain ⟨heq, hknows⟩ := knows_of_type? hproper.1 htype
    rw [Command.code, List.append_assoc, Line.ofCode_append, slotUses_append, hfetch,
      Tree.Simple.mentions, ← heq, fieldCount_eq hS hknows]
    exact List.rel_append (matches_value hS hvalue heax hroom)
      (matches_declared hS (slotUses_copyFields_slot S.nextOffset _) hroom)
  | assignNumber htarget htype hvalue =>
    exact matches_assigned hS htarget hvalue (fun _ => rfl) hroom
  | assignObject htarget htype hvalue =>
    exact matches_assigned hS htarget hvalue (slotUses_copyFields_field (by decide) _) hroom
  | call hcallee hmethod hargument => exact matches_call hS hcallee hargument hroom
  | @print v value hvalue =>
    rw [Command.code, Line.ofCode_append, slotUses_append, slotUses_called hpush, List.append_nil]
    exact matches_value hS hvalue heax hroom
  | printLiteral => exact .nil
  | @printVariable x symbol hsymbol htype =>
    have hsource : (TextSource.named symbol).push.slots = [] := by
      unfold TextSource.push
      dsimp only
      split <;> rfl
    show p.Matches (slotUses room (Line.ofCode [_, .call _, .release 4])) []
    rw [slotUses_called hsource]
    exact .nil

/-- The test before a block touches the words that its condition names. -/
theorem matches_opening (hS : S.Amid p live) {c : Tree.Condition} {condition : Condition}
    (h : S.condition? c = some condition) (kind : BranchKind) (id : Nat) {room : Int}
    (hroom : (p.liveBytes live : Int) ≤ room) :
    p.Matches (slotUses room (Branch.mk kind condition id).opening) (c.mentions p live) := by
  have heax : Register.eax ≠ .ebp := by decide
  have hebx : Register.ebx ≠ .ebp := by decide
  obtain ⟨left, hleft, right, hright, rfl⟩ := Context.condition?_eq_some.1 h
  have htest : ∀ target, p.Matches
      (slotUses room (Line.ofCode ((Condition.mk left c.relation right).jumpUnless target)))
      (c.mentions p live) := by
    intro target
    have hjump : ∀ (room : Int) (condition : Jump), slotUses room (Line.ofCode
        [.cmp (.register .eax) (.register .ebx), .jump condition target]) = [] :=
      fun _ _ => rfl
    rw [Condition.jumpUnless, Line.ofCode_append, slotUses_append, hjump, List.append_nil,
      Line.ofCode_append, slotUses_append, roomBehind_of_sets heax (left.sets_fetch .eax)]
    exact List.rel_append (matches_value hS hleft heax hroom) (matches_value hS hright hebx hroom)
  cases kind with
  | conditional => exact htest _
  | loop =>
    have hlabel : (Line.label (Label.conditionOf id) : Line Instruction).room room = room :=
      Int.add_zero room
    show p.Matches (slotUses ((Line.label _ : Line Instruction).room room) _) _
    rw [hlabel]
    exact htest _

/-- The statements of a block touch the words that they name. -/
theorem ElaboratesBlock.matches {t : Tree.Block} {body : Body} (h : ElaboratesBlock S t body S')
    (hproper : ∀ l ∈ t.yield, l.Proper) (hS : S.Amid p live) :
    p.Matches (slotUses (p.liveBytes live) body.code) (t.mentions p live) := by
  induction h generalizing live with
  | @finish S =>
    have hrelease : ∀ (room : Int) (bytes : Nat),
        slotUses room (Line.ofCode (Body.releaseCode bytes)) = [] := by
      intro room bytes
      unfold Body.releaseCode
      split <;> rfl
    rw [Body.code, hrelease]
    exact .nil
  | @simple S S₁ S₂ s rest command body hsimple _ ih =>
    rw [Tree.Block.yield, List.forall_mem_append] at hproper
    have hafter := hS.elaborates hsimple hproper.1
    have hbehind : roomBehind (p.liveBytes live) (Line.ofCode command.code) =
        p.liveBytes (s.declares ++ live) := by
      rw [roomBehind_eq fun c hc => (Body.simple command body).keepsFrame_code c
        (List.mem_append_left _ hc), hsimple.floats.pushed, taken, taken, hafter.mirrors.bytes,
        hS.mirrors.bytes]
      omega
    rw [Body.code, slotUses_append, hbehind, Tree.Block.mentions]
    exact List.rel_append (hsimple.matches hproper.1 hS (Int.le_refl _)) (ih hproper.2 hafter)
  | @branch S S₁ S₂ kind c condition inner rest innerBody restBody hcondition hinner _ ihInner
      ihRest =>
    simp only [Tree.Block.yield, List.forall_mem_cons, List.forall_mem_append] at hproper
    obtain ⟨-, -, -, hi, -, hr⟩ := hproper
    have htest := matches_opening hS hcondition kind S.draw.labels (Int.le_refl _)
    have hinside : pushed innerBody.code = 0 := hinner.floats.pushed
    have hback : ∀ room, slotUses room (Branch.mk kind condition S.draw.labels).closing = [] := by
      intro room
      cases kind <;> rfl
    generalize Branch.mk kind condition S.draw.labels = head at htest hback ⊢
    have hkeeps := (Body.branch head innerBody restBody).keepsFrame_code
    -- at its beginning, before its inner statements and behind itself a block has nothing taken
    have hroom : ∀ lines lines' : List (Line Instruction),
        Body.code (.branch head innerBody restBody) = lines ++ lines' → pushed lines = 0 →
        roomBehind (p.liveBytes live) lines = p.liveBytes live := by
      intro lines lines' hcode hzero
      rw [roomBehind_eq fun c hc => hkeeps c (hcode ▸ List.mem_append_left _ hc), hzero,
        Int.add_zero]
    have hentered := hroom head.opening (innerBody.code ++ head.closing ++ restBody.code)
      (by simp only [Body.code, List.append_assoc]) head.pushed_opening
    have hleft := hroom (head.opening ++ innerBody.code ++ head.closing) restBody.code rfl
      (by rw [pushed_append, pushed_append, head.pushed_opening, hinside, head.pushed_closing]; rfl)
    rw [Body.code, slotUses_append, hleft, slotUses_append, hback, List.append_nil,
      slotUses_append, hentered, Tree.Block.mentions]
    exact List.rel_append (List.rel_append htest (ihInner hi hS.enter))
      (ihRest hr (hS.leave hinner))

end Standing

/-! ### Routines and programs -/

/-- The slots that a routine touches are the words that its block names, one after the other.  So
    whichever line has a slot among its operands, the slot is a word that is named there. -/
structure Routine.TouchesNamed (r : Routine) (p : Tree.Program) (tree : Tree.Block) : Prop where
  inTurn : p.Matches (slotUses 0 r.listing.lines) (tree.mentions p [])
  each : ∀ {i code k}, r.listing.lines[i]? = some (.instruction code) → k ∈ code.slots →
    ∃ m ∈ tree.mentions p [], m.At p (roomAt r.listing.lines i) k

theorem Routine.touchesNamed {r : Routine} {p : Tree.Program} {parameter : Option Parameter}
    {tree : Tree.Block} {S S' : Standing} (henters : p.Enters S r.owner parameter)
    (hbody : Standing.ElaboratesBlock S tree r.body S') (hp : p.WellFormed)
    (hproper : ∀ l ∈ tree.yield, l.Proper) : r.TouchesNamed p tree := by
  have hinTurn : p.Matches (slotUses 0 r.listing.lines) (tree.mentions p []) := by
    have hpreamble : slotUses 0 r.preamble = [] ∧ roomBehind 0 r.preamble = 0 := by
      obtain ⟨owner, method, body⟩ := r
      cases owner <;> exact ⟨rfl, rfl⟩
    have hclosing : ∀ room, slotUses room (Line.ofCode r.closing) = [] := by
      obtain ⟨owner, method, body⟩ := r
      cases owner <;> exact fun _ => rfl
    rw [r.listing_lines, slotUses_append, hclosing, List.append_nil, slotUses_append, hpreamble.1,
      hpreamble.2]
    exact hbody.matches hproper (henters.amid hp)
  refine ⟨hinTurn, fun {i code k} hi hk => ?_⟩
  have hmem : (roomAt r.listing.lines i, k) ∈ slotUses 0 r.listing.lines := mem_slotUses hi hk
  exact exists_right_of_forall₂ hinTurn hmem

/-- Whatever stack slot a listing of an accepted program touches, it is allocated at that moment,
    and it is the word that the program names there, of one variable that is alive. -/
theorem touched_slots {source : String} {compilation : Compilation}
    (h : compile source = .ok compilation) :
    (∃ p : Tree.Program, p.SpelledBy source) ∧
      ∀ p : Tree.Program, p.SpelledBy source →
        List.Forall₂ (fun tree r => r.TouchesNamed p tree) p.blocks compilation.routines := by
  refine ⟨exists_spelledBy h, fun p hp => ?_⟩
  refine hp.routines h fun henters hbody hproper _ _ => ?_
  exact Routine.touchesNamed henters hbody hp.wellFormed hproper

theorem touched_slots_shadow :
    ∃ compilation, compile shadowText = .ok compilation ∧ shadowTree.SpelledBy shadowText ∧
      List.Forall₂ (fun tree r => r.TouchesNamed shadowTree tree) shadowTree.blocks
        compilation.routines := by
  obtain ⟨hspelled, compilation, hcompile⟩ := shadowTree_spelledBy
  exact ⟨compilation, hcompile, hspelled, (touched_slots hcompile).2 shadowTree hspelled⟩

end ClassLang
