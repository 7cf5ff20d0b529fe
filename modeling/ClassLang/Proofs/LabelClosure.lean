/-
  ClassLang/Proofs/LabelClosure.lean
  ==================================
  **Every label that code refers to is defined.**

  An instruction refers to labels in three ways: it jumps, it calls, or it names a data
  entry.  `references` lists them, and for each piece of generated code there is a list
  that can be read off the checked statement (`Command.references_code`), so that no
  proof has to look at instructions again.

  Calls go to methods that the table knows and strings are known by the label of their
  entry; both is so from the moment a routine begins and stays so with every statement
  (`Standing.Labelled`).  What a table or an entry of that moment means for the whole
  output is said in `ClassLang.Proofs.Provenance`.
-/
import ClassLang.Proofs.LabelUniqueness
import ClassLang.Proofs.Provenance

namespace ClassLang

/-! ### References -/

/-- What an instruction refers to by a label. -/
inductive Reference where
  | jump (target : String)
  | call (target : String)
  | data (label : String)
deriving DecidableEq, Repr

def Operand.references : Operand → List Reference
  | .label name => [.data name]
  | _ => []

def Instruction.references : Instruction → List Reference
  | .mov target source => target.references ++ source.references
  | .push source => source.references
  | .add _ source => source.references
  | .sub _ source => source.references
  | .xor _ source => source.references
  | .cmp left right => left.references ++ right.references
  | .jump _ target => [.jump target]
  | .call target => [.call target]
  | _ => []

def Line.references : Line Instruction → List Reference
  | .label _ => []
  | .instruction code => code.references

/-- What lines refer to, from the first to the last. -/
def references (lines : List (Line Instruction)) : List Reference :=
  lines.flatMap Line.references

theorem references_append (lines lines' : List (Line Instruction)) :
    references (lines ++ lines') = references lines ++ references lines' :=
  List.flatMap_append

@[simp] theorem references_nil : references [] = [] := rfl

@[simp] theorem references_label (name : String) (lines : List (Line Instruction)) :
    references (.label name :: lines) = references lines := rfl

@[simp] theorem references_instruction (code : Instruction) (lines : List (Line Instruction)) :
    references (.instruction code :: lines) = code.references ++ references lines := rfl

theorem references_ofCode (code : List Instruction) :
    references (Line.ofCode code) = code.flatMap Instruction.references := by
  rw [references, Line.ofCode, List.flatMap_map]
  rfl

@[simp] theorem Instruction.references_load (target : Register) (address : Address) :
    (load target address).references = [] := rfl

@[simp] theorem Instruction.references_store (address : Address) (source : Register) :
    (store address source).references = [] := rfl

@[simp] theorem Instruction.references_lea (target : Register) (address : Address) :
    (lea target address).references = [] := rfl

@[simp] theorem Instruction.references_allocate (bytes : Nat) :
    (allocate bytes).references = [] := rfl

@[simp] theorem Instruction.references_release (bytes : Nat) :
    (release bytes).references = [] := rfl

@[simp] theorem Instruction.references_pushRegister (source : Register) :
    (pushRegister source).references = [] := rfl

@[simp] theorem Instruction.references_call (target : String) :
    (call target).references = [.call target] := rfl

@[simp] theorem Instruction.references_jump (condition : Jump) (target : String) :
    (jump condition target).references = [.jump target] := rfl

@[simp] theorem Instruction.references_cmp (left right : Register) :
    (cmp (.register left) (.register right)).references = [] := rfl

/-! ### References of statements -/

/-- The entry that a variable is stored in. -/
def Storage.references : Storage → List Reference
  | .data label => [.data label]
  | _ => []

def Place.references : Place → List Reference
  | .binding _ storage => storage.references
  | .receiverField _ _ => []
  | .objectField _ storage _ _ => storage.references

def Value.references : Value → List Reference
  | .place p => p.references
  | .literal _ => []

def Receiver.references : Receiver → List Reference
  | .current _ => []
  | .object _ _ storage => storage.references

def Command.references : Command → List Reference
  | .declareNumber _ value _ => value.references
  | .declareString _ _ => []
  | .createObject _ _ _ _ => []
  | .copyObject _ _ source _ _ => source.references
  | .assignNumber target value => target.references ++ value.references
  | .assignObject target value _ => target.references ++ value.references
  | .call receiver method argument =>
      (argument.map Value.references).getD [] ++
        receiver.references ++ [.call (Label.method receiver.owner method.name)]
  | .print value => value.references ++ [.call Label.printNumber]
  | .printText source => source.push.references ++ [.call Label.printText]

/-- What the test before a block refers to, the jump around the block apart. -/
def Condition.references (condition : Condition) : List Reference :=
  condition.left.references ++ condition.right.references

/-- What the statements of a body refer to, the jumps around blocks apart. -/
def Body.references : Body → List Reference
  | .finish _ => []
  | .simple command rest => command.references ++ rest.references
  | .branch head inner rest =>
      head.condition.references ++ inner.references ++ rest.references

/-! ### What is referred to -/

def Reference.IsData : Reference → Prop
  | .data _ => True
  | _ => False

theorem Storage.isData_references (storage : Storage) :
    ∀ ref ∈ storage.references, ref.IsData := by
  cases storage <;> simp [references, Reference.IsData]

theorem Place.isData_references (place : Place) : ∀ ref ∈ place.references, ref.IsData := by
  cases place with
  | receiverField field index => exact List.forall_mem_nil _
  | binding symbol storage | objectField owner storage field index =>
    exact storage.isData_references

theorem Value.isData_references (value : Value) : ∀ ref ∈ value.references, ref.IsData := by
  cases value with
  | literal n => exact List.forall_mem_nil _
  | place p => exact p.isData_references

theorem Receiver.isData_references (receiver : Receiver) :
    ∀ ref ∈ receiver.references, ref.IsData := by
  cases receiver with
  | current owner => exact List.forall_mem_nil _
  | object symbol owner storage => exact storage.isData_references

theorem TextSource.isData_references (source : TextSource) :
    ∀ ref ∈ source.push.references, ref.IsData := by
  unfold push
  split
  · simp [Instruction.references, Operand.references, Reference.IsData]
  · split <;> simp [Instruction.references, Operand.references, Reference.IsData]

/-- The routine that a statement calls, if any. -/
def Command.callee? : Command → Option String
  | .call receiver method _ => some (Label.method receiver.owner method.name)
  | .print _ => some Label.printNumber
  | .printText _ => some Label.printText
  | _ => none

/-- A statement refers to data entries and to the routine that it calls. -/
theorem Command.references_cases (command : Command) :
    ∀ ref ∈ command.references, ref.IsData ∨ ∃ target ∈ command.callee?, ref = .call target := by
  have hdata : ∀ {refs : List Reference}, (∀ ref ∈ refs, ref.IsData) →
      ∀ ref ∈ refs, ref.IsData ∨ ∃ target ∈ command.callee?, ref = .call target :=
    fun h ref href => .inl (h ref href)
  have hcall : ∀ {target : String}, command.callee? = some target →
      ∀ ref ∈ [Reference.call target],
        ref.IsData ∨ ∃ target ∈ command.callee?, ref = .call target :=
    fun h => List.forall_mem_singleton.2 (.inr ⟨_, h, rfl⟩)
  cases command with
  | declareString name label | createObject name className fields offset =>
    exact List.forall_mem_nil _
  | declareNumber name value offset | copyObject name className value fields offset =>
    exact hdata value.isData_references
  | assignNumber place value | assignObject place value fields =>
    exact hdata (List.forall_mem_append.2 ⟨place.isData_references, value.isData_references⟩)
  | call receiver method argument =>
    refine List.forall_mem_append.2 ⟨hdata (List.forall_mem_append.2 ⟨?_, ?_⟩), hcall rfl⟩
    · cases argument with
      | none => exact List.forall_mem_nil _
      | some value => exact value.isData_references
    · exact receiver.isData_references
  | print value => exact List.forall_mem_append.2 ⟨hdata value.isData_references, hcall rfl⟩
  | printText source => exact List.forall_mem_append.2 ⟨hdata source.isData_references, hcall rfl⟩

/-! ### References of code -/

theorem Storage.references_objectAddress (storage : Storage) (target : Register) :
    (storage.objectAddress target).flatMap Instruction.references = storage.references := by
  cases storage <;> rfl

theorem Storage.references_fieldAddress (storage : Storage) (index : Nat) (target : Register) :
    (storage.fieldAddress index target).flatMap Instruction.references = storage.references := by
  cases storage with
  | frame offset => rfl
  | parameter | data label =>
    simp only [fieldAddress, List.flatMap_append, references_objectAddress]
    split <;> simp

theorem Storage.references_fieldValue (storage : Storage) (index : Nat) (target : Register) :
    (storage.fieldValue index target).flatMap Instruction.references = storage.references := by
  cases storage with
  | frame offset => rfl
  | parameter | data label => simp [fieldValue, references_objectAddress]

theorem Place.references_address (place : Place) :
    place.address.flatMap Instruction.references = place.references := by
  cases place with
  | binding symbol storage =>
    obtain ⟨name, type, role, label⟩ := symbol
    cases type <;> cases storage <;> rfl
  | receiverField field index =>
    simp only [address, references]
    split <;> simp
  | objectField owner storage field index =>
    exact Storage.references_fieldAddress storage index .ebx

theorem Value.references_fetch (value : Value) (target : Register) :
    (value.fetch target).flatMap Instruction.references = value.references := by
  cases value with
  | literal n => rfl
  | place p =>
    cases p with
    | binding symbol storage =>
      obtain ⟨name, type, role, label⟩ := symbol
      cases type <;> cases storage <;> rfl
    | receiverField field index => rfl
    | objectField owner storage field index =>
      exact Storage.references_fieldValue storage index target

theorem references_copyFields (fields : Nat) (target : Nat → Address) :
    (copyFields fields target).flatMap Instruction.references = [] := by
  simp only [copyFields, List.flatMap_assoc, List.flatMap_cons, List.flatMap_nil,
    Instruction.references_load, Instruction.references_store, List.append_nil]
  simp

theorem references_zeroFields (offset fields : Nat) :
    (zeroFields offset fields).flatMap Instruction.references = [] := by
  simp [zeroFields, Instruction.references, Operand.references]

/-- What the code of a command refers to can be read off the command. -/
theorem Command.references_code (command : Command) :
    command.code.flatMap Instruction.references = command.references := by
  cases command with
  | declareNumber name value offset => simp [code, references, Value.references_fetch]
  | declareString name label => rfl
  | createObject name className fields offset =>
    simp [code, references, references_zeroFields]
  | copyObject name className source fields offset =>
    simp [code, references, Value.references_fetch, references_copyFields]
  | assignNumber target value =>
    simp [code, references, Value.references_fetch, Place.references_address]
  | assignObject target value fields =>
    simp [code, references, Value.references_fetch, Place.references_address,
      references_copyFields]
  | call receiver method argument =>
    have hreceiver : receiver.address.flatMap Instruction.references = receiver.references := by
      cases receiver with
      | current owner => rfl
      | object symbol owner storage => exact Storage.references_objectAddress storage .eax
    cases argument with
    | none => simp [code, references, hreceiver]
    | some value =>
      simp [code, references, hreceiver, Value.references_fetch]
  | print value => simp [code, references, Value.references_fetch]
  | printText source => simp [code, references]

theorem Condition.references_jumpUnless (condition : Condition) (target : String) :
    (condition.jumpUnless target).flatMap Instruction.references =
      condition.references ++ [.jump target] := by
  simp [jumpUnless, references, Value.references_fetch]

/-- What the code of a body refers to: what its statements do, and the labels of its blocks. -/
theorem Body.references_code (body : Body) {ref : Reference}
    (h : ref ∈ ClassLang.references body.code) :
    ref ∈ body.references ∨ ∃ head ∈ body.heads, ∃ target ∈ head.labels, ref = .jump target := by
  induction body with
  | finish bytes =>
    simp only [code, releaseCode, references_ofCode] at h
    split at h <;> simp at h
  | simple command rest ih =>
    simp only [code, references_append, references_ofCode, Command.references_code,
      List.mem_append] at h
    rcases h with h | h
    · exact .inl (List.mem_append_left _ h)
    · rcases ih h with h | h
      · exact .inl (List.mem_append_right _ h)
      · exact .inr h
  | branch head inner rest ihInner ihRest =>
    have hedge : ref ∈ ClassLang.references head.opening ++ ClassLang.references head.closing →
        ref ∈ head.condition.references ∨ ∃ target ∈ head.labels, ref = .jump target := by
      intro hedge
      obtain ⟨kind, condition, id⟩ := head
      cases kind <;>
        simp only [Branch.opening, Branch.closing, references_label, references_instruction,
          references_nil, references_ofCode, Condition.references_jumpUnless, List.append_nil,
          Instruction.references_jump, List.mem_append, List.mem_singleton] at hedge
      · exact hedge.imp_right fun href => ⟨_, by simp [Branch.labels], href⟩
      · rcases hedge with (href | href) | href
        · exact .inl href
        · exact .inr ⟨_, by simp [Branch.labels], href⟩
        · exact .inr ⟨_, by simp [Branch.labels], href⟩
    simp only [code, references_append, List.mem_append] at h hedge
    have hsplit : (ref ∈ ClassLang.references head.opening ∨
        ref ∈ ClassLang.references head.closing) ∨
        ref ∈ ClassLang.references inner.code ∨ ref ∈ ClassLang.references rest.code := by
      rcases h with ((h | h) | h) | h
      · exact .inl (.inl h)
      · exact .inr (.inl h)
      · exact .inl (.inr h)
      · exact .inr (.inr h)
    simp only [references, heads, List.mem_append, List.mem_cons]
    rcases hsplit with h | h | h
    · rcases hedge h with h | h
      · exact .inl (.inl (.inl h))
      · exact .inr ⟨head, .inl rfl, h⟩
    · rcases ihInner h with h | ⟨head', hhead, h⟩
      · exact .inl (.inl (.inr h))
      · exact .inr ⟨head', .inr (.inl hhead), h⟩
    · rcases ihRest h with h | ⟨head', hhead, h⟩
      · exact .inl (.inr h)
      · exact .inr ⟨head', .inr (.inr hhead), h⟩

/-! ### Labels in sight -/

namespace Standing

variable {S S' : Standing}

/-- The string variables in sight have entries. -/
def Labelled (S : Standing) : Prop :=
  ∀ frame ∈ S.scope.frames, ∀ s ∈ frame, ∀ label ∈ s.label,
    label ∈ S.data.entries.map (·.label)

/-- The reference is to a printing routine, to a method that the table knows, or to an entry that
    has been stored. -/
def Resolves (S : Standing) : Reference → Prop
  | .jump _ => False
  | .call target => target = Label.printNumber ∨ target = Label.printText ∨
      ∃ c m s, S.table.method? c m = some s ∧ target = Label.method c s.name
  | .data label => label ∈ S.data.entries.map (·.label)

theorem Resolves.mono {ref : Reference} (htable : S'.table = S.table)
    (hentries : S.data.entries <+: S'.data.entries) (h : S.Resolves ref) : S'.Resolves ref := by
  cases ref with
  | jump target => exact h
  | call target =>
    rw [Resolves, htable]
    exact h
  | data label => exact (hentries.map _).subset h

theorem resolves_storage (hS : S.Sound) (h : S.Labelled) {x : String} {s : Symbol}
    {storage : Storage} (hs : S.scope.find? x = some s)
    (hstorage : S.toContext.storage s = .ok storage) :
    ∀ ref ∈ storage.references, S.Resolves ref := by
  intro ref href
  rcases Context.storage_cases hS hs hstorage with
    ⟨rfl, -⟩ | ⟨hframes, ⟨label, rfl, hlabel⟩ | ⟨offset, rfl, -⟩⟩
  · cases href
  · obtain ⟨frame, hframe, hfind⟩ := List.exists_of_findSome?_eq_some hframes
    rw [List.mem_singleton.1 href]
    exact h frame hframe s (List.mem_of_find?_eq_some hfind) label hlabel
  · cases href

theorem resolves_place (hS : S.Sound) (h : S.Labelled) {p : Tree.Place} {place : Place}
    (hplace : S.place? p = some place) : ∀ ref ∈ place.references, S.Resolves ref := by
  cases p with
  | «variable» x =>
    obtain ⟨s, hs, storage, hstorage, rfl⟩ := Context.place?_variable.1 hplace
    exact resolves_storage hS h hs hstorage
  | receiverField f =>
    obtain ⟨owner, -, index, -, rfl⟩ := Context.place?_receiverField.1 hplace
    simp [Place.references]
  | objectField x f =>
    obtain ⟨s, hs, c, -, index, -, storage, hstorage, rfl⟩ := Context.place?_objectField.1 hplace
    exact resolves_storage hS h hs hstorage

theorem resolves_value (hS : S.Sound) (h : S.Labelled) {type : Ty} {v : Tree.Value} {value : Value}
    (hvalue : S.valueOf? type v = some value) : ∀ ref ∈ value.references, S.Resolves ref := by
  cases v with
  | number digits =>
    obtain ⟨n, -, -, rfl⟩ := Context.valueOf?_number.1 hvalue
    simp [Value.references]
  | place p =>
    obtain ⟨place, hplace, -, rfl⟩ := Context.valueOf?_place.1 hvalue
    exact resolves_place hS h hplace

theorem resolves_receiver (hS : S.Sound) (h : S.Labelled) {callee : Tree.Callee}
    {receiver : Receiver} {m : String} (hcallee : S.callee? callee = some (receiver, m)) :
    ∀ ref ∈ receiver.references, S.Resolves ref := by
  cases callee with
  | bare n | receiver n =>
    simp only [Context.callee?, Option.map_eq_some_iff, Prod.mk.injEq] at hcallee
    obtain ⟨owner, -, rfl, -⟩ := hcallee
    simp [Receiver.references]
  | object x n =>
    obtain ⟨s, hs, c, -, storage, hstorage, rfl, -⟩ := Context.callee?_object.1 hcallee
    exact resolves_storage hS h hs hstorage

theorem resolves_argument (hS : S.Sound) (h : S.Labelled) {q : Option Parameter}
    {a : Option Tree.Value} {argument : Option Value}
    (hargument : S.argument? q a = some argument) :
    ∀ ref ∈ (argument.map Value.references).getD [], S.Resolves ref := by
  rcases Context.argument?_cases hargument with
    ⟨-, -, rfl⟩ | ⟨p, v, value, -, -, rfl, hvalue⟩
  · simp
  · exact resolves_value hS h hvalue

/-- What the code of a statement refers to is there behind the statement. -/
theorem Elaborates.resolves (hS : S.Sound) (h : S.Labelled) {s : Tree.Simple} {command : Command}
    (hs : S.Elaborates s command S') : ∀ ref ∈ command.references, S'.Resolves ref := by
  -- only a literal refers to an entry that the statement itself stores
  have hmono : ∀ refs : List Reference, (∀ ref ∈ refs, S.Resolves ref) →
      ∀ ref ∈ refs, S'.Resolves ref :=
    fun refs hrefs ref href => (hrefs ref href).mono hs.keeps.table hs.entries
  cases hs with
  | number _ _ hvalue | copy _ _ hvalue => exact hmono _ (resolves_value hS h hvalue)
  | text | string | create => simp [Command.references]
  | assignNumber htarget _ hvalue | assignObject htarget _ hvalue =>
    refine hmono _ (List.forall_mem_append.2 ⟨?_, ?_⟩)
    · exact resolves_place hS h htarget
    · exact resolves_value hS h hvalue
  | call hcallee hmethod hargument =>
    refine hmono _ (List.forall_mem_append.2 ⟨List.forall_mem_append.2 ⟨?_, ?_⟩, ?_⟩)
    · exact resolves_argument hS h hargument
    · exact resolves_receiver hS h hcallee
    · rintro ref href
      rw [List.mem_singleton.1 href]
      exact .inr (.inr ⟨_, _, _, hmethod, rfl⟩)
  | print hvalue =>
    refine hmono _ (List.forall_mem_append.2 ⟨resolves_value hS h hvalue, ?_⟩)
    rintro ref href
    rw [List.mem_singleton.1 href]
    exact .inl rfl
  | printLiteral =>
    refine List.forall_mem_append.2 ⟨?_, ?_⟩
    · rintro ref href
      rw [List.mem_singleton.1 href]
      simp [Resolves, store, DataSection.insert, stringLabel]
    · rintro ref href
      rw [List.mem_singleton.1 href]
      exact .inr (.inl rfl)
  | @printVariable x s hsymbol htype =>
    refine List.forall_mem_append.2 ⟨?_, ?_⟩
    · rintro ref href
      rcases Context.Scope.find?_cases hsymbol with ⟨-, frame, hframe, hs⟩ | ⟨-, hparameter⟩
      · obtain ⟨hrole, hlabel⟩ := hS.scope.binding frame hframe s hs
        obtain ⟨label, hlabel⟩ := Option.isSome_iff_exists.1 (hlabel.2 htype)
        simp only [TextSource.push, hrole, hlabel, Instruction.references, Operand.references,
          List.mem_singleton] at href
        rw [href]
        exact h frame hframe s hs label hlabel
      · obtain ⟨hrole, hlabel⟩ := hS.scope.parameter s hparameter
        simp [TextSource.push, hrole, hlabel, Instruction.references, Operand.references] at href
    · rintro ref href
      rw [List.mem_singleton.1 href]
      exact .inr (.inl rfl)

theorem Elaborates.labelled (h : S.Labelled) {s : Tree.Simple} {command : Command}
    (hs : S.Elaborates s command S') : S'.Labelled := by
  have hmono : ∀ frame ∈ S.scope.frames, ∀ s ∈ frame, ∀ label ∈ s.label,
      label ∈ S'.data.entries.map (·.label) :=
    fun frame hframe s hs' label hlabel =>
      (hs.entries.map _).subset (h frame hframe s hs' label hlabel)
  have hextend : ∀ s : Symbol, (∀ label ∈ s.label, label ∈ S'.data.entries.map (·.label)) →
      ∀ frame ∈ (S.scope.extend s).frames, ∀ t ∈ frame, ∀ label ∈ t.label,
        label ∈ S'.data.entries.map (·.label) := by
    intro s hnew frame hframe t ht label hlabel
    rcases List.mem_cons.1 hframe with rfl | hframe
    · rcases List.mem_append.1 ht with ht | ht
      · exact hmono S.scope.frame (List.mem_cons_self ..) t ht label hlabel
      · rw [List.mem_singleton.1 ht] at hlabel
        exact hnew label hlabel
    · exact hmono frame (List.mem_cons_of_mem _ hframe) t ht label hlabel
  cases hs with
  | number | create | copy => exact hextend _ fun label hlabel => by cases hlabel
  | text | string =>
    refine hextend _ fun label hlabel => ?_
    cases hlabel
    simp [declareString, extend, store, DataSection.insert, stringLabel]
  | _ => exact hmono

theorem Labelled.leave {S₁ : Standing} (h : S.Labelled) (hinner : S.draw.enter.Keeps S₁)
    (hentries : S.data.entries <+: S₁.data.entries) : S₁.leave.Labelled := by
  intro frame hframe s hs label hlabel
  rw [hinner.scope_leave] at hframe
  exact (hentries.map _).subset (h frame hframe s hs label hlabel)

theorem Labelled.enter (h : S.Labelled) : S.draw.enter.Labelled := by
  intro frame hframe s hs label hlabel
  rcases List.mem_cons.1 hframe with rfl | hframe
  · cases hs
  · exact h frame hframe s hs label hlabel

theorem ElaboratesBlock.resolves {t : Tree.Block} {body : Body} (hS : S.Sound) (h : S.Labelled)
    (hblock : ElaboratesBlock S t body S') : ∀ ref ∈ body.references, S'.Resolves ref := by
  induction hblock with
  | finish => simp [Body.references]
  | @simple S S₁ S₂ s rest command body hsimple hrest ih =>
    refine List.forall_mem_append.2 ⟨fun ref href => ?_, ?_⟩
    · exact (hsimple.resolves hS h ref href).mono hrest.keeps.table hrest.entries
    · exact ih (hsimple.sound hS) (hsimple.labelled h)
  | @branch S S₁ S₂ kind c condition inner rest innerBody restBody hcondition hinner hrest ihInner
      ihRest =>
    have hentered := sound_enter hS
    have hleft := hinner.keeps.sound_leave hS
    have hbehind : ∀ ref, S₁.Resolves ref → S₂.Resolves ref := fun ref href =>
      Resolves.mono (S := S₁.leave) hrest.keeps.table hrest.entries (by cases ref <;> exact href)
    simp only [Body.references, List.forall_mem_append]
    refine ⟨⟨fun ref href => ?_, fun ref href => ?_⟩, ?_⟩
    · obtain ⟨left, hl, right, hr, rfl⟩ := Context.condition?_eq_some.1 hcondition
      have hresolves : S.Resolves ref := by
        rcases List.mem_append.1 href with href | href
        · exact resolves_value hS h hl ref href
        · exact resolves_value hS h hr ref href
      exact hbehind ref (hresolves.mono hinner.keeps.table hinner.entries)
    · exact hbehind ref (ihInner hentered h.enter ref href)
    · exact ihRest hleft (h.leave hinner.keeps hinner.entries)

end Standing

/-! ### Routines -/

/-- What the lines of a routine refer to: what its statements do, and the labels of its blocks. -/
theorem Routine.references_listing (r : Routine) {ref : Reference}
    (h : ref ∈ references r.listing.lines) :
    ref ∈ r.body.references ∨
      ∃ head ∈ r.body.heads, ∃ target ∈ head.labels, ref = .jump target := by
  have hcode : ref ∈ references r.body.code := by
    have hopening : references (Line.ofCode r.opening) = [] := by
      rw [references_ofCode, Routine.opening]
      split <;> rfl
    have hclosing : references (Line.ofCode r.closing) = [] := by
      rw [references_ofCode, Routine.closing]
      split <;> rfl
    simpa [Routine.listing, references_append, hopening, hclosing] using h
  exact r.body.references_code hcode

/-- The reference is to something that the output defines: a printing routine or a method, a data
    entry, or a label of the listing at hand. -/
def Compilation.Defines (compilation : Compilation) (lines : List (Line Instruction)) :
    Reference → Prop
  | .call target => target = Label.printNumber ∨ target = Label.printText ∨
      ∃ method ∈ compilation.layout.methods, method.lines.head? = some (.label target)
  | .data label => (compilation.layout.data.map (·.label)).count label = 1
  | .jump target => Line.label target ∈ lines

theorem Body.labels_mem_code {body : Body} {head : Branch} (hhead : head ∈ body.heads)
    {label : String} (hlabel : label ∈ head.labels) : Line.label label ∈ body.code := by
  have hdefs : label ∈ labelDefs body.code :=
    body.labelDefs_code.mem_iff.2 (List.mem_flatMap.2 ⟨head, hhead, hlabel⟩)
  obtain ⟨line, hline, hname⟩ := List.mem_filterMap.1 hdefs
  cases line with
  | label name =>
    cases hname
    exact hline
  | instruction code => cases hname

/-- Whatever a listing refers to is defined. -/
theorem Tree.Program.Elaborates.defines {p : Tree.Program} {compilation : Compilation}
    (hproper : ∀ l ∈ p.yield, l.Proper) (h : p.Elaborates compilation) {r : Routine}
    (hr : r ∈ compilation.routines) :
    ∀ ref ∈ references r.listing.lines, compilation.Defines r.listing.lines ref := by
  intro ref href
  obtain ⟨parameter, tree, S, S', henters, hblock, hentries⟩ := h.origin hr
  have hlabelled : S.Labelled := by
    intro frame hframe s hs
    rw [henters.scope] at hframe
    rw [List.mem_singleton.1 hframe] at hs
    cases hs
  rcases r.references_listing href with href | ⟨head, hhead, target, htarget, rfl⟩
  · have hresolves := hblock.resolves henters.sound hlabelled ref href
    cases ref with
    | jump target => exact hresolves.elim
    | call target =>
      rcases hresolves with hprint | hprint | ⟨c, m, s, hmethod, rfl⟩
      · exact .inl hprint
      · exact .inr (.inl hprint)
      -- the table knows only methods of the program, and all of them have routines
      rw [hblock.keeps.table, ClassTable.method?, Option.bind_eq_some_iff] at hmethod
      obtain ⟨d, hfind, hd⟩ := hmethod
      obtain ⟨k, hk, rfl, -, hmethods⟩ := henters.covers hfind
      obtain ⟨m', hm', rfl⟩ := hmethods s (List.mem_of_find?_eq_some hd)
      have hmem : (k.name, m') ∈ p.methods :=
        List.mem_flatMap.2 ⟨k, hk, List.mem_map_of_mem hm'⟩
      obtain ⟨r', hr', howner, hname, -⟩ := exists_right_of_forall₂ h.methods hmem
      refine .inr (.inr ⟨r'.listing, List.mem_map_of_mem hr', ?_⟩)
      simp [Routine.listing, Routine.entryLabel, Label.entry, howner, hname, Tree.Method.signature]
    | data label =>
      have hnodup : (compilation.data.entries.map (·.label)).Nodup :=
        (List.nodup_append.1 (h.labelsTidy hproper).taken).1
      have hmem : label ∈ compilation.data.entries.map (·.label) :=
        (hentries.map _).subset hresolves
      exact hnodup.count.trans (if_pos hmem)
  · have hmem := Body.labels_mem_code hhead htarget
    simp only [Compilation.Defines, Routine.listing, List.mem_append, List.mem_cons]
    exact .inl (.inr hmem)

end ClassLang
