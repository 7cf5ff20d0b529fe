/-
  ClassLang/Proofs/StateRelation.lean
  ===================================
  **What a machine has to do with a state of the interpreter.**

  `Related` says that a machine holds the state of a program in the middle of a routine.
  Its parts are what `Representation` says of variables and objects, and what calls leave
  on the stack: an `Activation` is one run of a routine with the words that its caller has
  pushed and the objects that the callers have.

  First come names and values: whatever a name is resolved to, the machine has what the
  name stands for in the state.  Then come changes: an object, a variable or a parameter
  is written to, a variable is declared, a block is entered or left.  Each lemma says what
  the machine has to have done for the relation to hold again.
-/
import ClassLang.Proofs.LabelClosure
import ClassLang.Proofs.Representation

namespace ClassLang

open Source (Datum ObjectRef Bindings Record)

/-! ### Activations -/

/-- What is assumed of the surroundings: classes and what they consist of have names of their own,
    entries have labels of their own, and the strings lie where the stack does not reach. -/
structure Setting.Sound (X : Setting) : Prop where
  classes : (X.program.classes.map (·.name)).Nodup
  fields : ∀ c ∈ X.program.classes, c.fields.Nodup
  methods : ∀ c ∈ X.program.classes, (c.methods.map (·.name)).Nodup
  labels : (X.entries.map (·.label)).Nodup
  texts : ∀ e ∈ X.entries, ∀ memory : Int → Int, (∀ a, X.base ≤ a → memory a = X.memory a) →
    X.platform.text memory (X.platform.labels e.label) = e.bytes

theorem Setting.Sound.nodup_fields {X : Setting} (h : X.Sound) (c : String) :
    (X.program.fields c).Nodup := by
  unfold Tree.Program.fields
  cases hfind : X.program.classes.find? (·.name == c) with
  | none => exact .nil
  | some k => exact h.fields k (List.mem_of_find?_eq_some hfind)

/-- One run of a routine. -/
structure Activation where
  table : ClassTable
  owner : Option String
  parameter : Option Symbol
  bp : Int                      -- the frame pointer
  outer : List Placed           -- the objects of the callers

namespace Activation

/-- Where the words end that the caller has pushed. -/
def top (A : Activation) : Int := A.bp + 12 + if A.parameter.isSome then 4 else 0

theorem le_top (A : Activation) : A.bp + 12 ≤ A.top := by
  unfold top
  split <;> omega

theorem top_of_isSome {A : Activation} (h : A.parameter.isSome) : A.top = A.bp + 16 := by
  rw [top, if_pos h]
  omega

/-- The routine knows the classes that it deals with, and what lies above it is the stack of its
    callers. -/
structure Fits (A : Activation) (X : Setting) : Prop where
  covers : X.program.Covers A.table
  known : ∀ s ∈ A.parameter, ∀ c, s.type = .object c → (A.table.find? c).isSome
  below : A.bp ≤ X.base
  pushed : A.owner.isSome → A.top ≤ X.base
  alone : A.owner = none → A.parameter = none
  outer : ∀ o ∈ A.outer, o.Within X.program A.top (X.base - 1)

/-- Of what lies above it, a routine changes only its parameter and the objects there. -/
def Keeps (A : Activation) (X : Setting) (M M' : Machine) : Prop :=
  ∀ a, A.bp ≤ a → (A.parameter.isSome → a ≠ A.bp + 12) → Private X.program A.outer a →
    M'.memory a = M.memory a

variable {A : Activation} {X : Setting} {M M₁ M₂ : Machine}

theorem Keeps.refl : A.Keeps X M M := fun _ _ _ _ => rfl

theorem Keeps.trans (h : A.Keeps X M M₁) (h' : A.Keeps X M₁ M₂) : A.Keeps X M M₂ :=
  fun a hlow hparameter hprivate =>
    (h' a hlow hparameter hprivate).trans (h a hlow hparameter hprivate)

theorem Keeps.of_memory (h : ∀ a, A.bp ≤ a → M₁.memory a = M.memory a) : A.Keeps X M M₁ :=
  fun a hlow _ _ => h a hlow

theorem Fits.fields (hX : X.Sound) (h : A.Fits X) {c : String} {d : ClassDef}
    (hfind : A.table.find? c = some d) : X.program.fields c = d.fields := by
  obtain ⟨k, hk, hname, hfields, -⟩ := h.covers hfind
  rw [Tree.Program.fields, (find?_eq_some_of_nodup hX.classes).2 ⟨hk, hname⟩]
  exact hfields.symm

/-- The program and the table agree on how large the objects of a class are. -/
theorem Fits.fieldCount (hX : X.Sound) (h : A.Fits X) {c : String}
    (hknown : (A.table.find? c).isSome) :
    A.table.fieldCount c = (X.program.fields c).length ∧
      A.table.slotBytes (.object c) = 4 * (X.program.fields c).length := by
  obtain ⟨d, hd⟩ := Option.isSome_iff_exists.1 hknown
  rw [ClassTable.fieldCount, ClassTable.slotBytes, hd, h.fields hX hd]
  exact ⟨rfl, rfl⟩

theorem Fits.field (hX : X.Sound) (h : A.Fits X) {c f : String} {i : Nat}
    (hindex : A.table.fieldIndex? c f = some i) : (X.program.fields c)[i]? = some f := by
  rw [ClassTable.fieldIndex?, Option.bind_eq_some_iff] at hindex
  obtain ⟨d, hd, hindex⟩ := hindex
  rw [ClassDef.fieldIndex?, List.findIdx?_eq_some_iff_getElem] at hindex
  obtain ⟨hlt, heq, -⟩ := hindex
  rw [h.fields hX hd, List.getElem?_eq_getElem hlt, beq_iff_eq.1 heq]

theorem Fits.method (hX : X.Sound) (h : A.Fits X) {c m : String} {signature : Signature}
    (hmethod : A.table.method? c m = some signature) :
    ∃ method, Source.method? X.program c m = some method ∧ method.name = m ∧
      method.signature = signature := by
  rw [ClassTable.method?, Option.bind_eq_some_iff] at hmethod
  obtain ⟨d, hd, hmethod⟩ := hmethod
  obtain ⟨k, hk, hname, -, hmethods⟩ := h.covers hd
  obtain ⟨method, hmem, rfl⟩ := hmethods signature (List.mem_of_find?_eq_some hmethod)
  have hm : method.signature.name = m := by simpa using List.find?_some hmethod
  refine ⟨method, ?_, hm, rfl⟩
  rw [Source.method?, (find?_eq_some_of_nodup hX.classes).2 ⟨hk, hname⟩, Option.bind_some]
  exact (find?_eq_some_of_nodup (hX.methods k hk)).2 ⟨hmem, hm⟩

end Activation

/-! ### The relation -/

/-- The machine is in the middle of a routine, with the state of the program in its memory. -/
structure Related (X : Setting) (A : Activation) (frames : List Frame) (owns : List (List Placed))
    (σ : Source.State) (M : Machine) : Prop where
  ebp : M.registers .ebp = A.bp
  esp : M.registers .esp = A.bp - Scope.framesBytes A.table frames
  frames : FramesHold X A.table (owns.flatten ++ A.outer) M.memory A.bp frames σ.frames owns
  parameter : Option.Rel (fun (s : Symbol) (q : String × Datum) => q.1 = s.name ∧
    Represents X A.outer s.type q.2 (M.memory (A.bp + 12))) A.parameter σ.parameter
  receiver : Option.Rel (fun (c : String) (ref : ObjectRef) => ref.className = c ∧
    ⟨ref, M.memory (A.bp + 8)⟩ ∈ A.outer) A.owner σ.receiver
  objects : ∀ o ∈ owns.flatten ++ A.outer, o.Holds X.program σ.heap M.memory
  apart : (owns.flatten ++ A.outer).Pairwise (Placed.Apart X.program)
  above : ∀ a, X.base ≤ a → M.memory a = X.memory a
  output : M.output = X.output ++ σ.output

/-- The standing that a statement of the routine is read in. -/
structure Standing.Serves (S : Standing) (X : Setting) (A : Activation) : Prop where
  sound : S.Sound
  labelled : S.Labelled
  table : S.table = A.table
  owner : S.owner = A.owner
  parameter : S.scope.parameter = A.parameter
  entries : S.data.entries <+: X.entries

namespace Standing.Serves

variable {S S₁ : Standing} {X : Setting} {A : Activation}

theorem elaborates (h : S.Serves X A) {s : Tree.Simple} {command : Command}
    (hs : S.Elaborates s command S₁) (hentries : S₁.data.entries <+: X.entries) :
    S₁.Serves X A :=
  ⟨hs.sound h.sound, hs.labelled h.labelled, hs.keeps.table.trans h.table,
    hs.keeps.owner.trans h.owner, hs.keeps.parameter.trans h.parameter, hentries⟩

theorem enter (h : S.Serves X A) : S.draw.enter.Serves X A :=
  ⟨sound_enter h.sound, h.labelled.enter, h.table, h.owner, h.parameter, h.entries⟩

theorem leave (h : S.Serves X A) {t : Tree.Block} {body : Body}
    (ht : ElaboratesBlock S.draw.enter t body S₁) (hentries : S₁.data.entries <+: X.entries) :
    S₁.leave.Serves X A :=
  ⟨ht.keeps.sound_leave h.sound, h.labelled.leave ht.keeps ht.entries,
    ht.keeps.table.trans h.table, ht.keeps.owner.trans h.owner,
    by rw [ht.keeps.scope_leave]; exact h.parameter, hentries⟩

end Standing.Serves

/-- What a name is stored as, and what it stands for. -/
inductive Found (X : Setting) (A : Activation) (frames : List Frame) (owns : List (List Placed))
    (σ : Source.State) (M : Machine) (x : String) : Symbol → Storage → Datum → Prop where
  | parameter {s : Symbol} {d : Datum} (hframes : σ.frames.findSome? (·.find? x) = none)
      (hparameter : A.parameter = some s) (hstate : σ.parameter = some (x, d))
      (h : Represents X A.outer s.type d (M.memory (A.bp + 12))) :
      Found X A frames owns σ M x s .parameter d
  | text {e : DataEntry} (h : e ∈ X.entries) :
      Found X A frames owns σ M x (.inData x e.label) (.data e.label) (.text e.bytes)
  | number {offset : Nat} {n : Int32}
      (hframes : σ.frames.findSome? (·.find? x) = some (.number n))
      (hoffset : Scope.offsetIn? A.table x frames = some offset)
      (hword : M.memory (A.bp - offset) = n.toInt)
      (hprivate : Private X.program (owns.flatten ++ A.outer) (A.bp - offset)) :
      Found X A frames owns σ M x (.onStack x .int) (.frame offset) (.number n)
  | object {offset : Nat} {ref : ObjectRef} (h : ⟨ref, A.bp - offset⟩ ∈ owns.flatten)
      (hknown : (A.table.find? ref.className).isSome) :
      Found X A frames owns σ M x (.onStack x (.object ref.className)) (.frame offset)
        (.object ref)

namespace Related

variable {X : Setting} {A : Activation} {S : Standing} {frames : List Frame}
  {owns : List (List Placed)} {σ : Source.State} {M M' : Machine}

/-! ### Names -/

theorem found (h : Related X A S.scope.frames owns σ M) (hS : S.Serves X A) {x : String}
    {s : Symbol} {storage : Storage} (hs : S.scope.find? x = some s)
    (hstorage : S.toContext.storage s = .ok storage) :
    ∃ d, σ.lookup? x = some d ∧ Found X A S.scope.frames owns σ M x s storage d := by
  have hname := Context.Scope.name_of_find? hs
  rcases Context.storage_cases hS.sound hs hstorage with
    ⟨rfl, hnone, hparameter⟩ | ⟨hfind, hstored⟩
  · rw [hS.parameter] at hparameter
    have hrel := h.parameter
    rw [hparameter] at hrel
    generalize hq : σ.parameter = q at hrel
    cases hrel with
    | @some _ q hq' =>
      obtain ⟨y, d⟩ := q
      obtain ⟨rfl, hrepresents⟩ := hq'
      rcases h.frames.find x with ⟨-, hframes⟩ | ⟨t, e, offset, hfind, -⟩
      · refine ⟨d, ?_, .parameter hframes hparameter (by rw [hq, hname]) hrepresents⟩
        rw [Source.State.lookup?, hframes, hq]
        simp [hname]
      · rw [hnone] at hfind
        cases hfind
  · rcases h.frames.find x with ⟨hnone, -⟩ | ⟨t, d, offset, hfind', hframes, hoffset, hholds⟩
    · rw [hfind] at hnone
      cases hnone
    · rw [hfind, Option.some.injEq] at hfind'
      subst hfind'
      have hlookup : σ.lookup? x = some d := by
        rw [Source.State.lookup?, hframes, Option.some_or]
      refine ⟨d, hlookup, ?_⟩
      rcases hstored with ⟨label, rfl, hlabel⟩ | ⟨offset', rfl, hlabel, hoffset'⟩
      · cases hholds with
        | number | object => cases hlabel
        | text he =>
          cases hlabel
          cases hname
          exact .text he
      · rw [Scope.offset?, hS.table, hoffset, Option.some.injEq] at hoffset'
        subst hoffset'
        cases hholds with
        | text => cases hlabel
        | number hword hprivate =>
          cases hname
          exact .number hframes hoffset hword hprivate
        | object ho hknown =>
          cases hname
          exact .object ho hknown

/-- A variable of a class stands for the object that its storage points to. -/
theorem object (h : Related X A S.scope.frames owns σ M) (hA : A.Fits X) (hS : S.Serves X A)
    {x c : String} {s : Symbol} {storage : Storage} (hs : S.scope.find? x = some s)
    (hstorage : S.toContext.storage s = .ok storage) (htype : s.type = .object c) :
    ∃ ref : ObjectRef, ref.className = c ∧ σ.lookup? x = some (.object ref) ∧
      ⟨ref, storage.pointer X.platform M⟩ ∈ owns.flatten ++ A.outer ∧
      (A.table.find? c).isSome := by
  obtain ⟨d, hlookup, hfound⟩ := h.found hS hs hstorage
  cases hfound with
  | text | number => cases htype
  | parameter _ hparameter _ hrepresents =>
    have hknown := hA.known s hparameter c htype
    rw [htype] at hrepresents
    cases hrepresents with
    | @object ref _ ho =>
      refine ⟨ref, rfl, hlookup, List.mem_append_right _ ?_, hknown⟩
      rw [Storage.pointer, h.ebp]
      exact ho
  | @object offset ref ho hknown =>
    cases htype
    refine ⟨ref, rfl, hlookup, List.mem_append_left _ ?_, hknown⟩
    rw [Storage.pointer, h.ebp]
    exact ho

/-- The receiver is where the caller has put its address. -/
theorem exists_receiver (h : Related X A frames owns σ M) {c : String} (howner : A.owner = some c) :
    ∃ ref : ObjectRef, ref.className = c ∧ σ.receiver = some ref ∧
      ⟨ref, M.memory (M.registers .ebp + 8)⟩ ∈ owns.flatten ++ A.outer := by
  have hrel := h.receiver
  rw [howner] at hrel
  generalize hq : σ.receiver = q at hrel
  cases hrel with
  | @some _ ref href =>
    refine ⟨ref, href.1, rfl, List.mem_append_right _ ?_⟩
    rw [h.ebp]
    exact href.2

/-! ### Values -/

theorem field (h : Related X A frames owns σ M) (hX : X.Sound) (hA : A.Fits X) {o : Placed}
    (ho : o ∈ owns.flatten ++ A.outer) {f : String} {i : Nat}
    (hindex : A.table.fieldIndex? o.ref.className f = some i) :
    ∃ record, σ.record? o.ref = some record ∧ M.memory (o.address - 4 * i) = (record f).toInt := by
  obtain ⟨record, hrecord, hfields⟩ := h.objects o ho
  exact ⟨record, hrecord, hfields i f (hA.field hX hindex)⟩

/-- What a place holds is what the machine has there. -/
theorem fetch (h : Related X A S.scope.frames owns σ M) (hX : X.Sound) (hA : A.Fits X)
    (hS : S.Serves X A) {p : Tree.Place} {place : Place} (hplace : S.place? p = some place) :
    ∃ d, σ.fetch? p = some d ∧
      Represents X (owns.flatten ++ A.outer) place.type d (place.word X.platform M) ∧
      ∀ c, place.type = .object c → (A.table.find? c).isSome := by
  cases p with
  | «variable» x =>
    obtain ⟨s, hs, storage, hstorage, rfl⟩ := Context.place?_variable.1 hplace
    obtain ⟨d, hlookup, hfound⟩ := h.found hS hs hstorage
    refine ⟨d, hlookup, ?_, fun c htype => ?_⟩
    · cases hfound with
      | text he => exact .text he
      | number _ _ hword =>
        simp only [Place.type, Place.word, Symbol.onStack, h.ebp, hword]
        exact .number
      | object ho =>
        simp only [Place.type, Place.word, Symbol.onStack, Storage.pointer, h.ebp]
        exact .object (List.mem_append_left _ ho)
      | parameter _ _ _ hrepresents =>
        have hword : (Place.binding s .parameter).word X.platform M = M.memory (A.bp + 12) := by
          rw [← h.ebp]
          cases hs : s.type <;> simp only [Place.word, hs, Storage.pointer]
        rw [hword]
        exact hrepresents.mono (List.subset_append_right ..)
    · obtain ⟨-, -, -, -, hknown⟩ := h.object hA hS hs hstorage htype
      exact hknown
  | receiverField f =>
    obtain ⟨c, howner, i, hindex, rfl⟩ := Context.place?_receiverField.1 hplace
    obtain ⟨ref, rfl, hreceiver, ho⟩ := h.exists_receiver (hS.owner ▸ howner)
    obtain ⟨record, hrecord, hword⟩ := h.field hX hA ho (hS.table ▸ hindex)
    refine ⟨.number (record f), ?_, ?_, fun c hc => by cases hc⟩
    · simp [Source.State.fetch?, hreceiver, Source.State.field?, hrecord]
    · simp only [Place.type, Place.word]
      rw [hword]
      exact .number
  | objectField x f =>
    obtain ⟨s, hs, c, htype, i, hindex, storage, hstorage, rfl⟩ :=
      Context.place?_objectField.1 hplace
    obtain ⟨ref, rfl, hlookup, ho, -⟩ := h.object hA hS hs hstorage htype
    obtain ⟨record, hrecord, hword⟩ := h.field hX hA ho (hS.table ▸ hindex)
    refine ⟨.number (record f), ?_, ?_, fun c hc => by cases hc⟩
    · simp [Source.State.fetch?, Source.State.object?, hlookup, Source.State.field?, hrecord]
    · simp only [Place.type, Place.word]
      rw [hword]
      exact .number

theorem eval (h : Related X A S.scope.frames owns σ M) (hX : X.Sound) (hA : A.Fits X)
    (hS : S.Serves X A) {type : Ty} {v : Tree.Value} {value : Value}
    (hvalue : S.valueOf? type v = some value) :
    ∃ d, σ.eval? v = some d ∧
      Represents X (owns.flatten ++ A.outer) type d (value.word X.platform M) ∧
      ∀ c, type = .object c → (A.table.find? c).isSome := by
  cases v with
  | number digits =>
    obtain ⟨n, hn, rfl, rfl⟩ := Context.valueOf?_number.1 hvalue
    have hword := Text.isWord_of_word? hn
    simp only [Text.isWord, Bool.and_eq_true, decide_eq_true_eq] at hword
    have heq : (Int32.ofInt n).toInt = n := Int32.toInt_ofInt_of_le (by omega) (by omega)
    refine ⟨.number (Int32.ofInt n), by simp [Source.State.eval?, hn], ?_, fun c hc => by cases hc⟩
    have hrepresents : Represents X (owns.flatten ++ A.outer) .int (.number (Int32.ofInt n))
        (Int32.ofInt n).toInt := .number
    rw [heq] at hrepresents
    exact hrepresents
  | place p =>
    obtain ⟨place, hplace, rfl, rfl⟩ := Context.valueOf?_place.1 hvalue
    exact h.fetch hX hA hS hplace

theorem number (h : Related X A S.scope.frames owns σ M) (hX : X.Sound) (hA : A.Fits X)
    (hS : S.Serves X A) {v : Tree.Value} {value : Value}
    (hvalue : S.valueOf? .int v = some value) :
    ∃ n : Int32, σ.eval? v = some (.number n) ∧ value.word X.platform M = n.toInt := by
  obtain ⟨d, heval, hrepresents, -⟩ := h.eval hX hA hS hvalue
  generalize value.word X.platform M = w at hrepresents
  cases hrepresents with
  | @number n => exact ⟨n, heval, rfl⟩

/-! ### Changes -/

/-- The objects of a routine lie below its frame pointer, and those of its callers above. -/
theorem covers_cases (h : Related X A frames owns σ M) (hA : A.Fits X) {o : Placed}
    (ho : o ∈ owns.flatten ++ A.outer) {a : Int} (ha : o.Covers X.program a) :
    (M.registers .esp ≤ a ∧ a ≤ A.bp - 4) ∨ (o ∈ A.outer ∧ A.top ≤ a ∧ a < X.base) := by
  rcases List.mem_append.1 ho with ho | ho
  · rw [h.esp]
    exact .inl (h.frames.within o ho a ha)
  · have hwithin := hA.outer o ho a ha
    exact .inr ⟨ho, hwithin.1, by omega⟩

theorem esp_le (h : Related X A frames owns σ M) : M.registers .esp ≤ A.bp := by
  rw [h.esp]
  omega

/-- All objects lie above the stack pointer and below where the stack begins. -/
theorem within_stack (h : Related X A frames owns σ M) (hA : A.Fits X) :
    ∀ o ∈ owns.flatten ++ A.outer, o.Within X.program (M.registers .esp) (X.base - 1) := by
  intro o ho a ha
  have hle := h.esp_le
  have hbase := hA.below
  have htop := A.le_top
  rcases h.covers_cases hA ho ha with hbounds | ⟨-, hbounds⟩ <;> omega

/-- Memory that agrees from the stack pointer upwards holds the same objects. -/
theorem objects_congr (h : Related X A frames owns σ M) (hA : A.Fits X) {memory : Int → Int}
    (hmemory : ∀ a, M.registers .esp ≤ a → memory a = M.memory a) :
    ∀ o ∈ owns.flatten ++ A.outer, o.Holds X.program σ.heap memory :=
  fun o ho => (h.objects o ho).congr fun a ha => hmemory a (h.within_stack hA o ho a ha).1

/-- The words that the caller has pushed belong to no object. -/
theorem private_receiver (h : Related X A frames owns σ M) (hA : A.Fits X) :
    Private X.program (owns.flatten ++ A.outer) (A.bp + 8) := by
  intro o ho hcovers
  have htop := A.le_top
  rcases h.covers_cases hA ho hcovers with hbounds | ⟨-, hbounds⟩ <;> omega

theorem private_parameter (h : Related X A frames owns σ M) (hA : A.Fits X)
    (hsome : A.parameter.isSome) : Private X.program (owns.flatten ++ A.outer) (A.bp + 12) := by
  intro o ho hcovers
  have htop := Activation.top_of_isSome hsome
  rcases h.covers_cases hA ho hcovers with hbounds | ⟨-, hbounds⟩ <;> omega

/-- The word for the parameter matters only if there is one. -/
theorem parameter_congr (h : Related X A frames owns σ M) {memory : Int → Int}
    (hword : A.parameter.isSome → memory (A.bp + 12) = M.memory (A.bp + 12)) :
    Option.Rel (fun (s : Symbol) (q : String × Datum) => q.1 = s.name ∧
      Represents X A.outer s.type q.2 (memory (A.bp + 12))) A.parameter σ.parameter := by
  have hrel := h.parameter
  generalize A.parameter = parameter at hword hrel ⊢
  generalize σ.parameter = q at hrel ⊢
  cases hrel with
  | none => exact .none
  | some hq =>
    rw [← hword rfl] at hq
    exact .some hq

theorem private_below (h : Related X A frames owns σ M) (hA : A.Fits X) {a : Int}
    (ha : a < M.registers .esp) : Private X.program (owns.flatten ++ A.outer) a := by
  intro o ho hcovers
  have hwithin := h.within_stack hA o ho a hcovers
  omega

theorem private_base (h : Related X A frames owns σ M) (hA : A.Fits X) {a : Int}
    (ha : X.base ≤ a) : Private X.program (owns.flatten ++ A.outer) a := by
  intro o ho hcovers
  have hwithin := h.within_stack hA o ho a hcovers
  omega

/-- The relation is about the memory from the stack pointer upwards. -/
theorem congr (h : Related X A frames owns σ M) (hA : A.Fits X)
    (hebp : M'.registers .ebp = M.registers .ebp) (hesp : M'.registers .esp = M.registers .esp)
    (hmemory : ∀ a, M.registers .esp ≤ a → M'.memory a = M.memory a)
    {o : List Output} (houtput : M'.output = M.output ++ o) :
    Related X A frames owns { σ with output := σ.output ++ o } M' := by
  have hle := h.esp_le
  have hbase := hA.below
  refine ⟨hebp.trans h.ebp, hesp.trans h.esp, ?_, ?_, ?_, h.objects_congr hA hmemory, h.apart, ?_,
    ?_⟩
  · refine h.frames.imp fun a hlow _ hprivate => ⟨hmemory a ?_, hprivate⟩
    rw [h.esp]
    exact hlow
  · rw [hmemory _ (by omega)]
    exact h.parameter
  · rw [hmemory _ (by omega)]
    exact h.receiver
  · intro a ha
    rw [hmemory a (by omega)]
    exact h.above a ha
  · rw [houtput, h.output, List.append_assoc]

/-- Memory below the stack pointer and the other registers do not matter. -/
theorem scratch (h : Related X A frames owns σ M) (hA : A.Fits X)
    (hebp : M'.registers .ebp = M.registers .ebp) (hesp : M'.registers .esp = M.registers .esp)
    (hmemory : ∀ a, M.registers .esp ≤ a → M'.memory a = M.memory a)
    (houtput : M'.output = M.output) : Related X A frames owns σ M' := by
  have hrelated := h.congr hA hebp hesp hmemory (o := []) (by simpa using houtput)
  simpa using hrelated

theorem setRecord (h : Related X A frames owns σ M) (hA : A.Fits X) {o : Placed}
    (ho : o ∈ owns.flatten ++ A.outer) {record : Record}
    (hfields : ∀ (i : Nat) f, (X.program.fields o.ref.className)[i]? = some f →
      M'.memory (o.address - 4 * i) = (record f).toInt)
    (hmemory : ∀ a, ¬ o.Covers X.program a → M'.memory a = M.memory a)
    (hebp : M'.registers .ebp = M.registers .ebp) (hesp : M'.registers .esp = M.registers .esp)
    (houtput : M'.output = M.output) :
    Related X A frames owns (σ.setRecord o.ref record) M' ∧ A.Keeps X M M' := by
  have hprivate : ∀ a, Private X.program (owns.flatten ++ A.outer) a → M'.memory a = M.memory a :=
    fun a ha => hmemory a (ha o ho)
  refine ⟨⟨hebp.trans h.ebp, hesp.trans h.esp, ?_, ?_, ?_, fun o' ho' => ?_, h.apart, ?_,
    houtput.trans h.output⟩, ?_⟩
  · exact h.frames.imp fun a _ _ ha => ⟨hprivate a ha, ha⟩
  · exact h.parameter_congr fun hsome => hprivate _ (h.private_parameter hA hsome)
  · rw [hprivate _ (h.private_receiver hA)]
    exact h.receiver
  · have hlocation := (h.objects o ho).location_lt
    by_cases heq : o' = o
    · subst heq
      refine ⟨record, ?_, hfields⟩
      rw [Source.State.setRecord, List.getElem?_set_self hlocation]
    · have hapart : o'.Apart X.program o :=
        h.apart.forall ho' ho heq
      obtain ⟨record', hrecord, hholds⟩ :=
        (h.objects o' ho').congr fun a ha => hmemory a (hapart.2 a ha)
      refine ⟨record', ?_, hholds⟩
      rw [Source.State.setRecord, List.getElem?_set_ne hapart.1.symm]
      exact hrecord
  · intro a ha
    rw [hprivate a (h.private_base hA ha)]
    exact h.above a ha
  · intro a hlow _ houter
    refine hmemory a fun hcovers => ?_
    rcases h.covers_cases hA ho hcovers with hbounds | ⟨ho, -⟩
    · omega
    · exact houter o ho hcovers

theorem setField (h : Related X A frames owns σ M) (hX : X.Sound) (hA : A.Fits X) {o : Placed}
    (ho : o ∈ owns.flatten ++ A.outer) {f : String} {i : Nat}
    (hindex : A.table.fieldIndex? o.ref.className f = some i) (n : Int32)
    (hmemory : M'.memory = Function.update M.memory (o.address - 4 * i) n.toInt)
    (hebp : M'.registers .ebp = M.registers .ebp) (hesp : M'.registers .esp = M.registers .esp)
    (houtput : M'.output = M.output) :
    ∃ σ', σ.setField? o.ref f n = some σ' ∧ Related X A frames owns σ' M' ∧ A.Keeps X M M' := by
  have hf := hA.field hX hindex
  have hlt : i < o.size X.program := (List.getElem?_eq_some_iff.1 hf).1
  obtain ⟨record, hrecord, hfields⟩ := h.objects o ho
  refine ⟨σ.setRecord o.ref (Function.update record f n), ?_,
    h.setRecord hA ho (fun j g hg => ?_) (fun a ha => ?_) hebp hesp houtput⟩
  · rw [Source.State.setField?, Source.State.record?, hrecord, Option.map_some]
  · rw [hmemory]
    by_cases heq : j = i
    · subst heq
      rw [hf, Option.some.injEq] at hg
      subst hg
      rw [Function.update_self, Function.update_self]
    · have hne : g ≠ f := by
        rintro rfl
        have hlt' := (List.getElem?_eq_some_iff.1 hg).1
        exact heq ((List.getElem?_inj hlt' (hX.nodup_fields _)).1 (hg.trans hf.symm))
      rw [Function.update_of_ne (by omega), Function.update_of_ne hne]
      exact hfields j g hg
  · rw [hmemory]
    refine Function.update_of_ne (fun heq => ha ?_) ..
    rw [heq]
    exact Placed.covers_field hlt

/-- A word that belongs to no object is written to.  What is left to see is that the blocks and the
    parameter are as they should be. -/
theorem writeWord (h : Related X A frames owns σ M) {cell w : Int}
    (hprivate : Private X.program (owns.flatten ++ A.outer) cell) (hreceiver : cell ≠ A.bp + 8)
    (hbase : cell < X.base) (hmemory : M'.memory = Function.update M.memory cell w)
    (hebp : M'.registers .ebp = M.registers .ebp) (hesp : M'.registers .esp = M.registers .esp)
    (houtput : M'.output = M.output) {blocks : List Bindings}
    {parameter : Option (String × Datum)}
    (hframes : FramesHold X A.table (owns.flatten ++ A.outer) M'.memory A.bp frames blocks owns)
    (hparameter : Option.Rel (fun (s : Symbol) (q : String × Datum) => q.1 = s.name ∧
      Represents X A.outer s.type q.2 (M'.memory (A.bp + 12))) A.parameter parameter) :
    Related X A frames owns { σ with frames := blocks, parameter } M' := by
  have hother : ∀ a, a ≠ cell → M'.memory a = M.memory a := by
    intro a ha
    rw [hmemory, Function.update_of_ne ha]
  refine ⟨hebp.trans h.ebp, hesp.trans h.esp, hframes, hparameter, ?_, fun o ho => ?_, h.apart,
    fun a ha => ?_, houtput.trans h.output⟩
  · rw [hother _ hreceiver.symm]
    exact h.receiver
  · refine (h.objects o ho).congr fun a ha => hother a ?_
    rintro rfl
    exact hprivate o ho ha
  · rw [hother a (by omega)]
    exact h.above a ha

theorem setVariable (h : Related X A frames owns σ M) (hA : A.Fits X) {x : String} {offset : Nat}
    {n : Int32} (hnumber : σ.frames.findSome? (·.find? x) = some (.number n))
    (hoffset : Scope.offsetIn? A.table x frames = some offset)
    (hprivate : Private X.program (owns.flatten ++ A.outer) (A.bp - offset)) (n' : Int32)
    (hmemory : M'.memory = Function.update M.memory (A.bp - offset) n'.toInt)
    (hebp : M'.registers .ebp = M.registers .ebp) (hesp : M'.registers .esp = M.registers .esp)
    (houtput : M'.output = M.output) :
    ∃ σ', σ.assign? x (.number n') = some σ' ∧ Related X A frames owns σ' M' ∧
      A.Keeps X M M' := by
  obtain ⟨hlow, -, outer, hset, hframes⟩ := h.frames.set n' hoffset hnumber
  have hbelow := hA.below
  have hother : ∀ a, a ≠ A.bp - offset → M'.memory a = M.memory a := by
    intro a ha
    rw [hmemory, Function.update_of_ne ha]
  exact ⟨{ σ with frames := outer }, by rw [Source.State.assign?, hset],
    h.writeWord hprivate (by omega) (by omega) hmemory hebp hesp houtput (hmemory ▸ hframes)
      (h.parameter_congr fun _ => hother _ (by omega)),
    .of_memory fun a ha => hother a (by omega)⟩

theorem setParameter (h : Related X A frames owns σ M) (hA : A.Fits X) {x : String} {s : Symbol}
    {d : Datum} (hframes : σ.frames.findSome? (·.find? x) = none)
    (hparameter : A.parameter = some s) (hstate : σ.parameter = some (x, d)) (htype : s.type = .int)
    (n : Int32) (hmemory : M'.memory = Function.update M.memory (A.bp + 12) n.toInt)
    (hebp : M'.registers .ebp = M.registers .ebp) (hesp : M'.registers .esp = M.registers .esp)
    (houtput : M'.output = M.output) :
    ∃ σ', σ.assign? x (.number n) = some σ' ∧ Related X A frames owns σ' M' ∧
      A.Keeps X M M' := by
  have hsome : A.parameter.isSome := by rw [hparameter, Option.isSome_some]
  have hprivate := h.private_parameter hA hsome
  have hother : ∀ a, a ≠ A.bp + 12 → M'.memory a = M.memory a := by
    intro a ha
    rw [hmemory, Function.update_of_ne ha]
  have hbase : A.bp + 16 ≤ X.base := by
    rw [← Activation.top_of_isSome hsome]
    refine hA.pushed (Option.isSome_iff_ne_none.2 fun hnone => ?_)
    rw [hA.alone hnone] at hsome
    cases hsome
  have hname : x = s.name := by
    have hrel := h.parameter
    rw [hparameter, hstate] at hrel
    cases hrel with
    | some hq => exact hq.1
  refine ⟨{ σ with parameter := some (x, .number n) }, ?_,
    h.writeWord hprivate (by omega) (by omega) hmemory hebp hesp houtput ?_ ?_,
    fun a _ hne _ => hother a (hne hsome)⟩
  · rw [Source.State.assign?, Bindings.setInnermost?_eq_none hframes, hstate]
    simp
  · exact h.frames.imp fun a _ hhigh ha => ⟨hother a (by omega), ha⟩
  · rw [hparameter, hmemory, Function.update_self]
    refine .some ⟨hname, ?_⟩
    rw [htype]
    exact .number

theorem storeNumber (h : Related X A S.scope.frames owns σ M) (hX : X.Sound) (hA : A.Fits X)
    (hS : S.Serves X A) {p : Tree.Place} {place : Place} (hplace : S.place? p = some place)
    (htype : place.type = .int) (n : Int32)
    (hmemory : M'.memory = Function.update M.memory (place.location X.platform M) n.toInt)
    (hebp : M'.registers .ebp = M.registers .ebp) (hesp : M'.registers .esp = M.registers .esp)
    (houtput : M'.output = M.output) :
    ∃ σ', σ.storeNumber? n p = some σ' ∧ Related X A S.scope.frames owns σ' M' ∧
      A.Keeps X M M' := by
  cases p with
  | «variable» x =>
    obtain ⟨s, hs, storage, hstorage, rfl⟩ := Context.place?_variable.1 hplace
    obtain ⟨d, hlookup, hfound⟩ := h.found hS hs hstorage
    cases hfound with
    | text | object => cases htype
    | number hframes hoffset _ hprivate =>
      simp only [Place.location, Symbol.onStack, Storage.pointer, h.ebp] at hmemory
      simp only [Source.State.storeNumber?, hlookup]
      exact h.setVariable hA hframes hoffset hprivate n hmemory hebp hesp houtput
    | parameter hframes hparameter hstate hrepresents =>
      have hint : s.type = .int := htype
      simp only [Place.location, hint, h.ebp] at hmemory
      rw [hint] at hrepresents
      generalize M.memory (A.bp + 12) = w at hrepresents
      cases hrepresents with
      | number =>
        simp only [Source.State.storeNumber?, hlookup]
        exact h.setParameter hA hframes hparameter hstate hint n hmemory hebp hesp houtput
  | receiverField f =>
    obtain ⟨c, howner, i, hindex, rfl⟩ := Context.place?_receiverField.1 hplace
    obtain ⟨ref, rfl, hreceiver, ho⟩ := h.exists_receiver (hS.owner ▸ howner)
    simp only [Source.State.storeNumber?, hreceiver, Option.bind_some]
    exact h.setField hX hA ho (hS.table ▸ hindex) n hmemory hebp hesp houtput
  | objectField x f =>
    obtain ⟨s, hs, c, htype', i, hindex, storage, hstorage, rfl⟩ :=
      Context.place?_objectField.1 hplace
    obtain ⟨ref, rfl, hlookup, ho, -⟩ := h.object hA hS hs hstorage htype'
    simp only [Source.State.storeNumber?, Source.State.object?, hlookup, Option.bind_some]
    exact h.setField hX hA ho (hS.table ▸ hindex) n hmemory hebp hesp houtput

/-- Two objects are the same or share no word. -/
theorem same_or_apart (h : Related X A frames owns σ M) {o o' : Placed}
    (ho : o ∈ owns.flatten ++ A.outer) (ho' : o' ∈ owns.flatten ++ A.outer)
    (hclass : o'.ref.className = o.ref.className) :
    o'.address = o.address ∨ ∀ i < o.size X.program, ∀ j < o.size X.program,
      o'.address - 4 * (i : Int) ≠ o.address - 4 * j := by
  have hsize : o'.size X.program = o.size X.program := by rw [Placed.size, Placed.size, hclass]
  by_cases heq : o' = o
  · rw [heq]
    exact .inl rfl
  · refine .inr fun i hi j hj hsame => ?_
    have hapart : o'.Apart X.program o := h.apart.forall ho' ho heq
    exact hapart.2 _ (Placed.covers_field (hsize ▸ hi)) (hsame ▸ Placed.covers_field hj)

theorem copyRecord (h : Related X A frames owns σ M) (hA : A.Fits X) {o o' : Placed}
    (ho : o ∈ owns.flatten ++ A.outer) (ho' : o' ∈ owns.flatten ++ A.outer)
    (hclass : o'.ref.className = o.ref.className)
    (hfills : M.Fills o.address (o.size X.program) (fun i => M.memory (o'.address - 4 * i)) M') :
    ∃ record, σ.record? o'.ref = some record ∧
      Related X A frames owns (σ.setRecord o.ref record) M' ∧ A.Keeps X M M' := by
  obtain ⟨record, hrecord, hfields⟩ := h.objects o' ho'
  refine ⟨record, hrecord, h.setRecord hA ho (fun i f hf => ?_) (fun a ha => ?_)
    (hfills.registers .ebp (by decide)) (hfills.registers .esp (by decide)) hfills.output⟩
  · rw [hfills.inside i (List.getElem?_eq_some_iff.1 hf).1]
    exact hfields i f (hclass ▸ hf)
  · refine hfills.outside a fun i hi heq => ha ?_
    rw [heq]
    exact Placed.covers_field hi

/-! ### Blocks -/

/-- A variable is declared, together with the objects that it owns. -/
theorem declare {frame : Frame} {own news : List Placed} {s : Symbol} {d : Datum}
    {heap : List Record} (h : Related X A (frame :: frames) (own :: owns) σ M) (hA : A.Fits X)
    (hebp : M'.registers .ebp = M.registers .ebp)
    (hesp : M'.registers .esp = M.registers .esp - A.table.slotBytes s.type)
    (hmemory : ∀ a, M.registers .esp ≤ a → M'.memory a = M.memory a)
    (houtput : M'.output = M.output) (hheap : σ.heap <+: heap)
    (hnews : ∀ o ∈ news, σ.heap.length ≤ o.ref.location ∧
      o.Within X.program (M'.registers .esp) (M.registers .esp - 4) ∧
      o.Holds X.program heap M'.memory)
    (hpairwise : news.Pairwise (Placed.Apart X.program))
    (hholds : HoldsAt X A.table (news ++ own) (news ++ ((own :: owns).flatten ++ A.outer)) M'.memory
      s d (M.registers .esp - 4)) :
    ∃ σ', { σ with heap := heap }.declare? s.name d = some σ' ∧
      Related X A ((frame ++ [s]) :: frames) ((news ++ own) :: owns) σ' M' ∧ A.Keeps X M M' := by
  have hle := h.esp_le
  have hbase := hA.below
  have hspBefore := h.esp
  have hlive : ((news ++ own) :: owns).flatten ++ A.outer =
      news ++ ((own :: owns).flatten ++ A.outer) := by
    simp [List.append_assoc]
  have hbytes := Scope.framesBytes_snoc A.table frame frames s
  -- what lies above the stack pointer belongs to no new object
  have hcell : ∀ a, M.registers .esp ≤ a →
      Private X.program ((own :: owns).flatten ++ A.outer) a →
      M'.memory a = M.memory a ∧
        Private X.program (news ++ ((own :: owns).flatten ++ A.outer)) a := by
    refine fun a ha hprivate => ⟨hmemory a ha, fun o ho hcovers => ?_⟩
    rcases List.mem_append.1 ho with ho | ho
    · have hwithin := (hnews o ho).2.1 a hcovers
      omega
    · exact hprivate o ho hcovers
  have hframes := h.frames
  generalize hσ : σ.frames = blocks at hframes
  cases hframes with
  | @cons _ bindings _ _ outer =>
    refine ⟨{ σ with heap := heap, frames := (bindings ++ [(s.name, d)]) :: outer },
      by simp only [Source.State.declare?], ?_, .of_memory fun a ha => hmemory a (by omega)⟩
    refine ⟨hebp.trans h.ebp, by omega, ?_, ?_, ?_, ?_, ?_, fun a ha => ?_,
      houtput.trans h.output⟩
    · rw [hlive]
      refine (hσ ▸ h.frames).snoc (fun a hlow => hcell a (by omega)) (fun o ho a ha => ?_)
        (hspBefore ▸ hholds)
      have hwithin := (hnews o ho).2.1 a ha
      omega
    · rw [hmemory _ (by omega)]
      exact h.parameter
    · rw [hmemory _ (by omega)]
      exact h.receiver
    · intro o ho
      rw [hlive] at ho
      rcases List.mem_append.1 ho with ho | ho
      · exact (hnews o ho).2.2
      · exact (h.objects_congr hA hmemory o ho).grow hheap
    · rw [hlive, List.pairwise_append]
      refine ⟨hpairwise, h.apart, fun o ho o' ho' => ⟨?_, fun a ha ha' => ?_⟩⟩
      · have hlt := (h.objects o' ho').location_lt
        have hge := (hnews o ho).1
        omega
      · have hwithin := (hnews o ho).2.1 a ha
        have hwithin' := h.within_stack hA o' ho' a ha'
        omega
    · rw [hmemory a (by omega)]
      exact h.above a ha

theorem enter (h : Related X A frames owns σ M) :
    Related X A ([] :: frames) ([] :: owns) σ.enter M := by
  have hlive : ([] :: owns).flatten ++ A.outer = owns.flatten ++ A.outer := rfl
  have hbytes : Scope.framesBytes A.table ([] :: frames) = Scope.framesBytes A.table frames := by
    rw [Scope.framesBytes, Frame.bytes, Nat.zero_add]
  refine ⟨h.ebp, by rw [hbytes]; exact h.esp, ?_, h.parameter, h.receiver, h.objects, h.apart,
    h.above, h.output⟩
  exact .cons .nil (by simp) (hlive ▸ h.frames)

theorem leave {frame : Frame} {own : List Placed}
    (h : Related X A (frame :: frames) (own :: owns) σ M)
    (hebp : M'.registers .ebp = M.registers .ebp)
    (hesp : M'.registers .esp = M.registers .esp + Frame.bytes A.table frame)
    (hmemory : M'.memory = M.memory) (houtput : M'.output = M.output) :
    Related X A frames owns σ.leave M' := by
  have hsub : (owns.flatten ++ A.outer).Sublist ((own :: owns).flatten ++ A.outer) := by
    rw [List.flatten_cons, List.append_assoc]
    exact List.sublist_append_right ..
  have hframes := h.frames
  generalize hσ : σ.frames = blocks at hframes
  cases hframes with
  | @cons _ bindings _ _ outer _ _ _ hframes =>
    refine ⟨hebp.trans h.ebp, ?_, ?_, by rw [hmemory]; exact h.parameter,
      by rw [hmemory]; exact h.receiver, fun o ho => ?_, h.apart.sublist hsub,
      by rw [hmemory]; exact h.above, houtput.trans h.output⟩
    · rw [hesp, h.esp, Scope.framesBytes]
      omega
    · rw [Source.State.leave, hσ, hmemory]
      exact hframes.imp fun a _ _ hprivate => ⟨rfl, fun o ho => hprivate o (hsub.subset ho)⟩
    · rw [hmemory]
      exact h.objects o (hsub.subset ho)

end Related

end ClassLang
