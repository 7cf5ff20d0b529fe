/-
  ClassLang/Proofs/StatementAcceptance.lean
  =========================================
  **Statements elaborate exactly if the static rules allow them.**

  Elaboration looks names up in tables and frames, the rules speak of a `Sight`.  Each
  standing of the pass has a sight (`Context.sight`), and the lookups agree as long as
  the tables hold no name twice and variables are stored as their type asks for, which
  is what `Context.Sound` says.  Every step of elaboration keeps a standing sound and
  changes its sight as the rules say, so blocks follow by recursion on their tree
  (`exists_elaboratesBlock`).
-/
import ClassLang.Proofs.ElaborationRules
import ClassLang.Proofs.Names
import ClassLang.Proofs.StaticRules

namespace ClassLang

/-! ### Lookups -/

/-- Where keys are distinct, a search by key finds whatever has the key. -/
theorem find?_eq_some_of_nodup {α : Type} {key : α → String} {l : List α} {n : String} {a : α}
    (h : (l.map key).Nodup) : l.find? (key · == n) = some a ↔ a ∈ l ∧ key a = n := by
  constructor
  · intro hfind
    exact ⟨List.mem_of_find?_eq_some hfind, by simpa using List.find?_some hfind⟩
  · rintro ⟨hmem, rfl⟩
    induction l with
    | nil => simp at hmem
    | cons b l ih =>
      rw [List.map_cons, List.nodup_cons] at h
      rcases List.mem_cons.1 hmem with rfl | hmem
      · simp
      · have hne : key b ≠ key a := fun heq => h.1 (heq ▸ List.mem_map_of_mem hmem)
        rw [List.find?_cons_of_neg (by simpa using hne)]
        exact ih h.2 hmem

/-- No name is in a table twice. -/
structure ClassTable.Distinct (t : ClassTable) : Prop where
  classes : (t.classes.map (·.name)).Nodup
  methods : ∀ d ∈ t.classes, (d.methods.map (·.name)).Nodup

/-- Variables are stored as their type asks for: strings have a label, all others have none, and
    neither does the parameter. -/
structure Scope.Sound (scope : Scope) : Prop where
  binding : ∀ frame ∈ scope.frames, ∀ s ∈ frame,
    s.role = .binding ∧ (s.label.isSome = true ↔ s.type = .string)
  parameter : ∀ s ∈ scope.parameter, s.role = .parameter ∧ s.label = none

/-- The surroundings are as the pass makes them. -/
structure Context.Sound (Γ : Context) : Prop where
  table : Γ.table.Distinct
  scope : Γ.scope.Sound

def Symbol.declared (s : Symbol) : String × Ty := (s.name, s.type)

/-- What a statement in the given surroundings can refer to. -/
def Context.sight (Γ : Context) : Sight where
  classes := Γ.table.classes
  owner := Γ.owner
  parameter := Γ.scope.parameter.map fun s => ⟨s.name, s.type⟩
  frame := Γ.scope.frame.map Symbol.declared
  enclosing := Γ.scope.enclosing.map (·.map Symbol.declared)

namespace ClassTable.Distinct

variable {t : ClassTable} {c : String}

theorem find?_eq_some (h : t.Distinct) {d : ClassDef} :
    t.find? c = some d ↔ d ∈ t.classes ∧ d.name = c :=
  find?_eq_some_of_nodup h.classes

theorem exists_fieldIndex? (h : t.Distinct) {f : String} :
    (∃ i, t.fieldIndex? c f = some i) ↔ ∃ d ∈ t.classes, d.name = c ∧ f ∈ d.fields := by
  have hindex : ∀ d : ClassDef, (∃ i, d.fieldIndex? f = some i) ↔ f ∈ d.fields := by
    intro d
    rw [← Option.isSome_iff_exists, ← not_iff_not, Bool.not_eq_true, Option.isSome_eq_false_iff,
      Option.isNone_iff_eq_none, ClassDef.fieldIndex?_eq_none]
  simp only [fieldIndex?, Option.bind_eq_some_iff, h.find?_eq_some]
  constructor
  · rintro ⟨i, d, ⟨hd, hname⟩, hi⟩
    exact ⟨d, hd, hname, (hindex d).1 ⟨i, hi⟩⟩
  · rintro ⟨d, hd, hname, hf⟩
    obtain ⟨i, hi⟩ := (hindex d).2 hf
    exact ⟨i, d, ⟨hd, hname⟩, hi⟩

theorem method?_eq_some (h : t.Distinct) {m : String} {s : Signature} :
    t.method? c m = some s ↔ s.name = m ∧ ∃ d ∈ t.classes, d.name = c ∧ s ∈ d.methods := by
  simp only [method?, Option.bind_eq_some_iff, h.find?_eq_some]
  constructor
  · rintro ⟨d, ⟨hd, hname⟩, hs⟩
    obtain ⟨hs, hm⟩ := (find?_eq_some_of_nodup (h.methods d hd)).1 hs
    exact ⟨hm, d, hd, hname, hs⟩
  · rintro ⟨hm, d, hd, hname, hs⟩
    exact ⟨d, ⟨hd, hname⟩, (find?_eq_some_of_nodup (h.methods d hd)).2 ⟨hs, hm⟩⟩

end ClassTable.Distinct

namespace Context

variable {Γ : Context}

theorem inFrames?_sight (Γ : Context) (x : String) :
    Γ.sight.inFrames? x = (Γ.scope.frames.findSome? (·.find? x)).map (·.type) := by
  have hflatten : Γ.scope.frame.map Symbol.declared ++
      (Γ.scope.enclosing.map (·.map Symbol.declared)).flatten =
      Γ.scope.frames.flatten.map Symbol.declared := by
    simp [Scope.frames, List.map_flatten]
  rw [Sight.inFrames?, sight, hflatten, List.find?_map, Option.map_map]
  have hfind : (Γ.scope.frames.findSome? fun frame => frame.find? x) =
      Γ.scope.frames.flatten.find? (·.name == x) := by
    rw [List.find?_flatten]
    rfl
  rw [hfind]
  rfl

theorem type?_sight (Γ : Context) (x : String) :
    Γ.sight.type? x = (Γ.scope.find? x).map (·.type) := by
  rw [Sight.type?, inFrames?_sight, Scope.find?, Option.map_or]
  congr 1
  simp only [sight, Scope.parameter?]
  cases Γ.scope.parameter with
  | none => rfl
  | some s => by_cases hs : s.name = x <;> simp [Option.filter, hs]

/-- A name stands for a variable in some frame, or for the parameter if no frame has it. -/
theorem Scope.find?_cases {scope : Scope} {x : String} {s : Symbol}
    (h : scope.find? x = some s) :
    (scope.frames.findSome? (·.find? x) = some s ∧ ∃ frame ∈ scope.frames, s ∈ frame) ∨
      (scope.frames.findSome? (·.find? x) = none ∧ scope.parameter = some s) := by
  rw [Scope.find?, Option.or_eq_some_iff] at h
  rcases h with hframes | ⟨hnone, hparameter⟩
  · obtain ⟨frame, hframe, hfind⟩ := List.exists_of_findSome?_eq_some hframes
    exact .inl ⟨hframes, frame, hframe, List.mem_of_find?_eq_some hfind⟩
  · rw [Scope.parameter?, Option.filter_eq_some_iff] at hparameter
    exact .inr ⟨hnone, hparameter.1⟩

theorem Scope.name_of_find? {scope : Scope} {x : String} {s : Symbol}
    (h : scope.find? x = some s) : s.name = x := by
  rw [Scope.find?, Option.or_eq_some_iff] at h
  rcases h with hframes | ⟨-, hparameter⟩
  · obtain ⟨frame, -, hfind⟩ := List.exists_of_findSome?_eq_some hframes
    simpa using List.find?_some hfind
  · rw [Scope.parameter?, Option.filter_eq_some_iff] at hparameter
    simpa using hparameter.2

/-- A variable in some frame has a place below the frame pointer. -/
theorem Scope.exists_offsetIn? (table : ClassTable) {x : String} {s : Symbol}
    {frames : List Frame} (h : frames.findSome? (·.find? x) = some s) :
    ∃ offset, Scope.offsetIn? table x frames = some offset := by
  induction frames with
  | nil => simp at h
  | cons frame frames ih =>
    rw [List.findSome?_cons] at h
    rw [Scope.offsetIn?]
    cases hindex : frame.findIdx? (·.name == x) with
    | some index => exact ⟨_, rfl⟩
    | none =>
      have hnone : frame.find? x = none := by
        rw [Frame.find?, List.find?_eq_none]
        rw [List.findIdx?_eq_none_iff] at hindex
        intro t ht
        rw [hindex t ht]
        simp
      rw [hnone] at h
      exact ih h

/-- Everything that a name stands for is stored somewhere. -/
theorem exists_storage (hΓ : Γ.Sound) {x : String} {s : Symbol} (h : Γ.scope.find? x = some s) :
    ∃ storage, Γ.storage s = .ok storage := by
  have hname := Scope.name_of_find? h
  unfold storage
  rcases Scope.find?_cases h with ⟨hframes, frame, hframe, hs⟩ | ⟨-, hparameter⟩
  · obtain ⟨hrole, -⟩ := hΓ.scope.binding frame hframe s hs
    obtain ⟨offset, hoffset⟩ := Scope.exists_offsetIn? Γ.table hframes
    rw [hrole]
    cases hlabel : s.label with
    | some label => exact ⟨_, rfl⟩
    | none =>
      refine ⟨.frame offset, ?_⟩
      simp only [stackOffset, hname, Scope.offset?, hoffset]
      rfl
  · obtain ⟨hrole, -⟩ := hΓ.scope.parameter s hparameter
    rw [hrole]
    exact ⟨_, rfl⟩

/-- Where something is stored tells what it is: the parameter, a string variable, or a variable with
    a place on the stack. -/
theorem storage_cases (hΓ : Γ.Sound) {x : String} {s : Symbol} {storage : Storage}
    (h : Γ.scope.find? x = some s) (hstorage : Γ.storage s = .ok storage) :
    (storage = .parameter ∧ Γ.scope.frames.findSome? (·.find? x) = none ∧
      Γ.scope.parameter = some s) ∨
    (Γ.scope.frames.findSome? (·.find? x) = some s ∧
      ((∃ label, storage = .data label ∧ s.label = some label) ∨
        ∃ offset, storage = .frame offset ∧ s.label = none ∧
          Γ.scope.offset? Γ.table x = some offset)) := by
  have hname := Scope.name_of_find? h
  unfold Context.storage at hstorage
  rcases Scope.find?_cases h with ⟨hframes, frame, hframe, hs⟩ | ⟨hnone, hparameter⟩
  · refine .inr ⟨hframes, ?_⟩
    obtain ⟨hrole, -⟩ := hΓ.scope.binding frame hframe s hs
    rw [hrole] at hstorage
    cases hlabel : s.label with
    | some label =>
      rw [hlabel] at hstorage
      cases hstorage
      exact .inl ⟨label, rfl, rfl⟩
    | none =>
      obtain ⟨offset, hoffset⟩ := Scope.exists_offsetIn? Γ.table hframes
      rw [hlabel] at hstorage
      simp only [stackOffset, hname, Scope.offset?, hoffset] at hstorage
      cases hstorage
      exact .inr ⟨offset, rfl, rfl, hoffset⟩
  · obtain ⟨hrole, -⟩ := hΓ.scope.parameter s hparameter
    rw [hrole] at hstorage
    cases hstorage
    exact .inl ⟨rfl, hnone, hparameter⟩

/-! ### Places and values -/

theorem exists_place? (hΓ : Γ.Sound) {p : Tree.Place} {type : Ty} :
    (∃ place, Γ.place? p = some place ∧ place.type = type) ↔ Γ.sight.HasPlace p type := by
  constructor
  · rintro ⟨place, hplace, rfl⟩
    cases p with
    | «variable» x =>
      obtain ⟨s, hs, storage, -, rfl⟩ := place?_variable.1 hplace
      exact .variable (by rw [type?_sight, hs]; rfl)
    | receiverField f =>
      obtain ⟨owner, howner, index, hindex, rfl⟩ := place?_receiverField.1 hplace
      exact .receiverField howner (hΓ.table.exists_fieldIndex?.1 ⟨index, hindex⟩)
    | objectField x f =>
      obtain ⟨s, hs, c, hc, index, hindex, storage, -, rfl⟩ := place?_objectField.1 hplace
      exact .objectField (by rw [type?_sight, hs, Option.map_some, hc])
        (hΓ.table.exists_fieldIndex?.1 ⟨index, hindex⟩)
  · intro h
    cases h with
    | @«variable» x type h =>
      rw [type?_sight, Option.map_eq_some_iff] at h
      obtain ⟨s, hs, rfl⟩ := h
      obtain ⟨storage, hstorage⟩ := exists_storage hΓ hs
      exact ⟨.binding s storage, place?_variable.2 ⟨s, hs, storage, hstorage, rfl⟩, rfl⟩
    | @receiverField c f howner hfield =>
      obtain ⟨index, hindex⟩ := hΓ.table.exists_fieldIndex?.2 hfield
      have howner : Γ.owner = some c := howner
      exact ⟨.receiverField f index, place?_receiverField.2 ⟨c, howner, index, hindex, rfl⟩, rfl⟩
    | @objectField x c f hobject hfield =>
      rw [type?_sight, Option.map_eq_some_iff] at hobject
      obtain ⟨s, hs, hc⟩ := hobject
      obtain ⟨index, hindex⟩ := hΓ.table.exists_fieldIndex?.2 hfield
      obtain ⟨storage, hstorage⟩ := exists_storage hΓ hs
      exact ⟨.objectField s storage f index,
        by simp [place?, hs, hc, Ty.className?, hindex, hstorage, Except.toOption], rfl⟩

theorem exists_valueOf? (hΓ : Γ.Sound) {v : Tree.Value} {type : Ty}
    (hproper : ∀ l ∈ v.yield, l.Proper) :
    (∃ value, Γ.valueOf? type v = some value) ↔ Γ.sight.HasValue v type := by
  simp only [valueOf?, Option.filter_eq_some_iff, decide_eq_true_eq]
  constructor
  · rintro ⟨value, hvalue, rfl⟩
    cases v with
    | number digits =>
      simp only [value?, Option.map_eq_some_iff] at hvalue
      obtain ⟨n, -, rfl⟩ := hvalue
      exact .number
    | place p =>
      simp only [value?, Option.map_eq_some_iff] at hvalue
      obtain ⟨place, hplace, rfl⟩ := hvalue
      exact .place ((exists_place? hΓ).1 ⟨place, hplace, rfl⟩)
  · intro h
    cases h with
    | @number digits =>
      obtain ⟨n, hn⟩ : (Lexeme.number digits).Proper := hproper _ (by simp [Tree.Value.yield])
      exact ⟨.literal n, by simp [value?, hn], rfl⟩
    | @place p type h =>
      obtain ⟨place, hplace, rfl⟩ := (exists_place? hΓ).2 h
      exact ⟨.place place, by simp [value?, hplace], rfl⟩

/-! ### Statements -/

/-- A name that is no reserved word can only name a class. -/
theorem resolveType_eq_some {c : String} {type : Ty} (hc : IsName c) :
    (Γ.table.resolveType c).toOption = some type ↔
      c ∈ Γ.table.classes.map (·.name) ∧ type = .object c := by
  have hfind : c ∈ Γ.table.classes.map (·.name) ↔ (Γ.table.find? c).isSome = true := by
    simp [ClassTable.find?, List.find?_isSome, List.mem_map]
  rw [hfind, ClassTable.resolveType, hc.ofText]
  cases hclass : Γ.table.find? c <;> simp [hclass, Except.toOption, eq_comm]

theorem type?_eq_some {t : Tree.TypeName} {type : Ty} (hproper : t.lexeme.Proper) :
    Γ.type? t = some type ↔ Γ.sight.NamesType t ∧ type = t.type := by
  cases t with
  | int => simp [type?, declaredType, Tree.TypeName.lexeme, Except.toOption, Sight.NamesType,
      Tree.TypeName.type, eq_comm]
  | string => simp [type?, declaredType, Tree.TypeName.lexeme, Except.toOption, Sight.NamesType,
      Tree.TypeName.type, eq_comm]
  | named c => exact resolveType_eq_some hproper

/-- A string variable, and not a parameter, is what the rules see in the frames. -/
theorem exists_stringLabel? (hΓ : Γ.Sound) {x : String} :
    (∃ label, Γ.stringLabel? x = some label) ↔ Γ.sight.inFrames? x = some .string := by
  rw [inFrames?_sight]
  simp only [stringLabel?_eq_some]
  constructor
  · rintro ⟨label, s, hs, htype, hlabel⟩
    rcases Scope.find?_cases hs with ⟨hframes, -⟩ | ⟨-, hparameter⟩
    · rw [hframes, Option.map_some, htype]
    · rw [(hΓ.scope.parameter s hparameter).2] at hlabel
      cases hlabel
  · intro h
    obtain ⟨s, hframes, htype⟩ := Option.map_eq_some_iff.1 h
    have hs : Γ.scope.find? x = some s := by rw [Scope.find?, hframes, Option.some_or]
    obtain ⟨frame, hframe, hfind⟩ := List.exists_of_findSome?_eq_some hframes
    have hlabel := (hΓ.scope.binding frame hframe s (List.mem_of_find?_eq_some hfind)).2.2 htype
    obtain ⟨label, hlabel⟩ := Option.isSome_iff_exists.1 hlabel
    exact ⟨label, s, hs, htype, hlabel⟩

/-- The name can be declared, as the rules see it. -/
theorem findInnermost?_eq_none {x : String} :
    Γ.scope.findInnermost? x = none ↔ Γ.sight.Free x := by
  have hframe : Γ.scope.frame.find? x = none ↔ ∀ v ∈ Γ.sight.frame, v.1 ≠ x := by
    simp [Frame.find?, sight, Symbol.declared, List.find?_eq_none]
  have hparameter : (if Γ.scope.enclosing.isEmpty then Γ.scope.parameter? x else none) = none ↔
      (Γ.sight.enclosing = [] → ∀ p ∈ Γ.sight.parameter, p.name ≠ x) := by
    simp only [sight, Scope.parameter?, List.map_eq_nil_iff, List.isEmpty_iff]
    by_cases henclosing : Γ.scope.enclosing = []
    · cases Γ.scope.parameter <;> simp [henclosing, Option.filter]
    · simp [henclosing]
  rw [Scope.findInnermost?, Option.or_eq_none_iff, hframe, hparameter]
  rfl

theorem exists_callee? (hΓ : Γ.Sound) {callee : Tree.Callee} {c m : String} :
    (∃ receiver : Receiver, Γ.callee? callee = some (receiver, m) ∧ receiver.owner = c) ↔
      Γ.sight.Calls callee c m := by
  constructor
  · rintro ⟨receiver, hcallee, rfl⟩
    cases callee with
    | bare method =>
      obtain ⟨owner, howner, heq⟩ := Option.map_eq_some_iff.1 hcallee
      cases heq
      exact .bare howner
    | receiver method =>
      obtain ⟨owner, howner, heq⟩ := Option.map_eq_some_iff.1 hcallee
      cases heq
      exact .receiver howner
    | object x method =>
      obtain ⟨s, hs, owner, htype, storage, -, rfl, rfl⟩ := callee?_object.1 hcallee
      exact .object (by rw [type?_sight, hs, Option.map_some, htype]; rfl)
  · intro h
    cases h with
    | bare howner =>
      have howner : Γ.owner = some c := howner
      exact ⟨.current c, by simp [callee?, howner], rfl⟩
    | receiver howner =>
      have howner : Γ.owner = some c := howner
      exact ⟨.current c, by simp [callee?, howner], rfl⟩
    | @object x c m hobject =>
      rw [type?_sight, Option.map_eq_some_iff] at hobject
      obtain ⟨s, hs, htype⟩ := hobject
      obtain ⟨storage, hstorage⟩ := exists_storage hΓ hs
      exact ⟨.object s c storage,
        callee?_object.2 ⟨s, hs, c, htype, storage, hstorage, rfl, rfl⟩, rfl⟩

theorem exists_argument? (hΓ : Γ.Sound) {p : Option Parameter} {a : Option Tree.Value}
    (hproper : ∀ l ∈ Tree.argumentYield a, l.Proper) :
    (∃ argument, Γ.argument? p a = some argument) ↔ Γ.sight.Passes p a := by
  constructor
  · rintro ⟨argument, hargument⟩
    unfold argument? at hargument
    split at hargument
    · exact .nothing
    · obtain ⟨value, hvalue, -⟩ := Option.map_eq_some_iff.1 hargument
      exact .value ((exists_valueOf? hΓ hproper).1 ⟨value, hvalue⟩)
    · cases hargument
  · intro h
    cases h with
    | nothing => exact ⟨none, rfl⟩
    | value h =>
      obtain ⟨value, hvalue⟩ := (exists_valueOf? hΓ hproper).2 h
      exact ⟨some value, by simp [argument?, hvalue]⟩

end Context

namespace Standing

variable {S S' : Standing}

theorem Elaborates.allows (hS : S.Sound) {s : Tree.Simple} {command : Command}
    (hproper : ∀ l ∈ s.yield, l.Proper) (h : S.Elaborates s command S') : S.sight.Allows s := by
  have hdeclare : ∀ {t : Tree.TypeName} {x : String} {i : Tree.Initial} {type : Ty},
      t.lexeme.Proper → S.type? t = some type → S.scope.findInnermost? x = none →
      S.sight.Begins type i → S.sight.Allows (.declare t x i) := by
    intro t x i type ht htype hfree hinitial
    obtain ⟨hnames, rfl⟩ := (Context.type?_eq_some ht).1 htype
    exact .declare hnames (Context.findInnermost?_eq_none.1 hfree) hinitial
  cases h with
  | number htype hfree hvalue =>
    simp only [Tree.Simple.yield, List.forall_mem_cons, List.forall_mem_append,
      Tree.Initial.yield] at hproper
    exact hdeclare hproper.1 htype hfree
      (.number ((Context.exists_valueOf? hS hproper.2.2.2.1).1 ⟨_, hvalue⟩))
  | text htype hfree =>
    simp only [Tree.Simple.yield, List.forall_mem_cons] at hproper
    exact hdeclare hproper.1 htype hfree .text
  | string htype hfree hlabel =>
    simp only [Tree.Simple.yield, List.forall_mem_cons] at hproper
    exact hdeclare hproper.1 htype hfree
      (.string ((Context.exists_stringLabel? hS).1 ⟨_, hlabel⟩))
  | create htype hfree hcreated =>
    simp only [Tree.Simple.yield, Tree.Initial.yield, List.forall_mem_cons,
      List.forall_mem_append] at hproper
    obtain ⟨-, heq⟩ := (Context.resolveType_eq_some hproper.2.2.2.1.1).1 hcreated
    cases heq
    exact hdeclare hproper.1 htype hfree .create
  | copy htype hfree hvalue =>
    simp only [Tree.Simple.yield, List.forall_mem_cons, List.forall_mem_append,
      Tree.Initial.yield] at hproper
    exact hdeclare hproper.1 htype hfree
      (.copy ((Context.exists_valueOf? hS hproper.2.2.2.1).1 ⟨_, hvalue⟩))
  | assignNumber htarget htype hvalue =>
    simp only [Tree.Simple.yield, List.forall_mem_cons, List.forall_mem_append] at hproper
    exact .assign ((Context.exists_place? hS).1 ⟨_, htarget, htype⟩) (by simp)
      ((Context.exists_valueOf? hS hproper.2.2.1).1 ⟨_, hvalue⟩)
  | assignObject htarget htype hvalue =>
    simp only [Tree.Simple.yield, List.forall_mem_cons, List.forall_mem_append] at hproper
    exact .assign ((Context.exists_place? hS).1 ⟨_, htarget, htype⟩) (by simp)
      ((Context.exists_valueOf? hS hproper.2.2.1).1 ⟨_, hvalue⟩)
  | call hcallee hmethod hargument =>
    simp only [Tree.Simple.yield, List.forall_mem_cons, List.forall_mem_append] at hproper
    obtain ⟨hname, d, hd, howner, hmem⟩ := hS.table.method?_eq_some.1 hmethod
    subst hname
    exact .call ((Context.exists_callee? hS).1 ⟨_, hcallee, rfl⟩) ⟨d, hd, howner, hmem⟩
      ((Context.exists_argument? hS hproper.2.2.1).1 ⟨_, hargument⟩)
  | print hvalue =>
    simp only [Tree.Simple.yield, List.forall_mem_cons, List.forall_mem_append] at hproper
    exact .print ((Context.exists_valueOf? hS hproper.2.2.1).1 ⟨_, hvalue⟩)
  | printLiteral => exact .printText .literal
  | printVariable hsymbol htype =>
    exact .printText (.variable (by rw [Context.type?_sight, hsymbol, Option.map_some, htype]))

theorem exists_elaborates (hS : S.Sound) {s : Tree.Simple} (hproper : ∀ l ∈ s.yield, l.Proper)
    (h : S.sight.Allows s) : ∃ command S', S.Elaborates s command S' := by
  cases h with
  | @declare t x i htype hfree hinitial =>
    simp only [Tree.Simple.yield, List.forall_mem_cons, List.forall_mem_append] at hproper
    have htype' := (Context.type?_eq_some hproper.1).2 ⟨htype, rfl⟩
    have hfree := Context.findInnermost?_eq_none.2 hfree
    cases t with
    | int =>
      cases hinitial with
      | number hvalue =>
        obtain ⟨value, hvalue⟩ := (Context.exists_valueOf? hS hproper.2.2.2.1).2 hvalue
        exact ⟨_, _, .number htype' hfree hvalue⟩
    | string =>
      cases hinitial with
      | text => exact ⟨_, _, .text htype' hfree⟩
      | string hlabel =>
        obtain ⟨label, hlabel⟩ := (Context.exists_stringLabel? hS).2 hlabel
        exact ⟨_, _, .string htype' hfree hlabel⟩
    | named c =>
      cases hinitial with
      | create =>
        simp only [Tree.Initial.yield, List.forall_mem_cons] at hproper
        exact ⟨_, _, .create htype' hfree
          ((Context.resolveType_eq_some hproper.2.2.2.1.1).2 ⟨htype, rfl⟩)⟩
      | copy hvalue =>
        obtain ⟨value, hvalue⟩ := (Context.exists_valueOf? hS hproper.2.2.2.1).2 hvalue
        exact ⟨_, _, .copy htype' hfree hvalue⟩
  | @assign p v type htarget htype hvalue =>
    simp only [Tree.Simple.yield, List.forall_mem_cons, List.forall_mem_append] at hproper
    obtain ⟨target, hplace, rfl⟩ := (Context.exists_place? hS).2 htarget
    obtain ⟨value, hvalue⟩ := (Context.exists_valueOf? hS hproper.2.2.1).2 hvalue
    cases hcase : target.type with
    | int => exact ⟨_, _, .assignNumber hplace hcase (hcase ▸ hvalue)⟩
    | string => exact absurd hcase htype
    | object c => exact ⟨_, _, .assignObject hplace hcase (hcase ▸ hvalue)⟩
  | @call callee c m p a hcallee hmethod hargument =>
    simp only [Tree.Simple.yield, List.forall_mem_cons, List.forall_mem_append] at hproper
    obtain ⟨receiver, hreceiver, rfl⟩ := (Context.exists_callee? hS).2 hcallee
    obtain ⟨d, hd, howner, hmem⟩ := hmethod
    obtain ⟨argument, hargument⟩ := (Context.exists_argument? hS hproper.2.2.1).2 hargument
    exact ⟨_, _, .call hreceiver (hS.table.method?_eq_some.2 ⟨rfl, d, hd, howner, hmem⟩)
      hargument⟩
  | print hvalue =>
    simp only [Tree.Simple.yield, List.forall_mem_cons, List.forall_mem_append] at hproper
    obtain ⟨value, hvalue⟩ := (Context.exists_valueOf? hS hproper.2.2.1).2 hvalue
    exact ⟨_, _, .print hvalue⟩
  | printText hwrites =>
    cases hwrites with
    | literal => exact ⟨_, _, .printLiteral⟩
    | «variable» hvariable =>
      rw [Context.type?_sight, Option.map_eq_some_iff] at hvariable
      obtain ⟨s, hs, htype⟩ := hvariable
      exact ⟨_, _, .printVariable hs htype⟩

end Standing

/-! ### Blocks -/

theorem Scope.Sound.extend {scope : Scope} (h : scope.Sound) {s : Symbol}
    (hrole : s.role = .binding) (hlabel : s.label.isSome = true ↔ s.type = .string) :
    (scope.extend s).Sound := by
  refine ⟨fun frame hframe t ht => ?_, h.parameter⟩
  rcases List.mem_cons.1 hframe with rfl | hframe
  · rcases List.mem_append.1 ht with ht | ht
    · exact h.binding _ (List.mem_cons_self ..) t ht
    · rw [List.mem_singleton.1 ht]
      exact ⟨hrole, hlabel⟩
  · exact h.binding frame (List.mem_cons_of_mem _ hframe) t ht

theorem Scope.Sound.push {scope : Scope} (h : scope.Sound) : scope.push.Sound := by
  refine ⟨fun frame hframe s hs => ?_, h.parameter⟩
  rcases List.mem_cons.1 hframe with rfl | hframe
  · simp [Scope.push] at hs
  · exact h.binding frame hframe s hs

namespace Standing

variable {S S' : Standing}

theorem sound_enter (hS : S.Sound) : S.draw.enter.Sound := ⟨hS.table, hS.scope.push⟩

theorem Keeps.sound_leave {S₁ : Standing} (h : S.draw.enter.Keeps S₁) (hS : S.Sound) :
    S₁.leave.Sound :=
  ⟨h.table ▸ hS.table, h.scope_leave ▸ hS.scope⟩

theorem Elaborates.sound (hS : S.Sound) {s : Tree.Simple} {command : Command}
    (h : S.Elaborates s command S') : S'.Sound := by
  cases h with
  | number | create | copy => exact ⟨hS.table, hS.scope.extend rfl (by simp [Symbol.onStack])⟩
  | text | string => exact ⟨hS.table, hS.scope.extend rfl (by simp [Symbol.inData])⟩
  | _ => exact ⟨hS.table, hS.scope⟩

/-- Behind a statement the rules see what they say. -/
theorem Elaborates.sight {s : Tree.Simple} {command : Command}
    (hproper : ∀ l ∈ s.yield, l.Proper) (h : S.Elaborates s command S') :
    S'.sight = S.sight.after s := by
  have hdeclare : ∀ {t : Tree.TypeName} {x : String} {i : Tree.Initial} {type : Ty},
      (∀ l ∈ (Tree.Simple.declare t x i).yield, l.Proper) → S.type? t = some type →
      { S.sight with frame := S.sight.frame ++ [(x, type)] } =
        S.sight.after (.declare t x i) := by
    intro t x i type ht htype
    simp only [Tree.Simple.yield, List.forall_mem_cons] at ht
    obtain ⟨-, rfl⟩ := (Context.type?_eq_some ht.1).1 htype
    rfl
  have hextend : ∀ (S : Standing) (s : Symbol), (S.extend s).sight =
      { S.sight with frame := S.sight.frame ++ [s.declared] } := by
    intro S s
    simp [Context.sight, extend, Scope.extend]
  cases h with
  | number htype | text htype | string htype | create htype | copy htype =>
    exact (hextend _ _).trans (hdeclare hproper htype)
  | _ => rfl

theorem Elaborates.labels {s : Tree.Simple} {command : Command}
    (h : S.Elaborates s command S') : S'.labels = S.labels + s.numbers := by
  cases h <;> rfl

theorem ElaboratesBlock.labels {t : Tree.Block} {body : Body}
    (h : ElaboratesBlock S t body S') : S'.labels = S.labels + t.numbers := by
  induction h with
  | finish => rfl
  | simple hsimple _ ih =>
    rw [ih, hsimple.labels, Tree.Block.numbers]
    omega
  | @branch S S₁ _ _ _ _ inner _ _ _ _ _ _ ihInner ihRest =>
    have hinner : S₁.labels = S.labels + 1 + inner.numbers := ihInner
    have hleave : S₁.leave.labels = S₁.labels := rfl
    rw [ihRest, hleave, hinner, Tree.Block.numbers]
    omega

/-- Behind a block the rules see what they saw before. -/
theorem Keeps.sight_leave {S₁ : Standing} (h : S.draw.enter.Keeps S₁) :
    S₁.leave.sight = S.sight := by
  have htable : S₁.leave.table = S.table := h.table
  have howner : S₁.leave.owner = S.owner := h.owner
  simp only [Context.sight, h.scope_leave, htable, howner]

theorem exists_condition? (hS : S.Sound) {c : Tree.Condition}
    (hproper : ∀ l ∈ c.yield, l.Proper) :
    (∃ condition, S.condition? c = some condition) ↔ S.sight.Compares c := by
  simp only [Tree.Condition.yield, List.forall_mem_cons, List.forall_mem_append] at hproper
  simp only [Context.condition?_eq_some, Sight.Compares, ← Context.exists_valueOf? hS hproper.2.1,
    ← Context.exists_valueOf? hS hproper.2.2.2.1]
  constructor
  · rintro ⟨_, left, hleft, right, hright, rfl⟩
    exact ⟨⟨left, hleft⟩, right, hright⟩
  · rintro ⟨⟨left, hleft⟩, right, hright⟩
    exact ⟨_, left, hleft, right, hright, rfl⟩

/-- A block elaborates exactly if the rules allow it. -/
theorem exists_elaboratesBlock (hS : S.Sound) {t : Tree.Block}
    (hproper : ∀ l ∈ t.yield, l.Proper) :
    (∃ body S', ElaboratesBlock S t body S') ↔ S.sight.AllowsBlock t := by
  induction t generalizing S with
  | finish => exact ⟨fun _ => .finish, fun _ => ⟨_, _, .finish⟩⟩
  | simple s rest ih =>
    simp only [Tree.Block.yield, List.forall_mem_append] at hproper
    constructor
    · rintro ⟨_, _, h⟩
      cases h with
      | simple hsimple hrest =>
        refine .simple (hsimple.allows hS hproper.1) ?_
        rw [← hsimple.sight hproper.1]
        exact (ih (hsimple.sound hS) hproper.2).1 ⟨_, _, hrest⟩
    · intro h
      cases h with
      | simple hsimple hrest =>
        obtain ⟨command, S₁, hsimple⟩ := exists_elaborates hS hproper.1 hsimple
        rw [← hsimple.sight hproper.1] at hrest
        obtain ⟨body, S₂, hrest⟩ := (ih (hsimple.sound hS) hproper.2).2 hrest
        exact ⟨_, _, .simple hsimple hrest⟩
  | branch kind c inner rest ihInner ihRest =>
    simp only [Tree.Block.yield, List.forall_mem_cons, List.forall_mem_append] at hproper
    obtain ⟨-, hc, -, hi, -, hr⟩ := hproper
    have henter := sound_enter hS
    constructor
    · rintro ⟨_, _, h⟩
      cases h with
      | branch hcondition hinner hrest =>
        refine .branch ((exists_condition? hS hc).1 ⟨_, hcondition⟩)
          ((ihInner henter hi).1 ⟨_, _, hinner⟩) ?_
        rw [← hinner.keeps.sight_leave]
        exact (ihRest (hinner.keeps.sound_leave hS) hr).1 ⟨_, _, hrest⟩
    · intro h
      cases h with
      | branch hcondition hinner hrest =>
        obtain ⟨condition, hcondition⟩ := (exists_condition? hS hc).2 hcondition
        obtain ⟨innerBody, S₁, hinner⟩ := (ihInner henter hi).2 hinner
        rw [← hinner.keeps.sight_leave] at hrest
        obtain ⟨restBody, S₂, hrest⟩ := (ihRest (hinner.keeps.sound_leave hS) hr).2 hrest
        exact ⟨_, _, .branch hcondition hinner hrest⟩

end Standing

end ClassLang
