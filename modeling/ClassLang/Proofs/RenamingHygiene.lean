/-
  ClassLang/Proofs/RenamingHygiene.lean
  =====================================
  **Names of variables, parameters and fields leave no trace in the code.**

  A renaming that leaves classes, methods and string variables alone changes nothing
  that elaboration makes labels of.  Elaborating the renamed tree is then, step by step,
  elaborating the tree and renaming what comes out: the standings correspond by
  `Standing.rename`, and each rule of elaboration has its premises kept
  (`Elaborates.rename`).  What a look-up needs is only that the renaming is injective; what
  it finds by the name of a class or a method needs that the table holds no name which is
  renamed (`ClassTable.KeptBy`).

  The main statement is `renaming_hygiene`.
-/
import Mathlib.Logic.Equiv.Basic
import ClassLang.Proofs.Renaming
import ClassLang.Proofs.SemanticPreservation

namespace ClassLang

/-! ### Look-ups in the surroundings -/

def Context.rename (ρ : Renaming) (Γ : Context) : Context :=
  { Γ with table := Γ.table.rename ρ, scope := Γ.scope.rename ρ }

namespace Context

variable (ρ : Renaming) (Γ : Context)

@[simp]
theorem table_rename : (Γ.rename ρ).table = Γ.table.rename ρ := rfl

@[simp]
theorem scope_rename : (Γ.rename ρ).scope = Γ.scope.rename ρ := rfl

@[simp]
theorem owner_rename : (Γ.rename ρ).owner = Γ.owner := rfl

theorem storage_rename (s : Symbol) :
    ((Γ.rename ρ).storage (s.rename ρ)).toOption = (Γ.storage s).toOption := by
  obtain ⟨x, type, role, label⟩ := s
  cases role with
  | parameter => rfl
  | binding =>
    cases label with
    | some label => rfl
    | none =>
      simp only [storage, Symbol.rename, stackOffset, scope_rename, table_rename,
        Scope.offset?_rename]
      cases Γ.scope.offset? Γ.table x <;> rfl

theorem place?_rename (p : Tree.Place) :
    (Γ.rename ρ).place? (p.rename ρ) = (Γ.place? p).map (Place.rename ρ) := by
  cases p with
  | «variable» x =>
    simp only [Tree.Place.rename, place?, scope_rename, Scope.find?_rename]
    cases Γ.scope.find? x with
    | none => rfl
    | some s =>
      simp only [Option.map_some, Option.bind_eq_bind, Option.bind_some, storage_rename]
      cases (Γ.storage s).toOption <;> rfl
  | receiverField f =>
    simp only [Tree.Place.rename, place?, owner_rename]
    cases Γ.owner with
    | none => rfl
    | some owner =>
      simp only [Option.bind_eq_bind, Option.bind_some, table_rename,
        ClassTable.fieldIndex?_rename]
      cases Γ.table.fieldIndex? owner f <;> rfl
  | objectField x f =>
    simp only [Tree.Place.rename, place?, scope_rename, Scope.find?_rename]
    cases Γ.scope.find? x with
    | none => rfl
    | some s =>
      have htype : (s.rename ρ).type = s.type := rfl
      simp only [Option.map_some, Option.bind_eq_bind, Option.bind_some, storage_rename, htype,
        table_rename, ClassTable.fieldIndex?_rename]
      cases s.type.className? with
      | none => rfl
      | some c =>
        simp only [Option.bind_some]
        cases Γ.table.fieldIndex? c f with
        | none => rfl
        | some index => cases (Γ.storage s).toOption <;> rfl

theorem value?_rename (v : Tree.Value) :
    (Γ.rename ρ).value? (v.rename ρ) = (Γ.value? v).map (Value.rename ρ) := by
  cases v with
  | number digits =>
    simp only [Tree.Value.rename, value?, Option.map_map]
    rfl
  | place p =>
    simp only [Tree.Value.rename, value?, place?_rename, Option.map_map]
    rfl

theorem valueOf?_rename (type : Ty) (v : Tree.Value) :
    (Γ.rename ρ).valueOf? type (v.rename ρ) = (Γ.valueOf? type v).map (Value.rename ρ) := by
  simp [valueOf?, value?_rename, Option.filter_map, Function.comp_def]

theorem stringLabel?_rename (x : String) :
    (Γ.rename ρ).stringLabel? (ρ x) = Γ.stringLabel? x := by
  simp only [stringLabel?, scope_rename, Scope.find?_rename]
  cases Γ.scope.find? x <;> rfl

theorem callee?_rename (c : Tree.Callee) :
    (Γ.rename ρ).callee? (c.rename ρ) =
      (Γ.callee? c).map fun found => (found.1.rename ρ, ρ found.2) := by
  cases c with
  | bare m | receiver m =>
    simp only [Tree.Callee.rename, callee?, owner_rename, Option.map_map]
    rfl
  | object x m =>
    simp only [Tree.Callee.rename, callee?, scope_rename, Scope.find?_rename]
    cases Γ.scope.find? x with
    | none => rfl
    | some s =>
      have htype : (s.rename ρ).type = s.type := rfl
      simp only [Option.map_some, Option.bind_eq_bind, Option.bind_some, storage_rename, htype]
      cases s.type.className? with
      | none => rfl
      | some c => cases (Γ.storage s).toOption <;> rfl

theorem argument?_rename (q : Option Parameter) (a : Option Tree.Value) :
    (Γ.rename ρ).argument? (q.map (Parameter.rename ρ)) (a.map (Tree.Value.rename ρ)) =
      (Γ.argument? q a).map (Option.map (Value.rename ρ)) := by
  cases q with
  | none => cases a <;> rfl
  | some q =>
    cases a with
    | none => rfl
    | some v =>
      simp only [Option.map_some, argument?, valueOf?_rename, Option.map_map]
      rfl

theorem condition?_rename (c : Tree.Condition) :
    (Γ.rename ρ).condition? (c.rename ρ) = (Γ.condition? c).map (Condition.rename ρ) := by
  simp only [condition?, Tree.Condition.rename, valueOf?_rename]
  cases Γ.valueOf? .int c.left with
  | none => rfl
  | some left => cases Γ.valueOf? .int c.right <;> rfl

end Context

/-! ### Names that stay -/

/-- No class of the table and no method of one is renamed. -/
structure ClassTable.KeptBy (t : ClassTable) (ρ : Renaming) : Prop where
  classes : ∀ d ∈ t.classes, ρ d.name = d.name
  methods : ∀ d ∈ t.classes, ∀ s ∈ d.methods, ρ s.name = s.name

namespace ClassTable.KeptBy

variable {ρ : Renaming} {t t' : ClassTable}

theorem method (h : t.KeptBy ρ) {owner m : String} {s : Signature}
    (hmethod : t.method? owner m = some s) : ρ m = m := by
  obtain ⟨d, hfind, hs⟩ := Option.bind_eq_some_iff.1 hmethod
  have hname : s.name = m := by simpa using List.find?_some hs
  rw [← hname]
  exact h.methods d (List.mem_of_find?_eq_some hfind) s (List.mem_of_find?_eq_some hs)

/-- A word that names a type is a reserved one, or the name of a class. -/
theorem type (h : t.KeptBy ρ) {c : String} {type : Ty}
    (hresolve : t.resolveType c = .ok type) : ρ c = c := by
  unfold resolveType Ty.ofText at hresolve
  split at hresolve
  · rename_i className hclass
    split at hresolve
    · rename_i d hfind
      split at hclass
      · cases hclass
      · cases hclass
      · cases hclass
        have hname : d.name = c := name_of_find? hfind
        rw [← hname]
        exact h.classes d (List.mem_of_find?_eq_some hfind)
    · cases hresolve
  · rename_i hclass
    split at hclass
    · exact ρ.reserved (w := .intType) (by decide)
    · exact ρ.reserved (w := .stringType) (by decide)
    · exact absurd rfl (hclass _)

theorem replace (h : t.KeptBy ρ) {d : ClassDef} (hname : ρ d.name = d.name)
    (hmethods : ∀ s ∈ d.methods, ρ s.name = s.name) : (t.replace d).KeptBy ρ := by
  have hmem : ∀ e ∈ (t.replace d).classes, e = d ∨ e ∈ t.classes := by
    intro e he
    obtain ⟨old, hold, rfl⟩ := List.mem_map.1 he
    split
    · exact .inl rfl
    · exact .inr hold
  refine ⟨fun e he => ?_, fun e he => ?_⟩
  · rcases hmem e he with rfl | hold
    · exact hname
    · exact h.classes e hold
  · rcases hmem e he with rfl | hold
    · exact hmethods
    · exact h.methods e hold

/-! Each change of the table has its counterpart in the renamed table. -/

theorem declareClass (h : t.KeptBy ρ) {c : String} (hc : ρ c = c)
    (hdeclare : t.declareClass c = .ok t') :
    t'.KeptBy ρ ∧ (t.rename ρ).declareClass c = .ok (t'.rename ρ) := by
  obtain ⟨hnew, rfl⟩ := declareClass_ok.1 hdeclare
  refine ⟨⟨?_, ?_⟩, declareClass_ok.2 ⟨?_, ?_⟩⟩
  · intro d hd
    rcases List.mem_append.1 hd with hd | hd
    · exact h.classes d hd
    · rw [List.mem_singleton.1 hd]
      exact hc
  · intro d hd
    rcases List.mem_append.1 hd with hd | hd
    · exact h.methods d hd
    · rw [List.mem_singleton.1 hd]
      exact List.forall_mem_nil _
  · rw [find?_rename, hnew]
    rfl
  · simp [rename, enter, ClassDef.rename]

theorem addField (h : t.KeptBy ρ) {owner f : String} (hadd : t.addField owner f = .ok t') :
    t'.KeptBy ρ ∧ (t.rename ρ).addField owner (ρ f) = .ok (t'.rename ρ) := by
  obtain ⟨d, hclosed, hfind, hfresh, rfl⟩ := addField_ok.1 hadd
  have hd := List.mem_of_find?_eq_some hfind
  refine ⟨h.replace (h.classes d hd) (h.methods d hd),
    addField_ok.2 ⟨d.rename ρ, hclosed, ?_, ?_, ?_⟩⟩
  · rw [find?_rename, hfind]
    rfl
  · rw [ClassDef.rename, List.mem_map_of_injective ρ.injective]
    exact hfresh
  · simp [replace_rename, ClassDef.rename]

theorem addMethod (h : t.KeptBy ρ) {owner : String} {s : Signature} (hs : ρ s.name = s.name)
    (hadd : t.addMethod owner s = .ok t') :
    t'.KeptBy ρ ∧ (t.rename ρ).addMethod owner (s.rename ρ) = .ok (t'.rename ρ) := by
  obtain ⟨d, hclosed, hfind, hnew, rfl⟩ := addMethod_ok.1 hadd
  have hd := List.mem_of_find?_eq_some hfind
  refine ⟨h.replace (h.classes d hd) ?_, addMethod_ok.2 ⟨d.rename ρ, hclosed, ?_, ?_, ?_⟩⟩
  · intro s' hs'
    rcases List.mem_append.1 hs' with hs' | hs'
    · exact h.methods d hd s' hs'
    · rw [List.mem_singleton.1 hs']
      exact hs
  · rw [find?_rename, hfind]
    rfl
  · show (d.rename ρ).method? s.name = none
    rw [ClassDef.method?_rename, hnew]
    rfl
  · simp [replace_rename, ClassDef.rename]

end ClassTable.KeptBy

namespace Tree

def Simple.stringVariable? : Simple → Option String
  | .declare .string x _ => some x
  | _ => none

/-- The names of the string variables that a block declares. -/
def Block.stringVariables : Block → List String
  | .finish => []
  | .simple s rest => s.stringVariable?.toList ++ rest.stringVariables
  | .branch _ _ inner rest => inner.stringVariables ++ rest.stringVariables

def Program.stringVariables (p : Program) : List String :=
  (p.methods.flatMap fun q => q.2.body.stringVariables) ++ p.main.stringVariables

/-- The renaming leaves the names of classes, methods and string variables as they are. -/
structure Program.KeptBy (p : Program) (ρ : Renaming) : Prop where
  classes : ∀ c ∈ p.classes, ρ c.name = c.name
  methods : ∀ c ∈ p.classes, ∀ m ∈ c.methods, ρ m.name = m.name
  strings : ∀ x ∈ p.stringVariables, ρ x = x

end Tree

/-! ### Statements -/

def Standing.rename (ρ : Renaming) (S : Standing) : Standing :=
  { S with toContext := S.toContext.rename ρ }

namespace Standing

variable {ρ : Renaming} {S S' : Standing}

@[simp]
theorem table_rename : (S.rename ρ).table = S.table.rename ρ := rfl

@[simp]
theorem scope_rename : (S.rename ρ).scope = S.scope.rename ρ := rfl

theorem nextOffset_rename : (S.rename ρ).nextOffset = S.nextOffset := by
  rw [nextOffset, nextOffset, scope_rename, table_rename, Scope.frames_rename,
    Scope.framesBytes_rename]

theorem extend_rename (s : Symbol) :
    (S.extend s).rename ρ = (S.rename ρ).extend (s.rename ρ) := by
  simp only [extend, rename, Context.rename, Scope.extend_rename]

theorem leave_rename : S.leave.rename ρ = (S.rename ρ).leave := by
  simp only [leave, rename, Context.rename, Scope.pop_rename]

theorem free_rename {x : String} (h : S.scope.findInnermost? x = none) :
    (S.rename ρ).scope.findInnermost? (ρ x) = none := by
  rw [scope_rename, Scope.findInnermost?_rename, h]
  rfl

theorem type?_rename (h : S.table.KeptBy ρ) {t : Tree.TypeName} {type : Ty}
    (htype : S.type? t = some type) : (S.rename ρ).type? (t.rename ρ) = some type := by
  cases t with
  | int | string => exact htype
  | named c =>
    have hresolve : S.table.resolveType c = .ok type := toOption_eq_some.1 htype
    apply toOption_eq_some.2
    show (S.table.rename ρ).resolveType (ρ c) = .ok type
    rw [h.type hresolve, ClassTable.resolveType_rename, hresolve]

theorem place?_rename {p : Tree.Place} {target : Place} (h : S.place? p = some target) :
    (S.rename ρ).place? (p.rename ρ) = some (target.rename ρ) := by
  show (S.toContext.rename ρ).place? (p.rename ρ) = _
  rw [Context.place?_rename, h]
  rfl

theorem valueOf?_rename {type : Ty} {v : Tree.Value} {value : Value}
    (h : S.valueOf? type v = some value) :
    (S.rename ρ).valueOf? type (v.rename ρ) = some (value.rename ρ) := by
  show (S.toContext.rename ρ).valueOf? type (v.rename ρ) = _
  rw [Context.valueOf?_rename, h]
  rfl

/-- Where a string variable has its name still, the renamed program stores it under the same
    label. -/
theorem declareString_rename {x : String} (hx : ρ x = x) (bytes : List UInt8) :
    (S.declareString x bytes).rename ρ = (S.rename ρ).declareString x bytes := by
  rw [declareString, extend_rename]
  simp only [Symbol.rename, Symbol.inData, hx]
  rfl

/-- A renamed statement is elaborated to the renamed command. -/
theorem Elaborates.rename {s : Tree.Simple} {command : Command} (h : S.Elaborates s command S')
    (hkept : S.table.KeptBy ρ) (hproper : ∀ l ∈ s.yield, l.Proper)
    (hstrings : ∀ x ∈ s.stringVariable?, ρ x = x) :
    (S.rename ρ).Elaborates (s.rename ρ) (command.rename ρ) (S'.rename ρ) := by
  -- only the reserved word means the type of strings
  have hstring : ∀ {t x i}, s = .declare t x i → S.type? t = some .string → ρ x = x := by
    rintro t x i rfl htype
    simp only [Tree.Simple.yield, List.forall_mem_cons] at hproper
    obtain ⟨-, htype⟩ := (Context.type?_eq_some hproper.1).1 htype
    cases t with
    | string => exact hstrings x rfl
    | int | named => cases htype
  cases h with
  | number htype hfree hvalue =>
    rw [extend_rename, Command.rename, ← nextOffset_rename (ρ := ρ)]
    exact .number (type?_rename hkept htype) (free_rename hfree) (valueOf?_rename hvalue)
  | @text t x content htype hfree =>
    have hx := hstring rfl htype
    have hfree' := free_rename (ρ := ρ) hfree
    rw [declareString_rename hx, Tree.Simple.rename, Command.rename]
    rw [hx] at hfree' ⊢
    exact .text (type?_rename hkept htype) hfree'
  | @string t x y label htype hfree hlabel =>
    have hx := hstring rfl htype
    have hfree' := free_rename (ρ := ρ) hfree
    have hlabel' : (S.rename ρ).stringLabel? (ρ y) = some label :=
      (Context.stringLabel?_rename ρ S.toContext y).trans hlabel
    rw [declareString_rename hx, Tree.Simple.rename, Command.rename]
    rw [hx] at hfree' ⊢
    exact .string (type?_rename hkept htype) hfree' hlabel'
  | @create t x c created htype hfree hcreated =>
    have hname : ρ created = created := hkept.type (toOption_eq_some.1 hcreated)
    rw [extend_rename, Command.rename, ← nextOffset_rename (ρ := ρ),
      ← ClassTable.fieldCount_rename ρ]
    refine .create (type?_rename hkept htype) (free_rename hfree) ?_
    rw [hname, table_rename, ClassTable.resolveType_rename, hcreated]
  | copy htype hfree hvalue =>
    rw [extend_rename, Command.rename, ← nextOffset_rename (ρ := ρ),
      ← ClassTable.fieldCount_rename ρ]
    exact .copy (type?_rename hkept htype) (free_rename hfree) (valueOf?_rename hvalue)
  | @assignNumber _ _ target _ htarget htype hvalue =>
    exact .assignNumber (place?_rename htarget) ((target.type_rename ρ).trans htype)
      (valueOf?_rename hvalue)
  | @assignObject _ _ target _ c htarget htype hvalue =>
    rw [Command.rename, ← ClassTable.fieldCount_rename ρ]
    exact .assignObject (place?_rename htarget) ((target.type_rename ρ).trans htype)
      (valueOf?_rename hvalue)
  | @call callee a receiver m signature argument hcallee hmethod hargument =>
    have hcallee' : (S.rename ρ).callee? (callee.rename ρ) = some (receiver.rename ρ, m) := by
      rw [rename, Context.callee?_rename, hcallee, Option.map_some, hkept.method hmethod]
    refine .call hcallee' ?_ ?_
    · rw [table_rename, Receiver.owner_rename, ClassTable.method?_rename, hmethod]
      rfl
    · rw [rename, Signature.rename, Context.argument?_rename, hargument]
      rfl
  | print hvalue => exact .print (valueOf?_rename hvalue)
  | printLiteral => exact .printLiteral
  | @printVariable x s hsymbol htype =>
    refine .printVariable (s := s.rename ρ) ?_ htype
    rw [scope_rename, Scope.find?_rename, hsymbol]
    rfl

theorem ElaboratesBlock.rename {t : Tree.Block} {body : Body} (h : ElaboratesBlock S t body S')
    (hkept : S.table.KeptBy ρ) (hproper : ∀ l ∈ t.yield, l.Proper)
    (hstrings : ∀ x ∈ t.stringVariables, ρ x = x) :
    ElaboratesBlock (S.rename ρ) (t.rename ρ) (body.rename ρ) (S'.rename ρ) := by
  induction h with
  | @finish S =>
    have hbytes : (S.rename ρ).scope.frameBytes (S.rename ρ).table = S.scope.frameBytes S.table :=
      Frame.bytes_rename ρ S.table S.scope.frame
    rw [Body.rename, ← hbytes]
    exact .finish
  | simple hsimple _ ih =>
    simp only [Tree.Block.yield, List.forall_mem_append] at hproper
    rw [Tree.Block.stringVariables, List.forall_mem_append] at hstrings
    refine .simple (hsimple.rename hkept hproper.1 fun x hx => ?_) (ih ?_ hproper.2 hstrings.2)
    · exact hstrings.1 x (Option.mem_toList.2 hx)
    · rw [hsimple.keeps.table]
      exact hkept
  | @branch S S₁ _ kind c condition inner rest _ _ hcondition hinner _ ihInner ihRest =>
    simp only [Tree.Block.yield, List.forall_mem_cons, List.forall_mem_append] at hproper
    obtain ⟨-, -, -, hinnerProper, -, hrestProper⟩ := hproper
    rw [Tree.Block.stringVariables, List.forall_mem_append] at hstrings
    have hcondition' : (S.rename ρ).condition? (c.rename ρ) = some (condition.rename ρ) := by
      rw [Standing.rename, Context.condition?_rename, hcondition]
      rfl
    have hrest := ihRest (by rw [hinner.keeps.leave.table]; exact hkept) hrestProper hstrings.2
    rw [leave_rename] at hrest
    exact .branch hcondition' (ihInner hkept hinnerProper hstrings.1) hrest

/-! ### Definitions -/

/-- What one tree after the other is turned into is renamed if each is, as long as what each needs
    of the standing is kept. -/
theorem each?_rename {α β : Type} (onTree : α → α) (onResult : β → β)
    {f g : Standing → α → Option (β × Standing)} {as : List α} {bs : List β}
    (hstep : ∀ a ∈ as, ∀ S b S', S.table.KeptBy ρ → f S a = some (b, S') →
      S'.table.KeptBy ρ ∧ g (S.rename ρ) (onTree a) = some (onResult b, S'.rename ρ))
    (hkept : S.table.KeptBy ρ) (h : S.each? f as = some (bs, S')) :
    S'.table.KeptBy ρ ∧
      (S.rename ρ).each? g (as.map onTree) = some (bs.map onResult, S'.rename ρ) := by
  induction as generalizing S bs with
  | nil =>
    cases h
    exact ⟨hkept, rfl⟩
  | cons a as ih =>
    rw [List.forall_mem_cons] at hstep
    obtain ⟨b, S₁, hfirst, bs, S₂, hrest, rfl, rfl⟩ := each?_cons.1 h
    obtain ⟨hkept₁, hfirst'⟩ := hstep.1 S b S₁ hkept hfirst
    obtain ⟨hkept₂, hrest'⟩ := ih hstep.2 hkept₁ hrest
    exact ⟨hkept₂, each?_cons.2 ⟨_, _, hfirst', _, _, hrest', rfl, rfl⟩⟩

theorem field?_rename {owner f : String} {u : Unit} (hkept : S.table.KeptBy ρ)
    (h : S.field? owner f = some (u, S')) :
    S'.table.KeptBy ρ ∧ (S.rename ρ).field? owner (ρ f) = some (u, S'.rename ρ) := by
  simp only [field?, Option.map_eq_some_iff, toOption_eq_some, Prod.mk.injEq] at h ⊢
  obtain ⟨table, hadd, -, rfl⟩ := h
  obtain ⟨hkept', hadd'⟩ := hkept.addField hadd
  exact ⟨hkept', table.rename ρ, hadd', trivial, rfl⟩

theorem parameter?_rename (hkept : S.table.KeptBy ρ) {q : Option Tree.Parameter}
    {p : Option Parameter} (h : S.parameter? q = some p) :
    (S.rename ρ).parameter? (q.map (Tree.Parameter.rename ρ)) =
      some (p.map (Parameter.rename ρ)) := by
  cases q with
  | none =>
    cases h
    rfl
  | some q =>
    obtain ⟨type, htype, rfl⟩ := Option.map_eq_some_iff.1 h
    simp only [Option.map_some, parameter?, Tree.Parameter.rename, type?_rename hkept htype]
    rfl

theorem begin_rename (owner : Option String) (method : String) (p : Option Parameter) :
    (S.begin owner method p).rename ρ = (S.rename ρ).begin owner method
      (p.map (Parameter.rename ρ)) := by
  cases p <;> rfl

theorem header?_rename {owner : String} {m : Tree.Method} (hm : ρ m.name = m.name)
    (hkept : S.table.KeptBy ρ) (h : S.header? owner m = some S') :
    S'.table.KeptBy ρ ∧ (S.rename ρ).header? owner (m.rename ρ) = some (S'.rename ρ) := by
  have hname : (m.rename ρ).name = m.name := hm
  simp only [header?, claim?, Option.bind_eq_bind, Option.bind_eq_some_iff, toOption_eq_some,
    Option.ite_none_left_eq_some, Option.some.injEq, hname] at h ⊢
  obtain ⟨p, hparameter, table, hadd, _, ⟨hfree, rfl⟩, rfl⟩ := h
  obtain ⟨hkept', hadd'⟩ := hkept.addMethod hm hadd
  refine ⟨hkept', p.map (Parameter.rename ρ), parameter?_rename hkept hparameter, table.rename ρ,
    hadd', _, ⟨hfree, rfl⟩, ?_⟩
  rw [begin_rename]
  rfl

theorem method?_rename {owner : String} {m : Tree.Method} {r : Routine} (hm : ρ m.name = m.name)
    (hproper : ∀ l ∈ m.yield, l.Proper) (hstrings : ∀ x ∈ m.body.stringVariables, ρ x = x)
    (hkept : S.table.KeptBy ρ) (h : S.method? owner m = some (r, S')) :
    S'.table.KeptBy ρ ∧
      (S.rename ρ).method? owner (m.rename ρ) = some (r.rename ρ, S'.rename ρ) := by
  obtain ⟨S₁, body, hheader, hbody, rfl⟩ := method?_eq_some.1 h
  obtain ⟨hkept₁, hheader'⟩ := header?_rename hm hkept hheader
  have hbodyProper : ∀ l ∈ m.body.yield, l.Proper :=
    fun l hl => hproper l (by simp [Tree.Method.yield, hl])
  refine ⟨by rw [hbody.keeps.table]; exact hkept₁, method?_eq_some.2 ⟨_, body.rename ρ, hheader',
    hbody.rename hkept₁ hbodyProper hstrings, ?_⟩⟩
  simp only [Routine.rename, Tree.Method.rename, hm]

theorem openClass?_rename {c : Tree.Class} (hc : ρ c.name = c.name) (hkept : S.table.KeptBy ρ)
    (h : S.openClass? c = some S') :
    S'.table.KeptBy ρ ∧ (S.rename ρ).openClass? (c.rename ρ) = some (S'.rename ρ) := by
  have hname : (c.rename ρ).name = c.name := hc
  simp only [openClass?, Option.bind_eq_bind, Option.bind_eq_some_iff, toOption_eq_some,
    Prod.exists, Option.some.injEq, hname] at h ⊢
  obtain ⟨table, hdeclare, us, _, hfields, rfl⟩ := h
  obtain ⟨hkept₁, hdeclare'⟩ := hkept.declareClass hc hdeclare
  obtain ⟨hkept₂, hfields'⟩ := each?_rename ρ id
    (fun f _ S u S' hS hf => field?_rename hS hf) hkept₁ hfields
  exact ⟨hkept₂, table.rename ρ, hdeclare', _, _, hfields', rfl⟩

theorem class?_rename {c : Tree.Class} {rs : List Routine} (hc : ρ c.name = c.name)
    (hmethods : ∀ m ∈ c.methods, ρ m.name = m.name)
    (hproper : ∀ m ∈ c.methods, ∀ l ∈ m.yield, l.Proper)
    (hstrings : ∀ m ∈ c.methods, ∀ x ∈ m.body.stringVariables, ρ x = x)
    (hkept : S.table.KeptBy ρ) (h : S.class? c = some (rs, S')) :
    S'.table.KeptBy ρ ∧
      (S.rename ρ).class? (c.rename ρ) = some (rs.map (Routine.rename ρ), S'.rename ρ) := by
  have hname : (c.rename ρ).name = c.name := hc
  simp only [class?, Option.bind_eq_bind, Option.bind_eq_some_iff, Prod.exists, Option.some.injEq,
    Prod.mk.injEq, hname] at h ⊢
  obtain ⟨S₁, hopen, rs, S₂, heach, rfl, rfl⟩ := h
  obtain ⟨hkept₁, hopen'⟩ := openClass?_rename hc hkept hopen
  obtain ⟨hkept₂, heach'⟩ := each?_rename (Tree.Method.rename ρ)
    (Routine.rename ρ) (fun m hm S r S' hS hr =>
      method?_rename (hmethods m hm) (hproper m hm) (hstrings m hm) hS hr) hkept₁ heach
  exact ⟨⟨hkept₂.classes, hkept₂.methods⟩, _, hopen', _, _, heach', rfl, rfl⟩

end Standing

/-! ### Programs -/

def Compilation.rename (ρ : Renaming) (compilation : Compilation) : Compilation where
  entry := compilation.entry.rename ρ
  methods := compilation.methods.map (Routine.rename ρ)
  data := compilation.data
  table := compilation.table.rename ρ

theorem Compilation.listings_rename (ρ : Renaming) (compilation : Compilation) :
    (compilation.rename ρ).listings = compilation.listings := by
  simp [listings, routines, rename, Routine.listing_rename, Function.comp_def]

/-- A renamed program is compiled to the renamed compilation. -/
theorem Tree.Program.compile?_rename {p : Tree.Program} {ρ : Renaming} {compilation : Compilation}
    (hkept : p.KeptBy ρ) (hproper : ∀ l ∈ p.yield, l.Proper)
    (h : p.compile? = some compilation) :
    (p.rename ρ).compile? = some (compilation.rename ρ) := by
  obtain ⟨rs, S₁, heach, _, S₂, hentry, rfl⟩ := compile?_eq_some.1 h
  obtain ⟨body, hmain, rfl⟩ := Standing.main?_eq_some.1 hentry
  have hstrings : ∀ c ∈ p.classes, ∀ m ∈ c.methods, ∀ x ∈ m.body.stringVariables, ρ x = x := by
    intro c hc m hm x hx
    apply hkept.strings x
    rw [stringVariables, List.mem_append, List.mem_flatMap]
    exact .inl ⟨(c.name, m), List.mem_flatMap.2 ⟨c, hc, List.mem_map_of_mem hm⟩, hx⟩
  have hinitial : Standing.initial.table.KeptBy ρ :=
    ⟨List.forall_mem_nil _, List.forall_mem_nil _⟩
  obtain ⟨hkept₁, heach'⟩ := Standing.each?_rename (Class.rename ρ)
    (List.map (Routine.rename ρ)) (fun c hc S rs S' hS hclass =>
      Standing.class?_rename (hkept.classes c hc) (hkept.methods c hc)
        (proper_methods hproper c hc) (hstrings c hc) hS hclass) hinitial heach
  have hmain' := hmain.rename (ρ := ρ) hkept₁ (proper_main hproper)
    fun x hx => hkept.strings x (List.mem_append_right _ hx)
  rw [Standing.begin_rename] at hmain'
  refine compile?_eq_some.2
    ⟨_, _, heach', _, _, Standing.main?_eq_some.2 ⟨_, hmain', rfl⟩, ?_⟩
  simp only [Compilation.rename, Routine.rename, List.map_flatten]
  rfl

/-- Take the text of an accepted program and give its identifiers other names, no two the same, so
    that classes, methods and string variables keep theirs: the result is accepted, with the same
    listings and the same data section, and in the table only fields and parameters are called
    something else. -/
theorem renaming_hygiene {source : String} {compilation : Compilation}
    (h : compile source = .ok compilation) :
    ∃ tokens, tokenize source = .ok tokens ∧ (∃ p : Tree.Program, p.SpelledBy source) ∧
      ∀ p : Tree.Program, p.SpelledBy source → ∀ ρ : Renaming, p.KeptBy ρ →
      ∀ tokens' : List Token,
        tokens'.map Token.lexeme = tokens.map (fun token => token.lexeme.rename ρ) →
        ∃ compilation', compileTokens tokens' = .ok compilation' ∧
          compilation'.listings = compilation.listings ∧ compilation'.data = compilation.data ∧
          compilation'.table = compilation.table.rename ρ := by
  obtain ⟨tokens, htokens, -⟩ := bind_eq_ok.1 h
  refine ⟨tokens, htokens, exists_spelledBy h, fun p hp ρ hkept tokens' htokens' => ?_⟩
  obtain ⟨hproper, hcompile⟩ := hp.compile?_eq h
  obtain ⟨_, hspelled, hyield⟩ := hp.spelled
  obtain rfl : tokens = _ := Except.ok.inj (htokens.symm.trans hspelled)
  refine ⟨compilation.rename ρ, compileTokens_eq_ok_iff.2 ⟨p.rename ρ, ?_, ?_⟩,
    compilation.listings_rename ρ, rfl, rfl⟩
  · rw [Tree.Program.yield_rename, hyield, htokens', List.map_map]
    rfl
  · exact Tree.Program.compile?_rename hkept hproper hcompile

/-- Two names change places. -/
def Renaming.swap {x y : String} (hx : IsName x) (hy : IsName y) : Renaming where
  word := Equiv.swap x y
  names z hz := by
    rw [Equiv.swap_apply_def]
    split
    · exact hy
    · split
      · exact hx
      · exact hz
  apart _ _ _ _ h := (Equiv.swap x y).injective h
  others _ hz := Equiv.swap_apply_of_ne_of_ne (fun h => hz (h ▸ hx)) (fun h => hz (h ▸ hy))

/-- The names `n` and `k` change places. -/
def exchange : Renaming :=
  .swap (x := "n") (y := "k")
    ⟨⟨'n', _, rfl, by decide⟩, List.all_eq_true.1 (by decide), by decide⟩
    ⟨⟨'k', _, rfl, by decide⟩, List.all_eq_true.1 (by decide), by decide⟩

/-- A text that uses two names for fields, a parameter, an object and numbers, one of them in a
    block inside. -/
def tallyText : String :=
  "class T \x7b int n; int k; add(int k) \x7b this.n = k; int n = this.k; print(n); \x7d \x7d " ++
    "main() \x7b T n = T.CreateInstance(); int k = 2; string s = \"sum\"; " ++
    "if (k > 1) \x7b int n = k; print(n); \x7d n.add(k); prints(s); \x7d"

/-- The same with the two names exchanged, laid out in another way. -/
def exchangedText : String :=
  "class T\x7bint k;int n;add(int n)\x7bthis.k=n;int k=this.n;print(k);\x7d\x7d\n" ++
    "main()\x7bT k=T.CreateInstance();int n=2;string s=\"sum\";\n" ++
    "if(n>1)\x7bint k=n;print(k);\x7dk.add(n);prints(s);\x7d"

def tallyTree : Tree.Program where
  classes := [⟨"T", ["n", "k"],
    [⟨"add", some ⟨.int, "k"⟩,
      .simple (.assign (.receiverField "n") (.place (.variable "k"))) <|
      .simple (.declare .int "n" (.value (.place (.receiverField "k")))) <|
      .simple (.print (.place (.variable "n"))) .finish, by decide⟩],
    by decide, nofun⟩]
  main :=
    .simple (.declare (.named "T") "n" (.create "T")) <|
    .simple (.declare .int "k" (.value (.number "2"))) <|
    .simple (.declare .string "s" (.text "sum")) <|
    .branch .conditional ⟨.place (.variable "k"), .greater, .number "1"⟩
      (.simple (.declare .int "n" (.value (.place (.variable "k")))) <|
        .simple (.print (.place (.variable "n"))) .finish) <|
    .simple (.call (.object "n" "add") (some (.place (.variable "k")))) <|
    .simple (.printText (.variable "s")) .finish
  main_ne := by decide

theorem tallyTree_spelledBy :
    tallyTree.SpelledBy tallyText ∧ ∃ compilation, compile tallyText = .ok compilation := by
  apply Tree.Program.spelledBy_of_lexemes
  · decide +kernel
  · decide +kernel

theorem tallyTree_keptBy : tallyTree.KeptBy exchange := by
  refine ⟨?_, ?_, ?_⟩ <;> decide

theorem lexemes_exchangedText :
    (tokenize exchangedText).toOption.map (·.map Token.lexeme) =
      some (tallyTree.rename exchange).yield := by
  decide +kernel

theorem renaming_hygiene_exchanged :
    ∃ compilation compilation', compile tallyText = .ok compilation ∧
      tallyTree.SpelledBy tallyText ∧ tallyTree.KeptBy exchange ∧
      compile exchangedText = .ok compilation' ∧
      compilation'.listings = compilation.listings ∧ compilation'.data = compilation.data ∧
      compilation'.table = compilation.table.rename exchange := by
  obtain ⟨hspelled, compilation, hcompile⟩ := tallyTree_spelledBy
  obtain ⟨tokens, htokens, -, hrenamed⟩ := renaming_hygiene hcompile
  obtain ⟨_, hspelling, hyield⟩ := hspelled.spelled
  obtain rfl : tokens = _ := Except.ok.inj (htokens.symm.trans hspelling)
  obtain ⟨tokens', htokens', hmap⟩ := Option.map_eq_some_iff.1 lexemes_exchangedText
  rw [Tree.Program.yield_rename, hyield, List.map_map] at hmap
  obtain ⟨compilation', hcompile', hsame⟩ :=
    hrenamed tallyTree hspelled exchange tallyTree_keptBy tokens' hmap
  refine ⟨compilation, compilation', hcompile, hspelled, tallyTree_keptBy, ?_, hsame⟩
  exact bind_eq_ok.2 ⟨tokens', toOption_eq_some.1 htokens', hcompile'⟩

end ClassLang
