/-
  ClassLang/Proofs/ElaborationRules.lean
  ======================================
  **Elaboration, rule by rule.**

  Elaboration is a function with failure; what follows is the same as a relation, with
  one rule for each thing that a statement can turn into.  `Standing.Elaborates` says
  all that elaborating a statement can do, to the command and to the standing, and
  `ElaboratesBlock` does so for blocks.  Every property of accepted programs is proved
  along these rules, so none of those proofs opens the functions again.
-/
import ClassLang.Proofs.Elaboration
import ClassLang.Proofs.Tables

namespace ClassLang

/-! ### A new variable -/

/-- Put a variable behind those of the innermost frame. -/
def Scope.extend (scope : Scope) (s : Symbol) : Scope :=
  { scope with frame := scope.frame ++ [s] }

namespace Scope

variable {scope : Scope} {s : Symbol}

theorem outcome_declaring (scope : Scope) (s : Symbol) :
    (declaring s).outcome scope =
      if (scope.findInnermost? s.name).isSome then
        (.error (.duplicate (.binding s.name)), scope)
      else (.ok (), scope.extend s) := by
  simp only [declaring, Change.outcome_bind, Change.outcome_get]
  split <;> rfl

theorem declare_ok {scope' : Scope} :
    scope.declare s = .ok scope' ↔
      scope.findInnermost? s.name = none ∧ scope' = scope.extend s := by
  rw [declare, Change.result_ok, outcome_declaring]
  cases scope.findInnermost? s.name <;> simp [eq_comm]

theorem find?_frame_of_findInnermost? {x : String} (h : scope.findInnermost? x = none) :
    scope.frame.find? x = none := by
  rw [findInnermost?, Option.or_eq_none_iff] at h
  exact h.1

theorem bytes_append (table : ClassTable) (frame frame' : Frame) :
    Frame.bytes table (frame ++ frame') = Frame.bytes table frame + Frame.bytes table frame' := by
  induction frame with
  | nil => simp [Frame.bytes]
  | cons s frame ih =>
    rw [List.cons_append, Frame.bytes, Frame.bytes, ih]
    omega

/-- A new variable is the one that its name stands for. -/
theorem findSome?_extend (hfree : scope.findInnermost? s.name = none) :
    (scope.extend s).frames.findSome? (·.find? s.name) = some s := by
  have hnone := find?_frame_of_findInnermost? hfree
  have hfind : Frame.find? (scope.frame ++ [s]) s.name = some s := by
    rw [Frame.find?, List.find?_append]
    rw [Frame.find?] at hnone
    rw [hnone]
    simp
  simp only [frames, extend, List.findSome?_cons, hfind]

/-- A new variable lies behind all that are there. -/
theorem offset?_extend (table : ClassTable) (h : scope.findInnermost? s.name = none) :
    (scope.extend s).offset? table s.name = some (4 + framesBytes table scope.frames) := by
  have hnone : scope.frame.findIdx? (·.name == s.name) = none := by
    have hfind := find?_frame_of_findInnermost? h
    rw [Frame.find?, List.find?_eq_none] at hfind
    rw [List.findIdx?_eq_none_iff]
    intro t ht
    simpa using hfind t ht
  have hindex : (scope.frame ++ [s]).findIdx? (·.name == s.name) = some scope.frame.length := by
    rw [List.findIdx?_append, hnone]
    simp
  simp only [offset?, extend, frames, offsetIn?, hindex, framesBytes, List.take_left]
  congr 1
  omega

end Scope

namespace Standing

variable {S S' : Standing}

def extend (S : Standing) (s : Symbol) : Standing := { S with scope := S.scope.extend s }

/-- The distance below the frame pointer at which the next variable lies. -/
def nextOffset (S : Standing) : Nat := 4 + Scope.framesBytes S.table S.scope.frames

theorem declare?_eq_some {s : Symbol} :
    S.declare? s = some S' ↔ S.scope.findInnermost? s.name = none ∧ S' = S.extend s := by
  simp only [declare?, Option.map_eq_some_iff, toOption_eq_some, Scope.declare_ok]
  constructor
  · rintro ⟨_, ⟨hfree, rfl⟩, rfl⟩
    exact ⟨hfree, rfl⟩
  · rintro ⟨hfree, rfl⟩
    exact ⟨_, ⟨hfree, rfl⟩, rfl⟩

theorem onStack?_eq_some {x : String} {type : Ty} {offset : Nat} :
    S.onStack? x type = some (offset, S') ↔
      S.scope.findInnermost? x = none ∧ offset = S.nextOffset ∧
        S' = S.extend (.onStack x type) := by
  have hoffset : S.scope.findInnermost? x = none →
      (S.extend (.onStack x type)).stackOffset x = .ok S.nextOffset := by
    intro hfree
    have hnew : (S.extend (.onStack x type)).scope.offset? S.table x = some S.nextOffset :=
      Scope.offset?_extend S.table (s := .onStack x type) hfree
    have htable : (S.extend (.onStack x type)).table = S.table := rfl
    rw [Context.stackOffset, htable, hnew]
  simp only [onStack?, Option.bind_eq_bind, Option.bind_eq_some_iff, declare?_eq_some,
    Option.some.injEq, Prod.mk.injEq, toOption_eq_some]
  constructor
  · rintro ⟨_, ⟨hfree, rfl⟩, _, hoff, rfl, rfl⟩
    rw [hoffset hfree] at hoff
    cases hoff
    exact ⟨hfree, rfl, rfl⟩
  · rintro ⟨hfree, rfl, rfl⟩
    exact ⟨_, ⟨hfree, rfl⟩, _, hoffset hfree, rfl, rfl⟩

/-! ### Statements -/

def declareString (S : Standing) (x : String) (bytes : List UInt8) : Standing :=
  (S.store x bytes).extend (.inData x (S.stringLabel x))

/-- What elaborating a statement without a block can do. -/
inductive Elaborates (S : Standing) : Tree.Simple → Command → Standing → Prop where
  | number {t : Tree.TypeName} {x : String} {v : Tree.Value} {value : Value}
      (htype : S.type? t = some .int) (hfree : S.scope.findInnermost? x = none)
      (hvalue : S.valueOf? .int v = some value) :
      Elaborates S (.declare t x (.value v)) (.declareNumber x value S.nextOffset)
        (S.extend (.onStack x .int))
  | text {t : Tree.TypeName} {x content : String}
      (htype : S.type? t = some .string) (hfree : S.scope.findInnermost? x = none) :
      Elaborates S (.declare t x (.text content)) (.declareString x (S.stringLabel x))
        (S.declareString x (stringBytes content))
  | string {t : Tree.TypeName} {x y label : String}
      (htype : S.type? t = some .string) (hfree : S.scope.findInnermost? x = none)
      (hlabel : S.stringLabel? y = some label) :
      Elaborates S (.declare t x (.value (.place (.variable y))))
        (.declareString x (S.stringLabel x)) (S.declareString x (S.bytesAt label))
  | create {t : Tree.TypeName} {x c created : String}
      (htype : S.type? t = some (.object c)) (hfree : S.scope.findInnermost? x = none)
      (hcreated : (S.table.resolveType created).toOption = some (.object c)) :
      Elaborates S (.declare t x (.create created))
        (.createObject x c (S.table.fieldCount c) S.nextOffset) (S.extend (.onStack x (.object c)))
  | copy {t : Tree.TypeName} {x c : String} {v : Tree.Value} {value : Value}
      (htype : S.type? t = some (.object c)) (hfree : S.scope.findInnermost? x = none)
      (hvalue : S.valueOf? (.object c) v = some value) :
      Elaborates S (.declare t x (.value v))
        (.copyObject x c value (S.table.fieldCount c) S.nextOffset)
        (S.extend (.onStack x (.object c)))
  | assignNumber {p : Tree.Place} {v : Tree.Value} {target : Place} {value : Value}
      (htarget : S.place? p = some target) (htype : target.type = .int)
      (hvalue : S.valueOf? .int v = some value) :
      Elaborates S (.assign p v) (.assignNumber target value) S
  | assignObject {p : Tree.Place} {v : Tree.Value} {target : Place} {value : Value} {c : String}
      (htarget : S.place? p = some target) (htype : target.type = .object c)
      (hvalue : S.valueOf? (.object c) v = some value) :
      Elaborates S (.assign p v) (.assignObject target value (S.table.fieldCount c)) S
  | call {callee : Tree.Callee} {a : Option Tree.Value} {receiver : Receiver} {m : String}
      {signature : Signature} {argument : Option Value}
      (hcallee : S.callee? callee = some (receiver, m))
      (hmethod : S.table.method? receiver.owner m = some signature)
      (hargument : S.argument? signature.parameter a = some argument) :
      Elaborates S (.call callee a) (.call receiver signature argument) S
  | print {v : Tree.Value} {value : Value} (hvalue : S.valueOf? .int v = some value) :
      Elaborates S (.print v) (.print value) S
  | printLiteral {content : String} :
      Elaborates S (.printText (.literal content))
        (.printText (.literal (S.draw.stringLabel S.draw.literalName)))
        (S.draw.store S.draw.literalName (stringBytes content))
  | printVariable {x : String} {s : Symbol} (hsymbol : S.scope.find? x = some s)
      (htype : s.type = .string) :
      Elaborates S (.printText (.variable x)) (.printText (.named s)) S

theorem elaborates_declare {t : Tree.TypeName} {x : String} {i : Tree.Initial} {type : Ty}
    {request : Request} {command : Command} (htype : S.type? t = some type)
    (hfree : S.scope.findInnermost? x = none) (hinitial : S.initial? x type i = some request)
    (hfulfil : S.fulfil? request = some (command, S')) :
    S.Elaborates (.declare t x i) command S' := by
  unfold Context.initial? at hinitial
  split at hinitial
  · obtain ⟨value, hvalue, rfl⟩ := Option.map_eq_some_iff.1 hinitial
    simp only [fulfil?, Option.bind_eq_bind, Option.bind_eq_some_iff, onStack?_eq_some,
      Prod.exists, Option.some.injEq, Prod.mk.injEq] at hfulfil
    obtain ⟨_, _, ⟨-, rfl, rfl⟩, rfl, rfl⟩ := hfulfil
    exact .number htype hfree hvalue
  · cases hinitial
    simp only [fulfil?, Option.bind_eq_bind, Option.bind_eq_some_iff, declare?_eq_some,
      Option.some.injEq, Prod.mk.injEq] at hfulfil
    obtain ⟨_, ⟨-, rfl⟩, rfl, rfl⟩ := hfulfil
    exact .text htype hfree
  · obtain ⟨label, hlabel, rfl⟩ := Option.map_eq_some_iff.1 hinitial
    simp only [fulfil?, Option.bind_eq_bind, Option.bind_eq_some_iff, declare?_eq_some,
      Option.some.injEq, Prod.mk.injEq] at hfulfil
    obtain ⟨_, ⟨-, rfl⟩, rfl, rfl⟩ := hfulfil
    exact .string htype hfree hlabel
  · simp only [Option.ite_none_right_eq_some, Option.some.injEq] at hinitial
    obtain ⟨hcreated, rfl⟩ := hinitial
    simp only [fulfil?, Option.bind_eq_bind, Option.bind_eq_some_iff, onStack?_eq_some,
      Prod.exists, Option.some.injEq, Prod.mk.injEq] at hfulfil
    obtain ⟨_, _, ⟨-, rfl, rfl⟩, rfl, rfl⟩ := hfulfil
    exact .create htype hfree hcreated
  · obtain ⟨value, hvalue, rfl⟩ := Option.map_eq_some_iff.1 hinitial
    simp only [fulfil?, Option.bind_eq_bind, Option.bind_eq_some_iff, onStack?_eq_some,
      Prod.exists, Option.some.injEq, Prod.mk.injEq] at hfulfil
    obtain ⟨_, _, ⟨-, rfl, rfl⟩, rfl, rfl⟩ := hfulfil
    exact .copy htype hfree hvalue
  · cases hinitial

theorem elaborates_of_simple? {s : Tree.Simple} {command : Command}
    (h : S.simple? s = some (command, S')) : S.Elaborates s command S' := by
  simp only [simple?, Option.bind_eq_bind, Option.bind_eq_some_iff] at h
  obtain ⟨request, hrequest, hfulfil⟩ := h
  cases s with
  | declare t x i =>
    obtain ⟨type, htype, hfree, hinitial⟩ := Context.request?_declare.1 hrequest
    exact elaborates_declare htype hfree hinitial hfulfil
  | assign p v =>
    obtain ⟨target, htarget, hassign⟩ := Context.request?_assign.1 hrequest
    rcases Context.assignment?_cases hassign with
      ⟨htype, value, hvalue, rfl⟩ | ⟨c, htype, value, hvalue, rfl⟩
    · cases hfulfil
      exact .assignNumber htarget htype hvalue
    · cases hfulfil
      exact .assignObject htarget htype hvalue
  | call callee a =>
    obtain ⟨receiver, m, hcallee, signature, hmethod, argument, hargument, rfl⟩ :=
      Context.request?_call.1 hrequest
    cases hfulfil
    exact .call hcallee hmethod hargument
  | print v =>
    obtain ⟨value, hvalue, rfl⟩ := Option.map_eq_some_iff.1 hrequest
    cases hfulfil
    exact .print hvalue
  | printText text =>
    cases text with
    | literal content =>
      cases hrequest
      cases hfulfil
      exact .printLiteral
    | «variable» x =>
      obtain ⟨s, hs, htype, rfl⟩ := Context.text?_variable.1 hrequest
      cases hfulfil
      exact .printVariable hs htype

theorem simple?_of_elaborates {s : Tree.Simple} {command : Command}
    (h : S.Elaborates s command S') : S.simple? s = some (command, S') := by
  have hstack : ∀ {x type}, S.scope.findInnermost? x = none →
      S.onStack? x type = some (S.nextOffset, S.extend (.onStack x type)) :=
    fun hfree => onStack?_eq_some.2 ⟨hfree, rfl, rfl⟩
  have hstring : ∀ {x bytes}, S.scope.findInnermost? x = none →
      (S.store x bytes).declare? (.inData x (S.stringLabel x)) =
        some (S.declareString x bytes) :=
    fun hfree => declare?_eq_some.2 ⟨hfree, rfl⟩
  cases h with
  | number htype hfree hvalue =>
    simp [simple?, Context.request?, Context.initial?, htype, hfree, hvalue, fulfil?,
      hstack hfree]
  | text htype hfree =>
    simp [simple?, Context.request?, Context.initial?, htype, hfree, fulfil?, hstring hfree]
  | string htype hfree hlabel =>
    simp [simple?, Context.request?, Context.initial?, htype, hfree, hlabel, fulfil?,
      hstring hfree]
  | create htype hfree hcreated =>
    simp [simple?, Context.request?, Context.initial?, htype, hfree, hcreated, fulfil?,
      hstack hfree, extend]
  | copy htype hfree hvalue =>
    simp [simple?, Context.request?, Context.initial?, htype, hfree, hvalue, fulfil?,
      hstack hfree, extend]
  | assignNumber htarget htype hvalue =>
    simp [simple?, Context.request?, Context.assignment?, htarget, htype, hvalue, fulfil?]
  | assignObject htarget htype hvalue =>
    simp [simple?, Context.request?, Context.assignment?, htarget, htype, hvalue, fulfil?]
  | call hcallee hmethod hargument =>
    simp [simple?, Context.request?, hcallee, hmethod, hargument, fulfil?]
  | print hvalue => simp [simple?, Context.request?, hvalue, fulfil?]
  | printLiteral => simp [simple?, Context.request?, Context.text?, fulfil?]
  | printVariable hsymbol htype =>
    simp [simple?, Context.request?, Context.text?, hsymbol, htype, fulfil?]

/-- The rules are what elaboration of statements does. -/
theorem simple?_eq_some {s : Tree.Simple} {command : Command} :
    S.simple? s = some (command, S') ↔ S.Elaborates s command S' :=
  ⟨elaborates_of_simple?, simple?_of_elaborates⟩

/-! ### Blocks -/

inductive ElaboratesBlock : Standing → Tree.Block → Body → Standing → Prop where
  | finish {S : Standing} :
      ElaboratesBlock S .finish (.finish (S.scope.frameBytes S.table)) S
  | simple {S S₁ S₂ : Standing} {s : Tree.Simple} {rest : Tree.Block} {command : Command}
      {body : Body} (hsimple : S.Elaborates s command S₁)
      (hrest : ElaboratesBlock S₁ rest body S₂) :
      ElaboratesBlock S (.simple s rest) (.simple command body) S₂
  | branch {S S₁ S₂ : Standing} {kind : BranchKind} {c : Tree.Condition} {condition : Condition}
      {inner rest : Tree.Block} {innerBody restBody : Body}
      (hcondition : S.condition? c = some condition)
      (hinner : ElaboratesBlock S.draw.enter inner innerBody S₁)
      (hrest : ElaboratesBlock S₁.leave rest restBody S₂) :
      ElaboratesBlock S (.branch kind c inner rest)
        (.branch ⟨kind, condition, S.draw.labels⟩ innerBody restBody) S₂

theorem block?_eq_some {t : Tree.Block} {body : Body} :
    S.block? t = some (body, S') ↔ ElaboratesBlock S t body S' := by
  constructor
  · intro h
    induction t generalizing S body S' with
    | finish =>
      cases h
      exact .finish
    | simple s rest ih =>
      obtain ⟨command, S₁, hsimple, body, hrest, rfl⟩ := block?_simple.1 h
      exact .simple (simple?_eq_some.1 hsimple) (ih hrest)
    | branch kind c inner rest ihInner ihRest =>
      obtain ⟨condition, hcondition, b, S₁, hinner, b', hrest, rfl⟩ := block?_branch.1 h
      exact .branch hcondition (ihInner hinner) (ihRest hrest)
  · intro h
    induction h with
    | finish => rfl
    | simple hsimple _ ih =>
      exact block?_simple.2 ⟨_, _, simple?_eq_some.2 hsimple, _, ih, rfl⟩
    | branch hcondition _ _ ihInner ihRest =>
      exact block?_branch.2 ⟨_, hcondition, _, _, ihInner, _, ihRest, rfl⟩

theorem main?_eq_some {t : Tree.Block} {entry : Routine} :
    S.main? t = some (entry, S') ↔ ∃ body,
      ElaboratesBlock (S.begin none Keyword.mainDef.text none) t body S' ∧
        ⟨none, Keyword.mainDef.text, body⟩ = entry := by
  simp only [main?, Option.bind_eq_bind, Option.bind_eq_some_iff, Prod.exists, Option.some.injEq,
    Prod.mk.injEq, block?_eq_some]
  constructor
  · rintro ⟨body, _, hbody, rfl, rfl⟩
    exact ⟨body, hbody, rfl⟩
  · rintro ⟨body, hbody, rfl⟩
    exact ⟨body, S', hbody, rfl, rfl⟩

/-! ### What elaboration leaves alone -/

/-- All that statements can change is the innermost frame, the strings and the numbers. -/
structure Keeps (S S' : Standing) : Prop where
  table : S'.table = S.table
  owner : S'.owner = S.owner
  method : S'.method = S.method
  parameter : S'.scope.parameter = S.scope.parameter
  enclosing : S'.scope.enclosing = S.scope.enclosing

theorem Keeps.refl (S : Standing) : S.Keeps S := ⟨rfl, rfl, rfl, rfl, rfl⟩

theorem Keeps.trans {S S₁ S₂ : Standing} (h : S.Keeps S₁) (h' : S₁.Keeps S₂) : S.Keeps S₂ :=
  ⟨h'.table.trans h.table, h'.owner.trans h.owner, h'.method.trans h.method,
    h'.parameter.trans h.parameter, h'.enclosing.trans h.enclosing⟩

theorem Elaborates.keeps {s : Tree.Simple} {command : Command}
    (h : S.Elaborates s command S') : S.Keeps S' := by
  cases h <;> exact ⟨rfl, rfl, rfl, rfl, rfl⟩

/-- Behind a block the scope is what it was before. -/
theorem Keeps.scope_leave {S S₁ : Standing} (h : S.draw.enter.Keeps S₁) :
    S₁.leave.scope = S.scope := by
  have henclosing : S₁.scope.enclosing = S.scope.frame :: S.scope.enclosing := h.enclosing
  have hparameter : S₁.scope.parameter = S.scope.parameter := h.parameter
  simp only [leave, Scope.pop, henclosing, hparameter]

theorem Keeps.leave {S S₁ : Standing} (h : S.draw.enter.Keeps S₁) : S.Keeps S₁.leave :=
  ⟨h.table, h.owner, h.method, by rw [h.scope_leave], by rw [h.scope_leave]⟩

theorem ElaboratesBlock.keeps {t : Tree.Block} {body : Body} (h : ElaboratesBlock S t body S') :
    S.Keeps S' := by
  induction h with
  | finish => exact .refl _
  | simple hsimple _ ih => exact hsimple.keeps.trans ih
  | branch _ _ _ ihInner ihRest => exact ihInner.leave.trans ihRest

end Standing

end ClassLang
