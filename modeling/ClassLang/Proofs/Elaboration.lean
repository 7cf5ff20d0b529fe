/-
  ClassLang/Proofs/Elaboration.lean
  =================================
  **What a program tree is compiled to.**

  The pass reads, checks and compiles in one go.  Here is the same work done on a
  tree: names are resolved, declarations get their storage, and the result is the
  checked body with the surroundings in which the next statement stands.  There are
  no tokens and no log, so every function below is a recursion on the tree.

  A `Standing` is the state of the pass without tokens and log.  That the pass over
  the tokens of a tree is elaboration of the tree is the subject of
  `ClassLang.Proofs.Parsing`.
-/
import ClassLang.Compilation
import ClassLang.Proofs.Taking

namespace ClassLang

def Ty.className? : Ty → Option String
  | .object c => some c
  | _ => none

theorem Ty.className?_eq_some {type : Ty} {c : String} :
    type.className? = some c ↔ type = .object c := by
  cases type <;> simp [className?]

/-! ### Statements without storage -/

namespace Context

def place? (Γ : Context) : Tree.Place → Option Place
  | .variable x => do
    let symbol ← Γ.scope.find? x
    let storage ← (Γ.storage symbol).toOption
    some (.binding symbol storage)
  | .receiverField f => do
    let owner ← Γ.owner
    let index ← Γ.table.fieldIndex? owner f
    some (.receiverField f index)
  | .objectField x f => do
    let symbol ← Γ.scope.find? x
    let c ← symbol.type.className?
    let index ← Γ.table.fieldIndex? c f
    let storage ← (Γ.storage symbol).toOption
    some (.objectField symbol storage f index)

def value? (Γ : Context) : Tree.Value → Option Value
  | .number digits => (Text.word? digits.toList).map .literal
  | .place p => (Γ.place? p).map .place

/-- The value that a tree names, if it has the type wanted. -/
def valueOf? (Γ : Context) (type : Ty) (v : Tree.Value) : Option Value :=
  (Γ.value? v).filter fun value => value.type = type

def type? (Γ : Context) (type : Tree.TypeName) : Option Ty :=
  (Γ.declaredType type.lexeme).toOption

/-- The string variable of a name; a parameter is none. -/
def stringLabel? (Γ : Context) (x : String) : Option String := do
  let symbol ← Γ.scope.find? x
  if symbol.type = .string then symbol.label else none

/-- What a variable of a type begins with. -/
def initial? (Γ : Context) (x : String) : Ty → Tree.Initial → Option Request
  | .int, .value v => (Γ.valueOf? .int v).map (.number x)
  | .string, .text content => some (.string x (stringBytes content))
  | .string, .value (.place (.variable y)) =>
      (Γ.stringLabel? y).map fun label => .string x (Γ.bytesAt label)
  | .object c, .create created =>
      if (Γ.table.resolveType created).toOption = some (.object c) then some (.create x c) else none
  | .object c, .value v => (Γ.valueOf? (.object c) v).map (.copy x c)
  | _, _ => none

/-- An assignment to a place; strings cannot be assigned to. -/
def assignment? (Γ : Context) (target : Place) (v : Tree.Value) : Option Request :=
  match target.type with
  | .int => (Γ.valueOf? .int v).map fun value => .ready (.assignNumber target value)
  | .string => none
  | .object c => (Γ.valueOf? (.object c) v).map fun value =>
      .ready (.assignObject target value (Γ.table.fieldCount c))

/-- The object and the method that a call names. -/
def callee? (Γ : Context) : Tree.Callee → Option (Receiver × String)
  | .bare m => Γ.owner.map fun owner => (.current owner, m)
  | .receiver m => Γ.owner.map fun owner => (.current owner, m)
  | .object x m => do
    let symbol ← Γ.scope.find? x
    let c ← symbol.type.className?
    let storage ← (Γ.storage symbol).toOption
    some (.object symbol c storage, m)

/-- The argument of a call: there is one exactly if there is a parameter. -/
def argument? (Γ : Context) : Option Parameter → Option Tree.Value → Option (Option Value)
  | none, none => some none
  | some p, some v => (Γ.valueOf? p.type v).map some
  | _, _ => none

def text? (Γ : Context) : Tree.Text → Option Request
  | .literal content => some (.printLiteral (stringBytes content))
  | .variable x => do
    let symbol ← Γ.scope.find? x
    if symbol.type = .string then some (.ready (.printText (.named symbol))) else none

def request? (Γ : Context) : Tree.Simple → Option Request
  | .declare type x initial => do
    let type ← Γ.type? type
    if (Γ.scope.findInnermost? x).isSome then none else Γ.initial? x type initial
  | .assign target v => do
    let target ← Γ.place? target
    Γ.assignment? target v
  | .call callee argument => do
    let (receiver, m) ← Γ.callee? callee
    let signature ← Γ.table.method? receiver.owner m
    let argument ← Γ.argument? signature.parameter argument
    some (.ready (.call receiver signature argument))
  | .print v => (Γ.valueOf? .int v).map fun value => .ready (.print value)
  | .printText text => Γ.text? text

def condition? (Γ : Context) (c : Tree.Condition) : Option Condition := do
  let left ← Γ.valueOf? .int c.left
  let right ← Γ.valueOf? .int c.right
  some ⟨left, c.relation, right⟩

/-! What each of these functions has found, where it finds something. -/

section

variable {Γ : Context} {x f m m' : String} {type : Ty} {place : Place} {receiver : Receiver}

theorem place?_variable : Γ.place? (.variable x) = some place ↔
    ∃ s, Γ.scope.find? x = some s ∧ ∃ storage, Γ.storage s = .ok storage ∧
      .binding s storage = place := by
  simp only [place?, Option.bind_eq_bind, Option.bind_eq_some_iff, Option.some.injEq,
    toOption_eq_some]

theorem place?_receiverField : Γ.place? (.receiverField f) = some place ↔
    ∃ owner, Γ.owner = some owner ∧ ∃ index, Γ.table.fieldIndex? owner f = some index ∧
      .receiverField f index = place := by
  simp only [place?, Option.bind_eq_bind, Option.bind_eq_some_iff, Option.some.injEq]

theorem place?_objectField : Γ.place? (.objectField x f) = some place ↔
    ∃ s, Γ.scope.find? x = some s ∧ ∃ c, s.type = .object c ∧
      ∃ index, Γ.table.fieldIndex? c f = some index ∧ ∃ storage, Γ.storage s = .ok storage ∧
        .objectField s storage f index = place := by
  simp only [place?, Option.bind_eq_bind, Option.bind_eq_some_iff, Option.some.injEq,
    toOption_eq_some, Ty.className?_eq_some]

theorem valueOf?_number {digits : String} {value : Value} :
    Γ.valueOf? type (.number digits) = some value ↔
      ∃ n, Text.word? digits.toList = some n ∧ .int = type ∧ .literal n = value := by
  simp only [valueOf?, value?, Option.filter_eq_some_iff, Option.map_eq_some_iff,
    decide_eq_true_eq]
  constructor
  · rintro ⟨⟨n, hn, rfl⟩, htype⟩
    exact ⟨n, hn, htype, rfl⟩
  · rintro ⟨n, hn, htype, rfl⟩
    exact ⟨⟨n, hn, rfl⟩, htype⟩

theorem valueOf?_place {p : Tree.Place} {value : Value} :
    Γ.valueOf? type (.place p) = some value ↔
      ∃ place, Γ.place? p = some place ∧ place.type = type ∧ .place place = value := by
  simp only [valueOf?, value?, Option.filter_eq_some_iff, Option.map_eq_some_iff,
    decide_eq_true_eq]
  constructor
  · rintro ⟨⟨place, hplace, rfl⟩, htype⟩
    exact ⟨place, hplace, htype, rfl⟩
  · rintro ⟨place, hplace, htype, rfl⟩
    exact ⟨⟨place, hplace, rfl⟩, htype⟩

theorem callee?_object : Γ.callee? (.object x m) = some (receiver, m') ↔
    ∃ s, Γ.scope.find? x = some s ∧ ∃ c, s.type = .object c ∧
      ∃ storage, Γ.storage s = .ok storage ∧ .object s c storage = receiver ∧ m = m' := by
  simp only [callee?, Option.bind_eq_bind, Option.bind_eq_some_iff, Option.some.injEq,
    Prod.mk.injEq, toOption_eq_some, Ty.className?_eq_some]

/-- There is an argument exactly if there is a parameter, and then it has its type. -/
theorem argument?_cases {q : Option Parameter} {a : Option Tree.Value} {argument : Option Value}
    (h : Γ.argument? q a = some argument) :
    (q = none ∧ a = none ∧ argument = none) ∨
      ∃ p v value, q = some p ∧ a = some v ∧ argument = some value ∧
        Γ.valueOf? p.type v = some value := by
  unfold argument? at h
  split at h
  · cases h
    exact .inl ⟨rfl, rfl, rfl⟩
  · obtain ⟨value, hvalue, rfl⟩ := Option.map_eq_some_iff.1 h
    exact .inr ⟨_, _, value, rfl, rfl, rfl, hvalue⟩
  · cases h

theorem stringLabel?_eq_some {label : String} : Γ.stringLabel? x = some label ↔
    ∃ s, Γ.scope.find? x = some s ∧ s.type = .string ∧ s.label = some label := by
  simp only [stringLabel?, Option.bind_eq_bind, Option.bind_eq_some_iff,
    Option.ite_none_right_eq_some]

theorem text?_variable {request : Request} : Γ.text? (.variable x) = some request ↔
    ∃ s, Γ.scope.find? x = some s ∧ s.type = .string ∧
      .ready (.printText (.named s)) = request := by
  simp only [text?, Option.bind_eq_bind, Option.bind_eq_some_iff, Option.ite_none_right_eq_some,
    Option.some.injEq]

/-- Numbers and objects can be assigned, each to a place of its type. -/
theorem assignment?_cases {target : Place} {v : Tree.Value} {request : Request}
    (h : Γ.assignment? target v = some request) :
    (target.type = .int ∧ ∃ value, Γ.valueOf? .int v = some value ∧
      request = .ready (.assignNumber target value)) ∨
    ∃ c, target.type = .object c ∧ ∃ value, Γ.valueOf? (.object c) v = some value ∧
      request = .ready (.assignObject target value (Γ.table.fieldCount c)) := by
  unfold assignment? at h
  split at h
  · rename_i htype
    obtain ⟨value, hvalue, rfl⟩ := Option.map_eq_some_iff.1 h
    exact .inl ⟨htype, value, hvalue, rfl⟩
  · cases h
  · rename_i c htype
    obtain ⟨value, hvalue, rfl⟩ := Option.map_eq_some_iff.1 h
    exact .inr ⟨c, htype, value, hvalue, rfl⟩

theorem request?_declare {name : Tree.TypeName} {initial : Tree.Initial} {request : Request} :
    Γ.request? (.declare name x initial) = some request ↔
      ∃ type, Γ.type? name = some type ∧ Γ.scope.findInnermost? x = none ∧
        Γ.initial? x type initial = some request := by
  simp only [request?, Option.bind_eq_bind, Option.bind_eq_some_iff,
    Option.ite_none_left_eq_some, Bool.not_eq_true, Option.isSome_eq_false_iff,
    Option.isNone_iff_eq_none]

theorem request?_assign {p : Tree.Place} {v : Tree.Value} {request : Request} :
    Γ.request? (.assign p v) = some request ↔
      ∃ target, Γ.place? p = some target ∧ Γ.assignment? target v = some request := by
  simp only [request?, Option.bind_eq_bind, Option.bind_eq_some_iff]

theorem request?_call {callee : Tree.Callee} {a : Option Tree.Value} {request : Request} :
    Γ.request? (.call callee a) = some request ↔
      ∃ receiver m, Γ.callee? callee = some (receiver, m) ∧
        ∃ signature, Γ.table.method? receiver.owner m = some signature ∧
          ∃ argument, Γ.argument? signature.parameter a = some argument ∧
            .ready (.call receiver signature argument) = request := by
  simp only [request?, Option.bind_eq_bind, Option.bind_eq_some_iff, Option.some.injEq,
    Prod.exists]

theorem condition?_eq_some {c : Tree.Condition} {condition : Condition} :
    Γ.condition? c = some condition ↔
      ∃ left, Γ.valueOf? .int c.left = some left ∧
        ∃ right, Γ.valueOf? .int c.right = some right ∧ ⟨left, c.relation, right⟩ = condition := by
  simp only [condition?, Option.bind_eq_bind, Option.bind_eq_some_iff, Option.some.injEq]

end

end Context

/-! ### Statements with storage -/

/-- The state of the pass without tokens and log. -/
structure Standing extends Context where
  labels : Nat
deriving DecidableEq, Repr

def State.standing (σ : State) : Standing := ⟨σ.toContext, σ.labels⟩

namespace Standing

def initial : Standing :=
  ⟨⟨.empty, .empty, none, "", ⟨[], Label.fixed⟩⟩, 0⟩

def declare? (S : Standing) (symbol : Symbol) : Option Standing :=
  (S.scope.declare symbol).toOption.map fun scope => { S with scope }

/-- Declare a variable on the stack, and tell where it lies. -/
def onStack? (S : Standing) (x : String) (type : Ty) : Option (Nat × Standing) := do
  let S ← S.declare? (.onStack x type)
  let offset ← (S.stackOffset x).toOption
  some (offset, S)

/-- The label that a string of the given name gets. -/
def stringLabel (S : Standing) (x : String) : String :=
  S.data.freeLabel (Label.data S.owner S.method x)

def store (S : Standing) (x : String) (bytes : List UInt8) : Standing :=
  { S with data := (S.data.insert (Label.data S.owner S.method x) bytes).2 }

def draw (S : Standing) : Standing := { S with labels := S.labels + 1 }

/-- The name of the literal that gets the number drawn last. -/
def literalName (S : Standing) : String := "literal_" ++ toString S.labels

/-- Give a checked statement the storage that it needs. -/
def fulfil? (S : Standing) : Request → Option (Command × Standing)
  | .number x value => do
    let (offset, S) ← S.onStack? x .int
    some (.declareNumber x value offset, S)
  | .string x bytes => do
    let label := S.stringLabel x
    let S ← (S.store x bytes).declare? (.inData x label)
    some (.declareString x label, S)
  | .create x c => do
    let (offset, S) ← S.onStack? x (.object c)
    some (.createObject x c (S.table.fieldCount c) offset, S)
  | .copy x c source => do
    let (offset, S) ← S.onStack? x (.object c)
    some (.copyObject x c source (S.table.fieldCount c) offset, S)
  | .printLiteral bytes =>
      let S := S.draw
      some (.printText (.literal (S.stringLabel S.literalName)), S.store S.literalName bytes)
  | .ready command => some (command, S)

/-- A statement without a block. -/
def simple? (S : Standing) (s : Tree.Simple) : Option (Command × Standing) := do
  let request ← S.request? s
  S.fulfil? request

def enter (S : Standing) : Standing := { S with scope := S.scope.push }

def leave (S : Standing) : Standing := { S with scope := S.scope.pop }

def block? (S : Standing) : Tree.Block → Option (Body × Standing)
  | .finish => some (.finish (S.scope.frameBytes S.table), S)
  | .simple s rest => do
    let (command, S₁) ← S.simple? s
    let (body, S₂) ← S₁.block? rest
    some (.simple command body, S₂)
  | .branch kind condition inner rest => do
    let condition ← S.condition? condition
    let (innerBody, S₁) ← S.draw.enter.block? inner
    let (restBody, S₂) ← S₁.leave.block? rest
    some (.branch ⟨kind, condition, S.draw.labels⟩ innerBody restBody, S₂)

/-! ### Definitions -/

/-- Do the same for one tree after the other. -/
def each? {α β : Type} (f : Standing → α → Option (β × Standing)) (S : Standing) :
    List α → Option (List β × Standing)
  | [] => some ([], S)
  | a :: rest => do
    let (b, S₁) ← f S a
    let (bs, S₂) ← each? f S₁ rest
    some (b :: bs, S₂)

def parameter? (S : Standing) : Option Tree.Parameter → Option (Option Parameter)
  | none => some none
  | some p => (S.type? p.type).map fun type => some ⟨p.name, type⟩

/-- Take a label for a method. -/
def claim? (S : Standing) (label : String) : Option Standing :=
  if Label.isGenerated label || S.data.isTaken label then none
  else some { S with data := S.data.reserve label }

/-- Begin a routine: nothing is declared yet but the parameter. -/
def begin (S : Standing) (owner : Option String) (method : String)
    (parameter : Option Parameter) : Standing :=
  { S with owner, method, scope := ⟨[], [], parameter.map Symbol.ofParameter⟩ }

/-- A method enters the table and takes its label. -/
def header? (S : Standing) (owner : String) (m : Tree.Method) : Option Standing := do
  let parameter ← S.parameter? m.parameter
  let table ← (S.table.addMethod owner ⟨m.name, parameter⟩).toOption
  let S ← { S with table }.claim? (Label.method owner m.name)
  some (S.begin (some owner) m.name parameter)

def method? (owner : String) (S : Standing) (m : Tree.Method) : Option (Routine × Standing) := do
  let S ← S.header? owner m
  let (body, S) ← S.block? m.body
  some (⟨some owner, m.name, body⟩, S)

def field? (owner : String) (S : Standing) (f : String) : Option (Unit × Standing) :=
  (S.table.addField owner f).toOption.map fun table => ((), { S with table })

def openClass? (S : Standing) (c : Tree.Class) : Option Standing := do
  let table ← (S.table.declareClass c.name).toOption
  let (_, S) ← each? (field? c.name) { S with table, owner := some c.name } c.fields
  some S

def closeClass (S : Standing) (c : String) : Standing :=
  { S with table := S.table.close c, owner := none }

def class? (S : Standing) (c : Tree.Class) : Option (List Routine × Standing) := do
  let S ← S.openClass? c
  let (methods, S) ← each? (method? c.name) S c.methods
  some (methods, S.closeClass c.name)

theorem block?_simple {S S' : Standing} {s : Tree.Simple} {rest : Tree.Block} {body : Body} :
    S.block? (.simple s rest) = some (body, S') ↔
      ∃ command S₁, S.simple? s = some (command, S₁) ∧
        ∃ b, S₁.block? rest = some (b, S') ∧ .simple command b = body := by
  simp only [block?, Option.bind_eq_bind, Option.bind_eq_some_iff, Prod.exists, Option.some.injEq,
    Prod.mk.injEq]
  constructor
  · rintro ⟨command, S₁, hsimple, b, S₂, hrest, rfl, rfl⟩
    exact ⟨command, S₁, hsimple, b, hrest, rfl⟩
  · rintro ⟨command, S₁, hsimple, b, hrest, rfl⟩
    exact ⟨command, S₁, hsimple, b, S', hrest, rfl, rfl⟩

theorem block?_branch {S S' : Standing} {kind : BranchKind} {c : Tree.Condition}
    {inner rest : Tree.Block} {body : Body} :
    S.block? (.branch kind c inner rest) = some (body, S') ↔
      ∃ condition, S.condition? c = some condition ∧
        ∃ b S₁, S.draw.enter.block? inner = some (b, S₁) ∧
          ∃ b', S₁.leave.block? rest = some (b', S') ∧
            .branch ⟨kind, condition, S.draw.labels⟩ b b' = body := by
  simp only [block?, Option.bind_eq_bind, Option.bind_eq_some_iff, Prod.exists, Option.some.injEq,
    Prod.mk.injEq]
  constructor
  · rintro ⟨condition, hcondition, b, S₁, hinner, b', S₂, hrest, rfl, rfl⟩
    exact ⟨condition, hcondition, b, S₁, hinner, b', hrest, rfl⟩
  · rintro ⟨condition, hcondition, b, S₁, hinner, b', hrest, rfl⟩
    exact ⟨condition, hcondition, b, S₁, hinner, b', S', hrest, rfl, rfl⟩

theorem each?_cons {α β : Type} {f : Standing → α → Option (β × Standing)} {S S' : Standing}
    {a : α} {as : List α} {bs : List β} :
    S.each? f (a :: as) = some (bs, S') ↔ ∃ b S₁, f S a = some (b, S₁) ∧
      ∃ bs' S₂, S₁.each? f as = some (bs', S₂) ∧ b :: bs' = bs ∧ S₂ = S' := by
  simp only [each?, Option.bind_eq_bind, Option.bind_eq_some_iff, Prod.exists, Option.some.injEq,
    Prod.mk.injEq]

end Standing

/-- The entry point, behind all classes. -/
def Standing.main? (S : Standing) (body : Tree.Block) : Option (Routine × Standing) := do
  let method := Keyword.mainDef.text
  let (body, S) ← (S.begin none method none).block? body
  some (⟨none, method, body⟩, S)

/-- What a program tree is compiled to, if it passes every check. -/
def Tree.Program.compile? (p : Tree.Program) : Option Compilation := do
  let (methods, S) ← Standing.initial.each? Standing.class? p.classes
  let (entry, S) ← S.main? p.main
  some ⟨entry, methods.flatten, S.data, S.table⟩

theorem Tree.Program.compile?_eq_some {p : Tree.Program} {compilation : Compilation} :
    p.compile? = some compilation ↔
      ∃ rss S₁, Standing.initial.each? Standing.class? p.classes = some (rss, S₁) ∧
        ∃ entry S₂, S₁.main? p.main = some (entry, S₂) ∧
          ⟨entry, rss.flatten, S₂.data, S₂.table⟩ = compilation := by
  simp only [compile?, Option.bind_eq_bind, Option.bind_eq_some_iff, Prod.exists,
    Option.some.injEq]

end ClassLang
