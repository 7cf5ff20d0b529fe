/-
  ClassLang/Proofs/Renaming.lean
  ==============================
  **Other names for the same things.**

  A renaming gives every name another one and no two the same.  In a tree it renames
  whatever is spelled as an identifier, so it renames the tokens one by one
  (`Program.yield_rename`).  In what the pass keeps it renames variables, parameters and
  fields only: classes and methods are in the labels of the code, and a renaming that
  the program is to survive leaves them alone.

  Names serve two purposes in the pass, to be looked up and to make labels.  Look-ups
  compare names, and a renaming keeps equal what is equal and different what is not, so
  each of them finds what it found before, renamed.  Code is made of offsets, indices
  and labels, so renaming a checked body does not change its code.
-/
import ClassLang.Proofs.ElaborationRules
import ClassLang.Proofs.Names

namespace ClassLang

/-! ### Renamings -/

/-- A map of names to names that keeps them apart.  Words that are no names stay as they are. -/
structure Renaming where
  word : String → String
  names : ∀ x, IsName x → IsName (word x)
  apart : ∀ x y, IsName x → IsName y → word x = word y → x = y
  others : ∀ x, ¬IsName x → word x = x

namespace Renaming

instance : CoeFun Renaming fun _ => String → String := ⟨word⟩

theorem injective (ρ : Renaming) : Function.Injective ρ := by
  intro x y hxy
  by_cases hx : IsName x
  · by_cases hy : IsName y
    · exact ρ.apart x y hx hy hxy
    · rw [ρ.others y hy] at hxy
      exact absurd (hxy ▸ ρ.names x hx) hy
  · by_cases hy : IsName y
    · rw [ρ.others x hx] at hxy
      exact absurd (hxy ▸ ρ.names y hy) hx
    · rwa [ρ.others x hx, ρ.others y hy] at hxy

@[simp]
theorem beq_iff (ρ : Renaming) (x y : String) : (ρ x == ρ y) = (x == y) := by
  rw [Bool.eq_iff_iff, beq_iff_eq, beq_iff_eq, ρ.injective.eq_iff]

/-- A reserved word is no name, so it is not renamed. -/
theorem reserved (ρ : Renaming) {x : String} {w : Keyword} (h : Keyword.ofText? x = some w) :
    ρ x = x := by
  apply ρ.others
  intro hname
  rw [hname.free] at h
  cases h

end Renaming

/-! ### Trees -/

def Lexeme.rename (ρ : Renaming) : Lexeme → Lexeme
  | .identifier x => .identifier (ρ x)
  | l => l

namespace Tree

def Place.rename (ρ : Renaming) : Place → Place
  | .variable x => .variable (ρ x)
  | .receiverField f => .receiverField (ρ f)
  | .objectField x f => .objectField (ρ x) (ρ f)

def Value.rename (ρ : Renaming) : Value → Value
  | .number digits => .number digits
  | .place p => .place (p.rename ρ)

def TypeName.rename (ρ : Renaming) : TypeName → TypeName
  | .int => .int
  | .string => .string
  | .named c => .named (ρ c)

def Initial.rename (ρ : Renaming) : Initial → Initial
  | .value v => .value (v.rename ρ)
  | .text content => .text content
  | .create c => .create (ρ c)

def Text.rename (ρ : Renaming) : Text → Text
  | .literal content => .literal content
  | .variable x => .variable (ρ x)

def Callee.rename (ρ : Renaming) : Callee → Callee
  | .bare m => .bare (ρ m)
  | .receiver m => .receiver (ρ m)
  | .object x m => .object (ρ x) (ρ m)

def Condition.rename (ρ : Renaming) (c : Condition) : Condition :=
  ⟨c.left.rename ρ, c.relation, c.right.rename ρ⟩

def Simple.rename (ρ : Renaming) : Simple → Simple
  | .declare type x initial => .declare (type.rename ρ) (ρ x) (initial.rename ρ)
  | .assign target v => .assign (target.rename ρ) (v.rename ρ)
  | .call callee argument => .call (callee.rename ρ) (argument.map (Value.rename ρ))
  | .print v => .print (v.rename ρ)
  | .printText text => .printText (text.rename ρ)

def Block.rename (ρ : Renaming) : Block → Block
  | .finish => .finish
  | .simple s rest => .simple (s.rename ρ) (rest.rename ρ)
  | .branch kind c inner rest => .branch kind (c.rename ρ) (inner.rename ρ) (rest.rename ρ)

theorem Block.rename_ne_finish {ρ : Renaming} {t : Block} (h : t ≠ .finish) :
    t.rename ρ ≠ .finish := by
  cases t with
  | finish => exact absurd rfl h
  | simple | branch => exact nofun

def Parameter.rename (ρ : Renaming) (q : Parameter) : Parameter :=
  ⟨q.type.rename ρ, ρ q.name⟩

def Method.rename (ρ : Renaming) (m : Method) : Method where
  name := ρ m.name
  parameter := m.parameter.map (Parameter.rename ρ)
  body := m.body.rename ρ
  body_ne := Block.rename_ne_finish m.body_ne

def Class.rename (ρ : Renaming) (c : Class) : Class where
  name := ρ c.name
  fields := c.fields.map ρ
  methods := c.methods.map (Method.rename ρ)
  fields_ne h := c.fields_ne (List.map_eq_nil_iff.1 h)
  methods_ne h := c.methods_ne (List.map_eq_nil_iff.1 h)

def Program.rename (ρ : Renaming) (p : Program) : Program where
  classes := p.classes.map (Class.rename ρ)
  main := p.main.rename ρ
  main_ne := Block.rename_ne_finish p.main_ne

/-! ### Yields -/

section

variable (ρ : Renaming)

@[simp]
theorem Place.yield_rename (p : Place) : (p.rename ρ).yield = p.yield.map (Lexeme.rename ρ) := by
  cases p <;> rfl

@[simp]
theorem Value.yield_rename (v : Value) : (v.rename ρ).yield = v.yield.map (Lexeme.rename ρ) := by
  cases v with
  | number digits => rfl
  | place p => exact p.yield_rename ρ

@[simp]
theorem TypeName.lexeme_rename (t : TypeName) : (t.rename ρ).lexeme = t.lexeme.rename ρ := by
  cases t <;> rfl

@[simp]
theorem Initial.yield_rename (i : Initial) :
    (i.rename ρ).yield = i.yield.map (Lexeme.rename ρ) := by
  cases i with
  | value v => exact v.yield_rename ρ
  | text | create => rfl

@[simp]
theorem Text.lexeme_rename (t : Text) : (t.rename ρ).lexeme = t.lexeme.rename ρ := by
  cases t <;> rfl

@[simp]
theorem Callee.yield_rename (c : Callee) : (c.rename ρ).yield = c.yield.map (Lexeme.rename ρ) := by
  cases c <;> rfl

@[simp]
theorem argumentYield_rename (a : Option Value) :
    argumentYield (a.map (Value.rename ρ)) = (argumentYield a).map (Lexeme.rename ρ) := by
  cases a with
  | none => rfl
  | some v => exact v.yield_rename ρ

@[simp]
theorem Condition.yield_rename (c : Condition) :
    (c.rename ρ).yield = c.yield.map (Lexeme.rename ρ) := by
  simp [Condition.yield, Condition.rename, Lexeme.rename]

@[simp]
theorem Simple.yield_rename (s : Simple) : (s.rename ρ).yield = s.yield.map (Lexeme.rename ρ) := by
  cases s <;> simp [Simple.yield, Simple.rename, Lexeme.rename]

@[simp]
theorem Block.yield_rename (t : Block) : (t.rename ρ).yield = t.yield.map (Lexeme.rename ρ) := by
  induction t with
  | finish => rfl
  | simple s rest ih => simp [Block.yield, Block.rename, ih]
  | branch kind c inner rest ihInner ihRest =>
    simp [Block.yield, Block.rename, Lexeme.rename, ihInner, ihRest]

@[simp]
theorem parameterYield_rename (q : Option Parameter) :
    parameterYield (q.map (Parameter.rename ρ)) = (parameterYield q).map (Lexeme.rename ρ) := by
  cases q with
  | none => rfl
  | some q => simp [parameterYield, Parameter.rename, Lexeme.rename]

@[simp]
theorem Method.yield_rename (m : Method) : (m.rename ρ).yield = m.yield.map (Lexeme.rename ρ) := by
  simp [Method.yield, Method.rename, Lexeme.rename]

@[simp]
theorem Class.yield_rename (c : Class) : (c.rename ρ).yield = c.yield.map (Lexeme.rename ρ) := by
  simp [Class.yield, Class.rename, fieldYield, Lexeme.rename, List.flatMap_map, List.map_flatMap]

/-- Renaming a tree is renaming its tokens, one by one. -/
theorem Program.yield_rename (p : Program) :
    (p.rename ρ).yield = p.yield.map (Lexeme.rename ρ) := by
  simp [Program.yield, Program.rename, mainYield, Lexeme.rename, List.flatMap_map,
    List.map_flatMap]

end

end Tree

/-! ### Classes -/

def Parameter.rename (ρ : Renaming) (p : Parameter) : Parameter := { p with name := ρ p.name }

def Signature.rename (ρ : Renaming) (s : Signature) : Signature :=
  { s with parameter := s.parameter.map (Parameter.rename ρ) }

def ClassDef.rename (ρ : Renaming) (d : ClassDef) : ClassDef :=
  { d with fields := d.fields.map ρ, methods := d.methods.map (Signature.rename ρ) }

/-- Other names for fields and parameters; classes and methods keep theirs. -/
def ClassTable.rename (ρ : Renaming) (t : ClassTable) : ClassTable :=
  { t with classes := t.classes.map (ClassDef.rename ρ) }

section

variable (ρ : Renaming)

theorem Signature.argumentBytes_rename (s : Signature) :
    (s.rename ρ).argumentBytes = s.argumentBytes := by
  simp [argumentBytes, rename]

theorem ClassDef.fieldIndex?_rename (d : ClassDef) (f : String) :
    (d.rename ρ).fieldIndex? (ρ f) = d.fieldIndex? f := by
  simp [fieldIndex?, rename, List.findIdx?_map, Function.comp_def]

theorem ClassDef.method?_rename (d : ClassDef) (m : String) :
    (d.rename ρ).method? m = (d.method? m).map (Signature.rename ρ) := by
  simp [method?, rename, List.find?_map, Function.comp_def, Signature.rename]

theorem ClassDef.instanceBytes_rename (d : ClassDef) :
    (d.rename ρ).instanceBytes = d.instanceBytes := by
  simp [instanceBytes, rename]

namespace ClassTable

@[simp]
theorem find?_rename (t : ClassTable) (n : String) :
    (t.rename ρ).find? n = (t.find? n).map (ClassDef.rename ρ) := by
  simp [find?, rename, List.find?_map, Function.comp_def, ClassDef.rename]

@[simp]
theorem fieldIndex?_rename (t : ClassTable) (owner f : String) :
    (t.rename ρ).fieldIndex? owner (ρ f) = t.fieldIndex? owner f := by
  rw [fieldIndex?, fieldIndex?, find?_rename]
  cases t.find? owner with
  | none => rfl
  | some d => exact d.fieldIndex?_rename ρ f

@[simp]
theorem method?_rename (t : ClassTable) (owner m : String) :
    (t.rename ρ).method? owner m = (t.method? owner m).map (Signature.rename ρ) := by
  rw [method?, method?, find?_rename]
  cases t.find? owner with
  | none => rfl
  | some d => exact d.method?_rename ρ m

@[simp]
theorem fieldCount_rename (t : ClassTable) (n : String) :
    (t.rename ρ).fieldCount n = t.fieldCount n := by
  simp [fieldCount, Function.comp_def, ClassDef.rename]

@[simp]
theorem slotBytes_rename (t : ClassTable) (type : Ty) :
    (t.rename ρ).slotBytes type = t.slotBytes type := by
  cases type <;> simp [slotBytes, Function.comp_def, ClassDef.instanceBytes_rename]

theorem resolveType_rename (t : ClassTable) (c : String) :
    (t.rename ρ).resolveType c = t.resolveType c := by
  unfold resolveType
  split
  · rw [find?_rename]
    cases t.find? _ <;> rfl
  · rfl

theorem replace_rename (t : ClassTable) (d : ClassDef) :
    (t.replace d).rename ρ = (t.rename ρ).replace (d.rename ρ) := by
  simp only [replace, rename, List.map_map, ClassTable.mk.injEq, and_true]
  apply List.map_congr_left
  intro old _
  by_cases hname : old.name = d.name <;> simp [ClassDef.rename, hname]

end ClassTable

end

/-! ### Scopes -/

def Symbol.rename (ρ : Renaming) (s : Symbol) : Symbol := { s with name := ρ s.name }

def Frame.rename (ρ : Renaming) (frame : Frame) : Frame := frame.map (Symbol.rename ρ)

def Scope.rename (ρ : Renaming) (scope : Scope) : Scope where
  frame := scope.frame.rename ρ
  enclosing := scope.enclosing.map (Frame.rename ρ)
  parameter := scope.parameter.map (Symbol.rename ρ)

section

variable (ρ : Renaming)

theorem Frame.find?_rename (frame : Frame) (x : String) :
    (frame.rename ρ).find? (ρ x) = (frame.find? x).map (Symbol.rename ρ) := by
  simp [Frame.find?, Frame.rename, List.find?_map, Function.comp_def, Symbol.rename]

theorem Frame.bytes_rename (table : ClassTable) (frame : Frame) :
    Frame.bytes (table.rename ρ) (frame.rename ρ) = Frame.bytes table frame := by
  induction frame with
  | nil => rfl
  | cons s frame ih =>
    rw [Frame.rename, List.map_cons, Frame.bytes, ClassTable.slotBytes_rename, ← Frame.rename, ih,
      Frame.bytes]
    rfl

namespace Scope

theorem frames_rename (scope : Scope) :
    (scope.rename ρ).frames = scope.frames.map (Frame.rename ρ) :=
  rfl

theorem parameter?_rename (scope : Scope) (x : String) :
    (scope.rename ρ).parameter? (ρ x) = (scope.parameter? x).map (Symbol.rename ρ) := by
  simp [parameter?, rename, Option.filter_map, Function.comp_def, Symbol.rename]

@[simp]
theorem find?_rename (scope : Scope) (x : String) :
    (scope.rename ρ).find? (ρ x) = (scope.find? x).map (Symbol.rename ρ) := by
  rw [find?, find?, frames_rename, parameter?_rename, List.findSome?_map, Option.map_or,
    List.map_findSome?]
  simp only [Function.comp_def, Frame.find?_rename]

@[simp]
theorem findInnermost?_rename (scope : Scope) (x : String) :
    (scope.rename ρ).findInnermost? (ρ x) = (scope.findInnermost? x).map (Symbol.rename ρ) := by
  rw [findInnermost?, findInnermost?, parameter?_rename, Option.map_or]
  simp only [rename, Frame.find?_rename, List.isEmpty_map]
  split <;> rfl

theorem framesBytes_rename (table : ClassTable) (frames : List Frame) :
    framesBytes (table.rename ρ) (frames.map (Frame.rename ρ)) = framesBytes table frames := by
  induction frames with
  | nil => rfl
  | cons frame frames ih => rw [List.map_cons, framesBytes, Frame.bytes_rename, ih, framesBytes]

theorem offsetIn?_rename (table : ClassTable) (x : String) (frames : List Frame) :
    offsetIn? (table.rename ρ) (ρ x) (frames.map (Frame.rename ρ)) = offsetIn? table x frames := by
  induction frames with
  | nil => rfl
  | cons frame frames ih =>
    have hindex : (frame.rename ρ).findIdx? (·.name == ρ x) = frame.findIdx? (·.name == x) := by
      simp [Frame.rename, List.findIdx?_map, Function.comp_def, Symbol.rename]
    have htake : ∀ n, (frame.rename ρ).take n = Frame.rename ρ (frame.take n) := by
      intro n
      exact List.map_take.symm
    simp only [List.map_cons, offsetIn?, hindex, framesBytes_rename, htake, Frame.bytes_rename, ih]

@[simp]
theorem offset?_rename (scope : Scope) (table : ClassTable) (x : String) :
    (scope.rename ρ).offset? (table.rename ρ) (ρ x) = scope.offset? table x :=
  offsetIn?_rename ρ table x scope.frames

theorem pop_rename (scope : Scope) : scope.pop.rename ρ = (scope.rename ρ).pop := by
  obtain ⟨frame, enclosing, parameter⟩ := scope
  cases enclosing <;> rfl

theorem extend_rename (scope : Scope) (s : Symbol) :
    (scope.extend s).rename ρ = (scope.rename ρ).extend (s.rename ρ) := by
  simp [extend, rename, Frame.rename]

end Scope

end

/-! ### Checked bodies -/

def Place.rename (ρ : Renaming) : Place → Place
  | .binding s storage => .binding (s.rename ρ) storage
  | .receiverField f index => .receiverField (ρ f) index
  | .objectField s storage f index => .objectField (s.rename ρ) storage (ρ f) index

def Value.rename (ρ : Renaming) : Value → Value
  | .place p => .place (p.rename ρ)
  | .literal n => .literal n

def Receiver.rename (ρ : Renaming) : Receiver → Receiver
  | .current owner => .current owner
  | .object s owner storage => .object (s.rename ρ) owner storage

def TextSource.rename (ρ : Renaming) : TextSource → TextSource
  | .literal label => .literal label
  | .named s => .named (s.rename ρ)

def Command.rename (ρ : Renaming) : Command → Command
  | .declareNumber x value offset => .declareNumber (ρ x) (value.rename ρ) offset
  | .declareString x label => .declareString (ρ x) label
  | .createObject x c fields offset => .createObject (ρ x) c fields offset
  | .copyObject x c source fields offset => .copyObject (ρ x) c (source.rename ρ) fields offset
  | .assignNumber target value => .assignNumber (target.rename ρ) (value.rename ρ)
  | .assignObject target value fields => .assignObject (target.rename ρ) (value.rename ρ) fields
  | .call receiver method argument =>
      .call (receiver.rename ρ) (method.rename ρ) (argument.map (Value.rename ρ))
  | .print value => .print (value.rename ρ)
  | .printText source => .printText (source.rename ρ)

def Condition.rename (ρ : Renaming) (c : Condition) : Condition :=
  ⟨c.left.rename ρ, c.relation, c.right.rename ρ⟩

def Branch.rename (ρ : Renaming) (head : Branch) : Branch :=
  { head with condition := head.condition.rename ρ }

def Body.rename (ρ : Renaming) : Body → Body
  | .finish bytes => .finish bytes
  | .simple command rest => .simple (command.rename ρ) (rest.rename ρ)
  | .branch head inner rest => .branch (head.rename ρ) (inner.rename ρ) (rest.rename ρ)

def Routine.rename (ρ : Renaming) (r : Routine) : Routine := { r with body := r.body.rename ρ }

section

variable (ρ : Renaming)

@[simp]
theorem Place.type_rename (p : Place) : (p.rename ρ).type = p.type := by
  cases p <;> rfl

@[simp]
theorem Place.address_rename (p : Place) : (p.rename ρ).address = p.address := by
  cases p <;> rfl

@[simp]
theorem Place.fetch_rename (p : Place) (target : Register) :
    (p.rename ρ).fetch target = p.fetch target := by
  cases p <;> rfl

@[simp]
theorem Value.type_rename (v : Value) : (v.rename ρ).type = v.type := by
  cases v with
  | place p => exact p.type_rename ρ
  | literal n => rfl

@[simp]
theorem Value.fetch_rename (v : Value) (target : Register) :
    (v.rename ρ).fetch target = v.fetch target := by
  cases v with
  | place p => exact p.fetch_rename ρ target
  | literal n => rfl

theorem Receiver.owner_rename (r : Receiver) : (r.rename ρ).owner = r.owner := by
  cases r <;> rfl

theorem Receiver.address_rename (r : Receiver) : (r.rename ρ).address = r.address := by
  cases r <;> rfl

theorem TextSource.push_rename (t : TextSource) : (t.rename ρ).push = t.push := by
  cases t <;> rfl

theorem Command.code_rename (command : Command) : (command.rename ρ).code = command.code := by
  cases command with
  | call receiver method argument =>
    have hname : (method.rename ρ).name = method.name := rfl
    cases argument <;> simp [Command.rename, Command.code, Receiver.owner_rename,
      Receiver.address_rename, Signature.argumentBytes_rename, hname]
  | printText source => simp [Command.rename, Command.code, TextSource.push_rename]
  | _ => simp [Command.rename, Command.code]

theorem Condition.jumpUnless_rename (c : Condition) (target : String) :
    (c.rename ρ).jumpUnless target = c.jumpUnless target := by
  simp [Condition.jumpUnless, Condition.rename]

theorem Branch.opening_rename (head : Branch) : (head.rename ρ).opening = head.opening := by
  simp only [Branch.opening, Branch.rename, Condition.jumpUnless_rename]

theorem Branch.closing_rename (head : Branch) : (head.rename ρ).closing = head.closing := rfl

theorem Body.code_rename (body : Body) : (body.rename ρ).code = body.code := by
  induction body with
  | finish bytes => rfl
  | simple command rest ih => rw [Body.rename, Body.code, Command.code_rename, ih, Body.code]
  | branch head inner rest ihInner ihRest =>
    rw [Body.rename, Body.code, Branch.opening_rename, Branch.closing_rename, ihInner, ihRest,
      Body.code]

/-- The listing of a routine does not depend on the names of its variables. -/
theorem Routine.listing_rename (r : Routine) : (r.rename ρ).listing = r.listing := by
  rw [Routine.listing, Routine.listing, Routine.rename, Body.code_rename]
  rfl

end

end ClassLang
