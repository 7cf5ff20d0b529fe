/-
  ClassLang/Proofs/Parsing.lean
  =============================
  **Reading the statements of a block is elaborating them.**

  `Ends` is what a piece of the pass does with the log left out.  The main statement
  is `readsBlocks_statements`: reading statements up to a right brace is taking the
  yield of a block tree and elaborating it.  Statements nest, so this is proved by
  induction on the number of tokens ahead, in both directions at once: a statement
  takes its first token before it reads a block.
-/
import ClassLang.Proofs.RuleParsing

namespace ClassLang

open Cursor (Takes)

/-- The state of the pass that has the given standing, tokens and log. -/
def Standing.state (S : Standing) (c : Cursor) (log : Array Event) : State :=
  ⟨S.toContext, c, S.labels, log⟩

theorem Standing.state_inj {S S' : Standing} {c c' : Cursor} {log log' : Array Event} :
    S.state c log = S'.state c' log' ↔ S = S' ∧ c = c' ∧ log = log' := by
  constructor
  · intro h
    obtain ⟨Γ, n⟩ := S
    obtain ⟨Γ', n'⟩ := S'
    simp only [state, State.mk.injEq] at h
    obtain ⟨rfl, rfl, rfl, rfl⟩ := h
    exact ⟨rfl, rfl, rfl⟩
  · rintro ⟨rfl, rfl, rfl⟩
    rfl

/-- A state is made up of its standing, its tokens and its log. -/
theorem Standing.eq_state {σ : State} {c : Cursor} (h : σ.cursor = c) :
    σ = σ.standing.state c σ.log := by
  subst h
  rfl

/-! ### Pieces of the pass -/

namespace Pass

variable {α β : Type} {σ τ : State} {S S' : Standing} {c c' : Cursor} {log : Array Event}

@[simp] theorem lift_done {r : Reader α} {a : α} :
    (liftM r : Pass α).run σ = .done a τ ↔
      ∃ c, r.run σ.cursor = .done a c ∧ τ = { σ with cursor := c } := by
  have hcursor : HasCursor.cursor σ = σ.cursor := rfl
  rw [Reading.run_lift, hcursor]
  cases hr : r.run σ.cursor with
  | done b d =>
    constructor
    · intro h
      cases h
      exact ⟨d, rfl, rfl⟩
    · rintro ⟨e, heq, rfl⟩
      cases heq
      rfl
  | stopped fault d => simp

@[simp] theorem modify_done {change : State → State}
    {keeps : ∀ s, HasCursor.cursor (change s) = HasCursor.cursor s} {u : Unit} :
    (Reading.modify change keeps).run σ = .done u τ ↔ τ = change σ := by
  simp [eq_comm]

@[simp] theorem context_done {Γ : Context} :
    context.run σ = .done Γ τ ↔ Γ = σ.toContext ∧ τ = σ := by
  simp only [context, Reading.bind_done, Reading.state_done, Reading.pure_done]
  constructor
  · rintro ⟨_, _, ⟨rfl, rfl⟩, rfl, rfl⟩
    exact ⟨rfl, rfl⟩
  · rintro ⟨rfl, rfl⟩
    exact ⟨τ, τ, ⟨rfl, rfl⟩, rfl, rfl⟩

/-- What a piece of the pass does, with the log left out. -/
def Ends (r : Pass α) (σ : State) (a : α) (S : Standing) (c : Cursor) : Prop :=
  ∃ log, r.run σ = .done a (S.state c log)

theorem ends_def {r : Pass α} {a : α} :
    (∃ log, r.run σ = .done a (S.state c log)) ↔ Ends r σ a S c :=
  Iff.rfl

/-- Two pieces, one after the other.  What the second one does is known from the standing and the
    tokens that the first one leaves, so `exists_and_right` moves the log out of the way. -/
theorem ends_bind {r : Pass α} {next : α → Pass β} {b : β} :
    Ends (r >>= next) σ b S c ↔ ∃ a, ∃ S₁ : Standing, ∃ c₁ log,
      r.run σ = .done a (S₁.state c₁ log) ∧ Ends (next a) (S₁.state c₁ log) b S c := by
  simp only [Ends, Reading.bind_done]
  constructor
  · rintro ⟨log, a, τ, hr, hends⟩
    exact ⟨a, τ.standing, τ.cursor, τ.log, hr, log, hends⟩
  · rintro ⟨a, S₁, c₁, log₁, hr, log, hends⟩
    exact ⟨log, a, _, hr, hends⟩

theorem ends_pure {a b : α} :
    Ends (pure a) (S.state c log) b S' c' ↔ a = b ∧ S' = S ∧ c' = c := by
  simp only [Ends, Reading.pure_done]
  constructor
  · rintro ⟨log', rfl, heq⟩
    obtain ⟨rfl, rfl, -⟩ := Standing.state_inj.1 heq
    exact ⟨rfl, rfl, rfl⟩
  · rintro ⟨rfl, rfl, rfl⟩
    exact ⟨log, rfl, rfl⟩

theorem ends_state {next : State → Pass β} {b : β} :
    Ends (Reading.state >>= next) σ b S c ↔ Ends (next σ) σ b S c :=
  Iff.rfl

theorem ends_lift {r : Reader α} {a : α} :
    Ends (liftM r) (S.state c log) a S' c' ↔ r.run c = .done a c' ∧ S' = S := by
  simp only [Ends, lift_done]
  constructor
  · rintro ⟨log', d, hr, heq⟩
    obtain ⟨rfl, rfl, -⟩ := Standing.state_inj.1 (show S'.state c' log' = S.state d log from heq)
    exact ⟨hr, rfl⟩
  · rintro ⟨hr, rfl⟩
    exact ⟨log, c', hr, rfl⟩

theorem ends_ofExcept {e : Except Fault α} {a : α} :
    Ends (Reading.ofExcept e) (S.state c log) a S' c' ↔
      e.toOption = some a ∧ S' = S ∧ c' = c := by
  simp only [Ends, Reading.ofExcept_done, toOption_eq_some]
  constructor
  · rintro ⟨log', he, heq⟩
    obtain ⟨rfl, rfl, -⟩ := Standing.state_inj.1 heq
    exact ⟨he, rfl, rfl⟩
  · rintro ⟨he, rfl, rfl⟩
    exact ⟨log, he, rfl⟩

theorem ends_fail {fault : Fault} {a : α} : ¬ Ends (Reading.fail fault) σ a S c := by
  simp [Ends]

theorem ends_nextIs {test : Lexeme → Bool} {next : Bool → Pass β} {b : β} :
    Ends (liftM (Reader.nextIs test) >>= next) (S.state c log) b S' c' ↔
      Ends (next (c.nextIs test)) (S.state c log) b S' c' :=
  Iff.rfl

/-- A check that stops the pass lets it go on where the check does not strike. -/
theorem ends_unless {p : Prop} [Decidable p] {fault : Fault} {next : α → Pass β} {r : Pass β}
    {b : β} : Ends (if p then Reading.fail fault >>= next else r) σ b S c ↔
      ¬ p ∧ Ends r σ b S c := by
  by_cases hp : p <;> simp [hp, Ends]

theorem ends_context {Γ : Context} :
    Ends context (S.state c log) Γ S' c' ↔ Γ = S.toContext ∧ S' = S ∧ c' = c := by
  simp only [Ends, context_done]
  constructor
  · rintro ⟨log', rfl, heq⟩
    obtain ⟨rfl, rfl, -⟩ := Standing.state_inj.1 heq
    exact ⟨rfl, rfl, rfl⟩
  · rintro ⟨rfl, rfl, rfl⟩
    exact ⟨log, rfl, rfl⟩

/-- A change of the state that leaves the tokens alone. -/
theorem ends_modify {change : State → State}
    {keeps : ∀ s, HasCursor.cursor (change s) = HasCursor.cursor s} {u : Unit} :
    Ends (Reading.modify change keeps) (S.state c log) u S' c' ↔
      S' = (change (S.state c log)).standing ∧ c' = c := by
  have hcursor : (change (S.state c log)).cursor = c := keeps (S.state c log)
  simp only [Ends, modify_done]
  constructor
  · rintro ⟨log', heq⟩
    rw [← heq]
    exact ⟨rfl, by rw [← hcursor, ← heq]; rfl⟩
  · rintro ⟨rfl, rfl⟩
    exact ⟨(change (S.state c' log)).log, (Standing.eq_state hcursor).symm⟩

theorem ends_setScope {scope : Scope} {u : Unit} :
    Ends (setScope scope) (S.state c log) u S' c' ↔ S' = { S with scope } ∧ c' = c :=
  ends_modify

theorem ends_setData {data : DataSection} {u : Unit} :
    Ends (setData data) (S.state c log) u S' c' ↔ S' = { S with data } ∧ c' = c :=
  ends_modify

theorem ends_setTable {table : ClassTable} {u : Unit} :
    Ends (setTable table) (S.state c log) u S' c' ↔ S' = { S with table } ∧ c' = c :=
  ends_modify

theorem ends_record {event : Event} {u : Unit} :
    Ends (record event) (S.state c log) u S' c' ↔ S' = S ∧ c' = c :=
  ends_modify

/-! ### Statements without a block -/

theorem ends_declare {symbol : Symbol} {u : Unit} :
    Ends (declare symbol) (S.state c log) u S' c' ↔ S.declare? symbol = some S' ∧ c' = c := by
  simp only [declare, ends_bind, ends_setScope, exists_and_right, ends_def, ends_ofExcept,
    ends_context, Standing.declare?, Option.map_eq_some_iff]
  constructor
  · rintro ⟨_, _, _, ⟨rfl, rfl, rfl⟩, scope, _, _, ⟨hscope, rfl, rfl⟩, rfl, rfl⟩
    exact ⟨⟨scope, hscope, rfl⟩, rfl⟩
  · rintro ⟨⟨scope, hscope, rfl⟩, rfl⟩
    exact ⟨_, S, c', ⟨rfl, rfl, rfl⟩, scope, S, c', ⟨hscope, rfl, rfl⟩, rfl, rfl⟩

theorem ends_declareOnStack {x : String} {type : Ty} {offset : Nat} :
    Ends (declareOnStack x type) (S.state c log) offset S' c' ↔
      S.onStack? x type = some (offset, S') ∧ c' = c := by
  simp only [declareOnStack, ends_bind, ends_ofExcept, exists_and_right, ends_def, ends_context,
    ends_declare, Standing.onStack?, Option.bind_eq_bind, Option.bind_eq_some_iff,
    Option.some.injEq, Prod.mk.injEq]
  constructor
  · rintro ⟨_, S₁, _, ⟨hdeclare, rfl⟩, _, _, _, ⟨rfl, rfl, rfl⟩, hoffset, rfl, rfl⟩
    exact ⟨⟨_, hdeclare, offset, hoffset, rfl, rfl⟩, rfl⟩
  · rintro ⟨⟨S₁, hdeclare, _, hoffset, rfl, rfl⟩, rfl⟩
    exact ⟨(), S₁, c', ⟨hdeclare, rfl⟩, _, S₁, c', ⟨rfl, rfl, rfl⟩, hoffset, rfl, rfl⟩

theorem ends_storeString {x : String} {bytes : List UInt8} {label : String} :
    Ends (storeString x bytes) (S.state c log) label S' c' ↔
      label = S.stringLabel x ∧ S' = S.store x bytes ∧ c' = c := by
  simp only [storeString, ends_bind, ends_pure, exists_and_right, ends_def, ends_setData,
    ends_context]
  constructor
  · rintro ⟨_, _, _, ⟨rfl, rfl, rfl⟩, _, _, _, ⟨rfl, rfl⟩, rfl, rfl, rfl⟩
    exact ⟨rfl, rfl, rfl⟩
  · rintro ⟨rfl, rfl, rfl⟩
    exact ⟨_, S, c', ⟨rfl, rfl, rfl⟩, (), _, c', ⟨rfl, rfl⟩, rfl, rfl, rfl⟩

theorem ends_freshNumber {n : Nat} :
    Ends freshNumber (S.state c log) n S' c' ↔
      n = S.draw.labels ∧ S' = S.draw ∧ c' = c := by
  simp only [Ends, freshNumber, Reading.bind_done, Reading.state_done, modify_done,
    Reading.pure_done]
  constructor
  · rintro ⟨log', _, _, rfl, _, _, ⟨rfl, rfl⟩, rfl, heq⟩
    obtain ⟨rfl, rfl, -⟩ := Standing.state_inj.1
      (show S'.state c' log' = S.draw.state c log from heq)
    exact ⟨rfl, rfl, rfl⟩
  · rintro ⟨rfl, rfl, rfl⟩
    exact ⟨log, (), _, rfl, _, _, ⟨rfl, rfl⟩, rfl, rfl⟩

/-- Giving storage to a statement is what elaboration does with it. -/
theorem ends_fulfil {request : Request} {command : Command} :
    Ends (fulfil request) (S.state c log) command S' c' ↔
      S.fulfil? request = some (command, S') ∧ c' = c := by
  cases request with
  | number x value =>
    simp only [fulfil, ends_bind, ends_pure, exists_and_right, ends_def, ends_declareOnStack,
      Standing.fulfil?, Option.bind_eq_bind, Option.bind_eq_some_iff, Option.some.injEq,
      Prod.mk.injEq, Prod.exists]
    constructor
    · rintro ⟨offset, S₁, _, ⟨hoffset, rfl⟩, rfl, rfl, rfl⟩
      exact ⟨⟨offset, _, hoffset, rfl, rfl⟩, rfl⟩
    · rintro ⟨⟨offset, S₁, hoffset, rfl, rfl⟩, rfl⟩
      exact ⟨offset, S₁, c', ⟨hoffset, rfl⟩, rfl, rfl, rfl⟩
  | string x bytes =>
    simp only [fulfil, ends_bind, ends_pure, exists_and_right, ends_def, ends_declare,
      ends_record, ends_storeString, Standing.fulfil?, Option.bind_eq_bind,
      Option.bind_eq_some_iff, Option.some.injEq, Prod.mk.injEq]
    constructor
    · rintro ⟨_, _, _, ⟨rfl, rfl, rfl⟩, _, _, _, ⟨rfl, rfl⟩, _, S₁, _, ⟨hdeclare, rfl⟩, rfl, rfl,
        rfl⟩
      exact ⟨⟨_, hdeclare, rfl, rfl⟩, rfl⟩
    · rintro ⟨⟨S₁, hdeclare, rfl, rfl⟩, rfl⟩
      exact ⟨_, _, c', ⟨rfl, rfl, rfl⟩, (), _, c', ⟨rfl, rfl⟩, (), S₁, c', ⟨hdeclare, rfl⟩, rfl,
        rfl, rfl⟩
  | create x className | copy x className source =>
    simp only [fulfil, ends_bind, ends_pure, exists_and_right, ends_def, ends_context,
      ends_declareOnStack, Standing.fulfil?, Option.bind_eq_bind, Option.bind_eq_some_iff,
      Option.some.injEq, Prod.mk.injEq, Prod.exists]
    constructor
    · rintro ⟨offset, S₁, _, ⟨hoffset, rfl⟩, _, _, _, ⟨rfl, rfl, rfl⟩, rfl, rfl, rfl⟩
      exact ⟨⟨offset, _, hoffset, rfl, rfl⟩, rfl⟩
    · rintro ⟨⟨offset, S₁, hoffset, rfl, rfl⟩, rfl⟩
      exact ⟨offset, S₁, c', ⟨hoffset, rfl⟩, _, S₁, c', ⟨rfl, rfl, rfl⟩, rfl, rfl, rfl⟩
  | printLiteral bytes =>
    simp only [fulfil, ends_bind, ends_pure, exists_and_right, ends_def, ends_storeString,
      ends_freshNumber, Standing.fulfil?, Option.some.injEq, Prod.mk.injEq]
    constructor
    · rintro ⟨_, _, _, ⟨rfl, rfl, rfl⟩, _, _, _, ⟨rfl, rfl, rfl⟩, rfl, rfl, rfl⟩
      exact ⟨⟨rfl, rfl⟩, rfl⟩
    · rintro ⟨⟨rfl, rfl⟩, rfl⟩
      exact ⟨_, _, c', ⟨rfl, rfl, rfl⟩, _, _, c', ⟨rfl, rfl, rfl⟩, rfl, rfl, rfl⟩
  | ready command' =>
    simp only [fulfil, ends_pure, Standing.fulfil?, Option.some.injEq, Prod.mk.injEq, and_assoc,
      eq_comm (a := S)]

/-- A statement without a block, read by a rule that is known to read the yields of trees. -/
theorem ends_simple {rule : Context → Reader Request} {item : Item}
    {P : Context → Cursor → Request → Cursor → Prop}
    (hrule : ∀ Γ c request c', (rule Γ).run c = .done request c' ↔ P Γ c request c') :
    Ends (simple rule) (S.state c log) item S' c' ↔ ∃ request command,
      P S.toContext c request c' ∧ S.fulfil? request = some (command, S') ∧
        item = .simple command := by
  simp only [simple, ends_bind, ends_pure, exists_and_right, ends_def, ends_fulfil, ends_lift,
    ends_context, hrule]
  constructor
  · rintro ⟨_, _, _, ⟨rfl, rfl, rfl⟩, request, _, _, ⟨hP, rfl⟩, command, _, _, ⟨hfulfil, rfl⟩,
      rfl, rfl, rfl⟩
    exact ⟨request, command, hP, hfulfil, rfl⟩
  · rintro ⟨request, command, hP, hfulfil, rfl⟩
    exact ⟨_, S, c, ⟨rfl, rfl, rfl⟩, request, S, c', ⟨hP, rfl⟩, command, S', c', ⟨hfulfil, rfl⟩,
      rfl, rfl, rfl⟩

end Pass

/-! ### Prediction -/

/-- The rule that a statement tree follows. -/
def Tree.Simple.production : Tree.Simple → Production
  | .declare _ _ _ => .declaration
  | .assign _ _ => .assignment
  | .call _ _ => .call
  | .print _ => .print
  | .printText _ => .printText

def Tree.branchProduction : BranchKind → Production
  | .conditional => .conditional
  | .loop => .loop

theorem Tree.Value.one_le_length (v : Tree.Value) : 1 ≤ v.yield.length := by
  cases v with
  | number digits => exact Nat.le_refl _
  | place p => cases p <;> simp [yield, Place.yield]

/-- A statement has at least the four lexemes that the prediction looks at. -/
theorem Tree.Simple.four_le_length (s : Tree.Simple) : 4 ≤ s.yield.length := by
  cases s with
  | declare type x initial =>
    have : 1 ≤ initial.yield.length := by
      cases initial with
      | value v => exact v.one_le_length
      | text content => exact Nat.le_refl _
      | create created => simp [Tree.Initial.yield]
    simp only [yield, List.length_cons, List.length_append, List.length_nil]
    omega
  | assign target v =>
    have := v.one_le_length
    have : 1 ≤ target.yield.length := (Tree.Value.place target).one_le_length
    simp only [yield, List.length_cons, List.length_append, List.length_nil]
    omega
  | call callee argument =>
    have : 1 ≤ callee.yield.length := by cases callee <;> simp [Tree.Callee.yield]
    simp only [yield, List.length_cons, List.length_append, List.length_nil]
    omega
  | print v =>
    have := v.one_le_length
    simp only [yield, List.length_cons, List.length_append, List.length_nil]
    omega
  | printText text => simp [yield]

/-- The first four lexemes of a statement tell its rule. -/
theorem Tree.Simple.predict (s : Tree.Simple) :
    Production.predict? (s.yield.take 4) = some s.production := by
  cases s with
  | declare type x initial =>
    cases type <;> simp [yield, TypeName.lexeme, Production.predict?, production]
  | assign target v =>
    cases target <;>
      simp [yield, Place.yield, Production.predict?, Production.ofName?, Production.afterName,
        production]
  | call callee argument =>
    cases callee <;>
      simp [yield, Callee.yield, Production.predict?, Production.ofName?, Production.afterName,
        production]
  | print v => simp [yield, Production.predict?, production]
  | printText text => simp [yield, Production.predict?, production]

/-- Four of the rules are told by the first word alone. -/
def Production.Begins : Production → Lexeme → Prop
  | .print, first => first = Tree.word .print
  | .printText, first => first = Tree.word .prints
  | .conditional, first => first = Tree.word .ifCond
  | .loop, first => first = Tree.word .whileLoop
  | _, _ => True

theorem Production.begins_of_predict? {first : Lexeme} {rest : List Lexeme}
    {production : Production} (h : predict? (first :: rest) = some production) :
    production.Begins first := by
  have hname : ∀ ls, ofName? ls = some production → production.Begins first := by
    intro ls hls
    unfold ofName? at hls
    split at hls
    · cases hls
      trivial
    · cases hls
      trivial
    · simp at hls
  cases first with
  | keyword w =>
    cases w with
    | intType | stringType =>
      cases h
      trivial
    | ifCond | whileLoop | print | prints =>
      cases h
      rfl
    | receiver => exact hname rest h
    | classDef | mainDef | create => simp [predict?] at h
  | identifier x =>
    cases rest with
    | nil => exact hname [] h
    | cons second rest =>
      cases second with
      | identifier y =>
        cases h
        trivial
      | _ => exact hname (_ :: rest) (by simpa only [predict?] using h)
  | _ => simp [predict?] at h

/-! ### Statements and blocks -/

namespace Pass

variable {σ : State} {S S' : Standing} {c c' : Cursor} {log : Array Event}

/-- A statement without a block, behind its first lexeme. -/
theorem ends_byRule {body : Pass Body} {production : Production} {first : Lexeme} {item : Item}
    (hbegins : production.Begins first)
    (hsimple : ∀ kind, production ≠ Tree.branchProduction kind) :
    Ends (byRule body production first) (S.state c log) item S' c' ↔
      ∃ s tail command, Tree.Simple.production s = production ∧ s.yield = first :: tail ∧
        c.Takes tail c' ∧ S.simple? s = some (command, S') ∧ item = .simple command := by
  simp only [Standing.simple?, Option.bind_eq_bind, Option.bind_eq_some_iff]
  cases production with
  | conditional => exact absurd rfl (hsimple .conditional)
  | loop => exact absurd rfl (hsimple .loop)
  | declaration =>
    rw [byRule, ends_simple fun _ _ _ _ => Rule.declaration_done]
    constructor
    · rintro ⟨request, command, ⟨type, x, i, rfl, htakes, hrequest⟩, hfulfil, rfl⟩
      exact ⟨.declare type x i, _, command, rfl, rfl, htakes, ⟨request, hrequest, hfulfil⟩, rfl⟩
    · rintro ⟨s, tail, command, hproduction, hyield, htakes, ⟨request, hrequest, hfulfil⟩, rfl⟩
      cases s with
      | declare type x i =>
        obtain ⟨rfl, rfl⟩ := List.cons.inj hyield
        exact ⟨request, command, ⟨type, x, i, rfl, htakes, hrequest⟩, hfulfil, rfl⟩
      | _ => simp [Tree.Simple.production] at hproduction
  | assignment =>
    rw [byRule, ends_simple fun _ _ _ _ => Rule.assignment_done]
    constructor
    · rintro ⟨request, command, ⟨target, v, tail, hyield, htakes, hrequest⟩, hfulfil, rfl⟩
      exact ⟨_, tail, command, rfl, hyield, htakes, ⟨request, hrequest, hfulfil⟩, rfl⟩
    · rintro ⟨s, tail, command, hproduction, hyield, htakes, ⟨request, hrequest, hfulfil⟩, rfl⟩
      cases s with
      | assign target v =>
        exact ⟨request, command, ⟨target, v, tail, hyield, htakes, hrequest⟩, hfulfil, rfl⟩
      | _ => simp [Tree.Simple.production] at hproduction
  | call =>
    rw [byRule, ends_simple fun _ _ _ _ => Rule.call_done]
    constructor
    · rintro ⟨request, command, ⟨callee, v, tail, hyield, htakes, hrequest⟩, hfulfil, rfl⟩
      exact ⟨_, tail, command, rfl, hyield, htakes, ⟨request, hrequest, hfulfil⟩, rfl⟩
    · rintro ⟨s, tail, command, hproduction, hyield, htakes, ⟨request, hrequest, hfulfil⟩, rfl⟩
      cases s with
      | call callee v =>
        exact ⟨request, command, ⟨callee, v, tail, hyield, htakes, hrequest⟩, hfulfil, rfl⟩
      | _ => simp [Tree.Simple.production] at hproduction
  | print =>
    obtain rfl : first = Tree.word .print := hbegins
    rw [byRule, ends_simple fun _ _ _ _ => Rule.print_done]
    constructor
    · rintro ⟨request, command, ⟨v, tail, hyield, htakes, hrequest⟩, hfulfil, rfl⟩
      exact ⟨_, tail, command, rfl, hyield, htakes, ⟨request, hrequest, hfulfil⟩, rfl⟩
    · rintro ⟨s, tail, command, hproduction, hyield, htakes, ⟨request, hrequest, hfulfil⟩, rfl⟩
      cases s with
      | print v => exact ⟨request, command, ⟨v, tail, hyield, htakes, hrequest⟩, hfulfil, rfl⟩
      | _ => simp [Tree.Simple.production] at hproduction
  | printText =>
    obtain rfl : first = Tree.word .prints := hbegins
    rw [byRule, ends_simple fun _ _ _ _ => Rule.printText_done]
    constructor
    · rintro ⟨request, command, ⟨t, tail, hyield, htakes, hrequest⟩, hfulfil, rfl⟩
      exact ⟨_, tail, command, rfl, hyield, htakes, ⟨request, hrequest, hfulfil⟩, rfl⟩
    · rintro ⟨s, tail, command, hproduction, hyield, htakes, ⟨request, hrequest, hfulfil⟩, rfl⟩
      cases s with
      | printText t => exact ⟨request, command, ⟨t, tail, hyield, htakes, hrequest⟩, hfulfil, rfl⟩
      | _ => simp [Tree.Simple.production] at hproduction

theorem ends_branchHead {kind : BranchKind} {head : Branch} :
    Ends (branchHead kind) (S.state c log) head S' c' ↔ ∃ t condition,
      c.Takes (Tree.Condition.yield t) c' ∧ S.condition? t = some condition ∧
        head = ⟨kind, condition, S.draw.labels⟩ ∧ S' = S.draw := by
  simp only [branchHead, ends_bind, ends_pure, exists_and_right, ends_def, ends_freshNumber,
    ends_lift, ends_context, Rule.condition_done]
  constructor
  · rintro ⟨_, _, _, ⟨rfl, rfl, rfl⟩, condition, _, _, ⟨⟨t, htakes, hcondition⟩, rfl⟩, _, _, _,
      ⟨rfl, rfl, rfl⟩, rfl, rfl, rfl⟩
    exact ⟨t, condition, htakes, hcondition, rfl, rfl⟩
  · rintro ⟨t, condition, htakes, hcondition, rfl, rfl⟩
    exact ⟨_, S, c, ⟨rfl, rfl, rfl⟩, condition, S, c', ⟨⟨t, htakes, hcondition⟩, rfl⟩, _, _, c',
      ⟨rfl, rfl, rfl⟩, rfl, rfl, rfl⟩

theorem ends_enterBlock {u : Unit} :
    Ends enterBlock (S.state c log) u S' c' ↔
      c.Takes [Tree.mark .leftBrace] c' ∧ S' = S.enter := by
  simp only [enterBlock, ends_bind, exists_and_right, ends_def, ends_record, ends_setScope,
    ends_lift, ends_context, Reader.mark_done]
  constructor
  · rintro ⟨_, _, d, ⟨hmark, rfl⟩, _, _, _, ⟨rfl, rfl, rfl⟩, _, _, _, ⟨rfl, rfl⟩, _, _, _,
      ⟨rfl, rfl, rfl⟩, rfl, rfl⟩
    exact ⟨hmark, rfl⟩
  · rintro ⟨hmark, rfl⟩
    exact ⟨(), S, c', ⟨hmark, rfl⟩, _, S, c', ⟨rfl, rfl, rfl⟩, (), _, c', ⟨rfl, rfl⟩, _, _, c',
      ⟨rfl, rfl, rfl⟩, rfl, rfl⟩

theorem ends_leaveBlock {u : Unit} :
    Ends leaveBlock (S.state c log) u S' c' ↔
      c.Takes [Tree.mark .rightBrace] c' ∧ S' = S.leave := by
  simp only [leaveBlock, ends_bind, exists_and_right, ends_def, ends_record, ends_setScope,
    ends_lift, ends_context, Reader.mark_done]
  constructor
  · rintro ⟨_, _, _, ⟨rfl, rfl, rfl⟩, _, _, _, ⟨rfl, rfl⟩, _, _, _, ⟨rfl, rfl, rfl⟩, _, _, _,
      ⟨rfl, rfl⟩, hmark, rfl⟩
    exact ⟨hmark, rfl⟩
  · rintro ⟨hmark, rfl⟩
    exact ⟨_, S, c, ⟨rfl, rfl, rfl⟩, (), _, c, ⟨rfl, rfl⟩, _, _, c, ⟨rfl, rfl, rfl⟩, (), _, c,
      ⟨rfl, rfl⟩, hmark, rfl⟩

/-- A reader of bodies does at a state what elaboration does with the blocks that begin there. -/
def ReadsBlocks (body : Pass Body) (S : Standing) (c : Cursor) (log : Array Event) : Prop :=
  ∀ b S' c', Ends body (S.state c log) b S' c' ↔
    ∃ t : Tree.Block, c.Takes t.yield c' ∧ c'.nextIs (Lexeme.isMark .rightBrace) = true ∧
      S.block? t = some (b, S')

theorem ends_block {body : Pass Body} {b : Body}
    (hbody : ∀ S₁ c₁ log₁, c₁.remaining < c.remaining → ReadsBlocks body S₁ c₁ log₁) :
    Ends (block body) (S.state c log) b S' c' ↔ ∃ inner S₁,
      c.Takes (Tree.mark .leftBrace :: (Tree.Block.yield inner ++ [Tree.mark .rightBrace])) c' ∧
      S.enter.block? inner = some (b, S₁) ∧ S' = S₁.leave := by
  rw [block, ends_bind]
  simp only [ends_bind, ends_pure, exists_and_right, ends_def, ends_leaveBlock]
  constructor
  · rintro ⟨_, S₁, d, log₁, henter, _, S₂, e, hends, _, _, _, ⟨hclose, rfl⟩, rfl, rfl, rfl⟩
    obtain ⟨hopen, rfl⟩ := ends_enterBlock.1 ⟨log₁, henter⟩
    have hfewer := hopen.remaining
    simp only [List.length_singleton] at hfewer
    obtain ⟨inner, htakes, -, helab⟩ := (hbody _ d log₁ (by omega) _ _ _).1 hends
    exact ⟨inner, S₂, Takes.cons_iff.2 ⟨d, hopen, Takes.append_iff.2 ⟨e, htakes, hclose⟩⟩, helab,
      rfl⟩
  · rintro ⟨inner, S₂, htakes, helab, rfl⟩
    obtain ⟨d, hopen, hrest⟩ := Takes.cons_iff.1 htakes
    obtain ⟨e, hinner, hclose⟩ := Takes.append_iff.1 hrest
    obtain ⟨log₁, henter⟩ := ends_enterBlock.2 ⟨hopen, rfl⟩
    have hfewer := hopen.remaining
    simp only [List.length_singleton] at hfewer
    have hnext : e.nextIs (Lexeme.isMark .rightBrace) = true := by
      rw [hclose.nextIs]
      rfl
    have hends := (hbody _ d log₁ (by omega) _ _ _).2 ⟨inner, hinner, hnext, helab⟩
    exact ⟨(), _, d, log₁, henter, b, S₂, e, hends, (), _, c', ⟨hclose, rfl⟩, rfl, rfl, rfl⟩

theorem ends_branch {body : Pass Body} {kind : BranchKind} {item : Item}
    (hbody : ∀ S₁ c₁ log₁, c₁.remaining < c.remaining → ReadsBlocks body S₁ c₁ log₁) :
    Ends (branch body kind) (S.state c log) item S' c' ↔ ∃ t inner condition b S₁,
      c.Takes (Tree.Condition.yield t ++ Tree.mark .leftBrace ::
        (Tree.Block.yield inner ++ [Tree.mark .rightBrace])) c' ∧
      S.condition? t = some condition ∧ S.draw.enter.block? inner = some (b, S₁) ∧
      item = .branch ⟨kind, condition, S.draw.labels⟩ b ∧ S' = S₁.leave := by
  rw [branch, ends_bind]
  simp only [ends_bind, ends_pure, exists_and_right, ends_def]
  constructor
  · rintro ⟨_, _, d, log₁, hhead, b, _, _, hblock, rfl, rfl, rfl⟩
    obtain ⟨t, condition, htakes, hcondition, rfl, rfl⟩ := ends_branchHead.1 ⟨log₁, hhead⟩
    have hfewer := htakes.remaining
    obtain ⟨inner, S₁, hinner, helab, rfl⟩ :=
      (ends_block fun _ _ _ h => hbody _ _ _ (by omega)).1 hblock
    exact ⟨t, inner, condition, b, S₁, Takes.append_iff.2 ⟨d, htakes, hinner⟩, hcondition, helab,
      rfl, rfl⟩
  · rintro ⟨t, inner, condition, b, S₁, htakes, hcondition, helab, rfl, rfl⟩
    obtain ⟨d, hhead, hinner⟩ := Takes.append_iff.1 htakes
    have hfewer := hhead.remaining
    obtain ⟨log₁, hrun⟩ := ends_branchHead.2 ⟨t, condition, hhead, hcondition, rfl, rfl⟩
    exact ⟨_, _, d, log₁, hrun, b, _, c', (ends_block fun _ _ _ h => hbody _ _ _ (by omega)).2
      ⟨inner, S₁, hinner, helab, rfl⟩, rfl, rfl, rfl⟩

/-- A statement is its first lexeme and what the rule told by the lexemes ahead reads. -/
theorem ends_statement {body : Pass Body} {item : Item} :
    Ends (statement body) (S.state c log) item S' c' ↔ ∃ production first d,
      Production.predict? (c.lookahead 4) = some production ∧ c.Takes [first] d ∧
        Ends (byRule body production first)
          (S.state d (log.push (.statement production S.method))) item S' c' := by
  simp only [Ends, statement, Reading.bind_done, Reading.state_done, lift_done, Reader.take_done]
  constructor
  · rintro ⟨log', _, _, ⟨rfl, rfl⟩, first, _, ⟨d, hfirst, rfl⟩, hfollowed⟩
    unfold followed at hfollowed
    split at hfollowed
    · simp at hfollowed
    · rename_i production hproduction
      simp only [Reading.bind_done, context_done, record, modify_done] at hfollowed
      obtain ⟨_, _, ⟨rfl, rfl⟩, _, _, rfl, hrule⟩ := hfollowed
      exact ⟨production, first, d, hproduction, hfirst, log', hrule⟩
  · rintro ⟨production, first, d, hproduction, hfirst, log', hrule⟩
    refine ⟨log', _, _, ⟨rfl, rfl⟩, first, _, ⟨d, hfirst, rfl⟩, ?_⟩
    have hlook : (S.state c log).cursor = c := rfl
    simp only [followed, hlook, hproduction, Reading.bind_done, context_done, record, modify_done]
    exact ⟨_, _, ⟨rfl, rfl⟩, (), _, rfl, hrule⟩

theorem predict?_of_takes_branch {kind : BranchKind} {d : Cursor}
    (h : c.Takes [Tree.word (Tree.kindWord kind)] d) :
    Production.predict? (c.lookahead 4) = some (Tree.branchProduction kind) := by
  obtain ⟨token, ahead, hahead, hlexeme, -⟩ := Takes.singleton_iff.1 h
  rw [Cursor.lookahead, hahead, List.take_succ_cons, List.map_cons, hlexeme]
  cases kind <;> rfl

/-- A rule that is told by the lexemes ahead begins with the first of them. -/
theorem begins_of_takes {production : Production} {first : Lexeme} {d : Cursor}
    (hpredict : Production.predict? (c.lookahead 4) = some production)
    (hfirst : c.Takes [first] d) : production.Begins first := by
  obtain ⟨token, ahead, hahead, rfl, -⟩ := Takes.singleton_iff.1 hfirst
  rw [Cursor.lookahead, hahead, List.take_succ_cons, List.map_cons] at hpredict
  exact Production.begins_of_predict? hpredict

/-- The trees of statements begin where a block does not end. -/
theorem not_rightBrace_of_takes {s : Tree.Simple} {ls : List Lexeme}
    (h : c.Takes (s.yield ++ ls) c') : c.nextIs (Lexeme.isMark .rightBrace) = false := by
  obtain ⟨l, tail, hyield, hl⟩ : ∃ l tail, s.yield = l :: tail ∧ l ≠ Tree.mark .rightBrace := by
    cases s with
    | declare type x initial => cases type <;> exact ⟨_, _, rfl, by simp [Tree.TypeName.lexeme]⟩
    | assign target v => cases target <;> exact ⟨_, _, rfl, by simp⟩
    | call callee argument => cases callee <;> exact ⟨_, _, rfl, by simp⟩
    | print v => exact ⟨_, _, rfl, by simp⟩
    | printText text => exact ⟨_, _, rfl, by simp⟩
  rw [hyield, List.cons_append] at h
  rw [h.nextIs]
  simpa [Lexeme.isMark] using hl

theorem not_rightBrace_of_block {t : Tree.Block} (hne : t ≠ .finish) (h : c.Takes t.yield c') :
    c.nextIs (Lexeme.isMark .rightBrace) = false := by
  cases t with
  | finish => exact absurd rfl hne
  | simple s rest => exact not_rightBrace_of_takes h
  | branch kind condition inner rest =>
    rw [h.nextIs]
    simp [Lexeme.isMark]

theorem predict?_of_takes {s : Tree.Simple} (h : c.Takes s.yield c') :
    Production.predict? (c.lookahead 4) = some s.production := by
  rw [Cursor.lookahead, h.lookahead s.four_le_length, s.predict]

theorem byRule_branch (body : Pass Body) (kind : BranchKind) (first : Lexeme) :
    byRule body (Tree.branchProduction kind) first = branch body kind := by
  cases kind <;> rfl

/-- What a statement is read as: a statement of the grammar without a block, or the head of a block
    and the block, where the reader of blocks is known for fewer tokens ahead. -/
theorem ends_statement_iff {body : Pass Body} {item : Item}
    (hbody : ∀ S₁ c₁ log₁, c₁.remaining < c.remaining → ReadsBlocks body S₁ c₁ log₁) :
    Ends (statement body) (S.state c log) item S' c' ↔
      (∃ s command, c.Takes (Tree.Simple.yield s) c' ∧ S.simple? s = some (command, S') ∧
        item = .simple command) ∨
      ∃ kind t inner condition b S₁,
        c.Takes (Tree.word (Tree.kindWord kind) :: (Tree.Condition.yield t ++
          Tree.mark .leftBrace :: (Tree.Block.yield inner ++ [Tree.mark .rightBrace]))) c' ∧
        S.condition? t = some condition ∧ S.draw.enter.block? inner = some (b, S₁) ∧
        item = .branch ⟨kind, condition, S.draw.labels⟩ b ∧ S' = S₁.leave := by
  have hsmaller : ∀ {first d}, c.Takes [first] d → ∀ S₁ c₁ log₁, c₁.remaining < d.remaining →
      ReadsBlocks body S₁ c₁ log₁ := by
    intro first d hfirst S₁ c₁ log₁ hlt
    have hfewer := hfirst.remaining
    exact hbody S₁ c₁ log₁ (by omega)
  rw [ends_statement]
  constructor
  · rintro ⟨production, first, d, hpredict, hfirst, hrule⟩
    have hbegins := begins_of_takes hpredict hfirst
    by_cases hkind : ∃ kind, production = Tree.branchProduction kind
    · obtain ⟨kind, rfl⟩ := hkind
      rw [byRule_branch] at hrule
      obtain ⟨t, inner, condition, b, S₁, htakes, hread⟩ :=
        (ends_branch (hsmaller hfirst)).1 hrule
      have hword : first = Tree.word (Tree.kindWord kind) := by
        cases kind <;> exact hbegins
      exact .inr ⟨kind, t, inner, condition, b, S₁,
        Takes.cons_iff.2 ⟨d, hword ▸ hfirst, htakes⟩, hread⟩
    · obtain ⟨s, tail, command, -, hyield, htakes, hread⟩ :=
        (ends_byRule hbegins fun kind heq => hkind ⟨kind, heq⟩).1 hrule
      refine .inl ⟨s, command, ?_, hread⟩
      rw [hyield]
      exact Takes.cons_iff.2 ⟨d, hfirst, htakes⟩
  · rintro (⟨s, command, htakes, hread⟩ | ⟨kind, t, inner, condition, b, S₁, htakes, hread⟩)
    · have hpredict := predict?_of_takes htakes
      obtain ⟨first, tail, hyield⟩ : ∃ first tail, s.yield = first :: tail :=
        List.exists_cons_of_length_pos (Nat.lt_of_lt_of_le (by decide) s.four_le_length)
      rw [hyield] at htakes
      obtain ⟨d, hfirst, htail⟩ := Takes.cons_iff.1 htakes
      have hsimple : ∀ kind, s.production ≠ Tree.branchProduction kind := by
        intro kind
        cases kind <;> cases s <;> simp [Tree.Simple.production, Tree.branchProduction]
      exact ⟨s.production, first, d, hpredict, hfirst,
        (ends_byRule (begins_of_takes hpredict hfirst) hsimple).2
          ⟨s, tail, command, rfl, hyield, htail, hread⟩⟩
    · obtain ⟨d, hfirst, htail⟩ := Takes.cons_iff.1 htakes
      refine ⟨_, _, d, predict?_of_takes_branch hfirst, hfirst, ?_⟩
      rw [byRule_branch]
      exact (ends_branch (hsmaller hfirst)).2 ⟨t, inner, condition, b, S₁, htail, hread⟩

/-- Reading a statement and then the rest of the block, where the reader of blocks is known for
    fewer tokens ahead. -/
theorem ends_statement_then {body : Pass Body} {b : Body}
    (hbody : ∀ S₁ c₁ log₁, c₁.remaining < c.remaining → ReadsBlocks body S₁ c₁ log₁) :
    Ends (do
      let item ← statement body
      let rest ← body
      pure (item.before rest)) (S.state c log) b S' c' ↔
    ∃ t : Tree.Block, t ≠ .finish ∧ c.Takes t.yield c' ∧
      c'.nextIs (Lexeme.isMark .rightBrace) = true ∧ S.block? t = some (b, S') := by
  -- a statement takes a token, so the rest is read where fewer are ahead
  have hrest : ∀ {ls : List Lexeme} {e}, c.Takes ls e → 0 < ls.length → ∀ S₁ log₁,
      ReadsBlocks body S₁ e log₁ := by
    intro ls e htakes hpos S₁ log₁
    have hfewer := htakes.remaining
    exact hbody S₁ e log₁ (by omega)
  have hsimple : ∀ s : Tree.Simple, 0 < s.yield.length :=
    fun s => Nat.lt_of_lt_of_le (by decide) s.four_le_length
  rw [ends_bind]
  simp only [ends_bind, ends_pure, exists_and_right, ends_def]
  constructor
  · rintro ⟨item, S₁, e, log₁, hrun, b, _, _, hmore, rfl, rfl, rfl⟩
    rcases (ends_statement_iff hbody).1 ⟨log₁, hrun⟩ with
      ⟨s, command, htakes, helab, rfl⟩ |
      ⟨kind, t, inner, condition, b', S₂, htakes, hcondition, helab, rfl, rfl⟩
    · obtain ⟨rest, hrestTakes, hnext, helabRest⟩ := (hrest htakes (hsimple s) _ _ _ _ _).1 hmore
      exact ⟨.simple s rest, by simp, Takes.append_iff.2 ⟨e, htakes, hrestTakes⟩, hnext,
        Standing.block?_simple.2 ⟨command, S₁, helab, b, helabRest, rfl⟩⟩
    · obtain ⟨rest, hrestTakes, hnext, helabRest⟩ :=
        (hrest htakes (Nat.succ_pos _) _ _ _ _ _).1 hmore
      refine ⟨.branch kind t inner rest, by simp, ?_, hnext, ?_⟩
      · have hall := Takes.append_iff.2 ⟨e, htakes, hrestTakes⟩
        simpa only [Tree.Block.yield, List.append_assoc, List.cons_append, List.nil_append]
          using hall
      · exact Standing.block?_branch.2
          ⟨condition, hcondition, b', S₂, helab, b, helabRest, rfl⟩
  · rintro ⟨t, hne, htakes, hnext, helab⟩
    cases t with
    | finish => exact absurd rfl hne
    | simple s rest =>
      obtain ⟨command, S₁, helabS, b', helabRest, rfl⟩ := Standing.block?_simple.1 helab
      obtain ⟨e, hs, hmore⟩ := Takes.append_iff.1 htakes
      obtain ⟨log₁, hrun⟩ : Ends (statement body) (S.state c log) (.simple command) S₁ e :=
        (ends_statement_iff hbody).2 (.inl ⟨s, command, hs, helabS, rfl⟩)
      exact ⟨_, S₁, e, log₁, hrun, b', _, c',
        (hrest hs (hsimple s) _ _ _ _ _).2 ⟨rest, hmore, hnext, helabRest⟩, rfl, rfl, rfl⟩
    | branch kind condition inner rest =>
      obtain ⟨condition', hcondition, b₁, S₁, helabInner, b₂, helabRest, rfl⟩ :=
        Standing.block?_branch.1 helab
      have hsplit : (Tree.Block.branch kind condition inner rest).yield =
          Tree.word (Tree.kindWord kind) :: (condition.yield ++ Tree.mark .leftBrace ::
            (inner.yield ++ [Tree.mark .rightBrace])) ++ rest.yield := by
        simp [Tree.Block.yield]
      rw [hsplit] at htakes
      obtain ⟨e, hs, hmore⟩ := Takes.append_iff.1 htakes
      obtain ⟨log₁, hrun⟩ : Ends (statement body) (S.state c log) _ S₁.leave e :=
        (ends_statement_iff hbody).2 (.inr ⟨kind, condition, inner, condition', b₁, S₁, hs,
          hcondition, helabInner, rfl, rfl⟩)
      exact ⟨_, _, e, log₁, hrun, b₂, _, c',
        (hrest hs (Nat.succ_pos _) _ _ _ _ _).2 ⟨rest, hmore, hnext, helabRest⟩, rfl, rfl, rfl⟩

/-- The pass reads the statements of a block as elaboration does. -/
theorem readsBlocks_statements (S : Standing) (c : Cursor) (log : Array Event) :
    ReadsBlocks statements S c log := by
  induction hn : c.remaining using Nat.strongRecOn generalizing S c log with
  | ind n ih =>
    subst hn
    intro b S' c'
    have hturn : Ends statements (S.state c log) b S' c' ↔
        Ends (statementsStep statements) (S.state c log) b S' c' := by
      rw [Ends, Ends, run_statements]
    rw [hturn, statementsStep, ends_state]
    have hcursor : (S.state c log).cursor = c := rfl
    by_cases hend : c.nextIs (Lexeme.isMark .rightBrace) = true
    · rw [if_pos (hcursor ▸ hend), ends_pure]
      constructor
      · rintro ⟨rfl, rfl, rfl⟩
        exact ⟨.finish, .nil _, hend, rfl⟩
      · rintro ⟨t, htakes, -, helab⟩
        by_cases hfinish : t = .finish
        · subst hfinish
          cases htakes
          cases helab
          exact ⟨rfl, rfl, rfl⟩
        · rw [not_rightBrace_of_block hfinish htakes] at hend
          cases hend
    · rw [if_neg (hcursor ▸ hend),
        ends_statement_then fun S₁ c₁ log₁ h => ih c₁.remaining h S₁ c₁ log₁ rfl]
      constructor
      · rintro ⟨t, -, htakes, hnext, helab⟩
        exact ⟨t, htakes, hnext, helab⟩
      · rintro ⟨t, htakes, hnext, helab⟩
        refine ⟨t, ?_, htakes, hnext, helab⟩
        rintro rfl
        cases htakes
        exact hend hnext

end Pass

end ClassLang
