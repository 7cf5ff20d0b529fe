/-
  ClassLang/Pass/Statements.lean
  ==============================
  **Reading the statements of a body.**

  A statement is read in three steps: its first tokens tell the rule, the rule
  reads and checks it, and what it declares is given storage.  A block inside a
  statement is read like the body around it; the functions for a statement and for
  a block take the reader of bodies as an argument, and `statements` is the fixed
  point.  A statement takes its first token before anything else, so the fixed
  point is one without conditions (`run_statements`).

  A body ends at its right brace, which is left for whoever began the body.
-/
import ClassLang.Pass.State

namespace ClassLang

/-- One statement of a body. -/
inductive Item where
  | simple (command : Command)
  | branch (head : Branch) (inner : Body)
deriving DecidableEq, Repr

def Item.before : Item → Body → Body
  | .simple command, rest => .simple command rest
  | .branch head inner, rest => .branch head inner rest

namespace Pass

open Reading (state fail fix Causal Guarded causal_const causal_self run_bind run_state)

/-! ### Statements and blocks, given a reader of bodies -/

/-- Read a statement without a block by its rule, and give it storage. -/
def simple (rule : Context → Reader Request) : Pass Item := do
  let request ← rule (← context)
  return .simple (← fulfil request)

/-- Read the condition of a block, and number the block. -/
def branchHead (kind : BranchKind) : Pass Branch := do
  let condition ← Rule.condition (← context)
  return ⟨kind, condition, ← freshNumber⟩

/-- A block between braces, in a frame of its own. -/
def block (body : Pass Body) : Pass Body := do
  enterBlock
  let inner ← body
  leaveBlock
  pure inner

def branch (body : Pass Body) (kind : BranchKind) : Pass Item := do
  let head ← branchHead kind
  let inner ← block body
  pure (.branch head inner)

/-- Read a statement by the rule that it has to follow, behind its first token. -/
def byRule (body : Pass Body) (production : Production) (first : Lexeme) : Pass Item :=
  match production with
  | .declaration => simple (Rule.declaration · first)
  | .assignment => simple (Rule.assignment · first)
  | .call => simple (Rule.call · first)
  | .conditional => branch body .conditional
  | .loop => branch body .loop
  | .print => simple Rule.print
  | .printText => simple Rule.printText

/-- Read a statement behind its first token, if a rule fits what lies ahead. -/
def followed (body : Pass Body) (production : Option Production) (first : Lexeme) : Pass Item := do
  match production with
  | none => fail (.expected .statement first)
  | some production =>
    record (.statement production (← context).method)
    byRule body production first

/-- Read a statement.  The rule is found before the first token is taken. -/
def statement (body : Pass Body) : Pass Item := do
  let production := Production.predict? ((← state).cursor.lookahead 4)
  let first ← Reader.take
  followed body production first

/-- One turn of `statements`: the end of the body, or a statement and whatever follows it. -/
def statementsStep (body : Pass Body) : Pass Body := do
  let σ ← state
  if σ.cursor.nextIs (Lexeme.isMark .rightBrace) then
    pure (.finish (σ.scope.frameBytes σ.table))
  else
    let item ← statement body
    let rest ← body
    pure (item.before rest)

/-! ### The fixed point -/

/-- The statements of a body, up to its right brace. -/
def statements : Pass Body :=
  fix statementsStep

theorem causal_block : Causal block :=
  (causal_const _).bind fun _ => causal_self.bind fun _ =>
    (causal_const _).bind fun _ => causal_const _

theorem causal_byRule (production : Production) (first : Lexeme) :
    Causal fun body => byRule body production first := by
  cases production with
  | conditional => exact (causal_const _).bind fun _ => causal_block.bind fun _ => causal_const _
  | loop => exact (causal_const _).bind fun _ => causal_block.bind fun _ => causal_const _
  | _ => exact causal_const _

theorem causal_followed (production : Option Production) (first : Lexeme) :
    Causal fun body => followed body production first := by
  cases production with
  | none => exact causal_const _
  | some production =>
    exact (causal_const _).bind fun _ => (causal_const _).bind fun _ =>
      causal_byRule production first

/-- A statement takes its first token before it reads a block. -/
theorem guarded_statement : Guarded statement := by
  intro r r' σ h
  simp only [statement, run_bind, run_state]
  refine Guarded.bind (fun s _ t ht => ?_) (fun first => causal_followed _ first) r r' σ h
  have := Reader.remaining_take ht
  omega

/-- A statement that is done has taken a token. -/
theorem remaining_statement {body : Pass Body} {σ τ : State} {item : Item}
    (h : (statement body).run σ = .done item τ) : remaining τ < remaining σ := by
  simp only [statement, run_bind, run_state] at h
  split at h
  · rename_i first υ hfirst
    have hfewer := Reader.remaining_take hfirst
    have hle := Reading.remaining_run_le
      (followed body (Production.predict? (σ.cursor.lookahead 4)) first) υ
    rw [h] at hle
    simp only [Outcome.state] at hle
    omega
  · simp at h

theorem guarded_statementsStep : Guarded statementsStep := by
  intro r r' σ h
  simp only [statementsStep, run_bind, run_state]
  split
  · rfl
  · rw [run_bind, run_bind, guarded_statement r r' σ h]
    split
    · rename_i item τ hitem
      rw [run_bind, run_bind, h τ (remaining_statement hitem)]
    · rfl

theorem run_statements (σ : State) :
    statements.run σ = (statementsStep statements).run σ :=
  Reading.run_fix guarded_statementsStep σ

/-- The statements of a routine; there has to be one. -/
def routineBody : Pass Body := do
  if ← Reader.nextIs (Lexeme.isMark .rightBrace) then
    Reader.reject .firstStatement
  else
    statements

end Pass

end ClassLang
