/-
  ClassLang/Proofs/Stepping.lean
  ==============================
  **The pass, one step at a time.**

  The pass is a recursion: a statement calls the reader of bodies, a class that of its
  methods.  What has been read and made at some moment in the middle is therefore not
  the value of any function, and nothing can be said about it.  Here the recursion is
  unrolled.  A `Stage` tells what is being read, a `Progress` is a stage with the state
  of the pass and the listings made so far, and a step reads one field, one header, one
  statement or one closing brace.

  Code goes to the listing that was opened last as soon as it is known; if none is open
  it is lost.  Routines are not put together, so the listings of a progress are those
  of a program half read.

  The steps are made of the pieces of the pass, and the pass is what they add up to:
  a pass that is done has come the way of the steps and has their listings
  (`reached_of_done`), and a pass that is stopped is stopped in one of the steps, with
  the same fault in the same state (`reached_of_stopped`).
-/
import Mathlib.Logic.Relation
import ClassLang.Proofs.ProgramParsing

namespace ClassLang

/-! ### Grouping the pieces -/

instance {σ : Type} [HasCursor σ] : LawfulMonad (Reading σ) := by
  refine LawfulMonad.mk' _ ?_ (fun _ _ => rfl) ?_
  · intro α r
    apply Reading.ext
    intro s
    show (r >>= fun a => pure (id a)).run s = r.run s
    rw [Reading.run_bind]
    cases r.run s <;> rfl
  · intro α β γ r f g
    apply Reading.ext
    intro s
    simp only [Reading.run_bind]
    cases r.run s <;> rfl

/-- What follows a choice follows whatever is chosen. -/
theorem Reading.ite_bind {σ α β : Type} [HasCursor σ] {test : Prop} [Decidable test]
    (r r' : Reading σ α) (next : α → Reading σ β) :
    (if test then r else r') >>= next = if test then r >>= next else r' >>= next := by
  by_cases h : test <;> simp only [h, if_true, if_false]

/-- A step that takes a token first leaves fewer ahead. -/
theorem Reading.remaining_take_bind {σ α : Type} [HasCursor σ] {next : Lexeme → Reading σ α}
    {s t : σ} {a : α} (h : (liftM Reader.take >>= next).run s = .done a t) :
    remaining t < remaining s := by
  rw [Reading.run_bind] at h
  split at h
  · rename_i first u hfirst
    have hfewer := Reader.remaining_take hfirst
    have hle := Reading.remaining_run_le (next first) u
    rw [h] at hle
    have hbehind : remaining t ≤ remaining u := hle
    omega
  · cases h

/-- A statement without a block, or one with a block up to its left brace. -/
inductive Start where
  | simple (command : Command)
  | branch (head : Branch)

namespace Pass

open Reading (state fail ofExcept)
open Reader (take nextIs mark word identifier reject)

/-- Read a statement without a block by its rule, and give it storage. -/
def command (rule : Context → Reader Request) : Pass Command := do
  let request ← rule (← context)
  fulfil request

/-- Read the head of a block and its left brace. -/
def openBlock (kind : BranchKind) : Pass Branch := do
  let head ← branchHead kind
  enterBlock
  pure head

/-- Begin a statement by the rule that it has to follow, behind its first token. -/
def startByRule (production : Production) (first : Lexeme) : Pass Start := do
  match production with
  | .declaration => return .simple (← command (Rule.declaration · first))
  | .assignment => return .simple (← command (Rule.assignment · first))
  | .call => return .simple (← command (Rule.call · first))
  | .conditional => return .branch (← openBlock .conditional)
  | .loop => return .branch (← openBlock .loop)
  | .print => return .simple (← command Rule.print)
  | .printText => return .simple (← command Rule.printText)

/-- Read a statement, as far as its block if it has one. -/
def start : Pass Start := do
  let production := Production.predict? ((← state).cursor.lookahead 4)
  let first ← take
  match production with
  | none => fail (.expected .statement first)
  | some production =>
    record (.statement production (← context).method)
    startByRule production first

/-- The rest of a statement that has been begun. -/
def complete (body : Pass Body) : Start → Pass Item
  | .simple command => pure (.simple command)
  | .branch head => do
    let inner ← body
    leaveBlock
    pure (.branch head inner)

theorem byRule_eq (body : Pass Body) (production : Production) (first : Lexeme) :
    byRule body production first = startByRule production first >>= complete body := by
  cases production <;>
    simp only [byRule, startByRule, simple, command, branch, block, openBlock, complete, bind_assoc,
      pure_bind]

theorem statement_eq (body : Pass Body) : statement body = start >>= complete body := by
  simp only [statement, start, bind_assoc]
  refine bind_congr fun σ => bind_congr fun first => ?_
  unfold followed
  cases Production.predict? (σ.cursor.lookahead 4) with
  | none => rfl
  | some production => simp only [bind_assoc, byRule_eq]

/-- A complaint is the same whatever would have followed. -/
theorem reject_bind {α β : Type} (wanted : Expectation) (next : α → Pass β) :
    (liftM (reject wanted : Reader α) : Pass α) >>= next = liftM (reject wanted : Reader β) := by
  apply Reading.ext
  intro σ
  rw [Reading.run_bind, Reading.run_lift, Reading.run_lift]
  rcases HasCursor.cursor σ with ⟨last, _ | ⟨token, ahead⟩⟩ <;> rfl

/-- A body has to have a statement. -/
def beginBody : Pass Unit := do
  if ← nextIs (Lexeme.isMark .rightBrace) then
    reject .firstStatement

def endRoutine (owner : Option String) (method : String) : Pass Unit := do
  mark .rightBrace
  record (.routineDone (Label.entry owner method))

theorem routine_eq (owner : Option String) (method : String) :
    routine owner method = beginBody >>= fun _ => statements >>= fun body =>
      endRoutine owner method >>= fun _ => pure ⟨owner, method, body⟩ := by
  have hbody : routineBody = beginBody >>= fun _ => statements := by
    simp only [routineBody, beginBody, bind_assoc]
    refine bind_congr fun closes => ?_
    rw [Reading.ite_bind, pure_bind, reject_bind]
  simp only [routine, endRoutine, hbody, bind_assoc]
  rfl

/-- A method up to its body, behind its name. -/
def header (owner name : String) : Pass Unit := do
  mark .leftParen
  let parameter ← parameter
  if ← nextIs (Lexeme.isMark .comma) then
    fail (.structural (.secondParameter name))
  mark .rightParen
  mark .leftBrace
  setTable (← ofExcept ((← context).table.addMethod owner ⟨name, parameter⟩))
  claimLabel (Label.method owner name)
  beginRoutine (some owner) name parameter

theorem method_eq (owner name : String) :
    method owner name = header owner name >>= fun _ => routine (some owner) name := by
  simp only [method, header, bind_assoc, Reading.ite_bind]

/-- A class up to its fields, behind its first word. -/
def classHeader : Pass String := do
  let name ← identifier
  beginClass name
  mark .leftBrace
  pure name

/-- Behind the fields of a class, where there has to be one. -/
def endFields (owner : String) : Pass Unit := do
  if (← context).table.fieldCount owner = 0 then
    fail (.structural (.noField owner))

/-- Behind the methods of a class, where there has to be one. -/
def closeClass (owner : String) (any : Bool) : Pass Unit := do
  if !any then
    fail (.structural (.noMethod owner))
  mark .rightBrace
  endClass owner

theorem classDefinition_eq :
    classDefinition = classHeader >>= fun name =>
      Reading.many (word? .intType) (fun _ => field name) >>= fun _ => endFields name >>= fun _ =>
        Reading.many name? (method name) >>= fun methods =>
          closeClass name (!methods.isEmpty) >>= fun _ => pure methods := by
  simp only [classDefinition, classHeader, endFields, closeClass, bind_assoc, pure_bind,
    Reading.ite_bind, Bool.not_not]

/-- The entry point up to its body; there has to be one. -/
def mainHeader : Pass Unit := do
  if ← atEnd then
    fail .noMain
  if !(← nextIs (Lexeme.isWord .mainDef)) then
    reject .definition
  word .mainDef
  mark .leftParen
  mark .rightParen
  mark .leftBrace
  beginRoutine none Keyword.mainDef.text none

/-- Behind the entry point nothing may follow. -/
def endProgram : Pass Unit := do
  if !(← atEnd) then
    reject .endOfProgram

theorem program_eq :
    program = Reading.many (word? .classDef) (fun _ => classDefinition) >>= fun classes =>
      mainHeader >>= fun _ => routine none Keyword.mainDef.text >>= fun entry =>
        endProgram >>= fun _ => pure (entry, classes.flatten) := by
  simp only [program, mainHeader, endProgram, entryPoint, bind_assoc, pure_bind, Reading.ite_bind]

theorem remaining_start {σ τ : State} {s : Start} (h : start.run σ = .done s τ) :
    remaining τ < remaining σ := by
  rw [start, Reading.run_bind, Reading.run_state] at h
  exact Reading.remaining_take_bind h

end Pass

/-! ### The machine -/

/-- What is being read. -/
inductive Stage where
  | definitions                                    -- a class, or the entry point behind all classes
  | fields (owner : String)
  | methods (owner : String) (any : Bool)          -- whether there has been one
  | statements (owner : Option String) (method : String) (blocks : List Branch)
  | epilogue                                       -- behind the entry point
deriving DecidableEq, Repr

/-- What a step leads to: the next stage unless the program is read, the routine that it begins, and
    the lines that it adds to the code. -/
structure Move where
  next : Option Stage
  begun : Option (Option String × String)
  lines : List (Line Instruction)
deriving DecidableEq, Repr

namespace Move

/-- Read on without any code. -/
def silent (next : Stage) : Move := ⟨some next, none, []⟩

/-- Begin a routine with its label and what stands before its body. -/
def begin (owner : Option String) (method : String) : Move where
  next := some (.statements owner method [])
  begun := some (owner, method)
  lines := .label (Label.entry owner method) ::
    Line.ofCode (Routine.opening ⟨owner, method, .finish 0⟩)

/-- Leave a body, after the bytes of its variables have been released. -/
def finish (next : Stage) (bytes : Nat) (closing : List (Line Instruction)) : Move where
  next := some next
  begun := none
  lines := Line.ofCode (Body.releaseCode bytes) ++ closing

end Move

/-- What is read behind a routine. -/
def Stage.behind : Option String → Stage
  | some owner => .methods owner true
  | none => .epilogue

/-- What comes of a statement that has been begun: its code, or the block behind it. -/
def Start.move (owner : Option String) (method : String) (blocks : List Branch) : Start → Move
  | .simple command => ⟨some (.statements owner method blocks), none, Line.ofCode command.code⟩
  | .branch head => ⟨some (.statements owner method (head :: blocks)), none, head.opening⟩

namespace Stage

open Reading (state)
open Pass (word? name?)

/-- One step. -/
def step : Stage → Pass Move
  | .definitions => do
    match (← state).cursor.start? (word? .classDef) with
    | some _ =>
      let _ ← Reader.take
      return .silent (.fields (← Pass.classHeader))
    | none =>
      Pass.mainHeader
      Pass.beginBody
      return .begin none Keyword.mainDef.text
  | .fields owner => do
    match (← state).cursor.start? (word? .intType) with
    | some _ =>
      let _ ← Reader.take
      Pass.field owner
      return .silent (.fields owner)
    | none =>
      Pass.endFields owner
      return .silent (.methods owner false)
  | .methods owner any => do
    match (← state).cursor.start? name? with
    | some name =>
      let _ ← Reader.take
      Pass.header owner name
      Pass.beginBody
      return .begin (some owner) name
    | none =>
      Pass.closeClass owner any
      return .silent .definitions
  | .statements owner method blocks => do
    let σ ← state
    if σ.cursor.nextIs (Lexeme.isMark .rightBrace) then
      let bytes := σ.scope.frameBytes σ.table
      match blocks with
      | head :: blocks =>
        Pass.leaveBlock
        return .finish (.statements owner method blocks) bytes head.closing
      | [] =>
        Pass.endRoutine owner method
        return .finish (behind owner) bytes
          (Line.ofCode (Routine.closing ⟨owner, method, .finish 0⟩))
    else
      return (← Pass.start).move owner method blocks
  | .epilogue => do
    Pass.endProgram
    return ⟨none, none, []⟩

end Stage

def Listing.append {ι : Type} (listing : Listing ι) (lines : List (Line ι)) : Listing ι :=
  { listing with lines := listing.lines ++ lines }

/-- Add lines to the listing that was opened last. -/
def emit (lines : List (Line Instruction)) :
    List (Listing Instruction) → List (Listing Instruction)
  | [] => []
  | [listing] => [listing.append lines]
  | listing :: rest => listing :: emit lines rest

/-- A moment of the pass: what is being read, if anything is, with the state and the listings. -/
structure Progress where
  stage : Option Stage
  state : State
  listings : List (Listing Instruction)

namespace Progress

/-- The listings with the one that a move begins. -/
def opened (P : Progress) (move : Move) : List (Listing Instruction) :=
  P.listings ++ move.begun.toList.map fun (owner, method) => ⟨owner, method, []⟩

/-- Where a move leads to. -/
def after (P : Progress) (move : Move) (τ : State) : Progress :=
  ⟨move.next, τ, emit move.lines (P.opened move)⟩

/-- The step at hand can be taken and is this one. -/
def Takes (P : Progress) (move : Move) (τ : State) : Prop :=
  ∃ stage, P.stage = some stage ∧ stage.step.run P.state = .done move τ

/-- The step at hand cannot be taken. -/
def Stops (P : Progress) (fault : Fault) (τ : State) : Prop :=
  ∃ stage, P.stage = some stage ∧ stage.step.run P.state = .stopped fault τ

inductive Steps : Progress → Progress → Prop where
  | intro {P : Progress} {move : Move} {τ : State} (h : P.Takes move τ) : Steps P (P.after move τ)

def start (tokens : List Token) : Progress := ⟨some .definitions, .initial tokens, []⟩

end Progress

/-- The moment comes up in the pass over the given tokens. -/
def Reached (tokens : List Token) (P : Progress) : Prop :=
  Relation.ReflTransGen Progress.Steps (.start tokens) P

/-! ### Following the pass -/

theorem emit_append (lines : List (Line Instruction)) (before : List (Listing Instruction))
    (listing : Listing Instruction) :
    emit lines (before ++ [listing]) = before ++ [listing.append lines] := by
  induction before with
  | nil => rfl
  | cons first before ih =>
    rw [List.cons_append, List.cons_append, ← ih]
    cases before <;> rfl

theorem emit_nil (listings : List (Listing Instruction)) : emit [] listings = listings := by
  induction listings with
  | nil => rfl
  | cons first rest ih =>
    cases rest with
    | nil => simp [emit, Listing.append]
    | cons second rest => rw [emit, ih]; simp

namespace Progress

open Relation (ReflTransGen)

variable {α β : Type} {P Q : Progress} {σ τ : State} {outcome : Outcome State α}

/-- The steps from a moment on lead to what a piece of the pass leaves, or stop where it stops. -/
def Follows (P : Progress) (outcome : Outcome State α) (K : α → State → Progress → Prop) : Prop :=
  match outcome with
  | .done a τ => ∃ Q, ReflTransGen Steps P Q ∧ K a τ Q
  | .stopped fault τ => ∃ Q, ReflTransGen Steps P Q ∧ Q.Stops fault τ

theorem Follows.trans {K : α → State → Progress → Prop} (hsteps : ReflTransGen Steps P Q)
    (h : Q.Follows outcome K) : P.Follows outcome K := by
  cases outcome <;> exact h.imp fun R hR => ⟨hsteps.trans hR.1, hR.2⟩

theorem Follows.imp {K K' : α → State → Progress → Prop} (h : P.Follows outcome K)
    (hK : ∀ a τ Q, K a τ Q → K' a τ Q) : P.Follows outcome K' := by
  cases outcome with
  | done a τ => exact h.imp fun Q hQ => ⟨hQ.1, hK a τ Q hQ.2⟩
  | stopped fault τ => exact h

theorem follows_pure {a : α} {K : α → State → Progress → Prop} (h : K a σ P) :
    P.Follows ((pure a : Pass α).run σ) K :=
  ⟨P, .refl, h⟩

theorem Follows.bind {r : Pass α} {next : α → Pass β} {K : α → State → Progress → Prop}
    {K' : β → State → Progress → Prop} (h : P.Follows (r.run σ) K)
    (hnext : ∀ a τ Q, r.run σ = .done a τ → K a τ Q → Q.Follows ((next a).run τ) K') :
    P.Follows ((r >>= next).run σ) K' := by
  rw [Reading.run_bind]
  cases hr : r.run σ with
  | done a τ =>
    rw [hr] at h
    obtain ⟨Q, hsteps, hK⟩ := h
    exact .trans hsteps (hnext a τ Q hr hK)
  | stopped fault τ =>
    rw [hr] at h
    exact h

/-- A piece of the pass that is a step. -/
theorem follows_step {stage : Stage} {listings : List (Listing Instruction)} {r : Pass α}
    {move : α → Move} (h : stage.step.run σ = (r >>= fun a => pure (move a)).run σ) :
    Follows ⟨some stage, σ, listings⟩ (r.run σ) fun a τ Q =>
      Q = after ⟨some stage, σ, listings⟩ (move a) τ := by
  rw [Reading.run_bind] at h
  cases hr : r.run σ with
  | done a τ =>
    rw [hr] at h
    exact ⟨_, .single (.intro ⟨stage, rfl, h⟩), rfl⟩
  | stopped fault τ =>
    rw [hr] at h
    exact ⟨_, .refl, stage, rfl, h⟩

/-- A piece of the pass that is a step without code. -/
theorem follows_silent {stage : Stage} {listings : List (Listing Instruction)} {r : Pass α}
    {next : α → Stage} (h : stage.step.run σ = (r >>= fun a => pure (.silent (next a))).run σ) :
    Follows ⟨some stage, σ, listings⟩ (r.run σ) fun a τ Q =>
      Q = ⟨some (next a), τ, listings⟩ := by
  refine (follows_step h).imp fun a τ Q hQ => ?_
  rw [hQ, after, opened]
  simp only [Move.silent, Option.toList_none, List.map_nil, List.append_nil, emit_nil]

/-- Items are read one after the other. -/
theorem follows_many {γ : Type} {begins : Lexeme → Option γ} {item : γ → Pass α}
    {K : List α → State → Progress → Prop}
    (hitem : ∀ as σ P start, K as σ P → σ.cursor.start? begins = some start →
      P.Follows ((liftM Reader.take >>= fun _ => item start).run σ) fun a => K (as ++ [a]))
    (as : List α) (σ : State) (P : Progress) (h : K as σ P) :
    P.Follows ((Reading.many begins item).run σ) fun bs τ Q =>
      K (as ++ bs) τ Q ∧ τ.cursor.start? begins = none := by
  induction hn : remaining σ using Nat.strongRecOn generalizing as σ P with
  | ind n ih =>
    subst hn
    have hhead : (HasCursor.cursor σ).ahead.head?.bind (fun token => begins token.lexeme) =
        σ.cursor.start? begins := rfl
    rw [Reading.run_many, Reading.manyStep, Reading.run_bind, Reading.run_state]
    simp only [hhead]
    cases hstart : σ.cursor.start? begins with
    | none =>
      refine follows_pure ⟨?_, hstart⟩
      rw [List.append_nil]
      exact h
    | some start =>
      show P.Follows ((liftM Reader.take >>= fun _ => item start >>= fun a =>
        Reading.many begins item >>= fun bs => pure (a :: bs)).run σ) _
      rw [← bind_assoc]
      refine (hitem as σ P start h hstart).bind fun a τ Q hrun hK => ?_
      -- an item takes its first token, so there are fewer ahead for the others
      have hfewer := Reading.remaining_take_bind hrun
      refine (ih (remaining τ) hfewer (as ++ [a]) τ Q hK rfl).bind fun bs υ R _ hR => ?_
      refine follows_pure ⟨?_, hR.2⟩
      rw [List.append_cons]
      exact hR.1

/-! ### Routines -/

theorem Listing.append_append (listing : Listing Instruction)
    (lines lines' : List (Line Instruction)) :
    (listing.append lines).append lines' = listing.append (lines ++ lines') := by
  simp only [Listing.append, List.append_assoc]

section Routines

variable {owner : Option String} {method : String} {before : List (Listing Instruction)}
  {listing : Listing Instruction}

/-- A step that begins no routine adds its lines to the last listing. -/
theorem follows_write {stage : Stage} {r : Pass α} {move : α → Move}
    (h : stage.step.run σ = (r >>= fun a => pure (move a)).run σ)
    (hbegun : ∀ a, (move a).begun = none) :
    Follows ⟨some stage, σ, before ++ [listing]⟩ (r.run σ) fun a τ Q =>
      Q = ⟨(move a).next, τ, before ++ [listing.append (move a).lines]⟩ := by
  refine (follows_step h).imp fun a τ Q hQ => ?_
  rw [hQ, after, opened, hbegun, Option.toList_none, List.map_nil, List.append_nil, emit_append]

/-- At a right brace the step is to leave the block. -/
theorem follows_leaveBlock {head : Branch} {blocks : List Branch}
    (h : σ.cursor.nextIs (Lexeme.isMark .rightBrace) = true) :
    Follows ⟨some (.statements owner method (head :: blocks)), σ, before ++ [listing]⟩
      (Pass.leaveBlock.run σ) fun _ τ Q =>
        Q = ⟨some (.statements owner method blocks), τ, before ++ [listing.append
          (Line.ofCode (Body.releaseCode (σ.scope.frameBytes σ.table)) ++ head.closing)]⟩ := by
  have hstep : (Stage.statements owner method (head :: blocks)).step.run σ =
      (Pass.leaveBlock >>= fun _ => pure (Move.finish (.statements owner method blocks)
        (σ.scope.frameBytes σ.table) head.closing)).run σ := by
    rw [Stage.step, Reading.run_bind, Reading.run_state]
    simp only [h, if_true]
  exact follows_write hstep fun _ => rfl

/-- Elsewhere the step is to begin a statement. -/
theorem follows_start {blocks : List Branch}
    (h : ¬ σ.cursor.nextIs (Lexeme.isMark .rightBrace) = true) :
    Follows ⟨some (.statements owner method blocks), σ, before ++ [listing]⟩
      (Pass.start.run σ) fun s τ Q =>
        Q = ⟨(s.move owner method blocks).next, τ,
          before ++ [listing.append (s.move owner method blocks).lines]⟩ := by
  have hstep : (Stage.statements owner method blocks).step.run σ =
      (Pass.start >>= fun s => pure (s.move owner method blocks)).run σ := by
    rw [Stage.step, Reading.run_bind, Reading.run_state]
    simp only [h]
    rfl
  exact follows_write hstep fun s => by cases s <;> rfl

/-- The statements of a body are read one after the other; what their code is short of is the
    release of the variables, which comes with the brace. -/
theorem follows_statements (blocks : List Branch) (listing : Listing Instruction) (σ : State) :
    Follows ⟨some (.statements owner method blocks), σ, before ++ [listing]⟩
      (Pass.statements.run σ) fun body τ Q =>
        τ.cursor.nextIs (Lexeme.isMark .rightBrace) = true ∧ ∃ code,
          body.code = code ++ Line.ofCode (Body.releaseCode (τ.scope.frameBytes τ.table)) ∧
          Q = ⟨some (.statements owner method blocks), τ, before ++ [listing.append code]⟩ := by
  induction hn : remaining σ using Nat.strongRecOn generalizing blocks listing σ with
  | ind n ih =>
    subst hn
    rw [Pass.run_statements, Pass.statementsStep, Reading.run_bind, Reading.run_state]
    by_cases hclose : σ.cursor.nextIs (Lexeme.isMark .rightBrace) = true
    · simp only [hclose, if_true]
      refine follows_pure ⟨hclose, [], rfl, ?_⟩
      simp only [Listing.append, List.append_nil]
    · simp only [hclose, Pass.statement_eq, bind_assoc]
      refine (follows_start hclose).bind fun s τ Q hstart hQ => ?_
      have hfewer := Pass.remaining_start hstart
      subst hQ
      cases s with
      | simple command =>
        refine (ih (remaining τ) hfewer blocks _ τ rfl).bind fun rest υ R _ hR => ?_
        obtain ⟨hnext, code, hcode, rfl⟩ := hR
        refine follows_pure ⟨hnext, Line.ofCode command.code ++ code, ?_, ?_⟩
        · rw [Item.before, Body.code, hcode, List.append_assoc]
        · rw [Listing.append_append]
          rfl
      | branch head =>
        -- the block first, then the brace, then what follows it
        simp only [Pass.complete, bind_assoc, pure_bind]
        refine (ih (remaining τ) hfewer (head :: blocks) _ τ rfl).bind fun inner υ R hinner hR => ?_
        obtain ⟨hnext, code, hcode, rfl⟩ := hR
        refine (follows_leaveBlock hnext).bind fun _ φ T hleave hT => ?_
        subst hT
        have hinside := Reading.remaining_run_le Pass.statements τ
        have hbrace := Reading.remaining_run_le Pass.leaveBlock υ
        rw [hinner] at hinside
        rw [hleave] at hbrace
        have hless : remaining φ < remaining σ :=
          Nat.lt_of_le_of_lt (Nat.le_trans hbrace hinside) hfewer
        refine (ih (remaining φ) hless blocks _ φ rfl).bind fun rest χ T _ hT => ?_
        obtain ⟨hbehind, code', hcode', rfl⟩ := hT
        refine follows_pure ⟨hbehind, head.opening ++ (code ++ (Line.ofCode
          (Body.releaseCode (υ.scope.frameBytes υ.table)) ++ (head.closing ++ code'))), ?_, ?_⟩
        · simp only [Item.before, Body.code, hcode, hcode', List.append_assoc]
        · simp only [Listing.append_append, Start.move, List.append_assoc]

/-- A routine is read from its first statement to its right brace. -/
theorem follows_routine (owner : Option String) (method : String)
    (before : List (Listing Instruction)) (σ : State) :
    Follows ⟨some (.statements owner method []), σ, before ++ [⟨owner, method,
        (Move.begin owner method).lines⟩]⟩
      ((Pass.statements >>= fun body => Pass.endRoutine owner method >>= fun _ =>
        pure (⟨owner, method, body⟩ : Routine)).run σ) fun routine τ Q =>
        Q = ⟨some (.behind owner), τ, before ++ [routine.listing]⟩ := by
  refine (follows_statements [] _ σ).bind fun body τ Q _ hQ => ?_
  obtain ⟨hnext, code, hcode, rfl⟩ := hQ
  have hstep : (Stage.statements owner method []).step.run τ =
      (Pass.endRoutine owner method >>= fun _ => pure (Move.finish (.behind owner)
        (τ.scope.frameBytes τ.table) (Line.ofCode
          (Routine.closing ⟨owner, method, .finish 0⟩)))).run τ := by
    rw [Stage.step, Reading.run_bind, Reading.run_state]
    simp only [hnext, if_true]
  refine (follows_write hstep fun _ => rfl).bind fun _ υ R _ hR => ?_
  refine follows_pure ?_
  rw [hR, Listing.append_append]
  simp only [Listing.append, Move.begin, Move.finish, Routine.listing, hcode, List.append_assoc,
    List.cons_append]
  rfl

/-- A step that begins a routine opens its listing, and the routine is read from there. -/
theorem follows_begin {stage : Stage} {r : Pass Unit} {listings : List (Listing Instruction)}
    (h : stage.step.run σ = (r >>= fun _ => Pass.beginBody >>= fun _ =>
      pure (Move.begin owner method)).run σ) :
    Follows ⟨some stage, σ, listings⟩ ((r >>= fun _ => Pass.routine owner method).run σ)
      fun routine τ Q => Q = ⟨some (.behind owner), τ, listings ++ [routine.listing]⟩ := by
  rw [Pass.routine_eq, ← bind_assoc]
  rw [← bind_assoc] at h
  refine (follows_step h).bind fun _ τ Q _ hQ => ?_
  have hbegun : Q = ⟨some (.statements owner method []), τ,
      listings ++ [⟨owner, method, (Move.begin owner method).lines⟩]⟩ := by
    rw [hQ, after, opened]
    simp only [Move.begin, Option.toList_some, List.map_cons, List.map_nil, emit_append]
    rfl
  rw [hbegun]
  exact follows_routine owner method listings τ

end Routines

/-! ### Definitions -/

theorem follows_fields (owner : String) (listings : List (Listing Instruction)) (σ : State) :
    Follows ⟨some (.fields owner), σ, listings⟩
      ((Reading.many (Pass.word? .intType) fun _ => Pass.field owner).run σ) fun _ τ Q =>
        Q = ⟨some (.fields owner), τ, listings⟩ ∧
          τ.cursor.start? (Pass.word? .intType) = none := by
  refine follows_many (K := fun _ τ Q => Q = ⟨some (.fields owner), τ, listings⟩) ?_ [] σ _ rfl
  intro as τ P start hP hstart
  subst hP
  have hstep : (Stage.fields owner).step.run τ =
      ((liftM Reader.take >>= fun _ => Pass.field owner) >>= fun _ =>
        pure (Move.silent (.fields owner))).run τ := by
    rw [Stage.step, Reading.run_bind, Reading.run_state, bind_assoc]
    simp only [hstart]
  exact follows_silent hstep

theorem follows_methods (owner : String) (listings : List (Listing Instruction)) (σ : State) :
    Follows ⟨some (.methods owner false), σ, listings⟩
      ((Reading.many Pass.name? (Pass.method owner)).run σ) fun methods τ Q =>
        Q = ⟨some (.methods owner !methods.isEmpty), τ, listings ++ methods.map Routine.listing⟩ ∧
          τ.cursor.start? Pass.name? = none := by
  have hstart : ∀ (methods : List Routine) (τ : State) (P : Progress) (name : String),
      P = ⟨some (.methods owner !methods.isEmpty), τ, listings ++ methods.map Routine.listing⟩ →
      τ.cursor.start? Pass.name? = some name →
      P.Follows ((liftM Reader.take >>= fun _ => Pass.method owner name).run τ) fun method υ Q =>
        Q = ⟨some (.methods owner !(methods ++ [method]).isEmpty), υ,
          listings ++ (methods ++ [method]).map Routine.listing⟩ := by
    intro methods τ P name hP hname
    subst hP
    have hstep : (Stage.methods owner !methods.isEmpty).step.run τ =
        ((liftM Reader.take >>= fun _ => Pass.header owner name) >>= fun _ =>
          Pass.beginBody >>= fun _ => pure (Move.begin (some owner) name)).run τ := by
      rw [Stage.step, Reading.run_bind, Reading.run_state, bind_assoc]
      simp only [hname]
    simp only [Pass.method_eq]
    rw [← bind_assoc]
    refine (follows_begin hstep).imp fun method υ Q hQ => ?_
    rw [hQ, List.map_append, List.append_assoc]
    simp [Stage.behind]
  refine follows_many (K := fun methods τ Q => Q = ⟨some (.methods owner !methods.isEmpty), τ,
    listings ++ methods.map Routine.listing⟩) hstart [] σ _ ?_
  simp

/-- A class is read from its name to its right brace. -/
theorem follows_class (listings : List (Listing Instruction)) (σ : State) {u : Unit}
    (h : σ.cursor.start? (Pass.word? .classDef) = some u) :
    Follows ⟨some .definitions, σ, listings⟩
      ((liftM Reader.take >>= fun _ => Pass.classDefinition).run σ) fun methods τ Q =>
        Q = ⟨some .definitions, τ, listings ++ methods.map Routine.listing⟩ := by
  have hheader : Stage.definitions.step.run σ =
      ((liftM Reader.take >>= fun _ => Pass.classHeader) >>= fun name =>
        pure (.silent (.fields name))).run σ := by
    rw [Stage.step, Reading.run_bind, Reading.run_state, bind_assoc]
    simp only [h]
  rw [Pass.classDefinition_eq, ← bind_assoc]
  refine (follows_silent hheader).bind fun name τ Q _ hQ => ?_
  subst hQ
  refine (follows_fields name listings τ).bind fun _ υ R _ hR => ?_
  obtain ⟨rfl, hnone⟩ := hR
  have hfields : (Stage.fields name).step.run υ =
      (Pass.endFields name >>= fun _ => pure (.silent (.methods name false))).run υ := by
    rw [Stage.step, Reading.run_bind, Reading.run_state]
    simp only [hnone]
  refine (follows_silent hfields).bind fun _ φ R _ hR => ?_
  subst hR
  refine (follows_methods name listings φ).bind fun methods χ R _ hR => ?_
  obtain ⟨rfl, hnone⟩ := hR
  have hclose : (Stage.methods name !methods.isEmpty).step.run χ =
      (Pass.closeClass name (!methods.isEmpty) >>= fun _ => pure (.silent .definitions)).run χ := by
    rw [Stage.step, Reading.run_bind, Reading.run_state]
    simp only [hnone]
  refine (follows_silent hclose).bind fun _ ψ R _ hR => ?_
  exact follows_pure hR

/-- The pass is what the steps add up to. -/
theorem follows_program (tokens : List Token) :
    (start tokens).Follows (passOver tokens) fun result τ Q =>
      Q = ⟨none, τ, (result.2 ++ [result.1]).map Routine.listing⟩ := by
  rw [passOver, Pass.program_eq]
  have hclasses : (start tokens).Follows
      ((Reading.many (Pass.word? .classDef) fun _ => Pass.classDefinition).run (.initial tokens))
      fun classes τ Q => Q = ⟨some .definitions, τ, classes.flatten.map Routine.listing⟩ ∧
        τ.cursor.start? (Pass.word? .classDef) = none := by
    refine follows_many (K := fun classes τ Q =>
      Q = ⟨some .definitions, τ, classes.flatten.map Routine.listing⟩) ?_ [] _ _ rfl
    intro classes τ P u hP hu
    subst hP
    refine (follows_class _ τ hu).imp fun methods υ Q hQ => ?_
    rw [hQ]
    simp
  refine hclasses.bind fun classes τ Q _ hQ => ?_
  obtain ⟨rfl, hnone⟩ := hQ
  have hmain : Stage.definitions.step.run τ =
      (Pass.mainHeader >>= fun _ => Pass.beginBody >>= fun _ =>
        pure (Move.begin none Keyword.mainDef.text)).run τ := by
    rw [Stage.step, Reading.run_bind, Reading.run_state]
    simp only [hnone]
  rw [← bind_assoc]
  refine (follows_begin hmain).bind fun entry υ R _ hR => ?_
  subst hR
  have hend : Stage.epilogue.step.run υ =
      (Pass.endProgram >>= fun _ => pure ⟨none, none, []⟩).run υ := rfl
  refine (follows_step hend).bind fun _ φ R _ hR => ?_
  refine follows_pure ?_
  rw [hR, after, opened]
  simp [emit_nil]

end Progress

/-- A pass that is done has come the way of the steps and has their listings, the entry point
    last. -/
theorem reached_of_done {tokens : List Token} {entry : Routine} {methods : List Routine} {τ : State}
    (h : passOver tokens = .done (entry, methods) τ) :
    Reached tokens ⟨none, τ, (methods ++ [entry]).map Routine.listing⟩ := by
  have hfollows := Progress.follows_program tokens
  rw [h] at hfollows
  obtain ⟨P, hreached, rfl⟩ := hfollows
  exact hreached

/-- A pass that is stopped is stopped in one of the steps. -/
theorem reached_of_stopped {tokens : List Token} {fault : Fault} {τ : State}
    (h : passOver tokens = .stopped fault τ) :
    ∃ P, Reached tokens P ∧ P.Stops fault τ := by
  have hfollows := Progress.follows_program tokens
  rw [h] at hfollows
  exact hfollows

end ClassLang
