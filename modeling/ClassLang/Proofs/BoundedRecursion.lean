/-
  ClassLang/Proofs/BoundedRecursion.lean
  ======================================
  **The loops and the recursion of the pass end on every input.**

  The pass has four loops, over classes, fields, methods and statements, and one
  recursion, of statements into their blocks.  Only a right brace ends the loop over
  statements, and a list of tokens may be short of it.  Here every loop is cut off behind
  so many turns and the recursion behind so many blocks inside each other; what would come
  beyond is left to a reading that is not known.  The result is a plain recursion on two
  numbers.

  The main statement, `progress_bounds_recursion`, tells how far the rules come from any
  place in any list of tokens, and that with more turns than tokens ahead, and a depth of
  a seventh of them, the cut is never felt: whatever is put beyond it, the outcome is that
  of the pass.
-/
import ClassLang.Proofs.Composition
import ClassLang.Proofs.StatementEffects
import ClassLang.Proofs.TokenProgress

namespace ClassLang

/-! ### Readings that agree -/

namespace Reading

variable {σ α β γ : Type} [HasCursor σ] {n : Nat}

/-- The readings do the same wherever no more than so many tokens are ahead. -/
def AgreeUpTo (n : Nat) (r r' : Reading σ α) : Prop :=
  ∀ s, remaining s ≤ n → r.run s = r'.run s

theorem AgreeUpTo.refl (r : Reading σ α) : AgreeUpTo n r r :=
  fun _ _ => rfl

theorem AgreeUpTo.bind {r r' : Reading σ α} {next next' : α → Reading σ β} (h : AgreeUpTo n r r')
    (hnext : ∀ a, AgreeUpTo n (next a) (next' a)) : AgreeUpTo n (r >>= next) (r' >>= next') := by
  intro s hs
  have hforward := r'.remaining_run_le s
  rw [run_bind, run_bind, h s hs]
  cases hr : r'.run s with
  | stopped fault t => rfl
  | done a t =>
    rw [hr] at hforward
    exact hnext a t (Nat.le_trans hforward hs)

/-- An item and what follows it are read with fewer tokens ahead. -/
theorem run_itemThen_congr {item item' : Reading σ α} {more more' : Reading σ (List α)} {s : σ}
    (hitem : ∀ t, remaining t < remaining s → item.run t = item'.run t)
    (hmore : ∀ t, remaining t < remaining s → more.run t = more'.run t) :
    (itemThen item more).run s = (itemThen item' more').run s := by
  unfold itemThen
  rw [run_bind, run_bind]
  split
  · rename_i first t hfirst
    have hfewer := Reader.remaining_take hfirst
    have hforward := item'.remaining_run_le t
    rw [run_bind, run_bind, hitem t (by omega)]
    cases hrun : item'.run t with
    | stopped fault u => rfl
    | done a u =>
      rw [hrun] at hforward
      have hle : remaining u ≤ remaining t := hforward
      simp only
      rw [run_bind, run_bind, hmore u (by omega)]
  · rfl

theorem AgreeUpTo.many {begins : Lexeme → Option γ} {item item' : γ → Reading σ α}
    (hitem : ∀ start, AgreeUpTo n (item start) (item' start)) :
    AgreeUpTo n (many begins item) (many begins item') := by
  intro s hs
  induction hm : remaining s using Nat.strongRecOn generalizing s with
  | ind m ih =>
    subst hm
    rw [run_many, run_many]
    simp only [manyStep, run_bind, run_state]
    split
    · rfl
    · apply run_itemThen_congr
      · intro t ht
        exact hitem _ t (by omega)
      · intro t ht
        exact ih _ ht t (by omega) rfl

/-- A loop over items that is cut off behind more turns than there are tokens is not cut off. -/
theorem agreeUpTo_iterate {begins : Lexeme → Option γ} {item item' : γ → Reading σ α}
    (hitem : ∀ start, AgreeUpTo n (item start) (item' start)) (beyond : Reading σ (List α))
    {turns : Nat} (hturns : n < turns) :
    AgreeUpTo n ((manyStep begins item)^[turns] beyond) (many begins item') := by
  intro s hs
  rw [run_iterate (guarded_manyStep begins item) beyond (Nat.lt_of_le_of_lt hs hturns)]
  exact AgreeUpTo.many hitem s hs

end Reading

namespace Pass

open Reading (AgreeUpTo agreeUpTo_iterate manyStep state)

/-! ### Statements and blocks -/

/-- One turn of the loop over the statements of a body.  The block of a statement is read by
    `inner`, the statements behind it by `more`. -/
def bodyTurn (inner more : Pass Body) : Pass Body := do
  let σ ← state
  if σ.cursor.nextIs (Lexeme.isMark .rightBrace) then
    pure (.finish (σ.scope.frameBytes σ.table))
  else
    let item ← statement inner
    let rest ← more
    pure (item.before rest)

theorem statementsStep_eq (body : Pass Body) : statementsStep body = bodyTurn body body :=
  rfl

/-- A loop over statements whose blocks are read as the pass does, as far as they can be entered.
    Each turn but the last one takes four tokens. -/
theorem run_bodyTurns {inner : Pass Body} {bound : Nat}
    (hinner : ∀ τ, remaining τ + 7 ≤ bound → inner.run τ = statements.run τ)
    (beyond : Pass Body) {turns : Nat} {σ : State} (hbound : remaining σ ≤ bound)
    (hturns : remaining σ < 4 * turns) :
    ((bodyTurn inner)^[turns] beyond).run σ = statements.run σ := by
  induction turns generalizing σ with
  | zero => exact absurd hturns (Nat.not_lt_zero _)
  | succ turns ih =>
    have hstatement : (statement inner).run σ = (statement statements).run σ := by
      refine statement_congr fun τ hblock => hinner τ ?_
      have hseven := hblock.remaining_add_seven
      omega
    rw [Function.iterate_succ_apply', run_statements, statementsStep_eq]
    simp only [bodyTurn, Reading.run_bind, Reading.run_state]
    split
    · rfl
    · rw [Reading.run_bind, Reading.run_bind, hstatement]
      cases hrun : (statement statements).run σ with
      | stopped fault τ => rfl
      | done item τ =>
        have hfour := remaining_add_four hrun
        simp only
        rw [Reading.run_bind, Reading.run_bind, ih (by omega) (by omega)]

section Within

variable (beyond : (α : Type) → Pass α) (turns : Nat)

/-- The statements of a body, with so many turns for each loop and blocks at most so deep inside
    each other. -/
def statementsWithin : Nat → Pass Body
  | 0 => (bodyTurn (beyond Body))^[turns] (beyond Body)
  | depth + 1 => (bodyTurn (statementsWithin depth))^[turns] (beyond Body)

theorem agreeUpTo_statements {n depth : Nat} (hturns : n < turns) (hdepth : n < 7 * (depth + 1)) :
    AgreeUpTo n (statementsWithin beyond turns depth) statements := by
  induction depth generalizing n with
  | zero =>
    intro σ hσ
    -- there are too few tokens for a block
    have hinner : ∀ τ, remaining τ + 7 ≤ n → (beyond Body).run τ = statements.run τ := by
      intro τ hτ
      omega
    exact run_bodyTurns hinner _ hσ (by omega)
  | succ depth ih =>
    intro σ hσ
    have hinner : ∀ τ, remaining τ + 7 ≤ n →
        (statementsWithin beyond turns depth).run τ = statements.run τ := by
      intro τ hτ
      exact ih (n := n - 7) (by omega) (by omega) τ (by omega)
    exact run_bodyTurns hinner _ hσ (by omega)

theorem agreeUpTo_block {n depth : Nat} (hturns : n < turns) (hdepth : n < 7 * (depth + 1)) :
    AgreeUpTo n (block (statementsWithin beyond turns depth)) (block statements) := by
  have hstatements := agreeUpTo_statements beyond turns hturns hdepth
  exact (AgreeUpTo.refl _).bind fun _ => hstatements.bind fun _ => .refl _

/-! ### Definitions -/

/-- A loop over items with so many turns. -/
def manyWithin {γ α : Type} (begins : Lexeme → Option γ) (item : γ → Pass α) : Pass (List α) :=
  (manyStep begins item)^[turns] (beyond (List α))

variable (depth : Nat)

/-- The body of a routine and its right brace. -/
def routineWithin (owner : Option String) (method : String) : Pass Routine := do
  beginBody
  let body ← statementsWithin beyond turns depth
  endRoutine owner method
  pure ⟨owner, method, body⟩

/-- A method of a class, behind its name. -/
def methodWithin (owner name : String) : Pass Routine := do
  header owner name
  routineWithin beyond turns depth (some owner) name

/-- A class, behind its first word. -/
def classWithin : Pass (List Routine) := do
  let name ← classHeader
  let _ ← manyWithin beyond turns (word? .intType) fun _ => field name
  endFields name
  let methods ← manyWithin beyond turns name? (methodWithin beyond turns depth name)
  closeClass name (!methods.isEmpty)
  pure methods

/-- A whole program. -/
def programWithin : Pass (Routine × List Routine) := do
  let classes ← manyWithin beyond turns (word? .classDef) fun _ => classWithin beyond turns depth
  mainHeader
  let entry ← routineWithin beyond turns depth none Keyword.mainDef.text
  endProgram
  pure (entry, classes.flatten)

variable {turns depth} {n : Nat} (hturns : n < turns) (hdepth : n < 7 * (depth + 1))

include hturns hdepth

theorem agreeUpTo_routine (owner : Option String) (method : String) :
    AgreeUpTo n (routineWithin beyond turns depth owner method) (routine owner method) := by
  rw [routine_eq]
  have hstatements := agreeUpTo_statements beyond turns hturns hdepth
  exact (AgreeUpTo.refl _).bind fun _ => hstatements.bind fun _ => .refl _

theorem agreeUpTo_method (owner name : String) :
    AgreeUpTo n (methodWithin beyond turns depth owner name) (method owner name) := by
  rw [method_eq]
  exact (AgreeUpTo.refl _).bind fun _ => agreeUpTo_routine beyond hturns hdepth _ _

theorem agreeUpTo_class :
    AgreeUpTo n (classWithin beyond turns depth) classDefinition := by
  rw [classDefinition_eq]
  apply (AgreeUpTo.refl _).bind
  intro name
  apply (agreeUpTo_iterate (fun _ => .refl _) _ hturns).bind
  intro _
  apply (AgreeUpTo.refl _).bind
  intro _
  have hmethod := agreeUpTo_method beyond hturns hdepth name
  exact (agreeUpTo_iterate hmethod _ hturns).bind fun _ => .refl _

theorem agreeUpTo_program :
    AgreeUpTo n (programWithin beyond turns depth) program := by
  rw [program_eq]
  have hclass := agreeUpTo_class beyond hturns hdepth
  have hroutine := agreeUpTo_routine beyond hturns hdepth none Keyword.mainDef.text
  apply (agreeUpTo_iterate (fun _ => hclass) _ hturns).bind
  intro classes
  exact (AgreeUpTo.refl _).bind fun _ => hroutine.bind fun _ => .refl _

end Within

end Pass

/-! ### From any place in any list of tokens -/

open Pass (statement statements block EntersBlock Descends statementsWithin manyWithin classWithin
  programWithin classDefinition program)
open Reading (many)

/-- From any place in any list of tokens: a rule ends there or further on, and not beyond the end; a
    statement that is done has taken four tokens; a block is entered seven tokens behind the start
    of its statement, and what a statement does hangs on what reads its block there only.  So
    statements lie at most a seventh as many blocks deep as there are tokens ahead, and all loops
    end: no outcome hangs on what would be done beyond that depth, or behind more turns than there
    are tokens ahead. -/
theorem progress_bounds_recursion {tokens : List Token} {place : Nat} {σ : State}
    (hplace : σ.cursor.At tokens place) :
    (∀ (α : Type) (rule : Pass α), (rule.run σ).state.cursor.NotBefore tokens place) ∧
    (∀ (α : Type) (rule : Reader α), (rule.run σ.cursor).state.NotBefore tokens place) ∧
    (∀ body item τ, (statement body).run σ = .done item τ →
      τ.cursor.NotBefore tokens (place + 4)) ∧
    (∀ τ, EntersBlock σ τ → τ.cursor.NotBefore tokens (place + 7)) ∧
    (∀ body body', (∀ τ, EntersBlock σ τ → body.run τ = body'.run τ) →
      (statement body).run σ = (statement body').run σ) ∧
    (∀ depth τ, Descends σ depth τ → 7 * depth ≤ tokens.length - place) ∧
    ∀ beyond turns depth, tokens.length - place < turns →
      (tokens.length - place) / 7 ≤ depth →
      (∀ (γ α : Type) (begins : Lexeme → Option γ) (item : γ → Pass α),
        (manyWithin beyond turns begins item).run σ = (many begins item).run σ) ∧
      (statementsWithin beyond turns depth).run σ = statements.run σ ∧
      (block (statementsWithin beyond turns depth)).run σ = (block statements).run σ ∧
      (classWithin beyond turns depth).run σ = classDefinition.run σ ∧
      (programWithin beyond turns depth).run σ = program.run σ := by
  have hall : place + remaining σ = tokens.length := hplace.add_remaining
  refine ⟨?_, ?_, ?_, ?_, ?_, ?_, ?_⟩
  · intro α rule
    exact rule.notBefore hplace
  · intro α rule
    exact rule.notBefore hplace
  · intro body item τ hdone
    have hleads := (statement body).forward σ
    rw [hdone] at hleads
    exact hleads.notBefore hplace (Pass.remaining_add_four hdone)
  · intro τ hblock
    exact hblock.leads.notBefore hplace hblock.remaining_add_seven
  · intro body body' h
    exact Pass.statement_congr h
  · intro depth τ hdescends
    have hle := hdescends.remaining_le
    omega
  · intro beyond turns depth hturns hdepth
    have hturns : remaining σ < turns := by omega
    have hdepth : remaining σ < 7 * (depth + 1) := by omega
    have hself := Nat.le_refl (remaining σ)
    refine ⟨?_, Pass.agreeUpTo_statements beyond turns hturns hdepth σ hself,
      Pass.agreeUpTo_block beyond turns hturns hdepth σ hself,
      Pass.agreeUpTo_class beyond hturns hdepth σ hself,
      Pass.agreeUpTo_program beyond hturns hdepth σ hself⟩
    intro γ α begins item
    exact Reading.agreeUpTo_iterate (fun _ => .refl _) _ hturns σ hself

/-- A program that ends behind an empty block, inside its entry point. -/
def unclosedTokens : List Token :=
  [.keyword .mainDef, .punctuation .leftParen, .punctuation .rightParen, .punctuation .leftBrace,
    .keyword .ifCond, .punctuation .leftParen, .number "1", .operator (.compare .less),
    .number "2", .punctuation .rightParen, .punctuation .leftBrace, .punctuation .rightBrace].map
    fun lexeme => ⟨lexeme, .start⟩

/-- The state before its statement. -/
def unclosedEntry : State := (Pass.mainHeader.run (.initial unclosedTokens)).state

theorem progress_bounds_recursion_unclosed :
    unclosedEntry.cursor.At unclosedTokens 4 ∧
    (∃ item τ, (statement statements).run unclosedEntry = .done item τ ∧
      τ.cursor.NotBefore unclosedTokens 8) ∧
    (∃ τ, EntersBlock unclosedEntry τ ∧ τ.cursor.NotBefore unclosedTokens 11 ∧
      Descends unclosedEntry 1 τ) ∧
    ∃ fault τ, ∀ beyond, (statementsWithin beyond 9 1).run unclosedEntry = .stopped fault τ := by
  have hplace : unclosedEntry.cursor.At unclosedTokens 4 := ⟨by decide, rfl, rfl⟩
  have hblock : EntersBlock unclosedEntry (Pass.start.run unclosedEntry).state := ⟨_, rfl⟩
  obtain ⟨-, -, hstatement, henters, -, -, hbounded⟩ := progress_bounds_recursion hplace
  refine ⟨hplace, ?_, ?_, ?_⟩
  · have hvalue : ((statement statements).run unclosedEntry).value? =
        some (.branch ⟨.conditional, ⟨.literal 1, .less, .literal 2⟩, 1⟩ (.finish 0)) := by
      decide +kernel
    have hdone := Outcome.eq_done hvalue
    exact ⟨_, _, hdone, hstatement _ _ _ hdone⟩
  · exact ⟨_, hblock, henters _ hblock, .enter hblock (.here _)⟩
  · have hnone : (statements.run unclosedEntry).value? = none := by decide +kernel
    cases hrun : statements.run unclosedEntry with
    | done body τ =>
      rw [hrun] at hnone
      cases hnone
    | stopped fault τ =>
      refine ⟨fault, τ, fun beyond => ?_⟩
      rw [(hbounded beyond 9 1 (by decide) (by decide)).2.1, hrun]

end ClassLang
