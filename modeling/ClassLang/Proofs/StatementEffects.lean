/-
  ClassLang/Proofs/StatementEffects.lean
  ======================================
  **What statements and blocks do to the state of the pass.**

  A statement may contain blocks, and a block statements, to any depth; what either of
  them changes is bounded all the same.  A block leaves the variables in sight as they
  were.  A statement does so too unless it is a declaration, which puts one variable at
  the end of the innermost frame.  The classes and the routine at hand stay, strings are
  only added at the end, numbers for labels only grow, and code only goes to the end of
  the last listing.

  The bounds on the state hold wherever a statement is read (`Pass.statement_effect`,
  `Pass.block_effect`).  The listings are not part of that state, so what is said about
  them is said of the moments of the pass over a token list: behind the statement the
  steps come to the listings of before with the code of the statement at the end.
-/
import ClassLang.Proofs.StepInvariants

namespace ClassLang

/-! ### The state -/

namespace Standing

variable {S S' S'' : Standing}

/-- Strings and numbers are all that changes, apart from the variables in sight, and both only
    grow. -/
structure Confined (S S' : Standing) : Prop where
  table : S'.table = S.table
  owner : S'.owner = S.owner
  method : S'.method = S.method
  reserved : S'.data.reserved = S.data.reserved
  entries : S.data.entries <+: S'.data.entries
  labels : S.labels ≤ S'.labels

theorem Elaborates.confined {s : Tree.Simple} {command : Command}
    (h : S.Elaborates s command S') : S.Confined S' where
  table := h.keeps.table
  owner := h.keeps.owner
  method := h.keeps.method
  reserved := by cases h <;> rfl
  entries := h.entries
  labels := by
    rw [h.labels]
    exact Nat.le_add_right _ _

theorem ElaboratesBlock.confined {t : Tree.Block} {body : Body}
    (h : ElaboratesBlock S t body S') : S.Confined S' where
  table := h.keeps.table
  owner := h.keeps.owner
  method := h.keeps.method
  reserved := h.reserved
  entries := h.entries
  labels := by
    rw [h.labels]
    exact Nat.le_add_right _ _

/-- Opening and leaving a block is about the variables in sight only. -/
theorem Confined.between (h : S.enter.Confined S') : S.Confined S'.leave :=
  ⟨h.table, h.owner, h.method, h.reserved, h.entries, h.labels⟩

/-- A number may be drawn before. -/
theorem Confined.drawn (h : S.draw.Confined S') : S.Confined S' :=
  ⟨h.table, h.owner, h.method, h.reserved, h.entries, Nat.le_of_succ_le h.labels⟩

/-- A declaration adds the variable that it declares. -/
theorem Elaborates.declares {t : Tree.TypeName} {x : String} {i : Tree.Initial} {command : Command}
    (h : S.Elaborates (.declare t x i) command S') : ∃ v : Symbol,
      S'.scope = S.scope.extend v ∧ v.name = x ∧ v.role = .binding ∧ S.type? t = some v.type := by
  cases h with
  | number htype | text htype | string htype | create htype | copy htype =>
    exact ⟨_, rfl, rfl, rfl, htype⟩

theorem Elaborates.scope_eq {s : Tree.Simple} {command : Command} (h : S.Elaborates s command S')
    (hs : s.production ≠ .declaration) : S'.scope = S.scope := by
  cases h with
  | number | text | string | create | copy => exact absurd rfl hs
  | _ => rfl

/-- Behind a block the scope is what it was before, whether a number was drawn or not. -/
theorem ElaboratesBlock.scope_leave {t : Tree.Block} {body : Body}
    (h : ElaboratesBlock S.enter t body S') : S'.leave.scope = S.scope :=
  have hkeeps := h.keeps
  Keeps.scope_leave (S := S)
    ⟨hkeeps.table, hkeeps.owner, hkeeps.method, hkeeps.parameter, hkeeps.enclosing⟩

end Standing

/-- The lexemes ahead are a type, as it is meant here, and the name of a variable. -/
def State.Declares (σ : State) (x : String) (type : Ty) : Prop :=
  ∃ first, σ.cursor.lookahead 2 = [first, .identifier x] ∧ σ.declaredType first = .ok type

/-- What a statement does to the state. -/
structure State.StatementEffect (σ τ : State) : Prop where
  confined : σ.standing.Confined τ.standing
  declaration : Production.predict? (σ.cursor.lookahead 4) = some .declaration →
    ∃ v : Symbol, σ.Declares v.name v.type ∧ v.role = .binding ∧
      τ.scope = { σ.scope with frame := σ.scope.frame ++ [v] }
  other : Production.predict? (σ.cursor.lookahead 4) ≠ some .declaration → τ.scope = σ.scope

/-- What a block does to the state. -/
structure State.BlockEffect (σ τ : State) : Prop where
  confined : σ.standing.Confined τ.standing
  scope : τ.scope = σ.scope

namespace Pass

variable {σ τ : State} {S S' : Standing} {c c' d : Cursor} {log : Array Event}

/-- A declaration declares what stands at its beginning. -/
theorem declares_of_takes {t : Tree.TypeName} {x : String} {i : Tree.Initial} {type : Ty}
    (htakes : c.Takes (Tree.Simple.declare t x i).yield c') (htype : S.type? t = some type) :
    (S.state c log).Declares x type := by
  refine ⟨t.lexeme, ?_, toOption_eq_some.1 htype⟩
  have hlook := htakes.lookahead (n := 2) (by simp [Tree.Simple.yield])
  exact hlook

/-- A statement without a block. -/
theorem statementEffect_of_simple {s : Tree.Simple} {command : Command}
    (htakes : c.Takes s.yield c') (hpredict : Production.predict? (c.lookahead 4) = s.production)
    (hsimple : S.Elaborates s command S') {log' : Array Event} :
    (S.state c log).StatementEffect (S'.state c' log') where
  confined := hsimple.confined
  declaration := by
    intro hdeclaration
    have hproduction : s.production = .declaration :=
      Option.some.inj (hpredict.symm.trans hdeclaration)
    cases s with
    | declare t x i =>
      obtain ⟨v, hscope, rfl, hrole, htype⟩ := hsimple.declares
      exact ⟨v, declares_of_takes htakes htype, hrole, hscope⟩
    | _ => cases hproduction
  other := by
    intro hother
    refine hsimple.scope_eq fun hproduction => hother ?_
    rw [← hproduction]
    exact hpredict

/-- A statement with a block. -/
theorem statementEffect_of_branch {kind : BranchKind} {t : Tree.Block} {body : Body}
    (hpredict : Production.predict? (c.lookahead 4) = some (Tree.branchProduction kind))
    (hblock : Standing.ElaboratesBlock S.draw.enter t body S') {log' : Array Event} :
    (S.state c log).StatementEffect (S'.leave.state c' log') where
  confined := hblock.confined.between.drawn
  declaration := by
    intro hdeclaration
    have hbranch : some (Tree.branchProduction kind) = some .declaration :=
      hpredict.symm.trans hdeclaration
    cases kind <;> cases hbranch
  other := fun _ => hblock.scope_leave

/-- What reading a statement can come to, wherever it is read: a statement of the grammar without
    a block, or the head of a block and the block. -/
theorem statement_cases {item : Item} (h : (statement statements).run σ = .done item τ) :
    (∃ (s : Tree.Simple) (command : Command), item = .simple command ∧
      Production.predict? (σ.cursor.lookahead 4) = s.production ∧
      σ.cursor.Takes s.yield τ.cursor ∧ σ.standing.Elaborates s command τ.standing) ∨
    ∃ kind head t body S₁, item = .branch head body ∧
      Production.predict? (σ.cursor.lookahead 4) = some (Tree.branchProduction kind) ∧
      Standing.ElaboratesBlock σ.standing.draw.enter t body S₁ ∧ τ.standing = S₁.leave := by
  rw [Standing.eq_state (σ := σ) rfl, Standing.eq_state (σ := τ) rfl] at h
  rcases (ends_statement_iff fun S₁ c₁ log₁ _ => readsBlocks_statements S₁ c₁ log₁).1 ⟨_, h⟩ with
    ⟨s, command, htakes, hsimple, rfl⟩ | ⟨kind, _, inner, _, b, S₁, htakes, -, hinner, rfl, hleave⟩
  · exact .inl ⟨s, command, rfl, predict?_of_takes htakes, htakes,
      Standing.simple?_eq_some.1 hsimple⟩
  · obtain ⟨d, hfirst, -⟩ := Cursor.Takes.cons_iff.1 htakes
    exact .inr ⟨kind, _, inner, b, S₁, rfl, predict?_of_takes_branch hfirst,
      Standing.block?_eq_some.1 hinner, hleave⟩

/-- Wherever a statement is read, it does no more than that. -/
theorem statement_effect {item : Item} (h : (statement statements).run σ = .done item τ) :
    σ.StatementEffect τ := by
  rw [Standing.eq_state (σ := σ) rfl, Standing.eq_state (σ := τ) rfl]
  rcases statement_cases h with ⟨s, command, -, hpredict, htakes, hsimple⟩ |
    ⟨kind, head, t, body, S₁, -, hpredict, hblock, hleave⟩
  · exact statementEffect_of_simple htakes hpredict hsimple
  · rw [hleave]
    exact statementEffect_of_branch hpredict hblock

/-- Wherever a block is read, it does no more than that. -/
theorem block_effect {inner : Body} (h : (block statements).run σ = .done inner τ) :
    σ.BlockEffect τ := by
  rw [Standing.eq_state (σ := σ) rfl, Standing.eq_state (σ := τ) rfl] at h ⊢
  obtain ⟨_, S₁, -, hinner, hleave⟩ :=
    (ends_block fun S₁ c₁ log₁ _ => readsBlocks_statements S₁ c₁ log₁).1 ⟨_, h⟩
  have hblock := Standing.block?_eq_some.1 hinner
  rw [hleave]
  exact ⟨hblock.confined.between, hblock.scope_leave⟩

end Pass

/-! ### The listings -/

/-- The code of a statement. -/
def Item.code : Item → List (Line Instruction)
  | .simple command => Line.ofCode command.code
  | .branch head inner => head.opening ++ inner.code ++ head.closing

namespace Pass

/-- Read a statement with a block, from its first token to the left brace. -/
def headOf (kind : BranchKind) : Pass Branch := do
  let _ ← Reader.take
  record (.statement (Tree.branchProduction kind) (← context).method)
  branchHead kind

/-- A statement with a block is its head and the block. -/
theorem run_statement_branch {body : Pass Body} {kind : BranchKind} {σ : State}
    (h : Production.predict? (σ.cursor.lookahead 4) = some (Tree.branchProduction kind)) :
    (statement body).run σ = (headOf kind >>= fun head => block body >>= fun inner =>
      pure (.branch head inner)).run σ := by
  rw [statement, Reading.run_bind, Reading.run_state]
  simp only [h, followed, headOf, byRule_branch, branch, bind_assoc]

end Pass

namespace Progress

variable {owner : Option String} {method : String} {blocks : List Branch}
  {before : List (Listing Instruction)} {listing : Listing Instruction} {σ : State}

/-- A statement is read up to where the next one may stand, and its code goes to the end of the
    last listing. -/
theorem follows_statement (h : ¬ σ.cursor.nextIs (Lexeme.isMark .rightBrace) = true) :
    Follows ⟨some (.statements owner method blocks), σ, before ++ [listing]⟩
      ((Pass.statement Pass.statements).run σ) fun item τ Q =>
        Q = ⟨some (.statements owner method blocks), τ,
          before ++ [listing.append item.code]⟩ := by
  rw [Pass.statement_eq]
  refine (follows_start h).bind fun s τ Q _ hQ => ?_
  subst hQ
  cases s with
  | simple command => exact follows_pure rfl
  | branch head =>
    refine (follows_statements (head :: blocks) _ τ).bind fun inner υ R _ hR => ?_
    obtain ⟨hnext, code, hcode, rfl⟩ := hR
    refine (follows_leaveBlock hnext).bind fun _ φ T _ hT => ?_
    subst hT
    refine follows_pure ?_
    simp only [Listing.append_append, Start.move, Item.code, hcode, List.append_assoc]

end Progress

/-- The pass over the tokens comes to where a statement may stand, with these listings. -/
def AtStatement (tokens : List Token) (σ : State) (listings : List (Listing Instruction)) : Prop :=
  ∃ owner method blocks, Reached tokens ⟨some (.statements owner method blocks), σ, listings⟩

/-- The pass over the tokens comes to the left brace of a block behind its head, with these
    listings. -/
def AtBlock (tokens : List Token) (head : Branch) (σ : State)
    (listings : List (Listing Instruction)) : Prop :=
  ∃ kind υ outside, AtStatement tokens υ outside ∧
    Production.predict? (υ.cursor.lookahead 4) = some (Tree.branchProduction kind) ∧
    (Pass.headOf kind).run υ = .done head σ ∧ listings = emit head.opening outside

section

variable {tokens : List Token} {σ τ : State} {listings : List (Listing Instruction)}

/-- Inside a routine its listing is open. -/
theorem AtStatement.exists_last (h : AtStatement tokens σ listings) :
    ∃ before last, listings = before ++ [last] := by
  obtain ⟨owner, method, blocks, hreached⟩ := h
  have hlast := (hreached.regular.current (owner, method) rfl).2
  rcases List.eq_nil_or_concat' listings with rfl | ⟨before, last, rfl⟩
  · cases hlast
  · exact ⟨before, last, rfl⟩

/-- No statement begins with a right brace. -/
theorem Pass.not_rightBrace_of_statement {body : Pass Body} {item : Item}
    (h : (statement body).run σ = .done item τ) :
    ¬ σ.cursor.nextIs (Lexeme.isMark .rightBrace) = true := by
  intro hbrace
  rw [Standing.eq_state (σ := σ) rfl, Standing.eq_state (σ := τ) rfl] at h
  obtain ⟨production, first, d, hpredict, hfirst, -⟩ := ends_statement.1 ⟨_, h⟩
  rw [hfirst.nextIs] at hbrace
  have hmark : first = Tree.mark .rightBrace := by simpa [Lexeme.isMark] using hbrace
  obtain ⟨token, ahead, hahead, hlexeme, -⟩ := Cursor.Takes.singleton_iff.1 hfirst
  rw [Cursor.lookahead, hahead, List.take_succ_cons, List.map_cons, hlexeme, hmark] at hpredict
  cases hpredict

theorem AtStatement.behind {before : List (Listing Instruction)} {last : Listing Instruction}
    (h : AtStatement tokens σ (before ++ [last])) {item : Item}
    (hrun : (Pass.statement Pass.statements).run σ = .done item τ) :
    AtStatement tokens τ (before ++ [last.append item.code]) := by
  obtain ⟨owner, method, blocks, hreached⟩ := h
  have hfollows : Progress.Follows ⟨some (.statements owner method blocks), σ, before ++ [last]⟩
      ((Pass.statement Pass.statements).run σ) fun item τ Q =>
        Q = ⟨some (.statements owner method blocks), τ, before ++ [last.append item.code]⟩ :=
    Progress.follows_statement (Pass.not_rightBrace_of_statement hrun)
  rw [hrun] at hfollows
  obtain ⟨Q, hsteps, rfl⟩ := hfollows
  exact ⟨owner, method, blocks, hreached.trans hsteps⟩

end

/-! ### The statement -/

/-- Statements and blocks change no more than they may, in the pass over the tokens. -/
structure EffectsConfined (tokens : List Token) : Prop where
  statement : ∀ σ listings, AtStatement tokens σ listings → ∀ item τ,
    (Pass.statement Pass.statements).run σ = .done item τ →
      σ.StatementEffect τ ∧ ∃ before last, listings = before ++ [last] ∧
        AtStatement tokens τ (before ++ [last.append item.code])
  block : ∀ head σ listings, AtBlock tokens head σ listings → ∀ inner τ,
    (Pass.block Pass.statements).run σ = .done inner τ →
      σ.BlockEffect τ ∧ ∃ before last, listings = before ++ [last] ∧
        AtStatement tokens τ (before ++ [(last.append inner.code).append head.closing])

/-- Whatever the tokens are, at whatever depth: a block leaves the scope as it was, a statement adds
    to the innermost frame the variable that it declares, if it is a declaration, and nothing
    otherwise.  Classes and routine stay, strings and numbers grow, and all code goes to the end of
    the last listing. -/
theorem effects_confined (tokens : List Token) : EffectsConfined tokens where
  statement := by
    intro σ listings hat item τ hrun
    obtain ⟨before, last, rfl⟩ := hat.exists_last
    exact ⟨Pass.statement_effect hrun, before, last, rfl, hat.behind hrun⟩
  block := by
    intro head σ listings hat inner τ hrun
    obtain ⟨kind, υ, outside, hat, hpredict, hhead, rfl⟩ := hat
    obtain ⟨before, last, rfl⟩ := hat.exists_last
    have hstatement : (Pass.statement Pass.statements).run υ = .done (.branch head inner) τ := by
      rw [Pass.run_statement_branch hpredict, Reading.run_bind, hhead]
      simp only [Reading.run_bind, hrun]
      rfl
    refine ⟨Pass.block_effect hrun, before, last.append head.opening, emit_append .., ?_⟩
    have hbehind := hat.behind hstatement
    simp only [Progress.Listing.append_append]
    exact hbehind

/-- A block with a declaration, `if (1 == 1) { int x = 2; }`, as the only statement. -/
def blockTokens : List Token :=
  [.keyword .mainDef, .punctuation .leftParen, .punctuation .rightParen, .punctuation .leftBrace,
    .keyword .ifCond, .punctuation .leftParen, .number "1", .operator (.compare .equal),
    .number "1", .punctuation .rightParen, .punctuation .leftBrace, .keyword .intType,
    .identifier "x", .operator .assign, .number "2", .punctuation .semicolon,
    .punctuation .rightBrace, .punctuation .rightBrace].map fun lexeme => ⟨lexeme, .start⟩

/-- The value of a step that is done. -/
def Outcome.value? {σ α : Type} : Outcome σ α → Option α
  | .done a _ => some a
  | .stopped _ _ => none

theorem Outcome.eq_done {σ α : Type} {outcome : Outcome σ α} {a : α}
    (h : outcome.value? = some a) : outcome = .done a outcome.state := by
  cases outcome with
  | done b τ =>
    cases h
    rfl
  | stopped => cases h

/-- The state before the first statement. -/
def blockEntry : State := (Stage.definitions.step.run (.initial blockTokens)).state

theorem effects_confined_block : ∃ head σ listings inner τ,
    AtBlock blockTokens head σ listings ∧
      (Pass.block Pass.statements).run σ = .done inner τ ∧ inner ≠ .finish 0 ∧
      σ.BlockEffect τ := by
  have htakes : (Progress.start blockTokens).Takes (.begin none Keyword.mainDef.text) blockEntry :=
    ⟨.definitions, rfl, rfl⟩
  have hentry : AtStatement blockTokens blockEntry
      ((Progress.start blockTokens).after (.begin none Keyword.mainDef.text) blockEntry).listings :=
    ⟨none, Keyword.mainDef.text, [], .single (.intro htakes)⟩
  have hat : AtBlock blockTokens ⟨.conditional, ⟨.literal 1, .equal, .literal 1⟩, 1⟩
      ((Pass.headOf .conditional).run blockEntry).state _ :=
    ⟨.conditional, blockEntry, _, hentry, rfl, rfl, rfl⟩
  have hinner : ((Pass.block Pass.statements).run
      ((Pass.headOf .conditional).run blockEntry).state).value? =
        some (.simple (.declareNumber "x" (.literal 2) 4) (.finish 4)) := by decide +kernel
  cases hrun : (Pass.block Pass.statements).run
      ((Pass.headOf .conditional).run blockEntry).state with
  | stopped fault τ =>
    rw [hrun] at hinner
    cases hinner
  | done inner τ =>
    rw [hrun] at hinner
    cases hinner
    have heffect := (effects_confined blockTokens).block _ _ _ hat _ _ hrun
    exact ⟨_, _, _, _, τ, hat, hrun, nofun, heffect.1⟩

end ClassLang
