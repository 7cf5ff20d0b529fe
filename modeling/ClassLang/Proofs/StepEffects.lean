/-
  ClassLang/Proofs/StepEffects.lean
  =================================
  **What a step can do.**

  `Stage.Effect` says once what a step can do to the classes, the scope, the strings
  and the code.  Tokens and log are left out, and so is everything that only decides
  whether the step can be taken.  That a step does one of these things is
  `Takes.exists_effect`; whatever is to hold at every moment is proved along the rules,
  one short case for each, and no such proof opens a step again.
-/
import ClassLang.Proofs.LiveVariables
import ClassLang.Proofs.Stepping

namespace ClassLang

open Cursor (Takes)

/-! ### What a step can do -/

theorem Context.knows_of_declaredType {Γ : Context} {lexeme : Lexeme} {type : Ty}
    (h : Γ.declaredType lexeme = .ok type) : Γ.table.Knows type := by
  intro c hc
  subst hc
  cases lexeme with
  | keyword w => cases w <;> simp [declaredType] at h
  | identifier name =>
    simp only [declaredType, ClassTable.resolveType] at h
    split at h
    · rename_i className _
      cases hfind : Γ.table.find? className with
      | none => simp [hfind] at h
      | some d =>
        simp only [hfind, Except.ok.injEq, Ty.object.injEq] at h
        rw [← h, hfind]
        rfl
    · rename_i hbuiltin
      exact absurd (Except.ok.inj h) (hbuiltin c)
  | _ => simp [declaredType] at h

/-- What a step can do, with tokens and log left out. -/
inductive Stage.Effect : Stage → Standing → Move → Standing → Prop where
  | openClass {S : Standing} {name : String} {table : ClassTable}
      (htable : S.table.declareClass name = .ok table) :
      Effect .definitions S (.silent (.fields name)) { S with table, owner := some name }
  | field {S : Standing} {owner f : String} {table : ClassTable}
      (htable : S.table.addField owner f = .ok table) :
      Effect (.fields owner) S (.silent (.fields owner)) { S with table }
  | endFields {S : Standing} {owner : String} (hcount : S.table.fieldCount owner ≠ 0) :
      Effect (.fields owner) S (.silent (.methods owner false)) S
  | method {S : Standing} {owner name : String} {any : Bool} {parameter : Option Parameter}
      {table : ClassTable} (hparameter : ∀ p ∈ parameter, S.table.Knows p.type)
      (htable : S.table.addMethod owner ⟨name, parameter⟩ = .ok table)
      (hgenerated : Label.isGenerated (Label.method owner name) = false) :
      Effect (.methods owner any) S (.begin (some owner) name)
        (Standing.begin { S with table, data := S.data.reserve (Label.method owner name) }
          (some owner) name parameter)
  | closeClass {S : Standing} {owner : String} :
      Effect (.methods owner true) S (.silent .definitions) (S.closeClass owner)
  | main {S : Standing} :
      Effect .definitions S (.begin none Keyword.mainDef.text)
        (S.begin none Keyword.mainDef.text none)
  | simple {S S' : Standing} {owner : Option String} {method : String} {blocks : List Branch}
      {s : Tree.Simple} {command : Command} (hsimple : S.Elaborates s command S') :
      Effect (.statements owner method blocks) S
        (Start.move owner method blocks (.simple command)) S'
  | branch {S : Standing} {owner : Option String} {method : String} {blocks : List Branch}
      {kind : BranchKind} {c : Tree.Condition} {condition : Condition}
      (hcondition : S.condition? c = some condition) :
      Effect (.statements owner method blocks) S
        (Start.move owner method blocks (.branch ⟨kind, condition, S.draw.labels⟩)) S.draw.enter
  | leave {S : Standing} {owner : Option String} {method : String} {head : Branch}
      {blocks : List Branch} :
      Effect (.statements owner method (head :: blocks)) S
        (.finish (.statements owner method blocks) (S.scope.frameBytes S.table) head.closing)
        S.leave
  | endRoutine {S : Standing} {owner : Option String} {method : String} :
      Effect (.statements owner method []) S
        (.finish (.behind owner) (S.scope.frameBytes S.table)
          (Line.ofCode (Routine.closing ⟨owner, method, .finish 0⟩))) S
  | endProgram {S : Standing} : Effect .epilogue S ⟨none, none, []⟩ S

namespace Pass

variable {S S' : Standing} {c c' : Cursor} {log : Array Event}

/-- Two pieces, one after the other, as far as the first one can be told apart. -/
theorem exists_ends_of_bind {α β : Type} {r : Pass α} {next : α → Pass β} {σ : State} {b : β}
    (h : Ends (r >>= next) σ b S' c') : ∃ a, ∃ S₁ : Standing, ∃ c₁ log₁,
      Ends r σ a S₁ c₁ ∧ Ends (next a) (S₁.state c₁ log₁) b S' c' := by
  obtain ⟨a, S₁, c₁, log₁, hrun, hnext⟩ := ends_bind.1 h
  exact ⟨a, S₁, c₁, log₁, ⟨log₁, hrun⟩, hnext⟩

/-- What is only passed on changes nothing. -/
theorem exists_ends_of_bind_pure {α β : Type} {r : Pass α} {f : α → β} {σ : State} {b : β}
    (h : Ends (r >>= fun a => pure (f a)) σ b S' c') : ∃ a, f a = b ∧ Ends r σ a S' c' := by
  obtain ⟨a, _, _, _, hr, hdone⟩ := exists_ends_of_bind h
  obtain ⟨rfl, rfl, rfl⟩ := ends_pure.1 hdone
  exact ⟨a, rfl, hr⟩

/-- A statement is begun with its first lexeme and with what the rule told by the lexemes ahead
    reads. -/
theorem ends_start {s : Start} :
    Ends start (S.state c log) s S' c' ↔ ∃ production first d,
      Production.predict? (c.lookahead 4) = some production ∧ c.Takes [first] d ∧
        Ends (startByRule production first)
          (S.state d (log.push (.statement production S.method))) s S' c' := by
  simp only [Ends, start, Reading.bind_done, Reading.state_done, lift_done, Reader.take_done]
  have hlook : (S.state c log).cursor = c := rfl
  constructor
  · rintro ⟨log', _, _, ⟨rfl, rfl⟩, first, _, ⟨d, hfirst, rfl⟩, hrule⟩
    rw [hlook] at hrule
    cases hpredict : Production.predict? (c.lookahead 4) with
    | none => simp [hpredict] at hrule
    | some production =>
      simp only [hpredict, Reading.bind_done, context_done, record, modify_done] at hrule
      obtain ⟨_, _, ⟨rfl, rfl⟩, _, _, rfl, hrule⟩ := hrule
      exact ⟨production, first, d, rfl, hfirst, log', hrule⟩
  · rintro ⟨production, first, d, hpredict, hfirst, log', hrule⟩
    refine ⟨log', _, _, ⟨rfl, rfl⟩, first, _, ⟨d, hfirst, rfl⟩, ?_⟩
    simp only [hlook, hpredict, Reading.bind_done, context_done, record, modify_done]
    exact ⟨_, _, ⟨rfl, rfl⟩, (), _, rfl, hrule⟩

/-- The rules without a block read the yields of statement trees. -/
theorem ends_startByRule {production : Production} {first : Lexeme} {s : Start}
    (hbegins : production.Begins first)
    (hsimple : ∀ kind, production ≠ Tree.branchProduction kind)
    (h : Ends (startByRule production first) (S.state c log) s S' c') :
    ∃ t tail command, s = .simple command ∧ Tree.Simple.yield t = first :: tail ∧
      c.Takes tail c' ∧ S.simple? t = some (command, S') := by
  obtain ⟨log', hrun⟩ := h
  cases s with
  | simple command =>
    have hrule : Ends (byRule statements production first) (S.state c log) (.simple command) S'
        c' := by
      refine ⟨log', ?_⟩
      rw [byRule_eq, Reading.run_bind, hrun]
      rfl
    obtain ⟨t, tail, _, -, hyield, htakes, helab, heq⟩ := (ends_byRule hbegins hsimple).1 hrule
    cases heq
    exact ⟨t, tail, command, rfl, hyield, htakes, helab⟩
  | branch head =>
    cases production with
    | conditional => exact absurd rfl (hsimple .conditional)
    | loop => exact absurd rfl (hsimple .loop)
    | _ =>
      simp only [startByRule, Reading.bind_done, Reading.pure_done] at hrun
      obtain ⟨_, _, _, heq, _⟩ := hrun
      cases heq

theorem startByRule_branch (kind : BranchKind) (first : Lexeme) :
    startByRule (Tree.branchProduction kind) first =
      openBlock kind >>= fun head => pure (.branch head) := by
  cases kind <;> rfl

/-- A block is opened by a condition and a left brace. -/
theorem ends_openBlock {kind : BranchKind} {head : Branch}
    (h : Ends (openBlock kind) (S.state c log) head S' c') :
    ∃ t condition, c.Takes (Tree.Condition.yield t ++ [Tree.mark .leftBrace]) c' ∧
      S.condition? t = some condition ∧ head = ⟨kind, condition, S.draw.labels⟩ ∧
        S' = S.draw.enter := by
  simp only [openBlock, ends_bind, ends_pure, exists_and_right, ends_def, ends_enterBlock,
    ends_branchHead] at h
  obtain ⟨_, _, d, ⟨t, condition, htakes, hcondition, rfl, rfl⟩, _, _, _, ⟨hbrace, rfl⟩, rfl, rfl,
    rfl⟩ := h
  exact ⟨t, condition, Takes.append_iff.2 ⟨d, htakes, hbrace⟩, hcondition, rfl, rfl⟩

theorem effect_of_start {owner : Option String} {method : String} {blocks : List Branch}
    {s : Start} (h : Ends start (S.state c log) s S' c') :
    (Stage.statements owner method blocks).Effect S (s.move owner method blocks) S' := by
  obtain ⟨production, first, d, hpredict, hfirst, hrule⟩ := ends_start.1 h
  by_cases hbranch : ∃ kind, production = Tree.branchProduction kind
  · obtain ⟨kind, rfl⟩ := hbranch
    rw [startByRule_branch] at hrule
    obtain ⟨head, rfl, hopen⟩ := exists_ends_of_bind_pure hrule
    obtain ⟨_, _, -, hcondition, rfl, rfl⟩ := ends_openBlock hopen
    exact .branch hcondition
  · obtain ⟨_, _, _, rfl, -, -, helab⟩ := ends_startByRule (begins_of_takes hpredict hfirst)
      (fun kind hkind => hbranch ⟨kind, hkind⟩) hrule
    exact .simple (Standing.simple?_eq_some.1 helab)

/-- A method enters the table and takes its label. -/
theorem effect_of_header {owner name : String} {any : Bool} {u : Unit}
    (h : Ends (header owner name) (S.state c log) u S' c') :
    (Stage.methods owner any).Effect S (.begin (some owner) name) S' := by
  simp only [header, ends_bind, exists_and_right, ends_def, ends_beginRoutine, ends_claimLabel,
    ends_setTable, ends_ofExcept, ends_context, ends_lift, Reader.mark_done, ends_parameter,
    Reader.nextIs_done, ends_unless] at h
  obtain ⟨_, _, d₁, ⟨-, rfl⟩, p, _, d₂, ⟨t, -, -, hparameter, rfl⟩, h⟩ := h
  obtain ⟨_, _, _, ⟨⟨rfl, rfl⟩, rfl⟩, -, _, _, d₃, ⟨-, rfl⟩, _, _, d₄, ⟨-, rfl⟩, h⟩ := h
  obtain ⟨_, _, _, ⟨rfl, rfl, rfl⟩, table, _, _, ⟨htable, rfl, rfl⟩, h⟩ := h
  obtain ⟨_, _, _, ⟨rfl, rfl⟩, _, S₁, _, ⟨hclaim, rfl⟩, rfl, -⟩ := h
  simp only [Standing.claim?, Option.ite_none_left_eq_some, Bool.or_eq_true, not_or,
    Bool.not_eq_true, Option.some.injEq] at hclaim
  obtain ⟨⟨hgenerated, -⟩, rfl⟩ := hclaim
  refine .method ?_ (toOption_eq_some.1 htable) hgenerated
  intro q hq
  cases t with
  | none =>
    cases hparameter
    cases hq
  | some t =>
    simp only [Standing.parameter?, Option.map_eq_some_iff] at hparameter
    obtain ⟨type, htype, rfl⟩ := hparameter
    cases hq
    exact Context.knows_of_declaredType (toOption_eq_some.1 htype)

/-- A check that does not strike changes nothing. -/
theorem ends_check {test : Prop} [Decidable test] {stop : Pass Unit} {u : Unit}
    (hstop : ¬ Ends stop (S.state c log) u S' c') :
    Ends (if test then stop else pure ()) (S.state c log) u S' c' ↔
      ¬ test ∧ S' = S ∧ c' = c := by
  by_cases htest : test
  · simp [htest, hstop]
  · simp [htest, ends_pure]

theorem ends_beginBody {u : Unit} (h : Ends beginBody (S.state c log) u S' c') : S' = S := by
  obtain ⟨closes, _, _, _, hnext, hcheck⟩ := exists_ends_of_bind h
  obtain ⟨-, rfl⟩ := ends_lift.1 hnext
  exact ((ends_check fun hstop => Reader.reject_done (ends_lift.1 hstop).1).1 hcheck).2.1

theorem ends_endFields {owner : String} {u : Unit}
    (h : Ends (endFields owner) (S.state c log) u S' c') :
    S.table.fieldCount owner ≠ 0 ∧ S' = S := by
  obtain ⟨_, _, _, _, hcontext, hcheck⟩ := exists_ends_of_bind h
  obtain ⟨rfl, rfl, -⟩ := ends_context.1 hcontext
  obtain ⟨hcount, rfl, -⟩ := (ends_check ends_fail).1 hcheck
  exact ⟨hcount, rfl⟩

theorem ends_endProgram {u : Unit} (h : Ends endProgram (S.state c log) u S' c') : S' = S := by
  obtain ⟨_, _, _, _, hend, hcheck⟩ := exists_ends_of_bind h
  obtain ⟨-, rfl, -⟩ := ends_atEnd.1 hend
  exact ((ends_check fun hstop => Reader.reject_done (ends_lift.1 hstop).1).1 hcheck).2.1

/-- A step does one of the things that a step can do. -/
theorem effect_of_step {stage : Stage} {move : Move}
    (h : Ends stage.step (S.state c log) move S' c') : stage.Effect S move S' := by
  cases stage with
  | definitions =>
    rw [Stage.step, ends_state] at h
    split at h
    · simp only [classHeader, ends_bind, ends_pure, exists_and_right, ends_def, ends_lift,
        ends_beginClass] at h
      obtain ⟨_, _, _, ⟨-, rfl⟩, name, _, _, ⟨_, _, _, ⟨-, rfl⟩, _, _, _, ⟨table, htable, rfl, rfl⟩,
        _, _, _, ⟨-, rfl⟩, rfl, rfl, rfl⟩, rfl, rfl, -⟩ := h
      exact .openClass (toOption_eq_some.1 htable)
    · obtain ⟨_, _, _, _, hheader, hbody⟩ := exists_ends_of_bind h
      obtain ⟨_, rfl, hbegin⟩ := exists_ends_of_bind_pure hbody
      obtain rfl := ends_beginBody hbegin
      simp only [mainHeader, ends_bind, exists_and_right, ends_def, ends_unless,
        ends_unless_reject, ends_lift, ends_atEnd, ends_beginRoutine] at hheader
      obtain ⟨_, _, _, ⟨-, rfl, rfl⟩, -, _, _, _, ⟨-, rfl⟩, -, _, _, _, ⟨-, rfl⟩, _, _, _, ⟨-, rfl⟩,
        _, _, _, ⟨-, rfl⟩, _, _, _, ⟨-, rfl⟩, rfl, -⟩ := hheader
      exact .main
  | fields owner =>
    rw [Stage.step, ends_state] at h
    split at h
    · simp only [ends_bind, ends_pure, exists_and_right, ends_def, ends_lift, ends_field,
        Standing.field?, Option.map_eq_some_iff] at h
      obtain ⟨_, _, _, ⟨-, rfl⟩, _, _, _, ⟨f, -, table, htable, heq⟩, rfl, rfl, -⟩ := h
      cases heq
      exact .field (toOption_eq_some.1 htable)
    · obtain ⟨_, rfl, hend⟩ := exists_ends_of_bind_pure h
      obtain ⟨hcount, rfl⟩ := ends_endFields hend
      exact .endFields hcount
  | methods owner any =>
    rw [Stage.step, ends_state] at h
    split at h
    · obtain ⟨_, _, _, _, htaken, hrest⟩ := exists_ends_of_bind h
      obtain ⟨-, rfl⟩ := ends_lift.1 htaken
      obtain ⟨_, _, _, _, hheader, hbody⟩ := exists_ends_of_bind hrest
      obtain ⟨_, rfl, hbegin⟩ := exists_ends_of_bind_pure hbody
      obtain rfl := ends_beginBody hbegin
      exact effect_of_header hheader
    · simp only [closeClass, ends_bind, ends_pure, exists_and_right, ends_def, ends_unless,
        ends_lift, ends_endClass] at h
      obtain ⟨_, _, _, ⟨hany, _, _, _, ⟨-, rfl⟩, rfl, rfl⟩, rfl, rfl, -⟩ := h
      cases any with
      | false => exact absurd rfl hany
      | true => exact .closeClass
  | statements owner method blocks =>
    rw [Stage.step, ends_state] at h
    split at h
    · cases blocks with
      | nil =>
        simp only [Pass.endRoutine, ends_bind, ends_pure, exists_and_right, ends_def, ends_lift,
          ends_record] at h
        obtain ⟨_, _, _, ⟨_, _, _, ⟨-, rfl⟩, rfl, rfl⟩, rfl, rfl, -⟩ := h
        exact .endRoutine
      | cons head blocks =>
        simp only [ends_bind, ends_pure, exists_and_right, ends_def, ends_leaveBlock] at h
        obtain ⟨_, _, _, ⟨-, rfl⟩, rfl, rfl, -⟩ := h
        exact .leave
    · obtain ⟨s, rfl, hstart⟩ := exists_ends_of_bind_pure h
      exact effect_of_start hstart
  | epilogue =>
    obtain ⟨_, rfl, hend⟩ := exists_ends_of_bind_pure h
    obtain rfl := ends_endProgram hend
    exact .endProgram

end Pass

/-- A step from a moment does one of these things. -/
theorem Progress.Takes.exists_effect {P : Progress} {move : Move} {τ : State}
    (h : P.Takes move τ) :
    ∃ stage, P.stage = some stage ∧ stage.Effect P.state.standing move τ.standing := by
  obtain ⟨stage, hstage, hrun⟩ := h
  refine ⟨stage, hstage, ?_⟩
  rw [Standing.eq_state (σ := P.state) rfl] at hrun
  exact Pass.effect_of_step ⟨τ.log, hrun⟩

end ClassLang
