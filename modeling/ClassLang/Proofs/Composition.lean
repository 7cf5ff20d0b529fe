/-
  ClassLang/Proofs/Composition.lean
  =================================
  **What the pass is put together from.**

  All rules of the language are made of a few pieces: take a token, look at the next
  three, look at the rest of the state or change it, stop with a fault, do one thing
  after another, and call oneself.  The one exception is the prediction of a statement,
  which looks at four tokens and takes the first of them at once.

  `Reader.Composed` and `Pass.Composed` say that a step is made of these pieces, and
  `Pass.composed_program` says it of the whole pass.  A property that every piece has,
  and that holds of a whole if it holds of its parts, is from here on a property of the
  pass: it is proved by induction on how steps are put together, and no rule has to be
  opened for it.
-/
import Mathlib.Logic.Function.Iterate
import ClassLang.Compilation

namespace ClassLang

open HasCursor (cursor)

/-! ### What three tokens tell -/

namespace Cursor

variable {c c' : Cursor}

theorem nextIs_congr (h : c.lookahead 3 = c'.lookahead 3) (test : Lexeme → Bool) :
    c.nextIs test = c'.nextIs test := by
  have hhead : ∀ d : Cursor, d.nextIs test = (d.lookahead 3).head?.any test := by
    rintro ⟨_, _ | ⟨token, ahead⟩⟩
    · rfl
    · rfl
  rw [hhead, hhead, h]

theorem atEnd_congr (h : c.lookahead 3 = c'.lookahead 3) : c.atEnd = c'.atEnd := by
  have hempty : ∀ d : Cursor, d.atEnd = (d.lookahead 3).isEmpty := by
    rintro ⟨_, _ | ⟨token, ahead⟩⟩
    · rfl
    · rfl
  rw [hempty, hempty, h]

theorem start_congr {γ : Type} (h : c.lookahead 3 = c'.lookahead 3) (begins : Lexeme → Option γ) :
    c.ahead.head?.bind (begins ·.lexeme) = c'.ahead.head?.bind (begins ·.lexeme) := by
  have hhead : ∀ d : Cursor,
      d.ahead.head?.bind (begins ·.lexeme) = (d.lookahead 3).head?.bind begins := by
    rintro ⟨_, _ | ⟨token, ahead⟩⟩
    · rfl
    · rfl
  rw [hhead, hhead, h]

end Cursor

/-! ### Often enough is always -/

/-- A guarded step that calls itself often enough does what its fixed point does. -/
theorem Reading.run_iterate {σ α : Type} [HasCursor σ] {step : Reading σ α → Reading σ α}
    (h : Guarded step) (r : Reading σ α) {n : Nat} {s : σ} (hn : remaining s < n) :
    (step^[n] r).run s = (fix step).run s := by
  induction n generalizing s with
  | zero => exact absurd hn (Nat.not_lt_zero _)
  | succ n ih =>
    rw [Function.iterate_succ_apply', run_fix h s]
    apply h
    intro t ht
    apply ih
    omega

/-! ### Readers -/

namespace Reader

/-- Readers that are made of taking tokens and looking at the next three. -/
inductive Composed : {α : Type} → Reader α → Prop where
  | pure {α : Type} (a : α) : Composed (Pure.pure a)
  | fail {α : Type} (fault : Fault) : Composed (Reading.fail fault : Reader α)
  | take : Composed take
  | bind {α β : Type} {r : Reader α} {next : α → Reader β} (h : Composed r)
      (hnext : ∀ a, Composed (next a)) : Composed (r >>= next)
  | look {α : Type} {next : Cursor → Reader α}
      (hsame : ∀ c c' : Cursor, c'.lookahead 3 = c.lookahead 3 → next c' = next c)
      (hnext : ∀ c, Composed (next c)) : Composed (Reading.state >>= next)

namespace Composed

variable {α : Type}

theorem ite {test : Prop} [Decidable test] {r r' : Reader α} (h : Composed r)
    (h' : Composed r') : Composed (if test then r else r') := by
  split
  · exact h
  · exact h'

theorem ofExcept (check : Except Fault α) : Composed (Reading.ofExcept check : Reader α) := by
  cases check with
  | ok a => exact .pure a
  | error fault => exact .fail fault

end Composed

theorem composed_nextIs (test : Lexeme → Bool) : Composed (nextIs test) :=
  .look (fun _ _ h => congrArg Pure.pure (Cursor.nextIs_congr h test)) fun _ => .pure _

theorem composed_expect (wanted : Expectation) (test : Lexeme → Bool) :
    Composed (expect wanted test) :=
  Composed.take.bind fun _ => .ite (.pure _) (.fail _)

theorem composed_mark (wanted : Punctuation) : Composed (mark wanted) :=
  composed_expect _ _

theorem composed_word (wanted : Keyword) : Composed (word wanted) :=
  composed_expect _ _

theorem composed_operator (wanted : Operator) : Composed (operator wanted) :=
  composed_expect _ _

theorem composed_identifier : Composed identifier := by
  refine Composed.take.bind fun found => ?_
  split
  · exact .pure _
  · exact .fail _

theorem composed_reject {α : Type} (wanted : Expectation) :
    Composed (reject wanted : Reader α) :=
  Composed.take.bind fun _ => .fail _

end Reader

open Reader (composed_nextIs composed_mark composed_word composed_operator composed_identifier
  composed_reject)

/-! ### Rules for statements -/

namespace Rule

open Reader (Composed)

variable (Γ : Context)

theorem composed_place (first : Lexeme) : Composed (place Γ first) := by
  unfold place
  split
  · exact (composed_mark _).bind fun _ => composed_identifier.bind fun _ =>
      (Composed.ofExcept _).bind fun _ => (Composed.ofExcept _).bind fun _ =>
        .pure _
  · refine (composed_nextIs _).bind fun _ => .ite ?_ ?_
    · refine (composed_mark _).bind fun _ => composed_identifier.bind fun _ =>
        (Composed.ofExcept _).bind fun owner => ?_
      split
      · exact (Composed.ofExcept _).bind fun _ => (Composed.ofExcept _).bind fun _ =>
          .pure _
      · exact .fail _
    · exact (Composed.ofExcept _).bind fun _ => (Composed.ofExcept _).bind fun _ =>
        .pure _
  · exact .fail _

theorem composed_anyValue (first : Lexeme) : Composed (anyValue Γ first) := by
  unfold anyValue
  split
  · split
    · exact .pure _
    · exact .fail _
  · exact (composed_place Γ _).bind fun _ => .pure _
  · exact (composed_place Γ _).bind fun _ => .pure _
  · exact .fail _

theorem composed_value (expected : Ty) : Composed (value Γ expected) :=
  Composed.take.bind fun _ => (composed_anyValue Γ _).bind fun _ =>
    .ite (.pure _) (.fail _)

theorem composed_numberInit (name : String) : Composed (numberInit Γ name) :=
  (composed_value Γ _).bind fun _ => (composed_mark _).bind fun _ => .pure _

theorem composed_stringSource (name : String) : Composed (stringSource Γ name) := by
  refine Composed.take.bind fun found => ?_
  split
  · exact .pure _
  · refine (Composed.ofExcept _).bind fun symbol => .ite ?_ (.fail _)
    split
    · exact .pure _
    · exact .fail _
  · exact .fail _
  · exact .fail _

theorem composed_stringInit (name : String) : Composed (stringInit Γ name) :=
  (composed_stringSource Γ _).bind fun _ => (composed_mark _).bind fun _ =>
    .pure _

theorem composed_objectInit (name className : String) :
    Composed (objectInit Γ name className) := by
  refine .look (fun c c' h => ?_) fun c => .ite ?_ ?_
  · rw [h]
  · exact composed_identifier.bind fun _ => (Composed.ofExcept _).bind fun _ =>
      .ite ((composed_mark _).bind fun _ => (composed_word _).bind fun _ =>
        (composed_mark _).bind fun _ => (composed_mark _).bind fun _ =>
          (composed_mark _).bind fun _ => .pure _) (.fail _)
  · exact (composed_value Γ _).bind fun _ => (composed_mark _).bind fun _ =>
      .pure _

theorem composed_declaration (first : Lexeme) : Composed (declaration Γ first) := by
  refine (Composed.ofExcept _).bind fun type => composed_identifier.bind fun name =>
    .ite (.fail _) ((composed_operator _).bind fun _ => ?_)
  cases type with
  | int => exact composed_numberInit Γ name
  | string => exact composed_stringInit Γ name
  | object className => exact composed_objectInit Γ name className

theorem composed_assignment (first : Lexeme) : Composed (assignment Γ first) := by
  refine (composed_place Γ first).bind fun target => ?_
  split
  · exact .fail _
  · exact (composed_operator _).bind fun _ => (composed_value Γ _).bind fun _ =>
      (composed_mark _).bind fun _ => .pure _
  · exact (composed_operator _).bind fun _ => (composed_value Γ _).bind fun _ =>
      (composed_mark _).bind fun _ => .pure _

theorem composed_callee (first : Lexeme) : Composed (callee Γ first) := by
  refine (composed_nextIs _).bind fun _ => .ite ?_ ?_
  · refine (composed_mark _).bind fun _ => composed_identifier.bind fun method => ?_
    split
    · exact (Composed.ofExcept _).bind fun _ => .pure _
    · refine (Composed.ofExcept _).bind fun symbol => ?_
      split
      · exact (Composed.ofExcept _).bind fun _ => .pure _
      · exact .fail _
    · exact .fail _
  · split
    · split
      · exact .pure _
      · exact .fail _
    · exact .fail _

theorem composed_argument (owner : String) (signature : Signature) :
    Composed (argument Γ owner signature) := by
  refine (composed_nextIs _).bind fun closes => ?_
  split
  · exact .fail _
  · exact (composed_value Γ _).bind fun _ => .pure _
  · exact .pure _
  · exact .fail _

theorem composed_call (first : Lexeme) : Composed (call Γ first) :=
  (composed_callee Γ first).bind fun (_, _) => (Composed.ofExcept _).bind fun _ =>
    (composed_mark _).bind fun _ => (composed_argument Γ _ _).bind fun _ =>
      (composed_mark _).bind fun _ => (composed_mark _).bind fun _ => .pure _

theorem composed_print : Composed (print Γ) :=
  (composed_mark _).bind fun _ => (composed_value Γ _).bind fun _ =>
    (composed_mark _).bind fun _ => (composed_mark _).bind fun _ => .pure _

theorem composed_textArgument : Composed (textArgument Γ) := by
  refine Composed.take.bind fun found => ?_
  split
  · exact .pure _
  · exact (Composed.ofExcept _).bind fun _ => .ite (.pure _) (.fail _)
  · exact .fail _

theorem composed_printText : Composed (printText Γ) :=
  (composed_mark _).bind fun _ => (composed_textArgument Γ).bind fun _ =>
    (composed_mark _).bind fun _ => (composed_mark _).bind fun _ => .pure _

theorem composed_condition : Composed (condition Γ) := by
  refine (composed_mark _).bind fun _ => (composed_value Γ _).bind fun left =>
    Composed.take.bind fun found => ?_
  split
  · exact (composed_value Γ _).bind fun _ => (composed_mark _).bind fun _ =>
      .pure _
  · exact .fail _

end Rule

/-! ### The pass -/

namespace Pass

open Reading (Guarded)

/-- Steps of the pass that are made of readers, of looks at the state that see three tokens at most,
    and of changes of the state that leave the tokens alone. -/
inductive Composed : {α : Type} → Pass α → Prop where
  | pure {α : Type} (a : α) : Composed (Pure.pure a)
  | fail {α : Type} (fault : Fault) : Composed (Reading.fail fault : Pass α)
  | lift {α : Type} {r : Reader α} (h : Reader.Composed r) : Composed (liftM r : Pass α)
  | bind {α β : Type} {r : Pass α} {next : α → Pass β} (h : Composed r)
      (hnext : ∀ a, Composed (next a)) : Composed (r >>= next)
  | look {α : Type} {next : State → Pass α}
      (hsame : ∀ (σ : State) (c : Cursor), c.lookahead 3 = σ.cursor.lookahead 3 →
        next { σ with cursor := c } = next σ)
      (hnext : ∀ σ, Composed (next σ)) : Composed (Reading.state >>= next)
  | lookTake {α : Type} {next : State → Lexeme → Pass α}   -- four tokens, one of them taken
      (hsame : ∀ (σ : State) (c : Cursor), c.lookahead 4 = σ.cursor.lookahead 4 →
        next { σ with cursor := c } = next σ)
      (hnext : ∀ σ first, Composed (next σ first)) :
      Composed (Reading.state >>= fun σ => liftM Reader.take >>= next σ)
  | modify {change : State → State} {keeps : ∀ σ, cursor (change σ) = cursor σ}
      (hsame : ∀ (σ : State) (c : Cursor),
        change { σ with cursor := c } = { change σ with cursor := c }) :
      Composed (Reading.modify change keeps)
  | fix {α : Type} {step : Pass α → Pass α} (hguarded : Guarded step)
      (hturns : ∀ n, Composed (step^[n] (Reading.fail .endOfInput))) : Composed (Reading.fix step)

namespace Composed

variable {α γ : Type}

theorem ite {test : Prop} [Decidable test] {r r' : Pass α} (h : Composed r)
    (h' : Composed r') : Composed (if test then r else r') := by
  split
  · exact h
  · exact h'

/-- A step that is passed by unless a test holds. -/
theorem guard {test : Prop} [Decidable test] {stop : Pass Unit} {next : Unit → Pass α}
    (h : Composed stop) (hnext : ∀ u, Composed (next u)) :
    Composed (if test then stop >>= next else next ()) :=
  (h.bind hnext).ite (hnext ())

theorem ofExcept (check : Except Fault α) : Composed (Reading.ofExcept check : Pass α) := by
  cases check with
  | ok a => exact .pure a
  | error fault => exact .fail fault

/-- A step that calls itself is composed if one turn of it is. -/
theorem fix_of_turn {step : Pass α → Pass α} (hguarded : Guarded step)
    (h : ∀ r, Composed r → Composed (step r)) : Composed (Reading.fix step) := by
  refine .fix hguarded fun n => ?_
  induction n with
  | zero => exact .fail _
  | succ n ih =>
    rw [Function.iterate_succ_apply']
    exact h _ ih

theorem many {begins : Lexeme → Option γ} {item : γ → Pass α} (h : ∀ start, Composed (item start)) :
    Composed (Reading.many begins item) := by
  refine fix_of_turn (Reading.guarded_manyStep begins item) fun more hmore =>
    .look (fun σ c hc => ?_) fun σ => ?_
  · have hstart : (HasCursor.cursor { σ with cursor := c }).ahead.head?.bind (begins ·.lexeme) =
        (HasCursor.cursor σ).ahead.head?.bind (begins ·.lexeme) := Cursor.start_congr hc begins
    rw [hstart]
  · split
    · exact .pure _
    · exact (Composed.lift .take).bind fun _ => (h _).bind fun _ => hmore.bind fun _ => .pure _

end Composed

theorem composed_record (event : Event) : Composed (record event) :=
  .modify fun _ _ => rfl

theorem composed_context : Composed context :=
  .look (fun _ _ _ => rfl) fun _ => .pure _

theorem composed_setTable (table : ClassTable) : Composed (setTable table) :=
  .modify fun _ _ => rfl

theorem composed_setScope (scope : Scope) : Composed (setScope scope) :=
  .modify fun _ _ => rfl

theorem composed_setData (data : DataSection) : Composed (setData data) :=
  .modify fun _ _ => rfl

theorem composed_freshNumber : Composed freshNumber := by
  refine .bind (.modify ?_) fun _ =>
    .look (fun _ _ _ => rfl) fun _ => .pure _
  intro σ c
  rfl

theorem composed_declare (symbol : Symbol) : Composed (declare symbol) :=
  composed_context.bind fun _ => (Composed.ofExcept _).bind fun _ => composed_setScope _

theorem composed_declareOnStack (name : String) (type : Ty) :
    Composed (declareOnStack name type) :=
  (composed_declare _).bind fun _ => composed_context.bind fun _ => .ofExcept _

theorem composed_storeString (name : String) (bytes : List UInt8) :
    Composed (storeString name bytes) :=
  composed_context.bind fun _ => (composed_setData _).bind fun _ => .pure _

theorem composed_enterBlock : Composed enterBlock :=
  (Composed.lift (composed_mark _)).bind fun _ => composed_context.bind fun _ =>
    (composed_setScope _).bind fun _ => composed_context.bind fun _ => composed_record _

theorem composed_leaveBlock : Composed leaveBlock :=
  composed_context.bind fun _ => (composed_setScope _).bind fun _ =>
    composed_context.bind fun _ => (composed_record _).bind fun _ => .lift (composed_mark _)

theorem composed_fulfil (request : Request) : Composed (fulfil request) := by
  cases request with
  | number name value =>
    exact (composed_declareOnStack _ _).bind fun _ => .pure _
  | string name bytes =>
    exact (composed_storeString _ _).bind fun _ => (composed_record _).bind fun _ =>
      (composed_declare _).bind fun _ => .pure _
  | create name className =>
    exact (composed_declareOnStack _ _).bind fun _ => composed_context.bind fun _ =>
      .pure _
  | copy name className source =>
    exact (composed_declareOnStack _ _).bind fun _ => composed_context.bind fun _ =>
      .pure _
  | printLiteral bytes =>
    exact composed_freshNumber.bind fun _ => (composed_storeString _ _).bind fun _ =>
      .pure _
  | ready command => exact .pure _

theorem composed_simple {rule : Context → Reader Request} (h : ∀ Γ, Reader.Composed (rule Γ)) :
    Composed (simple rule) :=
  composed_context.bind fun Γ => (Composed.lift (h Γ)).bind fun _ =>
    (composed_fulfil _).bind fun _ => .pure _

theorem composed_branch {body : Pass Body} (h : Composed body) (kind : BranchKind) :
    Composed (branch body kind) := by
  have hhead : Composed (branchHead kind) :=
    composed_context.bind fun Γ => (Composed.lift (Rule.composed_condition Γ)).bind fun _ =>
      composed_freshNumber.bind fun _ => .pure _
  have hblock : Composed (block body) :=
    composed_enterBlock.bind fun _ => h.bind fun _ => composed_leaveBlock.bind fun _ =>
      .pure _
  exact hhead.bind fun _ => hblock.bind fun _ => .pure _

theorem composed_byRule {body : Pass Body} (h : Composed body) (production : Production)
    (first : Lexeme) : Composed (byRule body production first) := by
  cases production with
  | declaration => exact composed_simple fun Γ => Rule.composed_declaration Γ first
  | assignment => exact composed_simple fun Γ => Rule.composed_assignment Γ first
  | call => exact composed_simple fun Γ => Rule.composed_call Γ first
  | conditional => exact composed_branch h .conditional
  | loop => exact composed_branch h .loop
  | print => exact composed_simple Rule.composed_print
  | printText => exact composed_simple Rule.composed_printText

theorem composed_statement {body : Pass Body} (h : Composed body) :
    Composed (statement body) := by
  refine .lookTake (fun σ c hc => ?_) fun σ first => ?_
  · exact congrArg (fun lexemes => followed body (Production.predict? lexemes)) hc
  · unfold followed
    split
    · exact .fail _
    · exact composed_context.bind fun _ => (composed_record _).bind fun _ =>
        composed_byRule h _ first

theorem composed_statements : Composed statements := by
  refine .fix_of_turn guarded_statementsStep fun body h => .look (fun σ c hc => ?_) fun σ => ?_
  · rw [Cursor.nextIs_congr hc]
  · exact .ite (.pure _) ((composed_statement h).bind fun _ => h.bind fun _ =>
      .pure _)

theorem composed_routineBody : Composed routineBody :=
  (Composed.lift (composed_nextIs _)).bind fun _ =>
    (Composed.lift (composed_reject _)).ite composed_statements

theorem composed_beginRoutine (owner : Option String) (method : String)
    (parameter : Option Parameter) : Composed (beginRoutine owner method parameter) := by
  refine .bind (.modify ?_) fun _ => ?_
  · intro σ c
    rfl
  · cases parameter with
    | none => exact .pure _
    | some parameter => exact composed_context.bind fun _ => composed_setScope _

theorem composed_routine (owner : Option String) (method : String) :
    Composed (routine owner method) :=
  composed_routineBody.bind fun _ => (Composed.lift (composed_mark _)).bind fun _ =>
    (composed_record _).bind fun _ => .pure _

theorem composed_claimLabel (label : String) : Composed (claimLabel label) :=
  composed_context.bind fun _ => .ite (.fail _) (composed_setData _)

theorem composed_parameter : Composed parameter :=
  (Composed.lift (composed_nextIs _)).bind fun _ => .ite (.pure _)
    (composed_context.bind fun _ => (Composed.lift .take).bind fun _ =>
      (Composed.ofExcept _).bind fun _ => (Composed.lift composed_identifier).bind fun _ =>
        .pure _)

theorem composed_method (owner name : String) : Composed (method owner name) :=
  (Composed.lift (composed_mark _)).bind fun _ => composed_parameter.bind fun _ =>
    (Composed.lift (composed_nextIs _)).bind fun _ => .guard (.fail _) fun _ =>
      (Composed.lift (composed_mark _)).bind fun _ =>
        (Composed.lift (composed_mark _)).bind fun _ =>
          composed_context.bind fun _ => (Composed.ofExcept _).bind fun _ =>
            (composed_setTable _).bind fun _ => (composed_claimLabel _).bind fun _ =>
              (composed_beginRoutine _ _ _).bind fun _ => composed_routine _ _

theorem composed_field (owner : String) : Composed (field owner) :=
  (Composed.lift composed_identifier).bind fun _ => (Composed.lift (composed_mark _)).bind fun _ =>
    composed_context.bind fun _ => (Composed.ofExcept _).bind fun _ =>
      (composed_setTable _).bind fun _ => composed_record _

theorem composed_beginClass (name : String) : Composed (beginClass name) := by
  refine composed_context.bind fun _ => (Composed.ofExcept _).bind fun table =>
    .bind (.modify ?_) fun _ => composed_record _
  intro σ c
  rfl

theorem composed_endClass (name : String) : Composed (endClass name) :=
  .modify fun _ _ => rfl

theorem composed_classDefinition : Composed classDefinition :=
  (Composed.lift composed_identifier).bind fun name => (composed_beginClass name).bind fun _ =>
    (Composed.lift (composed_mark _)).bind fun _ =>
      (Composed.many fun _ => composed_field name).bind fun _ =>
        composed_context.bind fun _ => .guard (.fail _) fun _ =>
          (Composed.many (composed_method name)).bind fun _ =>
            .guard (.fail _) fun _ => (Composed.lift (composed_mark _)).bind fun _ =>
              (composed_endClass name).bind fun _ => .pure _

theorem composed_entryPoint : Composed entryPoint :=
  (Composed.lift (composed_word _)).bind fun _ => (Composed.lift (composed_mark _)).bind fun _ =>
    (Composed.lift (composed_mark _)).bind fun _ => (Composed.lift (composed_mark _)).bind fun _ =>
      (composed_beginRoutine _ _ _).bind fun _ => composed_routine _ _

theorem composed_atEnd : Composed atEnd := by
  refine .look (fun σ c hc => ?_) fun _ => .pure _
  exact congrArg Pure.pure (Cursor.atEnd_congr hc)

theorem composed_program : Composed program :=
  (Composed.many fun _ => composed_classDefinition).bind fun _ =>
    composed_atEnd.bind fun _ => .guard (.fail _) fun _ =>
      (Composed.lift (composed_nextIs _)).bind fun _ =>
        (Composed.lift (composed_reject _)).guard fun _ =>
          composed_entryPoint.bind fun _ => composed_atEnd.bind fun _ =>
            (Composed.lift (composed_reject _)).guard fun _ => .pure _

end Pass

end ClassLang
