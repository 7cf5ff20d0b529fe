/-
  ClassLang/Proofs/Fallbacks.lean
  ===============================
  **What the pass is prepared for and never meets.**

  Some look-ups of the pass cannot fail in a program, however wrong it is: a variable
  that is in scope has a place, the class at hand is open, the label of a string
  variable has an entry.  The pass still has an answer for the case that they do: a fault
  that no program deserves, no bytes, a size of nothing, code that goes nowhere.  Here
  it is shown that these answers are never given, whatever the tokens are.

  A step is `Careful` if the faults that stop it are the program's own.  Carefulness goes
  through a rule piece by piece, and comes down to the look-ups; that those succeed
  follows from what holds at every moment (`Reached.regular`).  The main statement is
  `fallbacks_unreachable`.
-/
import ClassLang.Proofs.StepInvariants

namespace ClassLang

/-! ### Faults that no program deserves -/

/-- The fault reports a check that does not fail.  For tokens that come from a text, a number out
    of range is one, since such a number is no token. -/
def Fault.IsFallback (lexed : Prop) : Fault → Prop
  | .undefined (.stackSlot _) => True
  | .undefined (.className _) => True
  | .structural (.closedClass _) => True
  | .lexical _ => lexed
  | _ => False

/-- The check fails for faults of the program only. -/
def Deserved {α : Type} (lexed : Prop) (e : Except Fault α) : Prop :=
  ∀ fault, e = .error fault → ¬ fault.IsFallback lexed

/-! ### Careful steps -/

namespace Reading

variable {σ α β : Type} [HasCursor σ] {lexed : Prop} {s : σ}

/-- The tokens ahead are proper ones, if they come from a text. -/
def Clean (lexed : Prop) (s : σ) : Prop :=
  lexed → ∀ token ∈ (HasCursor.cursor s).ahead, token.lexeme.Proper

/-- If the step is stopped, the program deserves it. -/
def Careful (lexed : Prop) (r : Reading σ α) (s : σ) : Prop :=
  Clean lexed s → ∀ fault t, r.run s = .stopped fault t → ¬ fault.IsFallback lexed

theorem Clean.run (h : Clean lexed s) {r : Reading σ α} {a : α} {t : σ}
    (hrun : r.run s = .done a t) : Clean lexed t := by
  intro hlexed token htoken
  have hsuffix := (r.forward s).isSuffix
  rw [hrun] at hsuffix
  exact h hlexed token (hsuffix.subset htoken)

theorem Careful.bind {r : Reading σ α} {next : α → Reading σ β} (h : r.Careful lexed s)
    (hnext : ∀ a t, r.run s = .done a t → (next a).Careful lexed t) :
    (r >>= next).Careful lexed s := by
  intro hclean fault t hstop
  rw [run_bind] at hstop
  split at hstop
  · rename_i a u hrun
    exact hnext a u hrun (hclean.run hrun) fault t hstop
  · rename_i fault' u hrun
    cases hstop
    exact h hclean _ _ hrun

theorem careful_of_done {r : Reading σ α} {a : α} {t : σ} (h : r.run s = .done a t) :
    r.Careful lexed s := by
  intro _ fault u hstop
  rw [h] at hstop
  cases hstop

/-- The step is careful wherever it begins. -/
def Safe (lexed : Prop) (r : Reading σ α) : Prop := ∀ s, r.Careful lexed s

theorem safe_pure (a : α) : (pure a : Reading σ α).Safe lexed := fun _ => careful_of_done rfl

theorem safe_state : (state : Reading σ σ).Safe lexed := fun _ => careful_of_done rfl

theorem safe_modify (change : σ → σ)
    (keeps : ∀ s, HasCursor.cursor (change s) = HasCursor.cursor s) :
    (modify change keeps).Safe lexed :=
  fun _ => careful_of_done rfl

theorem safe_fail {fault : Fault} (h : ¬ fault.IsFallback lexed) :
    (fail fault : Reading σ α).Safe lexed := by
  intro s _ fault' t hstop
  cases hstop
  exact h

theorem safe_ofExcept {e : Except Fault α} (h : Deserved lexed e) :
    (ofExcept e : Reading σ α).Safe lexed := by
  cases e with
  | ok a => exact safe_pure a
  | error fault => exact safe_fail (h fault rfl)

theorem Safe.bind {r : Reading σ α} {next : α → Reading σ β} (h : r.Safe lexed)
    (hnext : ∀ a, (next a).Safe lexed) : (r >>= next).Safe lexed :=
  fun s => (h s).bind fun a t _ => hnext a t

/-- Behind a check its answer is known. -/
theorem safe_ofExcept_bind {e : Except Fault α} {next : α → Reading σ β} (h : Deserved lexed e)
    (hnext : ∀ a, e = .ok a → (next a).Safe lexed) : (ofExcept e >>= next).Safe lexed := by
  intro s
  refine (safe_ofExcept h s).bind fun a t hrun => ?_
  obtain ⟨hok, rfl⟩ := ofExcept_done.1 hrun
  exact hnext a hok _

theorem safe_ite {p : Prop} [Decidable p] {r r' : Reading σ α} (h : r.Safe lexed)
    (h' : r'.Safe lexed) : (if p then r else r').Safe lexed := by
  by_cases hp : p
  · rw [if_pos hp]
    exact h
  · rw [if_neg hp]
    exact h'

/-- A check in the middle. -/
theorem safe_check {p : Prop} [Decidable p] {stop : Reading σ Unit} {next : Unit → Reading σ β}
    (hstop : stop.Safe lexed) (hnext : (next ()).Safe lexed) :
    (if p then stop >>= next else next ()).Safe lexed :=
  safe_ite (hstop.bind fun _ => hnext) hnext

theorem Safe.lift {r : Reader α} (h : r.Safe lexed) : (liftM r : Reading σ α).Safe lexed := by
  intro s hclean fault t hstop
  rw [run_lift] at hstop
  split at hstop
  · cases hstop
  · rename_i fault' c hrun
    cases hstop
    exact h (HasCursor.cursor s) hclean _ _ hrun

end Reading

namespace Reader

open Reading (Safe safe_fail safe_ite safe_pure safe_state)

variable {α : Type} {lexed : Prop}

/-- A token that is taken is a proper one, if it comes from a text. -/
theorem safe_take_bind {next : Lexeme → Reader α}
    (hnext : ∀ l, (lexed → l.Proper) → (next l).Safe lexed) : (take >>= next).Safe lexed := by
  intro c hclean fault t hstop
  obtain ⟨last, _ | ⟨token, ahead⟩⟩ := c
  · cases hstop
    exact fun h => h
  · have hproper : lexed → token.lexeme.Proper := fun hlexed =>
      hclean hlexed token (List.mem_cons_self ..)
    have hbehind : Reading.Clean lexed (⟨some token, ahead⟩ : Cursor) := fun hlexed other hother =>
      hclean hlexed other (List.mem_cons_of_mem _ hother)
    exact hnext token.lexeme hproper ⟨some token, ahead⟩ hbehind fault t hstop

theorem safe_take : take.Safe lexed := by
  rw [← bind_pure take]
  exact safe_take_bind fun l _ => safe_pure l

theorem safe_nextIs (test : Lexeme → Bool) : (nextIs test).Safe lexed :=
  safe_state.bind fun _ => safe_pure _

theorem safe_expect (wanted : Expectation) (test : Lexeme → Bool) :
    (expect wanted test).Safe lexed :=
  safe_take_bind fun _ _ => safe_ite (safe_pure ()) (safe_fail fun h => h)

theorem safe_mark (m : Punctuation) : (mark m).Safe lexed := safe_expect _ _

theorem safe_word (w : Keyword) : (word w).Safe lexed := safe_expect _ _

theorem safe_operator (op : Operator) : (operator op).Safe lexed := safe_expect _ _

theorem safe_identifier : identifier.Safe lexed := by
  refine safe_take_bind fun l _ => ?_
  cases l with
  | identifier name => exact safe_pure name
  | _ => exact safe_fail fun h => h

theorem safe_reject (wanted : Expectation) : (reject wanted : Reader α).Safe lexed :=
  safe_take_bind fun _ _ => safe_fail fun h => h

end Reader

/-! ### Look-ups -/

namespace Context

variable {Γ : Context} {lexed : Prop}

theorem deserved_symbol (x : String) : Deserved lexed (Γ.symbol x) := by
  unfold symbol
  split <;> simp [Deserved, Fault.IsFallback]

theorem deserved_receiverClass : Deserved lexed Γ.receiverClass := by
  unfold receiverClass
  split <;> simp [Deserved, Fault.IsFallback]

theorem deserved_fieldIndex (owner field : String) : Deserved lexed (Γ.fieldIndex owner field) := by
  unfold fieldIndex
  split <;> simp [Deserved, Fault.IsFallback]

theorem deserved_signature (owner method : String) :
    Deserved lexed (Γ.signature owner method) := by
  unfold signature
  split <;> simp [Deserved, Fault.IsFallback]

theorem deserved_resolveType (t : ClassTable) (name : String) :
    Deserved lexed (t.resolveType name) := by
  unfold ClassTable.resolveType
  split
  · split <;> simp [Deserved, Fault.IsFallback]
  · simp [Deserved]

theorem deserved_declaredType (l : Lexeme) : Deserved lexed (Γ.declaredType l) := by
  unfold declaredType
  split
  · simp [Deserved]
  · simp [Deserved]
  · exact deserved_resolveType _ _
  · simp [Deserved, Fault.IsFallback]

/-- What a name stands for has a place. -/
theorem deserved_storage (hΓ : Γ.Sound) {x : String} {s : Symbol} (hs : Γ.symbol x = .ok s) :
    Deserved lexed (Γ.storage s) := by
  obtain ⟨storage, hstorage⟩ := exists_storage hΓ (symbol_ok.1 hs)
  rw [hstorage]
  simp [Deserved]

end Context

/-! ### Rules -/

namespace Rule

open Reading (Safe safe_fail safe_ite safe_ofExcept_bind safe_pure safe_state)
open Reader (safe_identifier safe_mark safe_nextIs safe_operator safe_take_bind safe_word)
open Context (deserved_symbol deserved_receiverClass deserved_fieldIndex deserved_signature
  deserved_resolveType deserved_declaredType deserved_storage)

variable {Γ : Context} {lexed : Prop}

theorem safe_place (hΓ : Γ.Sound) (first : Lexeme) : (place Γ first).Safe lexed := by
  cases first with
  | keyword w =>
    cases w with
    | receiver =>
      refine (safe_mark .dot).bind fun _ => safe_identifier.bind fun field => ?_
      refine safe_ofExcept_bind deserved_receiverClass fun owner _ => ?_
      exact safe_ofExcept_bind (deserved_fieldIndex owner field) fun _ _ => safe_pure _
    | _ => exact safe_fail fun h => h
  | identifier name =>
    refine (safe_nextIs _).bind fun dot => safe_ite ?_ ?_
    · refine (safe_mark .dot).bind fun _ => safe_identifier.bind fun field => ?_
      refine safe_ofExcept_bind (deserved_symbol name) fun owner howner => ?_
      split
      · rename_i className _
        refine safe_ofExcept_bind (deserved_fieldIndex className field) fun _ _ => ?_
        exact safe_ofExcept_bind (deserved_storage hΓ howner) fun _ _ => safe_pure _
      · exact safe_fail fun h => h
    · refine safe_ofExcept_bind (deserved_symbol name) fun symbol hsymbol => ?_
      exact safe_ofExcept_bind (deserved_storage hΓ hsymbol) fun _ _ => safe_pure _
  | _ => exact safe_fail fun h => h

/-- A number that is a token fits a word. -/
theorem safe_anyValue (hΓ : Γ.Sound) {first : Lexeme} (hfirst : lexed → first.Proper) :
    (anyValue Γ first).Safe lexed := by
  cases first with
  | number digits =>
    unfold anyValue
    dsimp only
    split
    · exact safe_pure _
    · rename_i hnone
      refine safe_fail fun hlexed => ?_
      obtain ⟨n, hn⟩ := hfirst hlexed
      rw [hn] at hnone
      cases hnone
  | identifier name => exact (safe_place hΓ _).bind fun _ => safe_pure _
  | keyword w =>
    cases w with
    | receiver => exact (safe_place hΓ _).bind fun _ => safe_pure _
    | _ => exact safe_fail fun h => h
  | _ => exact safe_fail fun h => h

theorem safe_value (hΓ : Γ.Sound) (expected : Ty) : (value Γ expected).Safe lexed := by
  refine safe_take_bind fun l hl => (safe_anyValue hΓ hl).bind fun v => ?_
  exact safe_ite (safe_pure _) (safe_fail fun h => h)

theorem safe_stringSource (name : String) : (stringSource Γ name).Safe lexed := by
  refine safe_take_bind fun l _ => ?_
  cases l with
  | string content => exact safe_pure _
  | identifier source =>
    refine safe_ofExcept_bind (deserved_symbol source) fun symbol _ => safe_ite ?_ ?_
    · split
      · exact safe_pure _
      · exact safe_fail fun h => h
    · exact safe_fail fun h => h
  | _ => exact safe_fail fun h => h

theorem safe_objectInit (hΓ : Γ.Sound) (name className : String) :
    (objectInit Γ name className).Safe lexed := by
  refine safe_state.bind fun c => safe_ite ?_ ?_
  · refine safe_identifier.bind fun x => ?_
    refine safe_ofExcept_bind (deserved_resolveType _ x) fun created _ => safe_ite ?_ ?_
    · exact (safe_mark .dot).bind fun _ => (safe_word .create).bind fun _ =>
        (safe_mark .leftParen).bind fun _ => (safe_mark .rightParen).bind fun _ =>
          (safe_mark .semicolon).bind fun _ => safe_pure _
    · exact safe_fail fun h => h
  · exact (safe_value hΓ _).bind fun _ => (safe_mark .semicolon).bind fun _ => safe_pure _

theorem safe_declaration (hΓ : Γ.Sound) (first : Lexeme) :
    (declaration Γ first).Safe lexed := by
  refine safe_ofExcept_bind (deserved_declaredType first) fun type _ => ?_
  refine safe_identifier.bind fun name => safe_ite (safe_fail fun h => h) ?_
  refine (safe_operator .assign).bind fun _ => ?_
  cases type with
  | int => exact (safe_value hΓ _).bind fun _ => (safe_mark .semicolon).bind fun _ => safe_pure _
  | string =>
    exact (safe_stringSource name).bind fun _ => (safe_mark .semicolon).bind fun _ => safe_pure _
  | object className => exact safe_objectInit hΓ name className

theorem safe_assignment (hΓ : Γ.Sound) (first : Lexeme) : (assignment Γ first).Safe lexed := by
  refine (safe_place hΓ first).bind fun target => ?_
  split
  · exact safe_fail fun h => h
  · exact (safe_operator .assign).bind fun _ => (safe_value hΓ _).bind fun _ =>
      (safe_mark .semicolon).bind fun _ => safe_pure _
  · exact (safe_operator .assign).bind fun _ => (safe_value hΓ _).bind fun _ =>
      (safe_mark .semicolon).bind fun _ => safe_pure _

theorem safe_callee (hΓ : Γ.Sound) (first : Lexeme) : (callee Γ first).Safe lexed := by
  refine (safe_nextIs _).bind fun dot => safe_ite ?_ ?_
  · refine (safe_mark .dot).bind fun _ => safe_identifier.bind fun method => ?_
    split
    · exact safe_ofExcept_bind deserved_receiverClass fun _ _ => safe_pure _
    · refine safe_ofExcept_bind (deserved_symbol _) fun symbol hsymbol => ?_
      split
      · exact safe_ofExcept_bind (deserved_storage hΓ hsymbol) fun _ _ => safe_pure _
      · exact safe_fail fun h => h
    · exact safe_fail fun h => h
  · split
    · split
      · exact safe_pure _
      · exact safe_fail fun h => h
    · exact safe_fail fun h => h

theorem safe_argument (hΓ : Γ.Sound) (owner : String) (signature : Signature) :
    (argument Γ owner signature).Safe lexed := by
  refine (safe_nextIs _).bind fun closes => ?_
  split
  · exact safe_fail fun h => h
  · exact (safe_value hΓ _).bind fun _ => safe_pure _
  · exact safe_pure _
  · exact safe_fail fun h => h

theorem safe_call (hΓ : Γ.Sound) (first : Lexeme) : (call Γ first).Safe lexed := by
  refine (safe_callee hΓ first).bind fun (receiver, method) => ?_
  refine safe_ofExcept_bind (deserved_signature receiver.owner method) fun signature _ => ?_
  exact (safe_mark .leftParen).bind fun _ => (safe_argument hΓ _ _).bind fun _ =>
    (safe_mark .rightParen).bind fun _ => (safe_mark .semicolon).bind fun _ => safe_pure _

theorem safe_print (hΓ : Γ.Sound) : (print Γ).Safe lexed :=
  (safe_mark .leftParen).bind fun _ => (safe_value hΓ _).bind fun _ =>
    (safe_mark .rightParen).bind fun _ => (safe_mark .semicolon).bind fun _ => safe_pure _

theorem safe_textArgument : (textArgument Γ).Safe lexed := by
  refine safe_take_bind fun l _ => ?_
  cases l with
  | string content => exact safe_pure _
  | identifier name =>
    refine safe_ofExcept_bind (deserved_symbol name) fun symbol _ => ?_
    exact safe_ite (safe_pure _) (safe_fail fun h => h)
  | _ => exact safe_fail fun h => h

theorem safe_printText : (printText Γ).Safe lexed :=
  (safe_mark .leftParen).bind fun _ => safe_textArgument.bind fun _ =>
    (safe_mark .rightParen).bind fun _ => (safe_mark .semicolon).bind fun _ => safe_pure _

theorem safe_condition (hΓ : Γ.Sound) : (condition Γ).Safe lexed := by
  refine (safe_mark .leftParen).bind fun _ => (safe_value hΓ _).bind fun left => ?_
  refine safe_take_bind fun l _ => ?_
  split
  · exact (safe_value hΓ _).bind fun _ => (safe_mark .rightParen).bind fun _ => safe_pure _
  · exact safe_fail fun h => h

end Rule

/-! ### Storage for declarations -/

/-- The name that a checked statement declares. -/
def Request.declared : Request → Option String
  | .number x _ | .string x _ | .create x _ | .copy x _ _ => some x
  | .printLiteral _ | .ready _ => none

/-- A declaration declares its variable. -/
theorem Context.declared_of_initial? {Γ : Context} {x : String} {type : Ty} {i : Tree.Initial}
    {request : Request} (h : Γ.initial? x type i = some request) : request.declared = some x := by
  unfold initial? at h
  split at h
  · obtain ⟨_, -, rfl⟩ := Option.map_eq_some_iff.1 h
    rfl
  · cases h
    rfl
  · obtain ⟨_, -, rfl⟩ := Option.map_eq_some_iff.1 h
    rfl
  · obtain ⟨-, heq⟩ := Option.ite_none_right_eq_some.1 h
    cases heq
    rfl
  · obtain ⟨_, -, rfl⟩ := Option.map_eq_some_iff.1 h
    rfl
  · cases h

/-- What a statement declares is free, or else the statement is not accepted. -/
theorem Context.free_of_request? {Γ : Context} {s : Tree.Simple} {request : Request}
    (h : Γ.request? s = some request) :
    ∀ x ∈ request.declared, Γ.scope.findInnermost? x = none := by
  intro y hy
  cases s with
  | declare type x i =>
    obtain ⟨type, -, hfree, hinitial⟩ := request?_declare.1 h
    rw [declared_of_initial? hinitial] at hy
    cases hy
    exact hfree
  | assign target v =>
    obtain ⟨target, -, hassign⟩ := request?_assign.1 h
    rcases assignment?_cases hassign with ⟨-, value, -, rfl⟩ | ⟨c, -, value, -, rfl⟩
    · cases hy
    · cases hy
  | call callee argument =>
    obtain ⟨_, _, -, _, -, _, -, rfl⟩ := request?_call.1 h
    cases hy
  | print v =>
    obtain ⟨_, -, rfl⟩ := Option.map_eq_some_iff.1 h
    cases hy
  | printText text =>
    cases text with
    | literal content =>
      cases h
      cases hy
    | «variable» x =>
      obtain ⟨_, -, -, rfl⟩ := text?_variable.1 h
      cases hy

theorem Standing.exists_fulfil? {S : Standing} {request : Request}
    (h : ∀ x ∈ request.declared, S.scope.findInnermost? x = none) :
    ∃ command S', S.fulfil? request = some (command, S') := by
  have hstack : ∀ {x : String} (type : Ty), S.scope.findInnermost? x = none →
      S.onStack? x type = some (S.nextOffset, S.extend (.onStack x type)) :=
    fun _ hfree => onStack?_eq_some.2 ⟨hfree, rfl, rfl⟩
  cases request with
  | number x value => exact ⟨_, _, by simp [fulfil?, hstack .int (h x rfl)]; exact ⟨rfl, rfl⟩⟩
  | string x bytes =>
    have hdeclare : (S.store x bytes).declare? (.inData x (S.stringLabel x)) =
        some (S.declareString x bytes) := declare?_eq_some.2 ⟨h x rfl, rfl⟩
    exact ⟨_, _, by simp [fulfil?, hdeclare]; exact ⟨rfl, rfl⟩⟩
  | create x c => exact ⟨_, _, by simp [fulfil?, hstack (.object c) (h x rfl)]; exact ⟨rfl, rfl⟩⟩
  | copy x c source =>
    exact ⟨_, _, by simp [fulfil?, hstack (.object c) (h x rfl)]; exact ⟨rfl, rfl⟩⟩
  | printLiteral bytes => exact ⟨_, _, rfl⟩
  | ready command => exact ⟨_, _, rfl⟩

namespace Pass

open Reading (Safe safe_fail safe_ite safe_ofExcept safe_ofExcept_bind safe_modify safe_pure
  safe_state safe_check)
open Reader (safe_identifier safe_mark safe_nextIs safe_reject safe_take safe_take_bind safe_word)

variable {α β : Type} {lexed : Prop} {σ : State}

theorem exists_fulfil {request : Request}
    (h : ∀ x ∈ request.declared, σ.scope.findInnermost? x = none) :
    ∃ command τ, (fulfil request).run σ = .done command τ := by
  obtain ⟨command, S', hfulfil⟩ := Standing.exists_fulfil? (S := σ.standing) h
  rw [Standing.eq_state (σ := σ) rfl]
  obtain ⟨log, hrun⟩ := ends_fulfil.2 ⟨hfulfil, rfl⟩
  exact ⟨command, _, hrun⟩

/-- Reading tokens leaves everything else as it is. -/
theorem careful_lift_bind {r : Reader α} {next : α → Pass β} (h : r.Safe lexed)
    (hnext : ∀ a c, r.run σ.cursor = .done a c → (next a).Careful lexed { σ with cursor := c }) :
    ((liftM r : Pass α) >>= next).Careful lexed σ := by
  refine Reading.Careful.bind (h.lift σ) fun a τ hrun => ?_
  obtain ⟨c, hread, rfl⟩ := lift_done.1 hrun
  exact hnext a c hread

theorem careful_context_bind {next : Context → Pass β}
    (hnext : (next σ.toContext).Careful lexed σ) : (context >>= next).Careful lexed σ := by
  refine Reading.Careful.bind (Reading.careful_of_done rfl) fun Γ τ hrun => ?_
  obtain ⟨rfl, rfl⟩ := context_done.1 hrun
  exact hnext

theorem safe_context : context.Safe lexed := safe_state.bind fun _ => safe_pure _

theorem safe_record (event : Event) : (record event).Safe lexed := safe_modify _ _

/-! ### Definitions -/

theorem deserved_addField {t : ClassTable} {owner : String} {Q : ClassDef → Prop}
    (h : t.AtClass owner Q) (f : String) : Deserved lexed (t.addField owner f) := by
  obtain ⟨above, d, hopens, rfl, -⟩ := h
  rw [ClassTable.addField, ClassTable.addingField,
    ClassTable.growing_eq hopens.growing hopens.find?]
  split <;> simp [Deserved, Fault.IsFallback]

theorem deserved_addMethod {t : ClassTable} {owner : String} {Q : ClassDef → Prop}
    (h : t.AtClass owner Q) (s : Signature) : Deserved lexed (t.addMethod owner s) := by
  obtain ⟨above, d, hopens, rfl, -⟩ := h
  rw [ClassTable.addMethod, ClassTable.addingMethod,
    ClassTable.growing_eq hopens.growing hopens.find?]
  split <;> simp [Deserved, Fault.IsFallback]

theorem safe_beginClass (name : String) : (beginClass name).Safe lexed := by
  refine safe_context.bind fun Γ => safe_ofExcept_bind ?_ fun _ _ => ?_
  · rw [ClassTable.declareClass_eq]
    split <;> simp [Deserved, Fault.IsFallback]
  · exact (safe_modify _ _).bind fun _ => safe_record _

theorem safe_claimLabel (label : String) : (claimLabel label).Safe lexed :=
  safe_context.bind fun _ => safe_ite (safe_fail fun h => h) (safe_modify _ _)

theorem safe_beginRoutine (owner : Option String) (method : String)
    (parameter : Option Parameter) : (beginRoutine owner method parameter).Safe lexed := by
  refine (safe_modify _ _).bind fun _ => ?_
  cases parameter with
  | none => exact safe_pure ()
  | some p => exact safe_context.bind fun _ => safe_modify _ _

theorem safe_parameter : parameter.Safe lexed := by
  refine (safe_nextIs _).lift.bind fun closes => safe_ite (safe_pure none) ?_
  refine safe_context.bind fun Γ => safe_take.lift.bind fun l => ?_
  refine safe_ofExcept_bind (Context.deserved_declaredType l) fun _ _ => ?_
  exact safe_identifier.lift.bind fun _ => safe_pure _

theorem safe_beginBody : beginBody.Safe lexed :=
  (safe_nextIs _).lift.bind fun _ => safe_ite (safe_reject _).lift (safe_pure ())

theorem safe_classHeader : classHeader.Safe lexed :=
  safe_identifier.lift.bind fun _ => (safe_beginClass _).bind fun _ =>
    (safe_mark .leftBrace).lift.bind fun _ => safe_pure _

theorem safe_mainHeader : mainHeader.Safe lexed := by
  refine Safe.bind (safe_state.bind fun _ => safe_pure _) fun ended => ?_
  refine safe_check (safe_fail fun h => h) ((safe_nextIs _).lift.bind fun named => ?_)
  refine safe_check (safe_reject _).lift ?_
  exact (safe_word _).lift.bind fun _ => (safe_mark _).lift.bind fun _ =>
    (safe_mark _).lift.bind fun _ => (safe_mark _).lift.bind fun _ => safe_beginRoutine _ _ _

theorem safe_endFields (owner : String) : (endFields owner).Safe lexed :=
  safe_context.bind fun _ => safe_ite (safe_fail fun h => h) (safe_pure ())

theorem safe_closeClass (owner : String) (any : Bool) : (closeClass owner any).Safe lexed :=
  safe_check (safe_fail fun h => h) ((safe_mark _).lift.bind fun _ => safe_modify _ _)

theorem safe_endProgram : endProgram.Safe lexed :=
  Safe.bind (safe_state.bind fun _ => safe_pure _) fun _ =>
    safe_ite (safe_reject _).lift (safe_pure ())

theorem safe_endRoutine (owner : Option String) (method : String) :
    (endRoutine owner method).Safe lexed :=
  (safe_mark _).lift.bind fun _ => safe_record _

theorem safe_enterBlock : enterBlock.Safe lexed :=
  (safe_mark _).lift.bind fun _ => safe_context.bind fun _ => (safe_modify _ _).bind fun _ =>
    safe_context.bind fun _ => safe_record _

theorem safe_leaveBlock : leaveBlock.Safe lexed :=
  safe_context.bind fun _ => (safe_modify _ _).bind fun _ => safe_context.bind fun _ =>
    (safe_record _).bind fun _ => (safe_mark _).lift

/-- The class at hand can be given a field. -/
theorem careful_field {owner : String} {Q : ClassDef → Prop} (h : σ.table.AtClass owner Q) :
    (field owner).Careful lexed σ := by
  refine careful_lift_bind safe_identifier fun f _ _ => ?_
  refine careful_lift_bind (safe_mark _) fun _ _ _ => careful_context_bind ?_
  refine safe_ofExcept_bind (deserved_addField h f) (fun table _ => ?_) _
  exact (safe_modify _ _).bind fun _ => safe_record _

/-- The class at hand can be given a method. -/
theorem careful_header {owner name : String} {Q : ClassDef → Prop} (h : σ.table.AtClass owner Q) :
    (header owner name).Careful lexed σ := by
  refine careful_lift_bind (safe_mark _) fun _ c _ => ?_
  refine Reading.Careful.bind (safe_parameter _) fun p τ hrun => ?_
  have htable : τ.table = σ.table := by
    rw [Standing.eq_state (σ := { σ with cursor := c }) rfl,
      Standing.eq_state (σ := τ) rfl] at hrun
    obtain ⟨-, -, -, -, hkeeps⟩ := ends_parameter.1 ⟨_, hrun⟩
    exact congrArg (fun S : Standing => S.table) hkeeps
  refine careful_lift_bind (safe_nextIs _) fun comma _ _ => ?_
  split
  · refine Reading.Careful.bind (safe_fail ?_ _) fun _ _ hdone => ?_
    · exact fun h => h
    · cases hdone
  · refine careful_lift_bind (safe_mark _) fun _ _ _ => ?_
    refine careful_lift_bind (safe_mark _) fun _ _ _ => careful_context_bind ?_
    refine safe_ofExcept_bind (deserved_addMethod (htable ▸ h) _) (fun table _ => ?_) _
    exact (safe_modify _ _).bind fun _ => (safe_claimLabel _).bind fun _ => safe_beginRoutine _ _ _

/-! ### Statements -/

/-- What a rule hands on can be given storage. -/
theorem careful_command {rule : Context → Reader Request}
    (hsafe : (rule σ.toContext).Safe lexed)
    (hrule : ∀ {request c c'}, (rule σ.toContext).run c = .done request c' →
      ∃ s, σ.toContext.request? s = some request) :
    (command rule >>= fun command => pure (Start.simple command)).Careful lexed σ := by
  refine Reading.Careful.bind ?_ fun _ _ _ => safe_pure _ _
  refine careful_context_bind (careful_lift_bind hsafe fun request c hrun => ?_)
  obtain ⟨s, hs⟩ := hrule hrun
  obtain ⟨command, τ, hdone⟩ := exists_fulfil (σ := { σ with cursor := c })
    (Context.free_of_request? hs)
  exact Reading.careful_of_done hdone

theorem careful_openBlock (hσ : σ.toContext.Sound) (kind : BranchKind) :
    (openBlock kind).Careful lexed σ := by
  have hhead : (branchHead kind).Careful lexed σ := by
    refine careful_context_bind (careful_lift_bind (Rule.safe_condition hσ) fun _ _ _ => ?_)
    exact ((safe_modify _ _).bind fun _ => safe_state.bind fun _ => safe_pure _).bind
      (fun _ => safe_pure _) _
  exact hhead.bind fun head τ _ => (safe_enterBlock.bind fun _ => safe_pure head) τ

theorem careful_startByRule (hσ : σ.toContext.Sound) (production : Production) (first : Lexeme) :
    (startByRule production first).Careful lexed σ := by
  cases production with
  | declaration =>
    refine careful_command (Rule.safe_declaration hσ first) fun hrun => ?_
    obtain ⟨_, _, _, -, -, hs⟩ := Rule.declaration_done.1 hrun
    exact ⟨_, hs⟩
  | assignment =>
    refine careful_command (Rule.safe_assignment hσ first) fun hrun => ?_
    obtain ⟨_, _, _, -, -, hs⟩ := Rule.assignment_done.1 hrun
    exact ⟨_, hs⟩
  | call =>
    refine careful_command (Rule.safe_call hσ first) fun hrun => ?_
    obtain ⟨_, _, _, -, -, hs⟩ := Rule.call_done.1 hrun
    exact ⟨_, hs⟩
  | conditional => exact (careful_openBlock hσ .conditional).bind fun _ _ _ => safe_pure _ _
  | loop => exact (careful_openBlock hσ .loop).bind fun _ _ _ => safe_pure _ _
  | print =>
    refine careful_command (Rule.safe_print hσ) fun hrun => ?_
    obtain ⟨_, _, -, -, hs⟩ := Rule.print_done.1 hrun
    exact ⟨_, hs⟩
  | printText =>
    refine careful_command Rule.safe_printText fun hrun => ?_
    obtain ⟨_, _, -, -, hs⟩ := Rule.printText_done.1 hrun
    exact ⟨_, hs⟩

theorem careful_start (hσ : σ.toContext.Sound) : start.Careful lexed σ := by
  refine Reading.Careful.bind (safe_state σ) fun σ' τ hrun => ?_
  obtain ⟨rfl, rfl⟩ := Reading.state_done.1 hrun
  refine careful_lift_bind safe_take fun first c _ => ?_
  split
  · refine safe_fail ?_ _
    exact fun h => h
  · rename_i production _
    refine careful_context_bind ?_
    refine Reading.Careful.bind (safe_record _ _) fun _ τ hrecord => ?_
    obtain rfl := modify_done.1 hrecord
    apply careful_startByRule
    exact hσ

end Pass

/-! ### Every moment -/

variable {P : Progress} {tokens : List Token}

/-- The tokens ahead are some of those given. -/
theorem Reached.isSuffix (h : Reached tokens P) : P.state.cursor.ahead <:+ tokens := by
  induction h with
  | refl => exact List.suffix_refl _
  | @tail Q _ _ hstep ih =>
    cases hstep with
    | intro htakes =>
      obtain ⟨stage, -, hrun⟩ := htakes
      have hsuffix := (stage.step.forward Q.state).isSuffix
      rw [hrun] at hsuffix
      exact List.IsSuffix.trans hsuffix ih

open Reading (Careful safe_pure safe_state) in
/-- A step from a regular moment is careful. -/
theorem Progress.Regular.careful (h : P.Regular) {lexed : Prop} {stage : Stage}
    (hstage : P.stage = some stage) : stage.step.Careful lexed P.state := by
  have hsound : P.state.toContext.Sound := h.coherent.sound
  have hshape : Stage.Shape P.state.table (some stage) := hstage ▸ h.shape
  cases stage with
  | definitions =>
    refine Careful.bind (safe_state P.state) fun σ τ hrun => ?_
    obtain ⟨rfl, rfl⟩ := Reading.state_done.1 hrun
    split
    · exact (Reader.safe_take.lift.bind fun _ => Pass.safe_classHeader.bind fun _ => safe_pure _) _
    · exact (Pass.safe_mainHeader.bind fun _ => Pass.safe_beginBody.bind fun _ => safe_pure _) _
  | fields owner =>
    refine Careful.bind (safe_state P.state) fun σ τ hrun => ?_
    obtain ⟨rfl, rfl⟩ := Reading.state_done.1 hrun
    split
    · refine Pass.careful_lift_bind Reader.safe_take fun _ _ _ => ?_
      refine Careful.bind ?_ fun _ _ _ => safe_pure _ _
      apply Pass.careful_field
      exact hshape
    · exact ((Pass.safe_endFields owner).bind fun _ => safe_pure _) _
  | methods owner any =>
    refine Careful.bind (safe_state P.state) fun σ τ hrun => ?_
    obtain ⟨rfl, rfl⟩ := Reading.state_done.1 hrun
    split
    · refine Pass.careful_lift_bind Reader.safe_take fun _ _ _ => ?_
      refine Careful.bind ?_ fun _ _ _ => (Pass.safe_beginBody.bind fun _ => safe_pure _) _
      apply Pass.careful_header
      exact hshape
    · exact ((Pass.safe_closeClass owner any).bind fun _ => safe_pure _) _
  | statements owner method blocks =>
    refine Careful.bind (safe_state P.state) fun σ τ hrun => ?_
    obtain ⟨rfl, rfl⟩ := Reading.state_done.1 hrun
    split
    · cases blocks with
      | nil => exact ((Pass.safe_endRoutine owner method).bind fun _ => safe_pure _) _
      | cons head blocks => exact (Pass.safe_leaveBlock.bind fun _ => safe_pure _) _
    · exact (Pass.careful_start hsound).bind fun _ _ _ => safe_pure _ _
  | epilogue => exact (Pass.safe_endProgram.bind fun _ => safe_pure _) _

/-- A list of tokens is rejected for faults that it deserves. -/
theorem not_isFallback_of_error {located : Located} (h : compileTokens tokens = .error located) :
    ¬ located.fault.IsFallback (∀ token ∈ tokens, token.lexeme.Proper) := by
  cases hpass : passOver tokens with
  | done result σ =>
    rw [compileTokens, hpass] at h
    cases h
  | stopped fault σ =>
    rw [compileTokens, hpass] at h
    cases h
    obtain ⟨P, hreached, stage, hstage, hstop⟩ := reached_of_stopped hpass
    have hcareful : stage.step.Careful (∀ token ∈ tokens, token.lexeme.Proper) P.state :=
      hreached.regular.careful hstage
    refine hcareful (fun hproper token htoken => ?_) fault σ hstop
    exact hproper token (hreached.isSuffix.subset htoken)

/-! ### Look-ups with a default -/

/-- Code is written by a step that begins a routine, or by one in the middle of a routine. -/
theorem Stage.Effect.writes {stage : Stage} {S S' : Standing} {move : Move}
    (h : stage.Effect S move S') (hlines : move.lines ≠ []) :
    move.begun = some (S'.owner, S'.method) ∨ move.begun = none ∧
      (Stage.current (some stage)).isSome ∧ S'.owner = S.owner ∧ S'.method = S.method := by
  cases h with
  | method => exact .inl rfl
  | main => exact .inl rfl
  | simple hsimple => exact .inr ⟨rfl, rfl, hsimple.keeps.owner, hsimple.keeps.method⟩
  | branch => exact .inr ⟨rfl, rfl, rfl, rfl⟩
  | leave => exact .inr ⟨rfl, rfl, rfl, rfl⟩
  | endRoutine => exact .inr ⟨rfl, rfl, rfl, rfl⟩
  | _ => exact absurd rfl hlines

namespace Progress

variable {move : Move} {τ : State}

/-- There is a listing for the code of a step, that of the routine being read. -/
theorem Regular.exists_listing (h : P.Regular) (hstep : P.Takes move τ) (hlines : move.lines ≠ []) :
    ∃ before listing, P.opened move = before ++ [listing] ∧ listing.key = (τ.owner, τ.method) := by
  obtain ⟨stage, hstage, heffect⟩ := hstep.exists_effect
  rcases heffect.writes hlines with hbegun | ⟨hbegun, hsome, howner, hmethod⟩
  · refine ⟨P.listings, ⟨τ.owner, τ.method, []⟩, ?_, rfl⟩
    rw [opened, hbegun]
    rfl
  · obtain ⟨key, hkey⟩ := Option.isSome_iff_exists.1 hsome
    obtain ⟨hstate, hlast⟩ := h.current key (by rw [hstage]; exact hkey)
    rw [List.getLast?_map, Option.map_eq_some_iff] at hlast
    obtain ⟨listing, hlisting, hlistingKey⟩ := hlast
    obtain ⟨before, hbefore⟩ := List.getLast?_eq_some_iff.1 hlisting
    refine ⟨before, listing, ?_, ?_⟩
    · rw [opened, hbegun, Option.toList_none, List.map_nil, List.append_nil]
      exact hbefore
    · have howner' : τ.owner = P.state.owner := howner
      have hmethod' : τ.method = P.state.method := hmethod
      rw [hlistingKey, ← hstate, howner', hmethod']

/-- Every class whose size is asked for is in the table: that of a variable in sight, for the bytes
    of frames and the places in them; of a declared type, for a new variable; of a place, for an
    assignment to it; and the class at hand, whose fields are counted. -/
structure SizesKnown (P : Progress) : Prop where
  inSight : ∀ frame ∈ P.state.scope.frames, ∀ s ∈ frame, P.state.table.Knows s.type
  declared : ∀ l type, P.state.declaredType l = .ok type → P.state.table.Knows type
  places : ∀ first c target c', (Rule.place P.state.toContext first).run c = .done target c' →
    P.state.table.Knows target.type
  owner : ∀ owner, P.stage = some (.fields owner) → P.state.table.Knows (.object owner)

theorem Regular.sizesKnown (h : P.Regular) : P.SizesKnown where
  inSight := h.coherent.known
  declared := fun _ _ htype => Context.knows_of_declaredType htype
  places := by
    intro first c target c' hrun
    obtain ⟨t, -, -, -, -, hplace⟩ := Rule.place_done.1 hrun
    have hint : P.state.table.Knows .int := fun c hc => by cases hc
    cases t with
    | «variable» x =>
      obtain ⟨s, hs, _, -, rfl⟩ := Context.place?_variable.1 hplace
      rcases Context.Scope.find?_cases hs with ⟨-, frame, hframe, hmem⟩ | ⟨-, hparameter⟩
      · exact h.coherent.known frame hframe s hmem
      · exact h.coherent.parameter s hparameter
    | receiverField f =>
      obtain ⟨_, -, _, -, rfl⟩ := Context.place?_receiverField.1 hplace
      exact hint
    | objectField x f =>
      obtain ⟨_, -, _, -, _, -, _, -, rfl⟩ := Context.place?_objectField.1 hplace
      exact hint
  owner := by
    intro owner hstage
    have hshape : Stage.Shape P.state.table (some (.fields owner)) := hstage ▸ h.shape
    obtain ⟨above, d, hopens, rfl, -⟩ := hshape
    intro c hc
    cases hc
    rw [hopens.find?]
    rfl

/-- The label of a string variable has an entry. -/
theorem Regular.exists_entry (h : P.Regular) {x label : String} {s : Symbol}
    (hs : P.state.scope.find? x = some s) (hlabel : s.label = some label) :
    ∃ e, P.state.data.find? label = some e := by
  rcases Context.Scope.find?_cases hs with ⟨-, frame, hframe, hmem⟩ | ⟨-, hparameter⟩
  · exact h.coherent.exists_entry hframe hmem hlabel
  · rw [(h.coherent.sound.scope.parameter s hparameter).2] at hlabel
    cases hlabel

end Progress

/-! ### The statement -/

/-- None of the answers that the pass keeps ready is given for the tokens. -/
structure FallbacksUnreachable (tokens : List Token) : Prop where
  faults : ∀ located, compileTokens tokens = .error located → ∀ name,
    located.fault ≠ .undefined (.stackSlot name) ∧ located.fault ≠ .undefined (.className name) ∧
      located.fault ≠ .structural (.closedClass name)
  declarations : ∀ P, Reached tokens P → ∀ first c request c',
    (Rule.declaration P.state.toContext first).run c = .done request c' →
      ∃ command τ, (Pass.fulfil request).run { P.state with cursor := c' } = .done command τ
  bytes : ∀ P, Reached tokens P → ∀ x s label, P.state.scope.find? x = some s →
    s.label = some label → ∃ e, P.state.data.find? label = some e ∧
      P.state.bytesAt label = e.bytes
  code : ∀ P, Reached tokens P → ∀ move τ, P.Takes move τ → move.lines ≠ [] →
    ∃ before listing, P.opened move = before ++ [listing] ∧
      listing.key = (τ.owner, τ.method) ∧
      (P.after move τ).listings = before ++ [listing.append move.lines]
  sizes : ∀ P, Reached tokens P → P.SizesKnown
  numbers : ∀ source located, tokenize source = .ok tokens → compile source = .error located →
    located.fault.category ≠ .lexical

/-- Whatever the tokens are, the pass never reports a variable without a place, an undefined class
    that is being defined, or a closed one; what it has checked to be free can be declared; the
    bytes of a string variable are those of an entry; code always goes to the listing of the
    routine being read; and sizes are asked for classes of the table only.  If the tokens come from
    a text, the pass has nothing to say against their form. -/
theorem fallbacks_unreachable (tokens : List Token) : FallbacksUnreachable tokens where
  faults := by
    intro located h name
    have hfault := not_isFallback_of_error h
    refine ⟨fun heq => ?_, fun heq => ?_, fun heq => ?_⟩ <;>
      exact hfault (by rw [heq]; trivial)
  declarations := by
    intro P _ first c request c' hrun
    obtain ⟨_, _, _, -, -, hs⟩ := Rule.declaration_done.1 hrun
    exact Pass.exists_fulfil (Context.free_of_request? hs)
  bytes := by
    intro P hP x s label hs hlabel
    obtain ⟨e, he⟩ := hP.regular.exists_entry hs hlabel
    refine ⟨e, he, ?_⟩
    rw [Context.bytesAt, he]
    rfl
  code := by
    intro P hP move τ hstep hlines
    obtain ⟨before, listing, hopened, hkey⟩ := hP.regular.exists_listing hstep hlines
    refine ⟨before, listing, hopened, hkey, ?_⟩
    rw [Progress.after, hopened, emit_append]
  sizes := fun P hP => hP.regular.sizesKnown
  numbers := by
    intro source located htokens h hcategory
    have herror : compileTokens tokens = .error located := by
      rw [compile, htokens] at h
      exact h
    refine not_isFallback_of_error herror ?_
    cases hfault : located.fault with
    | lexical fault => exact proper_of_tokenize htokens
    | _ =>
      rw [hfault] at hcategory
      cases hcategory

end ClassLang
