/-
  ClassLang/Proofs/ProgramParsing.lean
  ====================================
  **The pass over the tokens of a program is elaboration of its tree.**

  The main statement is `compileTokens_eq_ok_iff`: compiling a list of tokens gives a
  compilation exactly if the tokens are the yield of a program tree that elaborates to
  it.  Everything that is true of an accepted program can from here on be proved by
  recursion on its tree.

  Fields, methods and classes are each read by `many`, so the repetition is handled
  once, for whatever the items are (`ends_many`).
-/
import ClassLang.Proofs.Parsing
import ClassLang.Proofs.Tables

namespace ClassLang

open Cursor (Takes)

/-- What a test of the next token finds; at the end of the input it finds nothing. -/
def Cursor.start? {γ : Type} (c : Cursor) (begins : Lexeme → Option γ) : Option γ :=
  c.ahead.head?.bind fun token => begins token.lexeme

/-- The first lexeme that can be taken is the one that the test sees. -/
theorem Cursor.Takes.start? {γ : Type} {c d : Cursor} {l : Lexeme} {ls : List Lexeme}
    (h : c.Takes (l :: ls) d) (begins : Lexeme → Option γ) : c.start? begins = begins l := by
  cases h with
  | cons _ => rfl

namespace Pass

variable {α γ τ : Type} {S S' : Standing} {c c' : Cursor} {log : Array Event}

/-! ### Repetition -/

section Repetition

variable {begins : Lexeme → Option γ} {item : γ → Pass α}
  {f : Standing → τ → Option (α × Standing)} {yield : τ → List Lexeme}

/-- A reader of items does behind the first lexeme of an item what elaboration does with the trees
    that begin with that lexeme. -/
def ReadsItems (begins : Lexeme → Option γ) (item : γ → Pass α)
    (f : Standing → τ → Option (α × Standing)) (yield : τ → List Lexeme) : Prop :=
  ∀ {first start S d log a S' c'}, begins first = some start →
    (Ends (item start) (Standing.state S d log) a S' c' ↔
      ∃ t tail, yield t = first :: tail ∧ Cursor.Takes d tail c' ∧ f S t = some (a, S'))

/-- One turn takes a token, reads an item behind it and goes on. -/
theorem ends_itemThen {item : Pass α} {more : Pass (List α)} {as : List α} :
    Ends (Reading.itemThen item more) (S.state c log) as S' c' ↔
      ∃ first d a, ∃ S₁ : Standing, ∃ e log₁ as', c.Takes [first] d ∧
        item.run (S.state d log) = .done a (S₁.state e log₁) ∧
        Ends more (S₁.state e log₁) as' S' c' ∧ as = a :: as' := by
  simp only [Reading.itemThen, ends_bind, lift_done, Reader.take_done]
  constructor
  · rintro ⟨first, S₀, d, log₀, ⟨d', hfirst, heq⟩, a, S₁, e, log₁, hitem, as', S₂, e', log₂,
      hmore, hdone⟩
    obtain ⟨rfl, rfl, rfl⟩ := Standing.state_inj.1 heq
    obtain ⟨rfl, rfl, rfl⟩ := ends_pure.1 hdone
    exact ⟨first, d, a, S₁, e, log₁, as', hfirst, hitem, ⟨log₂, hmore⟩, rfl⟩
  · rintro ⟨first, d, a, S₁, e, log₁, as', hfirst, hitem, ⟨log₂, hmore⟩, rfl⟩
    exact ⟨first, S, d, log, ⟨d, hfirst, rfl⟩, a, S₁, e, log₁, hitem, as', S', c', log₂, hmore,
      ends_pure.2 ⟨rfl, rfl, rfl⟩⟩

/-- Where the lexemes of one tree and then more are ahead, the next token begins an item. -/
theorem takes_item (hyield : ∀ t, ∃ first tail start, yield t = first :: tail ∧
    begins first = some start) {t : τ} {more : List Lexeme} (h : c.Takes (yield t ++ more) c') :
    ∃ first tail start d e, yield t = first :: tail ∧ begins first = some start ∧
      c.start? begins = some start ∧ c.Takes [first] d ∧ d.Takes tail e ∧ e.Takes more c' := by
  obtain ⟨first, tail, start, hfirst, hbegins⟩ := hyield t
  rw [hfirst, List.cons_append] at h
  obtain ⟨d, hhead, hmore⟩ := Takes.cons_iff.1 h
  obtain ⟨e, htail, hrest⟩ := Takes.append_iff.1 hmore
  exact ⟨first, tail, start, d, e, hfirst, hbegins, (h.start? begins).trans hbegins, hhead, htail,
    hrest⟩

/-- Items are read as long as the next token begins one. -/
theorem ends_many (hitem : ReadsItems begins item f yield)
    (hyield : ∀ t, ∃ first tail start, yield t = first :: tail ∧ begins first = some start)
    {as : List α} :
    Ends (Reading.many begins item) (S.state c log) as S' c' ↔ ∃ ts : List τ,
      c.Takes (ts.flatMap yield) c' ∧ c'.start? begins = none ∧
        S.each? f ts = some (as, S') := by
  induction hn : c.remaining using Nat.strongRecOn generalizing S c log as with
  | ind n ih =>
    subst hn
    have hturn : Ends (Reading.many begins item) (S.state c log) as S' c' ↔
        Ends (Reading.manyStep begins item (Reading.many begins item)) (S.state c log) as S'
          c' := by
      rw [Ends, Ends, Reading.run_many]
    have hhead : (HasCursor.cursor (S.state c log)).ahead.head?.bind
        (fun token => begins token.lexeme) = c.start? begins := rfl
    rw [hturn, Reading.manyStep, ends_state, hhead]
    -- the next token decides: it begins no item, or it is the first one of the next item
    cases hstart : c.start? begins with
    | none =>
      simp only [ends_pure]
      constructor
      · rintro ⟨rfl, rfl, rfl⟩
        exact ⟨[], .nil _, hstart, rfl⟩
      · rintro ⟨ts, htakes, -, helab⟩
        cases ts with
        | nil =>
          cases htakes
          cases helab
          exact ⟨rfl, rfl, rfl⟩
        | cons t ts =>
          obtain ⟨_, _, _, _, _, -, -, hsome, -⟩ := takes_item hyield htakes
          rw [hsome] at hstart
          cases hstart
    | some start =>
      simp only []
      rw [ends_itemThen]
      constructor
      · rintro ⟨first, d, a, S₁, e, log₁, as', hfirst, hrun, hmore, rfl⟩
        rw [hfirst.start?] at hstart
        obtain ⟨t, tail, hyieldT, htakes, helab⟩ := (hitem hstart).1 ⟨log₁, hrun⟩
        have hfewer := hfirst.remaining
        have hsmaller := htakes.remaining
        simp only [List.length_singleton] at hfewer
        obtain ⟨ts, hts, hnone, helabs⟩ := (ih e.remaining (by omega) rfl).1 hmore
        refine ⟨t :: ts, ?_, hnone, ?_⟩
        · rw [List.flatMap_cons, hyieldT, List.cons_append]
          exact Takes.cons_iff.2 ⟨d, hfirst, Takes.append_iff.2 ⟨e, htakes, hts⟩⟩
        · exact Standing.each?_cons.2 ⟨a, S₁, helab, as', S', helabs, rfl, rfl⟩
      · rintro ⟨ts, htakes, hnone, helab⟩
        cases ts with
        | nil =>
          cases htakes
          rw [hnone] at hstart
          cases hstart
        | cons t ts =>
          obtain ⟨first, tail, start', d, e, hyieldT, hbegins, hsome, hfirst, htail, hrest⟩ :=
            takes_item hyield htakes
          obtain rfl : start = start' := Option.some.inj (hstart.symm.trans hsome)
          have hfewer := hfirst.remaining
          have hsmaller := htail.remaining
          simp only [List.length_singleton] at hfewer
          obtain ⟨a, S₁, helabT, as', S₂, helabs, rfl, rfl⟩ := Standing.each?_cons.1 helab
          obtain ⟨log₁, hrun⟩ : Ends (item start) (S.state d log) a S₁ e :=
            (hitem hbegins).2 ⟨t, tail, hyieldT, htail, helabT⟩
          exact ⟨first, d, a, S₁, e, log₁, as', hfirst, hrun,
            (ih e.remaining (by omega) rfl).2 ⟨ts, hrest, hnone, helabs⟩, rfl⟩

end Repetition

/-! ### Routines -/

theorem ends_routineBody {b : Body} :
    Ends routineBody (S.state c log) b S' c' ↔ ∃ t : Tree.Block, t ≠ .finish ∧
      c.Takes t.yield c' ∧ c'.nextIs (Lexeme.isMark .rightBrace) = true ∧
        S.block? t = some (b, S') := by
  rw [routineBody, ends_nextIs]
  by_cases hclose : c.nextIs (Lexeme.isMark .rightBrace) = true
  · rw [if_pos hclose]
    constructor
    · intro hreject
      exact absurd (ends_lift.1 hreject).1 Reader.reject_done
    · rintro ⟨t, hne, htakes, -, -⟩
      rw [not_rightBrace_of_block hne htakes] at hclose
      cases hclose
  · rw [if_neg hclose, readsBlocks_statements]
    constructor
    · rintro ⟨t, htakes, hnext, helab⟩
      refine ⟨t, ?_, htakes, hnext, helab⟩
      rintro rfl
      cases htakes
      exact hclose hnext
    · rintro ⟨t, -, htakes, hnext, helab⟩
      exact ⟨t, htakes, hnext, helab⟩

/-- A routine is a body with a statement in it, and its right brace. -/
theorem ends_routine {owner : Option String} {method : String} {routine : Routine} :
    Ends (Pass.routine owner method) (S.state c log) routine S' c' ↔ ∃ t b,
      t ≠ Tree.Block.finish ∧ c.Takes (t.yield ++ [Tree.mark .rightBrace]) c' ∧
      S.block? t = some (b, S') ∧ routine = ⟨owner, method, b⟩ := by
  simp only [Pass.routine, ends_bind, ends_pure, exists_and_right, ends_def, ends_record,
    ends_lift, Reader.mark_done, ends_routineBody]
  constructor
  · rintro ⟨b, S₁, d, ⟨t, hne, htakes, -, helab⟩, _, _, e, ⟨hclose, rfl⟩, _, _, _, ⟨rfl, rfl⟩, rfl,
      rfl, rfl⟩
    exact ⟨t, b, hne, Takes.append_iff.2 ⟨d, htakes, hclose⟩, helab, rfl⟩
  · rintro ⟨t, b, hne, htakes, helab, rfl⟩
    obtain ⟨d, htakes, hclose⟩ := Takes.append_iff.1 htakes
    have hnext : d.nextIs (Lexeme.isMark .rightBrace) = true := by
      rw [hclose.nextIs]
      rfl
    exact ⟨b, S', d, ⟨t, hne, htakes, hnext, helab⟩, (), S', c', ⟨hclose, rfl⟩, (), S', c',
      ⟨rfl, rfl⟩, rfl, rfl, rfl⟩

theorem ends_beginRoutine {owner : Option String} {method : String}
    {parameter : Option Parameter} {u : Unit} :
    Ends (beginRoutine owner method parameter) (S.state c log) u S' c' ↔
      S' = S.begin owner method parameter ∧ c' = c := by
  cases parameter with
  | none =>
    simp only [beginRoutine, ends_bind, ends_pure, exists_and_right, ends_def, ends_modify]
    constructor
    · rintro ⟨_, _, _, ⟨rfl, rfl⟩, -, rfl, rfl⟩
      exact ⟨rfl, rfl⟩
    · rintro ⟨rfl, rfl⟩
      exact ⟨(), _, c', ⟨rfl, rfl⟩, trivial, rfl, rfl⟩
  | some p =>
    simp only [beginRoutine, ends_bind, ends_setScope, exists_and_right, ends_def, ends_context,
      ends_modify]
    constructor
    · rintro ⟨_, _, _, ⟨rfl, rfl⟩, _, _, _, ⟨rfl, rfl, rfl⟩, rfl, rfl⟩
      exact ⟨rfl, rfl⟩
    · rintro ⟨rfl, rfl⟩
      exact ⟨(), _, c', ⟨rfl, rfl⟩, _, _, c', ⟨rfl, rfl, rfl⟩, rfl, rfl⟩

theorem ends_claimLabel {label : String} {u : Unit} :
    Ends (claimLabel label) (S.state c log) u S' c' ↔ S.claim? label = some S' ∧ c' = c := by
  have hstep : ∀ {u S' c'}, Ends (claimLabel label) (S.state c log) u S' c' ↔
      Ends (if Label.isGenerated label || S.data.isTaken label then
        Reading.fail (.duplicate (.label label))
      else setData (S.data.reserve label)) (S.state c log) u S' c' := Iff.rfl
  rw [hstep, Standing.claim?]
  split
  · simp [ends_fail]
  · simp only [ends_setData, Option.some.injEq, eq_comm (a := S')]

/-! ### Methods -/

theorem ends_parameter {p : Option Parameter} :
    Ends parameter (S.state c log) p S' c' ↔ ∃ t, c.Takes (Tree.parameterYield t) c' ∧
      (t = none → c.nextIs (Lexeme.isMark .rightParen) = true) ∧ S.parameter? t = some p ∧
        S' = S := by
  rw [parameter, ends_nextIs]
  constructor
  · intro hthen
    split at hthen
    · rename_i hcloses
      obtain ⟨rfl, rfl, rfl⟩ := ends_pure.1 hthen
      exact ⟨none, .nil _, fun _ => hcloses, rfl, rfl⟩
    · simp only [ends_bind, ends_pure, exists_and_right, ends_def, ends_lift, ends_ofExcept,
        ends_context, Reader.take_done, Reader.identifier_done] at hthen
      obtain ⟨_, _, _, ⟨rfl, rfl, rfl⟩, l, _, e, ⟨hl, rfl⟩, type, _, _, ⟨htype, rfl, rfl⟩, x, _, _,
        ⟨hx, rfl⟩, rfl, rfl, rfl⟩ := hthen
      obtain ⟨t, rfl⟩ := Context.lexeme_of_declaredType (toOption_eq_some.1 htype)
      exact ⟨some ⟨t, x⟩, Takes.cons_iff.2 ⟨_, hl, hx⟩, fun h => by contradiction,
        by simp [Standing.parameter?, Context.type?, htype], rfl⟩
  · rintro ⟨t, htakes, hcloses, helab, rfl⟩
    cases t with
    | none =>
      cases htakes
      cases helab
      rw [if_pos (hcloses rfl)]
      exact ends_pure.2 ⟨rfl, rfl, rfl⟩
    | some t =>
      have hopen : ¬ c.nextIs (Lexeme.isMark .rightParen) = true := by
        rw [Tree.parameterYield] at htakes
        rw [htakes.nextIs]
        cases t.type <;> simp [Lexeme.isMark, Tree.TypeName.lexeme]
      obtain ⟨d, hl, hx⟩ := Takes.cons_iff.1 htakes
      simp only [Standing.parameter?, Option.map_eq_some_iff] at helab
      obtain ⟨type, htype, rfl⟩ := helab
      rw [if_neg hopen]
      simp only [ends_bind, ends_pure, exists_and_right, ends_def, ends_lift, ends_ofExcept,
        ends_context, Reader.take_done, Reader.identifier_done]
      exact ⟨_, S', c, ⟨rfl, rfl, rfl⟩, _, S', d, ⟨hl, rfl⟩, type, S', d, ⟨htype, rfl, rfl⟩,
        t.name, S', c', ⟨hx, rfl⟩, rfl, rfl, rfl⟩

theorem ends_method {owner name : String} {routine : Routine} :
    Ends (Pass.method owner name) (S.state c log) routine S' c' ↔ ∃ (m : Tree.Method) (tail : _),
      m.yield = Tree.ident name :: tail ∧ c.Takes tail c' ∧
        S.method? owner m = some (routine, S') := by
  simp only [Pass.method, ends_bind, ends_routine, exists_and_right, ends_def, ends_beginRoutine,
    ends_claimLabel, ends_setTable, ends_ofExcept, ends_context, ends_lift, Reader.mark_done,
    ends_parameter, Reader.nextIs_done, ends_unless]
  constructor
  · intro h
    obtain ⟨_, _, d₁, ⟨hleft, rfl⟩, p, _, d₂, ⟨t, hparameter, -, helabP, rfl⟩, h⟩ := h
    obtain ⟨_, _, _, ⟨⟨rfl, rfl⟩, rfl⟩, -, _, _, d₃, ⟨hright, rfl⟩, h⟩ := h
    obtain ⟨_, _, d₄, ⟨hbrace, rfl⟩, _, _, _, ⟨rfl, rfl, rfl⟩, h⟩ := h
    obtain ⟨table, _, _, ⟨htable, rfl, rfl⟩, _, _, _, ⟨rfl, rfl⟩, h⟩ := h
    obtain ⟨_, S₁, _, ⟨hclaim, rfl⟩, _, _, _, ⟨rfl, rfl⟩, body, b, hne, hbody, helab, rfl⟩ := h
    refine ⟨⟨name, t, body, hne⟩, _, rfl, ?_, ?_⟩
    · exact Takes.cons_iff.2 ⟨d₁, hleft, Takes.append_iff.2 ⟨_, hparameter,
        Takes.cons_iff.2 ⟨d₃, hright, Takes.cons_iff.2 ⟨_, hbrace, hbody⟩⟩⟩⟩
    · simp [Standing.method?, Standing.header?, helabP, htable, hclaim, helab]
  · rintro ⟨⟨name', t, body, hne⟩, tail, hyield, htakes, helab⟩
    obtain ⟨hname, rfl⟩ := List.cons.inj hyield
    obtain rfl := Lexeme.identifier.inj hname
    obtain ⟨d₁, hleft, htakes⟩ := Takes.cons_iff.1 htakes
    obtain ⟨d₂, hparameter, htakes⟩ := Takes.append_iff.1 htakes
    obtain ⟨d₃, hright, htakes⟩ := Takes.cons_iff.1 htakes
    obtain ⟨d₄, hbrace, hbody⟩ := Takes.cons_iff.1 htakes
    simp only [Standing.method?, Standing.header?, Option.bind_eq_bind, Option.bind_eq_some_iff,
      Prod.exists, Option.some.injEq, Prod.mk.injEq] at helab
    obtain ⟨_, ⟨p, helabP, table, htable, S₁, hclaim, rfl⟩, b, S₂, helab, rfl, rfl⟩ := helab
    have hnone : t = none → d₁.nextIs (Lexeme.isMark .rightParen) = true := by
      rintro rfl
      cases hparameter
      rw [hright.nextIs]
      rfl
    have hcomma : ¬ d₂.nextIs (Lexeme.isMark .comma) = true := by
      rw [hright.nextIs]
      simp [Lexeme.isMark]
    exact ⟨(), S, d₁, ⟨hleft, rfl⟩, p, S, d₂, ⟨t, hparameter, hnone, helabP, rfl⟩, _, S, d₂,
      ⟨⟨rfl, rfl⟩, rfl⟩, hcomma, (), S, d₃, ⟨hright, rfl⟩, (), S, d₄, ⟨hbrace, rfl⟩, _, S, d₄,
      ⟨rfl, rfl, rfl⟩, table, S, d₄, ⟨htable, rfl, rfl⟩, (), _, d₄, ⟨rfl, rfl⟩, (), S₁, d₄,
      ⟨hclaim, rfl⟩, (), _, d₄, ⟨rfl, rfl⟩, body, b, hne, hbody, helab, rfl⟩

/-! ### Classes -/

theorem ends_field {owner : String} {u : Unit} :
    Ends (Pass.field owner) (S.state c log) u S' c' ↔ ∃ f,
      c.Takes [Tree.ident f, Tree.mark .semicolon] c' ∧
        Standing.field? owner S f = some (u, S') := by
  simp only [Pass.field, ends_bind, ends_record, exists_and_right, ends_def, ends_setTable,
    ends_ofExcept, ends_context, ends_lift, Reader.mark_done, Reader.identifier_done,
    Standing.field?, Option.map_eq_some_iff]
  constructor
  · rintro ⟨f, _, d, ⟨hf, rfl⟩, _, _, _, ⟨hend, rfl⟩, _, _, _, ⟨rfl, rfl, rfl⟩, table, _, _,
      ⟨htable, rfl, rfl⟩, _, _, _, ⟨rfl, rfl⟩, rfl, rfl⟩
    exact ⟨f, Takes.cons_iff.2 ⟨d, hf, hend⟩, table, htable, rfl⟩
  · rintro ⟨f, htakes, table, htable, heq⟩
    obtain ⟨d, hf, hend⟩ := Takes.cons_iff.1 htakes
    cases heq
    exact ⟨f, S, d, ⟨hf, rfl⟩, (), S, c', ⟨hend, rfl⟩, _, S, c', ⟨rfl, rfl, rfl⟩, table, S, c',
      ⟨htable, rfl, rfl⟩, (), _, c', ⟨rfl, rfl⟩, rfl, rfl⟩

theorem word?_eq_some {w : Keyword} {l : Lexeme} {u : Unit} :
    word? w l = some u ↔ l = Tree.word w := by
  simp [word?, Lexeme.isWord]

theorem ends_fields {owner : String} {us : List Unit} :
    Ends (Reading.many (word? .intType) fun _ => Pass.field owner) (S.state c log) us S' c' ↔
      ∃ fs : List String, c.Takes (fs.flatMap Tree.fieldYield) c' ∧
        c'.start? (word? .intType) = none ∧
        S.each? (Standing.field? owner) fs = some (us, S') := by
  refine ends_many ?_ fun f => ⟨_, _, (), rfl, rfl⟩
  intro first start S d log u S' c' hstart
  obtain rfl := word?_eq_some.1 hstart
  rw [ends_field]
  constructor
  · rintro ⟨f, htakes, helab⟩
    exact ⟨f, _, rfl, htakes, helab⟩
  · rintro ⟨f, tail, hyield, htakes, helab⟩
    obtain ⟨-, rfl⟩ := List.cons.inj hyield
    exact ⟨f, htakes, helab⟩

theorem ends_methods {owner : String} {routines : List Routine} :
    Ends (Reading.many name? (Pass.method owner)) (S.state c log) routines S' c' ↔
      ∃ ms : List Tree.Method, c.Takes (ms.flatMap Tree.Method.yield) c' ∧
        c'.start? name? = none ∧ S.each? (Standing.method? owner) ms = some (routines, S') := by
  refine ends_many ?_ fun m : Tree.Method => ⟨_, _, m.name, rfl, rfl⟩
  intro first start S d log routine S' c' hstart
  cases first with
  | identifier name =>
    cases hstart
    exact ends_method
  | _ => simp [name?] at hstart

theorem ends_beginClass {name : String} {u : Unit} :
    Ends (beginClass name) (S.state c log) u S' c' ↔ ∃ table,
      (S.table.declareClass name).toOption = some table ∧
        S' = { S with table, owner := some name } ∧ c' = c := by
  have hmodify : ∀ {S S' : Standing} {c c' : Cursor} {log : Array Event} {table u},
      Ends (Reading.modify fun σ => { σ with table, owner := some name }) (S.state c log) u S' c' ↔
        S' = { S with table, owner := some name } ∧ c' = c := ends_modify
  simp only [beginClass, ends_bind, ends_record, exists_and_right, ends_def, hmodify,
    ends_ofExcept, ends_context]
  constructor
  · rintro ⟨_, _, _, ⟨rfl, rfl, rfl⟩, table, _, _, ⟨htable, rfl, rfl⟩, _, _, _, ⟨rfl, rfl⟩, rfl,
      rfl⟩
    exact ⟨table, htable, rfl, rfl⟩
  · rintro ⟨table, htable, rfl, rfl⟩
    exact ⟨_, S, c', ⟨rfl, rfl, rfl⟩, table, S, c', ⟨htable, rfl, rfl⟩, (), _, c', ⟨rfl, rfl⟩, rfl,
      rfl⟩

theorem ends_endClass {name : String} {u : Unit} :
    Ends (endClass name) (S.state c log) u S' c' ↔ S' = S.closeClass name ∧ c' = c :=
  ends_modify

theorem find?_declareClass {t t' : ClassTable} {name : String}
    (h : t.declareClass name = .ok t') : t'.find? name = some ⟨name, [], []⟩ := by
  obtain ⟨hnone, rfl⟩ := ClassTable.declareClass_ok.1 h
  rw [ClassTable.find?_enter, hnone, Option.none_or, if_pos rfl]

/-- A class has as many fields as have been read. -/
theorem fieldCount_of_each? {name : String} {us : List Unit} {fs : List String} {d : ClassDef}
    (hd : S.table.find? name = some d)
    (h : S.each? (Standing.field? name) fs = some (us, S')) :
    S'.table.fieldCount name = d.fields.length + fs.length := by
  induction fs generalizing S us d with
  | nil =>
    cases h
    simp [ClassTable.fieldCount, hd]
  | cons f fs ih =>
    simp only [Standing.each?_cons, Standing.field?, Option.map_eq_some_iff, toOption_eq_some,
      ClassTable.addField_ok, Prod.mk.injEq] at h
    obtain ⟨_, S₁, ⟨_, ⟨d', -, hfind, -, rfl⟩, -, rfl⟩, us', S₂, hrest, rfl, rfl⟩ := h
    obtain rfl : d = d' := by
      rw [hd] at hfind
      exact Option.some.inj hfind
    have hname := ClassTable.name_of_find? hd
    have hfound : (S.table.replace { d with fields := d.fields ++ [f] }).find? name =
        some { d with fields := d.fields ++ [f] } := by
      rw [ClassTable.find?_replace, if_pos hname.symm, hd]
      rfl
    rw [ih hfound hrest]
    simp only [List.length_append, List.length_cons, List.length_nil]
    omega

theorem length_each? {α β : Type} {f : Standing → α → Option (β × Standing)} {as : List α}
    {bs : List β} (h : S.each? f as = some (bs, S')) : bs.length = as.length := by
  induction as generalizing S bs with
  | nil =>
    cases h
    rfl
  | cons a as ih =>
    obtain ⟨b, S₁, -, bs', S₂, hrest, rfl, rfl⟩ := Standing.each?_cons.1 h
    rw [List.length_cons, List.length_cons, ih hrest]

theorem ends_classDefinition {routines : List Routine} :
    Ends classDefinition (S.state c log) routines S' c' ↔ ∃ (t : Tree.Class) (tail : _),
      t.yield = Tree.word .classDef :: tail ∧ c.Takes tail c' ∧
        S.class? t = some (routines, S') := by
  simp only [classDefinition, ends_bind, ends_pure, exists_and_right, ends_def,
    ends_endClass, ends_lift, Reader.mark_done, Reader.identifier_done, ends_unless, ends_context,
    ends_beginClass, ends_fields, ends_methods]
  constructor
  · intro h
    obtain ⟨name, _, d₁, ⟨hname, rfl⟩, _, _, _, ⟨table, htable, rfl, rfl⟩, h⟩ := h
    obtain ⟨_, _, d₂, ⟨hleft, rfl⟩, us, S₁, d₃, ⟨fs, hfields, -, helabF⟩, h⟩ := h
    obtain ⟨_, _, _, ⟨rfl, rfl, rfl⟩, hcount, ms', S₂, d₄, ⟨ms, hmethods, -, helabM⟩, h⟩ := h
    obtain ⟨hempty, _, _, d₅, ⟨hright, rfl⟩, _, _, _, ⟨rfl, rfl⟩, rfl, rfl, rfl⟩ := h
    have hfieldsNe : fs ≠ [] := by
      rintro rfl
      rw [fieldCount_of_each? (find?_declareClass (toOption_eq_some.1 htable)) helabF] at hcount
      exact hcount rfl
    have hmethodsNe : ms ≠ [] := by
      rintro rfl
      cases helabM
      exact hempty rfl
    refine ⟨⟨name, fs, ms, hfieldsNe, hmethodsNe⟩, _, rfl, ?_, ?_⟩
    · exact Takes.cons_iff.2 ⟨_, hname, Takes.cons_iff.2 ⟨d₂, hleft, Takes.append_iff.2 ⟨_, hfields,
        Takes.append_iff.2 ⟨_, hmethods, hright⟩⟩⟩⟩
    · simp [Standing.class?, Standing.openClass?, htable, helabF, helabM]
  · rintro ⟨⟨name, fs, ms, hfieldsNe, hmethodsNe⟩, tail, hyield, htakes, helab⟩
    obtain ⟨-, rfl⟩ := List.cons.inj hyield
    obtain ⟨d₁, hname, htakes⟩ := Takes.cons_iff.1 htakes
    obtain ⟨d₂, hleft, htakes⟩ := Takes.cons_iff.1 htakes
    obtain ⟨d₃, hfields, htakes⟩ := Takes.append_iff.1 htakes
    obtain ⟨d₄, hmethods, hright⟩ := Takes.append_iff.1 htakes
    simp only [Standing.class?, Standing.openClass?, Option.bind_eq_bind, Option.bind_eq_some_iff,
      Prod.exists, Option.some.injEq, Prod.mk.injEq] at helab
    obtain ⟨_, ⟨table, htable, us, S₁, helabF, rfl⟩, ms', S₂, helabM, rfl, rfl⟩ := helab
    have hint : d₃.start? (word? .intType) = none := by
      cases ms with
      | nil => exact absurd rfl hmethodsNe
      | cons m ms =>
        rw [List.flatMap_cons, Tree.Method.yield, List.cons_append] at hmethods
        rw [hmethods.start?]
        rfl
    have hcount : ¬ S₁.table.fieldCount name = 0 := by
      rw [fieldCount_of_each? (find?_declareClass (toOption_eq_some.1 htable)) helabF]
      simpa using hfieldsNe
    have hident : d₄.start? name? = none := by
      rw [hright.start?]
      rfl
    have hempty : ¬ ms'.isEmpty = true := by
      have hlength := length_each? helabM
      rw [List.isEmpty_iff_length_eq_zero, hlength, List.length_eq_zero_iff]
      exact hmethodsNe
    exact ⟨name, S, d₁, ⟨hname, rfl⟩, (), _, d₁, ⟨table, htable, rfl, rfl⟩, (), _, d₂,
      ⟨hleft, rfl⟩, us, S₁, d₃, ⟨fs, hfields, hint, helabF⟩, _, S₁, d₃, ⟨rfl, rfl, rfl⟩, hcount,
      ms', S₂, d₄, ⟨ms, hmethods, hident, helabM⟩, hempty, (), S₂, c', ⟨hright, rfl⟩, (), _, c',
      ⟨rfl, rfl⟩, rfl, rfl, rfl⟩

theorem ends_classes {routines : List (List Routine)} :
    Ends (Reading.many (word? .classDef) fun _ => classDefinition) (S.state c log) routines S'
      c' ↔ ∃ ts : List Tree.Class, c.Takes (ts.flatMap Tree.Class.yield) c' ∧
        c'.start? (word? .classDef) = none ∧ S.each? Standing.class? ts = some (routines, S') := by
  refine ends_many ?_ fun _ => ⟨_, _, (), rfl, rfl⟩
  intro first start S d log routine S' c' hstart
  obtain rfl := word?_eq_some.1 hstart
  exact ends_classDefinition

/-! ### Programs -/

theorem ends_entryPoint {routine : Routine} :
    Ends entryPoint (S.state c log) routine S' c' ↔ ∃ t, t ≠ Tree.Block.finish ∧
      c.Takes (Tree.mainYield t) c' ∧ S.main? t = some (routine, S') := by
  simp only [entryPoint, ends_bind, ends_routine, exists_and_right, ends_def, ends_beginRoutine,
    ends_lift, Reader.mark_done, Reader.word_done, Standing.main?, Option.bind_eq_bind,
    Option.bind_eq_some_iff, Prod.exists, Option.some.injEq, Prod.mk.injEq]
  constructor
  · rintro ⟨_, _, d₁, ⟨hword, rfl⟩, _, _, d₂, ⟨hleft, rfl⟩, _, _, d₃, ⟨hright, rfl⟩, _, _, d₄,
      ⟨hbrace, rfl⟩, _, _, _, ⟨rfl, rfl⟩, t, b, hne, hbody, helab, rfl⟩
    exact ⟨t, hne, Takes.cons_iff.2 ⟨d₁, hword, Takes.cons_iff.2 ⟨d₂, hleft, Takes.cons_iff.2
      ⟨d₃, hright, Takes.cons_iff.2 ⟨_, hbrace, hbody⟩⟩⟩⟩, b, S', helab, rfl, rfl⟩
  · rintro ⟨t, hne, htakes, b, _, helab, rfl, rfl⟩
    obtain ⟨d₁, hword, htakes⟩ := Takes.cons_iff.1 htakes
    obtain ⟨d₂, hleft, htakes⟩ := Takes.cons_iff.1 htakes
    obtain ⟨d₃, hright, htakes⟩ := Takes.cons_iff.1 htakes
    obtain ⟨d₄, hbrace, hbody⟩ := Takes.cons_iff.1 htakes
    exact ⟨(), S, d₁, ⟨hword, rfl⟩, (), S, d₂, ⟨hleft, rfl⟩, (), S, d₃, ⟨hright, rfl⟩, (), S, d₄,
      ⟨hbrace, rfl⟩, (), _, d₄, ⟨rfl, rfl⟩, t, b, hne, hbody, helab, rfl⟩

theorem ends_atEnd {b : Bool} :
    Ends atEnd (S.state c log) b S' c' ↔ b = c.atEnd ∧ S' = S ∧ c' = c := by
  have hpure : Ends atEnd (S.state c log) b S' c' ↔ Ends (pure c.atEnd) (S.state c log) b S' c' :=
    Iff.rfl
  rw [hpure, ends_pure, eq_comm (a := c.atEnd)]

theorem ends_unless_reject {p : Prop} [Decidable p] {wanted : Expectation} {σ : State}
    {next : α → Pass γ} {r : Pass γ} {b : γ} :
    Ends (if p then liftM (Reader.reject wanted : Reader α) >>= next else r) σ b S c ↔
      ¬ p ∧ Ends r σ b S c := by
  by_cases hp : p <;> simp [hp, Ends]

theorem ends_program {entry : Routine} {methods : List Routine} :
    Ends program (S.state c log) (entry, methods) S' c' ↔ ∃ (p : Tree.Program) (ms : _) (S₁ : _),
      c.Takes p.yield c' ∧ c'.ahead = [] ∧ S.each? Standing.class? p.classes = some (ms, S₁) ∧
        S₁.main? p.main = some (entry, S') ∧ methods = ms.flatten := by
  simp only [program, ends_bind, ends_pure, exists_and_right, ends_def, ends_unless,
    ends_unless_reject, ends_lift, ends_atEnd, ends_entryPoint, ends_classes, Reader.nextIs_done]
  constructor
  · rintro ⟨ms, S₁, d, ⟨ts, hclasses, -, helabC⟩, _, _, _, ⟨rfl, rfl, rfl⟩, -, _, _, _,
      ⟨⟨rfl, rfl⟩, rfl⟩, -, entry', _, _, ⟨t, hne, hmain, helab⟩, _, _, _, ⟨rfl, rfl, rfl⟩, hend,
      heq, rfl, rfl⟩
    cases heq
    refine ⟨⟨ts, t, hne⟩, ms, _, Takes.append_iff.2 ⟨_, hclasses, hmain⟩, ?_, helabC, helab, rfl⟩
    simpa [Cursor.atEnd] using hend
  · rintro ⟨⟨ts, t, hne⟩, ms, S₁, htakes, hend, helabC, helab, rfl⟩
    obtain ⟨d, hclasses, hmain⟩ := Takes.append_iff.1 htakes
    have hclass : d.start? (word? .classDef) = none := by
      rw [Tree.mainYield] at hmain
      rw [hmain.start?]
      rfl
    have hmore : ¬ d.atEnd = true := by
      have hlength := hmain.remaining
      simp only [Tree.mainYield, List.length_cons, Cursor.remaining] at hlength
      rw [Cursor.atEnd, List.isEmpty_iff_length_eq_zero]
      omega
    have hword : ¬ (!d.nextIs (Lexeme.isWord .mainDef)) = true := by
      rw [Tree.mainYield] at hmain
      rw [hmain.nextIs]
      simp [Lexeme.isWord]
    have hatEnd : ¬ (!c'.atEnd) = true := by
      simp [Cursor.atEnd, hend]
    exact ⟨ms, S₁, d, ⟨ts, hclasses, hclass, helabC⟩, _, S₁, d, ⟨rfl, rfl, rfl⟩, hmore, _, S₁, d,
      ⟨⟨rfl, rfl⟩, rfl⟩, hword, entry, S', c', ⟨t, hne, hmain, helab⟩, _, S', c',
      ⟨rfl, rfl, rfl⟩, hatEnd, rfl, rfl, rfl⟩

end Pass

/-- The pass accepts a list of tokens exactly if they spell a program tree that elaborates, and the
    compilation is that of the tree. -/
theorem compileTokens_eq_ok_iff {tokens : List Token} {compilation : Compilation} :
    compileTokens tokens = .ok compilation ↔
      ∃ p : Tree.Program, p.yield = tokens.map Token.lexeme ∧ p.compile? = some compilation := by
  have hinitial : State.initial tokens = Standing.initial.state (.ofTokens tokens) #[] := rfl
  unfold compileTokens passOver
  rw [hinitial]
  constructor
  · intro h
    cases hrun : Pass.program.run (Standing.initial.state (.ofTokens tokens) #[]) with
    | stopped fault σ =>
      rw [hrun] at h
      cases h
    | done result σ =>
      obtain ⟨entry, methods⟩ := result
      rw [hrun] at h
      cases h
      have hends : Pass.Ends Pass.program (Standing.initial.state (.ofTokens tokens) #[])
          (entry, methods) σ.standing σ.cursor := ⟨σ.log, hrun⟩
      obtain ⟨p, ms, S₁, htakes, hend, hclasses, hmain, rfl⟩ := Pass.ends_program.1 hends
      have hlexemes := htakes.lexemes_ahead
      rw [hend, List.map_nil, List.append_nil] at hlexemes
      exact ⟨p, hlexemes.symm,
        Tree.Program.compile?_eq_some.2 ⟨ms, S₁, hclasses, entry, _, hmain, rfl⟩⟩
  · rintro ⟨p, hyield, hcompile⟩
    obtain ⟨ms, S₁, hclasses, entry, S₂, hmain, rfl⟩ :=
      Tree.Program.compile?_eq_some.1 hcompile
    have hlexemes : (Cursor.ofTokens tokens).ahead.map Token.lexeme = p.yield ++ [] := by
      rw [List.append_nil, hyield]
      rfl
    obtain ⟨c', htakes, hend⟩ := Takes.of_lexemes hlexemes
    obtain ⟨log, hrun⟩ : Pass.Ends Pass.program
        (Standing.initial.state (.ofTokens tokens) #[]) (entry, ms.flatten) S₂ c' :=
      Pass.ends_program.2 ⟨p, ms, S₁, htakes, List.map_eq_nil_iff.1 hend, hclasses, hmain, rfl⟩
    rw [hrun]
    rfl

end ClassLang
