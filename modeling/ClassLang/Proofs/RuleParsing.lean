/-
  ClassLang/Proofs/RuleParsing.lean
  =================================
  **Each rule reads the yields of its trees.**

  For every rule of a statement there is one equivalence: the rule is done, with a
  certain request, exactly if the tokens that it took are the yield of a tree and the
  tree elaborates to that request.  Both halves are needed later on, the first to find
  a tree for an accepted program, the second to accept the program of a tree.

  A variable is a place only if no dot follows, since a dot would make it the owner of
  a field; `EndsBefore` says so.  Inside a statement a mark other than the dot follows
  every value, which settles the condition.
-/
import ClassLang.Proofs.Elaboration
import ClassLang.Proofs.Taking

namespace ClassLang

open Cursor (Takes)

variable {Γ : Context} {c c' : Cursor}

/-! ### Checks of the surroundings -/

namespace Context

theorem symbol_ok {x : String} {symbol : Symbol} :
    Γ.symbol x = .ok symbol ↔ Γ.scope.find? x = some symbol := by
  unfold Context.symbol
  cases Γ.scope.find? x <;> simp

theorem receiverClass_ok {owner : String} :
    Γ.receiverClass = .ok owner ↔ Γ.owner = some owner := by
  unfold receiverClass
  cases Γ.owner <;> simp

theorem fieldIndex_ok {owner field : String} {index : Nat} :
    Γ.fieldIndex owner field = .ok index ↔ Γ.table.fieldIndex? owner field = some index := by
  unfold fieldIndex
  cases Γ.table.fieldIndex? owner field <;> simp

theorem signature_ok {owner method : String} {s : Signature} :
    Γ.signature owner method = .ok s ↔ Γ.table.method? owner method = some s := by
  unfold signature
  cases Γ.table.method? owner method <;> simp

/-- A lexeme that names a type is the lexeme of a tree. -/
theorem lexeme_of_declaredType {l : Lexeme} {type : Ty} (h : Γ.declaredType l = .ok type) :
    ∃ t : Tree.TypeName, t.lexeme = l := by
  unfold declaredType at h
  split at h
  · exact ⟨.int, rfl⟩
  · exact ⟨.string, rfl⟩
  · exact ⟨.named _, rfl⟩
  · simp at h

end Context

/-! ### Places and values -/

/-- No dot follows a variable. -/
def Tree.Place.EndsBefore (c : Cursor) : Tree.Place → Prop
  | .variable _ => c.nextIs (Lexeme.isMark .dot) = false
  | _ => True

def Tree.Value.EndsBefore (c : Cursor) : Tree.Value → Prop
  | .number _ => True
  | .place p => p.EndsBefore c

/-- Where another lexeme than a dot comes next, every place has come to its end. -/
theorem Tree.Place.endsBefore_of_takes {d : Cursor} {l : Lexeme} {ls : List Lexeme}
    (h : d.Takes (l :: ls) c') (hl : l ≠ Tree.mark .dot) (p : Tree.Place) : p.EndsBefore d := by
  cases p with
  | «variable» x =>
    show d.nextIs _ = false
    rw [h.nextIs]
    simpa [Lexeme.isMark] using hl
  | receiverField f => trivial
  | objectField x f => trivial

theorem Tree.Value.endsBefore_of_takes {d : Cursor} {l : Lexeme} {ls : List Lexeme}
    (h : d.Takes (l :: ls) c') (hl : l ≠ Tree.mark .dot) (v : Tree.Value) : v.EndsBefore d := by
  cases v with
  | number digits => trivial
  | place p => exact p.endsBefore_of_takes h hl

namespace Rule

theorem place_receiver {p : Place} :
    (Rule.place Γ (Tree.word .receiver)).run c = .done p c' ↔
      ∃ f, c.Takes [Tree.mark .dot, Tree.ident f] c' ∧ Γ.place? (.receiverField f) = some p := by
  simp only [Rule.place, Reading.bind_done, Reader.mark_done, Reader.identifier_done,
    Reading.ofExcept_done, Reading.pure_done, Context.place?_receiverField,
    Context.receiverClass_ok, Context.fieldIndex_ok]
  constructor
  · rintro ⟨_, d, hdot, f, e, hf, owner, _, ⟨howner, rfl⟩, index, _, ⟨hindex, rfl⟩, rfl, rfl⟩
    exact ⟨f, Takes.cons_iff.2 ⟨d, hdot, hf⟩, owner, howner, index, hindex, rfl⟩
  · rintro ⟨f, htakes, owner, howner, index, hindex, rfl⟩
    obtain ⟨d, hdot, hf⟩ := Takes.cons_iff.1 htakes
    exact ⟨(), d, hdot, f, c', hf, owner, c', ⟨howner, rfl⟩, index, c', ⟨hindex, rfl⟩, rfl, rfl⟩

/-- A field of an object, where a dot follows the name. -/
theorem place_objectField {x : String} {p : Place} (hdot : c.nextIs (Lexeme.isMark .dot) = true) :
    (Rule.place Γ (Tree.ident x)).run c = .done p c' ↔
      ∃ f, c.Takes [Tree.mark .dot, Tree.ident f] c' ∧ Γ.place? (.objectField x f) = some p := by
  simp only [Rule.place, Reading.bind_done, Reader.nextIs_done, hdot]
  constructor
  · rintro ⟨_, _, ⟨rfl, rfl⟩, hrun⟩
    simp only [if_true, Reading.bind_done, Reader.mark_done, Reader.identifier_done,
      Reading.ofExcept_done, Context.symbol_ok] at hrun
    obtain ⟨_, d, hd, f, e, hf, symbol, _, ⟨hsymbol, rfl⟩, hrun⟩ := hrun
    split at hrun
    · rename_i className htype
      simp only [Reading.bind_done, Reading.ofExcept_done, Reading.pure_done,
        Context.fieldIndex_ok] at hrun
      obtain ⟨index, _, ⟨hindex, rfl⟩, storage, _, ⟨hstorage, rfl⟩, rfl, rfl⟩ := hrun
      exact ⟨f, Takes.cons_iff.2 ⟨d, hd, hf⟩, Context.place?_objectField.2
        ⟨symbol, hsymbol, className, htype, index, hindex, storage, hstorage, rfl⟩⟩
    · simp at hrun
  · rintro ⟨f, htakes, hplace⟩
    obtain ⟨d, hd, hf⟩ := Takes.cons_iff.1 htakes
    obtain ⟨symbol, hsymbol, className, htype, index, hindex, storage, hstorage, rfl⟩ :=
      Context.place?_objectField.1 hplace
    refine ⟨true, c, ⟨rfl, rfl⟩, ?_⟩
    simp only [if_true, Reading.bind_done, Reader.mark_done, Reader.identifier_done,
      Reading.ofExcept_done, Context.symbol_ok]
    refine ⟨(), d, hd, f, c', hf, symbol, c', ⟨hsymbol, rfl⟩, ?_⟩
    simp only [htype, Reading.bind_done, Reading.ofExcept_done, Reading.pure_done,
      Context.fieldIndex_ok]
    exact ⟨index, c', ⟨hindex, rfl⟩, storage, c', ⟨hstorage, rfl⟩, rfl, rfl⟩

/-- A variable, where no dot follows the name. -/
theorem place_variable {x : String} {p : Place} (hdot : c.nextIs (Lexeme.isMark .dot) = false) :
    (Rule.place Γ (Tree.ident x)).run c = .done p c' ↔
      c' = c ∧ Γ.place? (.variable x) = some p := by
  simp only [Rule.place, Reading.bind_done, Reader.nextIs_done, hdot, Context.place?_variable]
  constructor
  · rintro ⟨_, _, ⟨rfl, rfl⟩, hrun⟩
    simp only [Bool.false_eq_true, if_false, Reading.bind_done, Reading.ofExcept_done,
      Reading.pure_done, Context.symbol_ok] at hrun
    obtain ⟨symbol, _, ⟨hsymbol, rfl⟩, storage, _, ⟨hstorage, rfl⟩, rfl, rfl⟩ := hrun
    exact ⟨rfl, symbol, hsymbol, storage, hstorage, rfl⟩
  · rintro ⟨rfl, symbol, hsymbol, storage, hstorage, rfl⟩
    refine ⟨false, c', ⟨rfl, rfl⟩, ?_⟩
    simp only [Bool.false_eq_true, if_false, Reading.bind_done, Reading.ofExcept_done,
      Reading.pure_done, Context.symbol_ok]
    exact ⟨symbol, c', ⟨hsymbol, rfl⟩, storage, c', ⟨hstorage, rfl⟩, rfl, rfl⟩

/-- The rule for places reads the yields of place trees, behind their first lexeme. -/
theorem place_done {first : Lexeme} {p : Place} :
    (Rule.place Γ first).run c = .done p c' ↔
      ∃ t : Tree.Place, ∃ tail, t.yield = first :: tail ∧ c.Takes tail c' ∧ t.EndsBefore c' ∧
        Γ.place? t = some p := by
  constructor
  · intro hrun
    cases first with
    | keyword w =>
      cases w with
      | receiver =>
        obtain ⟨f, htakes, hplace⟩ := place_receiver.1 hrun
        exact ⟨.receiverField f, _, rfl, htakes, trivial, hplace⟩
      | _ => simp [Rule.place] at hrun
    | identifier x =>
      cases hdot : c.nextIs (Lexeme.isMark .dot) with
      | true =>
        obtain ⟨f, htakes, hplace⟩ := (place_objectField hdot).1 hrun
        exact ⟨.objectField x f, _, rfl, htakes, trivial, hplace⟩
      | false =>
        obtain ⟨rfl, hplace⟩ := (place_variable hdot).1 hrun
        exact ⟨.variable x, [], rfl, .nil _, hdot, hplace⟩
    | _ => simp [Rule.place] at hrun
  · rintro ⟨t, tail, hyield, htakes, hends, hplace⟩
    cases t with
    | «variable» x =>
      obtain ⟨rfl, rfl⟩ := List.cons.inj hyield
      obtain rfl := Takes.nil_iff.1 htakes
      exact (place_variable hends).2 ⟨rfl, hplace⟩
    | receiverField f =>
      obtain ⟨rfl, rfl⟩ := List.cons.inj hyield
      exact place_receiver.2 ⟨f, htakes, hplace⟩
    | objectField x f =>
      obtain ⟨rfl, rfl⟩ := List.cons.inj hyield
      have hdot : c.nextIs (Lexeme.isMark .dot) = true := by
        rw [htakes.nextIs]
        rfl
      exact (place_objectField hdot).2 ⟨f, htakes, hplace⟩

theorem anyValue_done {first : Lexeme} {v : Value} :
    (Rule.anyValue Γ first).run c = .done v c' ↔
      ∃ t : Tree.Value, ∃ tail, t.yield = first :: tail ∧ c.Takes tail c' ∧ t.EndsBefore c' ∧
        Γ.value? t = some v := by
  constructor
  · intro hrun
    have ofPlace : ∀ {first}, (do let p ← Rule.place Γ first; pure (Value.place p)).run c =
        .done v c' → ∃ t : Tree.Value, ∃ tail, t.yield = first :: tail ∧ c.Takes tail c' ∧
          t.EndsBefore c' ∧ Γ.value? t = some v := by
      intro first hrun
      simp only [Reading.bind_done, Reading.pure_done] at hrun
      obtain ⟨p, d, hp, rfl, rfl⟩ := hrun
      obtain ⟨t, tail, hyield, htakes, hends, hplace⟩ := place_done.1 hp
      exact ⟨.place t, tail, hyield, htakes, hends, by simp [Context.value?, hplace]⟩
    cases first with
    | number digits =>
      simp only [Rule.anyValue] at hrun
      split at hrun
      · rename_i n hn
        obtain ⟨rfl, rfl⟩ := Reading.pure_done.1 hrun
        exact ⟨.number digits, [], rfl, .nil _, trivial, by simp [Context.value?, hn]⟩
      · simp at hrun
    | identifier x => exact ofPlace hrun
    | keyword w =>
      cases w with
      | receiver => exact ofPlace hrun
      | _ => simp [Rule.anyValue] at hrun
    | _ => simp [Rule.anyValue] at hrun
  · rintro ⟨t, tail, hyield, htakes, hends, hvalue⟩
    cases t with
    | number digits =>
      obtain ⟨rfl, rfl⟩ := List.cons.inj hyield
      obtain rfl := Takes.nil_iff.1 htakes
      obtain ⟨n, hn, rfl⟩ := Option.map_eq_some_iff.1 hvalue
      simp [Rule.anyValue, hn]
    | place p =>
      obtain ⟨place, hplace, rfl⟩ := Option.map_eq_some_iff.1 hvalue
      have hrun := place_done.2 ⟨p, tail, hyield, htakes, hends, hplace⟩
      -- a place begins with an identifier or the word for the receiver
      cases p <;> obtain ⟨rfl, -⟩ := List.cons.inj hyield <;>
        simp only [Rule.anyValue, Reading.bind_done, Reading.pure_done] <;>
        exact ⟨place, c', hrun, rfl, rfl⟩

/-- The rule for values of a type reads the yields of value trees of that type. -/
theorem value_done {type : Ty} {v : Value} :
    (Rule.value Γ type).run c = .done v c' ↔
      ∃ t : Tree.Value, c.Takes t.yield c' ∧ t.EndsBefore c' ∧ Γ.valueOf? type t = some v := by
  simp only [Rule.value, Reading.bind_done, Reader.take_done, anyValue_done, Reading.ite_done,
    Reading.pure_done, Reading.fail_done, and_false, or_false, Context.valueOf?,
    Option.filter_eq_some_iff, decide_eq_true_eq]
  constructor
  · rintro ⟨first, d, hfirst, value, e, ⟨t, tail, hyield, htail, hends, hvalue⟩, htype, rfl, rfl⟩
    exact ⟨t, hyield ▸ Takes.cons_iff.2 ⟨d, hfirst, htail⟩, hends, hvalue, htype⟩
  · rintro ⟨t, htakes, hends, hvalue, htype⟩
    obtain ⟨first, tail, hyield⟩ : ∃ first tail, t.yield = first :: tail := by
      cases t with
      | number digits => exact ⟨_, _, rfl⟩
      | place p => cases p <;> exact ⟨_, _, rfl⟩
    rw [hyield] at htakes
    obtain ⟨d, hfirst, htail⟩ := Takes.cons_iff.1 htakes
    exact ⟨first, d, hfirst, v, c', ⟨t, tail, hyield, htail, hends, hvalue⟩, htype, rfl, rfl⟩

/-- A value and the lexemes behind it, the first of which is no dot. -/
theorem value_then {type : Ty} {v : Value} {l : Lexeme} {ls : List Lexeme}
    (hl : l ≠ Tree.mark .dot) :
    (∃ d, (Rule.value Γ type).run c = .done v d ∧ d.Takes (l :: ls) c') ↔
      ∃ t : Tree.Value, c.Takes (t.yield ++ l :: ls) c' ∧ Γ.valueOf? type t = some v := by
  constructor
  · rintro ⟨d, hvalue, hrest⟩
    obtain ⟨t, htakes, -, helab⟩ := value_done.1 hvalue
    exact ⟨t, Takes.append_iff.2 ⟨d, htakes, hrest⟩, helab⟩
  · rintro ⟨t, htakes, helab⟩
    obtain ⟨d, hfirst, hrest⟩ := Takes.append_iff.1 htakes
    exact ⟨d, value_done.2 ⟨t, hfirst, t.endsBefore_of_takes hrest hl, helab⟩, hrest⟩

/-- A yield begins with a lexeme that only values begin with. -/
theorem value_yield_ne {m : Punctuation} (t : Tree.Value) (ls : List Lexeme) :
    ∃ l ls', t.yield ++ ls = l :: ls' ∧ l ≠ Tree.mark m := by
  cases t with
  | number digits => exact ⟨_, _, rfl, by simp⟩
  | place p => cases p <;> exact ⟨_, _, rfl, by simp⟩

/-! ### Declarations -/

theorem numberInit_done {x : String} {request : Request} :
    (Rule.numberInit Γ x).run c = .done request c' ↔
      ∃ i : Tree.Initial, c.Takes (i.yield ++ [Tree.mark .semicolon]) c' ∧
        Γ.initial? x .int i = some request := by
  simp only [Rule.numberInit, Reading.bind_done, Reader.mark_done, Reading.pure_done]
  constructor
  · rintro ⟨v, d, hv, _, e, hmark, rfl, rfl⟩
    obtain ⟨t, htakes, helab⟩ := (value_then (by simp)).1 ⟨d, hv, hmark⟩
    exact ⟨.value t, htakes, by simp [Context.initial?, helab]⟩
  · rintro ⟨i, htakes, helab⟩
    cases i with
    | value t =>
      obtain ⟨v, hv, rfl⟩ := Option.map_eq_some_iff.1 helab
      obtain ⟨d, hrun, hmark⟩ := (value_then (by simp)).2 ⟨t, htakes, hv⟩
      exact ⟨v, d, hrun, (), c', hmark, rfl, rfl⟩
    | text content => simp [Context.initial?] at helab
    | create created => simp [Context.initial?] at helab

theorem stringSource_done {x : String} {bytes : List UInt8} :
    (Rule.stringSource Γ x).run c = .done bytes c' ↔
      ∃ i : Tree.Initial, c.Takes i.yield c' ∧
        Γ.initial? x .string i = some (.string x bytes) := by
  simp only [Rule.stringSource, Reading.bind_done, Reader.take_done]
  constructor
  · rintro ⟨l, d, htakes, hrun⟩
    split at hrun
    · obtain ⟨rfl, rfl⟩ := Reading.pure_done.1 hrun
      exact ⟨.text _, htakes, rfl⟩
    · rename_i source
      simp only [Reading.bind_done, Reading.ofExcept_done, Context.symbol_ok] at hrun
      obtain ⟨symbol, _, ⟨hsymbol, rfl⟩, hrun⟩ := hrun
      split at hrun
      · rename_i htype
        split at hrun
        · rename_i label hlabel
          obtain ⟨rfl, rfl⟩ := Reading.pure_done.1 hrun
          exact ⟨.value (.place (.variable source)), htakes, by
            simp [Context.initial?, Context.stringLabel?, hsymbol, htype, hlabel]⟩
        · simp at hrun
      · simp at hrun
    · simp at hrun
    · simp at hrun
  · rintro ⟨i, htakes, helab⟩
    cases i with
    | text content =>
      cases helab
      exact ⟨_, c', htakes, by simp⟩
    | create created => simp [Context.initial?] at helab
    | value v =>
      cases v with
      | number digits => simp [Context.initial?] at helab
      | place p =>
        cases p with
        | «variable» y =>
          refine ⟨_, c', htakes, ?_⟩
          obtain ⟨label, hstring, heq⟩ := Option.map_eq_some_iff.1 helab
          obtain ⟨symbol, hsymbol, htype, hlabel⟩ := Context.stringLabel?_eq_some.1 hstring
          cases heq
          simp only [Reading.bind_done, Reading.ofExcept_done, Context.symbol_ok]
          exact ⟨symbol, c', ⟨hsymbol, rfl⟩, by simp [htype, hlabel]⟩
        | receiverField f => simp [Context.initial?] at helab
        | objectField y f => simp [Context.initial?] at helab

theorem stringInit_done {x : String} {request : Request} :
    (Rule.stringInit Γ x).run c = .done request c' ↔
      ∃ i : Tree.Initial, c.Takes (i.yield ++ [Tree.mark .semicolon]) c' ∧
        Γ.initial? x .string i = some request := by
  simp only [Rule.stringInit, Reading.bind_done, Reader.mark_done, Reading.pure_done,
    stringSource_done, Takes.append_iff]
  constructor
  · rintro ⟨bytes, d, ⟨i, htakes, helab⟩, _, e, hmark, rfl, rfl⟩
    exact ⟨i, ⟨d, htakes, hmark⟩, helab⟩
  · rintro ⟨i, ⟨d, htakes, hmark⟩, helab⟩
    obtain ⟨bytes, rfl⟩ : ∃ bytes, request = .string x bytes := by
      unfold Context.initial? at helab
      split at helab <;> simp_all <;> grind
    exact ⟨bytes, d, ⟨i, htakes, helab⟩, (), c', hmark, rfl, rfl⟩

/-- The test for a new object looks for the first three lexemes of such a yield. -/
theorem createsObject_lookahead :
    Rule.createsObject (c.lookahead 3) = true ↔
      ∃ x d, c.Takes [Tree.ident x, Tree.mark .dot, Tree.word .create] d := by
  constructor
  · intro h
    unfold Rule.createsObject at h
    split at h
    · rename_i x hlook
      have hahead : c.ahead.map Token.lexeme =
          [Tree.ident x, Tree.mark .dot, Tree.word .create] ++
            (c.ahead.drop 3).map Token.lexeme := by
        rw [← hlook, Cursor.lookahead, ← List.map_append, List.take_append_drop]
      obtain ⟨d, htakes, -⟩ := Takes.of_lexemes hahead
      exact ⟨x, d, htakes⟩
    · simp at h
  · rintro ⟨x, d, htakes⟩
    rw [Cursor.lookahead, htakes.lookahead (by simp)]
    rfl

/-- A value followed by a semicolon is no new object. -/
theorem not_createsObject {t : Tree.Value} {ls : List Lexeme}
    (h : c.Takes (t.yield ++ Tree.mark .semicolon :: ls) c') :
    ¬ Rule.createsObject (c.lookahead 3) = true := by
  rw [createsObject_lookahead]
  rintro ⟨x, d, htakes⟩
  have heq := h.lexemes_ahead.symm.trans htakes.lexemes_ahead
  cases t with
  | number digits => simp [Tree.Value.yield] at heq
  | place p => cases p <;> simp [Tree.Value.yield, Tree.Place.yield] at heq

theorem objectInit_done {x className : String} {request : Request} :
    (Rule.objectInit Γ x className).run c = .done request c' ↔
      ∃ i : Tree.Initial, c.Takes (i.yield ++ [Tree.mark .semicolon]) c' ∧
        Γ.initial? x (.object className) i = some request := by
  simp only [Rule.objectInit, Reading.bind_done, Reading.state_done]
  constructor
  · rintro ⟨_, _, ⟨rfl, rfl⟩, hrun⟩
    split at hrun
    · simp only [Reading.bind_done, Reader.identifier_done, Reading.ofExcept_done] at hrun
      obtain ⟨created, d, hcreated, type, _, ⟨htype, rfl⟩, hrun⟩ := hrun
      split at hrun
      · rename_i hsame
        subst hsame
        simp only [Reading.bind_done, Reader.mark_done, Reader.word_done,
          Reading.pure_done] at hrun
        obtain ⟨_, c₁, h₁, _, c₂, h₂, _, c₃, h₃, _, c₄, h₄, _, c₅, h₅, rfl, rfl⟩ := hrun
        refine ⟨.create created, ?_, by simp [Context.initial?, htype, Except.toOption]⟩
        simp only [Tree.Initial.yield, List.cons_append, List.nil_append]
        exact Takes.cons_iff.2 ⟨_, hcreated, Takes.cons_iff.2 ⟨_, h₁, Takes.cons_iff.2
          ⟨_, h₂, Takes.cons_iff.2 ⟨_, h₃, Takes.cons_iff.2 ⟨_, h₄, h₅⟩⟩⟩⟩⟩
      · simp at hrun
    · simp only [Reading.bind_done, Reader.mark_done, Reading.pure_done] at hrun
      obtain ⟨v, d, hv, _, e, hmark, rfl, rfl⟩ := hrun
      obtain ⟨t, htakes, helab⟩ := (value_then (by simp)).1 ⟨d, hv, hmark⟩
      exact ⟨.value t, htakes, by simp [Context.initial?, helab]⟩
  · rintro ⟨i, htakes, helab⟩
    refine ⟨c, c, ⟨rfl, rfl⟩, ?_⟩
    cases i with
    | text content => simp [Context.initial?] at helab
    | value t =>
      obtain ⟨v, hv, rfl⟩ := Option.map_eq_some_iff.1 helab
      obtain ⟨d, hrun, hmark⟩ := (value_then (by simp)).2 ⟨t, htakes, hv⟩
      rw [if_neg (not_createsObject htakes)]
      simp only [Reading.bind_done, Reader.mark_done, Reading.pure_done]
      exact ⟨v, d, hrun, (), c', hmark, rfl, rfl⟩
    | create created =>
      simp only [Context.initial?, Option.ite_none_right_eq_some, toOption_eq_some] at helab
      obtain ⟨htype, heq⟩ := helab
      cases heq
      simp only [Tree.Initial.yield, List.cons_append, List.nil_append] at htakes
      obtain ⟨c₀, h₀, htakes⟩ := Takes.cons_iff.1 htakes
      obtain ⟨c₁, h₁, htakes⟩ := Takes.cons_iff.1 htakes
      obtain ⟨c₂, h₂, htakes⟩ := Takes.cons_iff.1 htakes
      obtain ⟨c₃, h₃, htakes⟩ := Takes.cons_iff.1 htakes
      obtain ⟨c₄, h₄, h₅⟩ := Takes.cons_iff.1 htakes
      have hcreates : Rule.createsObject (c.lookahead 3) = true :=
        createsObject_lookahead.2
          ⟨created, c₂, Takes.cons_iff.2 ⟨_, h₀, Takes.cons_iff.2 ⟨_, h₁, h₂⟩⟩⟩
      rw [if_pos hcreates]
      simp only [Reading.bind_done, Reader.identifier_done, Reading.ofExcept_done]
      refine ⟨created, c₀, h₀, .object className, c₀, ⟨htype, rfl⟩, ?_⟩
      rw [if_pos rfl]
      simp only [Reading.bind_done, Reader.mark_done, Reader.word_done, Reading.pure_done]
      exact ⟨(), c₁, h₁, (), c₂, h₂, (), c₃, h₃, (), c₄, h₄, (), c', h₅, trivial, rfl⟩

theorem declaration_done {first : Lexeme} {request : Request} :
    (Rule.declaration Γ first).run c = .done request c' ↔
      ∃ type x i, Tree.TypeName.lexeme type = first ∧
        c.Takes (Tree.ident x :: Tree.assignSign ::
          (Tree.Initial.yield i ++ [Tree.mark .semicolon])) c' ∧
        Γ.request? (.declare type x i) = some request := by
  simp only [Rule.declaration, Reading.bind_done, Reading.ofExcept_done, Reader.identifier_done]
  constructor
  · rintro ⟨type, _, ⟨htype, rfl⟩, x, d, hx, hrun⟩
    split at hrun
    · simp at hrun
    · rename_i hfree
      simp only [Reading.bind_done, Reader.operator_done] at hrun
      obtain ⟨_, e, hassign, hinit⟩ := hrun
      obtain ⟨i, htakes, helab⟩ : ∃ i : Tree.Initial,
          e.Takes (i.yield ++ [Tree.mark .semicolon]) c' ∧ Γ.initial? x type i = some request := by
        cases type with
        | int => exact numberInit_done.1 hinit
        | string => exact stringInit_done.1 hinit
        | object className => exact objectInit_done.1 hinit
      obtain ⟨t, rfl⟩ := Context.lexeme_of_declaredType htype
      refine ⟨t, x, i, rfl, Takes.cons_iff.2 ⟨d, hx, Takes.cons_iff.2 ⟨e, hassign, htakes⟩⟩, ?_⟩
      exact Context.request?_declare.2
        ⟨type, toOption_eq_some.2 htype, by simpa using hfree, helab⟩
  · rintro ⟨t, x, i, rfl, htakes, helab⟩
    obtain ⟨type, hnamed, hfree, helab⟩ := Context.request?_declare.1 helab
    have htype := toOption_eq_some.1 hnamed
    obtain ⟨d, hx, htakes⟩ := Takes.cons_iff.1 htakes
    obtain ⟨e, hassign, htakes⟩ := Takes.cons_iff.1 htakes
    refine ⟨type, c, ⟨htype, rfl⟩, x, d, hx, ?_⟩
    rw [if_neg (by simp [hfree])]
    simp only [Reading.bind_done, Reader.operator_done]
    refine ⟨(), e, hassign, ?_⟩
    cases type with
    | int => exact numberInit_done.2 ⟨i, htakes, helab⟩
    | string => exact stringInit_done.2 ⟨i, htakes, helab⟩
    | object className => exact objectInit_done.2 ⟨i, htakes, helab⟩

/-! ### Assignments -/

theorem assignment_done {first : Lexeme} {request : Request} :
    (Rule.assignment Γ first).run c = .done request c' ↔
      ∃ target v tail, Tree.Simple.yield (.assign target v) = first :: tail ∧ c.Takes tail c' ∧
        Γ.request? (.assign target v) = some request := by
  simp only [Rule.assignment, Reading.bind_done, place_done]
  constructor
  · rintro ⟨place, d, ⟨t, tail, hyield, htail, -, hplace⟩, hrun⟩
    split at hrun
    · simp at hrun
    all_goals
      rename_i htype
      simp only [Reading.bind_done, Reader.operator_done, Reader.mark_done,
        Reading.pure_done] at hrun
      obtain ⟨_, e, hassign, value, g, hvalue, _, _, hmark, rfl, rfl⟩ := hrun
      obtain ⟨v, hv, helab⟩ := (value_then (by simp)).1 ⟨g, hvalue, hmark⟩
      refine ⟨t, v, tail ++ Tree.assignSign :: (v.yield ++ [Tree.mark .semicolon]), ?_, ?_, ?_⟩
      · simp [Tree.Simple.yield, hyield]
      · exact Takes.append_iff.2 ⟨d, htail, Takes.cons_iff.2 ⟨e, hassign, hv⟩⟩
      · simp [Context.request?, hplace, Context.assignment?, htype, helab]
  · rintro ⟨t, v, tail, hyield, htakes, helab⟩
    obtain ⟨place, hplace, helab⟩ := Context.request?_assign.1 helab
    obtain ⟨l, ls, hl⟩ : ∃ l ls, t.yield = l :: ls := by cases t <;> exact ⟨_, _, rfl⟩
    simp only [Tree.Simple.yield, hl, List.cons_append, List.cons.injEq] at hyield
    obtain ⟨rfl, rfl⟩ := hyield
    obtain ⟨d, htail, htakes⟩ := Takes.append_iff.1 htakes
    have hends := t.endsBefore_of_takes htakes (by simp)
    obtain ⟨e, hassign, htakes⟩ := Takes.cons_iff.1 htakes
    refine ⟨place, d, ⟨t, ls, hl, htail, hends, hplace⟩, ?_⟩
    rcases Context.assignment?_cases helab with
      ⟨htype, value, hvalue, rfl⟩ | ⟨className, htype, value, hvalue, rfl⟩
    all_goals
      obtain ⟨g, hrun, hmark⟩ := (value_then (by simp)).2 ⟨v, htakes, hvalue⟩
      simp only [htype, Reading.bind_done, Reader.operator_done, Reader.mark_done,
        Reading.pure_done]
      exact ⟨(), e, hassign, value, g, hrun, (), c', hmark, rfl, rfl⟩

/-! ### Calls -/

/-- The receiver or an object, where a dot follows. -/
theorem callee_dotted {first : Lexeme} {receiver : Receiver} {m : String}
    (hdot : c.nextIs (Lexeme.isMark .dot) = true) :
    (Rule.callee Γ first).run c = .done (receiver, m) c' ↔
      ∃ t : Tree.Callee, ∃ x, t.yield = [first, Tree.mark .dot, Tree.ident x] ∧
        c.Takes [Tree.mark .dot, Tree.ident x] c' ∧ Γ.callee? t = some (receiver, m) := by
  simp only [Rule.callee, Reading.bind_done, Reader.nextIs_done, hdot]
  constructor
  · rintro ⟨_, _, ⟨rfl, rfl⟩, hrun⟩
    simp only [if_true, Reading.bind_done, Reader.mark_done, Reader.identifier_done] at hrun
    obtain ⟨_, d, hd, x, e, hx, hrun⟩ := hrun
    have htakes := Takes.cons_iff.2 ⟨d, hd, hx⟩
    split at hrun
    · simp only [Reading.bind_done, Reading.ofExcept_done, Reading.pure_done, Prod.mk.injEq,
        Context.receiverClass_ok] at hrun
      obtain ⟨owner, _, ⟨howner, rfl⟩, ⟨rfl, rfl⟩, rfl⟩ := hrun
      exact ⟨.receiver x, x, rfl, htakes, by simp [Context.callee?, howner]⟩
    · rename_i y
      simp only [Reading.bind_done, Reading.ofExcept_done, Context.symbol_ok] at hrun
      obtain ⟨symbol, _, ⟨hsymbol, rfl⟩, hrun⟩ := hrun
      split at hrun
      · rename_i className htype
        simp only [Reading.bind_done, Reading.ofExcept_done, Reading.pure_done,
          Prod.mk.injEq] at hrun
        obtain ⟨storage, _, ⟨hstorage, rfl⟩, ⟨rfl, rfl⟩, rfl⟩ := hrun
        exact ⟨.object y x, x, rfl, htakes, Context.callee?_object.2
          ⟨symbol, hsymbol, className, htype, storage, hstorage, rfl, rfl⟩⟩
      · simp at hrun
    · simp at hrun
  · rintro ⟨t, x, hyield, htakes, helab⟩
    obtain ⟨d, hd, hx⟩ := Takes.cons_iff.1 htakes
    refine ⟨true, c, ⟨rfl, rfl⟩, ?_⟩
    simp only [if_true, Reading.bind_done, Reader.mark_done, Reader.identifier_done]
    refine ⟨(), d, hd, x, c', hx, ?_⟩
    cases t with
    | bare x => cases hyield
    | receiver x =>
      cases hyield
      obtain ⟨owner, howner, heq⟩ := Option.map_eq_some_iff.1 helab
      cases heq
      simp only [Reading.bind_done, Reading.ofExcept_done, Reading.pure_done,
        Context.receiverClass_ok]
      exact ⟨owner, c', ⟨howner, rfl⟩, rfl, rfl⟩
    | object y x =>
      cases hyield
      obtain ⟨symbol, hsymbol, className, htype, storage, hstorage, rfl, rfl⟩ :=
        Context.callee?_object.1 helab
      simp only [Reading.bind_done, Reading.ofExcept_done, Context.symbol_ok]
      refine ⟨symbol, c', ⟨hsymbol, rfl⟩, ?_⟩
      simp only [htype, Reading.bind_done, Reading.ofExcept_done, Reading.pure_done]
      exact ⟨storage, c', ⟨hstorage, rfl⟩, rfl, rfl⟩

/-- A method of the class itself, where no dot follows the name. -/
theorem callee_bare {first : Lexeme} {receiver : Receiver} {m : String}
    (hdot : c.nextIs (Lexeme.isMark .dot) = false) :
    (Rule.callee Γ first).run c = .done (receiver, m) c' ↔
      c' = c ∧ ∃ x, first = Tree.ident x ∧ Γ.callee? (.bare x) = some (receiver, m) := by
  simp only [Rule.callee, Reading.bind_done, Reader.nextIs_done, hdot]
  constructor
  · rintro ⟨_, _, ⟨rfl, rfl⟩, hrun⟩
    simp only [Bool.false_eq_true, if_false] at hrun
    split at hrun
    · rename_i x
      split at hrun
      · rename_i owner howner
        obtain ⟨heq, rfl⟩ := Reading.pure_done.1 hrun
        exact ⟨rfl, x, rfl, by rw [Context.callee?, howner, Option.map_some, heq]⟩
      · simp at hrun
    · simp at hrun
  · rintro ⟨rfl, x, rfl, helab⟩
    obtain ⟨owner, howner, heq⟩ := Option.map_eq_some_iff.1 helab
    exact ⟨false, c', ⟨rfl, rfl⟩, by simp [howner, heq]⟩

/-- The rule for what a call names, behind its first lexeme, with a parenthesis behind it. -/
theorem callee_then {first : Lexeme} {receiver : Receiver} {m : String} {ls : List Lexeme} :
    (∃ d, (Rule.callee Γ first).run c = .done (receiver, m) d ∧
        d.Takes (Tree.mark .leftParen :: ls) c') ↔
      ∃ t : Tree.Callee, ∃ tail, t.yield = first :: tail ∧
        c.Takes (tail ++ Tree.mark .leftParen :: ls) c' ∧ Γ.callee? t = some (receiver, m) := by
  constructor
  · rintro ⟨d, hrun, hparen⟩
    cases hdot : c.nextIs (Lexeme.isMark .dot) with
    | true =>
      obtain ⟨t, x, hyield, htakes, helab⟩ := (callee_dotted hdot).1 hrun
      exact ⟨t, _, hyield, Takes.append_iff.2 ⟨d, htakes, hparen⟩, helab⟩
    | false =>
      obtain ⟨rfl, x, rfl, helab⟩ := (callee_bare hdot).1 hrun
      exact ⟨.bare x, [], rfl, hparen, helab⟩
  · rintro ⟨t, tail, hyield, htakes, helab⟩
    cases t with
    | bare x =>
      cases hyield
      have hdot : c.nextIs (Lexeme.isMark .dot) = false := by
        rw [htakes.nextIs]
        rfl
      exact ⟨c, (callee_bare hdot).2 ⟨rfl, x, rfl, helab⟩, htakes⟩
    | receiver x | object y x =>
      cases hyield
      have hdot : c.nextIs (Lexeme.isMark .dot) = true := by
        rw [htakes.nextIs]
        rfl
      obtain ⟨d, hnamed, hparen⟩ := Takes.append_iff.1 htakes
      exact ⟨d, (callee_dotted hdot).2 ⟨_, x, rfl, hnamed, helab⟩, hparen⟩

/-- The rule for arguments, with the closing parenthesis behind it. -/
theorem argument_then {owner : String} {signature : Signature} {argument : Option Value}
    {ls : List Lexeme} :
    (∃ d, (Rule.argument Γ owner signature).run c = .done argument d ∧
        d.Takes (Tree.mark .rightParen :: ls) c') ↔
      ∃ t : Option Tree.Value, c.Takes (Tree.argumentYield t ++ Tree.mark .rightParen :: ls) c' ∧
        Γ.argument? signature.parameter t = some argument := by
  simp only [Rule.argument, Reading.bind_done, Reader.nextIs_done]
  constructor
  · rintro ⟨d, ⟨closes, _, ⟨hcloses, rfl⟩, hrun⟩, hparen⟩
    cases hparameter : signature.parameter with
    | none =>
      cases closes with
      | true =>
        simp only [hparameter, Reading.pure_done] at hrun
        obtain ⟨rfl, rfl⟩ := hrun
        exact ⟨none, hparen, rfl⟩
      | false => simp [hparameter] at hrun
    | some p =>
      cases closes with
      | true => simp [hparameter] at hrun
      | false =>
        simp only [hparameter, Reading.bind_done, Reading.pure_done] at hrun
        obtain ⟨v, e, hv, rfl, rfl⟩ := hrun
        obtain ⟨t, htakes, helab⟩ := (value_then (by simp)).1 ⟨_, hv, hparen⟩
        exact ⟨some t, htakes, by simp [Context.argument?, helab]⟩
  · rintro ⟨t, htakes, helab⟩
    cases t with
    | none =>
      cases hparameter : signature.parameter with
      | none =>
        rw [hparameter] at helab
        cases helab
        refine ⟨c, ⟨true, c, ⟨?_, rfl⟩, ?_⟩, htakes⟩
        · rw [Cursor.Takes.nextIs htakes]
          rfl
        · simp
      | some p => simp [hparameter, Context.argument?] at helab
    | some v =>
      cases hparameter : signature.parameter with
      | none => simp [hparameter, Context.argument?] at helab
      | some p =>
        rw [hparameter] at helab
        obtain ⟨value, hvalue, rfl⟩ := Option.map_eq_some_iff.1 helab
        obtain ⟨d, hrun, hparen⟩ := (value_then (by simp)).2 ⟨v, htakes, hvalue⟩
        refine ⟨d, ⟨false, c, ⟨?_, rfl⟩, ?_⟩, hparen⟩
        · obtain ⟨l, ls', hl, hne⟩ := value_yield_ne (m := .rightParen) v
            (Tree.mark .rightParen :: ls)
          simp only [Tree.argumentYield] at htakes
          rw [hl] at htakes
          rw [htakes.nextIs]
          simpa [Lexeme.isMark] using hne
        · simp only [Reading.bind_done, Reading.pure_done]
          exact ⟨value, d, hrun, rfl, rfl⟩

theorem call_done {first : Lexeme} {request : Request} :
    (Rule.call Γ first).run c = .done request c' ↔
      ∃ callee argument tail, Tree.Simple.yield (.call callee argument) = first :: tail ∧
        c.Takes tail c' ∧ Γ.request? (.call callee argument) = some request := by
  simp only [Rule.call, Reading.bind_done, Reading.ofExcept_done, Reader.mark_done,
    Reading.pure_done, Context.signature_ok]
  constructor
  · rintro ⟨⟨receiver, m⟩, d, hcallee, signature, _, ⟨hsignature, rfl⟩, _, e, hopen, argument, g,
      hargument, _, i, hclose, _, _, hmark, rfl, rfl⟩
    obtain ⟨a, hclosed, helabA⟩ :=
      argument_then.1 ⟨g, hargument, Takes.cons_iff.2 ⟨i, hclose, hmark⟩⟩
    obtain ⟨t, tail, hyield, htakes, helabT⟩ :=
      callee_then.1 ⟨_, hcallee, Takes.cons_iff.2 ⟨e, hopen, hclosed⟩⟩
    exact ⟨t, a, _, by rw [Tree.Simple.yield, hyield, List.cons_append], htakes,
      Context.request?_call.2 ⟨receiver, m, helabT, signature, hsignature, argument, helabA, rfl⟩⟩
  · rintro ⟨t, a, tail, hyield, htakes, helab⟩
    obtain ⟨receiver, m, helabT, signature, hsignature, argument, helabA, rfl⟩ :=
      Context.request?_call.1 helab
    obtain ⟨l, ls, hl⟩ : ∃ l ls, t.yield = l :: ls := by cases t <;> exact ⟨_, _, rfl⟩
    simp only [Tree.Simple.yield, hl, List.cons_append, List.cons.injEq] at hyield
    obtain ⟨rfl, rfl⟩ := hyield
    obtain ⟨d, hcallee, hparen⟩ := callee_then.2 ⟨t, ls, hl, htakes, helabT⟩
    obtain ⟨e, hopen, hrest⟩ := Takes.cons_iff.1 hparen
    obtain ⟨g, hargument, hrest⟩ := argument_then.2 ⟨a, hrest, helabA⟩
    obtain ⟨i, hclose, hmark⟩ := Takes.cons_iff.1 hrest
    exact ⟨(receiver, m), d, hcallee, signature, d, ⟨hsignature, rfl⟩, (), e, hopen, argument, g,
      hargument, (), i, hclose, (), c', hmark, rfl, rfl⟩

/-! ### Output and conditions -/

theorem print_done {request : Request} :
    (Rule.print Γ).run c = .done request c' ↔
      ∃ v tail, Tree.Simple.yield (.print v) = Tree.word .print :: tail ∧ c.Takes tail c' ∧
        Γ.request? (.print v) = some request := by
  simp only [Rule.print, Reading.bind_done, Reader.mark_done, Reading.pure_done]
  constructor
  · rintro ⟨_, d, hopen, value, e, hvalue, _, g, hclose, _, _, hmark, rfl, rfl⟩
    obtain ⟨v, htakes, helab⟩ :=
      (value_then (by simp)).1 ⟨e, hvalue, Takes.cons_iff.2 ⟨g, hclose, hmark⟩⟩
    exact ⟨v, _, rfl, Takes.cons_iff.2 ⟨d, hopen, htakes⟩, by simp [Context.request?, helab]⟩
  · rintro ⟨v, tail, hyield, htakes, helab⟩
    obtain ⟨-, rfl⟩ := List.cons.inj hyield
    obtain ⟨value, hvalue, rfl⟩ := Option.map_eq_some_iff.1 helab
    obtain ⟨d, hopen, hrest⟩ := Takes.cons_iff.1 htakes
    obtain ⟨e, hrun, hrest⟩ := (value_then (by simp)).2 ⟨v, hrest, hvalue⟩
    obtain ⟨g, hclose, hmark⟩ := Takes.cons_iff.1 hrest
    exact ⟨(), d, hopen, value, e, hrun, (), g, hclose, (), c', hmark, rfl, rfl⟩

theorem textArgument_done {request : Request} :
    (Rule.textArgument Γ).run c = .done request c' ↔
      ∃ t : Tree.Text, c.Takes [t.lexeme] c' ∧ Γ.text? t = some request := by
  simp only [Rule.textArgument, Reading.bind_done, Reader.take_done]
  constructor
  · rintro ⟨l, d, htakes, hrun⟩
    split at hrun
    · obtain ⟨rfl, rfl⟩ := Reading.pure_done.1 hrun
      exact ⟨.literal _, htakes, rfl⟩
    · rename_i x
      simp only [Reading.bind_done, Reading.ofExcept_done, Context.symbol_ok] at hrun
      obtain ⟨symbol, _, ⟨hsymbol, rfl⟩, hrun⟩ := hrun
      split at hrun
      · rename_i htype
        obtain ⟨rfl, rfl⟩ := Reading.pure_done.1 hrun
        exact ⟨.variable x, htakes, by simp [Context.text?, hsymbol, htype]⟩
      · simp at hrun
    · simp at hrun
  · rintro ⟨t, htakes, helab⟩
    cases t with
    | literal content =>
      cases helab
      exact ⟨_, c', htakes, by simp [Tree.Text.lexeme]⟩
    | «variable» x =>
      simp only [Context.text?, Option.bind_eq_bind, Option.bind_eq_some_iff,
        Option.ite_none_right_eq_some, Option.some.injEq] at helab
      obtain ⟨symbol, hsymbol, htype, rfl⟩ := helab
      refine ⟨_, c', htakes, ?_⟩
      simp only [Tree.Text.lexeme, Reading.bind_done, Reading.ofExcept_done, Context.symbol_ok]
      exact ⟨symbol, c', ⟨hsymbol, rfl⟩, by simp [htype]⟩

theorem printText_done {request : Request} :
    (Rule.printText Γ).run c = .done request c' ↔
      ∃ t tail, Tree.Simple.yield (.printText t) = Tree.word .prints :: tail ∧ c.Takes tail c' ∧
        Γ.request? (.printText t) = some request := by
  simp only [Rule.printText, Reading.bind_done, Reader.mark_done, Reading.pure_done,
    textArgument_done]
  constructor
  · rintro ⟨_, d, hopen, value, e, ⟨t, htakes, helab⟩, _, g, hclose, _, _, hmark, rfl, rfl⟩
    exact ⟨t, _, rfl, Takes.cons_iff.2 ⟨d, hopen, Takes.cons_iff.2 ⟨e, htakes,
      Takes.cons_iff.2 ⟨g, hclose, hmark⟩⟩⟩, helab⟩
  · rintro ⟨t, tail, hyield, htakes, helab⟩
    obtain ⟨-, rfl⟩ := List.cons.inj hyield
    obtain ⟨d, hopen, hrest⟩ := Takes.cons_iff.1 htakes
    obtain ⟨e, htakes, hrest⟩ := Takes.cons_iff.1 hrest
    obtain ⟨g, hclose, hmark⟩ := Takes.cons_iff.1 hrest
    exact ⟨(), d, hopen, request, e, ⟨t, htakes, helab⟩, (), g, hclose, (), c', hmark, rfl, rfl⟩

theorem condition_done {condition : Condition} :
    (Rule.condition Γ).run c = .done condition c' ↔
      ∃ t : Tree.Condition, c.Takes t.yield c' ∧ Γ.condition? t = some condition := by
  simp only [Rule.condition, Reading.bind_done, Reader.mark_done, Reader.take_done]
  constructor
  · rintro ⟨_, d, hopen, left, e, hleft, l, g, hl, hrun⟩
    split at hrun
    · rename_i relation
      simp only [Reading.bind_done, Reader.mark_done, Reading.pure_done] at hrun
      obtain ⟨right, i, hright, _, _, hclose, rfl, rfl⟩ := hrun
      obtain ⟨tr, hr, helabR⟩ := (value_then (by simp)).1 ⟨i, hright, hclose⟩
      obtain ⟨tl, htakes, helabL⟩ :=
        (value_then (by simp)).1 ⟨e, hleft, Takes.cons_iff.2 ⟨g, hl, hr⟩⟩
      exact ⟨⟨tl, relation, tr⟩, Takes.cons_iff.2 ⟨d, hopen, htakes⟩,
        Context.condition?_eq_some.2 ⟨left, helabL, right, helabR, rfl⟩⟩
    · simp at hrun
  · rintro ⟨⟨tl, relation, tr⟩, htakes, helab⟩
    obtain ⟨left, helabL, right, helabR, rfl⟩ := Context.condition?_eq_some.1 helab
    obtain ⟨d, hopen, hrest⟩ := Takes.cons_iff.1 htakes
    obtain ⟨e, hleft, hrest⟩ := (value_then (by simp)).2 ⟨tl, hrest, helabL⟩
    obtain ⟨g, hl, hrest⟩ := Takes.cons_iff.1 hrest
    obtain ⟨i, hright, hclose⟩ := (value_then (by simp)).2 ⟨tr, hrest, helabR⟩
    refine ⟨(), d, hopen, left, e, hleft, _, g, hl, ?_⟩
    simp only [Reading.bind_done, Reader.mark_done, Reading.pure_done]
    exact ⟨right, i, hright, (), c', hclose, rfl, rfl⟩

end Rule

end ClassLang
