/-
  ClassLang/Proofs/TokenProgress.lean
  ===================================
  **How far the rules come in the tokens.**

  A cursor holds the tokens ahead.  `Cursor.At` tells where that is in a list of tokens,
  as a number, so that it can be said that a rule ends further on and not beyond the end
  of the list.  Every cursor stands somewhere, and every reading comes to a place of the
  same list.

  How much further on it is depends on the rule.  A statement is begun with four tokens
  at least, up to its semicolon, or with seven, up to the left brace of its block
  (`remaining_add_fewest`).  Whatever calls itself does so behind these tokens, so a
  recursion on statements and blocks goes down by seven tokens for each block
  (`Descends.remaining_le`).
-/
import ClassLang.Proofs.StepEffects

namespace ClassLang

open HasCursor (cursor)

/-! ### Places in a list of tokens -/

/-- The cursor stands in a list of tokens, behind the first so many of them. -/
structure Cursor.At (c : Cursor) (tokens : List Token) (place : Nat) : Prop where
  le_length : place ≤ tokens.length
  ahead : c.ahead = tokens.drop place
  last : c.last = (tokens.take place).getLast?

namespace Cursor

variable {a b c : Cursor} {tokens : List Token} {place : Nat}

theorem At.add_remaining (h : c.At tokens place) : place + c.remaining = tokens.length := by
  have hle := h.le_length
  rw [remaining, h.ahead, List.length_drop]
  omega

theorem At.take {last : Option Token} {token : Token} {ahead : List Token}
    (h : At ⟨last, token :: ahead⟩ tokens place) : At ⟨some token, ahead⟩ tokens (place + 1) := by
  have hlt : place < tokens.length := by
    have hall : place + (ahead.length + 1) = tokens.length := h.add_remaining
    omega
  have hsplit : token :: ahead = tokens[place] :: tokens.drop (place + 1) :=
    h.ahead.trans (List.drop_eq_getElem_cons hlt)
  obtain ⟨htoken, hahead⟩ := List.cons.inj hsplit
  refine ⟨hlt, hahead, ?_⟩
  rw [List.take_succ_eq_append_getElem hlt, List.getLast?_append, htoken]
  rfl

/-- The cursor stands at the place or further on, and not beyond the end of the list. -/
def NotBefore (c : Cursor) (tokens : List Token) (place : Nat) : Prop :=
  ∃ place', place ≤ place' ∧ place' ≤ tokens.length ∧ c.At tokens place'

theorem Leads.exists_at (h : a.Leads b) (ha : a.At tokens place) :
    ∃ place', b.At tokens place' := by
  induction h generalizing place with
  | refl => exact ⟨place, ha⟩
  | step _ ih => exact ih ha.take

/-- Moving forward leads as many places on as there are tokens fewer ahead. -/
theorem Leads.notBefore {n : Nat} (h : a.Leads b) (ha : a.At tokens place)
    (hn : b.remaining + n ≤ a.remaining) : b.NotBefore tokens (place + n) := by
  obtain ⟨place', hb⟩ := h.exists_at ha
  have hall := ha.add_remaining
  have hall' := hb.add_remaining
  exact ⟨place', by omega, hb.le_length, hb⟩

end Cursor

/-- Wherever a reading ends, it ends in the list of tokens that it began in, and not before the
    place where it began. -/
theorem Reading.notBefore {σ α : Type} [HasCursor σ] (r : Reading σ α) {s : σ}
    {tokens : List Token} {place : Nat} (h : (cursor s).At tokens place) :
    (cursor (r.run s).state).NotBefore tokens place :=
  (r.forward s).notBefore (n := 0) h (r.remaining_run_le s)

/-! ### Statements -/

theorem Tree.Condition.five_le_length (t : Tree.Condition) : 5 ≤ t.yield.length := by
  have hleft := t.left.one_le_length
  have hright := t.right.one_le_length
  simp only [yield, List.length_cons, List.length_append, List.length_nil]
  omega

/-- The fewest tokens that a statement is begun with: up to its semicolon, or up to the left brace
    of its block. -/
def Start.fewest : Start → Nat
  | .simple _ => 4
  | .branch _ => 7

theorem Start.four_le_fewest (s : Start) : 4 ≤ s.fewest := by
  cases s with
  | simple _ => exact Nat.le_refl 4
  | branch _ => exact Nat.le_add_right 4 3

namespace Pass

open Cursor (Takes)

variable {σ τ υ : State}

theorem remaining_add_fewest {s : Start} (h : start.run σ = .done s τ) :
    remaining τ + s.fewest ≤ remaining σ := by
  show τ.cursor.remaining + s.fewest ≤ σ.cursor.remaining
  have hends : Ends start (σ.standing.state σ.cursor σ.log) s τ.standing τ.cursor := ⟨τ.log, h⟩
  obtain ⟨production, first, d, hpredict, hfirst, hrule⟩ := ends_start.1 hends
  by_cases hkind : ∃ kind, production = Tree.branchProduction kind
  · obtain ⟨kind, rfl⟩ := hkind
    rw [startByRule_branch] at hrule
    obtain ⟨head, rfl, hopen⟩ := exists_ends_of_bind_pure hrule
    obtain ⟨t, _, htakes, -⟩ := ends_openBlock hopen
    have htaken := (Takes.cons_iff.2 ⟨d, hfirst, htakes⟩).remaining
    have hlength := t.five_le_length
    simp only [List.length_cons, List.length_append, List.length_nil] at htaken
    simp only [Start.fewest]
    omega
  · obtain ⟨t, tail, _, rfl, hyield, htakes, -⟩ := ends_startByRule
      (begins_of_takes hpredict hfirst) (fun kind heq => hkind ⟨kind, heq⟩) hrule
    have htaken := (Takes.cons_iff.2 ⟨d, hfirst, htakes⟩).remaining
    have hlength := t.four_le_length
    rw [hyield] at hlength
    simp only [Start.fewest]
    omega

/-- A statement that is done has taken four tokens, whatever reads its block. -/
theorem remaining_add_four {body : Pass Body} {item : Item}
    (h : (statement body).run σ = .done item τ) : remaining τ + 4 ≤ remaining σ := by
  rw [statement_eq] at h
  obtain ⟨s, υ, hstart, hcomplete⟩ := Reading.bind_done.1 h
  have hbegun := remaining_add_fewest hstart
  have hfour := s.four_le_fewest
  have hforward := (complete body s).remaining_run_le υ
  rw [hcomplete] at hforward
  have hrest : remaining τ ≤ remaining υ := hforward
  omega

/-! ### Blocks -/

/-- The statement that begins at the first state has a block, and the block is entered at the
    second. -/
def EntersBlock (σ τ : State) : Prop :=
  ∃ head, start.run σ = .done (.branch head) τ

theorem EntersBlock.leads (h : EntersBlock σ τ) : σ.cursor.Leads τ.cursor := by
  obtain ⟨head, hstart⟩ := h
  have hforward := start.forward σ
  rw [hstart] at hforward
  exact hforward

theorem EntersBlock.remaining_add_seven (h : EntersBlock σ τ) :
    remaining τ + 7 ≤ remaining σ := by
  obtain ⟨head, hstart⟩ := h
  exact remaining_add_fewest hstart

/-- A statement reads a block where it enters one, and nowhere else. -/
theorem statement_congr {body body' : Pass Body}
    (h : ∀ τ, EntersBlock σ τ → body.run τ = body'.run τ) :
    (statement body).run σ = (statement body').run σ := by
  rw [statement_eq, statement_eq, Reading.run_bind, Reading.run_bind]
  cases hstart : start.run σ with
  | stopped fault τ => rfl
  | done s τ =>
    cases s with
    | simple command => rfl
    | branch head =>
      simp only [complete]
      rw [Reading.run_bind, Reading.run_bind, h τ ⟨head, hstart⟩]

/-- Reading statements from the first state on comes to statements at the second, which lie so many
    blocks further in. -/
inductive Descends : State → Nat → State → Prop where
  | here (σ : State) : Descends σ 0 σ
  | next {σ τ υ : State} {item : Item} {depth : Nat}
      (hstatement : (statement statements).run σ = .done item τ) (h : Descends τ depth υ) :
      Descends σ depth υ
  | enter {σ τ υ : State} {depth : Nat} (hblock : EntersBlock σ τ) (h : Descends τ depth υ) :
      Descends σ (depth + 1) υ

/-- Each block costs seven tokens. -/
theorem Descends.remaining_le {depth : Nat} (h : Descends σ depth τ) :
    remaining τ + 7 * depth ≤ remaining σ := by
  induction h with
  | here => exact Nat.le_refl _
  | next hstatement _ ih =>
    have hfour := remaining_add_four hstatement
    omega
  | enter hblock _ ih =>
    have hseven := hblock.remaining_add_seven
    omega

end Pass

end ClassLang
