/-
  ClassLang/Proofs/PositionIndependence.lean
  ==========================================
  **Where a token stands does not matter to the pass.**

  Two token lists that say the same can differ in the positions of their tokens.  To
  compare the two passes each is compared with a third one, over tokens that have all
  been put at the start of the text.  A step is `Placeless` if it can be run before or
  after that change with the same outcome: the same value or the same fault, and
  states that differ in positions only.

  The property is closed under everything that the pass is put together from, fixed
  points included.  Only `Reader.token` is not placeless, and nothing but `Reader.take`
  uses it, which drops the position at once.
-/
import ClassLang.Proofs.Composition

namespace ClassLang

open HasCursor (cursor setCursor)

/-! ### Tokens without a place -/

/-- The token as if it stood at the start of the text. -/
def Token.unplaced (token : Token) : Token :=
  ⟨token.lexeme, .start⟩

def Cursor.unplaced (c : Cursor) : Cursor :=
  ⟨c.last.map Token.unplaced, c.ahead.map Token.unplaced⟩

/-- The state with all its tokens at the start of the text. -/
def unplaced {σ : Type} [HasCursor σ] (s : σ) : σ :=
  setCursor s (cursor s).unplaced

def Outcome.unplaced {σ α : Type} [HasCursor σ] : Outcome σ α → Outcome σ α
  | .done a s => .done a (ClassLang.unplaced s)
  | .stopped fault s => .stopped fault (ClassLang.unplaced s)

/-- Without their places, tokens that say the same are the same. -/
theorem map_unplaced_eq {tokens tokens' : List Token}
    (h : tokens.map Token.lexeme = tokens'.map Token.lexeme) :
    tokens.map Token.unplaced = tokens'.map Token.unplaced := by
  have hmap : ∀ ts : List Token,
      ts.map Token.unplaced = (ts.map Token.lexeme).map fun lexeme => ⟨lexeme, .start⟩ := by
    intro ts
    rw [List.map_map]
    rfl
  rw [hmap, hmap, h]

namespace Cursor

theorem remaining_unplaced (c : Cursor) : c.unplaced.remaining = c.remaining :=
  List.length_map _

theorem lookahead_unplaced (c : Cursor) (n : Nat) : c.unplaced.lookahead n = c.lookahead n := by
  simp only [lookahead, unplaced, ← List.map_take, List.map_map]
  rfl

end Cursor

/-! ### Steps that do not depend on places -/

namespace Reading

section

variable {σ α β : Type} [HasCursor σ]

theorem cursor_unplaced (s : σ) : cursor (unplaced s) = (cursor s).unplaced :=
  HasCursor.cursor_setCursor _ _

theorem remaining_unplaced (s : σ) : remaining (unplaced s) = remaining s := by
  rw [remaining, cursor_unplaced, Cursor.remaining_unplaced]
  rfl

/-- A step that does the same wherever its tokens stand. -/
def Placeless (r : Reading σ α) : Prop :=
  ∀ s, r.run (unplaced s) = (r.run s).unplaced

theorem placeless_pure (a : α) : Placeless (pure a : Reading σ α) :=
  fun _ => rfl

theorem placeless_fail (fault : Fault) : Placeless (fail fault : Reading σ α) :=
  fun _ => rfl

theorem Placeless.bind {r : Reading σ α} {next : α → Reading σ β} (h : Placeless r)
    (hnext : ∀ a, Placeless (next a)) : Placeless (r >>= next) := by
  intro s
  rw [run_bind, run_bind, h s]
  cases r.run s with
  | done a t => exact hnext a t
  | stopped fault t => rfl

/-- A step may look at the state, if all it looks at is there without the places too. -/
theorem placeless_state_bind {next : σ → Reading σ α} (hsame : ∀ s, next (unplaced s) = next s)
    (h : ∀ s, Placeless (next s)) : Placeless (state >>= next) := by
  intro s
  show (next (unplaced s)).run (unplaced s) = ((next s).run s).unplaced
  rw [hsame]
  exact h s s

theorem placeless_modify {change : σ → σ} {keeps : ∀ s, cursor (change s) = cursor s}
    (h : ∀ s, change (unplaced s) = unplaced (change s)) : Placeless (modify change keeps) := by
  intro s
  rw [run_modify, run_modify, h]
  rfl

/-- A step that calls itself is placeless if all its first turns are. -/
theorem placeless_fix {step : Reading σ α → Reading σ α} (hguarded : Guarded step)
    (hturns : ∀ n, Placeless (step^[n] (fail .endOfInput))) : Placeless (fix step) := by
  intro s
  have hless : remaining s < remaining s + 1 := Nat.lt_succ_self _
  have hless' : remaining (unplaced s) < remaining s + 1 := by rwa [remaining_unplaced]
  rw [← run_iterate hguarded (fail .endOfInput) hless,
    ← run_iterate hguarded (fail .endOfInput) hless']
  exact hturns _ s

end

/-- A reader is as placeless in the pass as it is by itself. -/
theorem Placeless.lift {α : Type} {r : Reader α} (h : Placeless r) :
    Placeless (liftM r : Pass α) := by
  intro s
  have hcursor : r.run (cursor (unplaced s)) = (r.run (cursor s)).unplaced := h (cursor s)
  rw [run_lift, run_lift, hcursor]
  cases r.run (cursor s) with
  | done a c => rfl
  | stopped fault c => rfl

end Reading

open Reading (Placeless)

/-! ### The pass -/

theorem Reader.placeless_take : Placeless take := by
  intro c
  obtain ⟨last, _ | ⟨token, ahead⟩⟩ := c
  · rfl
  · rfl

theorem Reader.Composed.placeless {α : Type} {r : Reader α} (h : Composed r) : Placeless r := by
  induction h with
  | pure a => exact Reading.placeless_pure a
  | fail fault => exact Reading.placeless_fail fault
  | take => exact placeless_take
  | bind _ _ ih ihNext => exact ih.bind ihNext
  | look hsame _ ihNext =>
    exact Reading.placeless_state_bind (fun c => hsame c _ (c.lookahead_unplaced 3)) ihNext

theorem Pass.Composed.placeless {α : Type} {r : Pass α} (h : Composed r) : Placeless r := by
  induction h with
  | pure a => exact Reading.placeless_pure a
  | fail fault => exact Reading.placeless_fail fault
  | lift h => exact h.placeless.lift
  | bind _ _ ih ihNext => exact ih.bind ihNext
  | look hsame _ ihNext =>
    exact Reading.placeless_state_bind (fun σ => hsame σ _ (σ.cursor.lookahead_unplaced 3)) ihNext
  | lookTake hsame _ ihNext =>
    refine Reading.placeless_state_bind (fun σ => ?_) fun σ =>
      Reader.placeless_take.lift.bind (ihNext σ)
    have hnext := hsame σ _ (σ.cursor.lookahead_unplaced 4)
    exact congrArg (liftM Reader.take >>= ·) hnext
  | @modify change keeps hsame =>
    refine Reading.placeless_modify fun σ => ?_
    rw [unplaced, unplaced, keeps σ]
    exact hsame σ _
  | fix hguarded _ ih => exact Reading.placeless_fix hguarded ih

/-! ### Compilations -/

theorem Outcome.fault_unplaced (outcome : Outcome State (Routine × List Routine)) :
    outcome.unplaced.compilation.mapError Located.fault =
      outcome.compilation.mapError Located.fault := by
  cases outcome with
  | done value σ => rfl
  | stopped fault σ => rfl

theorem passOver_unplaced (tokens : List Token) :
    passOver (tokens.map Token.unplaced) = (passOver tokens).unplaced :=
  Pass.composed_program.placeless (.initial tokens)

/-- Token lists that say the same are compiled to the same, or rejected for the same fault. -/
theorem compileTokens_eq {tokens tokens' : List Token}
    (h : tokens.map Token.lexeme = tokens'.map Token.lexeme) :
    (compileTokens tokens).mapError Located.fault =
      (compileTokens tokens').mapError Located.fault := by
  have hpass : (passOver tokens).unplaced = (passOver tokens').unplaced := by
    rw [← passOver_unplaced, ← passOver_unplaced, map_unplaced_eq h]
  calc (compileTokens tokens).mapError Located.fault
      = (passOver tokens).unplaced.compilation.mapError Located.fault :=
        (Outcome.fault_unplaced _).symm
    _ = (passOver tokens').unplaced.compilation.mapError Located.fault := by rw [hpass]
    _ = (compileTokens tokens').mapError Located.fault := Outcome.fault_unplaced _

end ClassLang
