/-
  ClassLang/Proofs/BoundedLookahead.lean
  ======================================
  **The pass fails fast, and never looks more than three tokens beyond those it took.**

  The pass reads from left to right and stops at the first fault, so what decides an
  outcome should be the tokens taken and a few behind them.  A step is `Nearsighted`
  if that is so: wherever it ends, the tokens from the fourth one ahead on can be
  replaced by any others, and the step ends in the same way, with the others ahead.
  The property speaks of failures as well as of successes.

  It is closed under everything that the pass is put together from.  The prediction of
  a statement looks at four tokens; a token is taken right behind it, whatever the
  prediction says, and three are left of the four (`nearsighted_lookTake`).

  The main statement is `fail_fast`: a fault is reported at the last token taken, and
  every list of tokens that agrees with the given one up to three tokens further is
  rejected for the same fault at the same place.
-/
import ClassLang.Proofs.Composition

namespace ClassLang

open HasCursor (cursor setCursor)

/-- Lists that agree on their first elements do so with something put in front of both. -/
theorem take_append_congr {α : Type} {n : Nat} {rest rest' : List α} (front : List α)
    (h : rest.take n = rest'.take n) : (front ++ rest).take n = (front ++ rest').take n := by
  have hshort : ∀ l : List α, l.take (n - front.length) = (l.take n).take (n - front.length) := by
    intro l
    rw [List.take_take, Nat.min_eq_left (Nat.sub_le ..)]
  rw [List.take_append, List.take_append, hshort rest, hshort rest', h]

/-! ### Other tokens ahead -/

/-- The state with other tokens ahead. -/
def facing {σ : Type} [HasCursor σ] (s : σ) (ahead : List Token) : σ :=
  setCursor s ⟨(cursor s).last, ahead⟩

def Outcome.facing {σ α : Type} [HasCursor σ] (outcome : Outcome σ α) (ahead : List Token) :
    Outcome σ α :=
  match outcome with
  | .done a s => .done a (ClassLang.facing s ahead)
  | .stopped fault s => .stopped fault (ClassLang.facing s ahead)

/-! ### Nearsighted steps -/

namespace Reading

section

variable {σ α β : Type} [HasCursor σ]

/-- The tokens that a step takes stand before those that it leaves. -/
theorem exists_taken (r : Reading σ α) (s : σ) :
    ∃ taken, (cursor s).ahead = taken ++ (cursor (r.run s).state).ahead := by
  obtain ⟨taken, htaken⟩ := (r.forward s).isSuffix
  exact ⟨taken, htaken.symm⟩

/-- Wherever the step ends, it would have ended there in the same way with any other tokens behind
    the next three. -/
def Nearsighted (r : Reading σ α) : Prop :=
  ∀ (s : σ) (taken rest : List Token),
    (cursor s).ahead = taken ++ (cursor (r.run s).state).ahead →
    rest.take 3 = (cursor (r.run s).state).ahead.take 3 →
    r.run (facing s (taken ++ rest)) = (r.run s).facing rest

/-- What has been taken is settled by what is left. -/
theorem taken_unique {all taken taken' ahead : List Token} (h : all = taken ++ ahead)
    (h' : all = taken' ++ ahead) : taken = taken' :=
  List.append_cancel_right (h.symm.trans h')

/-- A step that leaves the tokens alone has taken none. -/
theorem taken_eq_nil {taken ahead : List Token} (h : ahead = taken ++ ahead) : taken = [] :=
  taken_unique h rfl

theorem nearsighted_pure (a : α) : Nearsighted (pure a : Reading σ α) := by
  intro s taken rest htaken _
  rw [taken_eq_nil htaken]
  rfl

theorem nearsighted_fail (fault : Fault) : Nearsighted (fail fault : Reading σ α) := by
  intro s taken rest htaken _
  rw [taken_eq_nil htaken]
  rfl

/-- One step after the other.  What the first one may have looked at lies within what the second
    one takes and the three tokens behind. -/
theorem Nearsighted.bind {r : Reading σ α} {next : α → Reading σ β} (h : Nearsighted r)
    (hnext : ∀ a, Nearsighted (next a)) : Nearsighted (r >>= next) := by
  intro s taken rest htaken hrest
  cases hrun : r.run s with
  | stopped fault t =>
    have hboth : (r >>= next).run s = .stopped fault t := by rw [run_bind, hrun]
    rw [hboth] at htaken hrest ⊢
    have hr := h s taken rest
    rw [hrun] at hr
    rw [run_bind, hr htaken hrest]
    rfl
  | done a t =>
    have hboth : (r >>= next).run s = (next a).run t := by rw [run_bind, hrun]
    rw [hboth] at htaken hrest ⊢
    obtain ⟨first, hfirst⟩ := exists_taken r s
    obtain ⟨second, hsecond⟩ := exists_taken (next a) t
    have hr := h s first (second ++ rest)
    rw [hrun] at hfirst hr
    have hsplit : taken = first ++ second := by
      apply taken_unique htaken
      rw [List.append_assoc, ← hsecond]
      exact hfirst
    have hsame : (second ++ rest).take 3 = (cursor t).ahead.take 3 := by
      rw [hsecond]
      exact take_append_congr second hrest
    rw [hsplit, List.append_assoc, run_bind, hr hfirst hsame]
    exact hnext a t second rest hsecond hrest

/-- A step may look at the state, if of the tokens ahead it looks at three only. -/
theorem nearsighted_look {next : σ → Reading σ α}
    (hsame : ∀ s ahead, ahead.take 3 = (cursor s).ahead.take 3 → next (facing s ahead) = next s)
    (h : ∀ s, Nearsighted (next s)) : Nearsighted (state >>= next) := by
  intro s taken rest htaken hrest
  have hrun : ∀ t, (state >>= next).run t = (next t).run t := fun _ => rfl
  rw [hrun] at htaken hrest
  have hlook : (taken ++ rest).take 3 = (cursor s).ahead.take 3 := by
    rw [htaken]
    exact take_append_congr taken hrest
  rw [hrun, hrun, hsame s _ hlook]
  exact h s s taken rest htaken hrest

theorem nearsighted_modify {change : σ → σ} {keeps : ∀ s, cursor (change s) = cursor s}
    (h : ∀ s ahead, change (facing s ahead) = facing (change s) ahead) :
    Nearsighted (modify change keeps) := by
  intro s taken rest htaken _
  have hstate : cursor ((modify change keeps).run s).state = cursor s := keeps s
  rw [hstate] at htaken
  rw [taken_eq_nil htaken, run_modify, run_modify, h]
  rfl

/-- A step that calls itself is nearsighted if all its first turns are. -/
theorem nearsighted_fix {step : Reading σ α → Reading σ α} (hguarded : Guarded step)
    (hturns : ∀ n, Nearsighted (step^[n] (fail .endOfInput))) : Nearsighted (fix step) := by
  intro s taken rest
  -- so many turns are enough for the tokens that are there and for the others
  let n := max (remaining s) (remaining (facing s (taken ++ rest))) + 1
  have hs : (step^[n] (fail .endOfInput)).run s = (fix step).run s :=
    run_iterate hguarded _ (by omega)
  have hother : (step^[n] (fail .endOfInput)).run (facing s (taken ++ rest)) =
      (fix step).run (facing s (taken ++ rest)) :=
    run_iterate hguarded _ (by omega)
  have hsighted := hturns n s taken rest
  rw [hs, hother] at hsighted
  exact hsighted

end

/-- A reader looks as far in the pass as it does by itself. -/
theorem Nearsighted.lift {α : Type} {r : Reader α} (h : Nearsighted r) :
    Nearsighted (liftM r : Pass α) := by
  intro s taken rest htaken hrest
  have hr := h (cursor s) taken rest
  have hother : cursor (facing s (taken ++ rest)) = facing (cursor s) (taken ++ rest) := rfl
  rw [run_lift] at htaken hrest ⊢
  rw [run_lift, hother]
  cases hreader : r.run (cursor s) with
  | done a c =>
    rw [hreader] at hr htaken hrest
    rw [hr htaken hrest]
    rfl
  | stopped fault c =>
    rw [hreader] at hr htaken hrest
    rw [hr htaken hrest]
    rfl

end Reading

open Reading (Nearsighted)

/-! ### The pass -/

/-- Taking a token fails only at the end of the input, and that end is in sight. -/
theorem Reader.nearsighted_take : Nearsighted take := by
  intro c taken rest htaken hrest
  obtain ⟨last, _ | ⟨token, ahead⟩⟩ := c
  · have hnone : rest = [] := by
      have hnil : rest.take 3 = [] := hrest
      simpa using hnil
    rw [Reading.taken_eq_nil htaken, hnone]
    rfl
  · have hone : taken = [token] := Reading.taken_unique htaken rfl
    rw [hone]
    rfl

theorem Reader.Composed.nearsighted {α : Type} {r : Reader α} (h : Composed r) :
    Nearsighted r := by
  induction h with
  | pure a => exact Reading.nearsighted_pure a
  | fail fault => exact Reading.nearsighted_fail fault
  | take => exact nearsighted_take
  | bind _ _ ih ihNext => exact ih.bind ihNext
  | look hsame _ ihNext =>
    refine Reading.nearsighted_look (fun c ahead hahead => ?_) ihNext
    exact hsame c _ (congrArg (List.map Token.lexeme) hahead)

namespace Pass

/-- A look at four tokens is a look at three, if one of them is taken at once. -/
theorem nearsighted_lookTake {α : Type} {next : State → Lexeme → Pass α}
    (hsame : ∀ σ ahead, ahead.take 4 = σ.cursor.ahead.take 4 → next (facing σ ahead) = next σ)
    (h : ∀ σ first, Nearsighted (next σ first)) :
    Nearsighted (Reading.state >>= fun σ => liftM Reader.take >>= next σ) := by
  intro σ taken rest htaken hrest
  obtain ⟨Γ, ⟨last, ahead⟩, labels, log⟩ := σ
  cases ahead with
  | nil =>
    have hnone : rest = [] := by
      have hnil : rest.take 3 = [] := hrest
      simpa using hnil
    rw [Reading.taken_eq_nil htaken, hnone]
    rfl
  | cons token ahead =>
    let σ : State := ⟨Γ, ⟨last, token :: ahead⟩, labels, log⟩
    let τ : State := ⟨Γ, ⟨some token, ahead⟩, labels, log⟩
    obtain ⟨behind, hbehind⟩ := Reading.exists_taken (next σ token.lexeme) τ
    have hsplit : taken = token :: behind := by
      apply Reading.taken_unique htaken
      exact congrArg (token :: ·) hbehind
    have hthree : (behind ++ rest).take 3 = ahead.take 3 := by
      rw [show ahead = behind ++ _ from hbehind]
      exact take_append_congr behind hrest
    have hnext : next (facing σ (taken ++ rest)) = next σ := by
      apply hsame
      rw [hsplit]
      exact congrArg (token :: ·) hthree
    have hrun : (Reading.state >>= fun σ => liftM Reader.take >>= next σ).run
        (facing σ (taken ++ rest)) = (next σ token.lexeme).run (facing τ (behind ++ rest)) := by
      rw [← hnext, hsplit]
      rfl
    exact hrun.trans (h σ token.lexeme τ behind rest hbehind hrest)

theorem Composed.nearsighted {α : Type} {r : Pass α} (h : Composed r) : Nearsighted r := by
  induction h with
  | pure a => exact Reading.nearsighted_pure a
  | fail fault => exact Reading.nearsighted_fail fault
  | lift h => exact h.nearsighted.lift
  | bind _ _ ih ihNext => exact ih.bind ihNext
  | look hsame _ ihNext =>
    refine Reading.nearsighted_look (fun σ ahead hahead => ?_) ihNext
    exact hsame σ _ (congrArg (List.map Token.lexeme) hahead)
  | lookTake hsame _ ihNext =>
    refine nearsighted_lookTake (fun σ ahead hahead => ?_) ihNext
    exact hsame σ _ (congrArg (List.map Token.lexeme) hahead)
  | @modify change keeps hsame =>
    refine Reading.nearsighted_modify fun σ ahead => ?_
    rw [facing, facing, keeps σ]
    exact hsame σ _
  | fix hguarded _ ih => exact Reading.nearsighted_fix hguarded ih

end Pass

/-! ### Where a fault is reported -/

/-- A cursor remembers the last one of the tokens taken. -/
theorem Cursor.Leads.last_eq {a b : Cursor} (h : a.Leads b) {taken : List Token}
    (htaken : a.ahead = taken ++ b.ahead) : b.last = taken.getLast?.or a.last := by
  induction h generalizing taken with
  | refl c =>
    rw [Reading.taken_eq_nil htaken]
    rfl
  | @step last token ahead c hleads ih =>
    obtain ⟨behind, hbehind⟩ := hleads.isSuffix
    have hsplit : taken = token :: behind := by
      apply Reading.taken_unique htaken
      rw [List.cons_append, hbehind]
    rw [hsplit, ih hbehind.symm, List.getLast?_cons]
    cases behind.getLast? <;> rfl

/-- How many tokens the pass has taken when it ends. -/
def tokensTaken (tokens : List Token) : Nat :=
  tokens.length - remaining (passOver tokens).state

/-- Where a fault is reported when so many tokens have been taken: at the last one of them, or else
    at the first token, or at the start of the text if there is no token at all. -/
def reportPosition (tokens : List Token) : Nat → Position
  | 0 => (tokens.head?.map Token.position).getD .start
  | n + 1 => (tokens[n]?.map Token.position).getD .start

/-- What the pass leaves ahead is what it has not taken. -/
theorem ahead_passOver (tokens : List Token) :
    (passOver tokens).state.cursor.ahead = tokens.drop (tokensTaken tokens) :=
  List.suffix_iff_eq_drop.1 (Pass.program.forward (.initial tokens)).isSuffix

theorem tokensTaken_le (tokens : List Token) : tokensTaken tokens ≤ tokens.length :=
  Nat.sub_le ..

theorem position_passOver (tokens : List Token) :
    (passOver tokens).state.cursor.position = reportPosition tokens (tokensTaken tokens) := by
  have hahead := ahead_passOver tokens
  have hle := tokensTaken_le tokens
  have hleads : (Cursor.ofTokens tokens).Leads (passOver tokens).state.cursor :=
    Pass.program.forward (.initial tokens)
  have hsplit : (Cursor.ofTokens tokens).ahead =
      tokens.take (tokensTaken tokens) ++ (passOver tokens).state.cursor.ahead := by
    rw [hahead, List.take_append_drop]
    rfl
  have hlast := hleads.last_eq hsplit
  cases hcount : tokensTaken tokens with
  | zero =>
    rw [hcount] at hahead hlast
    have hnone : (passOver tokens).state.cursor.last = none := hlast
    rw [Cursor.position, hnone, hahead]
    cases tokens <;> rfl
  | succ n =>
    rw [hcount] at hle hlast
    have hlt : n < tokens.length := hle
    have hsome : (tokens.take (n + 1)).getLast? = some (tokens[n]) := by
      rw [List.take_succ_eq_append_getElem hlt, List.getLast?_append]
      rfl
    rw [hsome] at hlast
    have hlast : (passOver tokens).state.cursor.last = some tokens[n] := hlast
    rw [Cursor.position, hlast, reportPosition, List.getElem?_eq_getElem hlt]
    rfl

/-- The place of a report is that of a token taken, or of the first one. -/
theorem reportPosition_congr {tokens tokens' : List Token} {n : Nat}
    (h : tokens'.take (n + 3) = tokens.take (n + 3)) :
    reportPosition tokens' n = reportPosition tokens n := by
  cases n with
  | zero =>
    have hhead := congrArg List.head? h
    rw [List.head?_take, List.head?_take] at hhead
    exact congrArg (fun token => (Option.map Token.position token).getD .start) hhead
  | succ n =>
    have hget := congrArg (·[n]?) h
    simp only [List.getElem?_take] at hget
    rw [if_pos (by omega), if_pos (by omega)] at hget
    exact congrArg (fun token => (Option.map Token.position token).getD .start) hget

/-! ### Two lists of tokens -/

/-- What the pass does with tokens that agree with the given ones up to three behind the last one
    taken: the same, with the others ahead. -/
theorem passOver_congr {tokens tokens' : List Token}
    (h : tokens'.take (tokensTaken tokens + 3) = tokens.take (tokensTaken tokens + 3)) :
    passOver tokens' = (passOver tokens).facing (tokens'.drop (tokensTaken tokens)) ∧
      tokensTaken tokens' = tokensTaken tokens := by
  have hahead := ahead_passOver tokens
  have hle := tokensTaken_le tokens
  generalize tokensTaken tokens = n at *
  have htaken : tokens'.take n = tokens.take n := by
    have hshort := congrArg (List.take n) h
    rwa [List.take_take, List.take_take, Nat.min_eq_left (Nat.le_add_right ..)] at hshort
  have hsplit : tokens = tokens.take n ++ (passOver tokens).state.cursor.ahead := by
    rw [hahead, List.take_append_drop]
  have hthree : (tokens'.drop n).take 3 = (tokens.drop n).take 3 := by
    rw [List.take_drop, List.take_drop, h]
  have hjoin : tokens.take n ++ tokens'.drop n = tokens' := by
    rw [← htaken, List.take_append_drop]
  have hpass : passOver tokens' = (passOver tokens).facing (tokens'.drop n) := by
    have hsighted := Pass.composed_program.nearsighted (.initial tokens) (tokens.take n)
      (tokens'.drop n) hsplit (hthree.trans (congrArg (List.take 3) hahead.symm))
    rw [hjoin] at hsighted
    exact hsighted
  refine ⟨hpass, ?_⟩
  have hremaining : remaining (passOver tokens').state = (tokens'.drop n).length := by
    rw [hpass]
    cases passOver tokens <;> rfl
  have hlength := congrArg List.length htaken
  rw [List.length_take, List.length_take] at hlength
  rw [tokensTaken, hremaining, List.length_drop]
  omega

/-- A list of tokens that is rejected is rejected early and by what has been read: the fault has one
    place, that of the last token taken, and three tokens behind that one are all that it can
    depend on. -/
theorem fail_fast {tokens : List Token} {located : Located}
    (h : compileTokens tokens = .error located) :
    tokensTaken tokens ≤ tokens.length ∧
    (passOver tokens).state.cursor.ahead = tokens.drop (tokensTaken tokens) ∧
    located.position = reportPosition tokens (tokensTaken tokens) ∧
    located.diagnostic.position = some located.position ∧
    located.diagnostic.root = .ofFault located.fault ∧
    located.diagnostic.root.position = none ∧
    ∀ tokens' : List Token,
      tokens'.take (tokensTaken tokens + 3) = tokens.take (tokensTaken tokens + 3) →
      compileTokens tokens' = .error located ∧ tokensTaken tokens' = tokensTaken tokens ∧
        (tokens.length < tokensTaken tokens + 3 → tokens' = tokens) := by
  have hahead := ahead_passOver tokens
  have hposition := position_passOver tokens
  unfold compileTokens at h
  cases hrun : passOver tokens with
  | done value σ =>
    rw [hrun] at h
    cases h
  | stopped fault σ =>
    rw [hrun] at h
    cases h
    rw [hrun] at hposition hahead
    refine ⟨tokensTaken_le tokens, hahead, hposition, rfl, rfl, rfl, fun tokens' hagree => ?_⟩
    obtain ⟨hpass, hcount⟩ := passOver_congr hagree
    refine ⟨?_, hcount, fun hshort => ?_⟩
    · have hplace := position_passOver tokens'
      rw [hcount, reportPosition_congr hagree, ← hposition] at hplace
      unfold compileTokens
      rw [hpass, hrun] at hplace ⊢
      exact congrArg (fun position => Except.error (Located.mk fault position)) hplace
    · have hlength := congrArg List.length hagree
      rw [List.length_take, List.length_take] at hlength
      rw [List.take_of_length_le (by omega), List.take_of_length_le (by omega)] at hagree
      exact hagree

/-- A statement that no rule fits: the fourth of its tokens, a semicolon, settles it. -/
def misfitTokens : List Token :=
  [.keyword .mainDef, .punctuation .leftParen, .punctuation .rightParen, .punctuation .leftBrace,
    .keyword .receiver, .punctuation .dot, .identifier "f", .punctuation .semicolon,
    .punctuation .rightBrace].map fun lexeme => ⟨lexeme, .start⟩

theorem fail_fast_misfit :
    tokensTaken misfitTokens = 5 ∧ ∃ located, compileTokens misfitTokens = .error located ∧
      ∀ tokens : List Token, tokens.take 8 = misfitTokens.take 8 →
        compileTokens tokens = .error located := by
  have hcount : tokensTaken misfitTokens = 5 := by decide +kernel
  have hfails : (compileTokens misfitTokens).isOk = false := by decide +kernel
  cases hcompile : compileTokens misfitTokens with
  | ok compilation =>
    rw [hcompile] at hfails
    cases hfails
  | error located =>
    refine ⟨hcount, located, rfl, fun tokens hagree => ?_⟩
    have hfast := fail_fast hcompile
    rw [hcount] at hfast
    exact (hfast.2.2.2.2.2.2 tokens hagree).1

end ClassLang
