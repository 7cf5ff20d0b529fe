/-
  ClassLang/Reading.lean
  ======================
  **Steps that read tokens.**

  A `Reading` takes a state that holds a cursor and ends in one of two ways: it is
  done, with a value, or it is stopped by a fault.  In both cases the state it
  ends in is part of the outcome, since a fault is reported where the reading came
  to, and in both cases the cursor has only moved forward.  That last property is
  a field of the type, so it holds of everything that is put together from the
  pieces below.

  Readings that repeat or nest are fixed points: `fix` allows a step to call itself
  wherever fewer tokens are ahead than where it began.  A step that takes a token
  before it calls itself is `Guarded`, and for guarded steps `fix` is a fixed point
  without any condition (`run_fix`).

  Readings of the bare cursor (`Reader`) serve wherever a state is needed.
-/
import ClassLang.Cursor
import ClassLang.Fault

namespace ClassLang

/-! ### Outcomes -/

/-- How a step ends, with the state it ends in. -/
inductive Outcome (σ α : Type) where
  | done (value : α) (state : σ)
  | stopped (fault : Fault) (state : σ)
deriving Repr

def Outcome.state {σ α : Type} : Outcome σ α → σ
  | .done _ s => s
  | .stopped _ s => s

/-- States that hold a cursor among other things. -/
class HasCursor (σ : Type) where
  cursor : σ → Cursor
  setCursor : σ → Cursor → σ
  cursor_setCursor : ∀ s c, cursor (setCursor s c) = c

instance : HasCursor Cursor where
  cursor c := c
  setCursor _ c := c
  cursor_setCursor _ _ := rfl

open HasCursor (cursor setCursor cursor_setCursor)

def remaining {σ : Type} [HasCursor σ] (s : σ) : Nat :=
  (cursor s).remaining

/-- A step that reads tokens: a function to outcomes that never moves the cursor back. -/
structure Reading (σ : Type) [HasCursor σ] (α : Type) where
  run : σ → Outcome σ α
  forward : ∀ s, (cursor s).Leads (cursor (run s).state)

abbrev Reader : Type → Type := Reading Cursor

namespace Reading

variable {σ α β : Type} [HasCursor σ]

@[ext] theorem ext {r r' : Reading σ α} (h : ∀ s, r.run s = r'.run s) : r = r' := by
  obtain ⟨run, _⟩ := r
  obtain ⟨run', _⟩ := r'
  obtain rfl : run = run' := funext h
  rfl

/-- Where a step ends no more tokens are ahead than where it began. -/
theorem remaining_run_le (r : Reading σ α) (s : σ) : remaining (r.run s).state ≤ remaining s :=
  (r.forward s).remaining_le

/-! ### Putting steps together -/

def done (a : α) : Reading σ α :=
  ⟨fun s => .done a s, fun s => .refl (cursor s)⟩

def fail (fault : Fault) : Reading σ α :=
  ⟨fun s => .stopped fault s, fun s => .refl (cursor s)⟩

/-- One step after the other; a fault of the first is a fault of both. -/
def andThen (r : Reading σ α) (next : α → Reading σ β) : Reading σ β where
  run s :=
    match r.run s with
    | .done a t => (next a).run t
    | .stopped fault t => .stopped fault t
  forward s := by
    have h := r.forward s
    split
    · rename_i a t heq
      rw [heq] at h
      exact h.trans ((next a).forward t)
    · rename_i fault t heq
      rw [heq] at h
      exact h

instance : Monad (Reading σ) where
  pure := done
  bind := andThen

/-- The step that is done if the check passed, and stopped by what the check found otherwise. -/
def ofExcept : Except Fault α → Reading σ α
  | .ok a => done a
  | .error fault => fail fault

/-- The value, or the fault if there is none. -/
def require (value : Option α) (fault : Fault) : Reading σ α :=
  match value with
  | some a => done a
  | none => fail fault

def state : Reading σ σ :=
  ⟨fun s => .done s s, fun s => .refl (cursor s)⟩

/-- Change the state but for its cursor. -/
def modify (change : σ → σ) (keeps : ∀ s, cursor (change s) = cursor s := by intro s; rfl) :
    Reading σ Unit :=
  ⟨fun s => .done () (change s), fun s => (keeps s).symm ▸ .refl (cursor s)⟩

/-- Run a reader on the cursor of a larger state. -/
def lift (r : Reader α) : Reading σ α where
  run s :=
    match r.run (cursor s) with
    | .done a c => .done a (setCursor s c)
    | .stopped fault c => .stopped fault (setCursor s c)
  forward s := by
    have h : (cursor s).Leads (r.run (cursor s)).state := r.forward (cursor s)
    split <;> rename_i heq <;> rw [heq] at h <;>
      simpa only [Outcome.state, cursor_setCursor] using h

instance : MonadLift Reader (Reading σ) where
  monadLift := lift

@[simp] theorem run_pure (a : α) (s : σ) : (pure a : Reading σ α).run s = .done a s := rfl

@[simp] theorem run_fail (fault : Fault) (s : σ) :
    (fail fault : Reading σ α).run s = .stopped fault s := rfl

theorem run_bind (r : Reading σ α) (next : α → Reading σ β) (s : σ) :
    (r >>= next).run s =
      match r.run s with
      | .done a t => (next a).run t
      | .stopped fault t => .stopped fault t := rfl

@[simp] theorem run_state (s : σ) : (state : Reading σ σ).run s = .done s s := rfl

@[simp] theorem run_modify (change : σ → σ) (keeps : ∀ s, cursor (change s) = cursor s) (s : σ) :
    (modify change keeps).run s = .done () (change s) := rfl

theorem run_lift (r : Reader α) (s : σ) :
    (liftM r : Reading σ α).run s =
      match r.run (cursor s) with
      | .done a c => .done a (setCursor s c)
      | .stopped fault c => .stopped fault (setCursor s c) := rfl

/-! ### Fixed points -/

/-- The step that is given for states with fewer than `n` tokens ahead.  On other states it is
    stopped as at the end of the input. -/
def below (n : Nat) (step : (s : σ) → remaining s < n →
    { r : Outcome σ α // (cursor s).Leads (cursor r.state) }) : Reading σ α where
  run s := if h : remaining s < n then (step s h).val else .stopped .endOfInput s
  forward s := by
    split
    · exact (step s _).property
    · exact .refl (cursor s)

/-- Run a step that may call itself on states with fewer tokens ahead. -/
def fixFrom (step : Reading σ α → Reading σ α) (s : σ) :
    { r : Outcome σ α // (cursor s).Leads (cursor r.state) } :=
  let unrolled := step (below (remaining s) fun t _ => fixFrom step t)
  ⟨unrolled.run s, unrolled.forward s⟩
termination_by remaining s

/-- The step that calls itself on states with fewer tokens ahead. -/
def fix (step : Reading σ α → Reading σ α) : Reading σ α :=
  ⟨fun s => (fixFrom step s).val, fun s => (fixFrom step s).property⟩

/-- What a step does is settled by its argument on states with no more tokens ahead. -/
def Causal (step : Reading σ α → Reading σ β) : Prop :=
  ∀ (r r' : Reading σ α) (s : σ), (∀ t, remaining t ≤ remaining s → r.run t = r'.run t) →
    (step r).run s = (step r').run s

/-- What a step does is settled by its argument on states with fewer tokens ahead. -/
def Guarded (step : Reading σ α → Reading σ β) : Prop :=
  ∀ (r r' : Reading σ α) (s : σ), (∀ t, remaining t < remaining s → r.run t = r'.run t) →
    (step r).run s = (step r').run s

/-- A guarded step and its fixed point: calling itself is calling the fixed point. -/
theorem run_fix {step : Reading σ α → Reading σ α} (h : Guarded step) (s : σ) :
    (fix step).run s = (step (fix step)).run s := by
  show (fixFrom step s).val = _
  rw [fixFrom]
  refine h _ _ s fun t ht => ?_
  simp only [below, ht, dif_pos]
  rfl

theorem causal_const (r : Reading σ β) : Causal fun _ : Reading σ α => r :=
  fun _ _ _ _ => rfl

theorem causal_self : Causal fun r : Reading σ α => r :=
  fun _ _ s h => h s (Nat.le_refl _)

theorem Causal.bind {γ : Type} {first : Reading σ α → Reading σ β}
    {next : β → Reading σ α → Reading σ γ} (hfirst : Causal first) (hnext : ∀ b, Causal (next b)) :
    Causal fun r => first r >>= fun b => next b r := by
  intro r r' s h
  have hle := remaining_run_le (first r') s
  rw [run_bind, run_bind, hfirst r r' s h]
  split
  · rename_i b t heq
    rw [heq] at hle
    exact hnext b r r' t fun u hu => h u (Nat.le_trans hu hle)
  · rfl

/-- Calls behind a step that takes a token are guarded. -/
theorem Guarded.bind {γ : Type} {first : Reading σ β} {next : β → Reading σ α → Reading σ γ}
    (hfirst : ∀ s b t, first.run s = .done b t → remaining t < remaining s)
    (hnext : ∀ b, Causal (next b)) :
    Guarded fun r => first >>= fun b => next b r := by
  intro r r' s h
  rw [run_bind, run_bind]
  split
  · rename_i b t heq
    exact hnext b r r' t fun u hu => h u (Nat.lt_of_le_of_lt hu (hfirst s b t heq))
  · rfl

end Reading

/-! ### Readers -/

namespace Reader

open Reading (state fail require)

/-- Take the next token. -/
def token : Reader Token where
  run c :=
    match c with
    | ⟨_, token :: ahead⟩ => .done token ⟨some token, ahead⟩
    | ⟨last, []⟩ => .stopped .endOfInput ⟨last, []⟩
  forward c := by
    obtain ⟨last, _ | ⟨token, ahead⟩⟩ := c
    · exact .refl _
    · exact .take

def take : Reader Lexeme :=
  return (← token).lexeme

/-- Look at the next token without taking it. -/
def peek : Reader Token := do
  require (← state).ahead.head? .endOfInput

/-- Whether the next token passes a test; at the end of the input none does. -/
def nextIs (test : Lexeme → Bool) : Reader Bool :=
  return (← state).nextIs test

/-- Take a token that has to pass a test. -/
def expect (wanted : Expectation) (test : Lexeme → Bool) : Reader Unit := do
  let found ← take
  if test found then pure () else fail (.expected wanted found)

def mark (wanted : Punctuation) : Reader Unit :=
  expect (.mark wanted) (Lexeme.isMark wanted)

def word (wanted : Keyword) : Reader Unit :=
  expect (.word wanted) (Lexeme.isWord wanted)

def operator (wanted : Operator) : Reader Unit :=
  expect (.operator wanted) (Lexeme.isOperator wanted)

def identifier : Reader String := do
  match ← take with
  | .identifier name => pure name
  | found => fail (.expected .identifier found)

/-- Complain about the next token, and take it so that the complaint points at it. -/
def reject {α : Type} (wanted : Expectation) : Reader α := do
  fail (.expected wanted (← take))

/-- Taking a token leaves one less ahead. -/
theorem remaining_take {σ : Type} [HasCursor σ] {s t : σ} {lexeme : Lexeme}
    (h : (liftM take : Reading σ Lexeme).run s = .done lexeme t) :
    remaining t + 1 = remaining s := by
  rw [Reading.run_lift] at h
  rcases hc : HasCursor.cursor s with ⟨last, _ | ⟨token, ahead⟩⟩
  · simp [hc, take, Reading.run_bind, Reader.token] at h
  · simp only [hc, take, Reading.run_bind, Reader.token, Reading.run_pure,
      Outcome.done.injEq] at h
    obtain ⟨_, rfl⟩ := h
    simp [remaining, Cursor.remaining, hc, HasCursor.cursor_setCursor]

end Reader

/-! ### Repetition -/

namespace Reading

variable {σ α γ : Type} [HasCursor σ]

/-- Take a token, read an item, and go on. -/
def itemThen (item : Reading σ α) (more : Reading σ (List α)) : Reading σ (List α) := do
  let _ ← Reader.take
  let first ← item
  let rest ← more
  pure (first :: rest)

/-- One turn of `many`: an item and whatever follows it, or nothing. -/
def manyStep (begins : Lexeme → Option γ) (item : γ → Reading σ α)
    (more : Reading σ (List α)) : Reading σ (List α) := do
  match (cursor (← state)).ahead.head?.bind (begins ·.lexeme) with
  | none => pure []
  | some start => itemThen (item start) more

/-- Read items as long as the next token begins one.  That token is taken, and the item gets what
    the test found in it. -/
def many (begins : Lexeme → Option γ) (item : γ → Reading σ α) : Reading σ (List α) :=
  fix (manyStep begins item)

theorem guarded_itemThen (item : Reading σ α) : Guarded (itemThen item) := by
  refine Guarded.bind (fun s _ t ht => ?_) fun _ => ?_
  · have := Reader.remaining_take ht
    omega
  · exact (causal_const _).bind fun _ => causal_self.bind fun _ => causal_const _

theorem guarded_manyStep (begins : Lexeme → Option γ) (item : γ → Reading σ α) :
    Guarded (manyStep begins item) := by
  intro r r' s h
  simp only [manyStep, run_bind, run_state]
  split
  · rfl
  · exact guarded_itemThen _ r r' s h

theorem run_many (begins : Lexeme → Option γ) (item : γ → Reading σ α) (s : σ) :
    (many begins item).run s = (manyStep begins item (many begins item)).run s :=
  run_fix (guarded_manyStep begins item) s

end Reading

end ClassLang
