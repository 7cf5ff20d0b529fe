/-
  ClassLang/Change.lean
  =====================
  **Changes that can be refused.**

  A change works on a state step by step, and a fault ends it.  Nothing puts the state
  back when that happens: what was done before the fault stays done, and that a refused
  change leaves the state as it was is a property of the change.
-/
import ClassLang.Fault

namespace ClassLang

/-- A change of a state, which a fault can end. -/
abbrev Change (σ : Type) : Type → Type := ExceptT Fault (StateM σ)

namespace Change

variable {σ α : Type}

/-- What comes of a change, and the state that it leaves. -/
def outcome (change : Change σ α) (s : σ) : Except Fault α × σ :=
  Id.run (change.run.run s)

/-- The state that a change leaves, whether or not it was refused. -/
def behind (change : Change σ α) (s : σ) : σ := (change.outcome s).2

/-- The state that a change leaves if it was not refused. -/
def result (change : Change σ α) (s : σ) : Except Fault σ :=
  match change.outcome s with
  | (.ok _, s') => .ok s'
  | (.error fault, _) => .error fault

/-! ### Outcomes of steps -/

variable {β : Type} {s : σ}

@[simp] theorem outcome_pure (a : α) : outcome (pure a : Change σ α) s = (.ok a, s) := rfl

@[simp] theorem outcome_throw (fault : Fault) :
    outcome (throw fault : Change σ α) s = (.error fault, s) := rfl

@[simp] theorem outcome_get : outcome (get : Change σ σ) s = (.ok s, s) := rfl

@[simp] theorem outcome_modify (f : σ → σ) :
    outcome (modify f : Change σ Unit) s = (.ok (), f s) := rfl

/-- Behind a step that was refused nothing happens any more. -/
theorem outcome_bind (change : Change σ α) (next : α → Change σ β) :
    outcome (change >>= next) s =
      match change.outcome s with
      | (.ok a, s') => (next a).outcome s'
      | (.error fault, s') => (.error fault, s') := by
  show Id.run (StateT.run (ExceptT.run (change >>= next)) s) = _
  simp only [ExceptT.run_bind, outcome]
  cases h : StateT.run (ExceptT.run change) s with
  | mk result s' => cases result <;> simp [StateT.run_bind, h] <;> rfl

theorem result_ok {change : Change σ α} {s' : σ} :
    change.result s = .ok s' ↔ ∃ a, change.outcome s = (.ok a, s') := by
  rw [result]
  cases change.outcome s with
  | mk result left => cases result <;> simp

theorem result_error {change : Change σ α} {fault : Fault} :
    change.result s = .error fault ↔ (change.outcome s).1 = .error fault := by
  rw [result]
  cases change.outcome s with
  | mk result left => cases result <;> simp

end Change

end ClassLang
