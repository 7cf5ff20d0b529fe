/-
  ClassLang/Proofs/Tables.lean
  ============================
  **How the table of classes grows.**

  For each operation on the table: when it succeeds and with which table, and what a
  name stands for afterwards.  A class is found by its name, so a change of one class
  leaves what every other name stands for as it was (`find?_replace`).
-/
import ClassLang.ClassTable
import ClassLang.Proofs.Taking

namespace ClassLang

theorem bind_eq_ok {ε α β : Type} {e : Except ε α} {f : α → Except ε β} {b : β} :
    (e >>= f) = .ok b ↔ ∃ a, e = .ok a ∧ f a = .ok b := by
  cases e with
  | error fault => exact ⟨fun h => by contradiction, fun ⟨_, h, _⟩ => by contradiction⟩
  | ok a => exact ⟨fun h => ⟨a, rfl, h⟩, fun ⟨_, heq, h⟩ => by cases heq; exact h⟩

theorem ClassDef.fieldIndex?_eq_none {d : ClassDef} {f : String} :
    d.fieldIndex? f = none ↔ f ∉ d.fields := by
  simp only [fieldIndex?, List.findIdx?_eq_none_iff, beq_eq_false_iff_ne]
  exact ⟨fun h hf => h f hf rfl, fun h x hx hxf => h (hxf ▸ hx)⟩

namespace ClassTable

variable {t t' : ClassTable} {d : ClassDef} {n : String}

theorem name_of_find? (h : t.find? n = some d) : d.name = n := by
  simpa using List.find?_some h

/-- A class put in the place of another one of its name is found by that name. -/
theorem find?_replace (t : ClassTable) (d : ClassDef) (n : String) :
    (t.replace d).find? n = if n = d.name then (t.find? n).map fun _ => d else t.find? n := by
  obtain ⟨classes, order, closed⟩ := t
  simp only [replace, find?]
  induction classes with
  | nil => simp
  | cons old rest ih =>
    rw [List.map_cons, List.find?_cons, List.find?_cons, ih]
    by_cases hold : old.name = d.name
    · by_cases hn : n = d.name
      · simp [hold, hn]
      · have hne : (d.name == n) = false := beq_eq_false_iff_ne.2 fun h => hn h.symm
        simp [hold, hn, hne]
    · by_cases hn : n = d.name
      · have hne : (old.name == d.name) = false := beq_eq_false_iff_ne.2 hold
        simp [hn, hne]
      · simp [hold, hn]

/-- The table with a new class, behind all others. -/
def enter (t : ClassTable) (n : String) : ClassTable :=
  ⟨t.classes ++ [⟨n, [], []⟩], t.order ++ [n], t.closed⟩

@[simp] theorem enter_classes (t : ClassTable) (n : String) :
    (t.enter n).classes = t.classes ++ [⟨n, [], []⟩] := rfl

@[simp] theorem enter_order (t : ClassTable) (n : String) :
    (t.enter n).order = t.order ++ [n] := rfl

@[simp] theorem enter_closed (t : ClassTable) (n : String) : (t.enter n).closed = t.closed := rfl

/-- A new class is found by its name, if no other class has it. -/
theorem find?_enter (t : ClassTable) (n m : String) :
    (t.enter n).find? m = (t.find? m).or (if n = m then some ⟨n, [], []⟩ else none) := by
  rw [find?, enter_classes, List.find?_append, ← find?]
  by_cases hname : n = m <;> simp [hname]

/-! ### Outcomes of changes -/

theorem outcome_entering (t : ClassTable) (n : String) :
    (entering n).outcome t =
      if (t.find? n).isSome then (.error (.duplicate (.className n)), t)
      else (.ok (), t.enter n) := by
  simp only [entering, Change.outcome_bind, Change.outcome_get]
  split <;> simp [Change.outcome_bind, enter]

theorem outcome_opening (t : ClassTable) (n : String) :
    (opening n).outcome t =
      if t.closed.contains n then (.error (.structural (.closedClass n)), t)
      else match t.find? n with
        | some d => (.ok d, t)
        | none => (.error (.undefined (.className n)), t) := by
  simp only [opening, Change.outcome_bind, Change.outcome_get]
  split
  · rfl
  · simp only [Change.outcome_bind, Change.outcome_get]
    cases t.find? n <;> rfl

theorem opening_ok : (opening n).outcome t = (.ok d, t') ↔
    n ∉ t.closed ∧ t.find? n = some d ∧ t' = t := by
  rw [outcome_opening]
  by_cases hclosed : n ∈ t.closed
  · simp [hclosed]
  · cases t.find? n <;> simp [hclosed, eq_comm]

/-- A class that is opened is all that opening leaves to see. -/
theorem behind_opening (t : ClassTable) (n : String) : (opening n).behind t = t := by
  rw [Change.behind, outcome_opening]
  split
  · rfl
  · split <;> rfl

variable {knows : ClassDef → Bool} {fault : Fault} {grown : ClassDef → ClassDef}

theorem growing_ok : (growing n knows fault grown).result t = .ok t' ↔
    ∃ d, n ∉ t.closed ∧ t.find? n = some d ∧ knows d = false ∧ t' = t.replace (grown d) := by
  simp only [Change.result_ok, growing, Change.outcome_bind]
  constructor
  · rintro ⟨u, hrun⟩
    cases hopen : (opening n).outcome t with
    | mk result left =>
      rw [hopen] at hrun
      cases result with
      | error fault => simp at hrun
      | ok d =>
        obtain ⟨hclosed, hfind, rfl⟩ := opening_ok.1 hopen
        cases hknows : knows d <;> simp [hknows] at hrun
        exact ⟨d, hclosed, hfind, hknows, hrun.symm⟩
  · rintro ⟨d, hclosed, hfind, hknows, rfl⟩
    rw [opening_ok.2 ⟨hclosed, hfind, rfl⟩]
    simp [hknows]

/-- What becomes of a class that can be opened. -/
theorem growing_eq (hopen : n ∉ t.closed) (hfind : t.find? n = some d) :
    (growing n knows fault grown).result t =
      if knows d then .error fault else .ok (t.replace (grown d)) := by
  rw [Change.result, growing, Change.outcome_bind, opening_ok.2 ⟨hopen, hfind, rfl⟩]
  cases hknows : knows d <;> simp [hknows]

theorem declareClass_eq (t : ClassTable) (n : String) :
    t.declareClass n =
      if (t.find? n).isSome then .error (.duplicate (.className n)) else .ok (t.enter n) := by
  rw [declareClass, Change.result, outcome_entering]
  cases (t.find? n).isSome <;> rfl

theorem declareClass_ok : t.declareClass n = .ok t' ↔ t.find? n = none ∧ t' = t.enter n := by
  rw [declareClass_eq]
  cases t.find? n <;> simp [eq_comm]

theorem addField_ok {f : String} : t.addField n f = .ok t' ↔
    ∃ d, n ∉ t.closed ∧ t.find? n = some d ∧ f ∉ d.fields ∧
      t' = t.replace { d with fields := d.fields ++ [f] } := by
  simp only [addField, addingField, growing_ok, Option.isSome_eq_false_iff,
    Option.isNone_iff_eq_none, ClassDef.fieldIndex?_eq_none]

theorem addMethod_ok {s : Signature} : t.addMethod n s = .ok t' ↔
    ∃ d, n ∉ t.closed ∧ t.find? n = some d ∧ d.method? s.name = none ∧
      t' = t.replace { d with methods := d.methods ++ [s] } := by
  simp only [addMethod, addingMethod, growing_ok, Option.isSome_eq_false_iff,
    Option.isNone_iff_eq_none]

/-! ### The class at hand -/

/-- The last class of the table is the one at hand: no other has its name, and it is not closed. -/
structure Opens (t : ClassTable) (above : List ClassDef) (d : ClassDef) : Prop where
  classes : t.classes = above ++ [d]
  fresh : d.name ∉ above.map (·.name)
  growing : d.name ∉ t.closed

variable {above : List ClassDef}

theorem find?_eq_none : t.find? n = none ↔ n ∉ t.classes.map (·.name) := by
  simp only [find?, List.find?_eq_none, beq_iff_eq, List.mem_map, not_exists, not_and]

theorem Opens.find? (h : t.Opens above d) : t.find? d.name = some d := by
  have habove : above.find? (·.name == d.name) = none := by
    simpa [List.find?_eq_none] using h.fresh
  rw [ClassTable.find?, h.classes, List.find?_append, habove]
  simp

theorem Opens.replace (h : t.Opens above d) {d' : ClassDef} (hname : d'.name = d.name) :
    t.replace d' = { t with classes := above ++ [d'] } := by
  have habove : above.map (fun old => if old.name == d'.name then d' else old) = above := by
    refine (List.map_congr_left fun old hold => ?_).trans (List.map_id above)
    have hne : old.name ≠ d'.name := fun heq =>
      h.fresh (by rw [← hname, ← heq]; exact List.mem_map_of_mem hold)
    simp [hne]
  rw [ClassTable.replace, h.classes, List.map_append, habove]
  simp [hname]

/-- A field of the class at hand is new to it, and goes behind its fields. -/
theorem Opens.addField_ok (h : t.Opens above d) {f : String} :
    t.addField d.name f = .ok t' ↔ f ∉ d.fields ∧
      t' = { t with classes := above ++ [{ d with fields := d.fields ++ [f] }] } := by
  rw [ClassTable.addField_ok]
  constructor
  · rintro ⟨d', -, hfind, hfield, rfl⟩
    obtain rfl : d = d' := Option.some.inj (h.find?.symm.trans hfind)
    exact ⟨hfield, h.replace rfl⟩
  · rintro ⟨hfield, rfl⟩
    exact ⟨d, h.growing, h.find?, hfield, (h.replace (by rfl)).symm⟩

/-- A method of the class at hand is new to it, and goes behind its methods. -/
theorem Opens.addMethod_ok (h : t.Opens above d) {s : Signature} :
    t.addMethod d.name s = .ok t' ↔ s.name ∉ d.methods.map (·.name) ∧
      t' = { t with classes := above ++ [{ d with methods := d.methods ++ [s] }] } := by
  have hmethod : d.method? s.name = none ↔ s.name ∉ d.methods.map (·.name) := by
    simp [ClassDef.method?, List.find?_eq_none]
  rw [ClassTable.addMethod_ok, ← hmethod]
  constructor
  · rintro ⟨d', -, hfind, hnew, rfl⟩
    obtain rfl : d = d' := Option.some.inj (h.find?.symm.trans hfind)
    exact ⟨hnew, h.replace rfl⟩
  · rintro ⟨hnew, rfl⟩
    exact ⟨d, h.growing, h.find?, hnew, (h.replace (by rfl)).symm⟩

end ClassTable

end ClassLang
