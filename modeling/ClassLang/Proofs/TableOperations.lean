/-
  ClassLang/Proofs/TableOperations.lean
  =====================================
  **Whatever is done to the table of classes.**

  The table is told to enter a class, to give it a field or a method, or to close it, in
  any order and about any name: one that no class has, one that is closed, one that has
  been closed before its class was there.  What a single operation does is said once, with
  all that it asks for (`Step`), and everything else is derived from that: what stays as
  it is for good (`Lasts`), which names are there, and that the fields of a class are
  numbered without gaps and keep their numbers.

  The pass over a program is one such run of operations (`Reached.exists_operations`).
-/
import ClassLang.Proofs.StepInvariants

namespace ClassLang

namespace ClassTable

/-! ### Operations -/

/-- The class that an operation is about. -/
def Operation.about : Operation → String
  | .declareClass name => name
  | .addField owner _ => owner
  | .addMethod owner _ => owner
  | .close name => name

/-- The table that an operation makes of another one, if it is not refused. -/
def perform (t : ClassTable) (operation : Operation) : Except Fault ClassTable :=
  operation.change.result t

/-- The table that an operation leaves, whether or not it is refused. -/
def behind (t : ClassTable) (operation : Operation) : ClassTable :=
  operation.change.behind t

/-- The table behind operations, one after the other. -/
def behindAll (t : ClassTable) (operations : List Operation) : ClassTable :=
  operations.foldl behind t

/-- The name that an operation enters, if it does. -/
def newName? (t : ClassTable) : Operation → Option String
  | .declareClass name => (t.declareClass name).toOption.map fun _ => name
  | _ => none

/-- The names that operations enter, in the order in which they do. -/
def newNames (t : ClassTable) : List Operation → List String
  | [] => []
  | operation :: rest => (t.newName? operation).toList ++ (t.behind operation).newNames rest

/-! ### What one operation does -/

/-- Everything that an operation can do to a table, and what it asks for. -/
inductive Step (t : ClassTable) : Operation → ClassTable → Prop where
  | declareClass {name : String} (hnew : t.find? name = none) :
      Step t (.declareClass name) (t.enter name)
  | addField {owner field : String} {d : ClassDef} (hopen : owner ∉ t.closed)
      (hfind : t.find? owner = some d) (hnew : field ∉ d.fields) :
      Step t (.addField owner field) (t.replace { d with fields := d.fields ++ [field] })
  | addMethod {owner : String} {signature : Signature} {d : ClassDef} (hopen : owner ∉ t.closed)
      (hfind : t.find? owner = some d) (hnew : d.method? signature.name = none) :
      Step t (.addMethod owner signature)
        (t.replace { d with methods := d.methods ++ [signature] })
  | close {name : String} : Step t (.close name) (t.close name)

variable {t t' t'' : ClassTable} {operation : Operation} {n : String} {d : ClassDef}

theorem perform_ok : t.perform operation = .ok t' ↔ t.Step operation t' := by
  cases operation with
  | declareClass name =>
    show t.declareClass name = .ok t' ↔ _
    rw [declareClass_ok]
    constructor
    · rintro ⟨hnew, rfl⟩
      exact .declareClass hnew
    · intro h
      cases h with
      | declareClass hnew => exact ⟨hnew, rfl⟩
  | addField owner field =>
    show t.addField owner field = .ok t' ↔ _
    rw [addField_ok]
    constructor
    · rintro ⟨d, hopen, hfind, hnew, rfl⟩
      exact .addField hopen hfind hnew
    · intro h
      cases h with
      | addField hopen hfind hnew => exact ⟨_, hopen, hfind, hnew, rfl⟩
  | addMethod owner signature =>
    show t.addMethod owner signature = .ok t' ↔ _
    rw [addMethod_ok]
    constructor
    · rintro ⟨d, hopen, hfind, hnew, rfl⟩
      exact .addMethod hopen hfind hnew
    · intro h
      cases h with
      | addMethod hopen hfind hnew => exact ⟨_, hopen, hfind, hnew, rfl⟩
  | close name =>
    have hclose : t.perform (.close name) = .ok (t.close name) := rfl
    rw [hclose, Except.ok.injEq]
    constructor
    · rintro rfl
      exact .close
    · intro h
      cases h with
      | close => rfl

/-- A class that cannot be opened, or knows what is new, is left as it is. -/
theorem behind_growing {name : String} {knows : ClassDef → Bool} {fault fault' : Fault}
    {grown : ClassDef → ClassDef} (h : (growing name knows fault grown).result t = .error fault') :
    (growing name knows fault grown).behind t = t := by
  have hkept := behind_opening t name
  rw [Change.behind] at hkept ⊢
  rw [Change.result_error, growing, Change.outcome_bind] at h
  rw [growing, Change.outcome_bind]
  cases hopen : (opening name).outcome t with
  | mk result left =>
    rw [hopen] at h hkept
    cases result with
    | error _ => exact hkept
    | ok d =>
      obtain rfl : left = t := hkept
      cases hknows : knows d with
      | true => simp [hknows]
      | false => simp [hknows] at h

/-- An operation that is refused leaves the table as it was: whatever can go wrong is looked at
    before the first of the three collections is touched. -/
theorem behind_of_error {fault : Fault} (h : t.perform operation = .error fault) :
    t.behind operation = t := by
  cases operation with
  | declareClass name =>
    rw [perform, Operation.change, Change.result_error, outcome_entering] at h
    rw [behind, Operation.change, Change.behind, outcome_entering]
    cases hfind : t.find? name with
    | some d => rfl
    | none =>
      rw [hfind] at h
      cases h
  | addField owner field => exact behind_growing h
  | addMethod owner signature => exact behind_growing h
  | close name => cases h

theorem behind_of_ok (h : t.perform operation = .ok t') : t.behind operation = t' := by
  obtain ⟨u, hrun⟩ := Change.result_ok.1 h
  rw [behind, Change.behind, hrun]

/-- An operation is refused or does what it is for. -/
theorem behind_eq_or_step (t : ClassTable) (operation : Operation) :
    t.behind operation = t ∨ t.Step operation (t.behind operation) := by
  cases h : t.perform operation with
  | error fault => exact .inl (behind_of_error h)
  | ok t' =>
    right
    rw [behind_of_ok h]
    exact perform_ok.1 h

/-- New fields go behind those of the class at hand, one after the other. -/
theorem Opens.behindAll_addField {above : List ClassDef} (h : t.Opens above d)
    {fields : List String} (hfields : (d.fields ++ fields).Nodup) :
    t.behindAll (fields.map fun f => .addField d.name f) =
      { t with classes := above ++ [{ d with fields := d.fields ++ fields }] } := by
  induction fields generalizing t d with
  | nil =>
    rw [List.append_nil, ← h.classes]
    rfl
  | cons f fields ih =>
    have hf : f ∉ d.fields := fun hmem =>
      (List.nodup_append.1 hfields).2.2 f hmem f (List.mem_cons_self ..) rfl
    have hbehind : t.behind (.addField d.name f) =
        { t with classes := above ++ [{ d with fields := d.fields ++ [f] }] } :=
      behind_of_ok (h.addField_ok.2 ⟨hf, rfl⟩)
    rw [List.append_cons] at hfields
    have hrest := ih (t := t.behind (.addField d.name f))
      (d := { d with fields := d.fields ++ [f] }) (by rw [hbehind]; exact ⟨rfl, h.fresh, h.growing⟩)
      hfields
    rw [hbehind, List.append_assoc] at hrest
    rw [List.map_cons, behindAll, List.foldl_cons, hbehind]
    exact hrest

/-- What all steps keep is kept by every operation. -/
theorem behind_of_step {R : ClassTable → Prop} (hsame : R t)
    (hstep : ∀ t', t.Step operation t' → R t') : R (t.behind operation) := by
  rcases t.behind_eq_or_step operation with h | h
  · rw [h]
    exact hsame
  · exact hstep _ h

theorem find?_replace_of_ne {new : ClassDef} (h : n ≠ new.name) :
    (t.replace new).find? n = t.find? n := by
  rw [find?_replace, if_neg h]

/-- Other classes are found as before. -/
theorem Step.find?_of_ne (h : t.Step operation t') (hn : n ≠ operation.about) :
    t'.find? n = t.find? n := by
  cases h with
  | @declareClass name hnew =>
    have hname : name ≠ n := Ne.symm hn
    rw [find?_enter, if_neg hname, Option.or_none]
  | addField hopen hfind hnew =>
    rw [← name_of_find? hfind] at hn
    exact find?_replace_of_ne hn
  | addMethod hopen hfind hnew =>
    rw [← name_of_find? hfind] at hn
    exact find?_replace_of_ne hn
  | close => rfl

theorem Step.mem_closed_of_ne (h : t.Step operation t') (hn : n ≠ operation.about) :
    n ∈ t'.closed ↔ n ∈ t.closed := by
  cases h with
  | @close name =>
    show n ∈ name :: t.closed ↔ n ∈ t.closed
    rw [List.mem_cons]
    exact or_iff_right hn
  | _ => exact Iff.rfl

/-! ### What lasts -/

/-- What is in the first table for good: a class keeps its fields and methods and their places, a
    closed name stays closed, and a class of such a name stays as it is altogether. -/
structure Lasts (t t' : ClassTable) : Prop where
  closed : t.closed ⊆ t'.closed
  grows : ∀ n d, t.find? n = some d → ∃ d', t'.find? n = some d' ∧
    d.fields <+: d'.fields ∧ d.methods <+: d'.methods
  fixed : ∀ n d, n ∈ t.closed → t.find? n = some d → t'.find? n = some d

theorem Lasts.refl (t : ClassTable) : t.Lasts t :=
  ⟨List.Subset.refl _, fun _ d h => ⟨d, h, List.prefix_refl _, List.prefix_refl _⟩,
    fun _ _ _ h => h⟩

theorem Lasts.trans (h : t.Lasts t') (h' : t'.Lasts t'') : t.Lasts t'' where
  closed := List.Subset.trans h.closed h'.closed
  grows := by
    intro n d hfind
    obtain ⟨d', hfind', hfields, hmethods⟩ := h.grows n d hfind
    obtain ⟨d'', hfind'', hfields', hmethods'⟩ := h'.grows n d' hfind'
    exact ⟨d'', hfind'', hfields.trans hfields', hmethods.trans hmethods'⟩
  fixed := by
    intro n d hclosed hfind
    exact h'.fixed n d (h.closed hclosed) (h.fixed n d hclosed hfind)

/-- A class that is open is put in the place of the one of its name. -/
theorem lasts_replace {owner : String} {new : ClassDef} (hopen : owner ∉ t.closed)
    (hfind : t.find? owner = some d) (hname : new.name = owner) (hfields : d.fields <+: new.fields)
    (hmethods : d.methods <+: new.methods) : t.Lasts (t.replace new) where
  closed := List.Subset.refl _
  grows := by
    intro n e he
    rw [find?_replace, hname]
    by_cases hn : n = owner
    · subst hn
      rw [if_pos rfl, he]
      obtain rfl : e = d := Option.some.inj (he.symm.trans hfind)
      exact ⟨new, rfl, hfields, hmethods⟩
    · rw [if_neg hn]
      exact ⟨e, he, List.prefix_refl _, List.prefix_refl _⟩
  fixed := by
    intro n e hclosed he
    have hn : n ≠ new.name := by
      rintro rfl
      rw [hname] at hclosed
      exact hopen hclosed
    rw [find?_replace_of_ne hn]
    exact he

theorem Step.lasts (h : t.Step operation t') : t.Lasts t' := by
  cases h with
  | @declareClass name hnew =>
    have hkept : ∀ n d, t.find? n = some d →
        (t.enter name).find? n = some d := by
      intro n d hfind
      rw [find?_enter, hfind, Option.some_or]
    refine ⟨List.Subset.refl _, ?_, ?_⟩
    · intro n d hfind
      exact ⟨d, hkept n d hfind, List.prefix_refl _, List.prefix_refl _⟩
    · intro n d _ hfind
      exact hkept n d hfind
  | addField hopen hfind hnew =>
    have hname := name_of_find? hfind
    exact lasts_replace hopen hfind hname (List.prefix_append _ _) (List.prefix_refl _)
  | addMethod hopen hfind hnew =>
    have hname := name_of_find? hfind
    exact lasts_replace hopen hfind hname (List.prefix_refl _) (List.prefix_append _ _)
  | @close name =>
    refine ⟨List.subset_cons_self _ _, ?_, ?_⟩
    · intro n d hfind
      exact ⟨d, hfind, List.prefix_refl _, List.prefix_refl _⟩
    · intro n d _ hfind
      exact hfind

theorem lasts_behind (t : ClassTable) (operation : Operation) : t.Lasts (t.behind operation) :=
  behind_of_step (.refl t) fun _ hstep => hstep.lasts

theorem lasts_behindAll (t : ClassTable) (operations : List Operation) :
    t.Lasts (t.behindAll operations) := by
  induction operations generalizing t with
  | nil => exact .refl t
  | cons operation rest ih => exact (t.lasts_behind operation).trans (ih _)

/-! ### Names -/

/-- Names are in the table once, and so are the fields and the methods of a class in it; and the
    collection of the names in order has the names of the classes. -/
structure Tidy (t : ClassTable) : Prop extends Distinct t where
  fields : ∀ d ∈ t.classes, d.fields.Nodup
  order : t.order = t.classes.map (·.name)

theorem tidy_empty : empty.Tidy :=
  ⟨⟨List.nodup_nil, nofun⟩, nofun, rfl⟩

theorem Tidy.replace (h : t.Tidy) {new : ClassDef} (hmethods : (new.methods.map (·.name)).Nodup)
    (hfields : new.fields.Nodup) : (t.replace new).Tidy := by
  refine ⟨h.toDistinct.replace hmethods, ?_, ?_⟩
  · intro e he
    obtain ⟨old, hold, rfl⟩ := List.mem_map.1 he
    by_cases hname : old.name = new.name
    · simpa [hname] using hfields
    · simpa [hname] using h.fields old hold
  · rw [map_name_replace]
    exact h.order

theorem Step.tidy (h : t.Step operation t') (ht : t.Tidy) : t'.Tidy := by
  cases h with
  | declareClass hnew =>
    refine ⟨ht.toDistinct.declareClass (declareClass_ok.2 ⟨hnew, rfl⟩), ?_, ?_⟩
    · intro e he
      rcases List.mem_append.1 he with he | he
      · exact ht.fields e he
      · rw [List.mem_singleton.1 he]
        exact List.nodup_nil
    · rw [enter_order, ht.order, enter_classes, List.map_append]
      rfl
  | @addField owner field d hopen hfind hnew =>
    have hd := List.mem_of_find?_eq_some hfind
    apply ht.replace
    · exact ht.methods d hd
    · apply List.nodup_append.2
      refine ⟨ht.fields d hd, List.nodup_singleton _, ?_⟩
      intro f hf g hg heq
      rw [heq, List.mem_singleton.1 hg] at hf
      exact hnew hf
  | @addMethod owner signature d hopen hfind hnew =>
    have hd := List.mem_of_find?_eq_some hfind
    exact ht.replace (ClassDef.nodup_methods_snoc (ht.methods d hd) hnew) (ht.fields d hd)
  | close => exact ⟨⟨ht.classes, ht.methods⟩, ht.fields, ht.order⟩

theorem Tidy.behindAll (h : t.Tidy) (operations : List Operation) :
    (t.behindAll operations).Tidy := by
  induction operations generalizing t with
  | nil => exact h
  | cons operation rest ih => exact ih (behind_of_step h fun _ hstep => hstep.tidy h)

/-- An operation adds the name that it enters behind the others, and no other name. -/
theorem map_name_behind (t : ClassTable) (operation : Operation) :
    (t.behind operation).classes.map (·.name) =
      t.classes.map (·.name) ++ (t.newName? operation).toList := by
  cases h : t.perform operation with
  | error fault =>
    have hnone : t.newName? operation = none := by
      cases operation with
      | declareClass name =>
        have hdeclare : t.declareClass name = .error fault := h
        rw [newName?, hdeclare]
        rfl
      | _ => rfl
    rw [behind_of_error h, hnone, Option.toList_none, List.append_nil]
  | ok t' =>
    rw [behind_of_ok h]
    cases perform_ok.1 h with
    | @declareClass name hnew =>
      have hdeclare : t.declareClass name = .ok _ := h
      rw [newName?, hdeclare]
      exact List.map_append
    | addField => simp [newName?, map_name_replace]
    | addMethod => simp [newName?, map_name_replace]
    | close => simp [newName?, ClassTable.close]

theorem map_name_behindAll (t : ClassTable) (operations : List Operation) :
    (t.behindAll operations).classes.map (·.name) =
      t.classes.map (·.name) ++ t.newNames operations := by
  induction operations generalizing t with
  | nil => exact (List.append_nil _).symm
  | cons operation rest ih =>
    have hrest := ih (t.behind operation)
    rw [map_name_behind, List.append_assoc] at hrest
    exact hrest

/-- Who is told to enter a name has it afterwards, then or from before. -/
theorem mem_map_name_behind :
    n ∈ (t.behind operation).classes.map (·.name) ↔
      n ∈ t.classes.map (·.name) ∨ operation = .declareClass n := by
  rw [map_name_behind, List.mem_append, Option.mem_toList]
  cases operation with
  | declareClass name =>
    by_cases hknown : t.find? name = none
    · have hdeclare := declareClass_ok.2 ⟨hknown, rfl⟩
      simp [newName?, hdeclare, Except.toOption, eq_comm]
    · have hname : name ∈ t.classes.map (·.name) := by
        by_contra habsent
        exact hknown (find?_eq_none.2 habsent)
      constructor
      · rintro (h | h)
        · exact .inl h
        · obtain ⟨_, -, rfl⟩ := Option.map_eq_some_iff.1 h
          exact .inl hname
      · rintro (h | h)
        · exact .inl h
        · cases h
          exact .inl hname
  | _ => simp [newName?]

theorem mem_map_name_behindAll {operations : List Operation} :
    n ∈ (t.behindAll operations).classes.map (·.name) ↔
      n ∈ t.classes.map (·.name) ∨ .declareClass n ∈ operations := by
  induction operations generalizing t with
  | nil => simp [behindAll]
  | cons operation rest ih =>
    have hrest := ih (t := t.behind operation)
    rw [mem_map_name_behind, or_assoc] at hrest
    rw [List.mem_cons, eq_comm (a := Operation.declareClass n)]
    exact hrest

end ClassTable

/-! ### Fields and their indices -/

/-- The index of a field is its place among the fields. -/
theorem ClassDef.fieldIndex?_eq_some {d : ClassDef} (h : d.fields.Nodup) {f : String} {i : Nat} :
    d.fieldIndex? f = some i ↔ d.fields[i]? = some f := by
  rw [fieldIndex?, List.findIdx?_eq_some_iff_getElem, List.getElem?_eq_some_iff]
  constructor
  · rintro ⟨hi, hf, -⟩
    exact ⟨hi, by simpa using hf⟩
  · rintro ⟨hi, rfl⟩
    refine ⟨hi, by simp, ?_⟩
    intro j hj heq
    have hlength : j < d.fields.length := Nat.lt_trans hj hi
    have hfield : d.fields[j] = d.fields[i] := by simpa using heq
    exact absurd (h.getElem_inj_iff.1 hfield) (Nat.ne_of_lt hj)

namespace ClassTable

variable {t : ClassTable} {c f g : String} {i : Nat}

theorem fieldIndex?_eq_some : t.fieldIndex? c f = some i ↔
    ∃ d, t.find? c = some d ∧ d.fieldIndex? f = some i := by
  rw [fieldIndex?, Option.bind_eq_some_iff]

/-- The fields of a class are numbered: each has a number, the numbers are those below the count of
    the fields, and no two fields have the same. -/
structure Numbers (t : ClassTable) (c : String) : Prop where
  total : ∀ f, (∃ i, t.fieldIndex? c f = some i) ↔ ∃ d, t.find? c = some d ∧ f ∈ d.fields
  onto : ∀ i, i < t.fieldCount c ↔ ∃ f, t.fieldIndex? c f = some i
  injective : ∀ f g i, t.fieldIndex? c f = some i → t.fieldIndex? c g = some i → f = g

theorem Tidy.numbers (h : t.Tidy) (c : String) : t.Numbers c := by
  have hindex : ∀ f i, t.fieldIndex? c f = some i ↔
      ∃ d, t.find? c = some d ∧ d.fields[i]? = some f := by
    intro f i
    rw [fieldIndex?_eq_some]
    refine exists_congr fun d => and_congr_right fun hd => ?_
    exact ClassDef.fieldIndex?_eq_some (h.fields d (List.mem_of_find?_eq_some hd))
  refine ⟨?_, ?_, ?_⟩
  · intro f
    simp only [hindex, List.mem_iff_getElem?]
    constructor
    · rintro ⟨i, d, hd, hi⟩
      exact ⟨d, hd, i, hi⟩
    · rintro ⟨d, hd, i, hi⟩
      exact ⟨i, d, hd, hi⟩
  · intro i
    simp only [hindex, fieldCount]
    cases hfind : t.find? c with
    | none => simp
    | some d => simp [List.getElem?_eq_some_iff]
  · intro f g i hf hg
    obtain ⟨d, hd, hi⟩ := (hindex f i).1 hf
    obtain ⟨e, he, hj⟩ := (hindex g i).1 hg
    obtain rfl : d = e := Option.some.inj (hd.symm.trans he)
    exact Option.some.inj (hi.symm.trans hj)

/-- Fields keep their indices. -/
theorem Lasts.fieldIndex? {t' : ClassTable} (h : t.Lasts t') (hindex : t.fieldIndex? c f = some i) :
    t'.fieldIndex? c f = some i := by
  obtain ⟨d, hd, hi⟩ := fieldIndex?_eq_some.1 hindex
  obtain ⟨d', hd', ⟨more, hmore⟩, -⟩ := h.grows c d hd
  refine fieldIndex?_eq_some.2 ⟨d', hd', ?_⟩
  rw [ClassDef.fieldIndex?] at hi ⊢
  rw [← hmore, List.findIdx?_append, hi, Option.some_or]

theorem slotBytes_eq_fieldCount (t : ClassTable) (c : String) :
    t.slotBytes (.object c) = 4 * t.fieldCount c := by
  rw [slotBytes, fieldCount]
  cases t.find? c <;> rfl

theorem slotSize_eq_fieldCount (t : ClassTable) (c : String) :
    t.slotSize (.object c) = 4 * UInt32.ofNat (t.fieldCount c) := by
  rw [slotSize, fieldCount]
  cases t.find? c <;> rfl

/-! ### The statement -/

/-- What a table promises: about the classes in it, and about whatever will be done to it. -/
structure Lawful (t : ClassTable) : Prop where
  names : (t.classes.map (·.name)).Nodup
  listed : t.inOrder = t.classes
  found : ∀ d, t.find? d.name = some d ↔ d ∈ t.classes
  fields : ∀ d ∈ t.classes, d.fields.Nodup
  methods : ∀ d ∈ t.classes, (d.methods.map (·.name)).Nodup
  numbered : ∀ c, t.Numbers c
  stable : ∀ c f i, t.fieldIndex? c f = some i →
    ∀ later, (t.behindAll later).fieldIndex? c f = some i
  size : ∀ c, t.slotBytes (.object c) = 4 * t.fieldCount c
  word : ∀ c, t.slotSize (.object c) = 4 * UInt32.ofNat (t.fieldCount c)
  performed : ∀ operation t', t.perform operation = .ok t' ↔ t.Step operation t'
  refused : ∀ operation fault, t.perform operation = .error fault → t.behind operation = t
  apart : ∀ operation c, c ≠ operation.about →
    (t.behind operation).find? c = t.find? c ∧
      (c ∈ (t.behind operation).closed ↔ c ∈ t.closed)
  sealed : ∀ c d, t.find? c = some d →
    ∀ later, (t.behindAll (.close c :: later)).find? c = some d

theorem Tidy.found (h : t.Tidy) (d : ClassDef) : t.find? d.name = some d ↔ d ∈ t.classes := by
  constructor
  · exact List.mem_of_find?_eq_some
  · intro hd
    cases hfind : t.find? d.name with
    | none => exact absurd (List.mem_map_of_mem hd) (find?_eq_none.1 hfind)
    | some e =>
      have hname := name_of_find? hfind
      have he := List.mem_of_find?_eq_some hfind
      rw [List.inj_on_of_nodup_map h.classes he hd hname]

/-- The classes in the order of their headers are all classes: the names in order lead to them. -/
theorem Tidy.inOrder (h : t.Tidy) : t.inOrder = t.classes := by
  rw [ClassTable.inOrder, h.order, List.filterMap_map]
  have hfound : ∀ d ∈ t.classes, (t.find? ∘ ClassDef.name) d = some d :=
    fun d hd => (h.found d).2 hd
  rw [List.filterMap_congr hfound, List.filterMap_some]

theorem Tidy.lawful (h : t.Tidy) : t.Lawful where
  names := h.classes
  listed := h.inOrder
  found := h.found
  fields := h.fields
  methods := h.methods
  numbered := h.numbers
  stable := by
    intro c f i hindex later
    exact (t.lasts_behindAll later).fieldIndex? hindex
  size := t.slotBytes_eq_fieldCount
  word := t.slotSize_eq_fieldCount
  performed := fun _ _ => perform_ok
  refused := fun _ _ => behind_of_error
  apart := by
    intro operation c hc
    apply behind_of_step (R := fun t' => t'.find? c = t.find? c ∧ (c ∈ t'.closed ↔ c ∈ t.closed))
    · exact ⟨rfl, Iff.rfl⟩
    · intro t' hstep
      exact ⟨hstep.find?_of_ne hc, hstep.mem_closed_of_ne hc⟩
  sealed := by
    intro c d hfind later
    have hclosed : c ∈ (t.close c).closed := List.mem_cons_self ..
    exact ((t.close c).lasts_behindAll later).fixed c d hclosed hfind

end ClassTable

/-- Whatever has been done to a new table, in whatever order, with success or without: it has
    the classes that were entered, each once and in that order; fields and methods are distinct
    in each; the fields are numbered, keep their numbers, and give the class its size.  From
    there on an operation does one thing to the class that it is about, or nothing at all if it
    fails, and nothing to any other class; and a class that is there when it is closed never
    changes again. -/
theorem table_lawful (operations : List ClassTable.Operation) :
    (ClassTable.empty.behindAll operations).Lawful ∧
      (ClassTable.empty.behindAll operations).classes.map (·.name) =
        ClassTable.empty.newNames operations ∧
      ∀ name, name ∈ ClassTable.empty.newNames operations ↔ .declareClass name ∈ operations := by
  have hnames := ClassTable.empty.map_name_behindAll operations
  refine ⟨(ClassTable.tidy_empty.behindAll operations).lawful, hnames, ?_⟩
  intro name
  have hmem : name ∈ (ClassTable.empty.behindAll operations).classes.map (·.name) ↔
      name ∈ [] ∨ .declareClass name ∈ operations := ClassTable.mem_map_name_behindAll
  rw [hnames, or_iff_right List.not_mem_nil] at hmem
  exact hmem

/-- A name that is closed before its class is there: the class is entered and never gets a field. -/
example : (ClassTable.empty.behindAll [.close "A", .declareClass "B", .declareClass "A",
    .addField "A" "x", .addField "B" "x", .declareClass "A", .addField "B" "x"]).classes =
      [⟨"B", ["x"], []⟩, ⟨"A", [], []⟩] := by decide

/-! ### The pass -/

theorem ClassTable.behindAll_append (t : ClassTable)
    (operations later : List ClassTable.Operation) :
    t.behindAll (operations ++ later) = (t.behindAll operations).behindAll later :=
  List.foldl_append

/-- A step of the pass does at most one thing to the table. -/
theorem Stage.Effect.exists_operations {stage : Stage} {S S' : Standing} {move : Move}
    (h : stage.Effect S move S') : ∃ operations, S'.table = S.table.behindAll operations := by
  cases h with
  | @openClass _ name table htable =>
    have hperform : S.table.perform (.declareClass name) = .ok table := htable
    exact ⟨[.declareClass name], (ClassTable.behind_of_ok hperform).symm⟩
  | @field _ owner f table htable =>
    have hperform : S.table.perform (.addField owner f) = .ok table := htable
    exact ⟨[.addField owner f], (ClassTable.behind_of_ok hperform).symm⟩
  | @method _ owner name _ parameter table hparameter htable =>
    have hperform : S.table.perform (.addMethod owner ⟨name, parameter⟩) = .ok table := htable
    exact ⟨[.addMethod owner ⟨name, parameter⟩], (ClassTable.behind_of_ok hperform).symm⟩
  | @closeClass _ owner => exact ⟨[.close owner], rfl⟩
  | simple hsimple => exact ⟨[], hsimple.keeps.table⟩
  | _ => exact ⟨[], rfl⟩

/-- At every moment of the pass the table is one that operations on a new one lead to. -/
theorem Reached.exists_operations {tokens : List Token} {P : Progress} (h : Reached tokens P) :
    ∃ operations, P.state.table = ClassTable.empty.behindAll operations := by
  induction h with
  | refl => exact ⟨[], rfl⟩
  | tail _ hstep ih =>
    obtain ⟨operations, htable⟩ := ih
    cases hstep with
    | @intro move τ htakes =>
      obtain ⟨stage, -, heffect⟩ := htakes.exists_effect
      obtain ⟨more, hmore⟩ := heffect.exists_operations
      refine ⟨operations ++ more, ?_⟩
      rw [ClassTable.behindAll_append, ← htable]
      exact hmore

/-- So at every moment the classes in the order of their headers are all classes. -/
theorem Reached.inOrder {tokens : List Token} {P : Progress} (h : Reached tokens P) :
    P.state.table.inOrder = P.state.table.classes := by
  obtain ⟨operations, htable⟩ := h.exists_operations
  rw [htable]
  exact (ClassTable.tidy_empty.behindAll operations).inOrder

end ClassLang
