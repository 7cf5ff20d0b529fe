/-
  ClassLang/Proofs/StepInvariants.lean
  ====================================
  **What holds at every moment of the pass.**

  Three things are carried along the rules of `Stage.Effect`.  `Standing.Coherent` is
  about the state alone: names are in the table once, variables are of classes that the
  table has, and every string variable has an entry of its own.  `Stage.Shape` is about
  the table and the stage: the class at hand is the last one and still open, and all
  others are complete.  The rest of `Progress.Regular` is about the listings: there is
  one for each method of the table, in its order, it begins with its own label, and
  the last one is that of the routine being read.

  No token list is excluded (`Reached.regular`): a program that will be rejected further
  down has the same moments up to there.
-/
import Mathlib.Data.List.Flatten
import ClassLang.Proofs.LabelClosure
import ClassLang.Proofs.SeparateTranslation
import ClassLang.Proofs.StepEffects

namespace ClassLang

/-! ### The table -/

/-- A method whose name is new goes behind methods with distinct names. -/
theorem ClassDef.nodup_methods_snoc {d : ClassDef} {s : Signature}
    (h : (d.methods.map (·.name)).Nodup) (hnew : d.method? s.name = none) :
    ((d.methods ++ [s]).map (·.name)).Nodup := by
  rw [List.map_append, List.nodup_append]
  refine ⟨h, List.nodup_singleton _, ?_⟩
  intro n hn m hm heq
  obtain ⟨old, hold, rfl⟩ := List.mem_map.1 hn
  rw [ClassDef.method?, List.find?_eq_none] at hnew
  exact hnew old hold (by simpa using heq.trans (List.mem_singleton.1 hm))

namespace ClassTable

variable {t t' : ClassTable} {type : Ty}

theorem knows_iff : t.Knows type ↔ ∀ c, type = .object c → c ∈ t.classes.map (·.name) := by
  refine forall_congr' fun c => imp_congr_right fun _ => ?_
  rw [← Option.ne_none_iff_isSome, ne_eq, find?_eq_none, not_not]

theorem Knows.mono (h : t.Knows type) (hnames : t.classes.map (·.name) ⊆ t'.classes.map (·.name)) :
    t'.Knows type :=
  knows_iff.2 fun c hc => hnames (knows_iff.1 h c hc)

theorem map_name_replace (t : ClassTable) (d : ClassDef) :
    (t.replace d).classes.map (·.name) = t.classes.map (·.name) := by
  rw [replace, List.map_map]
  refine List.map_congr_left fun old _ => ?_
  by_cases hname : old.name = d.name <;> simp [hname]

theorem map_name_declareClass {n : String} (hdeclare : t.declareClass n = .ok t') :
    t'.classes.map (·.name) = t.classes.map (·.name) ++ [n] := by
  obtain ⟨-, rfl⟩ := declareClass_ok.1 hdeclare
  exact List.map_append

theorem Distinct.declareClass (h : t.Distinct) {n : String}
    (hdeclare : t.declareClass n = .ok t') : t'.Distinct := by
  refine ⟨?_, ?_⟩
  · rw [map_name_declareClass hdeclare]
    refine List.nodup_append.2 ⟨h.classes, List.nodup_singleton _, ?_⟩
    intro old hold new hnew heq
    rw [heq, List.mem_singleton.1 hnew] at hold
    exact find?_eq_none.1 (declareClass_ok.1 hdeclare).1 hold
  · obtain ⟨-, rfl⟩ := declareClass_ok.1 hdeclare
    intro d hd
    rcases List.mem_append.1 hd with hd | hd
    · exact h.methods d hd
    · rw [List.mem_singleton.1 hd]
      exact List.nodup_nil

theorem Distinct.replace (h : t.Distinct) {d : ClassDef} (hd : (d.methods.map (·.name)).Nodup) :
    (t.replace d).Distinct := by
  refine ⟨by rw [map_name_replace]; exact h.classes, fun e he => ?_⟩
  obtain ⟨old, hold, rfl⟩ := List.mem_map.1 he
  by_cases hname : old.name = d.name
  · simpa [hname] using hd
  · simpa [hname] using h.methods old hold

end ClassTable

/-! ### The state -/

namespace Scope

/-- The labels of the string variables in sight. -/
def labels (scope : Scope) : List String :=
  scope.frames.flatten.filterMap (·.label)

theorem labels_extend (scope : Scope) (v : Symbol) :
    (scope.extend v).labels.Perm (v.label.toList ++ scope.labels) := by
  have hframes : (scope.extend v).frames.flatten =
      scope.frame ++ v :: scope.enclosing.flatten := by
    simp [extend, frames]
  have hcons : v.label.toList ++ scope.labels =
      (v :: (scope.frame ++ scope.enclosing.flatten)).filterMap (·.label) := by
    cases hlabel : v.label <;> simp [labels, frames, hlabel]
  rw [labels, hframes, hcons]
  exact List.perm_middle.filterMap _

theorem frames_pop (scope : Scope) : scope.pop.frames <:+ scope.frames := by
  unfold pop
  split
  · exact List.suffix_refl _
  · rename_i henclosing
    rw [frames, frames, henclosing]
    exact List.suffix_cons _ _

theorem labels_pop (scope : Scope) : scope.pop.labels.Sublist scope.labels :=
  (List.Sublist.flatten scope.frames_pop.sublist).filterMap _

end Scope

namespace Standing

variable {S S' : Standing}

/-- What holds of the classes, the scope and the strings at every moment. -/
structure Coherent (S : Standing) : Prop where
  sound : S.Sound
  closed : ∀ n ∈ S.table.closed, n ∈ S.table.classes.map (·.name)
  known : ∀ frame ∈ S.scope.frames, ∀ s ∈ frame, S.table.Knows s.type
  parameter : ∀ s ∈ S.scope.parameter, S.table.Knows s.type
  labelled : S.Labelled
  labels : S.scope.labels.Nodup

/-- The label of a string variable is found. -/
theorem Coherent.exists_entry (h : S.Coherent) {frame : Frame} {s : Symbol} {label : String}
    (hframe : frame ∈ S.scope.frames) (hs : s ∈ frame) (hlabel : s.label = some label) :
    ∃ e, S.data.find? label = some e := by
  obtain ⟨e, he, hname⟩ := List.mem_map.1 (h.labelled frame hframe s hs label hlabel)
  have hfound : (S.data.find? label).isSome = true :=
    List.find?_isSome.2 ⟨e, he, by simpa using hname⟩
  exact Option.isSome_iff_exists.1 hfound

/-- A change of the table that drops no class. -/
theorem Coherent.withTable (h : S.Coherent) (hscope : S'.scope = S.scope)
    (hentries : S'.data.entries = S.data.entries) (hdistinct : S'.table.Distinct)
    (hnames : S.table.classes.map (·.name) ⊆ S'.table.classes.map (·.name))
    (hclosed : ∀ n ∈ S'.table.closed, n ∈ S'.table.classes.map (·.name)) : S'.Coherent where
  sound := ⟨hdistinct, by rw [hscope]; exact h.sound.scope⟩
  closed := hclosed
  known := by
    intro frame hframe s hs
    rw [hscope] at hframe
    exact (h.known frame hframe s hs).mono hnames
  parameter := by
    intro s hs
    rw [hscope] at hs
    exact (h.parameter s hs).mono hnames
  labelled := by
    intro frame hframe s hs label hlabel
    rw [hscope] at hframe
    rw [hentries]
    exact h.labelled frame hframe s hs label hlabel
  labels := by
    rw [hscope]
    exact h.labels

/-- A class put in the place of another one of its name. -/
theorem Coherent.replace (h : S.Coherent) {d : ClassDef} (hd : (d.methods.map (·.name)).Nodup)
    (htable : S'.table = S.table.replace d) (hscope : S'.scope = S.scope)
    (hentries : S'.data.entries = S.data.entries) : S'.Coherent := by
  have hnames : S'.table.classes.map (·.name) = S.table.classes.map (·.name) := by
    rw [htable, ClassTable.map_name_replace]
  have hclosed : S'.table.closed = S.table.closed := by
    rw [htable]
    rfl
  refine h.withTable hscope hentries ?_ ?_ ?_
  · rw [htable]
    exact h.sound.table.replace hd
  · rw [hnames]
    exact List.Subset.refl _
  · rw [hclosed, hnames]
    exact h.closed

/-- At the beginning of a routine only the parameter is in sight. -/
theorem Coherent.begin (h : S.Coherent) {owner : Option String} {method : String}
    {parameter : Option Parameter} (hparameter : ∀ p ∈ parameter, S.table.Knows p.type) :
    (S.begin owner method parameter).Coherent where
  sound := by
    refine ⟨h.sound.table, ?_, ?_⟩
    · intro frame hframe s hs
      rw [List.mem_singleton.1 hframe] at hs
      cases hs
    · intro s hs
      obtain ⟨p, -, rfl⟩ := Option.map_eq_some_iff.1 hs
      exact ⟨rfl, rfl⟩
  closed := h.closed
  known := by
    intro frame hframe s hs
    rw [List.mem_singleton.1 hframe] at hs
    cases hs
  parameter := by
    intro s hs
    obtain ⟨p, hp, rfl⟩ := Option.map_eq_some_iff.1 hs
    exact hparameter p hp
  labelled := by
    intro frame hframe s hs
    rw [List.mem_singleton.1 hframe] at hs
    cases hs
  labels := List.nodup_nil

/-- A statement leaves the variables in sight as they are, or adds one of a class that the table
    has, with a label of its own if it has one. -/
theorem Elaborates.scope_cases {s : Tree.Simple} {command : Command}
    (h : S.Elaborates s command S') :
    S'.scope = S.scope ∨ ∃ v : Symbol, S'.scope = S.scope.extend v ∧ S.table.Knows v.type ∧
      ∀ label ∈ v.label, label ∉ S.data.entries.map (·.label) := by
  have hknown : ∀ {t : Tree.TypeName} {type : Ty}, S.type? t = some type → S.table.Knows type :=
    fun htype => Context.knows_of_declaredType (toOption_eq_some.1 htype)
  cases h with
  | number htype | create htype | copy htype =>
    exact .inr ⟨_, rfl, hknown htype, fun label hlabel => by cases hlabel⟩
  | text htype | string htype =>
    refine .inr ⟨_, rfl, hknown htype, fun label hlabel hmem => ?_⟩
    cases hlabel
    exact DataSection.freeLabel_notMem _ _ (List.mem_append_left _ hmem)
  | _ => exact .inl rfl

theorem Coherent.elaborates (h : S.Coherent) {s : Tree.Simple} {command : Command}
    (hs : S.Elaborates s command S') : S'.Coherent := by
  have htable := hs.keeps.table
  have hparameter := hs.keeps.parameter
  refine ⟨hs.sound h.sound, by rw [htable]; exact h.closed, ?_, ?_, hs.labelled h.labelled, ?_⟩
  · rw [htable]
    rcases hs.scope_cases with hscope | ⟨v, hscope, hknown, -⟩
    · rw [hscope]
      exact h.known
    · intro frame hframe t ht
      rw [hscope] at hframe
      rcases List.mem_cons.1 hframe with rfl | hframe
      · rcases List.mem_append.1 ht with ht | ht
        · exact h.known _ (List.mem_cons_self ..) t ht
        · rw [List.mem_singleton.1 ht]
          exact hknown
      · exact h.known frame (List.mem_cons_of_mem _ hframe) t ht
  · rw [htable, hparameter]
    exact h.parameter
  · rcases hs.scope_cases with hscope | ⟨v, hscope, -, hfresh⟩
    · rw [hscope]
      exact h.labels
    · rw [hscope, (Scope.labels_extend S.scope v).nodup_iff, List.nodup_append]
      refine ⟨?_, h.labels, fun label hlabel label' hlabel' heq => ?_⟩
      · cases v.label <;> simp
      -- a label in sight is that of an entry, and a new one is not
      · subst heq
        refine hfresh label (Option.mem_toList.1 hlabel) ?_
        obtain ⟨t, ht, htlabel⟩ := List.mem_filterMap.1 hlabel'
        obtain ⟨frame, hframe, ht⟩ := List.mem_flatten.1 ht
        exact h.labelled frame hframe t ht label htlabel

theorem Coherent.enter (h : S.Coherent) : S.draw.enter.Coherent where
  sound := Standing.sound_enter h.sound
  closed := h.closed
  known := by
    intro frame hframe s hs
    rcases List.mem_cons.1 hframe with rfl | hframe
    · cases hs
    · exact h.known frame hframe s hs
  parameter := h.parameter
  labelled := h.labelled.enter
  labels := h.labels

theorem Coherent.leave (h : S.Coherent) : S.leave.Coherent := by
  have hframes : ∀ frame ∈ S.leave.scope.frames, frame ∈ S.scope.frames :=
    fun frame hframe => (Scope.frames_pop S.scope).subset hframe
  have hparameter : S.leave.scope.parameter = S.scope.parameter := by
    simp only [Standing.leave, Scope.pop]
    split <;> rfl
  refine ⟨⟨h.sound.table, ?_, ?_⟩, h.closed, ?_, ?_, ?_, ?_⟩
  · exact fun frame hframe => h.sound.scope.binding frame (hframes frame hframe)
  · rw [hparameter]
    exact h.sound.scope.parameter
  · exact fun frame hframe => h.known frame (hframes frame hframe)
  · rw [hparameter]
    exact h.parameter
  · exact fun frame hframe => h.labelled frame (hframes frame hframe)
  · exact h.labels.sublist (Scope.labels_pop S.scope)

end Standing

/-! ### The table and the stage -/

namespace ClassDef

/-- A class as it has to be in the end. -/
def Complete (d : ClassDef) : Prop := d.fields ≠ [] ∧ d.methods ≠ []

/-- All classes that parameters are of are among the given ones. -/
def Uses (d : ClassDef) (names : List String) : Prop :=
  ∀ s ∈ d.methods, ∀ p ∈ s.parameter, ∀ c, p.type = .object c → c ∈ names

end ClassDef

/-- The class of a name is the last one and still open, and those above are complete. -/
def ClassTable.AtClass (t : ClassTable) (owner : String) (P : ClassDef → Prop) : Prop :=
  ∃ above d, t.Opens above d ∧ d.name = owner ∧ (∀ e ∈ above, e.Complete) ∧ P d

theorem ClassTable.AtClass.complete {t : ClassTable} {owner : String} {P : ClassDef → Prop}
    (h : t.AtClass owner P) (hP : ∀ d, P d → d.Complete) : ∀ d ∈ t.classes, d.Complete := by
  obtain ⟨above, d, hopens, -, habove, hd⟩ := h
  intro e he
  rw [hopens.classes, List.mem_append, List.mem_singleton] at he
  rcases he with he | he
  · exact habove e he
  · rw [he]
    exact hP d hd

/-- Every class uses, for its parameters, classes that do not stand below it. -/
def Ordered (classes : List ClassDef) : Prop :=
  ∀ (i : Nat) (d : ClassDef), classes[i]? = some d → d.Uses ((classes.take (i + 1)).map (·.name))

theorem ordered_snoc {above : List ClassDef} {d : ClassDef} :
    Ordered (above ++ [d]) ↔ Ordered above ∧ d.Uses ((above ++ [d]).map (·.name)) := by
  have hbefore : ∀ i < above.length, (above ++ [d])[i]? = above[i]? ∧
      (above ++ [d]).take (i + 1) = above.take (i + 1) := fun i hi =>
    ⟨List.getElem?_append_left hi, List.take_append_of_le_length hi⟩
  constructor
  · intro h
    refine ⟨fun i e he => ?_, ?_⟩
    · obtain ⟨hget, htake⟩ := hbefore i (List.getElem?_eq_some_iff.1 he).1
      rw [← htake]
      exact h i e (hget.trans he)
    · have hlast := h above.length d (by simp)
      rwa [List.take_of_length_le (by simp)] at hlast
  · rintro ⟨habove, hd⟩ i e he
    by_cases hi : i < above.length
    · obtain ⟨hget, htake⟩ := hbefore i hi
      rw [htake]
      exact habove i e (hget.symm.trans he)
    · have hlt := (List.getElem?_eq_some_iff.1 he).1
      rw [List.length_append, List.length_singleton] at hlt
      obtain rfl : i = above.length := by omega
      rw [List.getElem?_concat_length, Option.some.injEq] at he
      rw [← he, List.take_of_length_le (by simp)]
      exact hd

namespace Stage

/-- How the table is at a stage. -/
def Shape (t : ClassTable) : Option Stage → Prop
  | some (.fields owner) => t.AtClass owner fun d => d.methods = []
  | some (.methods owner any) =>
      t.AtClass owner fun d => d.fields ≠ [] ∧ (any = true ↔ d.methods ≠ [])
  | some (.statements (some owner) _ _) => t.AtClass owner ClassDef.Complete
  | _ => ∀ d ∈ t.classes, d.Complete

/-- The entry point, once it has been begun. -/
def entryKeys : Option Stage → List (Option String × String)
  | some (.statements none _ _) | some .epilogue | none => [(none, Keyword.mainDef.text)]
  | _ => []

/-- The routines that have been begun: one for each method, and the entry point behind them. -/
def keys (t : ClassTable) (stage : Option Stage) : List (Option String × String) :=
  methodKeys t.classes ++ entryKeys stage

/-- The routine that is being read. -/
def current : Option Stage → Option (Option String × String)
  | some (.statements owner method _) => some (owner, method)
  | _ => none

end Stage

theorem Stage.shape_statements {t : ClassTable} {owner : Option String} {method : String}
    {blocks blocks' : List Branch} (h : Shape t (some (.statements owner method blocks))) :
    Shape t (some (.statements owner method blocks')) := by
  cases owner <;> exact h

/-! ### What a step preserves -/

namespace Stage.Effect

variable {stage : Stage} {S S' : Standing} {move : Move}

theorem coherent (h : stage.Effect S move S') (hS : S.Coherent)
    (hshape : Shape S.table (some stage)) : S'.Coherent := by
  cases h with
  | @openClass _ name table htable =>
    have hnames := ClassTable.map_name_declareClass htable
    have hclosed : table.closed = S.table.closed := by
      obtain ⟨-, rfl⟩ := ClassTable.declareClass_ok.1 htable
      rfl
    refine hS.withTable rfl rfl (hS.sound.table.declareClass htable) ?_ ?_
    · rw [hnames]
      exact List.subset_append_left _ _
    · rw [hnames, hclosed]
      intro n hn
      exact List.mem_append_left _ (hS.closed n hn)
  | @field _ _ f _ htable =>
    obtain ⟨d, -, hfind, -, rfl⟩ := ClassTable.addField_ok.1 htable
    have hd := hS.sound.table.methods d (List.mem_of_find?_eq_some hfind)
    exact hS.replace (d := { d with fields := d.fields ++ [f] }) hd rfl rfl rfl
  | endFields => exact hS
  | @method _ owner name _ parameter table hparameter htable =>
    obtain ⟨d, -, hfind, hnew, rfl⟩ := ClassTable.addMethod_ok.1 htable
    have hd := hS.sound.table.methods d (List.mem_of_find?_eq_some hfind)
    have hnodup := ClassDef.nodup_methods_snoc hd hnew
    apply Standing.Coherent.begin
    · exact hS.replace (d := { d with methods := d.methods ++ [⟨name, parameter⟩] })
        hnodup rfl rfl rfl
    · intro p hp
      refine (hparameter p hp).mono ?_
      show _ ⊆ (S.table.replace _).classes.map (·.name)
      rw [ClassTable.map_name_replace]
      exact List.Subset.refl _
  | closeClass =>
    obtain ⟨above, d, hopens, rfl, -⟩ := hshape
    refine hS.withTable rfl rfl ⟨hS.sound.table.classes, hS.sound.table.methods⟩
      (List.Subset.refl _) fun n hn => ?_
    rcases List.mem_cons.1 hn with rfl | hn
    · refine List.mem_map_of_mem ?_
      show d ∈ S.table.classes
      rw [hopens.classes]
      exact List.mem_append_right _ (List.mem_singleton_self d)
    · exact hS.closed n hn
  | main => exact hS.begin fun p hp => by cases hp
  | simple hsimple => exact hS.elaborates hsimple
  | branch => exact hS.enter
  | leave => exact hS.leave
  | endRoutine => exact hS
  | endProgram => exact hS

theorem shape (h : stage.Effect S move S') (hS : S.Coherent)
    (hshape : Shape S.table (some stage)) : Shape S'.table move.next := by
  cases h with
  | @openClass _ name table htable =>
    obtain ⟨hfresh, rfl⟩ := ClassTable.declareClass_ok.1 htable
    rw [ClassTable.find?_eq_none] at hfresh
    have hopens : (S.table.enter name).Opens S.table.classes ⟨name, [], []⟩ :=
      ⟨rfl, hfresh, fun hclosed => hfresh (hS.closed _ hclosed)⟩
    exact ⟨S.table.classes, ⟨name, [], []⟩, hopens, rfl, hshape, rfl⟩
  | field htable =>
    obtain ⟨above, d, hopens, rfl, habove, hmethods⟩ := hshape
    obtain ⟨-, rfl⟩ := hopens.addField_ok.1 htable
    exact ⟨above, { d with fields := d.fields ++ [_] }, ⟨rfl, hopens.fresh, hopens.growing⟩, rfl,
      habove, hmethods⟩
  | endFields hcount =>
    obtain ⟨above, d, hopens, rfl, habove, hmethods⟩ := hshape
    refine ⟨above, d, hopens, rfl, habove, fun hnone => hcount ?_, by simp [hmethods]⟩
    rw [ClassTable.fieldCount, hopens.find?]
    simp [hnone]
  | method _ htable =>
    obtain ⟨above, d, hopens, rfl, habove, hfields, -⟩ := hshape
    obtain ⟨-, rfl⟩ := hopens.addMethod_ok.1 htable
    exact ⟨above, { d with methods := d.methods ++ [_] }, ⟨rfl, hopens.fresh, hopens.growing⟩, rfl,
      habove, hfields, by simp⟩
  | closeClass => exact hshape.complete fun d hd => ⟨hd.1, hd.2.1 rfl⟩
  | main => exact hshape
  | @simple _ _ owner method blocks _ command hsimple =>
    rw [hsimple.keeps.table]
    exact shape_statements hshape
  | branch => exact shape_statements hshape
  | leave => exact shape_statements hshape
  | @endRoutine _ owner method =>
    cases owner with
    | none => exact hshape
    | some owner =>
      obtain ⟨above, d, hopens, hname, habove, hd⟩ := hshape
      exact ⟨above, d, hopens, hname, habove, hd.1, by simp [hd.2]⟩
  | endProgram => exact hshape

/-- Only a method brings in types, and these are of classes that the table has. -/
theorem ordered (h : stage.Effect S move S') (hshape : Shape S.table (some stage))
    (hordered : Ordered S.table.classes) : Ordered S'.table.classes := by
  cases h with
  | @openClass _ name table htable =>
    obtain ⟨-, rfl⟩ := ClassTable.declareClass_ok.1 htable
    exact ordered_snoc.2 ⟨hordered, fun s hs => by cases hs⟩
  | field htable =>
    obtain ⟨above, d, hopens, rfl, -⟩ := hshape
    obtain ⟨-, rfl⟩ := hopens.addField_ok.1 htable
    rw [hopens.classes, ordered_snoc] at hordered
    refine ordered_snoc.2 ⟨hordered.1, ?_⟩
    rw [List.map_append]
    rw [List.map_append] at hordered
    exact hordered.2
  | @method _ owner name _ parameter table hparameter htable =>
    obtain ⟨above, d, hopens, rfl, -⟩ := hshape
    obtain ⟨-, rfl⟩ := hopens.addMethod_ok.1 htable
    rw [hopens.classes, ordered_snoc] at hordered
    refine ordered_snoc.2 ⟨hordered.1, fun s hs p hp c hc => ?_⟩
    have hnames : (above.map (·.name)) ++ [d.name] = (above ++ [d]).map (·.name) := by simp
    rw [List.map_append, List.map_singleton, hnames]
    rcases List.mem_append.1 hs with hs | hs
    · exact hordered.2 s hs p hp c hc
    · rw [List.mem_singleton.1 hs] at hp
      rw [← hopens.classes]
      exact ClassTable.knows_iff.1 (hparameter p hp) c hc
  | simple hsimple =>
    rw [hsimple.keeps.table]
    exact hordered
  | _ => exact hordered

/-- A step begins the routines that the table and the stage call for. -/
theorem keys (h : stage.Effect S move S') (hshape : Shape S.table (some stage)) :
    Stage.keys S'.table move.next = Stage.keys S.table (some stage) ++ move.begun.toList := by
  cases h with
  | openClass htable =>
    obtain ⟨-, rfl⟩ := ClassTable.declareClass_ok.1 htable
    simp [Stage.keys, entryKeys, Move.silent, methodKeys]
  | field htable =>
    obtain ⟨above, d, hopens, rfl, -⟩ := hshape
    obtain ⟨-, rfl⟩ := hopens.addField_ok.1 htable
    simp [Stage.keys, entryKeys, Move.silent, methodKeys, hopens.classes]
  | endFields => simp [Stage.keys, entryKeys, Move.silent]
  | method _ htable =>
    obtain ⟨above, d, hopens, rfl, -⟩ := hshape
    obtain ⟨-, rfl⟩ := hopens.addMethod_ok.1 htable
    simp [Stage.keys, entryKeys, Move.begin, Standing.begin, methodKeys, hopens.classes]
  | closeClass => simp [Stage.keys, entryKeys, Move.silent, Standing.closeClass, ClassTable.close]
  | main => simp [Stage.keys, entryKeys, Move.begin, Standing.begin]
  | @simple _ _ owner method blocks _ command hsimple =>
    rw [Stage.keys, hsimple.keeps.table, Stage.keys]
    simp [Start.move]
  | @branch _ owner =>
    cases owner <;> simp [Stage.keys, entryKeys, Start.move, Standing.enter, Standing.draw]
  | @leave _ owner =>
    cases owner <;> simp [Stage.keys, entryKeys, Move.finish, Standing.leave]
  | @endRoutine _ owner =>
    cases owner <;> simp [Stage.keys, entryKeys, Move.finish, behind]
  | endProgram => simp [Stage.keys, entryKeys]

/-- The routine being read is the one begun last, and the state says which it is. -/
theorem current (h : stage.Effect S move S')
    (hcurrent : ∀ key ∈ Stage.current (some stage), (S.owner, S.method) = key) :
    (∀ key ∈ Stage.current move.next, (S'.owner, S'.method) = key) ∧
      (Stage.current move.next = move.begun ∨
        move.begun = none ∧ Stage.current move.next = Stage.current (some stage)) := by
  cases h with
  | simple hsimple =>
    have hkeeps := hsimple.keeps
    refine ⟨?_, .inr ⟨rfl, rfl⟩⟩
    rw [hkeeps.owner, hkeeps.method]
    exact hcurrent
  | branch => exact ⟨hcurrent, .inr ⟨rfl, rfl⟩⟩
  | leave => exact ⟨hcurrent, .inr ⟨rfl, rfl⟩⟩
  | method => exact ⟨fun key hkey => Option.some.inj hkey, .inl rfl⟩
  | main => exact ⟨fun key hkey => Option.some.inj hkey, .inl rfl⟩
  | @endRoutine _ owner =>
    cases owner <;> exact ⟨fun key hkey => (by cases hkey), .inl rfl⟩
  | _ => exact ⟨fun key hkey => (by cases hkey), .inl rfl⟩

/-- A step that begins no routine has numbered labels only; one that does begins with its label,
    which is none of these. -/
theorem lines (h : stage.Effect S move S') :
    (move.begun = none ∧ ∀ label ∈ labelDefs move.lines, Label.Numbered label) ∨
      ∃ owner method, move = .begin owner method ∧ ¬ Label.Numbered (Label.entry owner method) := by
  cases h with
  | @method _ owner name _ _ _ _ _ hgenerated =>
    refine .inr ⟨some owner, name, rfl, fun hnumbered => ?_⟩
    have htrue : Label.isGenerated (Label.method owner name) = true := hnumbered.isGenerated
    rw [hgenerated] at htrue
    cases htrue
  | main =>
    have hfixed : Label.entry none Keyword.mainDef.text ∈ Label.fixed := by decide
    exact .inr ⟨none, _, rfl, Label.not_numbered_of_mem_fixed hfixed⟩
  | @branch _ _ _ _ kind _ condition =>
    refine .inl ⟨rfl, fun label hlabel => ?_⟩
    cases kind with
    | conditional => simp [Start.move, Branch.opening] at hlabel
    | loop =>
      simp [Start.move, Branch.opening] at hlabel
      exact ⟨_, .inr (.inl hlabel)⟩
  | @leave _ _ _ head =>
    refine .inl ⟨rfl, fun label hlabel => ?_⟩
    rw [Move.finish, labelDefs_append, labelDefs_ofCode, List.nil_append] at hlabel
    cases hkind : head.kind with
    | conditional =>
      simp [Branch.closing, hkind] at hlabel
      exact ⟨_, .inl hlabel⟩
    | loop =>
      simp [Branch.closing, hkind] at hlabel
      exact ⟨_, .inr (.inr hlabel)⟩
  | simple => exact .inl ⟨rfl, fun label hlabel => by simp [Start.move] at hlabel⟩
  | endRoutine =>
    refine .inl ⟨rfl, fun label hlabel => ?_⟩
    simp [Move.finish, labelDefs_append] at hlabel
  | _ => exact .inl ⟨rfl, fun label hlabel => by cases hlabel⟩

end Stage.Effect

/-! ### The listings -/

namespace Listing

/-- The routine that a listing is the code of. -/
def key {ι : Type} (listing : Listing ι) : Option String × String :=
  (listing.owner, listing.method)

/-- The listing begins with its own label.  All labels behind it are numbered, and its own is
    not. -/
def Headed (listing : Listing Instruction) : Prop :=
  ∃ rest, listing.lines = .label listing.entryLabel :: rest ∧
    (∀ label ∈ labelDefs rest, Label.Numbered label) ∧ ¬ Label.Numbered listing.entryLabel

theorem Headed.append {listing : Listing Instruction} (h : listing.Headed)
    {lines : List (Line Instruction)} (hlines : ∀ label ∈ labelDefs lines, Label.Numbered label) :
    (listing.append lines).Headed := by
  obtain ⟨rest, hrest, hnumbered, hentry⟩ := h
  refine ⟨rest ++ lines, ?_, ?_, hentry⟩
  · show listing.lines ++ lines = _
    rw [hrest]
    rfl
  · intro label hlabel
    rw [labelDefs_append, List.mem_append] at hlabel
    rcases hlabel with hlabel | hlabel
    · exact hnumbered label hlabel
    · exact hlines label hlabel

end Listing

theorem map_key_emit (lines : List (Line Instruction)) (listings : List (Listing Instruction)) :
    (emit lines listings).map Listing.key = listings.map Listing.key := by
  rcases List.eq_nil_or_concat' listings with rfl | ⟨before, last, rfl⟩
  · rfl
  · rw [emit_append, List.map_append, List.map_append]
    rfl

theorem mem_emit {lines : List (Line Instruction)} {listings : List (Listing Instruction)}
    {listing : Listing Instruction} (h : listing ∈ emit lines listings) :
    ∃ old ∈ listings, listing = old ∨ listing = old.append lines := by
  rcases List.eq_nil_or_concat' listings with rfl | ⟨before, last, rfl⟩
  · cases h
  · rw [emit_append, List.mem_append, List.mem_singleton] at h
    rcases h with hbefore | rfl
    · exact ⟨listing, List.mem_append_left _ hbefore, .inl rfl⟩
    · exact ⟨last, List.mem_append_right _ (List.mem_singleton_self last), .inr rfl⟩

namespace Progress

variable {P : Progress} {move : Move} {τ : State}

/-- A move begins the listings of the routines that it begins. -/
theorem map_key_after (P : Progress) (move : Move) (τ : State) :
    (P.after move τ).listings.map Listing.key =
      P.listings.map Listing.key ++ move.begun.toList := by
  rw [after, map_key_emit, opened, List.map_append]
  cases move.begun <;> rfl

/-- What holds at every moment of the pass. -/
structure Regular (P : Progress) : Prop where
  coherent : P.state.standing.Coherent
  shape : Stage.Shape P.state.table P.stage
  ordered : Ordered P.state.table.classes
  keys : P.listings.map Listing.key = Stage.keys P.state.table P.stage
  headed : ∀ listing ∈ P.listings, listing.Headed
  current : ∀ key ∈ Stage.current P.stage, (P.state.owner, P.state.method) = key ∧
    (P.listings.map Listing.key).getLast? = some key

theorem regular_start (tokens : List Token) : (start tokens).Regular where
  coherent := by
    refine ⟨⟨⟨List.nodup_nil, by simp [start, State.standing, State.initial, ClassTable.empty]⟩,
      ?_, ?_⟩, ?_, ?_, ?_, ?_, List.nodup_nil⟩ <;>
      simp [start, State.standing, State.initial, ClassTable.empty, Scope.empty, Scope.frames,
        Standing.Labelled]
  shape := by simp [start, Stage.Shape, State.initial, ClassTable.empty]
  ordered := by simp [start, Ordered, State.initial, ClassTable.empty]
  keys := rfl
  headed := by simp [start]
  current := by simp [start, Stage.current]

theorem Regular.headed_after (h : P.Regular) {stage : Stage}
    (heffect : stage.Effect P.state.standing move τ.standing) :
    ∀ listing ∈ (P.after move τ).listings, listing.Headed := by
  rcases heffect.lines with ⟨hbegun, hnumbered⟩ | ⟨owner, method, rfl, hentry⟩
  · intro listing hlisting
    rw [after, opened, hbegun, Option.toList_none, List.map_nil, List.append_nil] at hlisting
    obtain ⟨old, hold, rfl | rfl⟩ := mem_emit hlisting
    · exact h.headed _ hold
    · exact (h.headed old hold).append hnumbered
  · intro listing hlisting
    have hopened : P.opened (.begin owner method) = P.listings ++ [⟨owner, method, []⟩] := rfl
    rw [after, hopened, emit_append, List.mem_append, List.mem_singleton] at hlisting
    rcases hlisting with hold | rfl
    · exact h.headed listing hold
    · exact ⟨_, rfl, by simp, hentry⟩

/-- A step from a regular moment leads to a regular one. -/
theorem Regular.after (h : P.Regular) (hstep : P.Takes move τ) : (P.after move τ).Regular := by
  obtain ⟨stage, hstage, heffect⟩ := hstep.exists_effect
  have hshape : Stage.Shape P.state.table (some stage) := hstage ▸ h.shape
  have hcurrent := h.current
  rw [hstage] at hcurrent
  obtain ⟨hnow, hwhich⟩ := heffect.current fun key hkey => (hcurrent key hkey).1
  refine ⟨heffect.coherent h.coherent hshape, heffect.shape h.coherent hshape,
    heffect.ordered hshape h.ordered, ?_, h.headed_after heffect, ?_⟩
  · rw [map_key_after, h.keys, hstage]
    exact (heffect.keys hshape).symm
  · intro key hkey
    refine ⟨hnow key hkey, ?_⟩
    have hnext : Stage.current move.next = some key := hkey
    rw [map_key_after]
    rcases hwhich with hbegun | ⟨hbegun, hsame⟩
    · rw [← hbegun, hnext]
      simp
    · rw [hbegun, Option.toList_none, List.append_nil]
      exact (hcurrent key (hsame ▸ hkey)).2

end Progress

/-- Every moment of the pass is regular, whatever the tokens are. -/
theorem Reached.regular {tokens : List Token} {P : Progress} (h : Reached tokens P) :
    P.Regular := by
  induction h with
  | refl => exact Progress.regular_start tokens
  | tail _ hstep ih =>
    cases hstep with
    | intro htakes => exact ih.after htakes

end ClassLang
