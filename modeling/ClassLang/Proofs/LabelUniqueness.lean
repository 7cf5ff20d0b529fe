/-
  ClassLang/Proofs/LabelUniqueness.lean
  =====================================
  **No label is defined twice.**

  Four kinds of labels are kept apart in four ways.  The fixed ones are reserved from
  the start.  A method claims its label and is rejected if it is taken.  A string takes
  a label that is free.  Control flow numbers its labels, and no number is drawn twice;
  these are checked against methods by `isGenerated` and against strings by nothing but
  their shape.

  `Standing.Tidy` is the invariant for the labels that the data section knows, and
  `Standing.Adds` is what elaborating some routines does: it reserves their labels and
  draws the numbers that their blocks carry.  At the end of a program the two give
  `nodup_labelDefs_layout`.
-/
import ClassLang.Proofs.LabelShapes
import ClassLang.Proofs.ProgramElaboration

namespace ClassLang

open Label (Numbered Spelled StringShaped)

/-! ### Definitions of labels -/

def Line.label? {ι : Type} : Line ι → Option String
  | .label name => some name
  | .instruction _ => none

/-- The labels that lines define, from the first to the last. -/
def labelDefs {ι : Type} (lines : List (Line ι)) : List String :=
  lines.filterMap Line.label?

/-- The labels that the whole text defines: those of data entries, of the printing routines, and of
    all listings. -/
def Layout.labelDefs (layout : Layout) : List String :=
  layout.data.map (·.label) ++ ClassLang.labelDefs Printing.number ++
    ClassLang.labelDefs Printing.string ++ ClassLang.labelDefs layout.entry.lines ++
    ClassLang.labelDefs Printing.exit ++
    layout.methods.flatMap fun method => ClassLang.labelDefs method.lines

theorem labelDefs_append {ι : Type} (lines lines' : List (Line ι)) :
    labelDefs (lines ++ lines') = labelDefs lines ++ labelDefs lines' :=
  List.filterMap_append

@[simp] theorem labelDefs_nil {ι : Type} : labelDefs ([] : List (Line ι)) = [] := rfl

@[simp] theorem labelDefs_label {ι : Type} (name : String) (lines : List (Line ι)) :
    labelDefs (.label name :: lines) = name :: labelDefs lines := rfl

@[simp] theorem labelDefs_instruction {ι : Type} (code : ι) (lines : List (Line ι)) :
    labelDefs (.instruction code :: lines) = labelDefs lines := rfl

@[simp] theorem labelDefs_ofCode {ι : Type} (code : List ι) :
    labelDefs (Line.ofCode code) = [] := by
  simp [labelDefs, Line.ofCode, Line.label?]

/-! ### Labels of blocks -/

def Branch.labels (head : Branch) : List String :=
  match head.kind with
  | .conditional => [Label.elseOf head.id]
  | .loop => [Label.conditionOf head.id, Label.exitOf head.id]

/-- The heads of all blocks in a body, the outer ones first. -/
def Body.heads : Body → List Branch
  | .finish _ => []
  | .simple _ rest => rest.heads
  | .branch head inner rest => head :: (inner.heads ++ rest.heads)

/-- The numbers that the blocks in a body carry. -/
def Body.ids (body : Body) : List Nat := body.heads.map (·.id)

theorem Body.labelDefs_code (body : Body) :
    (labelDefs body.code).Perm (body.heads.flatMap Branch.labels) := by
  induction body with
  | finish bytes => simp [code, heads]
  | simple command rest ih => simpa [code, heads, labelDefs_append] using ih
  | branch head inner rest ihInner ihRest =>
    obtain ⟨kind, condition, id⟩ := head
    have hboth := ihInner.append ihRest
    rw [← List.flatMap_append] at hboth
    -- the label behind the block stands in the middle of the code, and in front in the list
    cases kind with
    | conditional =>
      have hcode : labelDefs (branch ⟨.conditional, condition, id⟩ inner rest).code =
          labelDefs inner.code ++ Label.elseOf id :: labelDefs rest.code := by
        simp [code, labelDefs_append, Branch.opening, Branch.closing]
      rw [hcode]
      exact List.perm_middle.trans (hboth.cons _)
    | loop =>
      have hcode : labelDefs (branch ⟨.loop, condition, id⟩ inner rest).code =
          Label.conditionOf id ::
            (labelDefs inner.code ++ Label.exitOf id :: labelDefs rest.code) := by
        simp [code, labelDefs_append, Branch.opening, Branch.closing]
      rw [hcode]
      exact (List.perm_middle.trans (hboth.cons _)).cons _

/-- Every label of a block is a numbered one, with the number of the block. -/
theorem Branch.eq_of_mem_labels {head head' : Branch} {label : String} (h : label ∈ head.labels)
    (h' : label ∈ head'.labels) : head.id = head'.id := by
  obtain ⟨kind, condition, id⟩ := head
  obtain ⟨kind', condition', id'⟩ := head'
  cases kind <;> cases kind' <;>
    simp only [Branch.labels, List.mem_cons, List.not_mem_nil, or_false] at h h'
  · exact Label.elseOf_injective (h.symm.trans h')
  · rcases h' with h' | h'
    · exact absurd (h.symm.trans h') (Label.elseOf_ne_conditionOf _ _)
    · exact absurd (h.symm.trans h') (Label.elseOf_ne_exitOf _ _)
  · rcases h with h | h
    · exact absurd (h'.symm.trans h) (Label.elseOf_ne_conditionOf _ _)
    · exact absurd (h'.symm.trans h) (Label.elseOf_ne_exitOf _ _)
  · rcases h with h | h <;> rcases h' with h' | h'
    · exact Label.conditionOf_injective (h.symm.trans h')
    · exact absurd (h.symm.trans h') (Label.conditionOf_ne_exitOf _ _)
    · exact absurd (h'.symm.trans h) (Label.conditionOf_ne_exitOf _ _)
    · exact Label.exitOf_injective (h.symm.trans h')

theorem Branch.nodup_labels (head : Branch) : head.labels.Nodup := by
  obtain ⟨kind, condition, id⟩ := head
  cases kind with
  | conditional => simp [labels]
  | loop => simp [labels, Label.conditionOf_ne_exitOf]

theorem Branch.numbered_of_mem_labels {head : Branch} {label : String} (h : label ∈ head.labels) :
    Numbered label := by
  obtain ⟨kind, condition, id⟩ := head
  cases kind <;> simp only [Branch.labels, List.mem_cons, List.not_mem_nil, or_false] at h
  · exact ⟨id, .inl h⟩
  · exact ⟨id, .inr h⟩

/-- Blocks with distinct numbers have distinct labels. -/
theorem nodup_flatMap_labels {heads : List Branch} (h : (heads.map (·.id)).Nodup) :
    (heads.flatMap Branch.labels).Nodup := by
  induction heads with
  | nil => simp
  | cons head heads ih =>
    rw [List.map_cons, List.nodup_cons] at h
    rw [List.flatMap_cons, List.nodup_append]
    refine ⟨head.nodup_labels, ih h.2, fun label hlabel label' hlabel' heq => h.1 ?_⟩
    obtain ⟨head', hhead', hlabel'⟩ := List.mem_flatMap.1 hlabel'
    rw [Branch.eq_of_mem_labels hlabel (heq ▸ hlabel')]
    exact List.mem_map_of_mem hhead'

/-! ### Labels of strings -/

/-- Whatever label a string gets, it has the shape of one. -/
theorem stringShaped_candidate {owner : Option String} {method x : String} {c : Char}
    {rest : List Char} (howner : ∀ o ∈ owner, o ≠ "")
    (hmethod : owner = none → method = Keyword.mainDef.text) (hx : x.toList = c :: rest)
    (hc : Lexer.isWordStart c = true) (n : Nat) :
    StringShaped (DataSection.candidate (Label.data owner method x) n) := by
  cases owner with
  | none =>
    have hmain : Keyword.mainDef.text ++ "_" = "main_" := rfl
    rw [hmethod rfl, Label.data, hmain]
    cases n with
    | zero => exact .inEntryPoint
    | succ n =>
      rw [DataSection.candidate, String.append_assoc, String.append_assoc]
      exact .inEntryPoint
  | some o =>
    cases n with
    | zero => exact .inMethod (howner o rfl) hx hc
    | succ n =>
      have hjoin : Label.data (some o) method x ++ "_" ++ toString (n + 2) =
          o ++ "_" ++ method ++ "_" ++ (x ++ "_" ++ toString (n + 2)) := by
        simp only [Label.data, String.append_assoc]
      rw [DataSection.candidate, hjoin]
      have hy : (x ++ "_" ++ toString (n + 2)).toList =
          c :: (rest ++ ("_" ++ toString (n + 2)).toList) := by
        rw [String.append_assoc, String.toList_append, hx, List.cons_append]
      exact .inMethod (howner o rfl) hy hc

theorem spelled_candidate {owner : Option String} {method x : String}
    (howner : ∀ o ∈ owner, Spelled o) (hmethod : Spelled method) (hx : Spelled x) (n : Nat) :
    Spelled (DataSection.candidate (Label.data owner method x) n) := by
  have hunderscore : Spelled "_" := by decide
  have hdata : Spelled (Label.data owner method x) := by
    cases owner with
    | none => exact (hmethod.append hunderscore).append hx
    | some o =>
      exact ((((howner o rfl).append hunderscore).append hmethod).append hunderscore).append hx
  cases n with
  | zero => exact hdata
  | succ n => exact (hdata.append hunderscore).append (Label.spelled_toString (n + 2))

namespace Standing

variable {S S' : Standing}

/-- The labels that the data section knows are distinct and spelled like words, and those of strings
    have their shape. -/
structure Tidy (S : Standing) : Prop where
  nodup : S.data.taken.Nodup
  spelled : ∀ label ∈ S.data.taken, Spelled label
  shaped : ∀ entry ∈ S.data.entries, StringShaped entry.label

/-- The routine at hand has a name of the kind that routines have. -/
structure Named (S : Standing) : Prop where
  owner : ∀ o ∈ S.owner, IsName o
  main : S.owner = none → S.method = Keyword.mainDef.text
  method : Spelled S.method

theorem Keeps.named (h : S.Keeps S') (hnamed : S.Named) : S'.Named :=
  ⟨h.owner ▸ hnamed.owner, h.owner ▸ h.method ▸ hnamed.main, h.method ▸ hnamed.method⟩

theorem Tidy.store (h : S.Tidy) (hnamed : S.Named) {x : String} (hspelled : Spelled x) {c : Char}
    {rest : List Char} (hx : x.toList = c :: rest) (hc : Lexer.isWordStart c = true)
    (bytes : List UInt8) : (S.store x bytes).Tidy := by
  obtain ⟨n, hlabel, hfree, -⟩ := S.data.isFirstFree_freeLabel (Label.data S.owner S.method x)
  refine ⟨?_, fun label htaken => ?_, fun entry hentry => ?_⟩
  · have hperm : (S.store x bytes).data.taken.Perm (S.stringLabel x :: S.data.taken) := by
      simp only [Standing.store, DataSection.insert, DataSection.taken, List.map_append,
        List.map_cons, List.map_nil, List.append_assoc]
      exact List.perm_middle
    exact hperm.nodup_iff.2 (List.nodup_cons.2 ⟨hfree, h.nodup⟩)
  · rcases DataSection.mem_taken_insert.1 htaken with rfl | htaken
    · rw [hlabel]
      exact spelled_candidate (fun o ho => (hnamed.owner o ho).parts) hnamed.method hspelled n
    · exact h.spelled label htaken
  · rcases List.mem_append.1 hentry with hentry | hentry
    · exact h.shaped entry hentry
    · rw [List.mem_singleton.1 hentry, hlabel]
      exact stringShaped_candidate (fun o ho => (hnamed.owner o ho).ne_empty) hnamed.main hx hc n

theorem Elaborates.tidy {s : Tree.Simple} {command : Command} (hS : S.Tidy) (hnamed : S.Named)
    (hproper : ∀ l ∈ s.yield, l.Proper) (h : S.Elaborates s command S') : S'.Tidy := by
  cases h with
  | text | string =>
    simp only [Tree.Simple.yield, List.forall_mem_cons] at hproper
    have hname : IsName _ := hproper.2.1
    obtain ⟨c, rest, hx, hc⟩ := hname.first
    have hstored := fun bytes => hS.store hnamed hname.parts hx hc bytes
    exact ⟨(hstored _).nodup, (hstored _).spelled, (hstored _).shaped⟩
  | printLiteral =>
    have hname : S.draw.literalName.toList =
        'l' :: ("iteral_".toList ++ (toString S.draw.labels).toList) := by
      rw [literalName, String.toList_append]
      rfl
    have hdraw : S.draw.Tidy := ⟨hS.nodup, hS.spelled, hS.shaped⟩
    have hspelled : Spelled S.draw.literalName :=
      .append (by decide) (Label.spelled_toString S.draw.labels)
    exact hdraw.store ⟨hnamed.owner, hnamed.main, hnamed.method⟩ hspelled hname (by decide) _
  | _ => exact ⟨hS.nodup, hS.spelled, hS.shaped⟩

theorem ElaboratesBlock.tidy {t : Tree.Block} {body : Body} (hS : S.Tidy) (hnamed : S.Named)
    (hproper : ∀ l ∈ t.yield, l.Proper) (h : ElaboratesBlock S t body S') : S'.Tidy := by
  induction h with
  | finish => exact hS
  | simple hsimple _ ih =>
    simp only [Tree.Block.yield, List.forall_mem_append] at hproper
    exact ih (hsimple.tidy hS hnamed hproper.1) (hsimple.keeps.named hnamed) hproper.2
  | branch _ hinner _ ihInner ihRest =>
    simp only [Tree.Block.yield, List.forall_mem_cons, List.forall_mem_append] at hproper
    obtain ⟨-, -, -, hi, -, hr⟩ := hproper
    have htidy := ihInner ⟨hS.nodup, hS.spelled, hS.shaped⟩
      ⟨hnamed.owner, hnamed.main, hnamed.method⟩ hi
    exact ihRest ⟨htidy.nodup, htidy.spelled, htidy.shaped⟩ (hinner.keeps.leave.named hnamed) hr

theorem ElaboratesBlock.reserved {t : Tree.Block} {body : Body}
    (h : ElaboratesBlock S t body S') : S'.data.reserved = S.data.reserved := by
  induction h with
  | finish => rfl
  | simple hsimple _ ih =>
    rw [ih]
    cases hsimple <;> rfl
  | branch _ _ _ ihInner ihRest => exact ihRest.trans ihInner

/-- The blocks in a body carry the numbers drawn while it was elaborated, each one once. -/
theorem ElaboratesBlock.ids {t : Tree.Block} {body : Body} (h : ElaboratesBlock S t body S') :
    body.ids.Nodup ∧ ∀ id ∈ body.ids, S.labels < id ∧ id ≤ S'.labels := by
  induction h with
  | finish => simp [Body.ids, Body.heads]
  | @simple S S₁ S₂ s rest command body hsimple hrest ih =>
    have hcount := hsimple.labels
    refine ⟨ih.1, fun id hid => ?_⟩
    have hrange := ih.2 id hid
    omega
  | @branch S S₁ S₂ kind c condition inner rest innerBody restBody _ hinner hrest ihInner ihRest =>
    have hlabelsInner : S₁.labels = S.labels + 1 + inner.numbers := hinner.labels
    have hlabelsRest : S₂.labels = S₁.labels + rest.numbers := hrest.labels
    have hrangeInner : ∀ id ∈ innerBody.ids, S.labels + 1 < id ∧ id ≤ S₁.labels := ihInner.2
    have hrangeRest : ∀ id ∈ restBody.ids, S₁.labels < id ∧ id ≤ S₂.labels := ihRest.2
    have hids : (Body.branch ⟨kind, condition, S.draw.labels⟩ innerBody restBody).ids =
        (S.labels + 1) :: (innerBody.ids ++ restBody.ids) := by
      simp [Body.ids, Body.heads, draw]
    rw [hids]
    refine ⟨List.nodup_cons.2 ⟨fun hmem => ?_, List.nodup_append.2 ⟨ihInner.1, ihRest.1,
      fun a ha b hb hab => ?_⟩⟩, fun id hid => ?_⟩
    · rcases List.mem_append.1 hmem with hmem | hmem
      · have := hrangeInner _ hmem
        omega
      · have := hrangeRest _ hmem
        omega
    · have := hrangeInner _ ha
      have := hrangeRest _ hb
      omega
    · rcases List.mem_cons.1 hid with rfl | hid
      · omega
      · rcases List.mem_append.1 hid with hid | hid
        · have := hrangeInner _ hid
          omega
        · have := hrangeRest _ hid
          omega

/-! ### Routines -/

/-- What elaborating some routines does to labels. -/
structure Adds (S : Standing) (rs : List Routine) (S' : Standing) : Prop where
  tidy : S'.Tidy
  reserved : S'.data.reserved = (rs.map (·.entryLabel)).reverse ++ S.data.reserved
  claimed : ∀ r ∈ rs, Label.isGenerated r.entryLabel = false
  nodup : (rs.flatMap (·.body.ids)).Nodup
  range : ∀ id ∈ rs.flatMap (·.body.ids), S.labels < id ∧ id ≤ S'.labels
  le : S.labels ≤ S'.labels

theorem Adds.nil (h : S.Tidy) : S.Adds [] S :=
  ⟨h, rfl, by simp, by simp, by simp, Nat.le_refl _⟩

theorem Adds.append {S₁ : Standing} {rs rs' : List Routine} (h : S.Adds rs S₁)
    (h' : S₁.Adds rs' S') : S.Adds (rs ++ rs') S' := by
  have hle := h.le
  have hle' := h'.le
  refine ⟨h'.tidy, ?_, ?_, ?_, ?_, by omega⟩
  · rw [h'.reserved, h.reserved, List.map_append, List.reverse_append, List.append_assoc]
  · intro r hr
    rcases List.mem_append.1 hr with hr | hr
    · exact h.claimed r hr
    · exact h'.claimed r hr
  · rw [List.flatMap_append, List.nodup_append]
    refine ⟨h.nodup, h'.nodup, fun a ha b hb hab => ?_⟩
    have hrange := h.range a ha
    have hrange' := h'.range b hb
    omega
  · intro id hid
    rw [List.flatMap_append, List.mem_append] at hid
    rcases hid with hid | hid
    · have hrange := h.range id hid
      omega
    · have hrange := h'.range id hid
      omega

theorem ElaboratesMethods.adds {above : List Tree.Class} {c : Tree.Class}
    {before ms : List Tree.Method} {rs : List Routine} (hS : S.Tidy) (hname : IsName c.name)
    (hproper : ∀ m ∈ ms, ∀ l ∈ m.yield, l.Proper)
    (h : ElaboratesMethods above c before S ms rs S') : S.Adds rs S' := by
  induction h with
  | nil => exact .nil hS
  | @cons before ms m S S₁ S₂ body rs _ _ hgenerated hfree hbody hrest ih =>
    rw [List.forall_mem_cons] at hproper
    have hproperMethod := hproper.1
    simp only [Tree.Method.yield, List.forall_mem_cons, List.forall_mem_append] at hproperMethod
    have hmethod : IsName m.name := hproperMethod.1
    have hproperBody := hproperMethod.2.2.2.2.2.1
    have hunderscore : Spelled "_" := by decide
    have hspelled : Spelled (Label.method c.name m.name) :=
      ((hunderscore.append hname.parts).append hunderscore).append hmethod.parts
    have hentered :
        (S.entered (above.map Tree.Class.definition) (c.withMethods before) m).Tidy := by
      refine ⟨?_, fun label hlabel => ?_, hS.shaped⟩
      · have hperm : (S.data.reserve (Label.method c.name m.name)).taken.Perm
            (Label.method c.name m.name :: S.data.taken) := List.perm_middle
        exact hperm.nodup_iff.2 (List.nodup_cons.2 ⟨hfree, hS.nodup⟩)
      · rcases DataSection.mem_taken_reserve.1 hlabel with rfl | hlabel
        · exact hspelled
        · exact hS.spelled label hlabel
    have hnamed : (S.entered (above.map Tree.Class.definition) (c.withMethods before) m).Named :=
      ⟨fun o ho => by cases ho; exact hname, fun h => by contradiction, hmethod.parts⟩
    have htidy := hbody.tidy hentered hnamed hproperBody
    have hone : S.Adds [⟨some c.name, m.name, body⟩] S₁ := by
      refine ⟨htidy, hbody.reserved, ?_, ?_, ?_, ?_⟩
      · simpa [Routine.entryLabel, Label.entry] using hgenerated
      · simpa using hbody.ids.1
      · have hrange : ∀ id ∈ body.ids, S.labels < id ∧ id ≤ S₁.labels := hbody.ids.2
        simpa using hrange
      · have hcount : S₁.labels = S.labels + m.body.numbers := hbody.labels
        omega
    exact hone.append (ih htidy hproper.2)

theorem ElaboratesClasses.adds {above cs : List Tree.Class} {rs : List Routine} (hS : S.Tidy)
    (hnames : ∀ c ∈ cs, IsName c.name)
    (hproper : ∀ c ∈ cs, ∀ m ∈ c.methods, ∀ l ∈ m.yield, l.Proper)
    (h : ElaboratesClasses above S cs rs S') : S.Adds rs S' := by
  induction h with
  | nil => exact .nil hS
  | @cons above cs c S S₁ S₂ rs rs' _ hmethods _ ih =>
    rw [List.forall_mem_cons] at hnames hproper
    have hopened : (S.opened above c).Tidy := ⟨hS.nodup, hS.spelled, hS.shaped⟩
    obtain ⟨htidy, hreserved, hclaimed, hnodup, hrange, hle⟩ :=
      hmethods.adds hopened hnames.1 hproper.1
    have hclosed : (S₁.closeClass c.name).Tidy := ⟨htidy.nodup, htidy.spelled, htidy.shaped⟩
    have hadds : S.Adds rs (S₁.closeClass c.name) :=
      ⟨hclosed, hreserved, hclaimed, hnodup, hrange, hle⟩
    exact hadds.append (ih hclosed hnames.2 hproper.2)

theorem tidy_initial : initial.Tidy :=
  ⟨by decide, by decide, by simp [initial]⟩

end Standing

/-! ### Programs -/

/-- What the labels of an accepted program are like. -/
structure Compilation.LabelsTidy (compilation : Compilation) : Prop where
  taken : compilation.data.taken.Nodup
  spelled : ∀ label ∈ compilation.data.taken, Spelled label
  shaped : ∀ entry ∈ compilation.data.entries, StringShaped entry.label
  reserved : compilation.data.reserved =
    (compilation.methods.map (·.entryLabel)).reverse ++ Label.fixed
  claimed : ∀ r ∈ compilation.methods, Label.isGenerated r.entryLabel = false
  ids : (compilation.routines.flatMap (·.body.ids)).Nodup
  entry : compilation.entry.owner = none

theorem Tree.Program.Elaborates.labelsTidy {p : Tree.Program} {compilation : Compilation}
    (hproper : ∀ l ∈ p.yield, l.Proper) (h : p.Elaborates compilation) :
    compilation.LabelsTidy := by
  cases h with
  | @intro S S' rs body hclasses hmain =>
    have hadds := hclasses.adds Standing.tidy_initial
      (isName_class hproper) (proper_methods hproper)
    have hbegin : (S.begin none Keyword.mainDef.text none).Tidy :=
      ⟨hadds.tidy.nodup, hadds.tidy.spelled, hadds.tidy.shaped⟩
    have hnamed : (S.begin none Keyword.mainDef.text none).Named :=
      ⟨fun o ho => by contradiction, fun _ => rfl, show Spelled Keyword.mainDef.text by decide⟩
    have htidy := hmain.tidy hbegin hnamed (proper_main hproper)
    have hids : ∀ id ∈ body.ids, S.labels < id ∧ id ≤ S'.labels := hmain.ids.2
    refine ⟨htidy.nodup, htidy.spelled, htidy.shaped, hmain.reserved.trans hadds.reserved,
      hadds.claimed, ?_, rfl⟩
    rw [Compilation.routines, List.flatMap_cons, List.nodup_append]
    refine ⟨hmain.ids.1, hadds.nodup, fun a ha b hb hab => ?_⟩
    have hrange := hids a ha
    have hrange' := hadds.range b hb
    omega

theorem Routine.labelDefs_listing (r : Routine) :
    (labelDefs r.listing.lines).Perm (r.entryLabel :: r.body.heads.flatMap Branch.labels) := by
  have hlines : labelDefs r.listing.lines = r.entryLabel :: labelDefs r.body.code := by
    simp [Routine.listing, labelDefs_append]
  rw [hlines]
  exact r.body.labelDefs_code.cons _

theorem labelDefs_flatMap_listing (rs : List Routine) :
    (rs.flatMap fun r => labelDefs r.listing.lines).Perm
      (rs.map (·.entryLabel) ++ (rs.flatMap (·.body.heads)).flatMap Branch.labels) := by
  induction rs with
  | nil => simp
  | cons r rs ih =>
    rw [List.flatMap_cons, List.map_cons, List.flatMap_cons, List.flatMap_append]
    refine (r.labelDefs_listing.append ih).trans ?_
    rw [List.cons_append, List.cons_append]
    refine List.Perm.cons _ ?_
    -- the labels of blocks move behind those of the routines
    rw [← List.append_assoc, ← List.append_assoc]
    exact List.Perm.append_right _ List.perm_append_comm

/-- The entry point and the printing routines define the fixed labels. -/
theorem fixed_perm :
    (Label.entryPoint :: (labelDefs Printing.number ++ labelDefs Printing.string)).Perm
      Label.fixed := by
  decide

/-- All labels of the text are those that the data section knows and those of blocks. -/
theorem Compilation.LabelsTidy.labelDefs_layout {compilation : Compilation}
    (h : compilation.LabelsTidy) :
    compilation.layout.labelDefs.Perm (compilation.data.taken ++
      (compilation.routines.flatMap (·.body.heads)).flatMap Branch.labels) := by
  have hentry := compilation.entry.labelDefs_listing
  have hmethods := labelDefs_flatMap_listing compilation.methods
  have hexit : ClassLang.labelDefs Printing.exit = [] := rfl
  have hlabel : compilation.entry.entryLabel = Label.entryPoint := by
    rw [Routine.entryLabel, h.entry, Label.entry]
  rw [hlabel] at hentry
  rw [List.perm_iff_count] at hentry hmethods ⊢
  intro label
  have hfixed := List.perm_iff_count.1 fixed_perm label
  have hcountEntry := hentry label
  have hcountMethods := hmethods label
  simp only [Layout.labelDefs, Compilation.layout, Compilation.routines, DataSection.taken,
    h.reserved, hexit, List.flatMap_map, List.flatMap_cons, List.flatMap_append, List.count_append,
    List.count_cons, List.count_nil, List.count_reverse] at hfixed hcountEntry hcountMethods ⊢
  omega

theorem Compilation.LabelsTidy.nodup_labelDefs {compilation : Compilation}
    (h : compilation.LabelsTidy) : compilation.layout.labelDefs.Nodup := by
  rw [h.labelDefs_layout.nodup_iff, List.nodup_append]
  refine ⟨h.taken, nodup_flatMap_labels ?_, fun label hlabel label' hlabel' heq => ?_⟩
  · have hids := h.ids
    rwa [List.map_flatMap]
  · subst heq
    obtain ⟨head, -, hhead⟩ := List.mem_flatMap.1 hlabel'
    have hnumbered := Branch.numbered_of_mem_labels hhead
    rw [DataSection.taken, h.reserved, List.mem_append, List.mem_append, List.mem_reverse] at hlabel
    rcases hlabel with hlabel | hlabel | hlabel
    · obtain ⟨entry, hentry, rfl⟩ := List.mem_map.1 hlabel
      exact Label.not_numbered_of_stringShaped (h.shaped entry hentry) hnumbered
    · obtain ⟨r, hr, rfl⟩ := List.mem_map.1 hlabel
      have hgenerated := h.claimed r hr
      rw [hnumbered.isGenerated] at hgenerated
      cases hgenerated
    · exact Label.not_numbered_of_mem_fixed hlabel hnumbered

end ClassLang
