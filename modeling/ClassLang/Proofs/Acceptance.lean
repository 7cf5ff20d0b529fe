/-
  ClassLang/Proofs/Acceptance.lean
  ================================
  **What is accepted: the grammar and the static rules, nothing else.**

  The main statement is `accepts_iff`: the tokens of a text are accepted exactly if they
  spell a program tree that keeps the static rules.  The pass has been tied to
  elaboration of trees before; what is left is that elaboration of a whole tree succeeds
  exactly if the tree keeps the rules.

  Classes and methods are elaborated one after the other, and what is in the table of
  classes at each point is known: the classes above, and of the class at hand the
  methods above (`ReadsMethods`, `ReadsClasses`).  The rule about labels is carried
  along as a condition on the labels that are still to come.
-/
import ClassLang.Proofs.ProgramParsing
import ClassLang.Proofs.StatementAcceptance

namespace ClassLang

/-! ### Labels -/

/-- Whether labels fit depends on what is taken, not on the order. -/
theorem LabelsFit.congr {taken taken' : List String} (htaken : ∀ l, l ∈ taken ↔ l ∈ taken')
    {uses : List LabelUse} (h : LabelsFit taken uses) : LabelsFit taken' uses := by
  induction uses generalizing taken taken' with
  | nil => trivial
  | cons use rest ih =>
    have hcons : ∀ label l, l ∈ label :: taken ↔ l ∈ label :: taken' := by
      intro label l
      rw [List.mem_cons, List.mem_cons, htaken]
    cases use with
    | method label =>
      obtain ⟨hgenerated, hfree, hrest⟩ := h
      exact ⟨hgenerated, fun hl => hfree ((htaken _).2 hl), ih (hcons label) hrest⟩
    | string wanted =>
      obtain ⟨label, hlabel, hrest⟩ := h
      exact ⟨label, hlabel.congr htaken, ih (hcons label) hrest⟩

/-- A string takes the label that the data section gives it. -/
theorem labelsFit_string {data : DataSection} {wanted : String} (bytes : List UInt8)
    {rest : List LabelUse} :
    LabelsFit data.taken (.string wanted :: rest) ↔
      LabelsFit (data.insert wanted bytes).2.taken rest := by
  have hinsert : ∀ l, l ∈ data.freeLabel wanted :: data.taken ↔
      l ∈ (data.insert wanted bytes).2.taken := by
    intro l
    rw [DataSection.mem_taken_insert, List.mem_cons]
  constructor
  · rintro ⟨label, hlabel, hrest⟩
    obtain rfl := hlabel.unique (data.isFirstFree_freeLabel wanted)
    exact hrest.congr hinsert
  · intro hrest
    exact ⟨_, data.isFirstFree_freeLabel wanted, hrest.congr fun l => (hinsert l).symm⟩

theorem labelsFit_method {data : DataSection} {label : String} {rest : List LabelUse} :
    LabelsFit data.taken (.method label :: rest) ↔
      Label.isGenerated label = false ∧ data.isTaken label = false ∧
        LabelsFit (data.reserve label).taken rest := by
  have hreserve : ∀ l, l ∈ label :: data.taken ↔ l ∈ (data.reserve label).taken := by
    intro l
    rw [DataSection.mem_taken_reserve, List.mem_cons]
  have hfree : data.isTaken label = false ↔ label ∉ data.taken := by
    rw [← DataSection.isTaken_iff, Bool.not_eq_true]
  rw [hfree]
  constructor
  · rintro ⟨hgenerated, hnot, hrest⟩
    exact ⟨hgenerated, hnot, hrest.congr hreserve⟩
  · rintro ⟨hgenerated, hnot, hrest⟩
    exact ⟨hgenerated, hnot, hrest.congr fun l => (hreserve l).symm⟩

def ClassDef.withField (d : ClassDef) (f : String) : ClassDef :=
  { d with fields := d.fields ++ [f] }

namespace Standing

variable {S S' : Standing}

theorem Elaborates.labelsFit {s : Tree.Simple} {command : Command} {rest : List LabelUse}
    (hproper : ∀ l ∈ s.yield, l.Proper) (h : S.Elaborates s command S') :
    LabelsFit S.data.taken (s.labelUses S.owner S.method S.labels ++ rest) ↔
      LabelsFit S'.data.taken rest := by
  have hstring : ∀ {t : Tree.TypeName} {x : String} {i : Tree.Initial} {type : Ty},
      (∀ l ∈ (Tree.Simple.declare t x i).yield, l.Proper) → S.type? t = some type →
      (type = .string ↔ t = .string) := by
    intro t x i type ht htype
    simp only [Tree.Simple.yield, List.forall_mem_cons] at ht
    obtain ⟨-, rfl⟩ := (Context.type?_eq_some ht.1).1 htype
    cases t <;> simp [Tree.TypeName.type]
  have hnone : ∀ {t : Tree.TypeName} {x : String} {i : Tree.Initial}, t ≠ .string →
      (Tree.Simple.declare t x i).labelUses S.owner S.method S.labels = [] := by
    intro t x i ht
    cases t with
    | string => exact absurd rfl ht
    | int | named => rfl
  cases h with
  | number htype | create htype | copy htype =>
    rw [hnone ((not_congr (hstring hproper htype)).1 (by simp)), List.nil_append]
    exact Iff.rfl
  | text htype | string htype =>
    obtain rfl := (hstring hproper htype).1 rfl
    exact labelsFit_string _
  | printLiteral => exact labelsFit_string _
  | _ => exact Iff.rfl

theorem ElaboratesBlock.labelsFit {t : Tree.Block} {body : Body} {rest : List LabelUse}
    (hproper : ∀ l ∈ t.yield, l.Proper) (h : ElaboratesBlock S t body S') :
    LabelsFit S.data.taken (t.labelUses S.owner S.method S.labels ++ rest) ↔
      LabelsFit S'.data.taken rest := by
  induction h generalizing rest with
  | finish => exact Iff.rfl
  | simple hsimple _ ih =>
    simp only [Tree.Block.yield, List.forall_mem_append] at hproper
    rw [Tree.Block.labelUses, List.append_assoc, hsimple.labelsFit hproper.1, ← hsimple.keeps.owner,
      ← hsimple.keeps.method, ← hsimple.labels]
    exact ih hproper.2
  | @branch S S₁ S₂ kind c condition inner rest' _ _ hcondition hinner hrest ihInner ihRest =>
    simp only [Tree.Block.yield, List.forall_mem_cons, List.forall_mem_append] at hproper
    obtain ⟨-, -, -, hi, -, hr⟩ := hproper
    have hlabels : S₁.leave.labels = S.labels + 1 + inner.numbers := hinner.labels
    rw [Tree.Block.labelUses, List.append_assoc]
    refine (ihInner hi).trans ?_
    have hbehind := @ihRest rest hr
    rw [hlabels, hinner.keeps.leave.owner, hinner.keeps.leave.method] at hbehind
    exact hbehind

/-! ### Fields and methods -/

/-- Put the class at hand behind the classes above it. -/
def withClass (S : Standing) (above : List ClassDef) (d : ClassDef) : Standing :=
  { S with table := { S.table with classes := above ++ [d] } }

theorem opens_withClass {above : List ClassDef} {d d' : ClassDef} (h : S.table.Opens above d)
    (hname : d'.name = d.name) : (S.withClass above d').table.Opens above d' :=
  ⟨rfl, hname ▸ h.fresh, hname ▸ h.growing⟩

theorem withClass_self {above : List ClassDef} {d : ClassDef} (h : S.table.Opens above d) :
    S.withClass above d = S := by
  rw [withClass, ← h.classes]

/-- Fields are accepted exactly if they are distinct. -/
theorem exists_each?_field {above : List ClassDef} {d : ClassDef} (h : S.table.Opens above d)
    (hnodup : d.fields.Nodup) {fs : List String} :
    (∃ us, S.each? (field? d.name) fs = some (us, S')) ↔ (d.fields ++ fs).Nodup ∧
      S' = S.withClass above { d with fields := d.fields ++ fs } := by
  induction fs generalizing S d with
  | nil =>
    simp only [each?, Option.some.injEq, Prod.mk.injEq, exists_eq_left', List.append_nil, hnodup,
      true_and]
    rw [withClass_self h]
    exact eq_comm
  | cons f fs ih =>
    have hstep : ∀ {S₁ : Standing}, (∃ u, field? d.name S f = some (u, S₁)) ↔
        f ∉ d.fields ∧ S₁ = S.withClass above (d.withField f) := by
      intro S₁
      simp only [field?, Option.map_eq_some_iff, toOption_eq_some, h.addField_ok, Prod.mk.injEq]
      constructor
      · rintro ⟨-, _, ⟨hf, rfl⟩, -, rfl⟩
        exact ⟨hf, rfl⟩
      · rintro ⟨hf, rfl⟩
        exact ⟨(), _, ⟨hf, rfl⟩, trivial, rfl⟩
    have hopens : (S.withClass above (d.withField f)).table.Opens above (d.withField f) :=
      opens_withClass h rfl
    have hsplit : d.fields ++ f :: fs = (d.withField f).fields ++ fs := by
      simp [ClassDef.withField]
    have hnew : f ∉ d.fields → (d.withField f).fields.Nodup := by
      intro hf
      rw [ClassDef.withField, List.nodup_append]
      exact ⟨hnodup, by simp, fun a ha b hb hab => hf (List.mem_singleton.1 hb ▸ hab ▸ ha)⟩
    simp only [each?_cons]
    rw [hsplit]
    constructor
    · rintro ⟨_, u, S₁, hfield, us, S₂, hrest, -, rfl⟩
      obtain ⟨hf, rfl⟩ := hstep.1 ⟨u, hfield⟩
      exact (ih hopens (hnew hf)).1 ⟨us, hrest⟩
    · rintro ⟨hall, rfl⟩
      have hf : f ∉ d.fields := by
        rw [← hsplit, List.nodup_append] at hall
        exact fun hmem => hall.2.2 f hmem f (List.mem_cons_self ..) rfl
      obtain ⟨u, hfield⟩ := hstep.2 ⟨hf, rfl⟩
      obtain ⟨us, hrest⟩ := (ih hopens (hnew hf)).2 ⟨hall, rfl⟩
      exact ⟨_, u, _, hfield, us, _, hrest, rfl, rfl⟩

theorem parameter?_eq_some {q : Option Tree.Parameter} {p : Option Parameter}
    (hproper : ∀ l ∈ Tree.parameterYield q, l.Proper) :
    S.parameter? q = some p ↔ (∀ t ∈ q, S.sight.NamesType t.type) ∧
      p = q.map fun t => ⟨t.name, t.type.type⟩ := by
  cases q with
  | none => simp [parameter?, eq_comm]
  | some t =>
    simp only [Tree.parameterYield, List.forall_mem_cons] at hproper
    simp only [parameter?, Option.map_eq_some_iff, Context.type?_eq_some hproper.1,
      Option.mem_def, Option.some.injEq, forall_eq', Option.map_some]
    constructor
    · rintro ⟨_, ⟨hnames, rfl⟩, rfl⟩
      exact ⟨hnames, rfl⟩
    · rintro ⟨hnames, rfl⟩
      exact ⟨_, ⟨hnames, rfl⟩, rfl⟩

def entered (S : Standing) (above : List ClassDef) (d : ClassDef) (m : Tree.Method) : Standing :=
  { S.withClass above { d with methods := d.methods ++ [m.signature] } with
    data := S.data.reserve (Label.method d.name m.name) }.begin
      (some d.name) m.name m.signature.parameter

theorem header?_eq_some {above : List ClassDef} {d : ClassDef} (h : S.table.Opens above d)
    {m : Tree.Method} (hproper : ∀ l ∈ Tree.parameterYield m.parameter, l.Proper) :
    S.header? d.name m = some S' ↔
      (∀ q ∈ m.parameter, S.sight.NamesType q.type) ∧ m.name ∉ d.methods.map (·.name) ∧
      Label.isGenerated (Label.method d.name m.name) = false ∧
      S.data.isTaken (Label.method d.name m.name) = false ∧ S' = S.entered above d m := by
  simp only [header?, Option.bind_eq_bind, Option.bind_eq_some_iff, parameter?_eq_some hproper,
    toOption_eq_some, h.addMethod_ok, claim?, Option.ite_none_left_eq_some, Option.some.injEq,
    Bool.or_eq_true, not_or, Bool.not_eq_true]
  constructor
  · rintro ⟨_, ⟨hnames, rfl⟩, _, ⟨hnew, rfl⟩, _, ⟨⟨hgenerated, htaken⟩, rfl⟩, rfl⟩
    exact ⟨hnames, hnew, hgenerated, htaken, rfl⟩
  · rintro ⟨hnames, hnew, hgenerated, htaken, rfl⟩
    exact ⟨_, ⟨hnames, rfl⟩, _, ⟨hnew, rfl⟩, _, ⟨⟨hgenerated, htaken⟩, rfl⟩, rfl⟩

theorem sound_entered {above : List ClassDef} {d : ClassDef} (h : S.table.Opens above d)
    (hdistinct : S.table.Distinct) {m : Tree.Method} (hnew : m.name ∉ d.methods.map (·.name)) :
    (S.entered above d m).Sound := by
  have hmethods := hdistinct.methods
  have hclasses := hdistinct.classes
  rw [h.classes] at hmethods hclasses
  refine ⟨⟨?_, fun e he => ?_⟩, ?_, ?_⟩
  · simpa [entered, withClass, begin] using hclasses
  · rcases List.mem_append.1 he with he | he
    · exact hmethods e (List.mem_append_left _ he)
    · rw [List.mem_singleton.1 he, List.map_append, List.nodup_append]
      refine ⟨hmethods d (by simp), by simp, fun a ha b hb hab => hnew ?_⟩
      rw [List.map_cons, List.map_nil, List.mem_singleton] at hb
      have hname : a = m.name := hab.trans hb
      exact hname ▸ ha
  · intro frame hframe s hs
    rw [List.mem_singleton.1 hframe] at hs
    cases hs
  · intro s hs
    obtain ⟨p, -, rfl⟩ := Option.map_eq_some_iff.1 hs
    exact ⟨rfl, rfl⟩

/-- What the rules see at the beginning of a method. -/
theorem sight_entered (S : Standing) (above : List Tree.Class) (c : Tree.Class)
    (before : List Tree.Method) (m : Tree.Method) :
    (S.entered (above.map Tree.Class.definition) (c.withMethods before) m).sight =
      c.sight above before m := by
  have hparameter : (m.signature.parameter.map Symbol.ofParameter).map
      (fun s => (⟨s.name, s.type⟩ : Parameter)) = m.signature.parameter := by
    cases m.signature.parameter <;> rfl
  simp [Context.sight, entered, begin, withClass, Tree.Class.sight, Tree.Class.withMethods,
    hparameter]

theorem method?_eq_some {owner : String} {m : Tree.Method} {r : Routine} :
    S.method? owner m = some (r, S') ↔ ∃ S₁ body, S.header? owner m = some S₁ ∧
      ElaboratesBlock S₁ m.body body S' ∧ r = ⟨some owner, m.name, body⟩ := by
  simp only [method?, Option.bind_eq_bind, Option.bind_eq_some_iff, Prod.exists,
    Option.some.injEq, Prod.mk.injEq, block?_eq_some]
  constructor
  · rintro ⟨S₁, hheader, body, _, hbody, rfl, rfl⟩
    exact ⟨S₁, body, hheader, hbody, rfl⟩
  · rintro ⟨S₁, body, hheader, hbody, rfl⟩
    exact ⟨S₁, hheader, body, S', hbody, rfl, rfl⟩

theorem exists_method? {above : List Tree.Class} {c : Tree.Class} {before : List Tree.Method}
    (h : S.table.Opens (above.map Tree.Class.definition) (c.withMethods before))
    (hdistinct : S.table.Distinct) {m : Tree.Method} (hproper : ∀ l ∈ m.yield, l.Proper)
    {more : List (String × Tree.Method)} :
    (∃ r S', S.method? c.name m = some (r, S') ∧
      LabelsFit S'.data.taken (Tree.labelUses S'.labels more)) ↔
    (∀ q ∈ m.parameter, (c.sight above before m).NamesType q.type) ∧
      m.name ∉ before.map (·.name) ∧ (c.sight above before m).AllowsBlock m.body ∧
      LabelsFit S.data.taken (Tree.labelUses S.labels ((c.name, m) :: more)) := by
  simp only [Tree.Method.yield, List.forall_mem_cons, List.forall_mem_append] at hproper
  obtain ⟨-, -, hparameter, -, -, hbody, -⟩ := hproper
  have hnames : ∀ t, S.sight.NamesType t ↔ (c.sight above before m).NamesType t := by
    intro t
    cases t with
    | int | string => exact Iff.rfl
    | named x =>
      simp [Sight.NamesType, Context.sight, h.classes, Tree.Class.sight, Tree.Class.withMethods]
  have hmethods : (c.withMethods before).methods.map (·.name) = before.map (·.name) := by
    simp [Tree.Class.withMethods, Tree.Method.signature]
  constructor
  · rintro ⟨r, S', hmethod, hlabels⟩
    obtain ⟨S₁, body, hheader, hblock, rfl⟩ := method?_eq_some.1 hmethod
    obtain ⟨htypes, hnew, hgenerated, htaken, rfl⟩ := (header?_eq_some h hparameter).1 hheader
    have hsound := sound_entered h hdistinct hnew
    have hcount : S'.labels = S.labels + m.body.numbers := hblock.labels
    rw [hcount] at hlabels
    refine ⟨fun q hq => (hnames _).1 (htypes q hq), hmethods ▸ hnew, ?_, ?_⟩
    · rw [← sight_entered S]
      exact (exists_elaboratesBlock hsound hbody).1 ⟨_, _, hblock⟩
    · rw [Tree.labelUses, labelsFit_method]
      exact ⟨hgenerated, htaken, (hblock.labelsFit hbody).2 hlabels⟩
  · rintro ⟨htypes, hnew, hallows, hlabels⟩
    rw [Tree.labelUses, labelsFit_method] at hlabels
    obtain ⟨hgenerated, htaken, hlabels⟩ := hlabels
    rw [← hmethods] at hnew
    have hsound := sound_entered h hdistinct hnew
    have hheader := (header?_eq_some h hparameter).2
      ⟨fun q hq => (hnames _).2 (htypes q hq), hnew, hgenerated, htaken, rfl⟩
    rw [← sight_entered S] at hallows
    obtain ⟨body, S', hblock⟩ := (exists_elaboratesBlock hsound hbody).2 hallows
    have hcount : S'.labels = S.labels + m.body.numbers := hblock.labels
    refine ⟨_, S', method?_eq_some.2 ⟨_, body, hheader, hblock, rfl⟩, ?_⟩
    rw [hcount]
    exact (hblock.labelsFit hbody).1 hlabels

theorem opens_method? {above : List Tree.Class} {c : Tree.Class} {before : List Tree.Method}
    (h : S.table.Opens (above.map Tree.Class.definition) (c.withMethods before))
    (hdistinct : S.table.Distinct) {m : Tree.Method} (hproper : ∀ l ∈ m.yield, l.Proper)
    {r : Routine} (hmethod : S.method? c.name m = some (r, S')) :
    S'.table.Opens (above.map Tree.Class.definition) (c.withMethods (before ++ [m])) ∧
      S'.table.Distinct ∧ S'.table.closed = S.table.closed := by
  simp only [Tree.Method.yield, List.forall_mem_cons, List.forall_mem_append] at hproper
  obtain ⟨S₁, body, hheader, hblock, rfl⟩ := method?_eq_some.1 hmethod
  obtain ⟨-, hnew, -, -, rfl⟩ := (header?_eq_some h hproper.2.2.1).1 hheader
  have htable := hblock.keeps.table
  refine ⟨?_, ?_, by rw [htable]; rfl⟩
  · rw [htable]
    exact ⟨by simp [entered, begin, withClass, Tree.Class.withMethods], h.fresh, h.growing⟩
  · rw [htable]
    exact (sound_entered h hdistinct hnew).table

/-- What holds of every element of a list and the elements before it, by recursion on the list. -/
theorem forall_split_cons {α : Type} {P : List α → α → Prop} {a : α} {l : List α} :
    (∀ before b behind, a :: l = before ++ b :: behind → P before b) ↔
      P [] a ∧ ∀ before b behind, l = before ++ b :: behind → P (a :: before) b := by
  constructor
  · intro h
    exact ⟨h [] a l rfl, fun before b behind hl => h (a :: before) b behind (by rw [hl]; rfl)⟩
  · rintro ⟨hfirst, hrest⟩ before b behind hl
    cases before with
    | nil =>
      cases hl
      exact hfirst
    | cons a' before =>
      cases hl
      exact hrest before b behind rfl

theorem exists_each?_method {above : List Tree.Class} {c : Tree.Class}
    {before ms : List Tree.Method}
    (h : S.table.Opens (above.map Tree.Class.definition) (c.withMethods before))
    (hdistinct : S.table.Distinct) (hproper : ∀ m ∈ ms, ∀ l ∈ m.yield, l.Proper)
    {more : List (String × Tree.Method)} :
    (∃ rs S', S.each? (method? c.name) ms = some (rs, S') ∧
      LabelsFit S'.data.taken (Tree.labelUses S'.labels more)) ↔
    (∀ pre m post, ms = pre ++ m :: post →
      (∀ q ∈ m.parameter, (c.sight above (before ++ pre) m).NamesType q.type) ∧
      m.name ∉ (before ++ pre).map (·.name) ∧
      (c.sight above (before ++ pre) m).AllowsBlock m.body) ∧
    LabelsFit S.data.taken (Tree.labelUses S.labels (ms.map (c.name, ·) ++ more)) := by
  induction ms generalizing S before with
  | nil => simp [each?]
  | cons m ms ih =>
    rw [List.forall_mem_cons] at hproper
    rw [forall_split_cons]
    replace ih := fun {S} => @ih S (before ++ [m])
    simp only [each?_cons, List.append_nil]
    simp only [List.append_assoc, List.cons_append, List.nil_append] at ih
    constructor
    · rintro ⟨_, _, ⟨r, S₁, hmethod, rs, S₂, hrest, rfl, rfl⟩, hlabels⟩
      obtain ⟨hopens, hdistinct', -⟩ := opens_method? h hdistinct hproper.1 hmethod
      obtain ⟨hbehind, hlabels⟩ := (ih hopens hdistinct' hproper.2).1 ⟨rs, S₂, hrest, hlabels⟩
      obtain ⟨htypes, hnew, hbody, hlabels⟩ :=
        (exists_method? h hdistinct hproper.1).1 ⟨r, S₁, hmethod, hlabels⟩
      exact ⟨⟨⟨htypes, hnew, hbody⟩, hbehind⟩, hlabels⟩
    · rintro ⟨⟨⟨htypes, hnew, hbody⟩, hbehind⟩, hlabels⟩
      obtain ⟨r, S₁, hmethod, hlabels⟩ :=
        (exists_method? h hdistinct hproper.1).2 ⟨htypes, hnew, hbody, hlabels⟩
      obtain ⟨hopens, hdistinct', -⟩ := opens_method? h hdistinct hproper.1 hmethod
      obtain ⟨rs, S₂, hrest, hlabels⟩ := (ih hopens hdistinct' hproper.2).2 ⟨hbehind, hlabels⟩
      exact ⟨_, _, ⟨r, S₁, hmethod, rs, S₂, hrest, rfl, rfl⟩, hlabels⟩

theorem opens_each?_method {above : List Tree.Class} {c : Tree.Class}
    {before ms : List Tree.Method}
    (h : S.table.Opens (above.map Tree.Class.definition) (c.withMethods before))
    (hdistinct : S.table.Distinct) (hproper : ∀ m ∈ ms, ∀ l ∈ m.yield, l.Proper)
    {rs : List Routine} (heach : S.each? (method? c.name) ms = some (rs, S')) :
    S'.table.Opens (above.map Tree.Class.definition) (c.withMethods (before ++ ms)) ∧
      S'.table.Distinct ∧ S'.table.closed = S.table.closed := by
  induction ms generalizing S before rs with
  | nil =>
    cases heach
    rw [List.append_nil]
    exact ⟨h, hdistinct, rfl⟩
  | cons m ms ih =>
    rw [List.forall_mem_cons] at hproper
    obtain ⟨r, S₁, hmethod, rs, S₂, hrest, rfl, rfl⟩ := each?_cons.1 heach
    obtain ⟨hopens, hdistinct', hclosed⟩ := opens_method? h hdistinct hproper.1 hmethod
    obtain ⟨hopens', hdistinct'', hclosed'⟩ := ih hopens hdistinct' hproper.2 hrest
    rw [List.append_assoc, List.singleton_append] at hopens'
    exact ⟨hopens', hdistinct'', hclosed'.trans hclosed⟩

/-! ### Classes -/

/-- The table holds the classes above, and no other class is closed. -/
structure ReadsClasses (S : Standing) (above : List Tree.Class) : Prop where
  classes : S.table.classes = above.map Tree.Class.definition
  closed : ∀ n ∈ S.table.closed, n ∈ above.map (·.name)
  distinct : S.table.Distinct

/-- A class is closed when it has all of its methods. -/
theorem ReadsClasses.close {S₁ : Standing} {above : List Tree.Class} {c : Tree.Class}
    (h : S.ReadsClasses above)
    (hopens : S₁.table.Opens (above.map Tree.Class.definition) (c.withMethods c.methods))
    (hdistinct : S₁.table.Distinct) (hclosed : S₁.table.closed = S.table.closed) :
    (S₁.closeClass c.name).ReadsClasses (above ++ [c]) := by
  refine ⟨?_, ?_, hdistinct.classes, hdistinct.methods⟩
  · rw [List.map_append]
    exact hopens.classes
  · intro n hn
    have hn : n ∈ c.name :: S₁.table.closed := hn
    rw [hclosed, List.mem_cons] at hn
    rw [List.map_append, List.mem_append]
    rcases hn with rfl | hn
    · exact .inr (List.mem_singleton_self _)
    · exact .inl (h.closed n hn)

def opened (S : Standing) (above : List Tree.Class) (c : Tree.Class) : Standing :=
  { S with
    table := { S.table.enter c.name with
      classes := above.map Tree.Class.definition ++ [c.withMethods []] }
    owner := some c.name }

theorem openClass?_eq_some {above : List Tree.Class} (h : S.ReadsClasses above)
    {c : Tree.Class} :
    S.openClass? c = some S' ↔
      c.name ∉ above.map (·.name) ∧ c.fields.Nodup ∧ S' = S.opened above c := by
  have hnames : S.table.classes.map (·.name) = above.map (·.name) := by
    simp [h.classes, Tree.Class.definition, Tree.Class.withMethods]
  simp only [openClass?, Option.bind_eq_bind, Option.bind_eq_some_iff, toOption_eq_some,
    ClassTable.declareClass_ok, ClassTable.find?_eq_none, hnames, Prod.exists, Option.some.injEq]
  have hopens : c.name ∉ above.map (·.name) →
      (S.table.enter c.name).Opens (above.map Tree.Class.definition) ⟨c.name, [], []⟩ := by
    intro hfresh
    refine ⟨by rw [ClassTable.enter_classes, h.classes], ?_,
      fun hclosed => hfresh (h.closed _ hclosed)⟩
    rw [← h.classes, hnames]
    exact hfresh
  have hfields : c.name ∉ above.map (·.name) → ∀ {S₁ : Standing},
      (∃ us, each? (field? c.name)
        { S with table := S.table.enter c.name, owner := some c.name } c.fields =
          some (us, S₁)) ↔
      c.fields.Nodup ∧ S₁ = S.opened above c :=
    fun hfresh S₁ => @exists_each?_field _ S₁ _ ⟨c.name, [], []⟩ (hopens hfresh) List.nodup_nil _
  constructor
  · rintro ⟨_, ⟨hfresh, rfl⟩, us, S₁, heach, rfl⟩
    exact ⟨hfresh, (hfields hfresh).1 ⟨us, heach⟩⟩
  · rintro ⟨hfresh, hopened⟩
    obtain ⟨us, heach⟩ := (hfields hfresh).2 hopened
    exact ⟨_, ⟨hfresh, rfl⟩, us, _, heach, rfl⟩

theorem opens_opened {above : List Tree.Class} (h : S.ReadsClasses above) {c : Tree.Class}
    (hfresh : c.name ∉ above.map (·.name)) :
    (S.opened above c).table.Opens (above.map Tree.Class.definition) (c.withMethods []) ∧
      (S.opened above c).table.Distinct := by
  have hnames : (above.map Tree.Class.definition).map (·.name) = above.map (·.name) := by
    simp [Tree.Class.definition, Tree.Class.withMethods]
  have hclasses := hnames ▸ h.classes ▸ h.distinct.classes
  refine ⟨⟨rfl, by rw [hnames]; exact hfresh, fun hclosed => hfresh (h.closed _ hclosed)⟩, ?_, ?_⟩
  · show ((above.map Tree.Class.definition ++ [c.withMethods []]).map (·.name)).Nodup
    rw [List.map_append, hnames, List.nodup_append]
    refine ⟨hclasses, by simp, fun a ha b hb hab => hfresh ?_⟩
    have hname : a = c.name := hab.trans (List.mem_singleton.1 hb)
    exact hname ▸ ha
  · intro d hd
    rcases List.mem_append.1 hd with hd | hd
    · exact h.distinct.methods d (h.classes ▸ hd)
    · rw [List.mem_singleton.1 hd]
      exact List.nodup_nil

theorem exists_class? {above : List Tree.Class} (h : S.ReadsClasses above) {c : Tree.Class}
    (hproper : ∀ m ∈ c.methods, ∀ l ∈ m.yield, l.Proper) {more : List (String × Tree.Method)} :
    (∃ rs S', S.class? c = some (rs, S') ∧
      LabelsFit S'.data.taken (Tree.labelUses S'.labels more)) ↔
    (c.name ∉ above.map (·.name) ∧ c.fields.Nodup ∧
      ∀ before m behind, c.methods = before ++ m :: behind →
        (∀ q ∈ m.parameter, (c.sight above before m).NamesType q.type) ∧
        m.name ∉ before.map (·.name) ∧ (c.sight above before m).AllowsBlock m.body) ∧
    LabelsFit S.data.taken (Tree.labelUses S.labels (c.methods.map (c.name, ·) ++ more)) := by
  simp only [class?, Option.bind_eq_bind, Option.bind_eq_some_iff, openClass?_eq_some h,
    Prod.exists, Option.some.injEq, Prod.mk.injEq]
  constructor
  · rintro ⟨_, _, ⟨_, ⟨hfresh, hnodup, rfl⟩, rs, S₁, hmethods, rfl, rfl⟩, hlabels⟩
    obtain ⟨hopens, hdistinct⟩ := opens_opened h hfresh
    obtain ⟨hrules, hlabels⟩ :=
      (exists_each?_method hopens hdistinct hproper).1 ⟨rs, S₁, hmethods, hlabels⟩
    exact ⟨⟨hfresh, hnodup, hrules⟩, hlabels⟩
  · rintro ⟨⟨hfresh, hnodup, hrules⟩, hlabels⟩
    obtain ⟨hopens, hdistinct⟩ := opens_opened h hfresh
    obtain ⟨rs, S₁, hmethods, hlabels⟩ :=
      (exists_each?_method hopens hdistinct hproper).2 ⟨hrules, hlabels⟩
    exact ⟨_, _, ⟨_, ⟨hfresh, hnodup, rfl⟩, rs, S₁, hmethods, rfl, rfl⟩, hlabels⟩

theorem readsClasses_class? {above : List Tree.Class} (h : S.ReadsClasses above) {c : Tree.Class}
    (hproper : ∀ m ∈ c.methods, ∀ l ∈ m.yield, l.Proper) {rs : List Routine}
    (hclass : S.class? c = some (rs, S')) : S'.ReadsClasses (above ++ [c]) := by
  simp only [class?, Option.bind_eq_bind, Option.bind_eq_some_iff, openClass?_eq_some h,
    Prod.exists, Option.some.injEq, Prod.mk.injEq] at hclass
  obtain ⟨_, ⟨hfresh, -, rfl⟩, rs, S₁, hmethods, rfl, rfl⟩ := hclass
  obtain ⟨hopens, hdistinct⟩ := opens_opened h hfresh
  obtain ⟨hopens, hdistinct, hclosed⟩ := opens_each?_method hopens hdistinct hproper hmethods
  exact h.close hopens hdistinct hclosed

theorem exists_each?_class {above cs : List Tree.Class} (h : S.ReadsClasses above)
    (hproper : ∀ c ∈ cs, ∀ m ∈ c.methods, ∀ l ∈ m.yield, l.Proper) :
    (∃ rs S', S.each? class? cs = some (rs, S')) ↔
    (∀ pre c post, cs = pre ++ c :: post → c.name ∉ (above ++ pre).map (·.name) ∧
      c.fields.Nodup ∧ ∀ before m behind, c.methods = before ++ m :: behind →
        (∀ q ∈ m.parameter, (c.sight (above ++ pre) before m).NamesType q.type) ∧
        m.name ∉ before.map (·.name) ∧ (c.sight (above ++ pre) before m).AllowsBlock m.body) ∧
    LabelsFit S.data.taken
      (Tree.labelUses S.labels (cs.flatMap fun c => c.methods.map (c.name, ·))) := by
  induction cs generalizing S above with
  | nil => simp [each?, Tree.labelUses, LabelsFit]
  | cons c cs ih =>
    rw [List.forall_mem_cons] at hproper
    rw [forall_split_cons]
    replace ih := fun {S} => @ih S (above ++ [c])
    simp only [each?_cons, List.append_nil, List.flatMap_cons]
    simp only [List.append_assoc, List.cons_append, List.nil_append] at ih
    constructor
    · rintro ⟨_, _, r, S₁, hclass, rs, S₂, hrest, rfl, rfl⟩
      obtain ⟨hbehind, hlabels⟩ :=
        (ih (readsClasses_class? h hproper.1 hclass) hproper.2).1 ⟨rs, _, hrest⟩
      obtain ⟨hrules, hlabels⟩ := (exists_class? h hproper.1).1 ⟨r, S₁, hclass, hlabels⟩
      exact ⟨⟨hrules, hbehind⟩, hlabels⟩
    · rintro ⟨⟨hrules, hbehind⟩, hlabels⟩
      obtain ⟨r, S₁, hclass, hlabels⟩ := (exists_class? h hproper.1).2 ⟨hrules, hlabels⟩
      obtain ⟨rs, S₂, hrest⟩ :=
        (ih (readsClasses_class? h hproper.1 hclass) hproper.2).2 ⟨hbehind, hlabels⟩
      exact ⟨_, _, r, S₁, hclass, rs, S₂, hrest, rfl, rfl⟩

theorem readsClasses_each?_class {above cs : List Tree.Class} (h : S.ReadsClasses above)
    (hproper : ∀ c ∈ cs, ∀ m ∈ c.methods, ∀ l ∈ m.yield, l.Proper) {rs : List (List Routine)}
    (heach : S.each? class? cs = some (rs, S')) : S'.ReadsClasses (above ++ cs) := by
  induction cs generalizing S above rs with
  | nil =>
    cases heach
    rw [List.append_nil]
    exact h
  | cons c cs ih =>
    rw [List.forall_mem_cons] at hproper
    obtain ⟨r, S₁, hclass, rs, S₂, hrest, rfl, rfl⟩ := each?_cons.1 heach
    have hclasses := ih (readsClasses_class? h hproper.1 hclass) hproper.2 hrest
    rw [List.append_assoc, List.singleton_append] at hclasses
    exact hclasses

theorem readsClasses_initial : initial.ReadsClasses [] :=
  ⟨rfl, by simp [initial, ClassTable.empty], ⟨by simp [initial, ClassTable.empty],
    by simp [initial, ClassTable.empty]⟩⟩

/-! ### Programs -/

theorem exists_main? {cs : List Tree.Class} (h : S.ReadsClasses cs) {body : Tree.Block}
    (hproper : ∀ l ∈ body.yield, l.Proper) :
    (∃ r S', S.main? body = some (r, S')) ↔
      Sight.AllowsBlock ⟨cs.map Tree.Class.definition, none, none, [], []⟩ body := by
  have hsound : (S.begin none Keyword.mainDef.text none).Sound := by
    refine ⟨h.distinct, fun frame hframe s hs => ?_, fun q hq => by cases hq⟩
    rw [List.mem_singleton.1 hframe] at hs
    cases hs
  have hsight : (S.begin none Keyword.mainDef.text none).sight =
      ⟨cs.map Tree.Class.definition, none, none, [], []⟩ := by
    simp [Context.sight, begin, h.classes]
  rw [← hsight, ← exists_elaboratesBlock hsound hproper]
  simp only [main?_eq_some]
  constructor
  · rintro ⟨_, S₁, b, hblock, -⟩
    exact ⟨b, S₁, hblock⟩
  · rintro ⟨b, S₁, hblock⟩
    exact ⟨_, S₁, b, hblock, rfl⟩

end Standing

/-- Keys are distinct exactly if none is among those before it. -/
theorem nodup_map_iff_split {α : Type} {key : α → String} {l : List α} :
    (l.map key).Nodup ↔
      ∀ before a behind, l = before ++ a :: behind → key a ∉ before.map key := by
  induction l with
  | nil => simp
  | cons b l ih =>
    rw [Standing.forall_split_cons, List.map_cons, List.nodup_cons, ih]
    constructor
    · rintro ⟨hnew, hrest⟩
      refine ⟨by simp, fun before a behind hl hmem => ?_⟩
      rcases List.mem_cons.1 hmem with heq | hmem
      · exact hnew (heq ▸ List.mem_map_of_mem (by simp [hl]))
      · exact hrest before a behind hl hmem
    · rintro ⟨-, hrest⟩
      refine ⟨fun hmem => ?_, fun before a behind hl hmem =>
        hrest before a behind hl (List.mem_cons_of_mem _ hmem)⟩
      obtain ⟨a, ha, heq⟩ := List.mem_map.1 hmem
      obtain ⟨before, behind, hl⟩ := List.append_of_mem ha
      exact hrest before a behind hl (by simp [heq])

/-- The trees inside a program whose lexemes are proper have proper lexemes. -/
theorem Tree.Program.proper_methods {p : Tree.Program} (h : ∀ l ∈ p.yield, l.Proper) :
    ∀ c ∈ p.classes, ∀ m ∈ c.methods, ∀ l ∈ m.yield, l.Proper := by
  intro c hc m hm l hl
  refine h l (List.mem_append_left _ (List.mem_flatMap.2 ⟨c, hc, ?_⟩))
  simp only [Tree.Class.yield, List.mem_cons, List.mem_append, List.mem_flatMap]
  exact .inr (.inr (.inr (.inr (.inl ⟨m, hm, hl⟩))))

theorem Tree.Program.proper_main {p : Tree.Program} (h : ∀ l ∈ p.yield, l.Proper) :
    ∀ l ∈ p.main.yield, l.Proper := by
  intro l hl
  refine h l (List.mem_append_right _ ?_)
  simp only [Tree.mainYield, List.mem_cons, List.mem_append]
  exact .inr (.inr (.inr (.inr (.inl hl))))

theorem Tree.Program.isName_class {p : Tree.Program} (h : ∀ l ∈ p.yield, l.Proper) :
    ∀ c ∈ p.classes, IsName c.name := by
  intro c hc
  refine h (Tree.ident c.name) (List.mem_append_left _ (List.mem_flatMap.2 ⟨c, hc, ?_⟩))
  simp [Tree.Class.yield]

/-- A program tree elaborates exactly if it keeps the static rules. -/
theorem Tree.Program.exists_compile? {p : Tree.Program} (hproper : ∀ l ∈ p.yield, l.Proper) :
    (∃ compilation, p.compile? = some compilation) ↔ p.WellFormed := by
  have hmethods := proper_methods hproper
  have hmain := proper_main hproper
  have hclasses := @Standing.exists_each?_class Standing.initial [] p.classes
    Standing.readsClasses_initial hmethods
  simp only [List.nil_append] at hclasses
  constructor
  · rintro ⟨compilation, hcompile⟩
    obtain ⟨rs, S₁, heach, entry, S₂, hentry, rfl⟩ := compile?_eq_some.1 hcompile
    obtain ⟨hrules, hlabels⟩ := hclasses.1 ⟨rs, S₁, heach⟩
    have hreads := Standing.readsClasses_each?_class Standing.readsClasses_initial hmethods heach
    refine ⟨?_, ?_, ?_, ?_, ?_, ?_, hlabels⟩
    · exact nodup_map_iff_split.2 fun above c below hl => (hrules above c below hl).1
    · intro c hc
      obtain ⟨above, below, hl⟩ := List.append_of_mem hc
      exact (hrules above c below hl).2.1
    · intro c hc
      obtain ⟨above, below, hl⟩ := List.append_of_mem hc
      exact nodup_map_iff_split.2 fun before m behind hm =>
        ((hrules above c below hl).2.2 before m behind hm).2.1
    · intro above c below hl before m behind hm
      exact ((hrules above c below hl).2.2 before m behind hm).1
    · intro above c below hl before m behind hm
      exact ((hrules above c below hl).2.2 before m behind hm).2.2
    · exact (Standing.exists_main? hreads hmain).1 ⟨entry, S₂, hentry⟩
  · rintro ⟨hnames, hfields, hmethodNames, hparameters, hbodies, hallows, hlabels⟩
    obtain ⟨rs, S₁, heach⟩ := hclasses.2 ⟨fun above c below hl =>
      have hc : c ∈ p.classes := by simp [hl]
      ⟨nodup_map_iff_split.1 hnames above c below hl, hfields c hc, fun before m behind hm =>
        ⟨hparameters above c below hl before m behind hm,
          nodup_map_iff_split.1 (hmethodNames c hc) before m behind hm,
          hbodies above c below hl before m behind hm⟩⟩, hlabels⟩
    have hreads := Standing.readsClasses_each?_class Standing.readsClasses_initial hmethods heach
    obtain ⟨entry, S₂, hentry⟩ := (Standing.exists_main? hreads hmain).2 hallows
    exact ⟨_, compile?_eq_some.2 ⟨rs, S₁, heach, entry, S₂, hentry, rfl⟩⟩

theorem exists_of_isOk {ε α : Type} {e : Except ε α} (h : e.isOk = true) : ∃ a, e = .ok a := by
  cases e with
  | ok a => exact ⟨a, rfl⟩
  | error fault => cases h

/-- Acceptance is the grammar and the static rules: the tokens of a text are compiled exactly if
    they spell a program tree that keeps the rules. -/
theorem accepts_iff {source : String} {tokens : List Token} (h : tokenize source = .ok tokens) :
    (∃ compilation, compileTokens tokens = .ok compilation) ↔
      ∃ p : Tree.Program, p.yield = tokens.map Token.lexeme ∧ p.WellFormed := by
  have hproper := proper_lexemes h
  simp only [compileTokens_eq_ok_iff]
  constructor
  · rintro ⟨compilation, p, hyield, hcompile⟩
    exact ⟨p, hyield, (Tree.Program.exists_compile? (hyield ▸ hproper)).1 ⟨compilation, hcompile⟩⟩
  · rintro ⟨p, hyield, hwell⟩
    obtain ⟨compilation, hcompile⟩ := (Tree.Program.exists_compile? (hyield ▸ hproper)).2 hwell
    exact ⟨compilation, p, hyield, hcompile⟩

/-- A text with a class, a method with a parameter and a call of it. -/
def counterText : String :=
  "class A \x7b int n; put(int k) \x7b this.n = k; \x7d \x7d " ++
    "main() \x7b A a = A.CreateInstance(); a.put(7); print(a.n); \x7d"

theorem accepts_iff_counter :
    ∃ tokens, tokenize counterText = .ok tokens ∧
      ∃ p : Tree.Program, p.yield = tokens.map Token.lexeme ∧ p.WellFormed := by
  have hok : (compile counterText).isOk = true := by
    decide +kernel
  obtain ⟨compilation, hcompile⟩ := exists_of_isOk hok
  obtain ⟨tokens, htokens, hpass⟩ := bind_eq_ok.1 hcompile
  exact ⟨tokens, htokens, (accepts_iff htokens).1 ⟨compilation, hpass⟩⟩

end ClassLang
