/-
  ClassLang/Proofs/ProgramElaboration.lean
  ========================================
  **Elaboration of programs, rule by rule.**

  `ElaboratesMethods` and `ElaboratesClasses` do for definitions what `Elaborates` does
  for statements: they say what elaborating them can do, with every standing on the
  way.  Whatever is to hold at the end of an accepted program is carried along these
  rules from `Standing.initial`, and `exists_elaborates_of_compile` says that every
  accepted program has come this way.
-/
import ClassLang.Proofs.Acceptance

namespace ClassLang

namespace Standing

/-- What elaborating methods of a class can do, where some classes stand above and some methods
    have been read before. -/
inductive ElaboratesMethods (above : List Tree.Class) (c : Tree.Class) :
    List Tree.Method → Standing → List Tree.Method → List Routine → Standing → Prop where
  | nil {before : List Tree.Method} {S : Standing} : ElaboratesMethods above c before S [] [] S
  | cons {before ms : List Tree.Method} {m : Tree.Method} {S S₁ S₂ : Standing} {body : Body}
      {rs : List Routine} (hparameter : ∀ q ∈ m.parameter, S.sight.NamesType q.type)
      (hnew : m.name ∉ before.map (·.name))
      (hgenerated : Label.isGenerated (Label.method c.name m.name) = false)
      (hfree : Label.method c.name m.name ∉ S.data.taken)
      (hbody : ElaboratesBlock
        (S.entered (above.map Tree.Class.definition) (c.withMethods before) m) m.body body S₁)
      (hrest : ElaboratesMethods above c (before ++ [m]) S₁ ms rs S₂) :
      ElaboratesMethods above c before S (m :: ms) (⟨some c.name, m.name, body⟩ :: rs) S₂

/-- What elaborating classes can do, where some classes stand above. -/
inductive ElaboratesClasses :
    List Tree.Class → Standing → List Tree.Class → List Routine → Standing → Prop where
  | nil {above : List Tree.Class} {S : Standing} : ElaboratesClasses above S [] [] S
  | cons {above cs : List Tree.Class} {c : Tree.Class} {S S₁ S₂ : Standing}
      {rs rs' : List Routine} (hnew : c.name ∉ above.map (·.name))
      (hmethods : ElaboratesMethods above c [] (S.opened above c) c.methods rs S₁)
      (hrest : ElaboratesClasses (above ++ [c]) (S₁.closeClass c.name) cs rs' S₂) :
      ElaboratesClasses above S (c :: cs) (rs ++ rs') S₂

variable {S S' : Standing}

theorem elaboratesMethods_of_each? {above : List Tree.Class} {c : Tree.Class}
    {before ms : List Tree.Method}
    (h : S.table.Opens (above.map Tree.Class.definition) (c.withMethods before))
    (hdistinct : S.table.Distinct) (hproper : ∀ m ∈ ms, ∀ l ∈ m.yield, l.Proper)
    {rs : List Routine} (heach : S.each? (method? c.name) ms = some (rs, S')) :
    ElaboratesMethods above c before S ms rs S' := by
  induction ms generalizing S before rs with
  | nil =>
    cases heach
    exact .nil
  | cons m ms ih =>
    rw [List.forall_mem_cons] at hproper
    obtain ⟨r, S₁, hmethod, rs, S₂, hrest, rfl, rfl⟩ := each?_cons.1 heach
    obtain ⟨hopens, hdistinct', -⟩ := opens_method? h hdistinct hproper.1 hmethod
    have hparameter := hproper.1
    simp only [Tree.Method.yield, List.forall_mem_cons, List.forall_mem_append] at hparameter
    obtain ⟨_, body, hheader, hbody, rfl⟩ := method?_eq_some.1 hmethod
    obtain ⟨hknown, hnew, hgenerated, htaken, rfl⟩ :=
      (header?_eq_some h hparameter.2.2.1).1 hheader
    refine .cons hknown ?_ hgenerated ?_ hbody (ih hopens hdistinct' hproper.2 hrest)
    · simpa [Tree.Class.withMethods, Tree.Method.signature] using hnew
    · intro hmem
      rw [← DataSection.isTaken_iff] at hmem
      exact absurd (hmem.symm.trans htaken) (by decide)

theorem elaboratesClasses_of_each? {above cs : List Tree.Class} (h : S.ReadsClasses above)
    (hproper : ∀ c ∈ cs, ∀ m ∈ c.methods, ∀ l ∈ m.yield, l.Proper) {rs : List (List Routine)}
    (heach : S.each? class? cs = some (rs, S')) :
    ElaboratesClasses above S cs rs.flatten S' := by
  induction cs generalizing S above rs with
  | nil =>
    cases heach
    exact .nil
  | cons c cs ih =>
    rw [List.forall_mem_cons] at hproper
    obtain ⟨r, S₁, hclass, rs, S₂, hrest, rfl, rfl⟩ := each?_cons.1 heach
    have hreads := readsClasses_class? h hproper.1 hclass
    simp only [class?, Option.bind_eq_bind, Option.bind_eq_some_iff, openClass?_eq_some h,
      Prod.exists, Option.some.injEq, Prod.mk.injEq] at hclass
    obtain ⟨_, ⟨hfresh, -, rfl⟩, rs', S₃, hmethods, rfl, rfl⟩ := hclass
    obtain ⟨hopens, hdistinct⟩ := opens_opened h hfresh
    exact .cons hfresh (elaboratesMethods_of_each? hopens hdistinct hproper.1 hmethods)
      (ih hreads hproper.2 hrest)

end Standing

/-- What elaborating a program can do. -/
inductive Tree.Program.Elaborates (p : Tree.Program) : Compilation → Prop where
  | intro {S S' : Standing} {rs : List Routine} {body : Body}
      (hclasses : Standing.ElaboratesClasses [] .initial p.classes rs S)
      (hmain : Standing.ElaboratesBlock (S.begin none Keyword.mainDef.text none) p.main body S') :
      Elaborates p ⟨⟨none, Keyword.mainDef.text, body⟩, rs, S'.data, S'.table⟩

theorem Tree.Program.elaborates_of_compile? {p : Tree.Program} {compilation : Compilation}
    (hproper : ∀ l ∈ p.yield, l.Proper) (h : p.compile? = some compilation) :
    p.Elaborates compilation := by
  obtain ⟨rs, S₁, heach, _, _, hentry, rfl⟩ := compile?_eq_some.1 h
  obtain ⟨body, hmain, rfl⟩ := Standing.main?_eq_some.1 hentry
  exact .intro (Standing.elaboratesClasses_of_each? Standing.readsClasses_initial
    (proper_methods hproper) heach) hmain

/-- Every accepted program is the compilation of a tree that it spells, made by the rules. -/
theorem exists_elaborates_of_compile {source : String} {compilation : Compilation}
    (h : compile source = .ok compilation) :
    ∃ (tokens : List Token) (p : Tree.Program), tokenize source = .ok tokens ∧
      p.yield = tokens.map Token.lexeme ∧ (∀ l ∈ p.yield, l.Proper) ∧
      p.Elaborates compilation := by
  obtain ⟨tokens, htokens, hpass⟩ := bind_eq_ok.1 h
  obtain ⟨p, hyield, hcompile⟩ := compileTokens_eq_ok_iff.1 hpass
  have hproper : ∀ l ∈ p.yield, l.Proper := hyield ▸ proper_lexemes htokens
  exact ⟨tokens, p, htokens, hyield, hproper, Tree.Program.elaborates_of_compile? hproper hcompile⟩

end ClassLang
