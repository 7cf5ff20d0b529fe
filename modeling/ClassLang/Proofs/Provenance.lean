/-
  ClassLang/Proofs/Provenance.lean
  ================================
  **Where the routines of a compilation come from.**

  A routine is made in the middle of the pass, when the table of classes holds what has
  been read so far and strings are still being added.  Later statements about the whole
  output need to know how that moment relates to the end: what the table says is what
  the program says (`Covers`), and every string stored by then is still there.
  `Origin` puts this together for one routine, and `Elaborates.methods` and
  `Elaborates.main` give it for all of them.
-/
import Mathlib.Data.List.Forall2
import ClassLang.Proofs.ProgramElaboration

namespace ClassLang

/-! ### Two lists side by side -/

section

variable {α β : Type} {R : α → β → Prop} {l : List α} {l' : List β}

theorem exists_left_of_forall₂ (h : List.Forall₂ R l l') {b : β} (hb : b ∈ l') :
    ∃ a ∈ l, R a b := by
  induction h with
  | nil => cases hb
  | cons hR _ ih =>
    rcases List.mem_cons.1 hb with rfl | hb
    · exact ⟨_, List.mem_cons_self .., hR⟩
    · obtain ⟨a, ha, hab⟩ := ih hb
      exact ⟨a, List.mem_cons_of_mem _ ha, hab⟩

theorem exists_right_of_forall₂ (h : List.Forall₂ R l l') {a : α} (ha : a ∈ l) :
    ∃ b ∈ l', R a b :=
  exists_left_of_forall₂ (R := fun b a => R a b) (List.Forall₂.flip h) ha

end

/-! ### What the table says -/

/-- Whatever the table says of a class, the program says too. -/
def Tree.Program.Covers (p : Tree.Program) (table : ClassTable) : Prop :=
  ∀ {c : String} {d : ClassDef}, table.find? c = some d → ∃ k ∈ p.classes, k.name = c ∧
    d.fields = k.fields ∧ ∀ s ∈ d.methods, ∃ m ∈ k.methods, m.signature = s

/-- A table made of classes of the program, the last one with some of its methods. -/
theorem Tree.Program.covers_of_opens {p : Tree.Program} {table : ClassTable}
    {above : List Tree.Class} {c : Tree.Class} {ms : List Tree.Method}
    (hclasses : table.classes = above.map Tree.Class.definition ++ [c.withMethods ms])
    (habove : ∀ k ∈ above, k ∈ p.classes) (hc : c ∈ p.classes)
    (hms : ∀ m ∈ ms, m ∈ c.methods) : p.Covers table := by
  intro n d hfind
  have hmem := List.mem_of_find?_eq_some hfind
  have hname := ClassTable.name_of_find? hfind
  rw [hclasses, List.mem_append, List.mem_singleton] at hmem
  rcases hmem with hmem | rfl
  · obtain ⟨k, hk, rfl⟩ := List.mem_map.1 hmem
    exact ⟨k, habove k hk, hname, rfl, fun s hs => List.mem_map.1 hs⟩
  · refine ⟨c, hc, hname, rfl, fun s hs => ?_⟩
    obtain ⟨m, hm, rfl⟩ := List.mem_map.1 hs
    exact ⟨m, hms m hm, rfl⟩

theorem Tree.Program.covers_of_reads {p : Tree.Program} {S : Standing}
    (h : S.ReadsClasses p.classes) : p.Covers S.table := by
  intro n d hfind
  have hmem := List.mem_of_find?_eq_some hfind
  rw [h.classes] at hmem
  obtain ⟨k, hk, rfl⟩ := List.mem_map.1 hmem
  exact ⟨k, hk, ClassTable.name_of_find? hfind, rfl, fun s hs => List.mem_map.1 hs⟩

/-! ### Origins -/

/-- The standing at the beginning of a routine. -/
structure Tree.Program.Enters (p : Tree.Program) (S : Standing) (owner : Option String)
    (parameter : Option ClassLang.Parameter) : Prop where
  owner : S.owner = owner
  scope : S.scope = ⟨[], [], parameter.map Symbol.ofParameter⟩
  sound : S.Sound
  covers : p.Covers S.table
  known : ∀ q ∈ parameter, ∀ c, q.type = .object c → (S.table.find? c).isSome

/-- The body of a routine is what a block of the program is elaborated to, and the strings stored
    by then are among the entries. -/
def Tree.Program.Origin (p : Tree.Program) (entries : List DataEntry) (owner : Option String)
    (parameter : Option ClassLang.Parameter) (tree : Tree.Block) (body : Body) : Prop :=
  ∃ S S', p.Enters S owner parameter ∧ Standing.ElaboratesBlock S tree body S' ∧
    S'.data.entries <+: entries

namespace Standing

variable {S S' : Standing} {p : Tree.Program}

theorem Elaborates.entries {s : Tree.Simple} {command : Command} (h : S.Elaborates s command S') :
    S.data.entries <+: S'.data.entries := by
  cases h with
  | text | string | printLiteral => exact List.prefix_append _ _
  | _ => exact List.prefix_rfl

theorem ElaboratesBlock.entries {t : Tree.Block} {body : Body} (h : ElaboratesBlock S t body S') :
    S.data.entries <+: S'.data.entries := by
  induction h with
  | finish => exact List.prefix_rfl
  | simple hsimple _ ih => exact hsimple.entries.trans ih
  | branch _ _ _ ihInner ihRest => exact List.IsPrefix.trans ihInner ihRest

theorem ElaboratesMethods.entries {above : List Tree.Class} {c : Tree.Class}
    {before ms : List Tree.Method} {rs : List Routine}
    (h : ElaboratesMethods above c before S ms rs S') : S.data.entries <+: S'.data.entries := by
  induction h with
  | nil => exact List.prefix_rfl
  | cons _ _ _ _ hbody _ ih => exact List.IsPrefix.trans hbody.entries ih

theorem ElaboratesClasses.entries {above cs : List Tree.Class} {rs : List Routine}
    (h : ElaboratesClasses above S cs rs S') : S.data.entries <+: S'.data.entries := by
  induction h with
  | nil => exact List.prefix_rfl
  | cons _ hmethods _ ih => exact List.IsPrefix.trans hmethods.entries ih

theorem opens_entered {above : List Tree.Class} {c : Tree.Class} {before : List Tree.Method}
    (h : S.table.Opens (above.map Tree.Class.definition) (c.withMethods before)) (m : Tree.Method) :
    (S.entered (above.map Tree.Class.definition) (c.withMethods before) m).table.Opens
      (above.map Tree.Class.definition) (c.withMethods (before ++ [m])) :=
  ⟨by simp [entered, begin, withClass, Tree.Class.withMethods], h.fresh, h.growing⟩

/-- The class that a parameter is of stands above. -/
theorem known_parameter {above : List Tree.Class} {c : Tree.Class} {before : List Tree.Method}
    (h : S.table.Opens (above.map Tree.Class.definition) (c.withMethods before)) {m : Tree.Method}
    (hparameter : ∀ q ∈ m.parameter, S.sight.NamesType q.type) :
    ∀ q ∈ m.signature.parameter, ∀ n, q.type = .object n →
      ((S.entered (above.map Tree.Class.definition) (c.withMethods before) m).table.find?
        n).isSome := by
  intro q hq n hn
  obtain ⟨r, hr, rfl⟩ := Option.map_eq_some_iff.1 hq
  have hnames := hparameter r hr
  rw [← Option.ne_none_iff_isSome, ne_eq, ClassTable.find?_eq_none, not_not]
  cases htype : r.type with
  | int | string => simp [htype, Tree.TypeName.type] at hn
  | named c' =>
    have heq : c' = n := by simpa [htype, Tree.TypeName.type] using hn
    rw [htype, heq] at hnames
    have hmem : n ∈ S.table.classes.map (·.name) := hnames
    rw [h.classes] at hmem
    rw [(opens_entered h m).classes]
    simpa [Tree.Class.withMethods] using hmem

theorem ElaboratesMethods.origins {above : List Tree.Class} {c : Tree.Class}
    {before ms : List Tree.Method} {rs : List Routine} {entries : List DataEntry}
    (hopens : S.table.Opens (above.map Tree.Class.definition) (c.withMethods before))
    (hdistinct : S.table.Distinct) (habove : ∀ k ∈ above, k ∈ p.classes) (hc : c ∈ p.classes)
    (hms : ∀ m ∈ before ++ ms, m ∈ c.methods)
    (h : ElaboratesMethods above c before S ms rs S') (hentries : S'.data.entries <+: entries) :
    List.Forall₂ (fun (m : Tree.Method) (r : Routine) => r.owner = some c.name ∧ r.method = m.name ∧
        p.Origin entries (some c.name) m.signature.parameter m.body r.body) ms rs ∧
      S'.table.Opens (above.map Tree.Class.definition) (c.withMethods (before ++ ms)) ∧
      S'.table.Distinct ∧ S'.table.closed = S.table.closed := by
  induction h with
  | nil =>
    rw [List.append_nil]
    exact ⟨.nil, hopens, hdistinct, rfl⟩
  | @cons before ms m S S₁ S₂ body rs hparameter hnew _ _ hbody hrest ih =>
    have hnames : m.name ∉ (c.withMethods before).methods.map (·.name) := by
      simpa [Tree.Class.withMethods, Tree.Method.signature] using hnew
    have hsound := sound_entered hopens hdistinct hnames
    have hentered := opens_entered hopens m
    have htable := hbody.keeps.table
    have hsplit : before ++ m :: ms = (before ++ [m]) ++ ms := by simp
    rw [hsplit] at hms ⊢
    obtain ⟨hrests, hopens', hdistinct', hclosed⟩ :=
      ih (htable ▸ hentered) (htable ▸ hsound.table) hms hentries
    refine ⟨.cons ⟨rfl, rfl, ?_⟩ hrests, hopens', hdistinct', hclosed.trans (by rw [htable]; rfl)⟩
    refine ⟨_, S₁, ⟨rfl, rfl, hsound, ?_, ?_⟩, hbody, hrest.entries.trans hentries⟩
    · exact Tree.Program.covers_of_opens hentered.classes habove hc
        fun m' hm' => hms m' (List.mem_append_left _ hm')
    · exact known_parameter hopens hparameter

/-- The methods of all classes come from their trees, in their order. -/
theorem ElaboratesClasses.origins {above cs : List Tree.Class} {rs : List Routine}
    {entries : List DataEntry} (hreads : S.ReadsClasses above)
    (hcs : ∀ k ∈ above ++ cs, k ∈ p.classes) (h : ElaboratesClasses above S cs rs S')
    (hentries : S'.data.entries <+: entries) :
    List.Forall₂ (fun (q : String × Tree.Method) (r : Routine) =>
        r.owner = some q.1 ∧ r.method = q.2.name ∧
          p.Origin entries (some q.1) q.2.signature.parameter q.2.body r.body)
      (cs.flatMap fun c => c.methods.map fun m => (c.name, m)) rs ∧
      S'.ReadsClasses (above ++ cs) := by
  induction h with
  | nil =>
    rw [List.append_nil]
    exact ⟨.nil, hreads⟩
  | @cons above cs c S S₁ S₂ rs rs' hnew hmethods hrest ih =>
    obtain ⟨hopens, hdistinct⟩ := opens_opened hreads hnew
    obtain ⟨horigins, hopens', hdistinct', hclosed⟩ :=
      hmethods.origins hopens hdistinct (fun k hk => hcs k (List.mem_append_left _ hk))
        (hcs c (by simp)) (by simp) (hrest.entries.trans hentries)
    have hreads' : (S₁.closeClass c.name).ReadsClasses (above ++ [c]) :=
      hreads.close hopens' hdistinct' hclosed
    have hsplit : above ++ c :: cs = (above ++ [c]) ++ cs := by simp
    rw [hsplit] at hcs ⊢
    obtain ⟨hrests, hall⟩ := ih hreads' hcs hentries
    refine ⟨?_, hall⟩
    rw [List.flatMap_cons]
    refine List.rel_append ?_ hrests
    rw [List.forall₂_map_left_iff]
    exact horigins

end Standing

namespace Tree.Program

variable {p : Tree.Program} {compilation : Compilation}

/-- Every method of the program has its routine. -/
theorem Elaborates.methods (h : p.Elaborates compilation) :
    List.Forall₂ (fun (q : String × Tree.Method) (r : Routine) =>
        r.owner = some q.1 ∧ r.method = q.2.name ∧
          p.Origin compilation.data.entries (some q.1) q.2.signature.parameter q.2.body r.body)
      p.methods compilation.methods := by
  cases h with
  | @intro S S' rs body hclasses hmain =>
    have hentries : S.data.entries <+: S'.data.entries := hmain.entries
    exact (hclasses.origins Standing.readsClasses_initial (fun k hk => hk) hentries).1

theorem Elaborates.main (h : p.Elaborates compilation) :
    compilation.entry.owner = none ∧
      p.Origin compilation.data.entries none none p.main compilation.entry.body := by
  cases h with
  | @intro S S' rs body hclasses hmain =>
    have hentries : S.data.entries <+: S'.data.entries := hmain.entries
    have hreads : S.ReadsClasses p.classes :=
      (hclasses.origins Standing.readsClasses_initial (fun k hk => hk) hentries).2
    refine ⟨rfl, S.begin none Keyword.mainDef.text none, S',
      ⟨rfl, rfl, ⟨hreads.distinct, ?_, ?_⟩, covers_of_reads hreads, fun q hq => by cases hq⟩, hmain,
      List.prefix_rfl⟩
    · intro frame hframe s hs
      rw [List.mem_singleton.1 hframe] at hs
      cases hs
    · intro s hs
      cases hs

/-- Every routine is a method of the program or the entry point. -/
theorem Elaborates.origin (h : p.Elaborates compilation) {r : Routine}
    (hr : r ∈ compilation.routines) :
    ∃ parameter tree, p.Origin compilation.data.entries r.owner parameter tree r.body := by
  rcases List.mem_cons.1 hr with rfl | hr
  · obtain ⟨howner, horigin⟩ := h.main
    exact ⟨none, p.main, howner ▸ horigin⟩
  · obtain ⟨q, -, howner, -, horigin⟩ := exists_left_of_forall₂ h.methods hr
    exact ⟨_, _, howner ▸ horigin⟩

end Tree.Program

end ClassLang
