/-
  ClassLang/Proofs/StringEntries.lean
  ===================================
  **What the data section of a program holds.**

  A program stores a string in two places: where it declares a string variable, and
  where it writes a literal.  Read off the tree, these are the `StringSite`s of the
  program, in the order in which they stand in the text; a site is a literal, or a copy
  of the string that a variable stands for.  To say which one that is takes no labels:
  the variables that are alive are a list, the newest one first, each with the number of
  its site (`Bindings`).

  The pass goes by labels instead.  It gives every string a label that is free, keeps
  the label with the variable, and copies the bytes of whatever entry has the label.
  That the two agree is `Standing.Strung`: what a variable stands for has a label, and
  that label is the one of the entry with the number of its site.

  The main statement is `string_entries`; that labels and entries fit at every moment of
  the pass, accepted or not, is part of it.
-/
import ClassLang.Proofs.SemanticPreservation
import ClassLang.Proofs.StepInvariants

namespace ClassLang

/-! ### Strings in the text -/

/-- Where a string comes from: a literal, or the string with a number, if the name means one. -/
inductive StringSite where
  | literal (content : String)
  | copy (source : Option Nat)
deriving DecidableEq, Repr

namespace Tree

/-- The variables that are alive, the newest one first, and for strings the number of their site. -/
abbrev Bindings := List (String × Option Nat)

/-- The site of the string that a name stands for. -/
def Bindings.site? (bindings : Bindings) (x : String) : Option Nat :=
  (bindings.find? (·.1 == x)).bind (·.2)

def Initial.site (bindings : Bindings) : Initial → StringSite
  | .text content => .literal content
  | .value (.place (.variable y)) => .copy (bindings.site? y)
  | _ => .copy none

/-- A declaration of a string variable is a site, and so is a literal to be written. -/
def Simple.site? (bindings : Bindings) : Simple → Option StringSite
  | .declare .string _ initial => some (initial.site bindings)
  | .printText (.literal content) => some (.literal content)
  | _ => none

/-- The variables behind a statement, where the next site has number `n`. -/
def Simple.bind (n : Nat) (bindings : Bindings) : Simple → Bindings
  | .declare .string x _ => (x, some n) :: bindings
  | .declare _ x _ => (x, none) :: bindings
  | _ => bindings

/-- The sites of a block.  Behind a block inside, what it declared is forgotten. -/
def Block.sites (bindings : Bindings) (n : Nat) : Block → List StringSite
  | .finish => []
  | .simple s rest =>
      let here := (s.site? bindings).toList
      here ++ rest.sites (s.bind n bindings) (n + here.length)
  | .branch _ _ inner rest =>
      let here := inner.sites bindings n
      here ++ rest.sites bindings (n + here.length)

/-- The sites of routines, one after the other. -/
def sitesOf (n : Nat) : List Block → List StringSite
  | [] => []
  | body :: rest =>
      let here := body.sites [] n
      here ++ sitesOf (n + here.length) rest

/-- The bodies of a program in the order of the text. -/
def Program.bodies (p : Program) : List Block :=
  (p.methods.map fun q => q.2.body) ++ [p.main]

def Program.sites (p : Program) : List StringSite := sitesOf 0 p.bodies

theorem sitesOf_append (n : Nat) (bodies bodies' : List Block) :
    sitesOf n (bodies ++ bodies') =
      sitesOf n bodies ++ sitesOf (n + (sitesOf n bodies).length) bodies' := by
  induction bodies generalizing n with
  | nil => rfl
  | cons body bodies ih => simp only [List.cons_append, sitesOf, ih, List.append_assoc,
      List.length_append, Nat.add_assoc]

end Tree

/-! ### Strings in the data section -/

/-- What an entry holds that was made for a site, behind other entries: the bytes of the literal, or
    those of the entry that is copied. -/
def StringSite.Fills (before : List DataEntry) (bytes : List UInt8) : StringSite → Prop
  | .literal content => bytes = stringBytes content
  | .copy source => ∃ i e, source = some i ∧ before[i]? = some e ∧ bytes = e.bytes

/-- There is one entry for each site, in their order, and it holds what the site asks for. -/
structure Stored (sites : List StringSite) (entries : List DataEntry) : Prop where
  length : entries.length = sites.length
  fills : ∀ {k : Nat} {site : StringSite} {e : DataEntry}, sites[k]? = some site →
    entries[k]? = some e → site.Fills (entries.take k) e.bytes

theorem Stored.snoc {sites : List StringSite} {entries : List DataEntry} (h : Stored sites entries)
    {site : StringSite} {e : DataEntry} (hfills : site.Fills entries e.bytes) :
    Stored (sites ++ [site]) (entries ++ [e]) := by
  refine ⟨by simp [h.length], fun {k site' e'} hsite he => ?_⟩
  by_cases hk : k < sites.length
  · rw [List.getElem?_append_left hk] at hsite
    rw [← h.length] at hk
    rw [List.getElem?_append_left hk] at he
    rw [List.take_append_of_le_length (Nat.le_of_lt hk)]
    exact h.fills hsite he
  · have hlt := (List.getElem?_eq_some_iff.1 hsite).1
    rw [List.length_append, List.length_singleton] at hlt
    obtain rfl : k = sites.length := by omega
    rw [List.getElem?_concat_length, Option.some.injEq] at hsite
    rw [← h.length, List.getElem?_concat_length, Option.some.injEq] at he
    rw [← hsite, ← he, ← h.length, List.take_left]
    exact hfills

namespace Standing

variable {S S' S₁ : Standing} {bindings : Tree.Bindings} {sites : List StringSite}

/-- Every name with a label in sight stands for a site, and the entry of that site has the label. -/
structure Strung (S : Standing) (bindings : Tree.Bindings) : Prop where
  labels : (S.data.entries.map (·.label)).Nodup
  parameter : ∀ s ∈ S.scope.parameter, s.label = none
  found : ∀ {x s label}, S.scope.frames.findSome? (·.find? x) = some s → s.label = some label →
    ∃ i e, bindings.site? x = some i ∧ S.data.entries[i]? = some e ∧ e.label = label

/-- Entries go behind those that are there. -/
theorem Strung.found_mono (h : S.Strung bindings) (hentries : S.data.entries <+: S'.data.entries)
    {x label : String} {s : Symbol} (hs : S.scope.frames.findSome? (·.find? x) = some s)
    (hlabel : s.label = some label) :
    ∃ i e, bindings.site? x = some i ∧ S'.data.entries[i]? = some e ∧ e.label = label := by
  obtain ⟨i, e, hsite, he, hname⟩ := h.found hs hlabel
  obtain ⟨more, hmore⟩ := hentries
  refine ⟨i, e, hsite, ?_, hname⟩
  rw [← hmore, List.getElem?_append_left (List.getElem?_eq_some_iff.1 he).1]
  exact he

theorem Strung.congr (h : S.Strung bindings) (hscope : S'.scope = S.scope)
    (hentries : S.data.entries <+: S'.data.entries)
    (hlabels : (S'.data.entries.map (·.label)).Nodup) : S'.Strung bindings := by
  refine ⟨hlabels, ?_, fun {x s label} hs hlabel => ?_⟩
  · rw [hscope]
    exact h.parameter
  · rw [hscope] at hs
    exact h.found_mono hentries hs hlabel

/-- A new variable is found before all others. -/
theorem Strung.extend (h : S.Strung bindings) {v : Symbol} {site : Option Nat}
    (hfree : S.scope.findInnermost? v.name = none) (hscope : S'.scope = S.scope.extend v)
    (hentries : S.data.entries <+: S'.data.entries)
    (hlabels : (S'.data.entries.map (·.label)).Nodup)
    (hsite : ∀ label ∈ v.label, ∃ i e, site = some i ∧ S'.data.entries[i]? = some e ∧
      e.label = label) : S'.Strung ((v.name, site) :: bindings) := by
  refine ⟨hlabels, ?_, fun {x s label} hs hlabel => ?_⟩
  · rw [hscope]
    exact h.parameter
  · rw [hscope] at hs
    by_cases hx : v.name = x
    · subst hx
      rw [Scope.findSome?_extend hfree] at hs
      cases hs
      obtain ⟨i, e, rfl, he, hname⟩ := hsite label hlabel
      exact ⟨i, e, by simp [Tree.Bindings.site?], he, hname⟩
    · rw [Scope.findSome?_extend_of_ne hx] at hs
      obtain ⟨i, e, hi, he, hname⟩ := h.found_mono hentries hs hlabel
      refine ⟨i, e, ?_, he, hname⟩
      rw [← hi]
      simp [Tree.Bindings.site?, hx]

/-- A string variable with its entry. -/
theorem Strung.declareString (h : S.Strung bindings) {x : String} {bytes : List UInt8}
    (hfree : S.scope.findInnermost? x = none) :
    (S.declareString x bytes).Strung ((x, some S.data.entries.length) :: bindings) := by
  refine h.extend (v := .inData x (S.stringLabel x)) hfree rfl (List.prefix_append ..)
    (DataSection.nodup_labels_insert h.labels _ _) fun label hlabel => ?_
  cases hlabel
  exact ⟨S.data.entries.length, ⟨S.stringLabel x, bytes⟩, rfl, List.getElem?_concat_length, rfl⟩

/-- What a string is copied from is the string that the name stands for. -/
theorem Strung.fills_copy (h : S.Strung bindings) {y label : String}
    (hlabel : S.stringLabel? y = some label) :
    (StringSite.copy (bindings.site? y)).Fills S.data.entries (S.bytesAt label) := by
  obtain ⟨s, hs, -, hslabel⟩ := Context.stringLabel?_eq_some.1 hlabel
  rcases Context.Scope.find?_cases hs with ⟨hframes, -⟩ | ⟨-, hparameter⟩
  · obtain ⟨i, e, hsite, he, rfl⟩ := h.found hframes hslabel
    refine ⟨i, e, hsite, he, ?_⟩
    rw [Context.bytesAt, DataSection.find?,
      (find?_eq_some_of_nodup h.labels).2 ⟨List.mem_of_getElem? he, rfl⟩]
    rfl
  · rw [h.parameter s hparameter] at hslabel
    cases hslabel

/-- Whatever a statement stores is what it asks for. -/
theorem Elaborates.stored {s : Tree.Simple} {command : Command} (h : S.Elaborates s command S')
    (hproper : ∀ l ∈ s.yield, l.Proper) (hS : S.Strung bindings)
    (hsites : Stored sites S.data.entries) :
    S'.Strung (s.bind sites.length bindings) ∧
      Stored (sites ++ (s.site? bindings).toList) S'.data.entries := by
  have htype : ∀ {t : Tree.TypeName} {x : String} {i : Tree.Initial} {type : Ty},
      (∀ l ∈ (Tree.Simple.declare t x i).yield, l.Proper) → S.type? t = some type →
      type = t.type := by
    intro t x i type hproper htype
    rw [Tree.Simple.yield, List.forall_mem_cons] at hproper
    exact (Context.type?_eq_some hproper.1).1 htype |>.2
  have hkeeps : Stored (sites ++ []) S.data.entries := by
    rw [List.append_nil]
    exact hsites
  have hstack : ∀ {x : String} {type : Ty}, S.scope.findInnermost? x = none →
      (S.extend (.onStack x type)).Strung ((x, none) :: bindings) := by
    intro x type hfree
    exact hS.extend (v := .onStack x type) hfree rfl List.prefix_rfl hS.labels
      fun label hlabel => by cases hlabel
  cases h with
  | @number t x v value ht hfree =>
    cases t with
    | int => exact ⟨hstack hfree, hkeeps⟩
    | _ => cases htype hproper ht
  | @create t x c created ht hfree =>
    cases t with
    | named _ => exact ⟨hstack hfree, hkeeps⟩
    | _ => cases htype hproper ht
  | @copy t x c v value ht hfree =>
    cases t with
    | named _ => exact ⟨hstack hfree, hkeeps⟩
    | _ => cases htype hproper ht
  | @text t x content ht hfree =>
    cases t with
    | string =>
      rw [← hsites.length]
      exact ⟨hS.declareString hfree, hsites.snoc rfl⟩
    | _ => cases htype hproper ht
  | @string t x y label ht hfree hlabel =>
    cases t with
    | string =>
      rw [← hsites.length]
      exact ⟨hS.declareString hfree, hsites.snoc (hS.fills_copy hlabel)⟩
    | _ => cases htype hproper ht
  | printLiteral =>
    exact ⟨hS.congr rfl (List.prefix_append ..) (DataSection.nodup_labels_insert hS.labels _ _),
      hsites.snoc rfl⟩
  | assignNumber | assignObject | call | print | printVariable => exact ⟨hS, hkeeps⟩

/-- Behind a block the variables are those before it, and the strings of the block are stored. -/
theorem ElaboratesBlock.stored {t : Tree.Block} {body : Body} (h : ElaboratesBlock S t body S')
    (hproper : ∀ l ∈ t.yield, l.Proper) (hS : S.Strung bindings)
    (hsites : Stored sites S.data.entries) :
    (S'.data.entries.map (·.label)).Nodup ∧
      Stored (sites ++ t.sites bindings sites.length) S'.data.entries := by
  induction h generalizing bindings sites with
  | finish =>
    refine ⟨hS.labels, ?_⟩
    rw [Tree.Block.sites, List.append_nil]
    exact hsites
  | simple hsimple hrest ih =>
    rw [Tree.Block.yield, List.forall_mem_append] at hproper
    obtain ⟨hstrung, hstored⟩ := hsimple.stored hproper.1 hS hsites
    obtain ⟨hlabels, hall⟩ := ih hproper.2 hstrung hstored
    refine ⟨hlabels, ?_⟩
    rw [List.length_append, List.append_assoc] at hall
    exact hall
  | @branch S S₁ S₂ kind c condition inner rest _ _ _ hinner hrest ihInner ihRest =>
    have hparts : (∀ l ∈ inner.yield, l.Proper) ∧ ∀ l ∈ rest.yield, l.Proper := by
      constructor <;> intro l hl <;> exact hproper l (by simp [Tree.Block.yield, hl])
    have henter : S.draw.enter.Strung bindings := ⟨hS.labels, hS.parameter, hS.found⟩
    obtain ⟨hlabels, hstored⟩ := ihInner hparts.1 henter hsites
    have hleave : S₁.leave.Strung bindings :=
      hS.congr hinner.keeps.scope_leave hinner.entries hlabels
    obtain ⟨hlabels', hall⟩ := ihRest hparts.2 hleave hstored
    refine ⟨hlabels', ?_⟩
    rw [List.length_append, List.append_assoc] at hall
    exact hall

/-! ### Whole programs -/

/-- A routine begins without variables. -/
theorem strung_begin (hlabels : (S.data.entries.map (·.label)).Nodup) (owner : Option String)
    (method : String) (parameter : Option Parameter) :
    (S.begin owner method parameter).Strung [] := by
  refine ⟨hlabels, fun s hs => ?_, fun {x s label} hs => by cases hs⟩
  obtain ⟨p, -, rfl⟩ := Option.map_eq_some_iff.1 hs
  rfl

theorem ElaboratesMethods.stored {above : List Tree.Class} {c : Tree.Class}
    {before ms : List Tree.Method} {rs : List Routine}
    (h : ElaboratesMethods above c before S ms rs S') (hproper : ∀ m ∈ ms, ∀ l ∈ m.yield, l.Proper)
    (hlabels : (S.data.entries.map (·.label)).Nodup) (hsites : Stored sites S.data.entries) :
    (S'.data.entries.map (·.label)).Nodup ∧
      Stored (sites ++ Tree.sitesOf sites.length (ms.map (·.body))) S'.data.entries := by
  induction h generalizing sites with
  | nil =>
    refine ⟨hlabels, ?_⟩
    rw [List.map_nil, Tree.sitesOf, List.append_nil]
    exact hsites
  | @cons before ms m S _ _ _ _ _ _ _ _ hbody hrest ih =>
    rw [List.forall_mem_cons] at hproper
    have hm : ∀ l ∈ m.body.yield, l.Proper :=
      fun l hl => hproper.1 l (by simp [Tree.Method.yield, hl])
    have hentered : (S.entered (above.map Tree.Class.definition) (c.withMethods before) m).Strung
        [] := by
      apply strung_begin
      exact hlabels
    obtain ⟨hlabels', hstored⟩ := hbody.stored hm hentered hsites
    obtain ⟨hlabels'', hall⟩ := ih hproper.2 hlabels' hstored
    refine ⟨hlabels'', ?_⟩
    rw [List.length_append, List.append_assoc] at hall
    exact hall

theorem ElaboratesClasses.stored {above cs : List Tree.Class} {rs : List Routine}
    (h : ElaboratesClasses above S cs rs S')
    (hproper : ∀ c ∈ cs, ∀ m ∈ c.methods, ∀ l ∈ m.yield, l.Proper)
    (hlabels : (S.data.entries.map (·.label)).Nodup) (hsites : Stored sites S.data.entries) :
    (S'.data.entries.map (·.label)).Nodup ∧ Stored (sites ++ Tree.sitesOf sites.length
      (cs.flatMap fun c => c.methods.map (·.body))) S'.data.entries := by
  induction h generalizing sites with
  | nil =>
    refine ⟨hlabels, ?_⟩
    rw [List.flatMap_nil, Tree.sitesOf, List.append_nil]
    exact hsites
  | cons _ hmethods _ ih =>
    rw [List.forall_mem_cons] at hproper
    obtain ⟨hlabels', hstored⟩ := hmethods.stored hproper.1 hlabels hsites
    obtain ⟨hlabels'', hall⟩ := ih hproper.2 hlabels' hstored
    refine ⟨hlabels'', ?_⟩
    rw [List.length_append, List.append_assoc] at hall
    rw [List.flatMap_cons, Tree.sitesOf_append]
    exact hall

end Standing

theorem Tree.Program.Elaborates.stored {p : Tree.Program} {compilation : Compilation}
    (h : p.Elaborates compilation) (hproper : ∀ l ∈ p.yield, l.Proper) :
    Stored p.sites compilation.data.entries := by
  cases h with
  | intro hclasses hmain =>
    have hnone : Stored [] Standing.initial.data.entries := ⟨rfl, fun hsite => by cases hsite⟩
    obtain ⟨hlabels, hstored⟩ := hclasses.stored (proper_methods hproper) List.nodup_nil hnone
    have hall := (hmain.stored (proper_main hproper) (Standing.strung_begin hlabels _ _ _)
      hstored).2
    rw [List.nil_append] at hall
    have hbodies : p.bodies = (p.classes.flatMap fun c => c.methods.map (·.body)) ++ [p.main] := by
      simp [Tree.Program.bodies, Tree.Program.methods, List.map_flatMap, Function.comp_def]
    rw [Tree.Program.sites, hbodies, Tree.sitesOf_append]
    simpa [Tree.sitesOf] using hall

/-! ### Labels at every moment -/

/-- Every string variable in sight has the label of an entry, and no two have the same. -/
structure Progress.StringsLabelled (P : Progress) : Prop where
  labelled : ∀ frame ∈ P.state.scope.frames, ∀ s ∈ frame, s.type = .string →
    ∃ label e, s.label = some label ∧ P.state.data.find? label = some e
  distinct : P.state.scope.frames.flatten.Pairwise fun s t =>
    s.type = .string → t.type = .string → s.label ≠ t.label

theorem Progress.Regular.stringsLabelled {P : Progress} (h : P.Regular) : P.StringsLabelled := by
  have hlabel : ∀ frame ∈ P.state.scope.frames, ∀ s ∈ frame, s.type = .string →
      ∃ label, s.label = some label := fun frame hframe s hs htype =>
    Option.isSome_iff_exists.1 ((h.coherent.sound.scope.binding frame hframe s hs).2.2 htype)
  refine ⟨fun frame hframe s hs htype => ?_, ?_⟩
  · obtain ⟨label, hslabel⟩ := hlabel frame hframe s hs htype
    obtain ⟨e, he⟩ := h.coherent.exists_entry hframe hs hslabel
    exact ⟨label, e, hslabel, he⟩
  · have hnodup := h.coherent.labels
    rw [Scope.labels, List.Nodup, List.pairwise_filterMap] at hnodup
    refine hnodup.imp_of_mem fun {s t} hs _ hne htype _ heq => ?_
    obtain ⟨frame, hframe, hs⟩ := List.mem_flatten.1 hs
    obtain ⟨label, hslabel⟩ := hlabel frame hframe s hs htype
    exact hne label hslabel label (heq ▸ hslabel) rfl

/-- The data section of an accepted text has one entry for each string declaration and each literal
    that is written, in the order of the text; an entry holds the bytes of its literal, or those
    of the entry that belongs to the string variable which is copied.  And at every moment of the
    pass, each string variable in sight has an entry, and no other has its label. -/
theorem string_entries {source : String} {compilation : Compilation}
    (h : compile source = .ok compilation) :
    (∃ p : Tree.Program, p.SpelledBy source) ∧
      (∀ p : Tree.Program, p.SpelledBy source → Stored p.sites compilation.data.entries) ∧
      ∀ tokens P, Reached tokens P → P.StringsLabelled := by
  refine ⟨exists_spelledBy h, fun p hp => ?_, fun tokens P hP => hP.regular.stringsLabelled⟩
  obtain ⟨tokens, htokens, hyield⟩ := hp.spelled
  exact (hp.elaborates h).1.stored (hyield ▸ proper_lexemes htokens)

/-- A text with a copy whose name is the one that it declares, a copy of that copy, and names that
    look like the labels of others. -/
def copiesText : String :=
  "class A \x7b int w; f(string s) \x7b prints(s); string t = \"in f\"; \x7d \x7d " ++
    "main() \x7b string s = \"one\"; string s_2 = \"two\"; int i = 1; " ++
    "if (i == 1) \x7b string s = s; string u = s; prints(\"lit\"); \x7d string v = s; \x7d"

def copiesTree : Tree.Program where
  classes := [⟨"A", ["w"],
    [⟨"f", some ⟨.string, "s"⟩,
      .simple (.printText (.variable "s")) <|
      .simple (.declare .string "t" (.text "in f")) .finish, by decide⟩],
    by decide, nofun⟩]
  main :=
    .simple (.declare .string "s" (.text "one")) <|
    .simple (.declare .string "s_2" (.text "two")) <|
    .simple (.declare .int "i" (.value (.number "1"))) <|
    .branch .conditional ⟨.place (.variable "i"), .equal, .number "1"⟩
      (.simple (.declare .string "s" (.value (.place (.variable "s")))) <|
        .simple (.declare .string "u" (.value (.place (.variable "s")))) <|
        .simple (.printText (.literal "lit")) .finish) <|
    .simple (.declare .string "v" (.value (.place (.variable "s")))) .finish
  main_ne := by decide

theorem copiesTree_spelledBy :
    copiesTree.SpelledBy copiesText ∧ ∃ compilation, compile copiesText = .ok compilation := by
  apply Tree.Program.spelledBy_of_lexemes
  · decide +kernel
  · decide +kernel

theorem string_entries_copies :
    ∃ compilation, compile copiesText = .ok compilation ∧ copiesTree.SpelledBy copiesText ∧
      copiesTree.sites = [.literal "in f", .literal "one", .literal "two", .copy (some 1),
        .copy (some 3), .literal "lit", .copy (some 1)] ∧
      Stored copiesTree.sites compilation.data.entries := by
  obtain ⟨hspelled, compilation, hcompile⟩ := copiesTree_spelledBy
  refine ⟨compilation, hcompile, hspelled, by decide, ?_⟩
  exact (string_entries hcompile).2.1 copiesTree hspelled

end ClassLang
