/-
  ClassLang/Proofs/ListingOrder.lean
  ==================================
  **The listings and the table of classes tell the same story.**

  During the pass the table, the listings and the state grow independently of each
  other, and the entry point is put in front only when all is read.  What comes out
  fits together nevertheless: there is one listing for the entry point and one for each
  method of the table, in the order of the table; each begins with its own label and
  has it nowhere else; and the table holds only classes that are complete and use no
  class from below for a parameter.

  All of it is read off the last moment of the pass (`Reached.regular`), so it holds for
  every token list that is accepted, whether or not the tokens come from a text.  The
  main statement is `listings_follow_table`.
-/
import ClassLang.Proofs.TableOperations

namespace ClassLang

/-! ### Labels as lines of text -/

namespace Line

theorem text_label_inj {name name' : String} :
    (Line.label name).text = (Line.label name').text ↔ name = name' :=
  String.append_left_inj ":"

/-- A label that does not begin with a blank is never mistaken for an instruction. -/
theorem text_instruction_ne {name code : String} {c : Char} {rest : List Char}
    (hname : name.toList = c :: rest) (hc : c ≠ ' ') :
    (Line.instruction code).text ≠ (Line.label name).text := by
  intro heq
  have hchars := congrArg String.toList heq
  simp only [text, indentation, String.toList_append, hname, List.cons_append] at hchars
  exact hc (List.cons.inj hchars).1.symm

end Line

theorem Label.toList_entry (owner : Option String) (method : String) :
    ∃ rest, (Label.entry owner method).toList = '_' :: rest := by
  cases owner with
  | none => exact ⟨"main".toList, by simp [entry, entryPoint]⟩
  | some owner =>
    exact ⟨owner.toList ++ '_' :: method.toList, by
      simp [entry, Label.method, String.toList_append]⟩

namespace Listing

variable {listing : Listing Instruction}

/-- The first line is the label of the routine, and no other line is. -/
structure BeginsAtLabel (listing : Listing Instruction) (rest : List (Line Instruction)) :
    Prop where
  first : listing.lines = .label listing.entryLabel :: rest
  once : .label listing.entryLabel ∉ rest
  text : listing.written.textLines = (listing.entryLabel ++ ":") :: rest.map fun line =>
    (line.map Instruction.text).text
  textOnce : (listing.entryLabel ++ ":") ∉ rest.map fun line => (line.map Instruction.text).text

theorem Headed.exists_beginsAtLabel (h : listing.Headed) : ∃ rest, listing.BeginsAtLabel rest := by
  obtain ⟨rest, hlines, hnumbered, hentry⟩ := h
  have honce : ∀ name, .label name ∈ rest → name ≠ listing.entryLabel := by
    intro name hname heq
    refine hentry (heq ▸ hnumbered name ?_)
    exact List.mem_filterMap.2 ⟨_, hname, rfl⟩
  refine ⟨rest, hlines, fun hmem => honce _ hmem rfl, ?_, fun hmem => ?_⟩
  · simp [textLines, written, Listing.map, hlines, Line.map, Line.text]
  · obtain ⟨line, hline, htext⟩ := List.mem_map.1 hmem
    cases line with
    | label name => exact honce name hline (Line.text_label_inj.1 htext)
    | instruction code =>
      obtain ⟨chars, hchars⟩ := Label.toList_entry listing.owner listing.method
      exact Line.text_instruction_ne hchars (by decide) htext

end Listing

/-! ### Methods by class and name -/

theorem ClassTable.Distinct.nodup_methodKeys {t : ClassTable} (h : t.Distinct) :
    (methodKeys t.classes).Nodup := by
  rw [methodKeys, List.nodup_flatMap]
  refine ⟨fun d hd => ?_, ?_⟩
  · have hnames := h.methods d hd
    rw [List.Nodup, List.pairwise_map] at hnames
    rw [List.Nodup, List.pairwise_map]
    exact hnames.imp fun hne heq => hne (congrArg Prod.snd heq)
  · have hclasses := h.classes
    rw [List.Nodup, List.pairwise_map] at hclasses
    refine hclasses.imp fun hne => ?_
    intro key hkey hkey'
    obtain ⟨s, -, rfl⟩ := List.mem_map.1 hkey
    obtain ⟨s', -, heq⟩ := List.mem_map.1 hkey'
    exact hne (Option.some.inj (congrArg Prod.fst heq)).symm

theorem entryPoint_notMem_methodKeys (classes : List ClassDef) (method : String) :
    (none, method) ∉ methodKeys classes := by
  simp [methodKeys]

/-! ### Accepted programs -/

/-- The listings, the entry point first, are those of the methods of the table, and the table is
    complete and in order. -/
structure Compilation.FollowsTable (compilation : Compilation) : Prop where
  listed : compilation.table.inOrder = compilation.table.classes
  keys : compilation.listings.map Listing.key =
    (none, Keyword.mainDef.text) :: methodKeys compilation.table.classes
  distinct : (compilation.listings.map Listing.key).Nodup
  labels : ∀ listing ∈ compilation.listings, ∃ rest, listing.BeginsAtLabel rest
  complete : ∀ d ∈ compilation.table.classes, d.fields ≠ [] ∧ d.methods ≠ []
  parameters : ∀ (i : Nat) (d : ClassDef), compilation.table.classes[i]? = some d →
    ∀ s ∈ d.methods, ∀ p ∈ s.parameter, p.type = .int ∨ p.type = .string ∨
      ∃ j ≤ i, ∃ e, compilation.table.classes[j]? = some e ∧ p.type = .object e.name

theorem Ordered.exists_index {classes : List ClassDef} (h : Ordered classes) {i : Nat}
    {d : ClassDef} (hd : classes[i]? = some d) {s : Signature} (hs : s ∈ d.methods)
    {p : Parameter} (hp : p ∈ s.parameter) {c : String} (hc : p.type = .object c) :
    ∃ j ≤ i, ∃ e, classes[j]? = some e ∧ e.name = c := by
  obtain ⟨e, he, hname⟩ := List.mem_map.1 (h i d hd s hs p hp c hc)
  obtain ⟨j, hj⟩ := List.mem_iff_getElem?.1 he
  rw [List.getElem?_take] at hj
  by_cases hji : j < i + 1
  · rw [if_pos hji] at hj
    exact ⟨j, Nat.lt_succ_iff.1 hji, e, hj, hname⟩
  · rw [if_neg hji] at hj
    cases hj

/-- Every accepted list of tokens has the listing of the entry point and then one listing for each
    method of its table, in the order of the table; each listing begins with its own label, which
    no other line of it is; and the table has only classes with fields and methods, whose
    parameters are of no class from below. -/
theorem listings_follow_table {tokens : List Token} {compilation : Compilation}
    (h : compileTokens tokens = .ok compilation) : compilation.FollowsTable := by
  cases hpass : passOver tokens with
  | stopped fault σ =>
    rw [compileTokens, hpass] at h
    cases h
  | done result σ =>
    obtain ⟨entry, methods⟩ := result
    rw [compileTokens, hpass] at h
    cases h
    have hreached := reached_of_done hpass
    have hregular := hreached.regular
    have hkeys := hregular.keys
    rw [List.map_append, List.map_append] at hkeys
    obtain ⟨hmethods, hentry⟩ := List.append_inj' hkeys rfl
    have hall : (Compilation.listings ⟨entry, methods, σ.data, σ.table⟩).map Listing.key =
        (none, Keyword.mainDef.text) :: methodKeys σ.table.classes := by
      rw [Compilation.listings, Compilation.routines, List.map_cons, List.map_cons, hmethods]
      exact congrArg (· :: methodKeys σ.table.classes) (List.cons.inj hentry).1
    refine ⟨hreached.inOrder, hall, ?_, ?_, hregular.shape, ?_⟩
    · rw [hall]
      exact List.nodup_cons.2 ⟨entryPoint_notMem_methodKeys _ _,
        hregular.coherent.sound.table.nodup_methodKeys⟩
    · intro listing hlisting
      refine (hregular.headed listing ?_).exists_beginsAtLabel
      obtain ⟨r, hr, rfl⟩ := List.mem_map.1 hlisting
      refine List.mem_map_of_mem ?_
      rcases List.mem_cons.1 hr with rfl | hr
      · exact List.mem_append_right _ (List.mem_singleton_self _)
      · exact List.mem_append_left _ hr
    · intro i d hd s hs p hp
      cases htype : p.type with
      | int => exact .inl rfl
      | string => exact .inr (.inl rfl)
      | object c =>
        obtain ⟨j, hj, e, he, rfl⟩ := hregular.ordered.exists_index hd hs hp htype
        exact .inr (.inr ⟨j, hj, e, he, rfl⟩)

/-- Two classes: one whose method takes an object of the class itself and calls itself, and one that
    uses the first. -/
def visitors : Tree.Program where
  classes := [
    ⟨"Node", ["value"],
      [⟨"visit", some ⟨.named "Node", "next"⟩,
        .simple (.call (.object "next" "visit") (some (.place (.variable "next")))) .finish,
        by decide⟩],
      by decide, nofun⟩,
    ⟨"Guide", ["count"],
      [⟨"start", none, .simple (.print (.number "1")) .finish, by decide⟩,
        ⟨"lead", some ⟨.named "Node", "first"⟩,
          .simple (.call (.object "first" "visit") (some (.place (.variable "first")))) .finish,
          by decide⟩],
      by decide, nofun⟩]
  main := .simple (.print (.number "7")) .finish
  main_ne := by decide

theorem listings_follow_table_visitors : ∃ compilation,
    compileTokens (tokensAtStart visitors.yield) = .ok compilation ∧
    compilation.table.classes.map (·.name) = ["Node", "Guide"] ∧ compilation.FollowsTable := by
  have hok : ((compileTokens (tokensAtStart visitors.yield)).toOption.map fun compilation =>
      compilation.table.classes.map (·.name)) = some ["Node", "Guide"] := by
    decide +kernel
  obtain ⟨compilation, hcompile, hnames⟩ := Option.map_eq_some_iff.1 hok
  rw [toOption_eq_some] at hcompile
  exact ⟨compilation, hcompile, hnames, listings_follow_table hcompile⟩

end ClassLang
