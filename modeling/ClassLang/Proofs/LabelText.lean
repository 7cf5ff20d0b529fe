/-
  ClassLang/Proofs/LabelText.lean
  ===============================
  **The labels that the assembly text defines.**

  An assembler sees only the text.  `definedLabels` reads off it what is defined there:
  a line whose first word is followed by ` db ` defines that word, and so does a line
  that is one word with a colon behind.  For the text of a layout this is the list
  `Layout.labelDefs` (`definedLabels_text`), since no label holds a blank and no line
  holds a newline; so labels that are distinct in the layout are distinct in the text.
-/
import Mathlib.Data.List.TakeWhile
import ClassLang.Proofs.GraphicText

namespace ClassLang

open Label (Spelled)

/-! ### Reading labels off a text -/

/-- The label that a line of text defines. -/
def labelOfLine? (line : List Char) : Option String :=
  let word := line.takeWhile (· != ' ')
  let rest := line.dropWhile (· != ' ')
  if rest.take 4 = " db ".toList then some (String.ofList word)
  else if rest = [] ∧ word.getLast? = some ':' then some (String.ofList word.dropLast)
  else none

/-- The labels that a text defines, from the first to the last. -/
def definedLabels (text : String) : List String :=
  (text.toList.splitOn '\n').filterMap labelOfLine?

/-! ### Lines of the text -/

theorem DataEntry.labelOfLine?_line {entry : DataEntry} (h : Spelled entry.label) :
    labelOfLine? entry.line.toList = some entry.label := by
  have hlabel : ∀ c ∈ entry.label.toList, (c != ' ') = true := by
    intro c hc
    rw [bne_iff_ne]
    rintro rfl
    exact absurd (h _ hc) (by decide)
  have hblank : " db ".toList = [' ', 'd', 'b', ' '] := rfl
  simp only [labelOfLine?, line, String.toList_append, hblank, List.append_assoc,
    List.takeWhile_append_of_pos hlabel, List.dropWhile_append_of_pos hlabel]
  simp

theorem labelOfLine?_label {name : String} (h : Spelled name) :
    labelOfLine? (name ++ ":").toList = some name := by
  have hname : ∀ c ∈ name.toList ++ [':'], (c != ' ') = true := by
    intro c hc
    rw [bne_iff_ne]
    rintro rfl
    rcases List.mem_append.1 hc with hc | hc
    · exact absurd (h _ hc) (by decide)
    · exact absurd (List.mem_singleton.1 hc) (by decide)
  have hcolon : ":".toList = [':'] := rfl
  have hword : (name.toList ++ [':']).takeWhile (· != ' ') = name.toList ++ [':'] :=
    List.takeWhile_eq_self_iff.2 hname
  have hrest : (name.toList ++ [':']).dropWhile (· != ' ') = [] :=
    List.dropWhile_eq_nil_iff.2 hname
  simp only [labelOfLine?, String.toList_append, hcolon, hword, hrest]
  simp

theorem labelOfLine?_instruction (code : String) :
    labelOfLine? (indentation ++ code).toList = none := by
  have hindentation : indentation.toList = [' ', ' ', ' ', ' '] := rfl
  simp only [labelOfLine?, String.toList_append, hindentation]
  simp

/-! ### The whole text -/

theorem splitOn_join {lines : List String} (h : ∀ line ∈ lines, OneLine line) :
    (String.join (lines.map (· ++ "\n"))).toList.splitOn '\n' =
      lines.map String.toList ++ [[]] := by
  rw [String.toList_join, List.flatMap_map]
  induction lines with
  | nil => rfl
  | cons line lines ih =>
    rw [List.forall_mem_cons] at h
    have hnewline : "\n".toList = ['\n'] := rfl
    rw [List.flatMap_cons, String.toList_append, hnewline, List.append_assoc, List.singleton_append,
      List.splitOn_append_cons_self, List.splitOn_eq_singleton h.1, ih h.2]
    rfl

theorem filterMap_written {lines : List (Line Instruction)}
    (h : ∀ label ∈ labelDefs lines, Spelled label) :
    (Layout.written lines).filterMap (fun line => labelOfLine? line.toList) = labelDefs lines := by
  induction lines with
  | nil => rfl
  | cons line lines ih =>
    cases line with
    | label name =>
      rw [labelDefs_label, List.forall_mem_cons] at h
      have hwritten : Layout.written (.label name :: lines) =
          (name ++ ":") :: Layout.written lines := rfl
      simp only [hwritten, List.filterMap_cons, labelOfLine?_label h.1, ih h.2, labelDefs_label]
    | instruction code =>
      have hwritten : Layout.written (.instruction code :: lines) =
          (indentation ++ code.text) :: Layout.written lines := rfl
      simp only [hwritten, List.filterMap_cons, labelOfLine?_instruction code.text, ih h,
        labelDefs_instruction]

theorem filterMap_data {entries : List DataEntry} (h : ∀ entry ∈ entries, Spelled entry.label) :
    (entries.map DataEntry.line).filterMap (fun line => labelOfLine? line.toList) =
      entries.map (·.label) := by
  induction entries with
  | nil => rfl
  | cons entry entries ih =>
    rw [List.forall_mem_cons] at h
    simp [DataEntry.labelOfLine?_line h.1, ih h.2]

/-- The text of a layout defines the labels of the layout. -/
theorem definedLabels_text {layout : Layout} (hspelled : ∀ label ∈ layout.labelDefs, Spelled label)
    (hlines : ∀ line ∈ layout.lines, OneLine line) :
    definedLabels layout.text = layout.labelDefs := by
  simp only [Layout.labelDefs, List.forall_mem_append] at hspelled
  obtain ⟨⟨⟨⟨⟨hdata, hnumber⟩, hstring⟩, hentry⟩, hexit⟩, hmethods⟩ := hspelled
  have hmethodLines : (layout.methods.flatMap fun method =>
      "" :: Layout.written method.lines).filterMap (fun line => labelOfLine? line.toList) =
      layout.methods.flatMap fun method => labelDefs method.lines := by
    rw [List.filterMap_flatMap]
    refine List.flatMap_congr fun method hmethod => ?_
    have hwritten := filterMap_written fun label hlabel =>
      hmethods label (List.mem_flatMap.2 ⟨method, hmethod, hlabel⟩)
    simpa [labelOfLine?] using hwritten
  have hheader : ["segment .data"].filterMap (fun line => labelOfLine? line.toList) = [] := by
    decide
  have hconstant : ["", "segment .text", "global _main", Layout.linkNote, ""].filterMap
      (fun line => labelOfLine? line.toList) = [] := by decide
  have hempty : [""].filterMap (fun line => labelOfLine? line.toList) = [] := by decide
  have hdataLines := filterMap_data fun entry hentry => hdata _ (List.mem_map_of_mem hentry)
  have hlast : [([] : List Char)].filterMap labelOfLine? = [] := by decide
  rw [definedLabels, Layout.text, splitOn_join hlines, List.filterMap_append, List.filterMap_map,
    hlast]
  simp only [Layout.lines, Layout.labelDefs, Function.comp_def, List.filterMap_append, hheader,
    hconstant, hempty, hdataLines, hmethodLines, filterMap_written hnumber,
    filterMap_written hstring, filterMap_written hentry, filterMap_written hexit, List.append_nil,
    List.nil_append]

/-! ### Programs -/

variable {compilation : Compilation}

theorem Compilation.LabelsTidy.spelled_labelDefs (h : compilation.LabelsTidy) :
    ∀ label ∈ compilation.layout.labelDefs, Spelled label := by
  intro label hlabel
  rw [h.labelDefs_layout.mem_iff, List.mem_append] at hlabel
  rcases hlabel with hlabel | hlabel
  · exact h.spelled label hlabel
  · obtain ⟨head, -, hhead⟩ := List.mem_flatMap.1 hlabel
    exact (Branch.numbered_of_mem_labels hhead).spelled

theorem mem_labelDefs {ι : Type} {lines : List (Line ι)} {name : String} :
    name ∈ labelDefs lines ↔ Line.label name ∈ lines := by
  rw [labelDefs, List.mem_filterMap]
  constructor
  · rintro ⟨line, hline, hname⟩
    cases line with
    | label name =>
      cases hname
      exact hline
    | instruction code => cases hname
  · exact fun h => ⟨_, h, rfl⟩

/-- The labels of a listing are among those of the layout. -/
theorem mem_labelDefs_layout {r : Routine} (hr : r ∈ compilation.routines) {name : String}
    (h : Line.label name ∈ r.listing.lines) : name ∈ compilation.layout.labelDefs := by
  have hname := mem_labelDefs.2 h
  simp only [Layout.labelDefs, Compilation.layout, List.mem_append]
  rcases List.mem_cons.1 hr with rfl | hr
  · exact .inl (.inl (.inr hname))
  · exact .inr (List.mem_flatMap.2 ⟨r.listing, List.mem_map_of_mem hr, hname⟩)

/-- The label that a reference names is spelled like a word, if it is defined. -/
theorem Compilation.Defines.spelled (h : compilation.LabelsTidy) {r : Routine}
    (hr : r ∈ compilation.routines) {ref : Reference}
    (href : compilation.Defines r.listing.lines ref) : Spelled ref.name := by
  have hspelled := h.spelled_labelDefs
  cases ref with
  | jump target => exact hspelled target (mem_labelDefs_layout hr href)
  | call target =>
    rcases href with rfl | rfl | ⟨method, hmethod, hhead⟩
    · decide
    · decide
    · obtain ⟨r', hr', rfl⟩ := List.mem_map.1 hmethod
      exact hspelled target (mem_labelDefs_layout (List.mem_cons_of_mem _ hr')
        (List.mem_of_head? hhead))
  | data label =>
    have hmem : label ∈ compilation.data.entries.map (·.label) := by
      rw [← List.count_pos_iff]
      exact href ▸ Nat.one_pos
    exact h.spelled label (List.mem_append_left _ hmem)

theorem graphic_written {lines : List (Line Instruction)}
    (hlabels : ∀ label ∈ labelDefs lines, Spelled label)
    (hrefs : ∀ ref ∈ references lines, Spelled ref.name) :
    ∀ text ∈ Layout.written lines, Graphic text := by
  intro text htext
  obtain ⟨line, hline, rfl⟩ := List.mem_map.1 htext
  cases line with
  | label name =>
    have hname := hlabels name (mem_labelDefs.2 hline)
    exact graphic_append.2 ⟨hname.graphic, by decide⟩
  | instruction code =>
    refine graphic_append.2 ⟨by decide, ?_⟩
    apply Instruction.graphic_text
    intro ref href
    exact (hrefs ref (List.mem_flatMap.2 ⟨_, hline, href⟩)).graphic

/-- The lines of an assembly text are graphic. -/
theorem Tree.Program.Elaborates.graphic_lines {p : Tree.Program}
    (hproper : ∀ l ∈ p.yield, l.Proper) (h : p.Elaborates compilation) :
    ∀ line ∈ compilation.layout.lines, Graphic line := by
  have htidy := h.labelsTidy hproper
  have hlisting : ∀ r ∈ compilation.routines,
      ∀ text ∈ Layout.written r.listing.lines, Graphic text := by
    intro r hr
    apply graphic_written
    · intro label hlabel
      exact htidy.spelled_labelDefs label (mem_labelDefs_layout hr (mem_labelDefs.1 hlabel))
    · intro ref href
      exact (h.defines hproper hr ref href).spelled htidy hr
  have hnumber : ∀ text ∈ Layout.written Printing.number, Graphic text :=
    graphic_written (by decide) (by decide)
  have hstring : ∀ text ∈ Layout.written Printing.string, Graphic text :=
    graphic_written (by decide) (by decide)
  have hexit : ∀ text ∈ Layout.written Printing.exit, Graphic text :=
    graphic_written (by decide) (by decide)
  have hconstant : ∀ line ∈ ["", "segment .text", "global _main", Layout.linkNote, ""],
      Graphic line := by decide
  have hheader : ∀ line ∈ ["segment .data"], Graphic line := by decide
  have hempty : ∀ line ∈ [""], Graphic line := by decide
  simp only [Layout.lines, List.forall_mem_append]
  refine ⟨⟨⟨⟨⟨⟨⟨⟨⟨hheader, ?_⟩, hconstant⟩, hnumber⟩, hempty⟩, hstring⟩, hempty⟩, ?_⟩, hexit⟩, ?_⟩
  · intro line hline
    obtain ⟨entry, hentry, rfl⟩ := List.mem_map.1 hline
    have hlabel := htidy.spelled _ (List.mem_append_left _ (List.mem_map_of_mem hentry))
    exact DataEntry.graphic_line.2 hlabel.graphic
  · exact hlisting _ (List.mem_cons_self ..)
  · intro line hline
    obtain ⟨method, hmethod, hline⟩ := List.mem_flatMap.1 hline
    obtain ⟨r, hr, rfl⟩ := List.mem_map.1 hmethod
    rcases List.mem_cons.1 hline with rfl | hline
    · decide
    · exact hlisting r (List.mem_cons_of_mem _ hr) line hline

theorem Tree.Program.Elaborates.oneLine_lines {p : Tree.Program}
    (hproper : ∀ l ∈ p.yield, l.Proper) (h : p.Elaborates compilation) :
    ∀ line ∈ compilation.layout.lines, OneLine line := by
  intro line hline
  exact (h.graphic_lines hproper line hline).oneLine

/-- In every assembly text, no label is defined twice; those defined are the labels of the data
    entries, of the printing routines, of the routines and of their blocks. -/
theorem nodup_definedLabels {source text : String} (h : assemble source = .ok text) :
    (definedLabels text).Nodup ∧ ∃ compilation, compile source = .ok compilation ∧
      definedLabels text = compilation.layout.labelDefs := by
  unfold assemble at h
  cases hcompile : compile source with
  | error located =>
    rw [hcompile] at h
    cases h
  | ok compilation =>
    rw [hcompile] at h
    cases h
    obtain ⟨tokens, p, -, -, hproper, helaborates⟩ := exists_elaborates_of_compile hcompile
    have htidy := helaborates.labelsTidy hproper
    have hlabels := definedLabels_text htidy.spelled_labelDefs (helaborates.oneLine_lines hproper)
    exact ⟨hlabels ▸ htidy.nodup_labelDefs, compilation, rfl, hlabels⟩

/-- A text where the label that a string wants is taken by another one, and with blocks of both
    kinds. -/
def collisionText : String :=
  "class A \x7b int n; b_c() \x7b string d = \"x\"; \x7d b() \x7b string c_d = \"y\"; " ++
    "if (this.n == 0) \x7b prints(c_d); \x7d while (this.n > 0) \x7b this.n = 0; \x7d \x7d \x7d " ++
    "main() \x7b A a = A.CreateInstance(); a.b(); \x7d"

theorem nodup_definedLabels_collision :
    ∃ text, assemble collisionText = .ok text ∧ (definedLabels text).Nodup := by
  have hok : (assemble collisionText).isOk = true := by
    decide +kernel
  obtain ⟨text, htext⟩ := exists_of_isOk hok
  exact ⟨text, htext, (nodup_definedLabels htext).1⟩

end ClassLang
