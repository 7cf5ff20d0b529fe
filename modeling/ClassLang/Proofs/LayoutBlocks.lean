/-
  ClassLang/Proofs/LayoutBlocks.lean
  ==================================
  **The assembly text can be taken apart again.**

  The text is cut at newlines into lines, and the lines are cut at empty ones into blocks.
  What comes out is what the layout was made of: the header with the data lines, the
  directives, the two printing routines, the entry point with the way out, and the methods.
  Neither a name nor the content of a string can make a line look like two, end a block or
  begin one, for no line has a newline in it (`Graphic`) and none is empty but those that
  the layout puts between its blocks.
-/
import ClassLang.Proofs.LabelText

namespace ClassLang

/-! ### Taking a text apart -/

/-- The lines of a text where a newline ends each line. -/
def linesOf (text : String) : List String :=
  (text.toList.splitOn '\n').dropLast.map String.ofList

/-- The blocks of lines that a text has between its empty lines. -/
def blocksOf (text : String) : List (List String) :=
  (linesOf text).splitOn ""

theorem linesOf_join {lines : List String} (h : ∀ line ∈ lines, OneLine line) :
    linesOf (String.join (lines.map (· ++ "\n"))) = lines := by
  rw [linesOf, splitOn_join h, List.dropLast_concat, List.map_map]
  have hid : String.ofList ∘ String.toList = id := by
    funext line
    exact String.ofList_toList
  rw [hid, List.map_id]

/-! ### The blocks of a layout -/

namespace Layout

/-- What a layout writes, block by block. -/
def blocks (layout : Layout) : List (List String) :=
  ("segment .data" :: layout.data.map DataEntry.line) ::
    ["segment .text", "global _main", linkNote] ::
    written Printing.number ::
    written Printing.string ::
    (written layout.entry.lines ++ written Printing.exit) ::
    layout.methods.map fun method => written method.lines

theorem intercalate_cons (block : List String) (blocks : List (List String)) :
    [""].intercalate (block :: blocks) = block ++ blocks.flatMap ("" :: ·) := by
  induction blocks generalizing block with
  | nil => simp
  | cons next blocks ih =>
    rw [List.intercalate_cons_cons, ih, List.flatMap_cons, List.append_assoc]
    rfl

/-- The lines of a layout are those of its blocks, with an empty line between two blocks. -/
theorem lines_eq (layout : Layout) : layout.lines = [""].intercalate layout.blocks := by
  rw [blocks, intercalate_cons]
  simp [lines, List.flatMap_map]

theorem empty_notMem_written {lines : List (Line Instruction)} : "" ∉ written lines := by
  intro hempty
  obtain ⟨line, -, htext⟩ := List.mem_map.1 hempty
  have hlength := congrArg String.length htext
  cases line with
  | label name => simp [Line.map, Line.text] at hlength
  | instruction code => simp [Line.map, Line.text, indentation] at hlength

theorem empty_notMem_data {entries : List DataEntry} : "" ∉ entries.map DataEntry.line := by
  intro hempty
  obtain ⟨entry, -, hline⟩ := List.mem_map.1 hempty
  have hlength := congrArg String.length hline
  simp [DataEntry.line] at hlength

theorem empty_notMem_blocks (layout : Layout) : ∀ block ∈ layout.blocks, "" ∉ block := by
  have hheader : "" ∉ "segment .data" :: layout.data.map DataEntry.line := by
    rw [List.mem_cons, not_or]
    exact ⟨by decide, empty_notMem_data⟩
  have hdirectives : "" ∉ ["segment .text", "global _main", linkNote] := by decide
  have hentry : "" ∉ written layout.entry.lines ++ written Printing.exit := by
    rw [List.mem_append, not_or]
    exact ⟨empty_notMem_written, empty_notMem_written⟩
  have hmethods : ∀ block ∈ layout.methods.map fun method => written method.lines, "" ∉ block := by
    rw [List.forall_mem_map]
    intro method _
    exact empty_notMem_written
  simp only [blocks, List.forall_mem_cons]
  exact ⟨hheader, hdirectives, empty_notMem_written, empty_notMem_written, hentry, hmethods⟩

/-- Cutting the text of a layout gives its lines and its blocks, if no line has a newline. -/
theorem linesOf_text {layout : Layout} (h : ∀ line ∈ layout.lines, OneLine line) :
    linesOf layout.text = layout.lines :=
  linesOf_join h

theorem blocksOf_text {layout : Layout} (h : ∀ line ∈ layout.lines, OneLine line) :
    blocksOf layout.text = layout.blocks := by
  rw [blocksOf, linesOf_text h, lines_eq]
  exact List.splitOn_intercalate "" layout.empty_notMem_blocks (List.cons_ne_nil _ _)

theorem graphic_text {layout : Layout} (h : ∀ line ∈ layout.lines, Graphic line) :
    ∀ c ∈ layout.text.toList, isGraphic c = true ∨ c = '\n' := by
  intro c hc
  rw [text, String.toList_join, List.mem_flatMap] at hc
  obtain ⟨ended, hended, hc⟩ := hc
  obtain ⟨line, hline, rfl⟩ := List.mem_map.1 hended
  rw [String.toList_append, List.mem_append] at hc
  rcases hc with hc | hc
  · exact .inl (h line hline c hc)
  · exact .inr (List.mem_singleton.1 hc)

end Layout

/-! ### Programs -/

/-- The assembly text of every program is made of graphic characters and newlines.  Cut into lines
    it gives the lines of the layout, and cut at the empty ones it gives the data lines below
    their header, the directives, the printing routines, the code of the entry point with the way
    out behind it, and the code of each method, in the order of the methods. -/
theorem assemble_lossless {source : String} {compilation : Compilation}
    (h : compile source = .ok compilation) :
    assemble source = .ok compilation.layout.text ∧
      (∀ c ∈ compilation.layout.text.toList, isGraphic c = true ∨ c = '\n') ∧
      linesOf compilation.layout.text = compilation.layout.lines ∧
      blocksOf compilation.layout.text =
        ("segment .data" :: compilation.data.entries.map DataEntry.line) ::
        ["segment .text", "global _main", Layout.linkNote] ::
        Layout.written Printing.number ::
        Layout.written Printing.string ::
        (Layout.written compilation.entry.listing.lines ++ Layout.written Printing.exit) ::
        compilation.methods.map fun r => Layout.written r.listing.lines := by
  obtain ⟨tokens, p, -, -, hproper, helaborates⟩ := exists_elaborates_of_compile h
  have hgraphic := helaborates.graphic_lines hproper
  have honeLine := helaborates.oneLine_lines hproper
  have hassemble : assemble source = .ok compilation.layout.text := by
    rw [assemble, h]
    rfl
  refine ⟨hassemble, Layout.graphic_text hgraphic, Layout.linesOf_text honeLine, ?_⟩
  rw [Layout.blocksOf_text honeLine, Layout.blocks, Compilation.layout, List.map_map]
  rfl

/-- A text whose strings hold newlines, quotes and what looks like the lines of a listing. -/
def misleadingText : String :=
  "class A \x7b int n; f() \x7b string s = \"\\n\\n_A_f:\\n    RET\"; prints(s); \x7d \x7d " ++
    "main() \x7b string s = \"x\\\", 10, 0\\n\\nsegment .text; \\\\ é\"; prints(s); \x7d"

theorem assemble_lossless_misleading :
    ∃ compilation, compile misleadingText = .ok compilation ∧
      linesOf compilation.layout.text = compilation.layout.lines ∧
      blocksOf compilation.layout.text = compilation.layout.blocks := by
  have hok : (compile misleadingText).isOk = true := by decide +kernel
  obtain ⟨compilation, hcompile⟩ := exists_of_isOk hok
  obtain ⟨-, -, hlines, hblocks⟩ := assemble_lossless hcompile
  refine ⟨compilation, hcompile, hlines, ?_⟩
  rw [hblocks, Layout.blocks, Compilation.layout, List.map_map]
  rfl

end ClassLang
