/-
  ClassLang/Proofs/SemanticPreservation.lean
  ==========================================
  **Compiled programs write what their source says.**

  The code of a compilation is run from the first line of the entry point.  Whatever
  program tree the source spells, the interpreter never goes wrong on it, and each run of
  the interpreter that comes to an end is followed by the machine: it gets to the end of
  the entry point, having written the same, with the stack pointer where it was.

  All that is left to do here is to set up the beginning: the code is linked, since
  labels are defined once and every method has its routine, and the machine is related to
  the initial state once the entry point has set its frame pointer.
-/
import ClassLang.Proofs.BlockSimulation

namespace ClassLang

/-! ### Code that is linked -/

/-- The code that is run: the entry point, the way out of the process, and the methods. -/
def Compilation.code (compilation : Compilation) : List (Line Instruction) :=
  compilation.entry.listing.lines ++ Printing.exit ++
    compilation.methods.flatMap fun r => r.listing.lines

theorem CodeAt.of_append (lines code lines' : List (Line Instruction)) :
    CodeAt (lines ++ code ++ lines') lines.length code := by
  rw [CodeAt, List.append_assoc, List.drop_left]
  exact List.prefix_append ..

/-- Where no label is defined twice, a label stands on one line. -/
theorem eq_of_label_eq {lines : List (Line Instruction)} (hnodup : (labelDefs lines).Nodup)
    {name : String} {k k' : Nat} (h : lines[k]? = some (.label name))
    (h' : lines[k']? = some (.label name)) : k' = k := by
  rw [labelDefs, List.Nodup, List.pairwise_filterMap, List.pairwise_iff_getElem] at hnodup
  obtain ⟨hlt, heq⟩ := List.getElem?_eq_some_iff.1 h
  obtain ⟨hlt', heq'⟩ := List.getElem?_eq_some_iff.1 h'
  have hlabel : (Line.label name : Line Instruction).label? = some name := rfl
  rcases Nat.lt_trichotomy k k' with hk | hk | hk
  · exact absurd rfl (hnodup k k' hlt hlt' hk name (heq ▸ hlabel) name (heq' ▸ hlabel))
  · exact hk.symm
  · exact absurd rfl (hnodup k' k hlt' hlt hk name (heq' ▸ hlabel) name (heq ▸ hlabel))

theorem Compilation.labelDefs_code (compilation : Compilation) :
    (labelDefs compilation.code).Sublist compilation.layout.labelDefs := by
  have hmethods : labelDefs (compilation.methods.flatMap fun r => r.listing.lines) =
      compilation.layout.methods.flatMap fun method => labelDefs method.lines := by
    simp only [labelDefs, Compilation.layout, List.flatMap_map, List.filterMap_flatMap]
  rw [Compilation.code, labelDefs_append, labelDefs_append, hmethods, Layout.labelDefs]
  refine List.Sublist.append (List.Sublist.append ?_ (List.Sublist.refl _)) (List.Sublist.refl _)
  exact List.sublist_append_right ..

theorem Compilation.exists_codeAt {compilation : Compilation} {r : Routine}
    (h : r ∈ compilation.methods) : ∃ k, CodeAt compilation.code k r.listing.lines := by
  obtain ⟨above, below, hsplit⟩ := List.append_of_mem h
  refine ⟨(compilation.entry.listing.lines ++ Printing.exit ++
    above.flatMap fun r => r.listing.lines).length, ?_⟩
  rw [code, hsplit, List.flatMap_append, List.flatMap_cons, ← List.append_assoc,
    ← List.append_assoc]
  exact .of_append ..

theorem Source.mem_methods {p : Tree.Program} {c m : String} {method : Tree.Method}
    (h : Source.method? p c m = some method) : (c, method) ∈ p.methods ∧ method.name = m := by
  rw [Source.method?, Option.bind_eq_some_iff] at h
  obtain ⟨k, hk, hmethod⟩ := h
  have hname : k.name = c := by simpa using List.find?_some hk
  refine ⟨?_, by simpa using List.find?_some hmethod⟩
  rw [← hname]
  exact List.mem_flatMap.2 ⟨k, List.mem_of_find?_eq_some hk,
    List.mem_map_of_mem (List.mem_of_find?_eq_some hmethod)⟩

theorem Tree.Program.Elaborates.linked {X : Setting} {compilation : Compilation}
    (h : X.program.Elaborates compilation) (htidy : compilation.LabelsTidy)
    (hentries : X.entries = compilation.data.entries) : X.Linked compilation.code := by
  have hroutine : ∀ {c m : String} {method : Tree.Method},
      Source.method? X.program c m = some method →
      ∃ body, Routine.mk (some c) m body ∈ compilation.methods ∧
        X.program.Origin X.entries (some c) method.signature.parameter method.body body := by
    intro c m method hmethod
    obtain ⟨hmem, hname⟩ := Source.mem_methods hmethod
    obtain ⟨r, hr, howner, hmethod', horigin⟩ := exists_right_of_forall₂ h.methods hmem
    obtain ⟨owner, method', body⟩ := r
    cases howner
    cases hmethod'
    cases hname
    exact ⟨body, hr, hentries ▸ horigin⟩
  refine ⟨fun h h' => ?_, fun hmethod => ?_, fun hmethod => ?_⟩
  · exact eq_of_label_eq (htidy.nodup_labelDefs.sublist compilation.labelDefs_code) h h'
  · obtain ⟨body, hmem, horigin⟩ := hroutine hmethod
    obtain ⟨k, hcode⟩ := Compilation.exists_codeAt hmem
    exact ⟨body, k, hcode, horigin⟩
  · obtain ⟨body, hmem, -⟩ := hroutine hmethod
    have hclaimed := htidy.claimed _ hmem
    constructor <;> intro heq <;> simp only [Routine.entryLabel, Label.entry, heq] at hclaimed <;>
      exact absurd hclaimed (by decide)

/-! ### Programs -/

/-- A program tree that a text spells and that keeps the static rules. -/
structure Tree.Program.SpelledBy (p : Tree.Program) (source : String) : Prop where
  spelled : ∃ tokens, tokenize source = .ok tokens ∧ p.yield = tokens.map Token.lexeme
  wellFormed : p.WellFormed

theorem exists_spelledBy {source : String} {compilation : Compilation}
    (h : compile source = .ok compilation) : ∃ p : Tree.Program, p.SpelledBy source := by
  obtain ⟨tokens, htokens, hpass⟩ := bind_eq_ok.1 h
  obtain ⟨p, hyield, hcompile⟩ := compileTokens_eq_ok_iff.1 hpass
  have hproper : ∀ l ∈ p.yield, l.Proper := hyield ▸ proper_lexemes htokens
  exact ⟨p, ⟨tokens, htokens, hyield⟩, (Tree.Program.exists_compile? hproper).1 ⟨_, hcompile⟩⟩

/-- A tree that elaborates is accepted in any text that spells it. -/
theorem Tree.Program.spelledBy_of_lexemes {p : Tree.Program} {source : String}
    (hlexemes : (tokenize source).toOption.map (·.map Token.lexeme) = some p.yield)
    (helaborates : p.compile?.isSome = true) :
    p.SpelledBy source ∧ ∃ compilation, compile source = .ok compilation := by
  obtain ⟨tokens, htokens, hyield⟩ := Option.map_eq_some_iff.1 hlexemes
  obtain ⟨compilation, hcompile⟩ := Option.isSome_iff_exists.1 helaborates
  rw [toOption_eq_some] at htokens
  have hproper : ∀ l ∈ p.yield, l.Proper := hyield ▸ proper_lexemes htokens
  have hrules := (Tree.Program.exists_compile? hproper).1 ⟨compilation, hcompile⟩
  refine ⟨⟨⟨tokens, htokens, hyield.symm⟩, hrules⟩, compilation, ?_⟩
  exact bind_eq_ok.2 ⟨tokens, htokens, compileTokens_eq_ok_iff.2 ⟨p, hyield.symm, hcompile⟩⟩

/-- A text is compiled to what its program tree elaborates to. -/
theorem Tree.Program.SpelledBy.compile?_eq {p : Tree.Program} {source : String}
    {compilation : Compilation} (hp : p.SpelledBy source) (h : compile source = .ok compilation) :
    (∀ l ∈ p.yield, l.Proper) ∧ p.compile? = some compilation := by
  obtain ⟨tokens, htokens, hyield⟩ := hp.spelled
  have hproper : ∀ l ∈ p.yield, l.Proper := hyield ▸ proper_lexemes htokens
  obtain ⟨compilation', hcompile⟩ := (exists_compile? hproper).2 hp.wellFormed
  have hpass : compile source = .ok compilation' :=
    bind_eq_ok.2 ⟨tokens, htokens, compileTokens_eq_ok_iff.2 ⟨p, hyield, hcompile⟩⟩
  rw [h, Except.ok.injEq] at hpass
  exact ⟨hproper, hpass ▸ hcompile⟩

theorem Tree.Program.SpelledBy.elaborates {p : Tree.Program} {source : String}
    {compilation : Compilation} (hp : p.SpelledBy source) (h : compile source = .ok compilation) :
    p.Elaborates compilation ∧ compilation.LabelsTidy := by
  obtain ⟨hproper, hcompile⟩ := hp.compile?_eq h
  have helaborates := elaborates_of_compile? hproper hcompile
  exact ⟨helaborates, helaborates.labelsTidy hproper⟩

/-- The strings of a program are in memory, where the stack does not reach. -/
def Platform.Loads (P : Platform) (entries : List DataEntry) (M : Machine) : Prop :=
  ∀ e ∈ entries, ∀ memory : Int → Int, (∀ a, M.registers .esp ≤ a → memory a = M.memory a) →
    P.text memory (P.labels e.label) = e.bytes

/-- The entry point sets its frame pointer, and the machine holds the initial state. -/
theorem related_initial {X : Setting} {A : Activation} {M : Machine} (howner : A.owner = none)
    (hparameter : A.parameter = none) (houter : A.outer = []) (hbp : A.bp = X.base)
    (hebp : M.registers .ebp = X.base) (hesp : M.registers .esp = X.base)
    (hmemory : M.memory = X.memory) (houtput : M.output = X.output) :
    Related X A [[]] [[]] .initial M := by
  have hlive : ([[]] : List (List Placed)).flatten ++ A.outer = [] := houter
  refine ⟨hebp.trans hbp.symm, ?_, .cons .nil (List.forall_mem_nil _) .nil, ?_, ?_, ?_, ?_, ?_, ?_⟩
  · simpa [Scope.framesBytes, Frame.bytes, hbp] using hesp
  · rw [hparameter]
    exact .none
  · rw [howner]
    exact .none
  · rw [hlive]
    exact List.forall_mem_nil _
  · rw [hlive]
    exact .nil
  · rw [hmemory]
    exact fun _ _ => rfl
  · simpa [Source.State.initial] using houtput

/-- The interpreter does not go wrong on an elaborated program, and where it comes to an end, so
    does the machine. -/
theorem Tree.Program.Elaborates.preserves {p : Tree.Program} {compilation : Compilation}
    (h : p.Elaborates compilation) (htidy : compilation.LabelsTidy) (hp : p.WellFormed)
    {P : Platform} {M : Machine} (hloads : P.Loads compilation.data.entries M) (fuel : Nat) :
    match Source.run p fuel .initial p.main with
    | .error halt => halt = .outOfFuel
    | .ok σ => ∃ M', P.Reaches compilation.code (M, 0)
          (M', compilation.entry.listing.lines.length) ∧
        M'.output = M.output ++ σ.output ∧ M'.registers .esp = M.registers .esp := by
  let X : Setting := ⟨p, compilation.data.entries, P, M.registers .esp, M.memory, M.output⟩
  have hX : X.Sound :=
    ⟨hp.classes, hp.fields, hp.methods, (List.nodup_append.1 htidy.taken).1, hloads⟩
  have hlinked : X.Linked compilation.code := Elaborates.linked (X := X) h htidy rfl
  obtain ⟨howner, S, S', henters, hbody, hentries⟩ := h.main
  let A : Activation :=
    ⟨S.table, none, (none : Option ClassLang.Parameter).map Symbol.ofParameter, M.registers .esp,
      []⟩
  have hA : A.Fits X :=
    ⟨henters.covers, fun s hs => by contradiction, Int.le_refl _, fun h => by contradiction,
      fun _ => rfl, List.forall_mem_nil _⟩
  -- the label, and the line that sets the frame pointer
  have hlines : compilation.entry.listing.lines = .label compilation.entry.entryLabel ::
      .instruction (.copy .ebp .esp) :: compilation.entry.body.code := by
    simp [Routine.listing, Routine.opening, Routine.closing, howner, Line.ofCode]
  have hcode : CodeAt compilation.code 0 compilation.entry.listing.lines := by
    rw [Compilation.code, List.append_assoc]
    exact List.prefix_append ..
  rw [hlines] at hcode ⊢
  let M₁ := M.set .ebp (M.registers .esp)
  have hreach₁ : P.Reaches compilation.code (M, 0) (M₁, 2) :=
    (Platform.reaches_label hcode.head).tail (Platform.step?_of_effect hcode.tail.head rfl)
  have hrelated : Related X A S.scope.frames [[]] .initial M₁ := by
    rw [henters.scope]
    exact related_initial rfl rfl rfl rfl (by simp [M₁, X]) (by simp [M₁, X]) rfl rfl
  have hS : S.Serves X A := Standing.serves_of_enters henters rfl hbody hentries
  have hends := hlinked.simulated hX fuel hA hS hbody hentries hcode.tail.tail hrelated
  rw [henters.scope] at hends
  have hprogram : X.program = p := rfl
  rw [hprogram] at hends
  generalize Source.run p fuel .initial p.main = result at hends ⊢
  rcases result with ⟨⟨⟩⟩ | σ
  · rfl
  · exact hends.elim
  · obtain ⟨M', hreach, hrelated', -⟩ := hends
    refine ⟨M', ?_, hrelated'.output, ?_⟩
    · have hlength : 0 + 1 + 1 + compilation.entry.body.code.length =
          compilation.entry.body.code.length + 1 + 1 := by omega
      rw [hlength] at hreach
      exact hreach₁.trans hreach
    · rw [hrelated'.esp, Scope.framesBytes]
      exact Int.sub_zero _

/-- Every accepted text spells a program, and the code runs as the program says: the interpreter
    never goes wrong, and for each of its runs that ends, the machine gets from the beginning of the
    entry point to its end, writes what the program writes, and has its stack pointer back. -/
theorem compiled_output {source : String} {compilation : Compilation}
    (h : compile source = .ok compilation) :
    (∃ p : Tree.Program, p.SpelledBy source) ∧
      ∀ p : Tree.Program, p.SpelledBy source → ∀ (P : Platform) (M : Machine),
        P.Loads compilation.data.entries M →
          (∀ fuel, Source.outputOf p fuel ≠ .error .wrong) ∧
          ∀ fuel output, Source.outputOf p fuel = .ok output →
            ∃ M', P.Reaches compilation.code (M, 0) (M', compilation.entry.listing.lines.length) ∧
              M'.output = M.output ++ output ∧ M'.registers .esp = M.registers .esp := by
  refine ⟨exists_spelledBy h, fun p hp P M hloads => ?_⟩
  obtain ⟨helaborates, htidy⟩ := hp.elaborates h
  have hpreserves := helaborates.preserves htidy hp.wellFormed hloads
  refine ⟨fun fuel hwrong => ?_, fun fuel output hrun => ?_⟩
  · have hfuel := hpreserves fuel
    rw [Source.outputOf] at hwrong
    cases hresult : Source.run p fuel .initial p.main with
    | ok σ =>
      rw [hresult] at hwrong
      cases hwrong
    | error halt =>
      rw [hresult] at hwrong hfuel
      cases hwrong
      cases hfuel
  · have hfuel := hpreserves fuel
    rw [Source.outputOf] at hrun
    cases hresult : Source.run p fuel .initial p.main with
    | error halt =>
      rw [hresult] at hrun
      cases hrun
    | ok σ =>
      rw [hresult] at hrun hfuel
      cases hrun
      exact hfuel

/-! ### A run -/

/-- A text with a method, objects that are copied, a string and a loop. -/
def sampleText : String :=
  "class A \x7b int n; put(int k) \x7b this.n = k; \x7d \x7d " ++
    "main() \x7b A a = A.CreateInstance(); A b = a; b.put(7); prints(\"hi\"); " ++
    "while (a.n < b.n) \x7b a = b; print(a.n); \x7d \x7d"

def sampleTree : Tree.Program where
  classes := [⟨"A", ["n"],
    [⟨"put", some ⟨.int, "k"⟩,
      .simple (.assign (.receiverField "n") (.place (.variable "k"))) .finish, by decide⟩],
    by decide, nofun⟩]
  main :=
    .simple (.declare (.named "A") "a" (.create "A")) <|
    .simple (.declare (.named "A") "b" (.value (.place (.variable "a")))) <|
    .simple (.call (.object "b" "put") (some (.number "7"))) <|
    .simple (.printText (.literal "hi")) <|
    .branch .loop ⟨.place (.objectField "a" "n"), .less, .place (.objectField "b" "n")⟩
      (.simple (.assign (.variable "a") (.place (.variable "b"))) <|
        .simple (.print (.place (.objectField "a" "n"))) .finish)
      .finish
  main_ne := by decide

/-- Strings lie at one address and end with a zero. -/
def samplePlatform : Platform where
  labels _ := 1000
  text memory a :=
    (((List.range 8).map fun (i : Nat) => memory (a + i)).takeWhile (· ≠ 0)).map fun w =>
      UInt8.ofNat w.toNat
  scramble M := M

/-- The stack begins at zero, and the string is in memory. -/
def sampleMachine : Machine where
  registers _ := 0
  memory a := if a = 1000 then 104 else if a = 1001 then 105 else 0
  compared := none
  output := []

theorem samplePlatform_loads {label : String} :
    samplePlatform.Loads [⟨label, [104, 105]⟩] sampleMachine := by
  intro e he memory hmemory
  rw [List.mem_singleton.1 he]
  have hwords : ∀ i : Nat, memory (1000 + i) = sampleMachine.memory (1000 + i) :=
    fun i => hmemory _ (show (0 : Int) ≤ _ by omega)
  simp only [samplePlatform, hwords]
  decide

/-- The machine says hello, and the number that was put into a copy and copied back. -/
theorem compiled_output_sample :
    ∃ compilation, compile sampleText = .ok compilation ∧
      ∃ M', samplePlatform.Reaches compilation.code (sampleMachine, 0)
          (M', compilation.entry.listing.lines.length) ∧
        M'.output = [.text [104, 105], .number 7] ∧ M'.registers .esp = 0 := by
  have hlexemes : (tokenize sampleText).toOption.map (·.map Token.lexeme) =
      some sampleTree.yield := by
    decide +kernel
  have hentries : sampleTree.compile?.map (·.data.entries) =
      some [⟨"main_literal_1", [104, 105]⟩] := by
    decide +kernel
  obtain ⟨tokens, htokens, hyield⟩ := Option.map_eq_some_iff.1 hlexemes
  obtain ⟨compilation, hcompile, hentries⟩ := Option.map_eq_some_iff.1 hentries
  rw [toOption_eq_some] at htokens
  have hproper : ∀ l ∈ sampleTree.yield, l.Proper := hyield ▸ proper_lexemes htokens
  have hok := bind_eq_ok.2
    ⟨tokens, htokens, compileTokens_eq_ok_iff.2 ⟨sampleTree, hyield.symm, hcompile⟩⟩
  have hspelled := (Tree.Program.exists_compile? hproper).1 ⟨compilation, hcompile⟩
  have hrun : Source.outputOf sampleTree 20 = .ok [.text [104, 105], .number 7] := rfl
  exact ⟨compilation, hok, ((compiled_output hok).2 sampleTree
    ⟨⟨tokens, htokens, hyield.symm⟩, hspelled⟩ samplePlatform sampleMachine
    (hentries ▸ samplePlatform_loads)).2 20 _ hrun⟩

end ClassLang
