/-
  ClassLang/Proofs/StringPrinting.lean
  ====================================
  **What the routine that writes strings writes of the strings of a program.**

  The routine counts the bytes from its argument up to the first zero, and writes so
  many (`string_printed`).  A string of the program is stored as its bytes with a newline
  and a zero behind, so it is written with its newline, provided that the zero at the end
  is the first one.  It is, unless the literal contains the character with the number
  zero: between quotes any character may stand but a line break, so it may.  Such a
  string is cut off there and gets no newline (`strings_printed`, `cut_string`).
-/
import Mathlib.Data.List.TakeWhile
import ClassLang.Assembly.Printing
import ClassLang.Proofs.DataDirective
import ClassLang.Proofs.Processor
import ClassLang.Proofs.StringEntries

namespace ClassLang

/-! ### The routine -/

namespace Printing

open Processor

section

variable (result : Processor → BitVec 32) {P Q : Processor}

/-- The count goes up, and nothing else changes that matters. -/
structure Scanned (n : Nat) (P Q : Processor) : Prop where
  edx : Q.registers .edx = P.registers .edx + .ofNat 32 n
  ecx : Q.registers .ecx = P.registers .ecx
  esp : Q.registers .esp = P.registers .esp
  memory : Q.memory = P.memory
  stored : Q.stored = P.stored
  writes : Q.writes = P.writes

/-- The byte at hand is compared with zero. -/
def tested (P : Processor) : Processor :=
  P.compare (P.memory (P.registers .ecx + P.registers .edx)).toBitVec.toInt 0

theorem reaches_tested : Reaches result string (P, .line 5) (tested P, .line 7) := by
  refine .trans (reaches_label rfl) (reaches_of_exec?
    [.cmp (.memory (some .byte) ⟨.ecx, some .edx, 0⟩) (.immediate 0)]
    ⟨string.drop 7, rfl⟩ ?_)
  have hzero : (byteOf 0#32 0).toBitVec.toInt = 0 := rfl
  simp [exec?, effect?, compare?, byte?, Operand.isByte, locate, tested, hzero]

/-- Behind a byte that is not zero the count is one higher. -/
def counted (P : Processor) : Processor :=
  ((tested P).set .edx (P.registers .edx + 1#32)).spoil

theorem reaches_counted : Reaches result string (tested P, .line 8) (counted P, .line 5) := by
  have hinc : Reaches result string (tested P, .line 8) (counted P, .line 9) :=
    reaches_of_exec? [.inc .edx] ⟨string.drop 9, rfl⟩ rfl
  have hback : Reaches result string (counted P, .line 9)
      (counted P, .line (if true then 5 else 10)) := reaches_jump rfl rfl (by decide)
  exact hinc.trans hback

theorem Scanned.succ {n : Nat} (h : Scanned n (counted P) Q) : Scanned (n + 1) P Q where
  edx := by
    have hnext : (counted P).registers .edx = P.registers .edx + 1#32 := by simp [counted]
    rw [h.edx, hnext]
    bv_omega
  ecx := h.ecx
  esp := h.esp
  memory := h.memory
  stored := h.stored
  writes := h.writes

/-- The count comes to the number of bytes before the first zero. -/
theorem reaches_length {bytes : List UInt8} (hzero : 0 ∈ bytes)
    (hbytes : bytesFrom P.memory (P.registers .ecx + P.registers .edx) bytes.length = bytes) :
    ∃ Q, Reaches result string (P, .line 5) (Q, .line 10) ∧
      Scanned (bytes.takeWhile (· != 0)).length P Q := by
  induction bytes generalizing P with
  | nil => cases hzero
  | cons b bytes ih =>
    rw [List.length_cons, bytesFrom, List.cons.injEq] at hbytes
    obtain ⟨hbyte, hrest⟩ := hbytes
    have htested : (tested P).compared = some (b.toBitVec.toInt, 0) := by rw [tested, hbyte]; rfl
    have hjump : Reaches result string (tested P, .line 7) (tested P,
        .line (if b.toBitVec.toInt == 0 then 10 else 8)) :=
      reaches_jump rfl (by rw [htested]; rfl) (by decide)
    by_cases hb : b = 0
    · subst hb
      refine ⟨tested P, (reaches_tested result).trans hjump, ?_⟩
      exact ⟨(BitVec.add_zero _).symm, rfl, rfl, rfl, rfl, rfl⟩
    · have hnonzero : (b.toBitVec.toInt == 0) = false := by
        have hne : b.toBitVec.toInt ≠ (0#8).toInt := fun heq =>
          hb (UInt8.eq_of_toBitVec_eq (BitVec.toInt_inj.1 heq))
        simpa using hne
      rw [hnonzero] at hjump
      have hmore : 0 ∈ bytes := by
        rcases List.mem_cons.1 hzero with heq | hmem
        · exact absurd heq.symm hb
        · exact hmem
      have hnext : (counted P).registers .edx = P.registers .edx + 1#32 := by
        simp [counted]
      obtain ⟨Q, hreach, hscanned⟩ := ih (P := counted P) hmore (by
        rw [hnext, ← BitVec.add_assoc]
        exact hrest)
      have hturn : Reaches result string (P, .line 5) (counted P, .line 5) :=
        ((reaches_tested result).trans hjump).trans (reaches_counted result)
      refine ⟨Q, hturn.trans hreach, ?_⟩
      rw [takeWhile_bne_cons hb]
      exact hscanned.succ

end

theorem zero_notMem_takeWhile (bytes : List UInt8) : 0 ∉ bytes.takeWhile (· != 0) := by
  intro h
  simpa using List.mem_takeWhile_imp h

/-- Behind the bytes before the first zero comes a zero. -/
theorem exists_append_zero {bytes : List UInt8} (h : 0 ∈ bytes) :
    ∃ rest, bytes = bytes.takeWhile (· != 0) ++ 0 :: rest := by
  induction bytes with
  | nil => cases h
  | cons b bytes ih =>
    by_cases hb : b = 0
    · subst hb
      exact ⟨bytes, rfl⟩
    · have hmore : 0 ∈ bytes := (List.mem_cons.1 h).resolve_left (Ne.symm hb)
      obtain ⟨rest, hrest⟩ := ih hmore
      refine ⟨rest, ?_⟩
      rw [takeWhile_bne_cons hb, List.cons_append, ← hrest]

/-- If a byte before the first zero had a number that the count cannot hold, the first zero would
    have come before. -/
theorem length_lt_of_bytesFrom {memory : BitVec 32 → UInt8} {a : BitVec 32} {bytes : List UInt8}
    (hzero : 0 ∈ bytes) (hbytes : bytesFrom memory a bytes.length = bytes) :
    (bytes.takeWhile (· != 0)).length < 2 ^ 32 := by
  have hget : ∀ k < bytes.length, bytes[k]? = some (memory (a + .ofNat 32 k)) := fun k hk =>
    (congrArg (·[k]?) hbytes.symm).trans (getElem?_bytesFrom hk)
  obtain ⟨rest, hsplit⟩ := exists_append_zero hzero
  generalize htext : bytes.takeWhile (· != 0) = text at *
  have hlength : text.length < bytes.length := by simp [hsplit]
  have hend : bytes[text.length]? = some 0 := by simp [hsplit]
  refine Nat.lt_of_not_le fun hle => ?_
  have hbefore : text.length - 2 ^ 32 < text.length := by omega
  -- addresses wrap around, so the zero at the end is also so many bytes before it
  have hsame : a + BitVec.ofNat 32 (text.length - 2 ^ 32) = a + BitVec.ofNat 32 text.length := by
    bv_omega
  have hearly : text[text.length - 2 ^ 32]? = some 0 := by
    have hinside : (text ++ 0 :: rest)[text.length - 2 ^ 32]? = text[text.length - 2 ^ 32]? :=
      List.getElem?_append_left hbefore
    rw [← hinside, ← hsplit, hget _ (Nat.lt_trans hbefore hlength), hsame, ← hget _ hlength, hend]
  have hmem := List.mem_of_getElem? hearly
  rw [← htext] at hmem
  exact zero_notMem_takeWhile bytes hmem

/-- The routine writes the bytes at its argument up to the first zero, in one call, and returns as
    it should, wherever these bytes lie, as long as they are not where it saves the frame
    pointer. -/
theorem string_printed (result : Processor → BitVec 32) (M : Processor) {bytes : List UInt8}
    (hzero : 0 ∈ bytes)
    (hbytes : bytesFrom M.memory (M.wordAt (M.registers .esp + 4#32)) bytes.length = bytes)
    (hapart : ∀ k < bytes.length,
      ¬ Below (M.registers .esp) 4 (M.wordAt (M.registers .esp + 4#32) + .ofNat 32 k)) :
    ∃ N, Reaches result string (M, .line 0) (N, .returned (M.wordAt (M.registers .esp))) ∧
      (∀ c, Reaches result string (M, .line 0) c →
        Reaches result string c (N, .returned (M.wordAt (M.registers .esp)))) ∧
      Printed 4 (bytes.takeWhile (· != 0)) M N := by
  have hargument := M.wordAt_enter (k := 4) (by decide)
  have habove : M.registers .esp - 4#32 + 8#32 = M.registers .esp + 4#32 := by bv_omega
  have hmemory : bytesFrom M.enter.memory (M.wordAt (M.registers .esp + 4#32)) bytes.length =
      bytes :=
    (bytesFrom_congr fun k hk => M.recorded_enter.memory_eq M.storedIn_enter (hapart k hk)).trans
      hbytes
  have hlength := length_lt_of_bytesFrom hzero hbytes
  generalize M.wordAt (M.registers .esp + 4#32) = a at *
  have hbegin : Reaches result string (M.enter, .line 3)
      (((M.enter.set .ecx a).set .edx 0#32).spoil, .line 5) := by
    refine reaches_of_exec? [.load .ecx (.offBy .ebp 8), .xor .edx (.register .edx)]
      ⟨string.drop 5, rfl⟩ ?_
    simp [exec?, effect?, move?, word?, Instruction.load, habove, hargument]
  obtain ⟨P₁, hcount, hscanned⟩ := reaches_length result
    (P := ((M.enter.set .ecx a).set .edx 0#32).spoil) hzero (by simpa using hmemory)
  obtain ⟨P₂, hexec, -, hesp, hstored, hwrites⟩ := exec_writeOut result P₁
  have hwrite : Reaches result string (P₁, .line 10) (P₂, .line 14) :=
    .trans (reaches_label rfl) (reaches_of_exec? _ ⟨string.drop 14, rfl⟩ hexec)
  have hinside : Reaches result string (M.enter, .line 3) (P₂, .line 14) :=
    (hbegin.trans hcount).trans hwrite
  have hout : bytesFrom P₁.memory (P₁.registers .ecx) (P₁.registers .edx).toNat =
      bytes.takeWhile (· != 0) := by
    have hedx : (P₁.registers .edx).toNat = (bytes.takeWhile (· != 0)).length := by
      rw [hscanned.edx]
      simpa using hlength
    have hecx : P₁.registers .ecx = a := by
      rw [hscanned.ecx]
      simp
    have hprefix : bytes.takeWhile (· != 0) <+: bytes := List.takeWhile_prefix _
    rw [hedx, hecx, hscanned.memory, spoil_memory, set_memory, set_memory,
      ← take_bytesFrom hprefix.length_le, hmemory]
    exact (List.prefix_iff_eq_take.1 hprefix).symm
  rw [hout, hscanned.writes] at hwrites
  have hstack : P₂.registers .esp = M.registers .esp - 4#32 := by
    rw [hesp, hscanned.esp]
    simp
  have hkept : StoredIn (Below (M.registers .esp - 4#32) 0) M.enter P₂ :=
    ⟨[], hstored.trans hscanned.stored, List.forall_mem_nil _⟩
  exact exists_printed (by decide) ⟨string.drop 3, rfl⟩ ⟨[], rfl⟩ hinside hstack hkept hwrites

end Printing

/-! ### Literals in the text -/

namespace Tree

variable {content : String}

theorem Place.string_notMem_yield (p : Place) : .string content ∉ p.yield := by
  cases p <;> simp [Place.yield]

theorem Value.string_notMem_yield (v : Value) : .string content ∉ v.yield := by
  cases v with
  | number digits => simp [Value.yield]
  | place p => exact p.string_notMem_yield

theorem TypeName.lexeme_ne_string (t : TypeName) : Lexeme.string content ≠ t.lexeme := by
  cases t <;> simp [TypeName.lexeme]

/-- A literal is the beginning of a variable, or is written. -/
theorem Simple.string_mem_yield {s : Simple} : .string content ∈ s.yield ↔
    (∃ t x, s = .declare t x (.text content)) ∨ s = .printText (.literal content) := by
  cases s with
  | declare t x initial =>
    cases initial with
    | value v =>
      simp [Simple.yield, Initial.yield, TypeName.lexeme_ne_string, Value.string_notMem_yield]
    | text content' => simp [Simple.yield, Initial.yield, TypeName.lexeme_ne_string, eq_comm]
    | create c => simp [Simple.yield, Initial.yield, TypeName.lexeme_ne_string]
  | assign target v =>
    simp [Simple.yield, Place.string_notMem_yield, Value.string_notMem_yield]
  | call callee argument =>
    cases callee <;> cases argument <;>
      simp [Simple.yield, Callee.yield, argumentYield, Value.string_notMem_yield]
  | print v => simp [Simple.yield, Value.string_notMem_yield]
  | printText text => cases text <;> simp [Simple.yield, Text.lexeme, eq_comm]

theorem Simple.string_mem_yield_of_site? {s : Simple} {bindings : Bindings}
    (h : s.site? bindings = some (.literal content)) : .string content ∈ s.yield := by
  rw [Simple.string_mem_yield]
  cases s with
  | declare t x initial =>
    cases t with
    | string =>
      cases initial with
      | text content' =>
        cases h
        exact .inl ⟨.string, x, rfl⟩
      | value v =>
        cases v with
        | number digits => cases h
        | place p => cases p <;> cases h
      | create c => cases h
    | int | named c => cases h
  | printText text =>
    cases text <;> cases h
    exact .inr rfl
  | assign | call | print => cases h

theorem Condition.string_notMem_yield (c : Condition) : .string content ∉ c.yield := by
  simp [Condition.yield, Value.string_notMem_yield]

theorem Block.string_mem_yield {t : Block} {bindings : Bindings} {n : Nat}
    (h : .literal content ∈ t.sites bindings n) : .string content ∈ t.yield := by
  induction t generalizing bindings n with
  | finish => cases h
  | simple s rest ih =>
    rw [Block.sites, List.mem_append, Option.mem_toList] at h
    rw [Block.yield, List.mem_append]
    exact h.imp Simple.string_mem_yield_of_site? ih
  | branch kind condition inner rest ihInner ihRest =>
    rw [Block.sites, List.mem_append] at h
    simp only [Block.yield, List.mem_cons, List.mem_append]
    rcases h with h | h
    · exact .inr (.inr (.inr (.inl (ihInner h))))
    · exact .inr (.inr (.inr (.inr (.inr (ihRest h)))))

theorem exists_body_of_mem_sitesOf {n : Nat} {bodies : List Block}
    (h : .literal content ∈ sitesOf n bodies) : ∃ body ∈ bodies, .string content ∈ body.yield := by
  induction bodies generalizing n with
  | nil => cases h
  | cons body rest ih =>
    rw [sitesOf, List.mem_append] at h
    rcases h with h | h
    · exact ⟨body, List.mem_cons_self .., Block.string_mem_yield h⟩
    · obtain ⟨body', hmem, hstring⟩ := ih h
      exact ⟨body', List.mem_cons_of_mem _ hmem, hstring⟩

/-- Strings stand in bodies only. -/
theorem Program.string_mem_yield {p : Program} :
    .string content ∈ p.yield ↔ ∃ body ∈ p.bodies, .string content ∈ body.yield := by
  have hmethod : ∀ m : Method, .string content ∈ m.yield ↔ .string content ∈ m.body.yield := by
    intro m
    cases hparameter : m.parameter <;>
      simp [Method.yield, parameterYield, hparameter, TypeName.lexeme_ne_string]
  have hclass : ∀ c : Class, .string content ∈ c.yield ↔
      ∃ m ∈ c.methods, .string content ∈ m.body.yield := by
    intro c
    simp [Class.yield, fieldYield, hmethod]
  have hmain : .string content ∈ mainYield p.main ↔ .string content ∈ p.main.yield := by
    simp [mainYield]
  have hbodies : ∀ body, body ∈ p.bodies ↔
      (∃ m, (∃ c ∈ p.classes, m ∈ c.methods) ∧ m.body = body) ∨ body = p.main := by
    intro body
    simp [Program.bodies, Program.methods]
  rw [Program.yield, List.mem_append, List.mem_flatMap, hmain]
  simp only [hclass, hbodies]
  constructor
  · rintro (⟨c, hc, m, hm, hstring⟩ | hstring)
    · exact ⟨m.body, .inl ⟨m, ⟨c, hc, hm⟩, rfl⟩, hstring⟩
    · exact ⟨p.main, .inr rfl, hstring⟩
  · rintro ⟨body, ⟨m, ⟨c, hc, hm⟩, rfl⟩ | rfl, hstring⟩
    · exact .inl ⟨c, hc, m, hm, hstring⟩
    · exact .inr hstring

end Tree

/-! ### Literals and entries -/

/-- Every entry holds the bytes of a literal: copies are made of what is there. -/
theorem Stored.exists_literal {sites : List StringSite} {entries : List DataEntry}
    (h : Stored sites entries) {k : Nat} {e : DataEntry} (he : entries[k]? = some e) :
    ∃ content, .literal content ∈ sites ∧ e.bytes = stringBytes content := by
  induction k using Nat.strongRecOn generalizing e with
  | ind k ih =>
    have hlt : k < sites.length := h.length ▸ (List.getElem?_eq_some_iff.1 he).1
    have hsite : sites[k]? = some sites[k] := List.getElem?_eq_getElem hlt
    have hfills := h.fills hsite he
    cases hkind : sites[k] with
    | literal content =>
      rw [hkind] at hfills hsite
      exact ⟨content, List.mem_of_getElem? hsite, hfills⟩
    | copy source =>
      rw [hkind] at hfills
      obtain ⟨i, e', -, he', hbytes⟩ := hfills
      have hi : i < k := by
        have := (List.getElem?_eq_some_iff.1 he').1
        rw [List.length_take] at this
        omega
      rw [List.getElem?_take_of_lt hi] at he'
      obtain ⟨content, hmem, hcontent⟩ := ih i hi he'
      exact ⟨content, hmem, hbytes.trans hcontent⟩

namespace Standing

variable {S S' : Standing} {content : String}

/-- A literal is stored where it stands. -/
theorem Elaborates.exists_entry {s : Tree.Simple} {command : Command}
    (h : S.Elaborates s command S') (hstring : .string content ∈ s.yield) :
    ∃ e ∈ S'.data.entries, e.bytes = stringBytes content := by
  rcases Tree.Simple.string_mem_yield.1 hstring with ⟨t, x, rfl⟩ | rfl
  · cases h with
    | text => exact ⟨_, List.mem_append_right _ (List.mem_singleton_self _), rfl⟩
  · cases h with
    | printLiteral => exact ⟨_, List.mem_append_right _ (List.mem_singleton_self _), rfl⟩

theorem ElaboratesBlock.exists_entry {t : Tree.Block} {body : Body}
    (h : ElaboratesBlock S t body S') (hstring : .string content ∈ t.yield) :
    ∃ e ∈ S'.data.entries, e.bytes = stringBytes content := by
  induction h with
  | finish => cases hstring
  | simple hsimple hrest ih =>
    rw [Tree.Block.yield, List.mem_append] at hstring
    rcases hstring with hhere | hbehind
    · obtain ⟨e, he, hbytes⟩ := hsimple.exists_entry hhere
      exact ⟨e, hrest.entries.subset he, hbytes⟩
    · exact ih hbehind
  | branch hcondition hinner hrest ihInner ihRest =>
    simp only [Tree.Block.yield, List.mem_cons, List.mem_append, reduceCtorEq, false_or,
      Tree.Condition.string_notMem_yield] at hstring
    rcases hstring with hinside | hbehind
    · obtain ⟨e, he, hbytes⟩ := ihInner hinside
      exact ⟨e, hrest.entries.subset he, hbytes⟩
    · exact ihRest hbehind

end Standing

/-- Entries hold the bytes of literals, and every literal has an entry that holds its bytes. -/
theorem Tree.Program.Elaborates.literals {p : Tree.Program} {compilation : Compilation}
    (h : p.Elaborates compilation) (hproper : ∀ l ∈ p.yield, l.Proper) :
    (∀ e ∈ compilation.data.entries, ∃ content,
      .string content ∈ p.yield ∧ e.bytes = stringBytes content) ∧
    ∀ content, .string content ∈ p.yield →
      ∃ e ∈ compilation.data.entries, e.bytes = stringBytes content := by
  constructor
  · intro e he
    obtain ⟨k, hk⟩ := List.getElem?_of_mem he
    obtain ⟨content, hsite, hbytes⟩ := (h.stored hproper).exists_literal hk
    exact ⟨content, Tree.Program.string_mem_yield.2 (Tree.exists_body_of_mem_sitesOf hsite), hbytes⟩
  · intro content hstring
    obtain ⟨body, hbody, hstring⟩ := Tree.Program.string_mem_yield.1 hstring
    have horigin : ∃ owner parameter b,
        p.Origin compilation.data.entries owner parameter body b := by
      rcases List.mem_append.1 hbody with hmethod | hmain
      · obtain ⟨q, hq, rfl⟩ := List.mem_map.1 hmethod
        obtain ⟨r, -, -, -, horigin⟩ := exists_right_of_forall₂ h.methods hq
        exact ⟨_, _, _, horigin⟩
      · rw [List.mem_singleton.1 hmain]
        exact ⟨_, _, _, h.main.2⟩
    obtain ⟨_, _, _, S, S', -, helaborates, hentries⟩ := horigin
    obtain ⟨e, he, hbytes⟩ := helaborates.exists_entry hstring
    exact ⟨e, hentries.subset he, hbytes⟩

/-! ### What is written -/

/-- The bytes that a string is stored as: those of its text, a newline and a zero. -/
def storedBytes (content : String) : List UInt8 := stringBytes content ++ [10, 0]

/-- The bytes of a string up to the first zero. -/
def writtenBytes (content : String) : List UInt8 := (storedBytes content).takeWhile (· != 0)

/-- The zero at the end is the first one, unless the text has one of its own. -/
theorem writtenBytes_of_notMem {content : String} (h : nul ∉ content.toList) :
    writtenBytes content = stringBytes content ++ [10] := by
  have hbytes : ∀ b ∈ stringBytes content, (b != 0) = true := by
    intro b hb
    rw [bne_iff_ne]
    rintro rfl
    exact h (zero_mem_stringBytes.1 hb)
  rw [writtenBytes, storedBytes, List.takeWhile_append_of_pos hbytes]
  rfl

/-- Otherwise the text is cut off there. -/
theorem writtenBytes_of_mem {content : String} (h : nul ∈ content.toList) :
    writtenBytes content = stringBytes (String.ofList (content.toList.takeWhile (· != nul))) := by
  rw [writtenBytes, storedBytes, stringBytes_ofList, ← takeWhile_flatMap_utf8EncodeChar h [10, 0],
    ← stringBytes_ofList, String.ofList_toList]

theorem writtenBytes_eq_iff {content : String} :
    writtenBytes content = stringBytes content ++ [10] ↔ nul ∉ content.toList := by
  refine ⟨fun h hmem => ?_, writtenBytes_of_notMem⟩
  have hzero : 0 ∈ writtenBytes content := by
    rw [h]
    exact List.mem_append_left _ (zero_mem_stringBytes.2 hmem)
  exact Printing.zero_notMem_takeWhile _ hzero

/-- What becomes of a literal whose bytes an entry holds. -/
structure DataEntry.Prints (entry : DataEntry) (content : String) : Prop where
  bytes : entry.bytes = stringBytes content
  line : readDirective? entry.line = some (entry.label, storedBytes content)
  run : ∀ (result : Processor → BitVec 32) (M : Processor),
    bytesFrom M.memory (M.wordAt (M.registers .esp + 4#32)) (storedBytes content).length =
      storedBytes content →
    (∀ k < (storedBytes content).length, ¬ Processor.Below (M.registers .esp) 4
      (M.wordAt (M.registers .esp + 4#32) + .ofNat 32 k)) →
    ∃ N, Processor.Reaches result Printing.string (M, .line 0)
        (N, .returned (M.wordAt (M.registers .esp))) ∧
      Processor.Printed 4 (writtenBytes content) M N
  full : nul ∉ content.toList → writtenBytes content = stringBytes content ++ [10]
  cut : nul ∈ content.toList →
    writtenBytes content = stringBytes (String.ofList (content.toList.takeWhile (· != nul))) ∧
      writtenBytes content ≠ stringBytes content ++ [10]

theorem DataEntry.prints {entry : DataEntry} {content : String}
    (hlabel : Label.Spelled entry.label) (hbytes : entry.bytes = stringBytes content) :
    entry.Prints content where
  bytes := hbytes
  line := by
    rw [storedBytes, ← hbytes]
    exact DataEntry.readDirective?_line fun hblank => absurd (hlabel _ hblank) (by decide)
  run := by
    intro result M hmemory hapart
    have hzero : 0 ∈ storedBytes content := List.mem_append_right _ (by decide)
    obtain ⟨N, hrun, -, hprinted⟩ := Printing.string_printed result M hzero hmemory hapart
    exact ⟨N, hrun, hprinted⟩
  full := writtenBytes_of_notMem
  cut := fun h => ⟨writtenBytes_of_mem h, fun hfull => writtenBytes_eq_iff.1 hfull h⟩

/-- For every accepted text: every entry holds a literal of the text, and every literal is held by
    an entry.  The data line of the entry assembles to the bytes of the literal, a newline and a
    zero, and the routine, called with these bytes, writes those before the first zero.  That is
    the literal with the newline, unless it contains the character with the number zero; then it
    is what stands before that character, without a newline. -/
theorem strings_printed {source : String} {compilation : Compilation}
    (h : compile source = .ok compilation) : ∃ tokens, tokenize source = .ok tokens ∧
      (∀ e ∈ compilation.data.entries, ∃ content,
        .string content ∈ tokens.map Token.lexeme ∧ e.Prints content) ∧
      ∀ content, .string content ∈ tokens.map Token.lexeme →
        ∃ e ∈ compilation.data.entries, e.Prints content := by
  obtain ⟨tokens, p, htokens, hyield, hproper, helaborates⟩ := exists_elaborates_of_compile h
  have hspelled : ∀ e ∈ compilation.data.entries, Label.Spelled e.label := fun e he =>
    (helaborates.labelsTidy hproper).spelled _ (List.mem_append_left _ (List.mem_map_of_mem he))
  obtain ⟨hheld, hreached⟩ := helaborates.literals hproper
  rw [hyield] at hheld hreached
  refine ⟨tokens, htokens, fun e he => ?_, fun content hstring => ?_⟩
  · obtain ⟨content, hstring, hbytes⟩ := hheld e he
    exact ⟨content, hstring, DataEntry.prints (hspelled e he) hbytes⟩
  · obtain ⟨e, he, hbytes⟩ := hreached content hstring
    exact ⟨e, he, DataEntry.prints (hspelled e he) hbytes⟩

/-- A text with a literal that has quotes and a letter of two bytes. -/
def quotedText : String := "main() \x7b string s = \"say \\\"é\\\"\"; prints(s); \x7d"

theorem strings_printed_quoted : ∃ compilation, compile quotedText = .ok compilation ∧
    ∃ e ∈ compilation.data.entries, e.Prints "say \"é\"" ∧
      writtenBytes "say \"é\"" = stringBytes "say \"é\"\n" := by
  have hok : (compile quotedText).isOk = true := by decide +kernel
  obtain ⟨compilation, hcompile⟩ := exists_of_isOk hok
  have hlexemes : ((tokenize quotedText).toOption.map (·.map Token.lexeme)).any
      (·.contains (.string "say \"é\"")) = true := by decide +kernel
  obtain ⟨tokens, htokens, -, hreached⟩ := strings_printed hcompile
  rw [htokens] at hlexemes
  obtain ⟨e, he, hprints⟩ := hreached "say \"é\"" (List.contains_iff_mem.1 hlexemes)
  exact ⟨compilation, hcompile, e, he, hprints, by decide +kernel⟩

/-- A text with a literal that contains the character with the number zero. -/
def cutText : String := "main() \x7b prints(\"a\x00b\"); \x7d"

/-- The literal is accepted and stored whole, but the routine writes its first letter only. -/
theorem cut_string : ∃ compilation e, compile cutText = .ok compilation ∧
    compilation.data.entries = [e] ∧ e.Prints "a\x00b" ∧
      writtenBytes "a\x00b" = [97] ∧ writtenBytes "a\x00b" ≠ stringBytes "a\x00b" ++ [10] := by
  have hok : (compile cutText).isOk = true := by decide +kernel
  obtain ⟨compilation, hcompile⟩ := exists_of_isOk hok
  have hentries : (compile cutText).toOption.map (·.data.entries) =
      some [⟨"main_literal_1", [97, 0, 98]⟩] := by decide +kernel
  rw [hcompile] at hentries
  have hprints : DataEntry.Prints ⟨"main_literal_1", [97, 0, 98]⟩ "a\x00b" :=
    DataEntry.prints (by decide) (by decide +kernel)
  exact ⟨compilation, _, hcompile, Option.some.inj hentries, hprints, by decide +kernel,
    by decide +kernel⟩

end ClassLang
