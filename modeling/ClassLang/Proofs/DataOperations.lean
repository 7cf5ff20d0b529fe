/-
  ClassLang/Proofs/DataOperations.lean
  ====================================
  **Whatever is stored in the data section.**

  The search for a label has no bound of its own: it tries one candidate after the other
  for as long as they are taken.  It comes to an end because the candidates are pairwise
  different and only so many labels are taken, and the label that it ends at is the one
  that `DataSection.insert` gives out (`stores_insert`).

  From there on everything is about operations in any order, labels that are kept for
  code among strings that are stored.  What a run of them leaves is the list of what was
  stored, in that order (`entries_behindAll`), and nothing that is done later takes away
  what is found under a label.
-/
import ClassLang.Proofs.StepInvariants

namespace ClassLang

namespace DataSection

/-! ### The search -/

/-- One turn of the search: the candidate is taken, and the next one is tried. -/
def Turn (data : DataSection) (wanted : String) (n m : Nat) : Prop :=
  data.isTaken (candidate wanted n) = true ∧ m = n + 1

/-- The search comes to the candidate with a number and stops there. -/
def StopsAt (data : DataSection) (wanted : String) (n : Nat) : Prop :=
  Relation.ReflTransGen (data.Turn wanted) 0 n ∧ data.isTaken (candidate wanted n) = false

variable {data : DataSection} {wanted label : String} {bytes : List UInt8} {n : Nat}

theorem isTaken_eq_false_iff : data.isTaken label = false ↔ label ∉ data.taken := by
  rw [Bool.eq_false_iff, ne_eq, isTaken_iff]

theorem turns_of_taken (h : ∀ m < n, candidate wanted m ∈ data.taken) :
    Relation.ReflTransGen (data.Turn wanted) 0 n := by
  induction n with
  | zero => exact .refl
  | succ n ih =>
    have hbefore : Relation.ReflTransGen (data.Turn wanted) 0 n := by
      apply ih
      intro m hm
      exact h m (Nat.lt_succ_of_lt hm)
    exact hbefore.tail ⟨isTaken_iff.2 (h n (Nat.lt_succ_self n)), rfl⟩

/-- The search stops, after at most as many turns as labels are taken, at the label that is given
    out. -/
theorem exists_stopsAt (data : DataSection) (wanted : String) :
    ∃ n ≤ data.takenCount, data.StopsAt wanted n ∧ candidate wanted n = data.freeLabel wanted := by
  obtain ⟨n, hlabel, hfree, hbefore⟩ := data.isFirstFree_freeLabel wanted
  have hbound : n ≤ data.takenCount := by
    obtain ⟨m, hm, hmfree⟩ := data.exists_free wanted
    by_contra hlt
    exact hmfree (hbefore m (by omega))
  refine ⟨n, hbound, ⟨turns_of_taken hbefore, ?_⟩, hlabel.symm⟩
  rw [← hlabel]
  exact isTaken_eq_false_iff.2 hfree

/-! ### Storing one string -/

/-- What storing a string under a label does to the section. -/
structure Stores (data : DataSection) (wanted : String) (bytes : List UInt8) (label : String)
    (data' : DataSection) : Prop where
  search : ∃ n ≤ data.takenCount, data.StopsAt wanted n ∧ candidate wanted n = label
  asked : data.isTaken wanted = false → label = wanted
  least : data.isTaken wanted = true → ∃ n, 2 ≤ n ∧ label = wanted ++ "_" ++ toString n ∧
    data.isTaken label = false ∧
      ∀ m, 2 ≤ m → m < n → data.isTaken (wanted ++ "_" ++ toString m) = true
  entries : data'.entries = data.entries ++ [⟨label, bytes⟩]
  reserved : data'.reserved = data.reserved

theorem stores_insert (data : DataSection) (wanted : String) (bytes : List UInt8) :
    data.Stores wanted bytes (data.insert wanted bytes).1 (data.insert wanted bytes).2 := by
  obtain ⟨n, hlabel, hfree, hbefore⟩ := data.isFirstFree_freeLabel wanted
  refine ⟨data.exists_stopsAt wanted, ?_, ?_, rfl, rfl⟩
  · intro hwanted
    cases n with
    | zero => exact hlabel
    | succ n =>
      have htaken : wanted ∈ data.taken := hbefore 0 (Nat.succ_pos n)
      exact absurd htaken (isTaken_eq_false_iff.1 hwanted)
  · intro hwanted
    cases n with
    | zero =>
      rw [hlabel] at hfree
      exact absurd (isTaken_iff.1 hwanted) hfree
    | succ n =>
      refine ⟨n + 2, by omega, hlabel, isTaken_eq_false_iff.2 hfree, ?_⟩
      intro m hlow hhigh
      -- the text with the number `m` behind it is the candidate before the `m`-th
      obtain ⟨k, rfl⟩ : ∃ k, m = k + 2 := ⟨m - 2, by omega⟩
      exact isTaken_iff.2 (hbefore (k + 1) (by omega))

/-! ### Operations -/

/-- What can be done to the section. -/
inductive Operation where
  | reserve (label : String)
  | insert (wanted : String) (bytes : List UInt8)
deriving DecidableEq, Repr

def behind (data : DataSection) : Operation → DataSection
  | .reserve label => data.reserve label
  | .insert wanted bytes => (data.insert wanted bytes).2

/-- The section behind operations, one after the other. -/
def behindAll (data : DataSection) (operations : List Operation) : DataSection :=
  operations.foldl behind data

/-- What operations store: each string with the label that it is told. -/
def stored (data : DataSection) : List Operation → List DataEntry
  | [] => []
  | .reserve label :: rest => (data.reserve label).stored rest
  | .insert wanted bytes :: rest =>
    ⟨(data.insert wanted bytes).1, bytes⟩ :: (data.insert wanted bytes).2.stored rest

theorem behindAll_append (data : DataSection) (operations later : List Operation) :
    data.behindAll (operations ++ later) = (data.behindAll operations).behindAll later :=
  List.foldl_append

/-- The entries are those that were there and those that are stored, in that order. -/
theorem entries_behindAll (data : DataSection) (operations : List Operation) :
    (data.behindAll operations).entries = data.entries ++ data.stored operations := by
  induction operations generalizing data with
  | nil => exact (List.append_nil _).symm
  | cons operation rest ih =>
    cases operation with
    | reserve label => exact ih (data.reserve label)
    | insert wanted bytes =>
      have hentries := (data.stores_insert wanted bytes).entries
      have hrest := ih (data.insert wanted bytes).2
      rw [hentries, List.append_assoc] at hrest
      exact hrest

theorem mem_reserved_behindAll (data : DataSection) (operations : List Operation) :
    label ∈ (data.behindAll operations).reserved ↔
      label ∈ data.reserved ∨ .reserve label ∈ operations := by
  induction operations generalizing data with
  | nil => simp [behindAll]
  | cons operation rest ih =>
    refine (ih (data.behind operation)).trans ?_
    cases operation with
    | reserve other => simp [behind, reserve, or_left_comm, or_assoc]
    | insert wanted bytes => simp [behind, insert]

/-- One operation keeps the labels distinct. -/
theorem nodup_labels_behind (h : (data.entries.map (·.label)).Nodup) (operation : Operation) :
    ((data.behind operation).entries.map (·.label)).Nodup := by
  cases operation with
  | reserve label => exact h
  | insert wanted bytes => exact nodup_labels_insert h wanted bytes

theorem nodup_labels_behindAll (h : (data.entries.map (·.label)).Nodup)
    (operations : List Operation) :
    ((data.behindAll operations).entries.map (·.label)).Nodup := by
  induction operations generalizing data with
  | nil => exact h
  | cons operation rest ih => exact ih (nodup_labels_behind h operation)

/-! ### Entries stay -/

/-- What is found under a label is found there for good. -/
theorem find?_behindAll {e : DataEntry} (h : data.find? label = some e)
    (operations : List Operation) : (data.behindAll operations).find? label = some e := by
  rw [find?] at h ⊢
  rw [entries_behindAll, List.find?_append, h, Option.some_or]

/-- A string is found under the label that it was told. -/
theorem find?_insert (data : DataSection) (wanted : String) (bytes : List UInt8) :
    (data.insert wanted bytes).2.find? (data.insert wanted bytes).1 =
      some ⟨(data.insert wanted bytes).1, bytes⟩ := by
  have hfree := data.freeLabel_notMem wanted
  rw [taken, List.mem_append, not_or] at hfree
  have hnone : data.find? (data.freeLabel wanted) = none := by
    rw [find?, List.find?_eq_none]
    intro e he heq
    apply hfree.1
    rw [← beq_iff_eq.1 heq]
    exact List.mem_map_of_mem he
  rw [find?] at hnone
  simp only [insert, find?, List.find?_append, hnone, Option.none_or]
  simp

/-! ### The statement -/

/-- What a run of operations on a new section leaves. -/
structure Lawful (operations : List Operation) : Prop where
  entries : (empty.behindAll operations).entries = empty.stored operations
  labels : ((empty.behindAll operations).entries.map (·.label)).Nodup
  reserved : ∀ label, label ∈ (empty.behindAll operations).reserved ↔ .reserve label ∈ operations
  unreserved : ∀ before wanted bytes after, operations = before ++ .insert wanted bytes :: after →
    .reserve ((empty.behindAll before).insert wanted bytes).1 ∉ before
  found : ∀ before wanted bytes after, operations = before ++ .insert wanted bytes :: after →
    (empty.behindAll operations).find? ((empty.behindAll before).insert wanted bytes).1 =
      some ⟨((empty.behindAll before).insert wanted bytes).1, bytes⟩

theorem mem_reserved_empty (operations : List Operation) (label : String) :
    label ∈ (empty.behindAll operations).reserved ↔ .reserve label ∈ operations := by
  rw [mem_reserved_behindAll]
  exact or_iff_right List.not_mem_nil

theorem lawful (operations : List Operation) : Lawful operations where
  entries := by rw [entries_behindAll]; rfl
  labels := by
    have hempty : (empty.entries.map (·.label)).Nodup := List.nodup_nil
    exact nodup_labels_behindAll hempty operations
  reserved := mem_reserved_empty operations
  unreserved := by
    intro before wanted bytes after _ hreserved
    have hmem := (mem_reserved_empty before _).2 hreserved
    exact freeLabel_notMem _ wanted (List.mem_append_right _ hmem)
  found := by
    intro before wanted bytes after heq
    rw [heq, behindAll_append]
    exact find?_behindAll (find?_insert (empty.behindAll before) wanted bytes) after

end DataSection

/-- Storing a string ends, whatever is in the section: at the label that it asks for, if that is
    free, and else at that label with the least number from 2 on that makes it free; one entry is
    added, and nothing else changes.  So however strings are stored and labels are kept for code,
    beginning with nothing, the entries are those that were stored, with pairwise different labels
    none of which had been kept for code by then, and what was stored under a label is found there
    ever after. -/
theorem stored_strings_lawful :
    (∀ (data : DataSection) (wanted : String) (bytes : List UInt8),
      data.Stores wanted bytes (data.insert wanted bytes).1 (data.insert wanted bytes).2) ∧
    ∀ operations, DataSection.Lawful operations := by
  constructor
  · intro data wanted bytes
    exact data.stores_insert wanted bytes
  · intro operations
    exact DataSection.lawful operations

/-- A label that was given out with a number can be asked for, and one that is kept for code is
    passed over. -/
example : (DataSection.empty.behindAll [.insert "s" [1], .insert "s" [2], .reserve "s_3",
    .insert "s_2" [3], .insert "s" [4]]).entries =
      [⟨"s", [1]⟩, ⟨"s_2", [2]⟩, ⟨"s_2_2", [3]⟩, ⟨"s_4", [4]⟩] := by decide +kernel

/-! ### The pass -/

/-- A statement stores one string, or none. -/
theorem Standing.Elaborates.exists_operations {S S' : Standing} {s : Tree.Simple}
    {command : Command} (h : S.Elaborates s command S') :
    ∃ operations, S'.data = S.data.behindAll operations := by
  cases h with
  | @text _ x content =>
    exact ⟨[.insert (Label.data S.owner S.method x) (stringBytes content)], rfl⟩
  | @string _ x _ label =>
    exact ⟨[.insert (Label.data S.owner S.method x) (S.bytesAt label)], rfl⟩
  | @printLiteral content =>
    exact ⟨[.insert (Label.data S.owner S.method S.draw.literalName) (stringBytes content)], rfl⟩
  | number | create | copy | assignNumber | assignObject | call | print | printVariable =>
    exact ⟨[], rfl⟩

theorem Stage.Effect.exists_dataOperations {stage : Stage} {S S' : Standing} {move : Move}
    (h : stage.Effect S move S') : ∃ operations, S'.data = S.data.behindAll operations := by
  cases h with
  | @method _ owner name => exact ⟨[.reserve (Label.method owner name)], rfl⟩
  | simple hsimple => exact hsimple.exists_operations
  | _ => exact ⟨[], rfl⟩

/-- At every moment of the pass the data section is one that operations on a new one lead to, the
    fixed labels being kept for code before all else. -/
theorem Reached.exists_dataOperations {tokens : List Token} {P : Progress}
    (h : Reached tokens P) :
    ∃ operations, P.state.data = DataSection.empty.behindAll operations := by
  induction h with
  | refl => exact ⟨Label.fixed.reverse.map .reserve, rfl⟩
  | tail _ hstep ih =>
    obtain ⟨operations, hdata⟩ := ih
    cases hstep with
    | @intro move τ htakes =>
      obtain ⟨stage, -, heffect⟩ := htakes.exists_effect
      obtain ⟨more, hmore⟩ := heffect.exists_dataOperations
      refine ⟨operations ++ more, ?_⟩
      rw [DataSection.behindAll_append, ← hdata]
      exact hmore

end ClassLang
