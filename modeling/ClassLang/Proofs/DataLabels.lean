/-
  ClassLang/Proofs/DataLabels.lean
  ================================
  **Which label a string gets.**

  A string gets the first label, among the one it wants and that one with `_2`, `_3`
  and so on behind it, that nothing has yet (`isFirstFree_freeLabel`).  The search of
  the data section is over a finite range, and it is the labels being pairwise
  different that makes the range long enough.
-/
import Mathlib.Data.List.Perm.Subperm
import ClassLang.DataSection

namespace ClassLang

theorem toString_injective {m n : Nat} (h : toString m = toString n) : m = n := by
  have hdigits : Nat.toDigits 10 m = Nat.toDigits 10 n := by
    rw [← Nat.toList_repr, ← Nat.toList_repr]
    exact congrArg String.toList h
  rw [← Nat.ofDigitChars_ten_toDigits (n := m), hdigits, Nat.ofDigitChars_ten_toDigits]

namespace DataSection

theorem candidate_injective {wanted : String} {m n : Nat}
    (h : candidate wanted m = candidate wanted n) : m = n := by
  have hlonger : ∀ k, wanted ≠ candidate wanted (k + 1) := by
    intro k heq
    have hlength := congrArg (fun s : String => s.toList.length) heq
    simp only [candidate, String.toList_append, List.length_append] at hlength
    have hunderscore : "_".toList.length = 1 := rfl
    omega
  cases m with
  | zero =>
    cases n with
    | zero => rfl
    | succ n => exact absurd h (hlonger n)
  | succ m =>
    cases n with
    | zero => exact absurd h.symm (hlonger m)
    | succ n =>
      have hnumber := toString_injective ((String.append_right_inj (wanted ++ "_")).1 h)
      omega

/-- The labels that entries and code have. -/
def taken (data : DataSection) : List String :=
  data.entries.map (·.label) ++ data.reserved

theorem isTaken_iff {data : DataSection} {label : String} :
    data.isTaken label = true ↔ label ∈ data.taken := by
  simp [isTaken, find?, taken, List.find?_isSome]

theorem length_taken (data : DataSection) : data.taken.length = data.takenCount := by
  simp [taken, takenCount]

/-- The label is the first one that a string tries and that is not taken. -/
def IsFirstFree (taken : List String) (wanted label : String) : Prop :=
  ∃ n, label = candidate wanted n ∧ label ∉ taken ∧ ∀ m < n, candidate wanted m ∈ taken

theorem IsFirstFree.unique {taken : List String} {wanted label label' : String}
    (h : IsFirstFree taken wanted label) (h' : IsFirstFree taken wanted label') :
    label = label' := by
  obtain ⟨n, rfl, hfree, hbefore⟩ := h
  obtain ⟨n', rfl, hfree', hbefore'⟩ := h'
  rcases Nat.lt_trichotomy n n' with hlt | heq | hlt
  · exact absurd (hbefore' n hlt) hfree
  · rw [heq]
  · exact absurd (hbefore n' hlt) hfree'

theorem IsFirstFree.congr {taken taken' : List String} {wanted label : String}
    (htaken : ∀ l, l ∈ taken ↔ l ∈ taken') (h : IsFirstFree taken wanted label) :
    IsFirstFree taken' wanted label := by
  obtain ⟨n, rfl, hfree, hbefore⟩ := h
  exact ⟨n, rfl, fun hl => hfree ((htaken _).2 hl), fun m hm => (htaken _).1 (hbefore m hm)⟩

/-- Some label in the range of the search is free: there are more of them than are taken. -/
theorem exists_free (data : DataSection) (wanted : String) :
    ∃ n < data.takenCount + 1, candidate wanted n ∉ data.taken := by
  by_contra hnone
  push Not at hnone
  have hnodup : ((List.range (data.takenCount + 1)).map (candidate wanted)).Nodup :=
    List.Pairwise.map _ (fun _ _ hne heq => hne (candidate_injective heq)) List.nodup_range
  have hsubset : (List.range (data.takenCount + 1)).map (candidate wanted) ⊆ data.taken := by
    intro label hlabel
    obtain ⟨n, hn, rfl⟩ := List.mem_map.1 hlabel
    exact hnone n (List.mem_range.1 hn)
  have hlength := (hnodup.subperm hsubset).length_le
  rw [List.length_map, List.length_range, length_taken] at hlength
  omega

/-- A string gets the first free label. -/
theorem isFirstFree_freeLabel (data : DataSection) (wanted : String) :
    IsFirstFree data.taken wanted (data.freeLabel wanted) := by
  unfold freeLabel
  cases hfind : ((List.range (data.takenCount + 1)).map (candidate wanted)).find?
      fun label => !data.isTaken label with
  | none =>
    obtain ⟨n, hn, hfree⟩ := exists_free data wanted
    have hall := List.find?_eq_none.1 hfind (candidate wanted n)
      (List.mem_map_of_mem (List.mem_range.2 hn))
    exact absurd (isTaken_iff.1 (by simpa using hall)) hfree
  | some label =>
    obtain ⟨hfree, before, behind, hsplit, hbefore⟩ := List.find?_eq_some_iff_append.1 hfind
    -- the label found is the candidate that has as many candidates before it
    have hget : ∀ m (hm : m < (before ++ label :: behind).length),
        (before ++ label :: behind)[m] = candidate wanted m := by
      intro m hm
      simp only [← hsplit, List.getElem_map, List.getElem_range]
    refine ⟨before.length, ?_, ?_, fun m hm => ?_⟩
    · have hlabel := hget before.length (by simp)
      simpa using hlabel
    · intro htaken
      simp [isTaken_iff.2 (show label ∈ data.taken from htaken)] at hfree
    · have hm' := hget m (by simp only [List.length_append]; omega)
      rw [List.getElem_append_left hm] at hm'
      have htaken := hbefore _ (List.getElem_mem hm)
      rw [hm'] at htaken
      exact isTaken_iff.1 (by simpa using htaken)

theorem freeLabel_notMem (data : DataSection) (wanted : String) :
    data.freeLabel wanted ∉ data.taken := by
  obtain ⟨n, -, hfree, -⟩ := isFirstFree_freeLabel data wanted
  exact hfree

theorem mem_taken_insert {data : DataSection} {wanted label : String} {bytes : List UInt8} :
    label ∈ (data.insert wanted bytes).2.taken ↔
      label = data.freeLabel wanted ∨ label ∈ data.taken := by
  simp only [insert, taken, List.map_append, List.map_cons, List.map_nil, List.mem_append,
    List.mem_singleton]
  constructor
  · rintro ((h | h) | h)
    · exact .inr (.inl h)
    · exact .inl h
    · exact .inr (.inr h)
  · rintro (h | h | h)
    · exact .inl (.inr h)
    · exact .inl (.inl h)
    · exact .inr h

theorem mem_taken_reserve {data : DataSection} {label label' : String} :
    label' ∈ (data.reserve label).taken ↔ label' = label ∨ label' ∈ data.taken := by
  simp only [reserve, taken, List.mem_append, List.mem_cons]
  constructor
  · rintro (h | h | h)
    · exact .inr (.inl h)
    · exact .inl h
    · exact .inr (.inr h)
  · rintro (h | h | h)
    · exact .inr (.inl h)
    · exact .inl h
    · exact .inr (.inr h)

/-- No label is given out twice. -/
theorem nodup_labels_insert {data : DataSection} (h : (data.entries.map (·.label)).Nodup)
    (wanted : String) (bytes : List UInt8) :
    ((data.insert wanted bytes).2.entries.map (·.label)).Nodup := by
  have hfree := freeLabel_notMem data wanted
  rw [taken, List.mem_append, not_or] at hfree
  simp only [insert, List.map_append, List.map_cons, List.map_nil]
  rw [List.nodup_append]
  refine ⟨h, List.pairwise_singleton _ _, fun label hlabel label' hlabel' heq => hfree.1 ?_⟩
  rw [← List.mem_singleton.1 hlabel', ← heq]
  exact hlabel

end DataSection

end ClassLang
