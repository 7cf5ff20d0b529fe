/-
  ClassLang/CommandLine/Path.lean
  ===============================
  **Paths.**

  A path is a text whose segments are divided by slashes.  Two things are done with
  one: a name is put beside the file it ends in, which works on the text alone, and
  it is followed, segment by segment, to the place it leads to.  A place is named
  from the nearest directory that is sure to exist, so that a path may leave the
  working directory upwards although nobody knows what its parents are called.
-/

namespace ClassLang.CommandLine

/-! ### Segments -/

/-- The segments of a path as they are written, which is one more than it has slashes. -/
def segments (path : String) : List String :=
  (path.toList.splitOn '/').map String.ofList

/-- Segments that name nothing: empty ones, and the single dot. -/
def isIdle (segment : String) : Bool :=
  segment.isEmpty || segment == "."

/-- Leave out the idle segments at the end. -/
def trim (segments : List String) : List String :=
  (segments.reverse.dropWhile isIdle).reverse

/-! ### Names beside a file -/

/-- The path without its last segment, as it was written.  Idle segments at the end do not count,
    but a leading dot stays. -/
def parentPath (path : String) : String :=
  match segments path with
  | [] => ""
  | first :: rest =>
    match trim rest with
    | [] => if rest.isEmpty || !first.isEmpty then "" else "/"
    | segments =>
      match trim segments.dropLast with
      | [] => if first.isEmpty then "/" else first
      | inner => "/".intercalate (first :: inner)

def besides (path name : String) : String :=
  let parent := parentPath path
  if parent.isEmpty then name
  else if parent.endsWith '/' then parent ++ name
  else parent ++ "/" ++ name

/-! ### Places -/

/-- A directory that is sure to exist: the one so many levels above the working directory, which
    is itself at level zero, or the root of all. -/
inductive Base where
  | above (levels : Nat)
  | root
deriving DecidableEq, Repr

/-- The directory that a base lies in.  The root lies in itself. -/
def Base.parent : Base → Base
  | .above levels => .above (levels + 1)
  | .root => .root

/-- Where a path starts from. -/
def Base.ofPath (path : String) : Base :=
  if path.startsWith '/' then .root else .above 0

/-- What a path can lead to: the names from a base downwards. -/
structure Place where
  base : Base
  names : List String
deriving DecidableEq, Repr

namespace Place

/-- The place of the given names below the working directory. -/
def below (names : List String) : Place := ⟨.above 0, names⟩

def parent (place : Place) : Place :=
  if place.names.isEmpty then ⟨place.base.parent, []⟩ else ⟨place.base, place.names.dropLast⟩

/-- Where one segment leads from a directory: two dots lead to its parent, a name into it. -/
def step (place : Place) (segment : String) : Place :=
  if isIdle segment then place
  else if segment = ".." then place.parent
  else ⟨place.base, place.names ++ [segment]⟩

end Place

/-- The segments to follow, with the dots among them: each of them asks for a directory to be
    followed from. -/
def pathSegments (path : String) : List String :=
  (segments path).filter fun segment => !segment.isEmpty

end ClassLang.CommandLine
