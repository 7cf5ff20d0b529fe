/-
  ClassLang/CommandLine/Files.lean
  ================================
  **Files as a value.**

  The command line is a function on a store of files: directories and files, by the
  places where they are.  A path is followed segment by segment, and whatever a
  segment is followed from has to be a directory.  There are no links: what a path
  leads to is told by its segments alone.  Of the directories above the working
  directory nothing is in sight but that they exist.  Reading and writing fail for
  the reasons that lie in the store itself; others come from outside.
-/
import ClassLang.CommandLine.Path

namespace ClassLang.CommandLine

/-! ### Faults -/

/-- Why a file cannot be read or written. -/
inductive FileFault where
  | notFound
  | isDirectory
  | notDirectory
  | nameTooLong
  | notText
  | other (message : String)
deriving DecidableEq, Repr

def FileFault.message : FileFault → String
  | .notFound => "No such file or directory (os error 2)"
  | .isDirectory => "Is a directory (os error 21)"
  | .notDirectory => "Not a directory (os error 20)"
  | .nameTooLong => "File name too long (os error 36)"
  | .notText => "stream did not contain valid UTF-8"
  | .other text => text

/-! ### The store -/

/-- A file with its bytes, or a directory. -/
inductive Node where
  | file (bytes : List UInt8)
  | directory
deriving DecidableEq, Repr

/-- Files and directories by their places. -/
structure FileStore where
  nodes : List (Place × Node)
deriving DecidableEq, Repr

namespace FileStore

/-- What is at a place.  A base is always there, and a directory. -/
def find? (store : FileStore) (place : Place) : Option Node :=
  if place.names.isEmpty then some .directory else store.nodes.lookup place

/-- Put a node at a place, instead of what is there. -/
def insert (store : FileStore) (place : Place) (node : Node) : FileStore :=
  ⟨(place, node) :: store.nodes.filter (·.1 != place)⟩

/-! ### Following a path -/

def longestName : Nat := 255

def longestPath : Nat := 4095

/-- Look for what is at a place, which fails if its last name is one that nothing can have. -/
def lookUp (store : FileStore) (place : Place) : Except FileFault (Option Node) :=
  if place.names.getLast?.any (longestName < ·.utf8ByteSize) then .error .nameTooLong
  else .ok (store.find? place)

/-- Follow segments from a place to where the last of them leads, be anything there or not. -/
def follow (store : FileStore) (place : Place) : List String → Except FileFault Place
  | [] => .ok place
  | segment :: rest => do
    match ← store.lookUp place with
    | some .directory => store.follow (place.step segment) rest
    | some (.file _) => .error .notDirectory
    | none => .error .notFound

def resolve (store : FileStore) (path : String) : Except FileFault Place :=
  if path.isEmpty then .error .notFound
  else if longestPath < path.utf8ByteSize then .error .nameTooLong
  else store.follow ⟨.ofPath path, []⟩ (pathSegments path)

/-! ### Reading and writing -/

/-- The bytes of the file at a path.  A slash at the end asks for a directory. -/
def read (store : FileStore) (path : String) : Except FileFault (List UInt8) := do
  match ← store.lookUp (← store.resolve path) with
  | some (.file bytes) => if path.endsWith '/' then .error .notDirectory else .ok bytes
  | some .directory => .error .isDirectory
  | none => .error .notFound

/-- Make the file at a path hold the given bytes.  A slash at the end asks for a directory, and
    none can be written to. -/
def write (store : FileStore) (path : String) (bytes : List UInt8) :
    Except FileFault FileStore := do
  let place ← store.resolve path
  if path.endsWith '/' then .error .isDirectory
  else
    match ← store.lookUp place with
    | some .directory => .error .isDirectory
    | _ => .ok (store.insert place (.file bytes))

end FileStore

end ClassLang.CommandLine
