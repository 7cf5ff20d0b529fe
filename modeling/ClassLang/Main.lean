/-
  ClassLang/Main.lean
  ===================
  **The program.**

  Carries out plans of the command line on real files.  Everything that is decided
  is decided by `Invocation.plan`; here files are read and written and texts are
  printed.
-/
import ClassLang.CommandLine.Session

namespace ClassLang.CommandLine

/-- The reason that an error code stands for, where it is one that a run words itself.  Some
    actions report the code with its sign changed. -/
def FileFault.ofCode? (code : UInt32) : Option FileFault :=
  match min code (0 - code) with
  | 2 => some .notFound
  | 20 => some .notDirectory
  | 21 => some .isDirectory
  | 36 => some .nameTooLong
  | _ => none

/-- The reason behind an error of the file system. -/
def FileFault.ofError (error : IO.Error) : FileFault :=
  let code :=
    match error with
    | .noFileOrDirectory _ code _ => code
    | .inappropriateType _ code _ => code
    | .invalidArgument _ code _ => code
    | _ => 0
  (ofCode? code).getD (.other (toString error))

/-- Run an action on files, and keep the reason if it fails. -/
def attempt {α : Type} (action : IO α) : IO (Except FileFault α) := do
  match ← action.toBaseIO with
  | .ok a => return .ok a
  | .error error => return .error (.ofError error)

def readBytes (path : String) : IO (Except FileFault (List UInt8)) := do
  return (← attempt (IO.FS.readBinFile path)).map fun bytes => bytes.data.toList

def Plan.execute : Plan → IO Reply
  | .reply r => return r
  | .write path text log => return .written path log (← attempt (IO.FS.writeFile path text))

/-- Run the command line on real files. -/
def execute (arguments : List String) : IO Reply := do
  match Invocation.ofArguments arguments with
  | .error refusal => return .ofRefusal refusal
  | .ok invocation => (invocation.plan (← readBytes invocation.file)).execute

end ClassLang.CommandLine

def main (arguments : List String) : IO UInt32 := do
  let reply ← ClassLang.CommandLine.execute arguments
  IO.eprint reply.errors
  IO.print reply.output
  return reply.status.toUInt32
