/-
  ClassLang/CommandLine/Session.lean
  ==================================
  **One run of the command line.**

  A run reads one file, does what it was asked to, and writes at most one file, as
  its last act before it reports success.  The run is split at the places where it
  touches files: the plan is a function of what reading gave, and the reply a
  function of what writing gave.  Over a store of files the whole run is then a
  function, `Session.run`, and over real files the same plan is carried out by the
  program's entry point.

  Two things are given to a run from outside.  What the arguments ask for is the say of
  a reader of arguments, any one of them.  And reading and writing may fail for reasons
  that a store does not know, such as missing rights or a full disk (`Surroundings`).
  What is printed is taken to reach its reader.
-/
import ClassLang.CommandLine.Arguments
import ClassLang.CommandLine.Files
import ClassLang.Compilation

namespace ClassLang.CommandLine

/-! ### Replies -/

/-- What a run says: an exit status, and texts for the two output streams. -/
structure Reply where
  status : Nat
  output : String
  errors : String
deriving DecidableEq, Repr

def unlines (lines : List String) : String :=
  String.join (lines.map (· ++ "\n"))

def usage : String :=
  unlines ["usage: [-v] compile FILE [-o OUTPUT]", "       [-v] check FILE",
    "       [-v] tokenize FILE"]

namespace Reply

/-- The reply where nothing is done. -/
def ofRefusal : Refusal → Reply
  | .information => ⟨0, usage, ""⟩
  | .misuse => ⟨2, "", usage⟩

def success (log output : List String) : Reply := ⟨0, unlines output, unlines log⟩

def failure (log : List String) (complaint : String) : Reply :=
  ⟨1, "", unlines (log ++ [complaint])⟩

end Reply

/-! ### Plans -/

/-- What is left to do once the input has been read: reply, or write a file and then reply. -/
inductive Plan where
  | reply (r : Reply)
  | write (path text : String) (log : List String)
deriving DecidableEq, Repr

def Reply.unreadable (file : String) (fault : FileFault) : Reply :=
  .failure [] s!"Error reading file '{file}': {fault.message}"

def Reply.faulty (file : String) (log : List String) (located : Located) : Reply :=
  .failure log s!"{file}: {located.diagnostic.message}"

/-- The reply after the output has been written, or not. -/
def Reply.written (path : String) (log : List String) : Except FileFault Unit → Reply
  | .ok () => .success log [s!"Successfully translated! Location: {path}"]
  | .error fault => .failure log s!"Error writing '{path}': {fault.message}"

namespace Invocation

/-- The lines that report on the way, if they were asked for. -/
def logLines (invocation : Invocation) (log : List Event) : List String :=
  if invocation.verbose then
    (log.filter fun event => event.level = .debug).map fun event =>
      s!"[{event.level.name}] {event.message}"
  else
    []

def tokenLine (token : Token) : String :=
  s!"{token.position.line}:{token.position.column} {token.lexeme.kindName} {token.lexeme.shown}"

def planFor (invocation : Invocation) (source : String) : Plan :=
  let file := invocation.file
  match invocation.task with
  | .compile output =>
    let trace := (Trace.ofSource source).laidOut
    let log := invocation.logLines trace.log
    match trace.result with
    | .ok compilation =>
        .write (output.getD (besides file "out.asm")) compilation.layout.text log
    | .error located => .reply (.faulty file log located)
  | .check =>
    let trace := Trace.ofSource source
    let log := invocation.logLines trace.log
    match trace.result with
    | .ok compilation =>
      let methods := compilation.methods.length
      let strings := compilation.data.entries.length
      .reply (.success log [s!"{file}: ok ({methods} methods, {strings} strings)"])
    | .error located => .reply (.faulty file log located)
  | .tokenize =>
    match ClassLang.tokenize source with
    | .ok tokens => .reply (.success [] (tokens.map tokenLine))
    | .error located => .reply (.faulty file [] located)

/-- The text that bytes stand for. -/
def decode (bytes : List UInt8) : Except FileFault String :=
  match String.fromUTF8? ⟨bytes.toArray⟩ with
  | some text => .ok text
  | none => .error .notText

def plan (invocation : Invocation) (input : Except FileFault (List UInt8)) : Plan :=
  match input >>= decode with
  | .ok source => invocation.planFor source
  | .error fault => .reply (.unreadable invocation.file fault)

end Invocation

/-! ### Runs over a store of files -/

/-- What can keep a file from being read or written, beside what the store knows.  Nothing is
    written then. -/
structure Surroundings where
  reading : String → Option FileFault
  writing : String → List UInt8 → Option FileFault

namespace Surroundings

/-- Nothing gets in the way. -/
def calm : Surroundings := ⟨fun _ => none, fun _ _ => none⟩

def read (surroundings : Surroundings) (store : FileStore) (path : String) :
    Except FileFault (List UInt8) :=
  match surroundings.reading path with
  | some fault => .error fault
  | none => store.read path

def write (surroundings : Surroundings) (store : FileStore) (path : String)
    (bytes : List UInt8) : Except FileFault FileStore :=
  match surroundings.writing path bytes with
  | some fault => .error fault
  | none => store.write path bytes

end Surroundings

/-- What a run says, and the files it leaves. -/
structure Session where
  reply : Reply
  store : FileStore
deriving DecidableEq, Repr

def Plan.carryOut (surroundings : Surroundings) (store : FileStore) : Plan → Session
  | .reply r => ⟨r, store⟩
  | .write path text log =>
    match surroundings.write store path (stringBytes text) with
    | .ok changed => ⟨.written path log (.ok ()), changed⟩
    | .error fault => ⟨.written path log (.error fault), store⟩

/-- Run the command line with the given arguments over a store of files. -/
def Session.run (parse : Parser) (surroundings : Surroundings) (store : FileStore)
    (arguments : List String) : Session :=
  match parse arguments with
  | .error refusal => ⟨.ofRefusal refusal, store⟩
  | .ok invocation =>
    (invocation.plan (surroundings.read store invocation.file)).carryOut surroundings store

end ClassLang.CommandLine
