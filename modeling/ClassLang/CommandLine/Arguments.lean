/-
  ClassLang/CommandLine/Arguments.lean
  ====================================
  **The meaning of an argument list.**

  Arguments are read from left to right, and the first thing that settles the
  matter wins: a request for help, or an argument that does not fit.  Options may
  stand before and behind the file; after `--` everything is a file.  A short
  option may share its dash with others, and the output option takes the rest of
  its word, or else the next argument, as its value.

  Reading never looks at a file: it tells what is to be done, or that nothing is.  A run
  takes any reader of arguments (`Parser`); `Invocation.ofArguments` is the one that the
  program is started with.
-/

namespace ClassLang.CommandLine

/-! ### What is asked for -/

/-- What to do with a source file. -/
inductive Task where
  | compile (output : Option String)
  | check
  | tokenize
deriving DecidableEq, Repr

/-- A task, its file, and whether to report on the way. -/
structure Invocation where
  task : Task
  file : String
  verbose : Bool
deriving DecidableEq, Repr

/-- Why nothing is done: only information was asked for, or the arguments make no sense. -/
inductive Refusal where
  | information
  | misuse
deriving DecidableEq, Repr

/-- A reader of argument lists. -/
abbrev Parser := List String → Except Refusal Invocation

/-! ### The shape of one argument -/

/-- The commands that work on a file. -/
inductive Verb where
  | compile
  | check
  | tokenize
deriving DecidableEq, Repr

def Verb.ofText? : String → Option Verb
  | "compile" => some .compile
  | "check" => some .check
  | "tokenize" => some .tokenize
  | _ => none

/-- An argument by its dashes. -/
inductive Shape where
  | plain                                              -- no dash, or nothing but one
  | short (letters : List Char)
  | long (name : String) (value : Option String)
  | escape                                             -- ends the options
deriving DecidableEq, Repr

/-- Split a long option at its first equals sign. -/
def Shape.ofLong (text : List Char) : Shape :=
  let name := text.takeWhile (· != '=')
  match text.dropWhile (· != '=') with
  | [] => .long (String.ofList name) none
  | _ :: value => .long (String.ofList name) (some (String.ofList value))

def Shape.ofArgument (argument : String) : Shape :=
  match argument.toList with
  | ['-', '-'] => .escape
  | '-' :: '-' :: text => .ofLong text
  | '-' :: letter :: letters => .short (letter :: letters)
  | _ => .plain

/-! ### Options -/

/-- What the arguments of a command have said so far. -/
structure Options where
  verbose : Bool
  file : Option String
  output : Option String
deriving DecidableEq, Repr

namespace Options

def none : Options := ⟨false, .none, .none⟩

/-- Ask for reports, at most once. -/
def setVerbose (options : Options) : Except Refusal Options :=
  if options.verbose then .error .misuse else .ok { options with verbose := true }

/-- Name the file, at most once and not by an empty name. -/
def setFile (options : Options) (file : String) : Except Refusal Options :=
  match options.file with
  | some _ => .error .misuse
  | .none => if file.isEmpty then .error .misuse else .ok { options with file }

/-- Name the output, at most once and not by an empty name. -/
def setOutput (options : Options) (output : String) : Except Refusal Options :=
  match options.output with
  | some _ => .error .misuse
  | .none => if output.isEmpty then .error .misuse else .ok { options with output }

end Options

/-- Read what follows the letter of the output option: the value, with or without an equals sign
    before it, or nothing.  Tells whether the value is still to come, as the next argument. -/
def readValue (options : Options) : List Char → Except Refusal (Options × Bool)
  | [] => .ok (options, true)
  | '=' :: value => do return (← options.setOutput (String.ofList value), false)
  | value => do return (← options.setOutput (String.ofList value), false)

/-- Read the letters behind one dash.  The letter of the output option ends them. -/
def readLetters (verb : Verb) (options : Options) : List Char → Except Refusal (Options × Bool)
  | [] => .ok (options, false)
  | 'v' :: letters => do readLetters verb (← options.setVerbose) letters
  | 'h' :: _ => .error .information
  | 'o' :: letters => if verb = .compile then readValue options letters else .error .misuse
  | _ => .error .misuse

def readLong (verb : Verb) (options : Options) (name : String) (value : Option String) :
    Except Refusal (Options × Bool) :=
  match name, value with
  | "verbose", none => do return (← options.setVerbose, false)
  | "help", none => .error .information
  | "output", none => if verb = .compile then .ok (options, true) else .error .misuse
  | "output", some value => do
    if verb = .compile then return (← options.setOutput value, false) else .error .misuse
  | _, _ => .error .misuse

def readFiles (options : Options) : List String → Except Refusal Options
  | [] => .ok options
  | file :: rest => do readFiles (← options.setFile file) rest

/-- Read the arguments of a command, where `awaiting` tells whether the next one has to be the
    value of the output option. -/
def readOptions (verb : Verb) (options : Options) (awaiting : Bool) :
    List String → Except Refusal Options
  | [] => if awaiting then .error .misuse else .ok options
  | argument :: rest =>
    if awaiting then
      match Shape.ofArgument argument with
      | .plain => do readOptions verb (← options.setOutput argument) false rest
      | _ => .error .misuse
    else
      match Shape.ofArgument argument with
      | .plain => do readOptions verb (← options.setFile argument) false rest
      | .escape => readFiles options rest
      | .short letters => do
        let (options, awaiting) ← readLetters verb options letters
        readOptions verb options awaiting rest
      | .long name value => do
        let (options, awaiting) ← readLong verb options name value
        readOptions verb options awaiting rest

/-! ### The whole list -/

def Verb.task (verb : Verb) (options : Options) : Task :=
  match verb with
  | .compile => .compile options.output
  | .check => .check
  | .tokenize => .tokenize

/-- Read what follows the name of a command. -/
def readCommand (verb : Verb) (verbose : Bool) (arguments : List String) :
    Except Refusal Invocation := do
  let options ← readOptions verb .none false arguments
  match options.file with
  | some file => .ok ⟨verb.task options, file, verbose || options.verbose⟩
  | none => .error .misuse

/-- Read what help is asked about: everything, or one command. -/
def readTopic : List String → Refusal
  | [] => .information
  | [topic] => if (Verb.ofText? topic).isSome || topic == "help" then .information else .misuse
  | _ => .misuse

/-- Read the letters of a short option before any command. -/
def readLeadingLetters (verbose : Bool) : List Char → Except Refusal Bool
  | [] => .ok verbose
  | 'v' :: letters => if verbose then .error .misuse else readLeadingLetters true letters
  | 'h' :: _ => .error .information
  | 'V' :: _ => .error .information
  | _ => .error .misuse

/-- Read the arguments, where `verbose` tells whether reports were already asked for. -/
def readFrom (verbose : Bool) : List String → Except Refusal Invocation
  | [] => .error .misuse
  | argument :: rest =>
    match Verb.ofText? argument with
    | some verb => readCommand verb verbose rest
    | none =>
      if argument = "help" then
        .error (readTopic rest)
      else
        match Shape.ofArgument argument with
        | .short letters => do readFrom (← readLeadingLetters verbose letters) rest
        | .long "verbose" none => if verbose then .error .misuse else readFrom true rest
        | .long "help" none => .error .information
        | .long "version" none => .error .information
        | _ => .error .misuse

/-- What a list of arguments asks for. -/
def Invocation.ofArguments (arguments : List String) : Except Refusal Invocation :=
  readFrom false arguments

end ClassLang.CommandLine
