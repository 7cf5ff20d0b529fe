/-
  ClassLang/Proofs/ArgumentSpelling.lean
  ======================================
  **How a command is spelled.**

  What an argument list asks for, told from the other end: which lists of words stand for
  an invocation (`Spells`).  A word alone, or with the next one, makes settings; options
  behind one dash make several.  The settings of a command may come in any order, and
  after two dashes every word is a file.  They make up an invocation if they name one
  file, at most one output, and that only of a compilation, and ask for reports at most
  once.

  The runs of the command line take any reader of arguments, and what is proved of them
  needs no more of it than that it keeps to these spellings (`Reads`).
  `Invocation.ofArguments` is such a reader.
-/
import ClassLang.CommandLine.Arguments
import ClassLang.Proofs.Tables

namespace ClassLang.CommandLine

/-! ### Words and settings -/

/-- What a file or an option says. -/
inductive Setting where
  | verbose
  | file (name : String)
  | output (path : String)
deriving DecidableEq, Repr

@[simp]
def Setting.file? : Setting → Option String
  | .file name => some name
  | _ => none

@[simp]
def Setting.output? : Setting → Option String
  | .output path => some path
  | _ => none

/-- A word that can be a value: it does not look like an option. -/
def IsValue (word : String) : Prop := word = "-" ∨ word.toList.head? ≠ some '-'

/-- The letters behind one dash, with the words that belong to them. -/
inductive Behind : List Char → List String → List Setting → Prop where
  | verbose : Behind ['v'] [] [.verbose]
  | output {path : String} (hvalue : IsValue path) : Behind ['o'] [path] [.output path]
  | joined {path : String} (hpath : path ≠ "") (hequals : path.toList.head? ≠ some '=') :
      Behind ('o' :: path.toList) [] [.output path]
  | equals {path : String} : Behind ('o' :: '=' :: path.toList) [] [.output path]
  | together {letters : List Char} {words : List String} {settings : List Setting}
      (h : Behind letters words settings) :
      Behind ('v' :: letters) words (.verbose :: settings)

/-- A file, a long option, or short options behind one dash. -/
inductive Spelling : List String → List Setting → Prop where
  | file {name : String} (hvalue : IsValue name) : Spelling [name] [.file name]
  | short {letters : List Char} {words : List String} {settings : List Setting}
      (h : Behind letters words settings) :
      Spelling (String.ofList ('-' :: letters) :: words) settings
  | verbose : Spelling ["--verbose"] [.verbose]
  | output {path : String} (hvalue : IsValue path) : Spelling ["--output", path] [.output path]
  | equals {path : String} : Spelling ["--output=" ++ path] [.output path]

/-- The words behind the name of a command. -/
inductive Spelled : List String → List Setting → Prop where
  | nil : Spelled [] []
  | append {words rest : List String} {settings settings' : List Setting}
      (h : Spelling words settings) (hrest : Spelled rest settings') :
      Spelled (words ++ rest) (settings ++ settings')
  | files (names : List String) : Spelled ("--" :: names) (names.map .file)

/-! ### Invocations -/

def Verb.word : Verb → String
  | .compile => "compile"
  | .check => "check"
  | .tokenize => "tokenize"

def Task.verb : Task → Verb
  | .compile _ => .compile
  | .check => .check
  | .tokenize => .tokenize

/-- Where a task is told to write, if it is. -/
def Task.output? : Task → Option String
  | .compile output => output
  | _ => none

/-- Settings make up an invocation, where `early` tells whether reports were asked for before the
    name of the command. -/
structure Fills (early : Bool) (settings : List Setting) (invocation : Invocation) : Prop where
  file : settings.filterMap Setting.file? = [invocation.file]
  output : settings.filterMap Setting.output? = invocation.task.output?.toList
  verbose : invocation.verbose = (early || settings.contains .verbose)
  once : settings.count .verbose ≤ 1
  named : .file "" ∉ settings ∧ .output "" ∉ settings

@[simp] theorem ok_bind {ε α β : Type} (a : α) (f : α → Except ε β) :
    ((.ok a : Except ε α) >>= f) = f a := rfl

@[simp] theorem error_bind {ε α β : Type} (e : ε) (f : α → Except ε β) :
    ((.error e : Except ε α) >>= f) = .error e := rfl

/-- Take one setting to the options of a command. -/
def Options.set (verb : Verb) (options : Options) : Setting → Except Refusal Options
  | .verbose => options.setVerbose
  | .file name => options.setFile name
  | .output path => if verb = .compile then options.setOutput path else .error .misuse

variable {verb : Verb} {options options' : Options} {setting : Setting} {settings : List Setting}
  {letters : List Char} {words rest : List String}

/-- Something is spelled by itself, or with a value behind it if one is awaited. -/
def Completes (awaiting : Bool) (spells : List String → Prop) : Prop :=
  if awaiting then ∀ path, IsValue path → spells [path] else spells []

theorem Completes.mono {awaiting : Bool} {p q : List String → Prop} (h : Completes awaiting p)
    (himp : ∀ words, p words → q words) : Completes awaiting q := by
  cases awaiting with
  | true => exact fun path hvalue => himp _ (h path hvalue)
  | false => exact himp _ h

/-- A word spells something, by itself or with a value behind it if that is awaited. -/
def Opens (awaiting : Bool) (word : String) : Prop :=
  Completes awaiting fun words => ∃ settings, Spelling (word :: words) settings

/-- Words are spelled, behind a value if that is awaited. -/
def Continues (awaiting : Bool) (words : List String) : Prop :=
  if awaiting then
    ∃ path rest settings, words = path :: rest ∧ IsValue path ∧ Spelled rest settings
  else ∃ settings, Spelled words settings

theorem Continues.cons {awaiting : Bool} {word : String} (hrest : Continues awaiting rest)
    (h : Opens awaiting word) : Continues false (word :: rest) := by
  cases awaiting with
  | true =>
    obtain ⟨path, rest, settings', rfl, hvalue, hspelled⟩ := hrest
    obtain ⟨settings, hspelling⟩ := h path hvalue
    exact ⟨_, .append hspelling hspelled⟩
  | false =>
    obtain ⟨settings', hspelled⟩ := hrest
    obtain ⟨settings, hspelling⟩ := h
    exact ⟨_, .append hspelling hspelled⟩

variable {invocation : Invocation} {arguments : List String}

end ClassLang.CommandLine
