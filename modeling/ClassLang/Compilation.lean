/-
  ClassLang/Compilation.lean
  ==========================
  **From source text to assembly text.**

  A compilation is what one successful pass leaves: the routines, the strings and
  the classes.  Laying it out gives the assembly text.  A pass that is stopped
  leaves its fault, reported where the pass came to.
-/
import ClassLang.Assembly.Layout
import ClassLang.Pass.Definitions
import ClassLang.Token.Lexer

namespace ClassLang

/-- What a program is compiled to. -/
structure Compilation where
  entry : Routine
  methods : List Routine           -- in the order of their definition
  data : DataSection
  table : ClassTable
deriving Repr

namespace Compilation

/-- All routines, the entry point first. -/
def routines (compilation : Compilation) : List Routine :=
  compilation.entry :: compilation.methods

/-- All listings, the entry point first. -/
def listings (compilation : Compilation) : List (Listing Instruction) :=
  compilation.routines.map Routine.listing

/-- The listing of a method, or of the entry point if no class is given. -/
def listing? (compilation : Compilation) (owner : Option String) (method : String) :
    Option (Listing Instruction) :=
  compilation.listings.find? fun listing => listing.owner == owner && listing.method == method

def layout (compilation : Compilation) : Layout where
  data := compilation.data.entries
  entry := compilation.entry.listing
  methods := compilation.methods.map Routine.listing

/-- The event that closes the log when the assembly text is laid out. -/
def laidOut (compilation : Compilation) : Event :=
  .emitted compilation.methods.length compilation.data.entries.length

end Compilation

/-! ### The pass as a function -/

def passOver (tokens : List Token) : Outcome State (Routine × List Routine) :=
  Pass.program.run (.initial tokens)

/-- The compilation that a finished pass stands for, or the fault and where it is reported. -/
def Outcome.compilation : Outcome State (Routine × List Routine) → Except Located Compilation
  | .done (entry, methods) σ => .ok ⟨entry, methods, σ.data, σ.table⟩
  | .stopped fault σ => .error ⟨fault, σ.cursor.position⟩

def compileTokens (tokens : List Token) : Except Located Compilation :=
  (passOver tokens).compilation

def compile (source : String) : Except Located Compilation :=
  tokenize source >>= compileTokens

def assembleTokens (tokens : List Token) : Except Located String :=
  (compileTokens tokens).map (·.layout.text)

def assemble (source : String) : Except Located String :=
  (compile source).map (·.layout.text)

/-! ### The log -/

/-- What happened on the way to a compilation, and how it ended. -/
structure Trace where
  log : List Event
  result : Except Located Compilation

namespace Trace

def ofTokens (tokens : List Token) : Trace :=
  let outcome := passOver tokens
  ⟨outcome.state.log.toList, outcome.compilation⟩

/-- The trace of compiling a source text.  A text that is not made of tokens leaves no log. -/
def ofSource (source : String) : Trace :=
  match tokenize source with
  | .error located => ⟨[], .error located⟩
  | .ok tokens =>
    let trace := ofTokens tokens
    { trace with log := .tokens tokens.length :: trace.log }

/-- The trace up to the layout of the assembly text. -/
def laidOut (trace : Trace) : Trace :=
  match trace.result with
  | .ok compilation => { trace with log := trace.log ++ [compilation.laidOut] }
  | .error _ => trace

end Trace

end ClassLang
