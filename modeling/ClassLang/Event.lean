/-
  ClassLang/Event.lean
  ====================
  **The log of a run.**

  What the compiler does is recorded as it happens, one event after the other, on
  two levels of detail.  The log of a run that is stopped ends at the fault.
-/
import ClassLang.Statement.Production

namespace ClassLang

/-- How much detail an event belongs to. -/
inductive Level where
  | debug
  | trace
deriving DecidableEq, Repr

def Level.name : Level → String
  | .debug => "DEBUG"
  | .trace => "TRACE"

/-- Something worth recording. -/
inductive Event where
  | tokens (count : Nat)
  | classBegun (name : String)
  | field (owner field : String)
  | statement (production : Production) (method : String)
  | blockEntered (depth : Nat)
  | blockLeft (depth : Nat)
  | stringStored (name label : String)
  | routineDone (label : String)
  | emitted (methods entries : Nat)
deriving DecidableEq, Repr

namespace Event

def level : Event → Level
  | .tokens _ => .debug
  | .classBegun _ => .debug
  | .field _ _ => .trace
  | .statement _ _ => .trace
  | .blockEntered _ => .trace
  | .blockLeft _ => .trace
  | .stringStored _ _ => .trace
  | .routineDone _ => .debug
  | .emitted _ _ => .debug

def message : Event → String
  | .tokens count => s!"{count} tokens"
  | .classBegun name => s!"class {name}"
  | .field owner name => s!"field {owner}.{name}"
  | .statement production method => s!"{production.name} in {method}"
  | .blockEntered depth => s!"scope push, depth {depth}"
  | .blockLeft depth => s!"scope pop, depth {depth}"
  | .stringStored name label => s!"string {name} stored as {label}"
  | .routineDone label => s!"translated {label}"
  | .emitted methods entries => s!"emitted {methods} methods and {entries} data entries"

end Event

end ClassLang
