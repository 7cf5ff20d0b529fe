/-
  ClassLang/Diagnostic.lean
  =========================
  **Reports of failures.**

  A diagnostic is a heading, a wording and, once it is known, the place in the
  source.  A place is attached once: locating a diagnostic that has one keeps it,
  so whoever meets the failure first decides where it is reported.
-/
import ClassLang.Fault

namespace ClassLang

/-- A failure as it is reported. -/
structure Diagnostic where
  category : Category
  text : String
  position : Option Position
deriving DecidableEq, Repr

namespace Diagnostic

def ofFault (fault : Fault) : Diagnostic :=
  ⟨fault.category, fault.text, none⟩

/-- Attach a position, unless there is one already. -/
def locate (d : Diagnostic) (p : Position) : Diagnostic :=
  { d with position := some (d.position.getD p) }

def root (d : Diagnostic) : Diagnostic :=
  { d with position := none }

/-- Heading and wording.  The end of the input has a heading only. -/
def summary (d : Diagnostic) : String :=
  match d.category with
  | .endOfInput => d.category.heading
  | category => s!"{category.heading}: {d.text}"

/-- The whole report on one line, with the place where it is known. -/
def message (d : Diagnostic) : String :=
  match d.position with
  | none => d.summary
  | some p => s!"{d.summary} at line {p.line}, column {p.column}"

end Diagnostic

/-- A fault together with the place it is reported at. -/
structure Located where
  fault : Fault
  position : Position
deriving DecidableEq, Repr

def Located.diagnostic (located : Located) : Diagnostic :=
  (Diagnostic.ofFault located.fault).locate located.position

end ClassLang
