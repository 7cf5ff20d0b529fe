/-
  ClassLang/DataSection.lean
  ==========================
  **The strings of a program.**

  Every string has an entry of its own, under a label that no other entry and no
  code has.  A string asks for a label; if that is taken it gets the first free
  one among the label with `_2`, `_3` and so on behind it.  One more candidate than
  there are taken labels always suffices, so the search is over a finite range.

  Entries are only ever added at the end.
-/

namespace ClassLang

/-- A label and the bytes stored there, without the end marks that the layout adds. -/
structure DataEntry where
  label : String
  bytes : List UInt8
deriving DecidableEq, Repr

/-- The entries in the order of their making, and the labels that code has. -/
structure DataSection where
  entries : List DataEntry
  reserved : List String
deriving DecidableEq, Repr

namespace DataSection

def empty : DataSection := ⟨[], []⟩

def find? (data : DataSection) (label : String) : Option DataEntry :=
  data.entries.find? (·.label == label)

/-- Keep a label for code. -/
def reserve (data : DataSection) (label : String) : DataSection :=
  { data with reserved := label :: data.reserved }

def isTaken (data : DataSection) (label : String) : Bool :=
  (data.find? label).isSome || data.reserved.contains label

/-- The labels that a string tries in turn: the one it wants, then with `_2`, `_3`, … behind. -/
def candidate (wanted : String) : Nat → String
  | 0 => wanted
  | n + 1 => wanted ++ "_" ++ toString (n + 2)

def takenCount (data : DataSection) : Nat :=
  data.entries.length + data.reserved.length

/-- The first candidate that is free. -/
def freeLabel (data : DataSection) (wanted : String) : String :=
  (((List.range (data.takenCount + 1)).map (candidate wanted)).find?
    fun label => !data.isTaken label).getD wanted

/-- Store bytes under the first free candidate, and tell which it is. -/
def insert (data : DataSection) (wanted : String) (bytes : List UInt8) : String × DataSection :=
  let label := data.freeLabel wanted
  (label, { data with entries := data.entries ++ [⟨label, bytes⟩] })

end DataSection

end ClassLang
