/-
  ClassLang/Proofs/Representation.lean
  ====================================
  **How a state of the interpreter lies in memory.**

  Every object that is alive has a place on the stack.  A variable of a class is the
  object itself, a parameter or the receiver holds its address, and a variable for a
  number is a word of its own.  `Related` says that a machine holds a state in this
  way.  It speaks of one activation of a routine: the objects of the callers are there
  too, but only as objects that the routine may reach (`Activation.outer`).

  Objects lie apart, and no word of an object is a variable for a number, so a write
  to one of them leaves all else as it is.  The lemmas about `FramesHold` say so for
  the variables of a routine, and those about `Related` for the whole.
-/
import ClassLang.Proofs.CodeExecution

namespace ClassLang

open Source (Datum ObjectRef Bindings Record)

/-! ### Objects in memory -/

/-- The fields of a class in their order. -/
def Tree.Program.fields (p : Tree.Program) (c : String) : List String :=
  ((p.classes.find? (·.name == c)).map (·.fields)).getD []

/-- What stays the same while a program runs. -/
structure Setting where
  program : Tree.Program
  entries : List DataEntry
  platform : Platform
  base : Int                    -- the stack pointer at the beginning
  memory : Int → Int            -- the memory at the beginning
  output : List Output          -- what has been written by then

structure Placed where
  ref : ObjectRef
  address : Int

namespace Placed

variable (p : Tree.Program)

def size (o : Placed) : Nat := (p.fields o.ref.className).length

/-- An address is inside the words of an object. -/
def Covers (o : Placed) (a : Int) : Prop := o.address + 4 ≤ a + 4 * o.size p ∧ a ≤ o.address

/-- The words of an object lie between two addresses. -/
def Within (o : Placed) (low high : Int) : Prop := ∀ a, o.Covers p a → low ≤ a ∧ a ≤ high

/-- The words of an object are the fields of its record. -/
def Holds (o : Placed) (heap : List Record) (memory : Int → Int) : Prop :=
  ∃ record, heap[o.ref.location]? = some record ∧
    ∀ (i : Nat) f, (p.fields o.ref.className)[i]? = some f →
      memory (o.address - 4 * i) = (record f).toInt

/-- Two objects share neither a record nor an address. -/
def Apart (o o' : Placed) : Prop :=
  o.ref.location ≠ o'.ref.location ∧ ∀ a, o.Covers p a → ¬ o'.Covers p a

variable {p}

instance : Std.Symm (Apart p) :=
  ⟨fun _ _ h => ⟨h.1.symm, fun a ha ha' => h.2 a ha' ha⟩⟩

theorem covers_field {o : Placed} {i : Nat} (h : i < o.size p) : o.Covers p (o.address - 4 * i) :=
  ⟨by omega, by omega⟩

/-- An object is what its words are. -/
theorem Holds.congr {o : Placed} {heap : List Record} {memory memory' : Int → Int}
    (h : o.Holds p heap memory) (hcell : ∀ a, o.Covers p a → memory' a = memory a) :
    o.Holds p heap memory' := by
  obtain ⟨record, hrecord, hfields⟩ := h
  refine ⟨record, hrecord, fun i f hf => ?_⟩
  have hlt : i < o.size p := (List.getElem?_eq_some_iff.1 hf).1
  rw [hcell _ (covers_field hlt)]
  exact hfields i f hf

theorem Holds.location_lt {o : Placed} {heap : List Record} {memory : Int → Int}
    (h : o.Holds p heap memory) : o.ref.location < heap.length := by
  obtain ⟨record, hrecord, -⟩ := h
  exact (List.getElem?_eq_some_iff.1 hrecord).1

/-- New objects leave the old ones as they are. -/
theorem Holds.grow {o : Placed} {heap heap' : List Record} {memory : Int → Int}
    (h : o.Holds p heap memory) (hheap : heap <+: heap') : o.Holds p heap' memory := by
  have hlt := h.location_lt
  obtain ⟨record, hrecord, hfields⟩ := h
  obtain ⟨news, rfl⟩ := hheap
  refine ⟨record, ?_, hfields⟩
  rw [List.getElem?_append_left hlt]
  exact hrecord

end Placed

/-- No object has a word at the address. -/
def Private (p : Tree.Program) (live : List Placed) (a : Int) : Prop :=
  ∀ o ∈ live, ¬ o.Covers p a

/-! ### Data in words -/

/-- What a datum of a type looks like in a word: a number itself, a string or an object by its
    address. -/
inductive Represents (X : Setting) (live : List Placed) : Ty → Datum → Int → Prop where
  | number {n : Int32} : Represents X live .int (.number n) n.toInt
  | text {e : DataEntry} (h : e ∈ X.entries) :
      Represents X live .string (.text e.bytes) (X.platform.labels e.label)
  | object {ref : ObjectRef} {a : Int} (h : ⟨ref, a⟩ ∈ live) :
      Represents X live (.object ref.className) (.object ref) a

theorem Represents.mono {X : Setting} {live live' : List Placed} {type : Ty} {d : Datum} {w : Int}
    (hlive : live ⊆ live') (h : Represents X live type d w) : Represents X live' type d w := by
  cases h with
  | number => exact .number
  | text h => exact .text h
  | object h => exact .object (hlive h)

/-- A variable lies at an address. -/
inductive HoldsAt (X : Setting) (table : ClassTable) (own live : List Placed)
    (memory : Int → Int) : Symbol → Datum → Int → Prop where
  | number {x : String} {n : Int32} {a : Int} (hword : memory a = n.toInt)
      (hprivate : Private X.program live a) :
      HoldsAt X table own live memory (.onStack x .int) (.number n) a
  | text {x : String} {e : DataEntry} {a : Int} (h : e ∈ X.entries) :
      HoldsAt X table own live memory (.inData x e.label) (.text e.bytes) a
  | object {x : String} {ref : ObjectRef} {a : Int} (h : ⟨ref, a⟩ ∈ own)
      (hknown : (table.find? ref.className).isSome) :
      HoldsAt X table own live memory (.onStack x (.object ref.className)) (.object ref) a

/-- The variables of a block lie one below the other from an address on. -/
inductive FrameHolds (X : Setting) (table : ClassTable) (own live : List Placed)
    (memory : Int → Int) : Int → Frame → Bindings → Prop where
  | nil {a : Int} : FrameHolds X table own live memory a [] []
  | cons {a : Int} {s : Symbol} {d : Datum} {frame : Frame} {bindings : Bindings}
      (hhead : HoldsAt X table own live memory s d a)
      (htail : FrameHolds X table own live memory (a - table.slotBytes s.type) frame bindings) :
      FrameHolds X table own live memory a (s :: frame) ((s.name, d) :: bindings)

/-- The blocks of a routine lie one below the other, each with the objects that it owns. -/
inductive FramesHold (X : Setting) (table : ClassTable) (live : List Placed) (memory : Int → Int)
    (bp : Int) : List Frame → List Bindings → List (List Placed) → Prop where
  | nil : FramesHold X table live memory bp [] [] []
  | cons {frame : Frame} {bindings : Bindings} {own : List Placed} {frames : List Frame}
      {outer : List Bindings} {owns : List (List Placed)}
      (hframe : FrameHolds X table own live memory (bp - 4 - Scope.framesBytes table frames) frame
        bindings)
      (hown : ∀ o ∈ own,
        o.Within X.program (bp - Scope.framesBytes table (frame :: frames)) (bp - 4))
      (hframes : FramesHold X table live memory bp frames outer owns) :
      FramesHold X table live memory bp (frame :: frames) (bindings :: outer) (own :: owns)

section Frames

variable {X : Setting} {table : ClassTable} {own own' live live' : List Placed}
  {memory memory' : Int → Int} {bp a : Int} {s : Symbol} {d : Datum} {x : String}

theorem HoldsAt.mono (hown : own ⊆ own') (h : HoldsAt X table own live memory s d a) :
    HoldsAt X table own' live memory s d a := by
  cases h with
  | number hword hprivate => exact .number hword hprivate
  | text h => exact .text h
  | object h hknown => exact .object (hown h) hknown

/-- The variables of a block depend on the words of the block that belong to no object. -/
theorem FrameHolds.imp {frame : Frame} {bindings : Bindings} (hown : own ⊆ own')
    (hcell : ∀ a', a + 4 - Frame.bytes table frame ≤ a' → a' ≤ a → Private X.program live a' →
      memory' a' = memory a' ∧ Private X.program live' a')
    (h : FrameHolds X table own live memory a frame bindings) :
    FrameHolds X table own' live' memory' a frame bindings := by
  induction h with
  | nil => exact .nil
  | @cons a s d frame bindings hhead _ ih =>
    rw [Frame.bytes] at hcell
    refine .cons ?_ (ih fun a' hlow hhigh => hcell a' (by omega) (by omega))
    cases hhead with
    | @number x n _ hword hprivate =>
      have hfour : table.slotBytes (Symbol.onStack x Ty.int).type = 4 := rfl
      obtain ⟨heq, hprivate'⟩ := hcell a (by rw [hfour]; omega) (Int.le_refl a) hprivate
      exact .number (heq.trans hword) hprivate'
    | text h => exact .text h
    | object h hknown => exact .object (hown h) hknown

theorem FramesHold.imp {frames : List Frame} {outer : List Bindings} {owns : List (List Placed)}
    (hcell : ∀ a', bp - Scope.framesBytes table frames ≤ a' → a' ≤ bp - 4 →
      Private X.program live a' → memory' a' = memory a' ∧ Private X.program live' a')
    (h : FramesHold X table live memory bp frames outer owns) :
    FramesHold X table live' memory' bp frames outer owns := by
  induction h with
  | nil => exact .nil
  | @cons frame bindings own frames outer owns hframe hown _ ih =>
    rw [Scope.framesBytes] at hcell
    refine .cons (hframe.imp (List.Subset.refl _) fun a' hlow hhigh => ?_) hown
      (ih fun a' hlow hhigh => ?_)
    · exact hcell a' (by omega) (by omega)
    · exact hcell a' (by omega) (by omega)

theorem FrameHolds.snoc {frame : Frame} {bindings : Bindings}
    (h : FrameHolds X table own live memory a frame bindings)
    (hlast : HoldsAt X table own live memory s d (a - Frame.bytes table frame)) :
    FrameHolds X table own live memory a (frame ++ [s]) (bindings ++ [(s.name, d)]) := by
  induction h with
  | nil =>
    rw [Frame.bytes, Int.natCast_zero, Int.sub_zero] at hlast
    exact .cons hlast .nil
  | @cons a t e frame bindings hhead _ ih =>
    refine .cons hhead (ih ?_)
    rw [Frame.bytes] at hlast
    have heq : a - table.slotBytes t.type - Frame.bytes table frame =
        a - ((table.slotBytes t.type + Frame.bytes table frame : Nat) : Int) := by omega
    rw [heq]
    exact hlast

theorem Scope.framesBytes_snoc (table : ClassTable) (frame : Frame) (frames : List Frame)
    (s : Symbol) : Scope.framesBytes table ((frame ++ [s]) :: frames) =
      Scope.framesBytes table (frame :: frames) + table.slotBytes s.type := by
  rw [framesBytes, framesBytes, bytes_append, Frame.bytes, Frame.bytes]
  omega

/-- A variable is declared in the innermost block, together with the objects that it owns. -/
theorem FramesHold.snoc {frame : Frame} {bindings : Bindings} {news : List Placed}
    {frames : List Frame} {outer : List Bindings} {owns : List (List Placed)}
    (h : FramesHold X table live memory bp (frame :: frames) (bindings :: outer) (own :: owns))
    (hcell : ∀ a', bp - Scope.framesBytes table (frame :: frames) ≤ a' →
      Private X.program live a' → memory' a' = memory a' ∧ Private X.program live' a')
    (hnews : ∀ o ∈ news, o.Within X.program
      (bp - Scope.framesBytes table ((frame ++ [s]) :: frames)) (bp - 4))
    (hlast : HoldsAt X table (news ++ own) live' memory' s d
      (bp - Scope.framesBytes table (frame :: frames) - 4)) :
    FramesHold X table live' memory' bp ((frame ++ [s]) :: frames)
      ((bindings ++ [(s.name, d)]) :: outer) ((news ++ own) :: owns) := by
  cases h with
  | cons hframe hown hframes =>
    have hsnoc := Scope.framesBytes_snoc table frame frames s
    have hbytes : Scope.framesBytes table (frame :: frames) =
        Frame.bytes table frame + Scope.framesBytes table frames := rfl
    refine .cons (.snoc (hframe.imp (List.subset_append_right ..) fun a' hlow _ => ?_) ?_)
      (fun o ho => ?_) (hframes.imp fun a' hlow _ => ?_)
    · exact hcell a' (by omega)
    · have heq : bp - 4 - Scope.framesBytes table frames - Frame.bytes table frame =
          bp - Scope.framesBytes table (frame :: frames) - 4 := by omega
      rw [heq]
      exact hlast
    · rcases List.mem_append.1 ho with ho | ho
      · exact hnews o ho
      · intro a' ha
        have hwithin := hown o ho a' ha
        omega
    · exact hcell a' (by omega)

/-! ### Finding variables -/

/-- A block declares a name in the scope exactly if it does so in the state, and then the variable
    lies behind those before it. -/
theorem FrameHolds.find {frame : Frame} {bindings : Bindings}
    (h : FrameHolds X table own live memory a frame bindings) (x : String) :
    (frame.find? x = none ∧ frame.findIdx? (·.name == x) = none ∧ bindings.find? x = none) ∨
      ∃ s i d, frame.find? x = some s ∧ frame.findIdx? (·.name == x) = some i ∧
        bindings.find? x = some d ∧
        HoldsAt X table own live memory s d (a - Frame.bytes table (frame.take i)) := by
  induction h with
  | nil => exact .inl ⟨rfl, rfl, rfl⟩
  | @cons a s d frame bindings hhead _ ih =>
    by_cases hname : s.name = x
    · refine .inr ⟨s, 0, d, ?_, ?_, ?_, ?_⟩
      · simp [Frame.find?, hname]
      · simp [List.findIdx?_cons, hname]
      · simp [Bindings.find?, hname]
      · simpa [Frame.bytes] using hhead
    · have hne : (s.name == x) = false := beq_eq_false_iff_ne.2 hname
      rcases ih with ⟨hfind, hindex, hbinding⟩ | ⟨t, i, e, hfind, hindex, hbinding, hholds⟩
      · refine .inl ⟨?_, ?_, ?_⟩
        · simpa [Frame.find?, hne] using hfind
        · simpa [List.findIdx?_cons, hne] using hindex
        · simpa [Bindings.find?, hne] using hbinding
      · refine .inr ⟨t, i + 1, e, ?_, ?_, ?_, ?_⟩
        · simpa [Frame.find?, hne] using hfind
        · simp [List.findIdx?_cons, hne, hindex]
        · simpa [Bindings.find?, hne] using hbinding
        · rw [List.take_succ_cons, Frame.bytes]
          have heq : a - ((table.slotBytes s.type + Frame.bytes table (frame.take i) : Nat) : Int) =
              a - table.slotBytes s.type - Frame.bytes table (frame.take i) := by omega
          rw [heq]
          exact hholds

/-- The innermost variable of a name is the same one in the scope and in the state. -/
theorem FramesHold.find {frames : List Frame} {outer : List Bindings} {owns : List (List Placed)}
    (h : FramesHold X table live memory bp frames outer owns) (x : String) :
    (frames.findSome? (·.find? x) = none ∧ outer.findSome? (·.find? x) = none) ∨
      ∃ s d offset, frames.findSome? (·.find? x) = some s ∧ outer.findSome? (·.find? x) = some d ∧
        Scope.offsetIn? table x frames = some offset ∧
        HoldsAt X table owns.flatten live memory s d (bp - offset) := by
  induction h with
  | nil => exact .inl ⟨rfl, rfl⟩
  | @cons frame bindings own frames outer owns hframe _ _ ih =>
    rcases hframe.find x with ⟨hfind, hindex, hbinding⟩ | ⟨s, i, d, hfind, hindex, hbinding, hholds⟩
    · rcases ih with ⟨hfinds, hbindings⟩ | ⟨s, d, offset, hfinds, hbindings, hoffset, hholds⟩
      · exact .inl ⟨by simp [hfind, hfinds], by simp [hbinding, hbindings]⟩
      · refine .inr ⟨s, d, offset, by simp [hfind, hfinds], by simp [hbinding, hbindings], ?_, ?_⟩
        · rw [Scope.offsetIn?, hindex, hoffset]
        · exact hholds.mono (List.subset_append_right ..)
    · refine .inr ⟨s, d, 4 + Scope.framesBytes table frames + Frame.bytes table (frame.take i),
        by simp [hfind], by simp [hbinding], ?_, ?_⟩
      · rw [Scope.offsetIn?, hindex]
      · have heq : bp - ((4 + Scope.framesBytes table frames +
            Frame.bytes table (frame.take i) : Nat) : Int) =
            bp - 4 - Scope.framesBytes table frames - Frame.bytes table (frame.take i) := by omega
        rw [heq]
        exact hholds.mono (List.subset_append_left ..)

/-! ### Changing variables -/

theorem FramesHold.within {frames : List Frame} {outer : List Bindings}
    {owns : List (List Placed)} (h : FramesHold X table live memory bp frames outer owns) :
    ∀ o ∈ owns.flatten, o.Within X.program (bp - Scope.framesBytes table frames) (bp - 4) := by
  induction h with
  | nil => simp
  | @cons frame bindings own frames outer owns _ hown _ ih =>
    intro o ho
    rcases List.mem_append.1 (List.flatten_cons ▸ ho) with ho | ho
    · exact hown o ho
    · intro a ha
      have hwithin := ih o ho a ha
      rw [Scope.framesBytes]
      omega

/-- The bytes before a variable and its own are bytes of the block. -/
theorem Frame.bytes_take_le (table : ClassTable) {frame : Frame} {i : Nat}
    (hindex : frame.findIdx? (·.name == x) = some i) (hfind : frame.find? x = some s) :
    Frame.bytes table (frame.take i) + table.slotBytes s.type ≤ Frame.bytes table frame := by
  induction frame generalizing i with
  | nil => cases hfind
  | cons t frame ih =>
    by_cases hname : t.name = x
    · simp only [List.findIdx?_cons, hname, beq_self_eq_true, if_true, Option.some.injEq] at hindex
      simp only [Frame.find?, List.find?_cons, hname, beq_self_eq_true, Option.some.injEq] at hfind
      subst hindex hfind
      simp only [List.take_zero, Frame.bytes]
      omega
    · have hne : (t.name == x) = false := beq_eq_false_iff_ne.2 hname
      simp only [List.findIdx?_cons, hne, Bool.false_eq_true, if_false, Option.map_eq_some_iff]
        at hindex
      obtain ⟨j, hj, rfl⟩ := hindex
      simp only [Frame.find?, List.find?_cons, hne] at hfind
      have hle := ih hj hfind
      simp only [List.take_succ_cons, Frame.bytes]
      omega

theorem Source.Bindings.set?_eq_none {bindings : Bindings} {x : String} {d : Datum}
    (h : bindings.find? x = none) : Bindings.set? x d bindings = none := by
  induction bindings with
  | nil => rfl
  | cons b bindings ih =>
    by_cases hname : b.1 = x
    · simp [Bindings.find?, hname] at h
    · have hne : (b.1 == x) = false := beq_eq_false_iff_ne.2 hname
      simp only [Bindings.find?, List.find?_cons, hne] at h
      simp [Bindings.set?, hname, ih h]

theorem Source.Bindings.setInnermost?_eq_none {outer : List Bindings} {x : String} {d : Datum}
    (h : outer.findSome? (·.find? x) = none) : Bindings.setInnermost? x d outer = none := by
  induction outer with
  | nil => rfl
  | cons bindings outer ih =>
    rw [List.findSome?_cons] at h
    cases hfind : bindings.find? x with
    | some d' => simp [hfind] at h
    | none =>
      rw [hfind] at h
      simp [Bindings.setInnermost?, set?_eq_none hfind, ih h]

theorem FrameHolds.set {frame : Frame} {bindings : Bindings} {i : Nat} {n : Int32} (n' : Int32)
    (h : FrameHolds X table own live memory a frame bindings)
    (hindex : frame.findIdx? (·.name == x) = some i)
    (hnumber : bindings.find? x = some (.number n)) :
    ∃ bindings', Bindings.set? x (.number n') bindings = some bindings' ∧
      FrameHolds X table own live
        (Function.update memory (a - Frame.bytes table (frame.take i)) n'.toInt) a frame
        bindings' := by
  induction h generalizing i with
  | nil => cases hnumber
  | @cons a s d frame bindings hhead htail ih =>
    by_cases hname : s.name = x
    · simp only [List.findIdx?_cons, hname, beq_self_eq_true, if_true, Option.some.injEq] at hindex
      simp only [Bindings.find?, List.find?_cons, hname, beq_self_eq_true, Option.map_some,
        Option.some.injEq] at hnumber
      subst hindex hnumber
      refine ⟨(s.name, .number n') :: bindings, by simp [Bindings.set?, hname], ?_⟩
      simp only [List.take_zero, Frame.bytes, Int.natCast_zero, Int.sub_zero]
      cases hhead with
      | @number y _ _ hword hprivate =>
        refine .cons (.number (Function.update_self ..) hprivate)
          (htail.imp (List.Subset.refl _) fun a' _ hhigh hprivate' => ⟨?_, hprivate'⟩)
        have hfour : table.slotBytes (Symbol.onStack y Ty.int).type = 4 := rfl
        rw [hfour] at hhigh
        exact Function.update_of_ne (by omega) ..
    · have hne : (s.name == x) = false := beq_eq_false_iff_ne.2 hname
      simp only [List.findIdx?_cons, hne, Bool.false_eq_true, if_false, Option.map_eq_some_iff]
        at hindex
      obtain ⟨j, hj, rfl⟩ := hindex
      obtain ⟨bindings', hset, hholds⟩ := ih hj (by simpa [Bindings.find?, hne] using hnumber)
      refine ⟨(s.name, d) :: bindings', by simp [Bindings.set?, hname, hset], ?_⟩
      have heq : a - Frame.bytes table ((s :: frame).take (j + 1)) =
          a - table.slotBytes s.type - Frame.bytes table (frame.take j) := by
        rw [List.take_succ_cons, Frame.bytes]
        omega
      rw [heq]
      refine .cons ?_ hholds
      cases hhead with
      | @number y _ _ hword hprivate =>
        have hfour : table.slotBytes (Symbol.onStack y Ty.int).type = 4 := rfl
        refine .number ?_ hprivate
        rw [hfour, Function.update_of_ne (by omega)]
        exact hword
      | text h => exact .text h
      | object h hknown => exact .object h hknown

theorem FramesHold.set {frames : List Frame} {outer : List Bindings} {owns : List (List Placed)}
    {offset : Nat} {n : Int32} (n' : Int32)
    (h : FramesHold X table live memory bp frames outer owns)
    (hoffset : Scope.offsetIn? table x frames = some offset)
    (hnumber : outer.findSome? (·.find? x) = some (.number n)) :
    4 ≤ offset ∧ offset ≤ Scope.framesBytes table frames ∧
      ∃ outer', Bindings.setInnermost? x (.number n') outer = some outer' ∧
        FramesHold X table live (Function.update memory (bp - offset) n'.toInt) bp frames outer'
          owns := by
  induction h with
  | nil => cases hnumber
  | @cons frame bindings own frames outer owns hframe hown hframes ih =>
    rw [Scope.framesBytes]
    rcases hframe.find x with ⟨hfind, hindex, hbinding⟩ | ⟨s, i, d, hfind, hindex, hbinding, hholds⟩
    · rw [Scope.offsetIn?, hindex] at hoffset
      rw [List.findSome?_cons, hbinding] at hnumber
      obtain ⟨hlow, hhigh, outer', hset, hrest⟩ := ih hoffset hnumber
      refine ⟨hlow, by omega, bindings :: outer',
        by simp [Bindings.setInnermost?, Bindings.set?_eq_none hbinding, hset],
        .cons ?_ hown hrest⟩
      refine hframe.imp (List.Subset.refl _) fun a' _ hhigh' hprivate => ⟨?_, hprivate⟩
      exact Function.update_of_ne (by omega) ..
    · rw [Scope.offsetIn?, hindex, Option.some.injEq] at hoffset
      rw [List.findSome?_cons, hbinding, Option.some.injEq] at hnumber
      subst hoffset hnumber
      obtain ⟨bindings', hset, hframe'⟩ := hframe.set n' hindex hbinding
      have hle := Frame.bytes_take_le table hindex hfind
      have hfour : table.slotBytes s.type = 4 := by
        cases hholds
        rfl
      have heq : bp - ((4 + Scope.framesBytes table frames +
          Frame.bytes table (frame.take i) : Nat) : Int) =
          bp - 4 - Scope.framesBytes table frames - Frame.bytes table (frame.take i) := by omega
      refine ⟨by omega, by omega, bindings' :: outer, by simp [Bindings.setInnermost?, hset], ?_⟩
      rw [heq]
      refine .cons hframe' hown (hframes.imp fun a' hlow _ hprivate => ⟨?_, hprivate⟩)
      exact Function.update_of_ne (by omega) ..

end Frames

end ClassLang
