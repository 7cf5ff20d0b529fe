/-
  ClassLang/Proofs/ScopeTiling.lean
  =================================
  **The variables of a scope tile the stack.**

  A scope finds the place of a variable by walking through its frames, while the stack
  knows no frames: it has one variable below the other.  Put in the order of their
  declaration, the outermost frame first, the variables in sight are one list
  (`Scope.locals`), and the place of each is settled by the bytes of those before it
  (`Scope.placeOf`).  Whatever is done to a scope, the walk through the frames comes to
  that place.

  Two things have to hold of the frames for that, and every operation keeps them: the
  names in a frame are distinct, and none in the frame of the method body is that of the
  parameter.  The second one rests on the order of the operations: a parameter is given
  to a scope without variables (`Scope.inOrder`).

  Offsets and sizes are words.  As words the places are right modulo 2^32, and as long as
  the variables end below that, they leave no byte out and share none (`Scope.Stacked`).
  Beyond it the sums wrap around, and variables come to lie on each other
  (`scope_crowded`).
-/
import ClassLang.Proofs.DataLabels
import ClassLang.Proofs.TableOperations

namespace ClassLang

namespace Scope

/-! ### Operations -/

/-- The scope that an operation makes of another one, if it is not refused. -/
def perform (scope : Scope) (operation : Operation) : Except Fault Scope :=
  operation.change.result scope

/-- The scope that an operation leaves, whether or not it is refused. -/
def behind (scope : Scope) (operation : Operation) : Scope :=
  operation.change.behind scope

/-- The scope behind operations, one after the other. -/
def behindAll (scope : Scope) (operations : List Operation) : Scope :=
  operations.foldl behind scope

def Operation.isClear : Operation → Bool
  | .clear => true
  | _ => false

def Operation.isParameter : Operation → Bool
  | .parameter _ => true
  | _ => false

/-- A parameter is declared only to a scope that is new or has just been cleared; `fresh` tells
    whether this one is. -/
def inOrder (fresh : Bool) : List Operation → Bool
  | [] => true
  | operation :: rest => (fresh || !operation.isParameter) && inOrder operation.isClear rest

/-! ### Variables and their places -/

/-- The frame of the method body. -/
def bodyFrame (scope : Scope) : Frame :=
  scope.enclosing.getLastD scope.frame

/-- The variables of all frames in the order of their declaration, the outermost frame first. -/
def locals (scope : Scope) : List Symbol :=
  scope.frames.reverse.flatten

/-- The slots of variables, summed up without a bound. -/
def sizes (table : ClassTable) : List Symbol → Nat
  | [] => 0
  | s :: vs => (table.slotSize s.type).toNat + sizes table vs

/-- How far below the frame pointer the variable with a number lies: the first one four bytes, and
    every other one behind all before it. -/
def placeOf (scope : Scope) (table : ClassTable) (i : Nat) : Nat :=
  4 + sizes table (scope.locals.take i)

/-- The place of the variable with a number as a word: the sum that the walk to it comes to. -/
def wordOf (scope : Scope) (table : ClassTable) (i : Nat) : UInt32 :=
  Frame.addSizes table.slotSize 4 (scope.locals.take i)

/-- The byte that far below the frame pointer belongs to the variable with a number. -/
def Covers (scope : Scope) (table : ClassTable) (i byte : Nat) : Prop :=
  ∃ s, scope.locals[i]? = some s ∧ (scope.wordOf table i).toNat ≤ byte ∧
    byte < (scope.wordOf table i).toNat + (table.slotSize s.type).toNat

/-- No frame among the given ones has the name. -/
def Lack (frames : List Frame) (x : String) : Prop :=
  ∀ frame ∈ frames, ∀ s ∈ frame, s.name ≠ x

/-- The variable with a number is the one of its name in the innermost frame that has the name. -/
def Picks (scope : Scope) (x : String) (i : Nat) (s : Symbol) : Prop :=
  s.name = x ∧ ∃ inner frame outer j, scope.frames = inner ++ frame :: outer ∧ Lack inner x ∧
    frame[j]? = some s ∧ i = outer.flatten.length + j

/-! ### Frames and the list of variables -/

variable {scope scope' : Scope} {table : ClassTable} {x : String} {s : Symbol}

theorem bytes_reverse_flatten (table : ClassTable) (frames : List Frame) :
    Frame.bytes table frames.reverse.flatten = framesBytes table frames := by
  induction frames with
  | nil => rfl
  | cons frame frames ih =>
    rw [List.reverse_cons, List.flatten_append, bytes_append, ih, framesBytes, Nat.add_comm,
      List.flatten_singleton]

theorem length_reverse_flatten (frames : List Frame) :
    frames.reverse.flatten.length = frames.flatten.length := by
  induction frames with
  | nil => rfl
  | cons frame frames ih =>
    rw [List.reverse_cons, List.flatten_append, List.length_append, ih, List.flatten_singleton,
      List.flatten_cons, List.length_append, Nat.add_comm]

theorem locals_eq {inner outer : List Frame} {frame : Frame}
    (hframes : scope.frames = inner ++ frame :: outer) :
    scope.locals = outer.reverse.flatten ++ (frame ++ inner.reverse.flatten) := by
  rw [locals, hframes, List.reverse_append, List.reverse_cons]
  simp

/-- The variables before one in some frame: those of the frames around it, and those before it in
    its own. -/
theorem take_locals {inner outer : List Frame} {frame : Frame} {j : Nat}
    (hframes : scope.frames = inner ++ frame :: outer) (hj : j ≤ frame.length) :
    scope.locals.take (outer.flatten.length + j) = outer.reverse.flatten ++ frame.take j := by
  rw [locals_eq hframes, ← length_reverse_flatten, List.take_length_add_append,
    List.take_append_of_le_length hj]

theorem getElem?_locals {inner outer : List Frame} {frame : Frame} {j : Nat}
    (hframes : scope.frames = inner ++ frame :: outer) (hj : frame[j]? = some s) :
    scope.locals[outer.flatten.length + j]? = some s := by
  have hlt := (List.getElem?_eq_some_iff.1 hj).1
  rw [locals_eq hframes, ← length_reverse_flatten,
    List.getElem?_append_right (Nat.le_add_right _ _), Nat.add_sub_cancel_left,
    List.getElem?_append_left hlt]
  exact hj

/-! ### The walk through the frames -/

/-- A name is found in a frame where its index is. -/
theorem find?_of_findIdx? {frame : Frame} {j : Nat}
    (h : frame.findIdx? (·.name == x) = some j) :
    ∃ s, frame.find? x = some s ∧ frame[j]? = some s ∧ s.name = x := by
  obtain ⟨hlt, hname, hbefore⟩ := List.findIdx?_eq_some_iff_getElem.1 h
  refine ⟨frame[j], ?_, List.getElem?_eq_getElem hlt, by simpa using hname⟩
  rw [Frame.find?, List.find?_eq_some_iff_getElem]
  exact ⟨hname, j, hlt, rfl, fun k hk => by simpa using hbefore k hk⟩

theorem find?_eq_none_of_lack {frame : Frame} (h : ∀ s ∈ frame, s.name ≠ x) :
    frame.find? x = none ∧ frame.findIdx? (·.name == x) = none := by
  rw [Frame.find?, List.find?_eq_none, List.findIdx?_eq_none_iff]
  exact ⟨fun s hs => by simpa using h s hs, fun s hs => by simpa using h s hs⟩

/-- The walk stops at the innermost frame with the name, and so does the search for the symbol. -/
theorem walk (x : String) (frames : List Frame) :
    (Lack frames x ∧ frames.findSome? (·.find? x) = none ∧ before? x frames = none) ∨
      ∃ inner frame outer j s, frames = inner ++ frame :: outer ∧ Lack inner x ∧
        frame[j]? = some s ∧ s.name = x ∧ frames.findSome? (·.find? x) = some s ∧
        before? x frames = some (outer.reverse.flatten ++ frame.take j) := by
  induction frames with
  | nil => exact .inl ⟨nofun, rfl, rfl⟩
  | cons frame frames ih =>
    cases hindex : frame.findIdx? (·.name == x) with
    | some j =>
      obtain ⟨s, hfind, hj, hname⟩ := find?_of_findIdx? hindex
      refine .inr ⟨[], frame, frames, j, s, rfl, nofun, hj, hname, ?_, ?_⟩
      · rw [List.findSome?_cons, hfind]
      · rw [before?, hindex]
    | none =>
      have hlack : ∀ s ∈ frame, s.name ≠ x := by
        simpa [List.findIdx?_eq_none_iff] using hindex
      have hfind := (find?_eq_none_of_lack hlack).1
      have hsymbol : (frame :: frames).findSome? (·.find? x) = frames.findSome? (·.find? x) := by
        rw [List.findSome?_cons, hfind]
      have hbefore : before? x (frame :: frames) = before? x frames := by
        rw [before?, hindex]
      rw [hsymbol, hbefore]
      rcases ih with ⟨hrest, hnone⟩ | ⟨inner, frame', outer, j, s, rfl, hinner, hfound⟩
      · exact .inl ⟨List.forall_mem_cons.2 ⟨hlack, hrest⟩, hnone⟩
      · exact .inr ⟨frame :: inner, frame', outer, j, s, rfl,
          List.forall_mem_cons.2 ⟨hlack, hinner⟩, hfound⟩

/-- The offset counts the bytes of the variables that the walk passes. -/
theorem offset?_eq (scope : Scope) (table : ClassTable) (x : String) :
    scope.offset? table x =
      (before? x scope.frames).map fun vs => 4 + Frame.bytes table vs := by
  rw [offset?]
  generalize scope.frames = frames
  induction frames with
  | nil => rfl
  | cons frame frames ih =>
    rw [offsetIn?, before?]
    cases frame.findIdx? (·.name == x) with
    | none => exact ih
    | some j =>
      rw [Option.map_some, bytes_append, bytes_reverse_flatten, ← Nat.add_assoc]

/-! ### Words -/

theorem slotSize_eq (table : ClassTable) (type : Ty) :
    table.slotSize type = UInt32.ofNat (table.slotBytes type) := by
  cases type with
  | int => rfl
  | string => rfl
  | object name =>
    rw [ClassTable.slotSize, ClassTable.slotBytes]
    cases table.find? name with
    | none => rfl
    | some d =>
      rw [Option.map_some, Option.map_some, Option.getD_some, Option.getD_some,
        ClassDef.instanceSize, ClassDef.instanceBytes, UInt32.ofNat_mul]
      rfl

/-- A sum of words is the word of the sum. -/
theorem addSizes_eq (table : ClassTable) (n : Nat) (vs : List Symbol) :
    Frame.addSizes table.slotSize (UInt32.ofNat n) vs = UInt32.ofNat (n + sizes table vs) := by
  induction vs generalizing n with
  | nil => rfl
  | cons s vs ih =>
    have hhead : UInt32.ofNat n + table.slotSize s.type =
        UInt32.ofNat (n + (table.slotSize s.type).toNat) := by
      rw [UInt32.ofNat_add, UInt32.ofNat_toNat]
    rw [Frame.addSizes, List.foldl_cons, hhead, ← Frame.addSizes, ih, sizes, Nat.add_assoc]

theorem wordOf_eq (scope : Scope) (table : ClassTable) (i : Nat) :
    scope.wordOf table i = UInt32.ofNat (scope.placeOf table i) :=
  addSizes_eq table 4 _

/-- The numbers that the pass adds up are those of the words, but for what words cannot hold. -/
theorem ofNat_bytes (table : ClassTable) (vs : List Symbol) :
    UInt32.ofNat (Frame.bytes table vs) = UInt32.ofNat (sizes table vs) := by
  induction vs with
  | nil => rfl
  | cons s vs ih =>
    rw [Frame.bytes, sizes, UInt32.ofNat_add, UInt32.ofNat_add, ih, ← slotSize_eq,
      UInt32.ofNat_toNat]

/-- The offset as a word is the word of the offset. -/
theorem frameOffset?_eq (scope : Scope) (table : ClassTable) (x : String) :
    scope.frameOffset? table.slotSize x = (scope.offset? table x).map UInt32.ofNat := by
  rw [frameOffset?, offset?_eq, Option.map_map]
  congr 1
  funext vs
  rw [Function.comp_apply, UInt32.ofNat_add, ofNat_bytes, ← UInt32.ofNat_add]
  exact addSizes_eq table 4 vs

/-! ### Names and variables -/

theorem Picks.getElem? {i : Nat} (h : scope.Picks x i s) : scope.locals[i]? = some s := by
  obtain ⟨-, inner, frame, outer, j, hframes, -, hj, rfl⟩ := h
  exact getElem?_locals hframes hj

theorem Picks.not_lack {i : Nat} (h : scope.Picks x i s) : ¬ Lack scope.frames x := by
  obtain ⟨hname, inner, frame, outer, j, hframes, -, hj, -⟩ := h
  have hframe : frame ∈ scope.frames := by
    rw [hframes]
    simp
  exact fun hlack => hlack frame hframe s (List.mem_of_getElem? hj) hname

/-- A name is that of a variable or of none, and symbol and offset are those of the same one. -/
theorem picks_or_lack (scope : Scope) (x : String) :
    (∃ i s, scope.Picks x i s ∧ scope.find? x = some s ∧
        before? x scope.frames = some (scope.locals.take i)) ∨
      (Lack scope.frames x ∧ scope.find? x = scope.parameter? x ∧
        before? x scope.frames = none) := by
  rcases walk x scope.frames with ⟨hlack, hsymbol, hbefore⟩ |
    ⟨inner, frame, outer, j, s, hframes, hinner, hj, hname, hsymbol, hbefore⟩
  · refine .inr ⟨hlack, ?_, ?_⟩
    · rw [find?, hsymbol, Option.none_or]
    · exact hbefore
  · refine .inl ⟨_, s, ⟨hname, inner, frame, outer, j, hframes, hinner, hj, rfl⟩, ?_, ?_⟩
    · rw [find?, hsymbol, Option.some_or]
    · have hle : j ≤ frame.length := Nat.le_of_lt (List.getElem?_eq_some_iff.1 hj).1
      rw [hbefore, take_locals hframes hle]

/-! ### Bytes of a list of variables -/

theorem sizes_append (table : ClassTable) (vs ws : List Symbol) :
    sizes table (vs ++ ws) = sizes table vs + sizes table ws := by
  induction vs with
  | nil => simp [sizes]
  | cons v vs ih => rw [List.cons_append, sizes, sizes, ih, Nat.add_assoc]

/-- The bytes of the variables up to and with one. -/
theorem sizes_take_succ (table : ClassTable) {vs : List Symbol} {i : Nat} (h : vs[i]? = some s) :
    sizes table (vs.take (i + 1)) =
      sizes table (vs.take i) + (table.slotSize s.type).toNat := by
  rw [List.take_add_one, h, sizes_append]
  rfl

theorem sizes_take_le (table : ClassTable) (vs : List Symbol) {i j : Nat} (h : i ≤ j) :
    sizes table (vs.take i) ≤ sizes table (vs.take j) := by
  obtain ⟨k, rfl⟩ := Nat.exists_eq_add_of_le h
  rw [List.take_add, sizes_append]
  exact Nat.le_add_right _ _

/-- Every byte of a list of variables is one of some variable. -/
theorem exists_sizes_take (table : ClassTable) (vs : List Symbol) {b : Nat}
    (h : b < sizes table vs) :
    ∃ (i : Nat) (s : Symbol), vs[i]? = some s ∧ sizes table (vs.take i) ≤ b ∧
      b < sizes table (vs.take i) + (table.slotSize s.type).toNat := by
  induction vs generalizing b with
  | nil => cases h
  | cons v vs ih =>
    by_cases hv : b < (table.slotSize v.type).toNat
    · exact ⟨0, v, rfl, Nat.zero_le _, by simpa [sizes] using hv⟩
    · have hrest : b - (table.slotSize v.type).toNat < sizes table vs := by
        rw [sizes] at h
        omega
      obtain ⟨i, s, hs, hle, hlt⟩ := ih hrest
      refine ⟨i + 1, s, hs, ?_, ?_⟩ <;> rw [List.take_succ_cons, sizes] <;> omega

/-! ### Places -/

/-- A variable ends before the next one begins. -/
theorem placeOf_add_le (table : ClassTable) {i j : Nat} (hs : scope.locals[i]? = some s)
    (h : i < j) :
    scope.placeOf table i + (table.slotSize s.type).toNat ≤ scope.placeOf table j := by
  have hnext := sizes_take_succ table hs
  have hle := sizes_take_le table scope.locals (show i + 1 ≤ j from h)
  simp only [placeOf]
  omega

/-- The variables end where a word can still count. -/
def Fits (scope : Scope) (table : ClassTable) : Prop :=
  4 + sizes table scope.locals < UInt32.size

/-- A variable ends before the last one does. -/
theorem placeOf_add_le_all (table : ClassTable) {i : Nat} (hs : scope.locals[i]? = some s) :
    scope.placeOf table i + (table.slotSize s.type).toNat ≤ 4 + sizes table scope.locals := by
  have hnext := sizes_take_succ table hs
  have hall := sizes_take_le table scope.locals
    (show i + 1 ≤ scope.locals.length from (List.getElem?_eq_some_iff.1 hs).1)
  rw [List.take_length] at hall
  rw [placeOf]
  omega

theorem Fits.toNat_wordOf (h : scope.Fits table) {i : Nat} (hs : scope.locals[i]? = some s) :
    (scope.wordOf table i).toNat = scope.placeOf table i := by
  have hend := placeOf_add_le_all table hs
  rw [Fits] at h
  rw [wordOf_eq, UInt32.toNat_ofNat_of_lt' (show _ < UInt32.size by omega)]

theorem Fits.covers_iff (h : scope.Fits table) {i b : Nat} :
    scope.Covers table i b ↔ ∃ s, scope.locals[i]? = some s ∧ scope.placeOf table i ≤ b ∧
      b < scope.placeOf table i + (table.slotSize s.type).toNat := by
  refine exists_congr fun s => and_congr_right fun hs => ?_
  rw [h.toNat_wordOf hs]

/-- No byte belongs to two variables. -/
theorem Fits.covers_unique (h : scope.Fits table) {i j b : Nat} (hi : scope.Covers table i b)
    (hj : scope.Covers table j b) : i = j := by
  obtain ⟨s, hs, hle, hlt⟩ := h.covers_iff.1 hi
  obtain ⟨t, ht, hle', hlt'⟩ := h.covers_iff.1 hj
  rcases Nat.lt_trichotomy i j with hij | hij | hij
  · have := placeOf_add_le table hs hij
    omega
  · exact hij
  · have := placeOf_add_le table ht hij
    omega

/-- The bytes that belong to variables are those from the first place on, without a gap. -/
theorem Fits.exists_covers_iff (h : scope.Fits table) {b : Nat} :
    (∃ i, scope.Covers table i b) ↔ 4 ≤ b ∧ b < 4 + sizes table scope.locals := by
  simp only [h.covers_iff]
  constructor
  · rintro ⟨i, s, hs, hle, hlt⟩
    have hend := placeOf_add_le_all table hs
    rw [placeOf] at hle
    omega
  · rintro ⟨hle, hlt⟩
    have hb : b - 4 < sizes table scope.locals := by omega
    obtain ⟨i, s, hs, hfrom, hto⟩ := exists_sizes_take table scope.locals hb
    refine ⟨i, s, hs, ?_, ?_⟩ <;> simp only [placeOf] <;> omega

/-! ### Names -/

/-- The names of a frame are distinct, and those of the method body are not the parameter's. -/
structure Distinct (scope : Scope) : Prop where
  frames : ∀ frame ∈ scope.frames, (frame.map (·.name)).Nodup
  parameter : ∀ p ∈ scope.parameter, ∀ s ∈ scope.bodyFrame, s.name ≠ p.name

/-- The innermost frame with a name is the same however the frames are cut. -/
theorem innermost_unique {inner inner' outer outer' : List Frame} {frame frame' : Frame}
    (hinner : Lack inner x) (hframe : ∃ s ∈ frame, s.name = x) (hinner' : Lack inner' x)
    (hframe' : ∃ s ∈ frame', s.name = x)
    (h : inner ++ frame :: outer = inner' ++ frame' :: outer') :
    frame = frame' ∧ outer = outer' := by
  induction inner generalizing inner' with
  | nil =>
    cases inner' with
    | nil => simpa using h
    | cons first inner' =>
      obtain ⟨s, hs, hname⟩ := hframe
      obtain ⟨rfl, -⟩ : frame = first ∧ outer = inner' ++ frame' :: outer' := by simpa using h
      exact absurd hname (hinner' frame (List.mem_cons_self ..) s hs)
  | cons first inner ih =>
    cases inner' with
    | nil =>
      obtain ⟨s, hs, hname⟩ := hframe'
      obtain ⟨rfl, -⟩ : first = frame' ∧ inner ++ frame :: outer = outer' := by simpa using h
      exact absurd hname (hinner first (List.mem_cons_self ..) s hs)
    | cons first' inner' =>
      have hrest : inner ++ frame :: outer = inner' ++ frame' :: outer' :=
        (List.cons.inj h).2
      exact ih (List.forall_mem_cons.1 hinner).2 (List.forall_mem_cons.1 hinner').2 hrest

theorem isSome_findInnermost? : (scope.findInnermost? x).isSome ↔
    x ∈ scope.frame.map (·.name) ∨ scope.depth = 1 ∧ ∃ p ∈ scope.parameter, p.name = x := by
  have hdepth : scope.depth = 1 ↔ scope.enclosing.isEmpty = true := by
    simp [depth, frames]
  have hframe : (scope.frame.find? x).isSome ↔ x ∈ scope.frame.map (·.name) := by
    simp [Frame.find?]
  have hparameter : (scope.parameter? x).isSome ↔ ∃ p ∈ scope.parameter, p.name = x := by
    cases h : scope.parameter <;> simp [parameter?, h]
  rw [findInnermost?, Option.isSome_or, Bool.or_eq_true, hframe, hdepth]
  by_cases henclosing : scope.enclosing.isEmpty = true
  · simp only [henclosing, if_true, hparameter, true_and]
  · simp only [henclosing, if_false, Option.isSome_none, Bool.false_eq_true, false_and]

theorem distinct_empty : empty.Distinct := by
  refine ⟨fun frame hframe => ?_, nofun⟩
  rw [List.mem_singleton.1 hframe]
  exact List.nodup_nil

theorem Distinct.push (h : scope.Distinct) : scope.push.Distinct := by
  refine ⟨List.forall_mem_cons.2 ⟨List.nodup_nil, h.frames⟩, ?_⟩
  have hbody : scope.push.bodyFrame = scope.bodyFrame := by
    simp only [Scope.push, bodyFrame, List.getLastD_cons]
  rw [hbody]
  exact h.parameter

theorem Distinct.pop (h : scope.Distinct) : scope.pop.Distinct := by
  unfold Scope.pop
  split
  · exact h
  · rename_i frame enclosing henclosing
    refine ⟨fun f hf => h.frames f ?_, ?_⟩
    · rw [Scope.frames, henclosing]
      exact List.mem_cons_of_mem _ hf
    · have hbody : scope.bodyFrame = enclosing.getLastD frame := by
        rw [bodyFrame, henclosing, List.getLastD_cons]
      rw [bodyFrame, ← hbody]
      exact h.parameter

/-- A name that is free keeps the names of its frame distinct, in the method body from the
    parameter's too. -/
theorem Distinct.extend (h : scope.Distinct) (hfree : scope.findInnermost? s.name = none) :
    (scope.extend s).Distinct := by
  have hnew : ¬ (s.name ∈ scope.frame.map (·.name) ∨
      scope.depth = 1 ∧ ∃ p ∈ scope.parameter, p.name = s.name) := by
    rw [← isSome_findInnermost?, hfree]
    simp
  rw [not_or] at hnew
  refine ⟨?_, fun p hp t ht => ?_⟩
  · have hframe : ((scope.frame ++ [s]).map (·.name)).Nodup := by
      rw [List.map_append, List.nodup_append]
      refine ⟨h.frames _ (List.mem_cons_self ..), by simp, fun n hn m hm heq => ?_⟩
      rw [heq, List.mem_singleton.1 hm] at hn
      exact hnew.1 hn
    exact List.forall_mem_cons.2 ⟨hframe, fun f hf => h.frames f (List.mem_cons_of_mem _ hf)⟩
  · cases henclosing : scope.enclosing with
    | nil =>
      have hbody : (scope.extend s).bodyFrame = scope.bodyFrame ++ [s] := by
        simp only [Scope.extend, bodyFrame, henclosing, List.getLastD_nil]
      rw [hbody, List.mem_append, List.mem_singleton] at ht
      rcases ht with ht | rfl
      · exact h.parameter p hp t ht
      · exact fun heq => hnew.2 ⟨by simp [depth, Scope.frames, henclosing], p, hp, heq.symm⟩
    | cons frame enclosing =>
      have hbody : (scope.extend s).bodyFrame = scope.bodyFrame := by
        simp only [Scope.extend, bodyFrame, henclosing, List.getLastD_cons]
      rw [hbody] at ht
      exact h.parameter p hp t ht

/-- A parameter is given to a scope without variables. -/
theorem distinct_setParameter (p : Symbol) : (empty.setParameter p).Distinct := by
  refine ⟨distinct_empty.frames, fun _ _ t ht => ?_⟩
  cases ht

theorem behind_declare (scope : Scope) (s : Symbol) :
    scope.behind (.declare s) =
      if (scope.findInnermost? s.name).isSome then scope else scope.extend s := by
  rw [behind, Operation.change, Change.behind, outcome_declaring]
  split <;> rfl

/-- A change that is refused has not been begun. -/
theorem behind_of_error {operation : Operation} {fault : Fault}
    (h : scope.perform operation = .error fault) : scope.behind operation = scope := by
  rw [perform, Change.result_error] at h
  cases operation with
  | declare s =>
    rw [behind, Change.behind, Operation.change, outcome_declaring]
    rw [Operation.change, outcome_declaring] at h
    cases hfind : scope.findInnermost? s.name with
    | some _ => rfl
    | none =>
      rw [hfind] at h
      cases h
  | _ => cases h

/-- An operation keeps the names distinct, if a parameter is given to an empty scope only. -/
theorem Distinct.behind {operation : Operation} (h : scope.Distinct)
    (hparameter : operation.isParameter = true → scope = empty) :
    (scope.behind operation).Distinct := by
  cases operation with
  | clear => exact distinct_empty
  | push => exact h.push
  | pop => exact h.pop
  | parameter p =>
    obtain rfl := hparameter rfl
    exact distinct_setParameter p
  | declare s =>
    rw [behind_declare]
    cases hfind : scope.findInnermost? s.name with
    | some _ => exact h
    | none => exact h.extend hfind

/-- Operations in order keep the names distinct. -/
theorem Distinct.behindAll {operations : List Operation} {fresh : Bool} (h : scope.Distinct)
    (hfresh : fresh = true → scope = empty) (horder : inOrder fresh operations = true) :
    (scope.behindAll operations).Distinct := by
  induction operations generalizing scope fresh with
  | nil => exact h
  | cons operation rest ih =>
    rw [inOrder, Bool.and_eq_true, Bool.or_eq_true] at horder
    have hparameter : operation.isParameter = true → scope = empty := fun hop =>
      hfresh (horder.1.resolve_right (by simp [hop]))
    refine ih (h.behind hparameter) (fun hclear => ?_) horder.2
    cases operation with
    | clear => rfl
    | _ => cases hclear

/-- There is one innermost frame with a name, and one variable of that name in it. -/
theorem Picks.unique (hscope : scope.Distinct) {i j : Nat} {t : Symbol} (hi : scope.Picks x i s)
    (hj : scope.Picks x j t) : i = j ∧ s = t := by
  obtain ⟨rfl, inner, frame, outer, m, hframes, hinner, hm, rfl⟩ := hi
  obtain ⟨hname, inner', frame', outer', n, hframes', hinner', hn, rfl⟩ := hj
  obtain ⟨rfl, rfl⟩ : frame = frame' ∧ outer = outer' := by
    refine innermost_unique hinner ⟨s, List.mem_of_getElem? hm, rfl⟩ hinner'
      ⟨t, List.mem_of_getElem? hn, hname⟩ (hframes.symm.trans hframes')
  have hnodup := hscope.frames frame (by rw [hframes]; simp)
  have hlt : m < (frame.map (·.name)).length := by
    rw [List.length_map]
    exact (List.getElem?_eq_some_iff.1 hm).1
  obtain rfl : m = n := by
    refine (List.getElem?_inj hlt hnodup).1 ?_
    rw [List.getElem?_map, List.getElem?_map, hm, hn, Option.map_some, Option.map_some, hname]
  refine ⟨rfl, ?_⟩
  rw [hm] at hn
  exact Option.some.inj hn

/-- The offset of a name is the place of the variable that the name picks, as a word. -/
theorem Picks.frameOffset?_eq {i : Nat} (hi : scope.Picks x i s) (h : scope.Distinct)
    (table : ClassTable) : scope.frameOffset? table.slotSize x = some (scope.wordOf table i) := by
  rcases scope.picks_or_lack x with ⟨j, t, hj, -, hbefore⟩ | ⟨hlack, -⟩
  · rw [frameOffset?, hbefore, (hi.unique h hj).1]
    rfl
  · exact absurd hlack hi.not_lack

/-! ### The storage of a scope -/

/-- The variables lie one below the other, as words tell it: each behind all before it, without a
    gap and without a byte in common. -/
structure Stacked (scope : Scope) (table : ClassTable) : Prop where
  placed : ∀ x i s, scope.Picks x i s →
    ∃ offset, scope.frameOffset? table.slotSize x = some offset ∧
      offset.toNat = 4 + sizes table (scope.locals.take i)
  covered : ∀ byte, (∃ i, scope.Covers table i byte) ↔
    4 ≤ byte ∧ byte < 4 + sizes table scope.locals
  apart : ∀ byte i j, scope.Covers table i byte → scope.Covers table j byte → i = j
  rising : ∀ x y i j s t a b, scope.Picks x i s → scope.Picks y j t → i < j →
    0 < table.slotSize s.type → 0 < table.slotSize t.type →
    scope.frameOffset? table.slotSize x = some a → scope.frameOffset? table.slotSize y = some b →
    a < b

/-- What a scope promises about names and places. -/
structure Tiles (scope : Scope) (table : ClassTable) : Prop where
  distinct : scope.Distinct
  declares : ∀ s, (∃ fault, scope.perform (.declare s) = .error fault) ↔
    s.name ∈ scope.frame.map (·.name) ∨
      scope.depth = 1 ∧ ∃ p ∈ scope.parameter, p.name = s.name
  refused : ∀ operation fault, scope.perform operation = .error fault →
    scope.behind operation = scope
  /-- A name is looked up and placed as one and the same variable, or else it is that of the
      parameter or of nothing. -/
  found : ∀ x, (∃ i s, scope.Picks x i s ∧ scope.find? x = some s ∧
      scope.frameOffset? table.slotSize x =
        some (UInt32.ofNat (4 + sizes table (scope.locals.take i)))) ∨
    (Lack scope.frames x ∧ scope.find? x = scope.parameter? x ∧
      scope.frameOffset? table.slotSize x = none)
  absent : ∀ x, scope.frameOffset? table.slotSize x = none ↔
    Lack scope.frames x ∧ scope.find? x = scope.parameter? x
  single : ∀ x i j s t, scope.Picks x i s → scope.Picks x j t → i = j ∧ s = t
  /-- The pass counts on without a bound, to the same words. -/
  counted : ∀ x, scope.frameOffset? table.slotSize x = (scope.offset? table x).map UInt32.ofNat
  stacked : scope.Fits table → scope.Stacked table

theorem Fits.stacked (h : scope.Fits table) (hscope : scope.Distinct) : scope.Stacked table where
  placed x i s hi := ⟨_, hi.frameOffset?_eq hscope table, h.toNat_wordOf hi.getElem?⟩
  covered byte := h.exists_covers_iff
  apart byte i j := h.covers_unique
  rising x y i j s t a b hi hj hlt hs _ ha hb := by
    have hplace := placeOf_add_le table hi.getElem? hlt
    have hsize : 0 < (table.slotSize s.type).toNat := UInt32.lt_iff_toNat_lt.1 hs
    rw [hi.frameOffset?_eq hscope table] at ha
    rw [hj.frameOffset?_eq hscope table] at hb
    cases ha
    cases hb
    rw [UInt32.lt_iff_toNat_lt, h.toNat_wordOf hi.getElem?, h.toNat_wordOf hj.getElem?]
    omega

theorem Distinct.tiles (h : scope.Distinct) (table : ClassTable) : scope.Tiles table where
  distinct := h
  declares s := by
    rw [← isSome_findInnermost?]
    simp only [perform, Change.result_error, Operation.change, outcome_declaring]
    cases scope.findInnermost? s.name <;> simp
  refused operation fault := behind_of_error
  found x := by
    rcases scope.picks_or_lack x with ⟨i, s, hi, hfind, -⟩ | ⟨hlack, hfind, hbefore⟩
    · refine .inl ⟨i, s, hi, hfind, ?_⟩
      rw [hi.frameOffset?_eq h table, wordOf_eq, placeOf]
    · refine .inr ⟨hlack, hfind, ?_⟩
      rw [frameOffset?, hbefore, Option.map_none]
  absent x := by
    rcases scope.picks_or_lack x with ⟨i, s, hi, -, hbefore⟩ | ⟨hlack, hfind, hbefore⟩
    · simp [frameOffset?, hbefore, hi.not_lack]
    · simp [frameOffset?, hbefore, hlack, hfind]
  single x i j s t := Picks.unique h
  counted := scope.frameOffset?_eq table
  stacked hfits := hfits.stacked h

end Scope

/-- Whatever has been done to a scope, in whatever order but for the parameter: names are distinct
    in each frame; a declaration fails exactly if its name is taken, and changes nothing then; a
    name is looked up in the innermost frame that has it, and its offset is that of the same
    variable; and as long as the variables end below 2^32, they share the bytes from the first
    place on among them, without a gap, in the order of their declaration. -/
theorem scope_tiles (operations : List Scope.Operation)
    (horder : Scope.inOrder true operations = true) (table : ClassTable) :
    (Scope.empty.behindAll operations).Tiles table :=
  (Scope.distinct_empty.behindAll (fun _ => rfl) horder).tiles table

/-- A block that shadows the parameter and a variable, around a block that has been left again. -/
def shadowingOperations : List Scope.Operation :=
  [.clear, .parameter (.ofParameter ⟨"p", .object "Pair"⟩), .declare (.onStack "x" .int),
    .declare (.onStack "p" .int), .push, .declare (.onStack "p" (.object "Pair")),
    .declare (.inData "s" "main_s"), .declare (.onStack "x" .int), .push,
    .declare (.onStack "y" .int), .pop, .declare (.onStack "z" .int)]

def pairTable : ClassTable := ⟨[⟨"Pair", ["a", "b", "c"], []⟩], ["Pair"], ["Pair"]⟩

theorem scope_tiles_shadowing :
    Scope.inOrder true shadowingOperations = true ∧
      (Scope.empty.behindAll shadowingOperations).Tiles pairTable ∧
      (Scope.empty.behindAll shadowingOperations).Stacked pairTable ∧
      ["p", "x", "y", "z"].map
          ((Scope.empty.behindAll shadowingOperations).frameOffset? pairTable.slotSize) =
        [some 8, some 20, none, some 24] := by
  have htiles := scope_tiles shadowingOperations (by decide) pairTable
  have hfits : (Scope.empty.behindAll shadowingOperations).Fits pairTable := by
    rw [Scope.Fits]
    decide
  exact ⟨by decide, htiles, htiles.stacked hfits, by decide⟩

/-! ### Variables that lie on each other -/

namespace Scope

variable {scope : Scope}

theorem behindAll_cons (scope : Scope) (operation : Operation) (rest : List Operation) :
    scope.behindAll (operation :: rest) = (scope.behind operation).behindAll rest := rfl

theorem behindAll_append (scope : Scope) (operations rest : List Operation) :
    scope.behindAll (operations ++ rest) = (scope.behindAll operations).behindAll rest :=
  List.foldl_append

/-- New names go behind the variables of a block, one after the other. -/
theorem behindAll_declare (type : Ty) {names : List String} (hblock : scope.enclosing ≠ [])
    (hnames : (scope.frame.map (·.name) ++ names).Nodup) :
    scope.behindAll (names.map fun x => .declare (.onStack x type)) =
      { scope with frame := scope.frame ++ names.map fun x => .onStack x type } := by
  induction names generalizing scope with
  | nil => simp [behindAll]
  | cons x names ih =>
    have hx : x ∉ scope.frame.map (·.name) := fun hmem =>
      (List.nodup_append.1 hnames).2.2 x hmem x (List.mem_cons_self ..) rfl
    have hfree : scope.findInnermost? (Symbol.onStack x type).name = none := by
      rw [← Option.not_isSome_iff_eq_none, isSome_findInnermost?, not_or]
      refine ⟨hx, fun hbody => hblock ?_⟩
      simpa [depth, Scope.frames] using hbody.1
    have hnames' : ((scope.extend (.onStack x type)).frame.map (·.name) ++ names).Nodup := by
      simpa [extend, Symbol.onStack] using hnames
    have hrest := @ih (scope.extend (.onStack x type)) hblock hnames'
    have hbehind : scope.behind (.declare (.onStack x type)) = scope.extend (.onStack x type) := by
      rw [behind_declare, hfree]
      rfl
    rw [List.map_cons, behindAll_cons, hbehind, hrest]
    simp [extend]

/-- Enter a block and declare variables of one type in it. -/
def block (type : Ty) (names : List String) : List Operation :=
  .push :: names.map fun x => .declare (.onStack x type)

/-- Blocks in blocks add their variables as frames of their own. -/
theorem frames_behindAll_blocks (scope : Scope) (type : Ty) {names : List String}
    (hnames : names.Nodup) (n : Nat) :
    (scope.behindAll (List.replicate n (block type names)).flatten).frames =
      List.replicate n (names.map fun x => .onStack x type) ++ scope.frames := by
  induction n generalizing scope with
  | zero => rfl
  | succ n ih =>
    have hblock : scope.behindAll (block type names) =
        { scope.push with frame := names.map fun x => .onStack x type } :=
      @behindAll_declare scope.push type names (List.cons_ne_nil _ _) hnames
    rw [List.replicate_succ, List.flatten_cons, behindAll_append, hblock, ih, List.replicate_succ',
      List.append_assoc]
    rfl

/-- Only a parameter can be out of order. -/
theorem inOrder_of_forall {operations : List Operation} (fresh : Bool)
    (h : ∀ operation ∈ operations, operation.isParameter = false) :
    inOrder fresh operations = true := by
  induction operations generalizing fresh with
  | nil => rfl
  | cons operation rest ih =>
    rw [List.forall_mem_cons] at h
    rw [inOrder, h.1, ih _ h.2]
    simp

theorem sizes_of_forall {table : ClassTable} {type : Ty} {vs : List Symbol}
    (h : ∀ v ∈ vs, v.type = type) :
    sizes table vs = vs.length * (table.slotSize type).toNat := by
  induction vs with
  | nil => simp [sizes]
  | cons v vs ih =>
    rw [List.forall_mem_cons] at h
    rw [sizes, h.1, ih h.2, List.length_cons, Nat.succ_mul, Nat.add_comm]

end Scope

/-- The name of a field with a number: the number, and up to seven marks behind it. -/
def crowdedField (i : Nat) : String :=
  toString i ++ String.ofList (List.replicate (i % 8) '_')

theorem crowdedField_injective {i j : Nat} (h : crowdedField i = crowdedField j) : i = j := by
  have hnumber : ∀ k, (crowdedField k).toList.filter (· != '_') = (toString k).toList := by
    intro k
    have hdigits : (toString k).toList.filter (· != '_') = (toString k).toList := by
      refine List.filter_eq_self.2 fun c hc => ?_
      have hdigit : c.isDigit = true :=
        Nat.isDigit_of_mem_toDigits (by decide) (by decide) (Nat.toList_repr ▸ hc)
      exact bne_iff_ne.2 fun heq => by simp [heq] at hdigit
    have hmarks : (List.replicate (k % 8) '_').filter (· != '_') = [] := by simp
    rw [crowdedField, String.toList_append, List.filter_append, hdigits, String.toList_ofList,
      hmarks, List.append_nil]
  have hdigits : (toString i).toList = (toString j).toList := by
    rw [← hnumber i, ← hnumber j, h]
  exact toString_injective (String.toList_inj.1 hdigits)

def crowdedFields (n : Nat) : List String :=
  (List.range n).map crowdedField

/-- A single class, with as many fields as are asked for. -/
def crowdedTable (n : Nat) : ClassTable :=
  ClassTable.empty.behindAll
    (.declareClass "C" :: (crowdedFields n).map fun f => .addField "C" f)

theorem crowdedTable_eq (n : Nat) : crowdedTable n = ⟨[⟨"C", crowdedFields n, []⟩], ["C"], []⟩ := by
  have hfields : (crowdedFields n).Nodup :=
    List.nodup_range.map fun _ _ => crowdedField_injective
  have hopens : (ClassTable.empty.enter "C").Opens [] ⟨"C", [], []⟩ := ⟨rfl, nofun, nofun⟩
  exact hopens.behindAll_addField hfields

theorem slotSize_crowdedTable (n : Nat) :
    (crowdedTable n).slotSize (.object "C") = 4 * UInt32.ofNat n := by
  rw [crowdedTable_eq]
  simp [ClassTable.slotSize, ClassTable.find?, ClassDef.instanceSize, crowdedFields]

def crowdedNames : List String := ["a", "b", "c", "d", "e", "f", "g", "h"]

/-- One object, and in blocks around each other eight more objects in each. -/
def crowdedOperations (n : Nat) : List Scope.Operation :=
  .declare (.onStack "first" (.object "C")) ::
    (List.replicate n (Scope.block (.object "C") crowdedNames)).flatten

def crowdedScope (n : Nat) : Scope := Scope.empty.behindAll (crowdedOperations n)

theorem frames_crowdedScope (n : Nat) : (crowdedScope n).frames =
    List.replicate n (crowdedNames.map fun x => Symbol.onStack x (.object "C")) ++
      [[.onStack "first" (.object "C")]] :=
  Scope.frames_behindAll_blocks (Scope.empty.behind (.declare (.onStack "first" (.object "C"))))
    (.object "C") (by decide) n

theorem inOrder_crowdedOperations (n : Nat) :
    Scope.inOrder true (crowdedOperations n) = true := by
  have hblock : ∀ operation ∈ Scope.block (.object "C") crowdedNames,
      operation.isParameter = false := by decide
  refine Scope.inOrder_of_forall true (List.forall_mem_cons.2 ⟨rfl, fun operation hop => ?_⟩)
  obtain ⟨ops, hops, hop⟩ := List.mem_flatten.1 hop
  rw [List.eq_of_mem_replicate hops] at hop
  exact hblock operation hop

theorem distinct_crowdedScope (n : Nat) : (crowdedScope n).Distinct :=
  Scope.distinct_empty.behindAll (fun _ => rfl) (inOrder_crowdedOperations n)

theorem picks_first (n : Nat) :
    (crowdedScope n).Picks "first" 0 (.onStack "first" (.object "C")) := by
  refine ⟨rfl, _, _, [], 0, frames_crowdedScope n, fun frame hframe s hs => ?_, rfl, rfl⟩
  rw [List.eq_of_mem_replicate hframe] at hs
  revert s
  decide

theorem picks_last (n : Nat) :
    (crowdedScope (n + 1)).Picks "h" (8 * (n + 1)) (.onStack "h" (.object "C")) := by
  refine ⟨rfl, [], _, _, 7, frames_crowdedScope (n + 1), nofun, rfl, ?_⟩
  simp [crowdedNames]
  omega

/-- Every variable is an object, so that those before one take as many bytes as their number
    says. -/
theorem placeOf_crowdedScope (m n : Nat) {i : Nat} (h : i ≤ (crowdedScope n).locals.length) :
    (crowdedScope n).placeOf (crowdedTable m) i = 4 + i * (4 * UInt32.ofNat m).toNat := by
  have hblock : ∀ v ∈ crowdedNames.map fun x => Symbol.onStack x (.object "C"),
      v.type = .object "C" := by decide
  have htypes : ∀ v ∈ (crowdedScope n).locals.take i, v.type = .object "C" := by
    intro v hv
    have hmem := List.mem_of_mem_take hv
    rw [Scope.locals, frames_crowdedScope] at hmem
    obtain ⟨frame, hframe, hv⟩ := List.mem_flatten.1 hmem
    rcases List.mem_append.1 (List.mem_reverse.1 hframe) with hframe | hframe
    · rw [List.eq_of_mem_replicate hframe] at hv
      exact hblock v hv
    · rw [List.mem_singleton.1 hframe, List.mem_singleton] at hv
      rw [hv]
      rfl
  rw [Scope.placeOf, Scope.sizes_of_forall htypes, slotSize_crowdedTable, List.length_take,
    Nat.min_eq_left h]

/-- With 65536 fields, 16384 objects lie before the last variable, which is 2^32 bytes: their sum is
    lost, and the last variable gets the place of the first one. -/
theorem scope_crowded :
    Scope.inOrder true (crowdedOperations 2048) = true ∧
      (crowdedScope 2048).Picks "first" 0 (.onStack "first" (.object "C")) ∧
      (crowdedScope 2048).Picks "h" 16384 (.onStack "h" (.object "C")) ∧
      (crowdedTable 65536).slotSize (.object "C") = 262144 ∧
      (crowdedScope 2048).placeOf (crowdedTable 65536) 16384 = UInt32.size + 4 ∧
      (crowdedScope 2048).frameOffset? (crowdedTable 65536).slotSize "first" = some 4 ∧
      (crowdedScope 2048).frameOffset? (crowdedTable 65536).slotSize "h" = some 4 ∧
      ¬ (crowdedScope 2048).Stacked (crowdedTable 65536) := by
  have hfirst := picks_first 2048
  have hlast := picks_last 2047
  have hdistinct := distinct_crowdedScope 2048
  have hplace : (crowdedScope 2048).placeOf (crowdedTable 65536) 16384 = UInt32.size + 4 :=
    placeOf_crowdedScope 65536 2048
      (Nat.le_of_lt (List.getElem?_eq_some_iff.1 hlast.getElem?).1)
  have hwrapped := hlast.frameOffset?_eq hdistinct (crowdedTable 65536)
  rw [Scope.wordOf_eq, hplace] at hwrapped
  refine ⟨inOrder_crowdedOperations 2048, hfirst, hlast, slotSize_crowdedTable 65536, hplace,
    hfirst.frameOffset?_eq hdistinct _, hwrapped, fun hstacked => ?_⟩
  obtain ⟨offset, -, hexact⟩ := hstacked.placed "h" _ _ hlast
  rw [← Scope.placeOf, hplace] at hexact
  have hlt : offset.toNat < UInt32.size := offset.toNat_lt
  omega

end ClassLang
