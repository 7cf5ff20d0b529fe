/-
  ClassLang/Proofs/LiveVariables.lean
  ===================================
  **Which variables are alive, and where they lie.**

  The pass keeps its variables in frames and walks through these to find an offset.
  Read off the tree, the variables that are alive at some place are just a list, the
  newest one first: a declaration puts one in front, and behind a block the list is
  what it was before it.  Each variable lies below all older ones, so its distance
  from the frame pointer is settled by the bytes that the older ones take.

  `Mirrors` says that a standing of the pass and such a list agree: on the bytes taken,
  on what a name stands for, and on where it lies.  Every statement keeps them in
  agreement (`Elaborates.mirrors`), whatever it shadows or reuses.
-/
import ClassLang.Proofs.Representation

namespace ClassLang

/-! ### Variables and their bytes -/

/-- The variables that are alive, the newest one first. -/
abbrev Live := List (String × Ty)

def Tree.Simple.declares : Tree.Simple → Live
  | .declare type x _ => [(x, type.type)]
  | _ => []

/-- A type that can be declared: built in, or a class that the table has. -/
def ClassTable.Knows (table : ClassTable) (type : Ty) : Prop :=
  ∀ c, type = .object c → (table.find? c).isSome

namespace Tree.Program

variable {p : Tree.Program}

/-- How many words a variable of a type takes on the stack: an object has one for each field, and a
    string is stored elsewhere. -/
def slotWords (p : Tree.Program) : Ty → Nat
  | .int => 1
  | .string => 0
  | .object c => (p.fields c).length

def slotBytes (p : Tree.Program) (type : Ty) : Nat :=
  4 * p.slotWords type

def liveBytes (p : Tree.Program) : Live → Nat
  | [] => 0
  | v :: older => p.slotBytes v.2 + p.liveBytes older

/-- How far below the frame pointer a variable lies: the first of all four bytes, and every other
    one below the older ones. -/
def offset (p : Tree.Program) (live : Live) (j : Nat) : Nat :=
  4 + p.liveBytes (live.drop (j + 1))

theorem four_dvd_liveBytes (live : Live) : 4 ∣ p.liveBytes live := by
  induction live with
  | nil => exact Nat.dvd_zero 4
  | cons v older ih => exact Nat.dvd_add (Nat.dvd_mul_right 4 _) ih

/-- A variable and the older ones. -/
theorem liveBytes_drop {live : Live} {j : Nat} {v : String × Ty} (h : live[j]? = some v) :
    p.liveBytes (live.drop j) = p.slotBytes v.2 + p.liveBytes (live.drop (j + 1)) := by
  obtain ⟨hlt, heq⟩ := List.getElem?_eq_some_iff.1 h
  rw [List.drop_eq_getElem_cons hlt, heq, liveBytes]

theorem liveBytes_drop_le (live : Live) {i j : Nat} (h : i ≤ j) :
    p.liveBytes (live.drop j) ≤ p.liveBytes (live.drop i) := by
  induction h with
  | refl => exact Nat.le_refl _
  | @step j _ ih =>
    refine Nat.le_trans ?_ ih
    cases hv : live[j]? with
    | none =>
      have hle : live.length ≤ j := List.getElem?_eq_none_iff.1 hv
      have heq : live.drop (j + 1) = live.drop j := by
        rw [List.drop_eq_nil_of_le hle, List.drop_eq_nil_of_le (Nat.le_succ_of_le hle)]
      exact Nat.le_of_eq (congrArg p.liveBytes heq)
    | some v =>
      rw [liveBytes_drop hv]
      exact Nat.le_add_left ..

/-! ### The table of classes and the program -/

theorem fields_eq (hp : p.WellFormed) {table : ClassTable} (h : p.Covers table) {c : String}
    {d : ClassDef} (hfind : table.find? c = some d) : p.fields c = d.fields := by
  obtain ⟨k, hk, hname, hfields, -⟩ := h hfind
  rw [fields, (find?_eq_some_of_nodup hp.classes).2 ⟨hk, hname⟩]
  exact hfields.symm

/-- The table and the program agree on the bytes of a variable. -/
theorem slotBytes_eq (hp : p.WellFormed) {table : ClassTable} (h : p.Covers table) {type : Ty}
    (hknows : table.Knows type) : table.slotBytes type = p.slotBytes type := by
  cases type with
  | int | string => rfl
  | object c =>
    obtain ⟨d, hd⟩ := Option.isSome_iff_exists.1 (hknows c rfl)
    rw [ClassTable.slotBytes, hd, slotBytes, slotWords, fields_eq hp h hd]
    rfl

/-- Every variable that is not a string has a word. -/
theorem slotWords_pos (hp : p.WellFormed) {table : ClassTable} (h : p.Covers table) {type : Ty}
    (hknows : table.Knows type) (htype : type ≠ .string) : 0 < p.slotWords type := by
  cases type with
  | int => exact Nat.one_pos
  | string => exact absurd rfl htype
  | object c =>
    obtain ⟨d, hd⟩ := Option.isSome_iff_exists.1 (hknows c rfl)
    obtain ⟨k, -, -, hfields, -⟩ := h hd
    rw [slotWords, fields_eq hp h hd, hfields]
    exact List.length_pos_iff.2 k.fields_ne

end Tree.Program

/-! ### Frames with a new variable -/

namespace Scope

variable {scope : Scope} {s : Symbol} {y : String}

theorem framesBytes_extend (table : ClassTable) (scope : Scope) (s : Symbol) :
    framesBytes table (scope.extend s).frames =
      table.slotBytes s.type + framesBytes table scope.frames := by
  simp only [frames, extend, framesBytes, bytes_append, Frame.bytes]
  omega

theorem findSome?_extend_of_ne (hne : s.name ≠ y) :
    (scope.extend s).frames.findSome? (·.find? y) = scope.frames.findSome? (·.find? y) := by
  have hfind : Frame.find? (scope.frame ++ [s]) y = scope.frame.find? y := by
    rw [Frame.find?, List.find?_append]
    simp [Frame.find?, hne]
  simp only [frames, extend, List.findSome?_cons, hfind]

/-- The variables that were there stay where they are. -/
theorem offset?_extend_of_ne (table : ClassTable) (hne : s.name ≠ y) :
    (scope.extend s).offset? table y = scope.offset? table y := by
  simp only [offset?, frames, extend, offsetIn?, List.findIdx?_append]
  cases hindex : scope.frame.findIdx? (·.name == y) with
  | none => simp [List.findIdx?_cons, hne]
  | some i =>
    have hlt : i < scope.frame.length := (List.findIdx?_eq_some_iff_getElem.1 hindex).1
    simp [List.take_append_of_le_length (Nat.le_of_lt hlt)]

end Scope

/-! ### The pass and the list of variables -/

/-- The scope of the pass holds the variables of a list. -/
structure Standing.Mirrors (S : Standing) (p : Tree.Program) (live : Live) : Prop where
  bytes : Scope.framesBytes S.table S.scope.frames = p.liveBytes live
  sized : ∀ v ∈ live, v.2 ≠ .string → 0 < p.slotWords v.2
  absent : ∀ {x}, S.scope.frames.findSome? (·.find? x) = none → live.findIdx? (·.1 == x) = none
  found : ∀ {x s}, S.scope.frames.findSome? (·.find? x) = some s →
    ∃ j, live.findIdx? (·.1 == x) = some j ∧ live[j]? = some (x, s.type) ∧
      S.scope.offset? S.table x = some (p.offset live j)

namespace Standing

variable {S S' S₁ : Standing} {p : Tree.Program} {live : Live}

theorem Mirrors.congr (h : S.Mirrors p live) (hscope : S'.scope = S.scope)
    (htable : S'.table = S.table) : S'.Mirrors p live := by
  refine ⟨?_, h.sized, ?_, ?_⟩
  · rw [hscope, htable]
    exact h.bytes
  · rw [hscope]
    exact h.absent
  · rw [hscope, htable]
    exact h.found

/-- A new variable is found in front, and the others where they were. -/
theorem Mirrors.extend (h : S.Mirrors p live) {s : Symbol}
    (hfree : S.scope.findInnermost? s.name = none)
    (hbytes : S.table.slotBytes s.type = p.slotBytes s.type)
    (hsized : s.type ≠ .string → 0 < p.slotWords s.type) :
    (S.extend s).Mirrors p (s.declared :: live) := by
  refine ⟨?_, ?_, ?_, ?_⟩
  · show Scope.framesBytes S.table (S.scope.extend s).frames = _
    rw [Scope.framesBytes_extend, h.bytes, hbytes]
    rfl
  · intro v hv
    rcases List.mem_cons.1 hv with rfl | hv
    · exact hsized
    · exact h.sized v hv
  · intro x hnone
    have hnone : (S.scope.extend s).frames.findSome? (·.find? x) = none := hnone
    by_cases hx : s.name = x
    · rw [← hx, Scope.findSome?_extend hfree] at hnone
      cases hnone
    · rw [Scope.findSome?_extend_of_ne hx] at hnone
      simp [List.findIdx?_cons, Symbol.declared, hx, h.absent hnone]
  · intro x t ht
    have ht : (S.scope.extend s).frames.findSome? (·.find? x) = some t := ht
    show ∃ j, _ ∧ _ ∧ (S.scope.extend s).offset? S.table x = _
    by_cases hx : s.name = x
    · subst hx
      rw [Scope.findSome?_extend hfree] at ht
      cases ht
      refine ⟨0, by simp [List.findIdx?_cons, Symbol.declared], rfl, ?_⟩
      rw [Scope.offset?_extend S.table hfree, h.bytes]
      rfl
    · rw [Scope.findSome?_extend_of_ne hx] at ht
      obtain ⟨j, hj, hlive, hoffset⟩ := h.found ht
      refine ⟨j + 1, by simp [List.findIdx?_cons, Symbol.declared, hx, hj], hlive, ?_⟩
      rw [Scope.offset?_extend_of_ne S.table hx, hoffset]
      rfl

/-- A block begins with a frame of its own, and nothing in it. -/
theorem Mirrors.enter (h : S.Mirrors p live) : S.draw.enter.Mirrors p live := by
  refine ⟨?_, h.sized, h.absent, h.found⟩
  rw [← h.bytes]
  exact Nat.zero_add _

theorem Mirrors.leave (h : S.Mirrors p live) (hkeeps : S.draw.enter.Keeps S₁) :
    S₁.leave.Mirrors p live :=
  h.congr hkeeps.scope_leave hkeeps.table

theorem knows_of_type? {t : Tree.TypeName} {type : Ty} (hproper : t.lexeme.Proper)
    (h : S.type? t = some type) : type = t.type ∧ S.table.Knows type := by
  obtain ⟨hnames, rfl⟩ := (Context.type?_eq_some hproper).1 h
  refine ⟨rfl, fun c hc => ?_⟩
  cases t with
  | int | string => cases hc
  | named c' =>
    cases hc
    rw [← Option.ne_none_iff_isSome, ne_eq, ClassTable.find?_eq_none, not_not]
    exact hnames

/-- A moment in the elaboration of a program, and the variables that are alive then. -/
structure Amid (S : Standing) (p : Tree.Program) (live : Live) : Prop where
  wellFormed : p.WellFormed
  covers : p.Covers S.table
  sound : S.Sound
  mirrors : S.Mirrors p live

/-- What a statement declares is alive behind it. -/
theorem Elaborates.mirrors {s : Tree.Simple} {command : Command} (h : S.Elaborates s command S')
    (hproper : ∀ l ∈ s.yield, l.Proper) (hS : S.Amid p live) :
    S'.Mirrors p (s.declares ++ live) := by
  have hdeclare : ∀ (symbol : Symbol) {t : Tree.TypeName}, t.lexeme.Proper →
      S.type? t = some symbol.type → S.scope.findInnermost? symbol.name = none →
      (S.extend symbol).Mirrors p ((symbol.name, t.type) :: live) := by
    intro symbol t ht htype hfree
    obtain ⟨heq, hknows⟩ := knows_of_type? ht htype
    rw [← heq]
    exact hS.mirrors.extend hfree (Tree.Program.slotBytes_eq hS.wellFormed hS.covers hknows)
      (Tree.Program.slotWords_pos hS.wellFormed hS.covers hknows)
  cases h with
  | number htype hfree | create htype hfree | copy htype hfree =>
    rw [Tree.Simple.yield, List.forall_mem_cons] at hproper
    exact hdeclare (.onStack _ _) hproper.1 htype hfree
  | text htype hfree | string htype hfree =>
    rw [Tree.Simple.yield, List.forall_mem_cons] at hproper
    exact (hdeclare (.inData _ _) hproper.1 htype hfree).congr rfl rfl
  | printLiteral => exact hS.mirrors.congr rfl rfl
  | assignNumber | assignObject | call | print | printVariable => exact hS.mirrors

theorem Amid.elaborates (h : S.Amid p live) {s : Tree.Simple} {command : Command}
    (hs : S.Elaborates s command S') (hproper : ∀ l ∈ s.yield, l.Proper) :
    S'.Amid p (s.declares ++ live) :=
  ⟨h.wellFormed, hs.keeps.table ▸ h.covers, hs.sound h.sound, hs.mirrors hproper h⟩

theorem Amid.enter (h : S.Amid p live) : S.draw.enter.Amid p live :=
  ⟨h.wellFormed, h.covers, sound_enter h.sound, h.mirrors.enter⟩

theorem Amid.leave (h : S.Amid p live) {t : Tree.Block} {body : Body}
    (ht : ElaboratesBlock S.draw.enter t body S₁) : S₁.leave.Amid p live :=
  ⟨h.wellFormed, ht.keeps.table ▸ h.covers, ht.keeps.sound_leave h.sound,
    h.mirrors.leave ht.keeps⟩

end Standing

/-- At the beginning of a routine no variable is alive. -/
theorem Tree.Program.Enters.amid {p : Tree.Program} {S : Standing} {owner : Option String}
    {parameter : Option ClassLang.Parameter} (h : p.Enters S owner parameter)
    (hp : p.WellFormed) : S.Amid p [] := by
  refine ⟨hp, h.covers, h.sound, ?_, List.forall_mem_nil _, fun _ => rfl, fun {x s} hs => ?_⟩
  · rw [h.scope]
    rfl
  · rw [h.scope] at hs
    cases hs

end ClassLang
