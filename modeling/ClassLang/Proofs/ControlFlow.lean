/-
  ClassLang/Proofs/ControlFlow.lean
  =================================
  **Jumps only go around blocks.**

  The lines of a listing that have to do with control flow are its labels and its
  jumps, its *marks*.  `marksOf` picks them out with their line numbers, and
  `Body.placements` says of every block in a body where its marks stand.  The two
  agree (`mem_marksOf_code`), so whatever is to be said about jumps can be read off the
  placements: a block has one number of its own, and two blocks lie one behind the
  other or one inside the other (`Body.pairwise_placements`).

  `Structured` is what follows for a listing: every jump stays in it, jumps around
  blocks go forward and those of loops go back, and they never cross.
-/
import Mathlib.Data.List.Nodup
import Mathlib.Data.List.Pairwise
import ClassLang.Proofs.LabelClosure

namespace ClassLang

open Label (elseOf conditionOf exitOf)

/-! ### Labels and jumps by line number -/

def LabelAt (lines : List (Line Instruction)) (k : Nat) (name : String) : Prop :=
  lines[k]? = some (.label name)

def JumpAt (lines : List (Line Instruction)) (i : Nat) (condition : Jump) (target : String) :
    Prop :=
  lines[i]? = some (.instruction (.jump condition target))

/-- The label is one of the block with a number. -/
def Label.Carries (label : String) (id : Nat) : Prop :=
  label = elseOf id ∨ label = conditionOf id ∨ label = exitOf id

/-- From `first` to `last` is the way between a jump and its label, whichever comes first, and the
    label carries a number. -/
def Spans (lines : List (Line Instruction)) (id first last : Nat) : Prop :=
  ∃ i k condition target, JumpAt lines i condition target ∧ LabelAt lines k target ∧
    Label.Carries target id ∧ first = min i k ∧ last = max i k

/-- Exactly one line jumps to the label, under some condition. -/
def OnlyJump (lines : List (Line Instruction)) (i : Nat) (condition : Jump) (target : String) :
    Prop :=
  JumpAt lines i condition target ∧
    ∀ i' condition', JumpAt lines i' condition' target → i' = i ∧ condition' = condition

/-- Jumps make a structure of blocks. -/
structure Structured (lines : List (Line Instruction)) : Prop where
  closed : ∀ {i condition target}, JumpAt lines i condition target → ∃ k, LabelAt lines k target
  behindConditional : ∀ {k id}, LabelAt lines k (elseOf id) →
    ∃ i < k, ∃ condition, OnlyJump lines i condition (elseOf id)
  behindLoop : ∀ {k id}, LabelAt lines k (exitOf id) →
    ∃ i < k, ∃ condition, OnlyJump lines i condition (exitOf id)
  beforeLoop : ∀ {k id}, LabelAt lines k (conditionOf id) →
    ∃ i > k, OnlyJump lines i .always (conditionOf id) ∧ LabelAt lines (i + 1) (exitOf id)
  nested : ∀ {id id' first last first' last'}, id ≠ id' → Spans lines id first last →
    Spans lines id' first' last' →
    last < first' ∨ last' < first ∨ (first < first' ∧ last' < last) ∨
      (first' < first ∧ last < last')

/-! ### Marks -/

def Instruction.isJump : Instruction → Bool
  | .jump _ _ => true
  | _ => false

def Line.isMark : Line Instruction → Bool
  | .label _ => true
  | .instruction code => code.isJump

/-- The labels and jumps among lines that are numbered from `n` on. -/
def marksOf (lines : List (Line Instruction)) (n : Nat) : List (Line Instruction × Nat) :=
  (lines.zipIdx n).filter (·.1.isMark)

@[simp] theorem marksOf_nil (n : Nat) : marksOf [] n = [] := rfl

@[simp] theorem marksOf_label (name : String) (lines : List (Line Instruction)) (n : Nat) :
    marksOf (.label name :: lines) n = (.label name, n) :: marksOf lines (n + 1) := rfl

@[simp] theorem marksOf_jump (condition : Jump) (target : String) (lines : List (Line Instruction))
    (n : Nat) : marksOf (.instruction (.jump condition target) :: lines) n =
      (.instruction (.jump condition target), n) :: marksOf lines (n + 1) := rfl

theorem marksOf_append (lines lines' : List (Line Instruction)) (n : Nat) :
    marksOf (lines ++ lines') n = marksOf lines n ++ marksOf lines' (n + lines.length) := by
  rw [marksOf, List.zipIdx_append, List.filter_append]
  rfl

theorem marksOf_ofCode {code : List Instruction} (h : ∀ c ∈ code, c.isJump = false) (n : Nat) :
    marksOf (Line.ofCode code) n = [] := by
  rw [marksOf, List.filter_eq_nil_iff]
  rintro ⟨line, i⟩ hline
  have hmem : line ∈ Line.ofCode code := List.fst_mem_of_mem_zipIdx hline
  obtain ⟨c, hc, rfl⟩ := List.mem_map.1 hmem
  simp [Line.isMark, h c hc]

theorem mem_marksOf {lines : List (Line Instruction)} {line : Line Instruction} {i : Nat} :
    (line, i) ∈ marksOf lines 0 ↔ lines[i]? = some line ∧ line.isMark = true := by
  rw [marksOf, List.mem_filter, List.mem_zipIdx_iff_getElem?]

theorem labelAt_iff {lines : List (Line Instruction)} {k : Nat} {name : String} :
    LabelAt lines k name ↔ (.label name, k) ∈ marksOf lines 0 := by
  simp [LabelAt, mem_marksOf, Line.isMark]

theorem jumpAt_iff {lines : List (Line Instruction)} {i : Nat} {condition : Jump}
    {target : String} : JumpAt lines i condition target ↔
      (.instruction (.jump condition target), i) ∈ marksOf lines 0 := by
  simp [JumpAt, mem_marksOf, Line.isMark, Instruction.isJump]

/-! ### Code without jumps -/

theorem Value.jump_notMem_references (value : Value) (target : String) :
    .jump target ∉ value.references :=
  fun hmem => value.isData_references _ hmem

theorem Command.jump_notMem_references (command : Command) (target : String) :
    .jump target ∉ command.references := by
  intro hmem
  rcases command.references_cases _ hmem with hdata | ⟨_, -, heq⟩
  · exact hdata
  · cases heq

theorem marksOf_of_notMem {code : List Instruction}
    (h : ∀ target, .jump target ∉ code.flatMap Instruction.references) (n : Nat) :
    marksOf (Line.ofCode code) n = [] := by
  refine marksOf_ofCode (fun c hc => ?_) n
  cases c with
  | jump condition target => exact absurd (List.mem_flatMap.2 ⟨_, hc, by simp⟩) (h target)
  | _ => rfl

theorem Command.marksOf_code (command : Command) (n : Nat) :
    marksOf (Line.ofCode command.code) n = [] :=
  marksOf_of_notMem
    (fun target => command.references_code ▸ command.jump_notMem_references target) n

/-- The test before the jump around a block. -/
def Condition.test (condition : Condition) : List Instruction :=
  condition.left.fetch .eax ++ condition.right.fetch .ebx ++
    [.cmp (.register .eax) (.register .ebx)]

theorem Condition.jumpUnless_eq (condition : Condition) (target : String) :
    condition.jumpUnless target = condition.test ++ [.jump (.fails condition.relation) target] := by
  simp [jumpUnless, test]

theorem Condition.marksOf_jumpUnless (condition : Condition) (target : String) (n : Nat) :
    marksOf (Line.ofCode (condition.jumpUnless target)) n =
      [(.instruction (.jump (.fails condition.relation) target), n + condition.test.length)] := by
  have htest : marksOf (Line.ofCode condition.test) n = [] := by
    refine marksOf_of_notMem (fun target => ?_) n
    simp [test, Value.references_fetch, Value.jump_notMem_references]
  have hsplit : Line.ofCode (condition.jumpUnless target) =
      Line.ofCode condition.test ++ [.instruction (.jump (.fails condition.relation) target)] := by
    rw [jumpUnless_eq, Line.ofCode, List.map_append]
    rfl
  rw [hsplit, marksOf_append, htest]
  simp [Line.ofCode]

/-! ### Placements -/

/-- Where a block lies: its first line, the line of the jump around it, and the line behind its
    inner statements. -/
structure Placement where
  head : Branch
  start : Nat
  jump : Nat
  back : Nat
deriving DecidableEq, Repr

namespace Placement

/-- The last line of a block.  A conditional block ends with the label behind it, a loop has the
    jump back before that. -/
def last (p : Placement) : Nat :=
  match p.head.kind with
  | .conditional => p.back
  | .loop => p.back + 1

/-- The labels and jumps of a block, those inside it apart. -/
def marks (p : Placement) : List (Line Instruction × Nat) :=
  match p.head.kind with
  | .conditional =>
      [(.instruction (.jump (.fails p.head.condition.relation) (elseOf p.head.id)), p.jump),
        (.label (elseOf p.head.id), p.back)]
  | .loop =>
      [(.label (conditionOf p.head.id), p.start),
        (.instruction (.jump (.fails p.head.condition.relation) (exitOf p.head.id)), p.jump),
        (.instruction (.jump .always (conditionOf p.head.id)), p.back),
        (.label (exitOf p.head.id), p.back + 1)]

/-- The lines of a block come one behind the other. -/
structure Ordered (p : Placement) : Prop where
  start_le : p.start ≤ p.jump
  jump_lt : p.jump < p.back
  start_lt : p.head.kind = .loop → p.start < p.jump

/-- The second block lies behind the first one, or inside it. -/
def Before (p q : Placement) : Prop :=
  p.last < q.start ∨ (p.jump < q.start ∧ q.last < p.back)

end Placement

namespace Body

/-- Where the blocks of a body lie, if its first line has the number `n`. -/
def placements : Body → Nat → List Placement
  | .finish _, _ => []
  | .simple command rest, n => rest.placements (n + command.code.length)
  | .branch head inner rest, n =>
      let inside := n + head.opening.length
      let back := inside + inner.code.length
      ⟨head, n, inside - 1, back⟩ ::
        (inner.placements inside ++ rest.placements (back + head.closing.length))

theorem heads_placements (body : Body) (n : Nat) :
    (body.placements n).map (·.head) = body.heads := by
  induction body generalizing n with
  | finish bytes => rfl
  | simple command rest ih => exact ih _
  | branch head inner rest ihInner ihRest => simp [placements, heads, ihInner, ihRest]

theorem length_opening (head : Branch) :
    head.opening.length = head.condition.test.length + 1 +
      match head.kind with
      | .conditional => 0
      | .loop => 1 := by
  obtain ⟨kind, condition, id⟩ := head
  cases kind <;> simp [Branch.opening, Condition.jumpUnless_eq, Line.ofCode]

theorem length_closing (head : Branch) :
    head.closing.length =
      match head.kind with
      | .conditional => 1
      | .loop => 2 := by
  obtain ⟨kind, condition, id⟩ := head
  cases kind <;> rfl

/-- The labels and jumps around a block. -/
theorem marksOf_around (head : Branch) (n back : Nat) :
    marksOf head.opening n ++ marksOf head.closing back =
      (⟨head, n, n + head.opening.length - 1, back⟩ : Placement).marks := by
  have hopening := length_opening head
  obtain ⟨kind, condition, id⟩ := head
  cases kind with
  | conditional =>
    simp only at hopening
    have hjump : n + (condition.test.length + 1 + 0) - 1 = n + condition.test.length := by omega
    rw [hopening, hjump]
    simp only [Placement.marks, Branch.opening, Branch.closing, Condition.marksOf_jumpUnless]
    rfl
  | loop =>
    simp only at hopening
    have hjump : n + (condition.test.length + 1 + 1) - 1 = n + 1 + condition.test.length := by
      omega
    rw [hopening, hjump]
    simp only [Placement.marks, Branch.opening, Branch.closing, marksOf_label,
      Condition.marksOf_jumpUnless]
    rfl

/-- The labels and jumps in the code of a body are those of its blocks. -/
theorem mem_marksOf_code (body : Body) (n : Nat) (mark : Line Instruction × Nat) :
    mark ∈ marksOf body.code n ↔ ∃ p ∈ body.placements n, mark ∈ p.marks := by
  induction body generalizing n with
  | finish bytes =>
    have hrelease : marksOf (code (.finish bytes)) n = [] := by
      simp only [code, releaseCode]
      split <;> rfl
    simp [hrelease, placements]
  | simple command rest ih =>
    rw [code, marksOf_append, command.marksOf_code, List.nil_append, placements, ih]
    simp [Line.ofCode]
  | branch head inner rest ihInner ihRest =>
    have haround := marksOf_around head n (n + head.opening.length + inner.code.length)
    simp only [code, placements, marksOf_append, List.length_append, ← Nat.add_assoc,
      List.mem_append, ihInner, ihRest, List.exists_mem_cons_iff, ← haround, or_and_right,
      exists_or]
    rw [or_assoc, or_or_or_comm]

theorem placements_range (body : Body) (n : Nat) :
    ∀ p ∈ body.placements n, p.Ordered ∧ n ≤ p.start ∧ p.last < n + body.code.length := by
  induction body generalizing n with
  | finish bytes => simp [placements]
  | simple command rest ih =>
    intro p hp
    obtain ⟨hordered, hstart, hlast⟩ := ih _ p hp
    have hlength : (Line.ofCode command.code).length = command.code.length := by simp [Line.ofCode]
    rw [code, List.length_append, hlength]
    exact ⟨hordered, by omega, by omega⟩
  | branch head inner rest ihInner ihRest =>
    have hopening := length_opening head
    have hclosing := length_closing head
    have hlength : (code (.branch head inner rest)).length =
        head.opening.length + inner.code.length + head.closing.length + rest.code.length := by
      simp only [code, List.length_append]
    intro p hp
    rw [placements, List.mem_cons, List.mem_append] at hp
    rcases hp with rfl | hp | hp
    · obtain ⟨kind, condition, id⟩ := head
      cases kind <;> simp only at hopening hclosing
      · exact ⟨⟨by dsimp only; omega, by dsimp only; omega, fun h => by cases h⟩, Nat.le_refl _,
          by simp only [Placement.last]; omega⟩
      · exact ⟨⟨by dsimp only; omega, by dsimp only; omega, fun _ => by dsimp only; omega⟩,
          Nat.le_refl _, by simp only [Placement.last]; omega⟩
    · obtain ⟨hordered, hstart, hlast⟩ := ihInner _ p hp
      exact ⟨hordered, by omega, by omega⟩
    · obtain ⟨hordered, hstart, hlast⟩ := ihRest _ p hp
      exact ⟨hordered, by omega, by omega⟩

/-- Of two blocks, one lies behind the other or inside it. -/
theorem pairwise_placements (body : Body) (n : Nat) :
    (body.placements n).Pairwise Placement.Before := by
  induction body generalizing n with
  | finish bytes => exact .nil
  | simple command rest ih => exact ih _
  | branch head inner rest ihInner ihRest =>
    have hopening := length_opening head
    have hclosing := length_closing head
    rw [placements, List.pairwise_cons, List.pairwise_append]
    refine ⟨fun q hq => ?_, ihInner _, ihRest _, fun p hp q hq => ?_⟩
    · rcases List.mem_append.1 hq with hq | hq
      · obtain ⟨hordered, hstart, hlast⟩ := inner.placements_range _ q hq
        exact .inr ⟨by dsimp only; omega, hlast⟩
      · obtain ⟨hordered, hstart, hlast⟩ := rest.placements_range _ q hq
        refine .inl ?_
        obtain ⟨kind, condition, id⟩ := head
        cases kind <;> simp only [Placement.last] at hclosing ⊢ <;> omega
    · obtain ⟨-, -, hlast⟩ := inner.placements_range _ p hp
      obtain ⟨-, hstart, -⟩ := rest.placements_range _ q hq
      exact .inl (by omega)

end Body

/-! ### Listings -/

namespace Placement

variable {p q : Placement} {name target : String} {condition : Jump} {k i : Nat}

theorem label_mem_marks (h : (.label name, k) ∈ p.marks) :
    (p.head.kind = .conditional ∧ name = elseOf p.head.id ∧ k = p.back) ∨
      (p.head.kind = .loop ∧ name = conditionOf p.head.id ∧ k = p.start) ∨
      (p.head.kind = .loop ∧ name = exitOf p.head.id ∧ k = p.back + 1) := by
  unfold marks at h
  split at h <;> simp_all

theorem jump_mem_marks (h : (.instruction (.jump condition target), i) ∈ p.marks) :
    (p.head.kind = .conditional ∧ condition = .fails p.head.condition.relation ∧
        target = elseOf p.head.id ∧ i = p.jump) ∨
      (p.head.kind = .loop ∧ condition = .fails p.head.condition.relation ∧
        target = exitOf p.head.id ∧ i = p.jump) ∨
      (p.head.kind = .loop ∧ condition = .always ∧ target = conditionOf p.head.id ∧
        i = p.back) := by
  unfold marks at h
  split at h <;> simp_all [and_assoc]

theorem label_of_mem_marks (h : (.label name, k) ∈ p.marks) : name ∈ p.head.labels := by
  rcases label_mem_marks h with ⟨hkind, rfl, -⟩ | ⟨hkind, rfl, -⟩ | ⟨hkind, rfl, -⟩ <;>
    simp [Branch.labels, hkind]

theorem target_of_mem_marks (h : (.instruction (.jump condition target), i) ∈ p.marks) :
    target ∈ p.head.labels := by
  rcases jump_mem_marks h with ⟨hkind, -, rfl, -⟩ | ⟨hkind, -, rfl, -⟩ | ⟨hkind, -, rfl, -⟩ <;>
    simp [Branch.labels, hkind]

/-- A block has one jump to each of its labels. -/
theorem jump_unique {condition' : Jump} {i' : Nat}
    (h : (.instruction (.jump condition target), i) ∈ p.marks)
    (h' : (.instruction (.jump condition' target), i') ∈ p.marks) :
    i' = i ∧ condition' = condition := by
  rcases jump_mem_marks h with ⟨hkind, rfl, rfl, rfl⟩ | ⟨hkind, rfl, rfl, rfl⟩ |
      ⟨hkind, rfl, rfl, rfl⟩ <;>
    rcases jump_mem_marks h' with ⟨hkind', rfl, hname, rfl⟩ | ⟨hkind', rfl, hname, rfl⟩ |
      ⟨hkind', rfl, hname, rfl⟩ <;>
    simp only [hkind, reduceCtorEq] at hkind'
  · exact ⟨rfl, rfl⟩
  · exact ⟨rfl, rfl⟩
  · exact absurd hname.symm (Label.conditionOf_ne_exitOf _ _)
  · exact absurd hname (Label.conditionOf_ne_exitOf _ _)
  · exact ⟨rfl, rfl⟩

/-- The way between a jump of a block and its label begins before the inner statements and ends
    behind them. -/
theorem span_of_mem_marks (hordered : p.Ordered)
    (hjump : (.instruction (.jump condition target), i) ∈ p.marks)
    (hlabel : (.label target, k) ∈ p.marks) :
    p.start ≤ min i k ∧ min i k ≤ p.jump ∧ p.back ≤ max i k ∧ max i k ≤ p.last := by
  obtain ⟨hstart, hback, hlt⟩ := hordered
  rcases jump_mem_marks hjump with ⟨hkind, -, rfl, rfl⟩ | ⟨hkind, -, rfl, rfl⟩ |
      ⟨hkind, -, rfl, rfl⟩ <;>
    rcases label_mem_marks hlabel with ⟨hkind', hname, rfl⟩ | ⟨hkind', hname, rfl⟩ |
      ⟨hkind', hname, rfl⟩ <;>
    simp only [hkind, reduceCtorEq] at hkind' <;>
    simp only [last, hkind]
  · omega
  · exact absurd hname.symm (Label.conditionOf_ne_exitOf _ _)
  · omega
  · have := hlt hkind
    omega
  · exact absurd hname (Label.conditionOf_ne_exitOf _ _)

end Placement

theorem Label.Carries.mem_labels {label : String} {id : Nat} (h : Label.Carries label id) :
    ∃ head : Branch, head.id = id ∧ label ∈ head.labels := by
  rcases h with rfl | rfl | rfl
  · exact ⟨⟨.conditional, ⟨.literal 0, .equal, .literal 0⟩, id⟩, rfl, by simp [Branch.labels]⟩
  · exact ⟨⟨.loop, ⟨.literal 0, .equal, .literal 0⟩, id⟩, rfl, by simp [Branch.labels]⟩
  · exact ⟨⟨.loop, ⟨.literal 0, .equal, .literal 0⟩, id⟩, rfl, by simp [Branch.labels]⟩

namespace Routine

def placements (r : Routine) : List Placement := r.body.placements (1 + r.opening.length)

/-- The labels and jumps of a listing: the label of the routine, and those of its blocks. -/
theorem mem_marksOf_listing (r : Routine) (mark : Line Instruction × Nat) :
    mark ∈ marksOf r.listing.lines 0 ↔
      mark = (.label r.entryLabel, 0) ∨ ∃ p ∈ r.placements, mark ∈ p.marks := by
  have hopening : ∀ n, marksOf (Line.ofCode r.opening) n = [] := by
    intro n
    unfold Routine.opening
    split <;> rfl
  have hclosing : ∀ n, marksOf (Line.ofCode r.closing) n = [] := by
    intro n
    unfold Routine.closing
    split <;> rfl
  have hlength : (Line.ofCode r.opening).length = r.opening.length := by simp [Line.ofCode]
  simp only [Routine.listing, List.cons_append, marksOf_label, marksOf_append, hopening, hclosing,
    List.nil_append, List.append_nil, List.mem_cons, Body.mem_marksOf_code, hlength, placements,
    Nat.zero_add]

theorem ordered_of_mem_placements {r : Routine} {p : Placement} (h : p ∈ r.placements) :
    p.Ordered :=
  (r.body.placements_range _ p h).1

theorem placement_unique {r : Routine} (hids : r.body.ids.Nodup) {p q : Placement}
    (hp : p ∈ r.placements) (hq : q ∈ r.placements) (hid : p.head.id = q.head.id) : p = q := by
  have hnodup : (r.placements.map fun p => p.head.id).Nodup := by
    have hheads := r.body.heads_placements (1 + r.opening.length)
    rw [Body.ids, ← hheads, List.map_map] at hids
    exact hids
  exact List.inj_on_of_nodup_map hnodup hp hq hid

variable {r : Routine}

theorem exists_of_labelAt (hentry : ¬ Label.Numbered r.entryLabel) {k : Nat} {name : String}
    (hname : Label.Numbered name) (h : LabelAt r.listing.lines k name) :
    ∃ p ∈ r.placements, (.label name, k) ∈ p.marks := by
  rcases (r.mem_marksOf_listing _).1 (labelAt_iff.1 h) with heq | hp
  · cases heq
    exact absurd hname hentry
  · exact hp

theorem exists_of_jumpAt {i : Nat} {condition : Jump} {target : String}
    (h : JumpAt r.listing.lines i condition target) :
    ∃ p ∈ r.placements, (.instruction (.jump condition target), i) ∈ p.marks := by
  rcases (r.mem_marksOf_listing _).1 (jumpAt_iff.1 h) with heq | hp
  · cases heq
  · exact hp

theorem labelAt_of_mem {p : Placement} (hp : p ∈ r.placements) {k : Nat} {name : String}
    (h : (.label name, k) ∈ p.marks) : LabelAt r.listing.lines k name :=
  labelAt_iff.2 ((r.mem_marksOf_listing _).2 (.inr ⟨p, hp, h⟩))

theorem jumpAt_of_mem {p : Placement} (hp : p ∈ r.placements) {i : Nat} {condition : Jump}
    {target : String} (h : (.instruction (.jump condition target), i) ∈ p.marks) :
    JumpAt r.listing.lines i condition target :=
  jumpAt_iff.2 ((r.mem_marksOf_listing _).2 (.inr ⟨p, hp, h⟩))

/-- A jump to a label of a block is one of that block. -/
theorem mem_of_jumpAt (hids : r.body.ids.Nodup) {p : Placement} (hp : p ∈ r.placements) {i : Nat}
    {condition : Jump} {target : String} (htarget : target ∈ p.head.labels)
    (h : JumpAt r.listing.lines i condition target) :
    (.instruction (.jump condition target), i) ∈ p.marks := by
  obtain ⟨q, hq, hmark⟩ := exists_of_jumpAt h
  have hid := Branch.eq_of_mem_labels (Placement.target_of_mem_marks hmark) htarget
  exact placement_unique hids hq hp hid ▸ hmark

theorem onlyJump_of_mem (hids : r.body.ids.Nodup) {p : Placement} (hp : p ∈ r.placements) {i : Nat}
    {condition : Jump} {target : String}
    (h : (.instruction (.jump condition target), i) ∈ p.marks) :
    OnlyJump r.listing.lines i condition target :=
  ⟨jumpAt_of_mem hp h, fun _ _ hjump => Placement.jump_unique h
    (mem_of_jumpAt hids hp (Placement.target_of_mem_marks h) hjump)⟩

/-- The way between a jump and its label belongs to a block. -/
theorem exists_of_spans (hentry : ¬ Label.Numbered r.entryLabel) (hids : r.body.ids.Nodup)
    {id first last : Nat} (h : Spans r.listing.lines id first last) :
    ∃ p ∈ r.placements, p.head.id = id ∧ p.start ≤ first ∧ first ≤ p.jump ∧ p.back ≤ last ∧
      last ≤ p.last := by
  obtain ⟨i, k, condition, target, hjump, hlabel, hcarries, rfl, rfl⟩ := h
  obtain ⟨head, rfl, htarget⟩ := hcarries.mem_labels
  obtain ⟨p, hp, hmark⟩ := exists_of_labelAt hentry (Branch.numbered_of_mem_labels htarget) hlabel
  have hmem := Placement.label_of_mem_marks hmark
  exact ⟨p, hp, Branch.eq_of_mem_labels hmem htarget,
    Placement.span_of_mem_marks (ordered_of_mem_placements hp) (mem_of_jumpAt hids hp hmem hjump)
      hmark⟩

theorem before_or_before {p q : Placement} (hp : p ∈ r.placements) (hq : q ∈ r.placements)
    (hne : p.head.id ≠ q.head.id) : p.Before q ∨ q.Before p := by
  let Apart (p q : Placement) : Prop := p.head.id ≠ q.head.id → p.Before q ∨ q.Before p
  have hpairwise : r.placements.Pairwise Apart :=
    (r.body.pairwise_placements (1 + r.opening.length)).imp fun h _ => .inl h
  have : Std.Symm Apart := ⟨fun p q h hne => (h hne.symm).symm⟩
  exact hpairwise.forall_of_forall (fun p _ hne => absurd rfl hne) hp hq hne

theorem structured (hentry : ¬ Label.Numbered r.entryLabel) (hids : r.body.ids.Nodup) :
    Structured r.listing.lines := by
  refine ⟨fun {i condition target} h => ?_, fun {k id} h => ?_, fun {k id} h => ?_,
    fun {k id} h => ?_, fun {id id' first last first' last'} hne h h' => ?_⟩
  · obtain ⟨p, hp, hmark⟩ := exists_of_jumpAt h
    rcases Placement.jump_mem_marks hmark with ⟨hkind, -, rfl, -⟩ | ⟨hkind, -, rfl, -⟩ |
        ⟨hkind, -, rfl, -⟩
    · exact ⟨p.back, labelAt_of_mem hp (by simp [Placement.marks, hkind])⟩
    · exact ⟨p.back + 1, labelAt_of_mem hp (by simp [Placement.marks, hkind])⟩
    · exact ⟨p.start, labelAt_of_mem hp (by simp [Placement.marks, hkind])⟩
  · obtain ⟨p, hp, hmark⟩ := exists_of_labelAt hentry ⟨id, .inl rfl⟩ h
    have hordered := ordered_of_mem_placements hp
    rcases Placement.label_mem_marks hmark with ⟨hkind, hname, rfl⟩ | ⟨-, hname, -⟩ | ⟨-, hname, -⟩
    · exact ⟨p.jump, hordered.jump_lt, .fails p.head.condition.relation,
        onlyJump_of_mem hids hp (by simp [Placement.marks, hkind, hname])⟩
    · exact absurd hname (Label.elseOf_ne_conditionOf _ _)
    · exact absurd hname (Label.elseOf_ne_exitOf _ _)
  · obtain ⟨p, hp, hmark⟩ := exists_of_labelAt hentry ⟨id, .inr (.inr rfl)⟩ h
    have hordered := ordered_of_mem_placements hp
    rcases Placement.label_mem_marks hmark with ⟨-, hname, -⟩ | ⟨-, hname, -⟩ | ⟨hkind, hname, rfl⟩
    · exact absurd hname.symm (Label.elseOf_ne_exitOf _ _)
    · exact absurd hname.symm (Label.conditionOf_ne_exitOf _ _)
    · have hlt := hordered.jump_lt
      exact ⟨p.jump, by omega, .fails p.head.condition.relation,
        onlyJump_of_mem hids hp (by simp [Placement.marks, hkind, hname])⟩
  · obtain ⟨p, hp, hmark⟩ := exists_of_labelAt hentry ⟨id, .inr (.inl rfl)⟩ h
    have hordered := ordered_of_mem_placements hp
    rcases Placement.label_mem_marks hmark with ⟨-, hname, -⟩ | ⟨hkind, hname, rfl⟩ | ⟨-, hname, -⟩
    · exact absurd hname.symm (Label.elseOf_ne_conditionOf _ _)
    · have hid := Label.conditionOf_injective hname
      have hle := hordered.start_le
      have hlt := hordered.jump_lt
      exact ⟨p.back, by omega,
        onlyJump_of_mem hids hp (by simp [Placement.marks, hkind, hname]),
        labelAt_of_mem hp (by simp [Placement.marks, hkind, hid])⟩
    · exact absurd hname (Label.conditionOf_ne_exitOf _ _)
  · obtain ⟨p, hp, rfl, hstart, hjump, hback, hlast⟩ := exists_of_spans hentry hids h
    obtain ⟨q, hq, rfl, hstart', hjump', hback', hlast'⟩ := exists_of_spans hentry hids h'
    rcases before_or_before hp hq hne with (hbehind | ⟨hin, hout⟩) | (hbehind | ⟨hin, hout⟩)
    · exact .inl (by omega)
    · exact .inr (.inr (.inl ⟨by omega, by omega⟩))
    · exact .inr (.inl (by omega))
    · exact .inr (.inr (.inr ⟨by omega, by omega⟩))

end Routine

/-! ### Programs -/

/-- The label of a routine is never that of a block. -/
theorem Compilation.LabelsTidy.not_numbered {compilation : Compilation}
    (h : compilation.LabelsTidy) {r : Routine} (hr : r ∈ compilation.routines) :
    ¬ Label.Numbered r.entryLabel := by
  intro hnumbered
  rcases List.mem_cons.1 hr with rfl | hr
  · rw [Routine.entryLabel, h.entry, Label.entry] at hnumbered
    exact Label.not_numbered_of_mem_fixed (List.mem_cons_self ..) hnumbered
  · have hgenerated := h.claimed r hr
    rw [hnumbered.isGenerated] at hgenerated
    cases hgenerated

theorem Compilation.LabelsTidy.structured {compilation : Compilation}
    (h : compilation.LabelsTidy) {r : Routine} (hr : r ∈ compilation.routines) :
    Structured r.listing.lines := by
  have hids : r.body.ids.Nodup :=
    (List.nodup_flatMap.1 h.ids).1 r hr
  exact Routine.structured (h.not_numbered hr) hids

/-- In every accepted program, whatever a listing refers to is defined, and its jumps make a
    structure of blocks. -/
theorem closed_and_structured {source : String} {compilation : Compilation}
    (h : compile source = .ok compilation) :
    ∀ listing ∈ compilation.listings,
      (∀ ref ∈ references listing.lines, compilation.Defines listing.lines ref) ∧
        Structured listing.lines := by
  obtain ⟨tokens, p, -, -, hproper, helaborates⟩ := exists_elaborates_of_compile h
  have htidy := helaborates.labelsTidy hproper
  intro listing hlisting
  obtain ⟨r, hr, rfl⟩ := List.mem_map.1 hlisting
  exact ⟨helaborates.defines hproper hr, htidy.structured hr⟩

/-- A text with a loop in a conditional block in a loop, a recursive method and strings. -/
def nestedText : String :=
  "class A \x7b int n; f(int k) \x7b while (this.n < k) \x7b if (k > 1) \x7b " ++
    "while (this.n < 1) \x7b this.n = k; prints(\"in\"); \x7d \x7d this.f(k); \x7d \x7d \x7d " ++
    "main() \x7b string s = \"out\"; A a = A.CreateInstance(); a.f(3); prints(s); print(a.n); \x7d"

theorem closed_and_structured_nested :
    ∃ compilation, compile nestedText = .ok compilation ∧
      ∀ listing ∈ compilation.listings,
        (∀ ref ∈ references listing.lines, compilation.Defines listing.lines ref) ∧
          Structured listing.lines := by
  have hok : (compile nestedText).isOk = true := by
    decide +kernel
  obtain ⟨compilation, hcompile⟩ := exists_of_isOk hok
  exact ⟨compilation, hcompile, closed_and_structured hcompile⟩

end ClassLang
