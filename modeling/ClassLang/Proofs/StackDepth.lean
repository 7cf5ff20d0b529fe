/-
  ClassLang/Proofs/StackDepth.lean
  ================================
  **The stack is as deep as the variables that are alive.**

  The depth at a line is what the lines above it have pushed, popped, allocated and
  released, summed up along the listing.  A listing is run along its jumps, so the sum
  says something about a run only if it is the same at a jump and at its label.

  `Floats` is the invariant of a piece of code: what it leaves on the stack, and how
  far down it goes in between.  A statement leaves what it declares and never goes
  below where it began; a block leaves nothing.  From that the depth is known at each
  statement boundary (`boundary_depth`) and at both ends of each jump (`level`), and
  `balanced_routines` collects it for all listings of a program.
-/
import ClassLang.Proofs.LiveVariables
import ClassLang.Proofs.SemanticPreservation

namespace ClassLang

/-! ### Depth -/

/-- The bytes by which an instruction makes the stack deeper.  A call gives back what it takes. -/
def Instruction.pushed : Instruction → Int
  | .push _ => 4
  | .pop _ => -4
  | .sub .esp (.immediate n) => n
  | .add .esp (.immediate n) => -n
  | _ => 0

def Line.pushed : Line Instruction → Int
  | .label _ => 0
  | .instruction code => code.pushed

/-- The net bytes that lines push. -/
def pushed : List (Line Instruction) → Int
  | [] => 0
  | line :: lines => line.pushed + pushed lines

/-- The depth before a line: the net bytes that the lines above it push. -/
def depthAt (lines : List (Line Instruction)) (i : Nat) : Int :=
  pushed (lines.take i)

section

variable (lines lines' : List (Line Instruction))

@[simp] theorem pushed_append : pushed (lines ++ lines') = pushed lines + pushed lines' := by
  induction lines with
  | nil => simp [pushed]
  | cons line lines ih =>
    rw [List.cons_append, pushed, pushed, ih]
    omega

theorem depthAt_append (i : Nat) :
    depthAt (lines ++ lines') i = depthAt lines i + depthAt lines' (i - lines.length) := by
  rw [depthAt, List.take_append, pushed_append]
  rfl

theorem depthAt_length_add (i : Nat) :
    depthAt (lines ++ lines') (lines.length + i) = pushed lines + depthAt lines' i := by
  rw [depthAt, List.take_length_add_append, pushed_append]
  rfl

theorem depthAt_of_le {i : Nat} (h : i ≤ lines.length) :
    depthAt (lines ++ lines') i = depthAt lines i := by
  rw [depthAt, List.take_append_of_le_length h]
  rfl

theorem depthAt_length : depthAt (lines ++ lines') lines.length = pushed lines := by
  rw [depthAt, List.take_left]

variable {lines} in
theorem depthAt_succ {i : Nat} {line : Line Instruction} (h : lines[i]? = some line) :
    depthAt lines (i + 1) = depthAt lines i + line.pushed := by
  rw [depthAt, List.take_add_one, h, pushed_append]
  exact congrArg _ (Int.add_zero _)

end

/-! ### Code that floats -/

/-- Lines leave `net` bytes on the stack, and until then it is never more than `-low` bytes below
    where it was. -/
structure Floats (low net : Int) (lines : List (Line Instruction)) : Prop where
  pushed : pushed lines = net
  above : ∀ i, low ≤ depthAt lines i

section

variable {low low' net net' : Int} {lines lines' : List (Line Instruction)}

theorem Floats.low_le_zero (h : Floats low net lines) : low ≤ 0 :=
  h.above 0

theorem Floats.append (h : Floats low net lines) (h' : Floats low' net' lines')
    (hle : low ≤ net + low') : Floats low (net + net') (lines ++ lines') := by
  refine ⟨by rw [pushed_append, h.pushed, h'.pushed], fun i => ?_⟩
  rw [depthAt_append]
  by_cases hi : i ≤ lines.length
  · have hzero : depthAt lines' (i - lines.length) = 0 := by
      rw [Nat.sub_eq_zero_of_le hi]
      rfl
    have habove := h.above i
    omega
  · have hwhole : depthAt lines i = net := by
      rw [depthAt, List.take_of_length_le (by omega), h.pushed]
    have habove := h'.above (i - lines.length)
    omega

theorem Floats.mono (h : Floats low net lines) (hle : low' ≤ low) : Floats low' net lines :=
  ⟨h.pushed, fun i => Int.le_trans hle (h.above i)⟩

/-- Lines behind others that leave nothing. -/
theorem Floats.after (h : Floats 0 0 lines) (h' : Floats low net lines') :
    Floats low net (lines ++ lines') := by
  have happend := (h.mono h'.low_le_zero).append h' (by omega)
  rwa [Int.zero_add] at happend

theorem floats_nil : Floats 0 0 [] :=
  ⟨rfl, fun i => by rw [depthAt, List.take_nil]; exact Int.le_refl 0⟩

theorem floats_line (line : Line Instruction) : Floats (min 0 line.pushed) line.pushed [line] := by
  refine ⟨Int.add_zero _, fun i => ?_⟩
  cases i with
  | zero =>
    show min 0 line.pushed ≤ 0
    omega
  | succ i =>
    have hall : depthAt [line] (i + 1) = line.pushed := by simp [depthAt, ClassLang.pushed]
    omega

/-- Lines that only push. -/
theorem floats_of_nonneg (h : ∀ line ∈ lines, 0 ≤ line.pushed) :
    Floats 0 (ClassLang.pushed lines) lines := by
  induction lines with
  | nil => exact floats_nil
  | cons line lines ih =>
    have hline : 0 ≤ line.pushed := h line List.mem_cons_self
    have hrest := ih fun l hl => h l (List.mem_cons_of_mem _ hl)
    have happend := (floats_line line).append hrest (by omega)
    rw [Int.min_eq_left hline] at happend
    exact happend

/-- Lines that leave the stack pointer alone. -/
theorem floats_of_still (h : ∀ line ∈ lines, line.pushed = 0) : Floats 0 0 lines := by
  have hnet : ClassLang.pushed lines = 0 := by
    induction lines with
    | nil => rfl
    | cons line lines ih =>
      rw [ClassLang.pushed, h line List.mem_cons_self,
        ih fun l hl => h l (List.mem_cons_of_mem _ hl)]
      rfl
  have hfloats := floats_of_nonneg fun line hline => Int.le_of_eq (h line hline).symm
  rwa [hnet] at hfloats

theorem depthAt_of_still (h : ∀ line ∈ lines, line.pushed = 0) (i : Nat) : depthAt lines i = 0 :=
  (floats_of_still fun line hline => h line (List.mem_of_mem_take hline)).pushed

end

/-! ### What pieces of code do to the two pointers -/

namespace Instruction

/-- The register that an instruction names as its target. -/
def target? : Instruction → Option Register
  | .mov (.register r) _ => some r
  | .lea r _ | .pop r | .add r _ | .sub r _ | .xor r _ | .neg r | .inc r | .dec r => some r
  | _ => none

/-- The instruction only sets a register. -/
def Sets (target : Register) (code : Instruction) : Prop :=
  code.pushed = 0 ∧ code.target? = some target

/-- The instruction neither sets the frame pointer nor returns. -/
def KeepsFrame (code : Instruction) : Prop :=
  code.target? ≠ some .ebp ∧ code ≠ .ret

/-- The instruction leaves both pointers alone. -/
def Calm (code : Instruction) : Prop :=
  code.pushed = 0 ∧ code.KeepsFrame

theorem Sets.keepsFrame {target : Register} {code : Instruction} (h : code.Sets target)
    (htarget : target ≠ .ebp) : code.KeepsFrame := by
  refine ⟨fun heq => ?_, ?_⟩
  · rw [h.2, Option.some.injEq] at heq
    exact htarget heq
  · rintro rfl
    cases h.2

end Instruction

open Instruction (Sets KeepsFrame Calm)

theorem Storage.sets_objectAddress (storage : Storage) (target : Register) :
    ∀ code ∈ storage.objectAddress target, code.Sets target := by
  cases storage <;> simp [objectAddress, Sets, Instruction.load, Instruction.pushed,
    Instruction.target?]

theorem Storage.sets_fieldAddress (storage : Storage) (index : Nat) (target : Register) :
    ∀ code ∈ storage.fieldAddress index target, code.Sets target := by
  have hfield : (Instruction.lea target (.field target index)).Sets target := ⟨rfl, rfl⟩
  cases storage with
  | frame offset => exact List.forall_mem_singleton.2 ⟨rfl, rfl⟩
  | parameter | data =>
    refine List.forall_mem_append.2 ⟨Storage.sets_objectAddress _ _, ?_⟩
    split
    · exact List.forall_mem_nil _
    · exact List.forall_mem_singleton.2 hfield

theorem Storage.sets_fieldValue (storage : Storage) (index : Nat) (target : Register) :
    ∀ code ∈ storage.fieldValue index target, code.Sets target := by
  cases storage with
  | frame offset => exact List.forall_mem_singleton.2 ⟨rfl, rfl⟩
  | parameter | data =>
    exact List.forall_mem_append.2 ⟨Storage.sets_objectAddress _ _,
      List.forall_mem_singleton.2 ⟨rfl, rfl⟩⟩

theorem Place.sets_address (place : Place) : ∀ code ∈ place.address, code.Sets .ebx := by
  cases place with
  | binding symbol storage =>
    unfold Place.address
    dsimp only
    split
    · exact List.forall_mem_singleton.2 ⟨rfl, rfl⟩
    · exact List.forall_mem_singleton.2 ⟨rfl, rfl⟩
    · exact Storage.sets_objectAddress _ .ebx
  | receiverField field index =>
    refine List.forall_mem_cons.2 ⟨⟨rfl, rfl⟩, ?_⟩
    split
    · exact List.forall_mem_nil _
    · exact List.forall_mem_singleton.2 ⟨rfl, rfl⟩
  | objectField owner storage field index => exact storage.sets_fieldAddress index .ebx

theorem Value.sets_fetch (value : Value) (target : Register) :
    ∀ code ∈ value.fetch target, code.Sets target := by
  cases value with
  | literal n => exact List.forall_mem_singleton.2 ⟨rfl, rfl⟩
  | place p =>
    cases p with
    | binding symbol storage =>
      unfold Value.fetch Place.fetch
      dsimp only
      split
      · exact List.forall_mem_singleton.2 ⟨rfl, rfl⟩
      · exact List.forall_mem_singleton.2 ⟨rfl, rfl⟩
      · exact Storage.sets_objectAddress _ target
    | receiverField field index =>
      exact List.forall_mem_cons.2 ⟨⟨rfl, rfl⟩, List.forall_mem_singleton.2 ⟨rfl, rfl⟩⟩
    | objectField owner storage field index => exact storage.sets_fieldValue index target

theorem Receiver.sets_address (receiver : Receiver) :
    ∀ code ∈ receiver.address, code.Sets .eax := by
  cases receiver with
  | current owner => exact List.forall_mem_singleton.2 ⟨rfl, rfl⟩
  | object symbol owner storage => exact storage.sets_objectAddress .eax

theorem Line.ofCode_append {ι : Type} (code code' : List ι) :
    Line.ofCode (code ++ code') = Line.ofCode code ++ Line.ofCode code' :=
  List.map_append

theorem still_of_sets {target : Register} {code : List Instruction}
    (h : ∀ c ∈ code, c.Sets target) : ∀ line ∈ Line.ofCode code, line.pushed = 0 := by
  intro line hline
  obtain ⟨c, hc, rfl⟩ := List.mem_map.1 hline
  exact (h c hc).1

theorem still_of_calm {code : List Instruction} (h : ∀ c ∈ code, c.Calm) :
    ∀ line ∈ Line.ofCode code, line.pushed = 0 := by
  intro line hline
  obtain ⟨c, hc, rfl⟩ := List.mem_map.1 hline
  exact (h c hc).1

theorem calm_zeroFields (offset fields : Nat) : ∀ c ∈ zeroFields offset fields, c.Calm := by
  intro c hc
  obtain ⟨index, -, rfl⟩ := List.mem_map.1 hc
  exact ⟨rfl, nofun, nofun⟩

theorem calm_copyFields (fields : Nat) (target : Nat → Address) :
    ∀ c ∈ copyFields fields target, c.Calm := by
  intro c hc
  obtain ⟨index, -, hc⟩ := List.mem_flatMap.1 hc
  rcases List.mem_cons.1 hc with rfl | hc
  · exact ⟨rfl, nofun, nofun⟩
  · rw [List.mem_singleton.1 hc]
    exact ⟨rfl, nofun, nofun⟩

/-- The words that a call pushes are taken back behind it. -/
theorem floats_called {push : Instruction} (hpush : push.pushed = 4) (target : String) {bytes : Nat}
    (hbytes : 4 ≤ bytes) :
    Floats (4 - bytes) (4 - bytes)
      (Line.ofCode [push, .call target, .release bytes]) := by
  have hcall : (Instruction.call target).pushed = 0 := rfl
  have hrelease : (Instruction.release bytes).pushed = -bytes := rfl
  refine ⟨?_, fun i => ?_⟩
  · simp only [Line.ofCode, List.map_cons, List.map_nil, pushed, Line.pushed, hpush, hcall,
      hrelease]
    omega
  · rcases i with _ | _ | _ | i <;>
      simp only [depthAt, Line.ofCode, List.map_cons, List.map_nil, List.take_succ_cons,
        List.take_zero, List.take_nil, pushed, Line.pushed, hpush, hcall, hrelease] <;>
      omega

/-! ### Statements -/

theorem ClassTable.slotBytes_object (table : ClassTable) (c : String) :
    table.slotBytes (.object c) = 4 * table.fieldCount c := by
  rw [slotBytes, fieldCount]
  cases table.find? c <;> rfl

theorem Value.floats_fetch (value : Value) (target : Register) :
    Floats 0 0 (Line.ofCode (value.fetch target)) :=
  floats_of_still (still_of_sets (value.sets_fetch target))

theorem Place.floats_address (place : Place) : Floats 0 0 (Line.ofCode place.address) :=
  floats_of_still (still_of_sets place.sets_address)

theorem floats_allocate (bytes : Nat) {lines : List (Line Instruction)}
    (h : ∀ line ∈ lines, line.pushed = 0) :
    Floats 0 bytes (.instruction (.allocate bytes) :: lines) := by
  have hline : (Line.instruction (.allocate bytes)).pushed = bytes := rfl
  have hfirst := floats_line (.instruction (.allocate bytes))
  rw [hline, Int.min_eq_left (Int.natCast_nonneg bytes)] at hfirst
  have hboth := hfirst.append (floats_of_still h) (by omega)
  rwa [Int.add_zero] at hboth

namespace Standing

variable {S S' : Standing}

/-- The bytes of all variables that the pass has in its frames. -/
def taken (S : Standing) : Int := Scope.framesBytes S.table S.scope.frames

theorem taken_extend (S : Standing) (s : Symbol) :
    (S.extend s).taken = S.table.slotBytes s.type + S.taken := by
  have htable : (S.extend s).table = S.table := rfl
  rw [taken, taken, htable]
  exact congrArg Nat.cast (Scope.framesBytes_extend S.table S.scope s)

/-- A call pushes its words, and gives them back. -/
theorem floats_call {receiver : Receiver} {signature : Signature} {a : Option Tree.Value}
    {argument : Option Value} (h : S.argument? signature.parameter a = some argument) :
    Floats 0 0 (Line.ofCode (Command.call receiver signature argument).code) := by
  have hreceiver : Floats 0 0 (Line.ofCode receiver.address) :=
    floats_of_still (still_of_sets receiver.sets_address)
  have hpush : (Instruction.pushRegister .eax).pushed = 4 := rfl
  rcases Context.argument?_cases h with
    ⟨hparameter, -, rfl⟩ | ⟨p, v, value, hparameter, -, rfl, -⟩
  · have hbytes : signature.argumentBytes = 4 := by simp [Signature.argumentBytes, hparameter]
    have hcalled := floats_called hpush (Label.method receiver.owner signature.name)
      (Nat.le_of_eq hbytes.symm)
    rw [hbytes] at hcalled
    simp only [Command.code, List.nil_append, Line.ofCode_append, hbytes]
    exact hreceiver.after hcalled
  · have hbytes : signature.argumentBytes = 8 := by simp [Signature.argumentBytes, hparameter]
    have hcalled := floats_called hpush (Label.method receiver.owner signature.name)
      (show 4 ≤ 8 by omega)
    have hfirst : Floats 0 4 (Line.ofCode [.pushRegister .eax]) :=
      floats_line (.instruction (.pushRegister .eax))
    simp only [Command.code, Line.ofCode_append, hbytes, List.append_assoc]
    exact (value.floats_fetch .eax).after (hfirst.append (hreceiver.after hcalled) (by omega))

/-- A statement leaves what it declares, and never goes below where it began. -/
theorem Elaborates.floats {s : Tree.Simple} {command : Command} (h : S.Elaborates s command S') :
    Floats 0 (S'.taken - S.taken) (Line.ofCode command.code) := by
  have hpush : (Instruction.pushRegister .eax).pushed = 4 := rfl
  have hkeep : S.taken - S.taken = 0 := Int.sub_self _
  have hextend : ∀ symbol, (S.extend symbol).taken - S.taken = S.table.slotBytes symbol.type := by
    intro symbol
    rw [taken_extend]
    omega
  cases h with
  | @number t x v value htype hfree hvalue =>
    have hnew : Floats 0 4 (Line.ofCode [.allocate 4, .store (.slot S.nextOffset) .eax]) :=
      floats_allocate 4 (List.forall_mem_singleton.2 rfl)
    rw [hextend, Command.code, Line.ofCode_append]
    exact (value.floats_fetch .eax).after hnew
  | text | string =>
    have hstring : ∀ x bytes, (S.declareString x bytes).taken - S.taken = 0 := by
      intro x bytes
      exact hextend (.inData x (S.stringLabel x))
    rw [hstring]
    exact floats_nil
  | @create t x c created htype hfree hcreated =>
    rw [hextend]
    show Floats 0 (S.table.slotBytes (.object c)) _
    rw [ClassTable.slotBytes_object]
    exact floats_allocate _ (still_of_calm (calm_zeroFields _ _))
  | @copy t x c v value htype hfree hvalue =>
    rw [hextend]
    show Floats 0 (S.table.slotBytes (.object c)) _
    rw [ClassTable.slotBytes_object, Command.code, List.append_assoc, Line.ofCode_append]
    exact (value.floats_fetch .eax).after (floats_allocate _ (still_of_calm (calm_copyFields _ _)))
  | @assignNumber p v target value =>
    have hstore : Floats 0 0 (Line.ofCode [.store (.offBy .ebx 0) .eax]) :=
      floats_line (.instruction (.store (.offBy .ebx 0) .eax))
    rw [hkeep, Command.code, Line.ofCode_append, Line.ofCode_append]
    exact (target.floats_address.after (value.floats_fetch .eax)).after hstore
  | @assignObject p v target value c =>
    rw [hkeep, Command.code, Line.ofCode_append, Line.ofCode_append]
    exact (target.floats_address.after (value.floats_fetch .eax)).after
      (floats_of_still (still_of_calm (calm_copyFields _ _)))
  | call hcallee hmethod hargument =>
    rw [hkeep]
    exact floats_call hargument
  | @print v value =>
    rw [hkeep, Command.code, Line.ofCode_append]
    exact (value.floats_fetch .eax).after (floats_called hpush _ (Nat.le_refl 4))
  | @printLiteral content =>
    have hkeep : (S.draw.store S.draw.literalName (stringBytes content)).taken - S.taken = 0 :=
      hkeep
    rw [hkeep]
    exact floats_called rfl _ (Nat.le_refl 4)
  | @printVariable x symbol hsymbol htype =>
    have hsource : (TextSource.named symbol).push.pushed = 4 := by
      unfold TextSource.push
      dsimp only
      split <;> rfl
    rw [hkeep]
    exact floats_called hsource _ (Nat.le_refl 4)

end Standing

/-! ### Blocks -/

theorem Branch.still_opening (head : Branch) : ∀ line ∈ head.opening, line.pushed = 0 := by
  have hcondition : ∀ target, ∀ line ∈ Line.ofCode (head.condition.jumpUnless target),
      line.pushed = 0 := by
    intro target
    simp only [Condition.jumpUnless, Line.ofCode_append, List.forall_mem_append]
    refine ⟨⟨still_of_sets (head.condition.left.sets_fetch _),
      still_of_sets (head.condition.right.sets_fetch _)⟩, ?_⟩
    simp [Line.ofCode, Line.pushed, Instruction.pushed]
  unfold opening
  split
  · exact hcondition _
  · exact List.forall_mem_cons.2 ⟨rfl, hcondition _⟩

theorem Branch.still_closing (head : Branch) : ∀ line ∈ head.closing, line.pushed = 0 := by
  unfold closing
  split <;> simp [Line.pushed, Instruction.pushed]

theorem Branch.pushed_opening (head : Branch) : pushed head.opening = 0 :=
  (floats_of_still head.still_opening).pushed

theorem Branch.pushed_closing (head : Branch) : pushed head.closing = 0 :=
  (floats_of_still head.still_closing).pushed

theorem floats_release (bytes : Nat) :
    Floats (-bytes) (-bytes) (Line.ofCode (Body.releaseCode bytes)) := by
  unfold Body.releaseCode
  split
  · rename_i hzero
    rw [hzero]
    exact floats_nil
  · have hline : (Line.instruction (.release bytes)).pushed = -bytes := rfl
    have hfloats := floats_line (.instruction (.release bytes))
    rw [hline] at hfloats
    exact hfloats.mono (by omega)

/-- The statement boundaries of a block whose code begins at the line `n`, and the variables that
    are alive there: before every statement, and behind the last one. -/
def Tree.Block.boundaries : Tree.Block → Body → Live → Nat → List (Nat × Live)
  | .simple s rest, .simple command body, live, n =>
      (n, live) :: rest.boundaries body (s.declares ++ live) (n + command.code.length)
  | .branch _ _ inner rest, .branch head innerBody restBody, live, n =>
      let inside := n + head.opening.length
      (n, live) :: (inner.boundaries innerBody live inside ++
        rest.boundaries restBody live (inside + innerBody.code.length + head.closing.length))
  | _, _, live, n => [(n, live)]

/-- A block has a boundary before every statement, those of its inner blocks included, and one at
    the end of each block. -/
def Tree.Block.boundaryCount : Tree.Block → Nat
  | .finish => 1
  | .simple _ rest => rest.boundaryCount + 1
  | .branch _ _ inner rest => inner.boundaryCount + rest.boundaryCount + 1

/-- The depth is the same at both ends of every jump of a block. -/
def Placement.Level (q : Placement) (depth : Nat → Int) : Prop :=
  depth q.jump = depth q.start ∧ depth q.back = depth q.start ∧ depth q.last = depth q.start

theorem Placement.Level.depth_eq {q : Placement} {depth : Nat → Int} (h : q.Level depth)
    {line : Line Instruction} {i : Nat} (hmark : (line, i) ∈ q.marks) :
    depth i = depth q.start := by
  obtain ⟨hjump, hback, hlast⟩ := h
  unfold marks at hmark
  unfold last at hlast
  split at hmark <;> rename_i hkind <;> rw [hkind] at hlast
  · simp only [List.mem_cons, List.not_mem_nil, or_false, Prod.mk.injEq] at hmark
    rcases hmark with ⟨-, rfl⟩ | ⟨-, rfl⟩
    · exact hjump
    · exact hback
  · simp only [List.mem_cons, List.not_mem_nil, or_false, Prod.mk.injEq] at hmark
    rcases hmark with ⟨-, rfl⟩ | ⟨-, rfl⟩ | ⟨-, rfl⟩ | ⟨-, rfl⟩
    · rfl
    · exact hjump
    · exact hback
    · exact hlast

/-- The jump around a block, and those of a loop, stand where the block has nothing on the stack. -/
theorem level_around {head : Branch} {inner : List (Line Instruction)}
    (hopening : ∀ line ∈ head.opening, line.pushed = 0) (hinner : pushed inner = 0)
    (hclosing : ∀ line ∈ head.closing, line.pushed = 0) (before behind : List (Line Instruction)) :
    (⟨head, before.length, before.length + head.opening.length - 1,
      before.length + head.opening.length + inner.length⟩ : Placement).Level
        (depthAt (before ++ (head.opening ++ (inner ++ (head.closing ++ behind))))) := by
  have hjump := Body.length_opening head
  have hlast := Body.length_closing head
  have hback : ∀ i ≤ head.closing.length,
      depthAt (before ++ (head.opening ++ (inner ++ (head.closing ++ behind))))
        (before.length + head.opening.length + inner.length + i) = pushed before := by
    intro i hi
    rw [Nat.add_assoc, Nat.add_assoc, depthAt_length_add, depthAt_length_add, depthAt_length_add,
      depthAt_of_le _ _ hi, (floats_of_still hopening).pushed, hinner, depthAt_of_still hclosing]
    omega
  refine ⟨?_, ?_, ?_⟩
  · have hbefore : before.length + head.opening.length - 1 =
        before.length + (head.opening.length - 1) := by omega
    dsimp only
    rw [hbefore, depthAt_length_add, depthAt_of_le _ _ (Nat.sub_le ..), depthAt_of_still hopening,
      depthAt_length]
    omega
  · exact (hback 0 (Nat.zero_le _)).trans (depthAt_length ..).symm
  · refine Eq.trans ?_ (depthAt_length ..).symm
    obtain ⟨kind, condition, id⟩ := head
    cases kind with
    | conditional => exact hback 0 (Nat.zero_le _)
    | loop => exact hback 1 (by rw [hlast]; exact Nat.le_succ 1)

namespace Standing

variable {S S' : Standing} {p : Tree.Program} {live : Live}

theorem Keeps.frameBytes (h : S.Keeps S') :
    (S'.scope.frameBytes S'.table : Int) - S.scope.frameBytes S.table = S'.taken - S.taken := by
  have htaken : ∀ S : Standing, S.taken = S.scope.frameBytes S.table +
      Scope.framesBytes S.table S.scope.enclosing := fun S => rfl
  rw [htaken, htaken, h.enclosing, h.table]
  omega

/-- A block leaves nothing of its own, and gives back what has been declared in it before. -/
theorem ElaboratesBlock.floats {t : Tree.Block} {body : Body} (h : ElaboratesBlock S t body S') :
    Floats (-(S.scope.frameBytes S.table)) (-(S.scope.frameBytes S.table)) body.code := by
  induction h with
  | finish => exact floats_release _
  | @simple S S₁ S₂ s rest command body hsimple _ ih =>
    have hbytes := hsimple.keeps.frameBytes
    have hfirst : Floats (-(S.scope.frameBytes S.table)) (S₁.taken - S.taken)
        (Line.ofCode command.code) := hsimple.floats.mono (by omega)
    have hwhole := hfirst.append ih (by omega)
    have hnet : S₁.taken - S.taken + -(S₁.scope.frameBytes S₁.table : Int) =
        -(S.scope.frameBytes S.table) := by omega
    rwa [hnet] at hwhole
  | @branch S S₁ S₂ kind c condition inner rest innerBody restBody hcondition hinner _ ihInner
      ihRest =>
    have hleave : S₁.leave.scope.frameBytes S₁.leave.table = S.scope.frameBytes S.table := by
      have htable : S₁.leave.table = S.table := hinner.keeps.table
      rw [hinner.keeps.scope_leave, htable]
    rw [hleave] at ihRest
    have hinside : Floats 0 0 innerBody.code := ihInner
    rw [Body.code]
    exact (((floats_of_still (Branch.still_opening _)).after hinside).after
      (floats_of_still (Branch.still_closing _))).after ihRest

/-- The code follows the tree, so no boundary is left out. -/
theorem ElaboratesBlock.length_boundaries {t : Tree.Block} {body : Body}
    (h : ElaboratesBlock S t body S') (live : Live) (n : Nat) :
    (t.boundaries body live n).length = t.boundaryCount := by
  induction h generalizing live n with
  | finish => rfl
  | simple _ _ ih => exact congrArg (· + 1) (ih _ _)
  | branch _ _ _ ihInner ihRest =>
    rw [Tree.Block.boundaries, List.length_cons, List.length_append, ihInner, ihRest,
      Tree.Block.boundaryCount]

/-- The depth at the statement boundaries of a block grows and shrinks with the variables that are
    alive. -/
theorem ElaboratesBlock.boundary_depth {t : Tree.Block} {body : Body}
    (h : ElaboratesBlock S t body S') (hproper : ∀ l ∈ t.yield, l.Proper) (hS : S.Amid p live)
    (before behind : List (Line Instruction)) :
    ∀ b ∈ t.boundaries body live before.length,
      depthAt (before ++ body.code ++ behind) b.1 =
        pushed before + p.liveBytes b.2 - p.liveBytes live := by
  have hhere : ∀ (live : Live) (before lines : List (Line Instruction)),
      depthAt (before ++ lines) before.length =
        pushed before + p.liveBytes live - p.liveBytes live := by
    intro live before lines
    rw [depthAt_length]
    omega
  induction h generalizing live before behind with
  | finish =>
    intro b hb
    rw [List.mem_singleton.1 hb, List.append_assoc]
    exact hhere ..
  | @simple S S₁ S₂ s rest command body hsimple _ ih =>
    rw [Tree.Block.yield, List.forall_mem_append] at hproper
    have hafter := hS.elaborates hsimple hproper.1
    have hnet : pushed (Line.ofCode command.code) =
        p.liveBytes (s.declares ++ live) - p.liveBytes live := by
      rw [hsimple.floats.pushed, taken, taken, hafter.mirrors.bytes, hS.mirrors.bytes]
    have hlength : before.length + command.code.length =
        (before ++ Line.ofCode command.code).length := by simp [Line.ofCode]
    intro b hb
    rw [Body.code, ← List.append_assoc before]
    rcases List.mem_cons.1 hb with rfl | hb
    · rw [List.append_assoc, List.append_assoc]
      exact hhere ..
    · rw [hlength] at hb
      have hdepth := ih hproper.2 hafter _ behind b hb
      rw [pushed_append, hnet] at hdepth
      omega
  | @branch S S₁ S₂ kind c condition inner rest innerBody restBody hcondition hinner _ ihInner
      ihRest =>
    simp only [Tree.Block.yield, List.forall_mem_cons, List.forall_mem_append] at hproper
    obtain ⟨-, -, -, hi, -, hr⟩ := hproper
    have hinside : pushed innerBody.code = 0 := hinner.floats.pushed
    generalize Branch.mk kind condition S.draw.labels = head
    have hdepth := ihInner hi hS.enter (before ++ head.opening)
      (head.closing ++ restBody.code ++ behind)
    have hdepth' := ihRest hr (hS.leave hinner)
      (before ++ head.opening ++ innerBody.code ++ head.closing) behind
    simp only [pushed_append, head.pushed_opening, head.pushed_closing, hinside,
      List.length_append, Int.add_zero]
      at hdepth hdepth'
    intro b hb
    rw [Tree.Block.boundaries, List.mem_cons, List.mem_append] at hb
    simp only [Body.code, List.append_assoc] at hdepth hdepth' ⊢
    rcases hb with rfl | hb | hb
    · exact hhere ..
    · exact hdepth b hb
    · exact hdepth' b (by simpa only [Nat.add_assoc] using hb)

/-- The jumps of a block are level. -/
theorem ElaboratesBlock.level {t : Tree.Block} {body : Body} (h : ElaboratesBlock S t body S')
    (before behind : List (Line Instruction)) :
    ∀ q ∈ body.placements before.length, q.Level (depthAt (before ++ body.code ++ behind)) := by
  induction h generalizing before behind with
  | finish => exact List.forall_mem_nil _
  | @simple S S₁ S₂ s rest command body hsimple _ ih =>
    have hlevel := ih (before ++ Line.ofCode command.code) behind
    have hlength : (before ++ Line.ofCode command.code).length =
        before.length + command.code.length := by simp [Line.ofCode]
    rw [hlength, List.append_assoc before] at hlevel
    exact hlevel
  | @branch S S₁ S₂ kind c condition inner rest innerBody restBody hcondition hinner _ ihInner
      ihRest =>
    have hstill := Branch.still_opening ⟨kind, condition, S.draw.labels⟩
    have hclosing := Branch.still_closing ⟨kind, condition, S.draw.labels⟩
    have hinside : pushed innerBody.code = 0 := hinner.floats.pushed
    generalize Branch.mk kind condition S.draw.labels = head at hstill hclosing ⊢
    have hlevel := ihInner (before ++ head.opening) (head.closing ++ restBody.code ++ behind)
    have hlevel' := ihRest (before ++ head.opening ++ innerBody.code ++ head.closing) behind
    simp only [List.length_append, List.append_assoc] at hlevel hlevel'
    intro q hq
    rw [Body.placements, List.mem_cons, List.mem_append] at hq
    simp only [Body.code, List.append_assoc]
    rcases hq with rfl | hq | hq
    · exact level_around hstill hinside hclosing before _
    · exact hlevel q hq
    · exact hlevel' q (by simpa only [Nat.add_assoc] using hq)

end Standing

/-! ### Code that keeps the frame pointer -/

theorem Instruction.keepsFrame_release (bytes : Nat) : (Instruction.release bytes).KeepsFrame :=
  ⟨nofun, nofun⟩

theorem Instruction.keepsFrame_jump (condition : Jump) (target : String) :
    (Instruction.jump condition target).KeepsFrame :=
  ⟨nofun, nofun⟩

theorem Command.keepsFrame_code (command : Command) : ∀ c ∈ command.code, c.KeepsFrame := by
  have hfetch : ∀ value : Value, ∀ c ∈ value.fetch .eax, c.KeepsFrame := fun value c hc =>
    (value.sets_fetch .eax c hc).keepsFrame (by decide)
  have haddress : ∀ place : Place, ∀ c ∈ place.address, c.KeepsFrame := fun place c hc =>
    (place.sets_address c hc).keepsFrame (by decide)
  have hreceiver : ∀ receiver : Receiver, ∀ c ∈ receiver.address, c.KeepsFrame :=
    fun receiver c hc => (receiver.sets_address c hc).keepsFrame (by decide)
  have hcopy : ∀ fields target, ∀ c ∈ copyFields fields target, c.KeepsFrame :=
    fun fields target c hc => (calm_copyFields fields target c hc).2
  have hzero : ∀ offset fields, ∀ c ∈ zeroFields offset fields, c.KeepsFrame :=
    fun offset fields c hc => (calm_zeroFields offset fields c hc).2
  have hcalled : ∀ {push : Instruction} {target bytes}, push.KeepsFrame →
      ∀ c ∈ [push, .call target, .release bytes], c.KeepsFrame := by
    intro push target bytes hpush
    exact List.forall_mem_cons.2 ⟨hpush, List.forall_mem_cons.2 ⟨⟨nofun, nofun⟩,
      List.forall_mem_singleton.2 (Instruction.keepsFrame_release bytes)⟩⟩
  have hpush : (Instruction.pushRegister .eax).KeepsFrame := ⟨nofun, nofun⟩
  cases command with
  | declareNumber name value offset =>
    exact List.forall_mem_append.2 ⟨hfetch value, List.forall_mem_cons.2 ⟨⟨nofun, nofun⟩,
      List.forall_mem_singleton.2 ⟨nofun, nofun⟩⟩⟩
  | declareString name label => exact List.forall_mem_nil _
  | createObject name className fields offset =>
    exact List.forall_mem_cons.2 ⟨⟨nofun, nofun⟩, hzero offset fields⟩
  | copyObject name className value fields offset =>
    exact List.forall_mem_append.2 ⟨List.forall_mem_append.2 ⟨hfetch value,
      List.forall_mem_singleton.2 ⟨nofun, nofun⟩⟩, hcopy fields _⟩
  | assignNumber place value =>
    exact List.forall_mem_append.2 ⟨List.forall_mem_append.2 ⟨haddress place, hfetch value⟩,
      List.forall_mem_singleton.2 ⟨nofun, nofun⟩⟩
  | assignObject place value fields =>
    exact List.forall_mem_append.2 ⟨List.forall_mem_append.2 ⟨haddress place, hfetch value⟩,
      hcopy fields _⟩
  | call receiver method argument =>
    refine List.forall_mem_append.2 ⟨List.forall_mem_append.2 ⟨?_, hreceiver receiver⟩,
      hcalled hpush⟩
    cases argument with
    | none => exact List.forall_mem_nil _
    | some value => exact List.forall_mem_append.2 ⟨hfetch value, List.forall_mem_singleton.2 hpush⟩
  | print value => exact List.forall_mem_append.2 ⟨hfetch value, hcalled hpush⟩
  | printText source =>
    refine hcalled ?_
    unfold TextSource.push
    split
    · exact ⟨nofun, nofun⟩
    · split <;> exact ⟨nofun, nofun⟩

theorem Condition.keepsFrame_jumpUnless (condition : Condition) (target : String) :
    ∀ c ∈ condition.jumpUnless target, c.KeepsFrame := by
  refine List.forall_mem_append.2 ⟨List.forall_mem_append.2 ⟨fun c hc => ?_, fun c hc => ?_⟩, ?_⟩
  · exact (condition.left.sets_fetch .eax c hc).keepsFrame (by decide)
  · exact (condition.right.sets_fetch .ebx c hc).keepsFrame (by decide)
  · exact List.forall_mem_cons.2 ⟨⟨nofun, nofun⟩,
      List.forall_mem_singleton.2 (Instruction.keepsFrame_jump _ _)⟩

/-- The code of a body is run in one frame, from its first line to its last. -/
theorem Body.keepsFrame_code (body : Body) :
    ∀ c, Line.instruction c ∈ body.code → c.KeepsFrame := by
  have hcode : ∀ {code : List Instruction} {c : Instruction}, (∀ c ∈ code, c.KeepsFrame) →
      Line.instruction c ∈ Line.ofCode code → c.KeepsFrame := by
    intro code c h hc
    obtain ⟨c', hc', heq⟩ := List.mem_map.1 hc
    cases heq
    exact h c hc'
  induction body with
  | finish bytes =>
    intro c hc
    refine hcode ?_ hc
    unfold releaseCode
    split
    · exact List.forall_mem_nil _
    · exact List.forall_mem_singleton.2 (Instruction.keepsFrame_release bytes)
  | simple command rest ih =>
    intro c hc
    rcases List.mem_append.1 hc with hc | hc
    · exact hcode command.keepsFrame_code hc
    · exact ih c hc
  | branch head inner rest ihInner ihRest =>
    intro c hc
    simp only [code, List.mem_append] at hc
    rcases hc with ((hc | hc) | hc) | hc
    · unfold Branch.opening at hc
      split at hc
      · exact hcode (Condition.keepsFrame_jumpUnless _ _) hc
      · rcases List.mem_cons.1 hc with heq | hc
        · cases heq
        · exact hcode (Condition.keepsFrame_jumpUnless _ _) hc
    · exact ihInner c hc
    · unfold Branch.closing at hc
      split at hc
      · cases List.mem_singleton.1 hc
      · rcases List.mem_cons.1 hc with heq | hc
        · cases heq
          exact Instruction.keepsFrame_jump _ _
        · cases List.mem_singleton.1 hc
    · exact ihRest c hc

/-! ### Routines -/

/-- What is related side by side is in the two lists. -/
theorem forall₂_mem {α β : Type} {R : α → β → Prop} {l : List α} {l' : List β}
    (h : List.Forall₂ R l l') : List.Forall₂ (fun a b => a ∈ l ∧ b ∈ l' ∧ R a b) l l' := by
  induction h with
  | nil => exact .nil
  | cons hR _ ih =>
    refine .cons ⟨List.mem_cons_self, List.mem_cons_self, hR⟩ (ih.imp ?_)
    rintro a b ⟨ha, hb, hab⟩
    exact ⟨List.mem_cons_of_mem _ ha, List.mem_cons_of_mem _ hb, hab⟩

namespace Routine

/-- The bytes that keep the frame pointer of the caller; the entry point has none. -/
def savedBytes (r : Routine) : Nat := if r.owner.isSome then 4 else 0

/-- The lines before the body. -/
def preamble (r : Routine) : List (Line Instruction) :=
  .label r.entryLabel :: Line.ofCode r.opening

theorem length_preamble (r : Routine) : r.preamble.length = 1 + r.opening.length := by
  simp [preamble, Line.ofCode, Nat.add_comm]

theorem listing_lines (r : Routine) :
    r.listing.lines = r.preamble ++ r.body.code ++ Line.ofCode r.closing := rfl

/-- The depth of the stack at the lines of a routine.  It is never negative, it is zero before the
    return and at the end, at every statement boundary it is what the variables take that are alive
    there, and both ends of a jump have the same. -/
structure Balanced (r : Routine) (p : Tree.Program) (tree : Tree.Block) : Prop where
  nonneg : ∀ i, 0 ≤ depthAt r.listing.lines i
  atReturn : ∀ i, r.listing.lines[i]? = some (.instruction .ret) → depthAt r.listing.lines i = 0
  returns : r.owner.isSome → r.listing.lines.getLast? = some (.instruction .ret)
  atEnd : depthAt r.listing.lines r.listing.lines.length = 0
  boundaries : (tree.boundaries r.body [] (1 + r.opening.length)).length = tree.boundaryCount
  atBoundary : ∀ b ∈ tree.boundaries r.body [] (1 + r.opening.length),
    depthAt r.listing.lines b.1 = r.savedBytes + p.liveBytes b.2
  atJump : ∀ {i condition target}, JumpAt r.listing.lines i condition target →
    (∃ k, LabelAt r.listing.lines k target) ∧
      ∀ k, LabelAt r.listing.lines k target → depthAt r.listing.lines i = depthAt r.listing.lines k

variable {r : Routine}

theorem floats_preamble (r : Routine) : Floats 0 r.savedBytes r.preamble := by
  obtain ⟨owner, method, body⟩ := r
  have hnonneg : ∀ line ∈ preamble ⟨owner, method, body⟩, 0 ≤ line.pushed := by
    cases owner <;> simp [preamble, opening, Line.ofCode, Line.pushed, Instruction.pushed,
      Instruction.copy, Instruction.pushRegister]
  have hfloats := floats_of_nonneg hnonneg
  cases owner <;> exact hfloats

theorem floats_closing (r : Routine) :
    Floats (-r.savedBytes) (-r.savedBytes) (Line.ofCode r.closing) := by
  obtain ⟨owner, method, body⟩ := r
  cases owner with
  | none => exact floats_nil
  | some c =>
    have hpop : Floats (-4) (-4) [.instruction (.pop .ebp)] :=
      floats_line (.instruction (.pop .ebp))
    have hret : Floats 0 0 [.instruction .ret] := floats_line (.instruction .ret)
    exact hpop.append hret (by omega)

/-- A return is the last line of a method, and the entry point has none. -/
theorem eq_of_ret {i : Nat} (h : r.listing.lines[i]? = some (.instruction .ret)) :
    r.owner.isSome ∧ i + 1 = r.listing.lines.length := by
  have hpreamble : Line.instruction Instruction.ret ∉ r.preamble := by
    obtain ⟨owner, method, body⟩ := r
    cases owner <;> simp [preamble, opening, Line.ofCode, Instruction.copy,
      Instruction.pushRegister]
  have hbody : Line.instruction Instruction.ret ∉ r.body.code :=
    fun hmem => (r.body.keepsFrame_code _ hmem).2 rfl
  rw [listing_lines, List.getElem?_append] at h
  split at h
  · rcases List.mem_append.1 (List.mem_of_getElem? h) with hmem | hmem
    · exact absurd hmem hpreamble
    · exact absurd hmem hbody
  · rename_i hle
    obtain ⟨owner, method, body⟩ := r
    cases owner with
    | none => cases h
    | some c =>
      refine ⟨rfl, ?_⟩
      rw [listing_lines, List.length_append]
      generalize hj : i - _ = j at h
      rcases j with _ | _ | j
      · cases h
      · show i + 1 = _ + 2
        omega
      · cases h

/-- The code of a block is put between the lines that make a routine of it. -/
theorem balanced {p : Tree.Program} {parameter : Option Parameter} {tree : Tree.Block}
    {S S' : Standing} (henters : p.Enters S r.owner parameter)
    (hbody : Standing.ElaboratesBlock S tree r.body S') (hp : p.WellFormed)
    (hproper : ∀ l ∈ tree.yield, l.Proper) (hentry : ¬ Label.Numbered r.entryLabel)
    (hids : r.body.ids.Nodup) : r.Balanced p tree := by
  have hempty : S.scope.frameBytes S.table = 0 := by
    rw [henters.scope]
    rfl
  have hfloats : Floats 0 0 r.listing.lines := by
    have hinside := hbody.floats
    rw [hempty] at hinside
    have hfirst := r.floats_preamble.append hinside (by omega)
    have hwhole := hfirst.append r.floats_closing (by omega)
    have hnet : (r.savedBytes : Int) + -((0 : Nat) : Int) + -r.savedBytes = 0 := by omega
    rwa [hnet] at hwhole
  have hend : depthAt r.listing.lines r.listing.lines.length = 0 := by
    rw [depthAt, List.take_length, hfloats.pushed]
  refine ⟨hfloats.above, fun i hi => ?_, fun howner => ?_, hend, hbody.length_boundaries _ _,
    fun b hb => ?_, fun {i condition target} hjump => ⟨?_, fun k hk => ?_⟩⟩
  · obtain ⟨-, hlast⟩ := eq_of_ret hi
    have hsucc := depthAt_succ hi
    rw [hlast, hend] at hsucc
    have hret : (Line.instruction Instruction.ret).pushed = 0 := rfl
    omega
  · obtain ⟨c, hc⟩ := Option.isSome_iff_exists.1 howner
    rw [listing_lines, closing, hc]
    simp [Line.ofCode]
  · rw [← length_preamble] at hb
    have hdepth := hbody.boundary_depth hproper (henters.amid hp) r.preamble
      (Line.ofCode r.closing) b hb
    rw [r.floats_preamble.pushed] at hdepth
    rw [listing_lines, hdepth, Tree.Program.liveBytes]
    omega
  · exact (structured hentry hids).closed hjump
  · -- the jump and the label belong to the same block
    obtain ⟨q, hq, hmark⟩ := exists_of_jumpAt hjump
    have htarget := Placement.target_of_mem_marks hmark
    obtain ⟨q', hq', hmark'⟩ :=
      exists_of_labelAt hentry (Branch.numbered_of_mem_labels htarget) hk
    have hid := Branch.eq_of_mem_labels (Placement.label_of_mem_marks hmark') htarget
    obtain rfl := placement_unique hids hq' hq hid
    have hlevel := hbody.level r.preamble (Line.ofCode r.closing) q'
      (by rw [length_preamble]; exact hq)
    rw [listing_lines]
    exact (hlevel.depth_eq hmark).trans (hlevel.depth_eq hmark').symm

end Routine

/-! ### Programs -/

/-- The blocks of a program that routines are made of, in the order of the routines. -/
def Tree.Program.blocks (p : Tree.Program) : List Tree.Block :=
  p.main :: p.methods.map fun q => q.2.body

/-- Every routine comes from its block: what holds of all that the elaboration of a block can be
    made to, holds of the routines. -/
theorem Tree.Program.SpelledBy.routines {p : Tree.Program} {source : String}
    {compilation : Compilation} (hp : p.SpelledBy source) (h : compile source = .ok compilation)
    {R : Tree.Block → Routine → Prop}
    (hR : ∀ {r parameter tree S S'}, p.Enters S r.owner parameter →
      Standing.ElaboratesBlock S tree r.body S' → (∀ l ∈ tree.yield, l.Proper) →
      ¬ Label.Numbered r.entryLabel → r.body.ids.Nodup → R tree r) :
    List.Forall₂ R p.blocks compilation.routines := by
  obtain ⟨tokens, htokens, hyield⟩ := hp.spelled
  have hproper : ∀ l ∈ p.yield, l.Proper := hyield ▸ proper_lexemes htokens
  obtain ⟨helaborates, htidy⟩ := hp.elaborates h
  have hroutine : ∀ {r owner parameter tree}, r ∈ compilation.routines → r.owner = owner →
      p.Origin compilation.data.entries owner parameter tree r.body →
      (∀ l ∈ tree.yield, l.Proper) → R tree r := by
    rintro r owner parameter tree hr rfl ⟨S, S', henters, hbody, -⟩ htree
    exact hR henters hbody htree (htidy.not_numbered hr) ((List.nodup_flatMap.1 htidy.ids).1 r hr)
  obtain ⟨howner, hmain⟩ := helaborates.main
  refine .cons (hroutine List.mem_cons_self howner hmain (proper_main hproper)) ?_
  rw [List.forall₂_map_left_iff]
  refine List.Forall₂.imp ?_ (forall₂_mem helaborates.methods)
  rintro ⟨c, m⟩ r ⟨hm, hr, howner, -, horigin⟩
  refine hroutine (List.mem_cons_of_mem _ hr) howner horigin fun l hl => ?_
  obtain ⟨k, hk, hm⟩ := List.mem_flatMap.1 hm
  obtain ⟨m', hm', heq⟩ := List.mem_map.1 hm
  cases heq
  exact proper_methods hproper k hk m hm' l (by simp [Tree.Method.yield, hl])

/-- The stack of every listing of an accepted program is balanced: the program spelled by the text
    says at each statement how deep it is. -/
theorem balanced_routines {source : String} {compilation : Compilation}
    (h : compile source = .ok compilation) :
    (∃ p : Tree.Program, p.SpelledBy source) ∧
      ∀ p : Tree.Program, p.SpelledBy source →
        List.Forall₂ (fun tree r => r.Balanced p tree) p.blocks compilation.routines := by
  refine ⟨exists_spelledBy h, fun p hp => ?_⟩
  refine hp.routines h fun henters hbody hproper hentry hids => ?_
  exact Routine.balanced henters hbody hp.wellFormed hproper hentry hids

/-- A text where an inner block has a variable of the same name, next to objects of two words, a
    string, and a call with an argument. -/
def shadowText : String :=
  "class P \x7b int x; int y; f(int k) \x7b int a = k; while (a < 3) \x7b " ++
    "P q = P.CreateInstance(); if (a > 1) \x7b int a = 7; q.y = a; \x7d a = q.y; \x7d \x7d \x7d " ++
    "main() \x7b P p = P.CreateInstance(); string s = \"s\"; P r = p; r.f(p.y); print(r.x); \x7d"

def shadowTree : Tree.Program where
  classes := [⟨"P", ["x", "y"],
    [⟨"f", some ⟨.int, "k"⟩,
      .simple (.declare .int "a" (.value (.place (.variable "k")))) <|
      .branch .loop ⟨.place (.variable "a"), .less, .number "3"⟩
        (.simple (.declare (.named "P") "q" (.create "P")) <|
          .branch .conditional ⟨.place (.variable "a"), .greater, .number "1"⟩
            (.simple (.declare .int "a" (.value (.number "7"))) <|
              .simple (.assign (.objectField "q" "y") (.place (.variable "a"))) .finish) <|
          .simple (.assign (.variable "a") (.place (.objectField "q" "y"))) .finish)
        .finish, by decide⟩],
    by decide, nofun⟩]
  main :=
    .simple (.declare (.named "P") "p" (.create "P")) <|
    .simple (.declare .string "s" (.text "s")) <|
    .simple (.declare (.named "P") "r" (.value (.place (.variable "p")))) <|
    .simple (.call (.object "r" "f") (some (.place (.objectField "p" "y")))) <|
    .simple (.print (.place (.objectField "r" "x"))) .finish
  main_ne := by decide

theorem shadowTree_spelledBy :
    shadowTree.SpelledBy shadowText ∧ ∃ compilation, compile shadowText = .ok compilation := by
  apply Tree.Program.spelledBy_of_lexemes
  · decide +kernel
  · decide +kernel

theorem balanced_routines_shadow :
    ∃ compilation, compile shadowText = .ok compilation ∧ shadowTree.SpelledBy shadowText ∧
      List.Forall₂ (fun tree r => r.Balanced shadowTree tree) shadowTree.blocks
        compilation.routines := by
  obtain ⟨hspelled, compilation, hcompile⟩ := shadowTree_spelledBy
  exact ⟨compilation, hcompile, hspelled, (balanced_routines hcompile).2 shadowTree hspelled⟩

end ClassLang
