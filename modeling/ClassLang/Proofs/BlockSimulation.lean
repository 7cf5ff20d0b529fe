/-
  ClassLang/Proofs/BlockSimulation.lean
  =====================================
  **Blocks do what they mean.**

  The run of a block is followed line by line, by induction on the fuel of the
  interpreter: the statements in front are those of `StatementSimulation`, a call is that
  of `CallSimulation`, and a condition either leads into its block or behind it.  A loop
  whose body has been run stands before its condition again, in the same scope and with
  less fuel.

  Fuel bounds the depth of calls as well as the number of steps, so the induction is the
  same for both.
-/
import ClassLang.Proofs.CallSimulation

namespace ClassLang

/-! ### Lines around a block -/

namespace Branch

/-- The label behind a block. -/
def behind (head : Branch) : String :=
  match head.kind with
  | .conditional => Label.elseOf head.id
  | .loop => Label.exitOf head.id

def before (head : Branch) : List (Line Instruction) :=
  match head.kind with
  | .conditional => []
  | .loop => [.label (Label.conditionOf head.id)]

def back (head : Branch) : List (Line Instruction) :=
  match head.kind with
  | .conditional => []
  | .loop => [.instruction (.jump .always (Label.conditionOf head.id))]

theorem opening_eq (head : Branch) :
    head.opening = head.before ++ (Line.ofCode head.condition.test ++
      [.instruction (.jump (.fails head.condition.relation) head.behind)]) := by
  obtain ⟨kind, condition, id⟩ := head
  cases kind <;> simp [opening, before, behind, Condition.jumpUnless_eq, Line.ofCode]

theorem closing_eq (head : Branch) : head.closing = head.back ++ [.label head.behind] := by
  obtain ⟨kind, condition, id⟩ := head
  cases kind <;> rfl

end Branch

section

variable {X : Setting} {A : Activation} {S : Standing} {owns : List (List Placed)}
  {σ : Source.State} {M M₁ : Machine} {lines : List (Line Instruction)} {pc k : Nat}

/-- A condition has a value, and the comparison of the machine is the same. -/
theorem Standing.simulates_test (hX : X.Sound) (hA : A.Fits X) (hS : S.Serves X A)
    {c : Tree.Condition} {condition : Condition} (hcondition : S.condition? c = some condition)
    (h : Related X A S.scope.frames owns σ M) :
    ∃ b M₁, σ.test? c = some b ∧ X.platform.exec? M condition.test = some M₁ ∧
      Jump.taken? M₁.compared (.fails condition.relation) = some (!b) ∧
      Related X A S.scope.frames owns σ M₁ ∧ A.Keeps X M M₁ := by
  obtain ⟨left, hleft, right, hright, rfl⟩ := Context.condition?_eq_some.1 hcondition
  obtain ⟨l, hevalLeft, hwordLeft⟩ := h.number hX hA hS hleft
  obtain ⟨r, hevalRight, hwordRight⟩ := h.number hX hA hS hright
  refine ⟨c.relation.holds l.toInt r.toInt, _, ?_, exec?_test _, ?_,
    h.scratch hA (by simp) (by simp) (fun _ _ => rfl) rfl, .of_memory fun _ _ => rfl⟩
  · simp [Source.State.test?, Source.State.number?, hevalLeft, hevalRight]
  · simp [Jump.taken?, hwordLeft, hwordRight]

/-- The lines before a block lead into it or behind it. -/
theorem Platform.reaches_opening {P : Platform} {head : Branch} {b : Bool}
    (hcode : CodeAt lines pc head.opening) (hexec : P.exec? M head.condition.test = some M₁)
    (htaken : Jump.taken? M₁.compared (.fails head.condition.relation) = some (!b))
    (hline : lineOf? lines head.behind = some k) :
    P.Reaches lines (M, pc) (M₁, if b then pc + head.opening.length else k) := by
  rw [Branch.opening_eq] at hcode ⊢
  have hbefore : P.Reaches lines (M, pc) (M, pc + head.before.length) := by
    have hleft := hcode.left
    unfold Branch.before at hleft ⊢
    split at hleft
    · exact .refl
    · exact reaches_label hleft.head
  have htest := reaches_of_exec? hcode.right.left hexec
  have hjump := hcode.right.right.head
  refine hbefore.trans (htest.trans (.single ?_))
  rw [Line.ofCode, List.length_map] at hjump
  rw [step?, hjump]
  cases b with
  | true => simp [htaken, Line.ofCode, Nat.add_assoc]
  | false => simp [htaken, hline]

/-- The line behind the statements of a loop leads back to its beginning. -/
theorem Setting.Linked.step?_back (hlinked : X.Linked lines) {head : Branch}
    (hkind : head.kind = .loop) (hopening : CodeAt lines pc head.opening)
    (hback : CodeAt lines k head.back) : X.platform.step? lines (M, k) = some (M, pc) := by
  have hbefore : head.before = [.label (Label.conditionOf head.id)] := by
    rw [Branch.before, hkind]
  rw [Branch.opening_eq, hbefore] at hopening
  rw [Branch.back, hkind] at hback
  have hlabel := hopening.head
  have hline := lineOf?_eq_some (fun k' hk' => hlinked.unique hlabel hk') hlabel
  rw [Platform.step?, hback.head]
  simp [Jump.taken?, hline]

/-! ### Blocks -/

theorem Source.run_simple {fuel : Nat} {p : Tree.Program} {s : Tree.Simple}
    (hs : ∀ callee a, s ≠ .call callee a) {σ' : Source.State} (hsimple : σ.simple? s = some σ')
    (rest : Tree.Block) :
    Source.run p (fuel + 1) σ (.simple s rest) = Source.run p fuel σ' rest := by
  cases s with
  | call callee a => exact absurd rfl (hs callee a)
  | declare | assign | print | printText => simp only [Source.run, hsimple]

theorem Source.run_call {fuel : Nat} {p : Tree.Program} {callee : Tree.Callee}
    {a : Option Tree.Value} {tree : Tree.Block} {σ₁ : Source.State}
    (hcall : σ.call? p callee a = some (tree, σ₁)) (rest : Tree.Block) :
    Source.run p (fuel + 1) σ (.simple (.call callee a) rest) =
      ((Source.run p fuel σ₁ tree).map σ.return_).bind fun σ₂ => Source.run p fuel σ₂ rest := by
  simp only [Source.run, hcall]
  cases Source.run p fuel σ₁ tree <;> rfl

theorem Source.run_branch {fuel : Nat} {p : Tree.Program} {c : Tree.Condition}
    (htest : σ.test? c = some true) (kind : BranchKind) (inner rest : Tree.Block) :
    Source.run p (fuel + 1) σ (.branch kind c inner rest) =
      (Source.run p fuel σ.enter inner).bind fun σ₁ =>
        Source.run p fuel σ₁ (match kind with
          | .conditional => rest
          | .loop => .branch kind c inner rest) := by
  simp only [Source.run, htest]
  cases Source.run p fuel σ.enter inner with
  | error halt => rfl
  | ok σ₁ => cases kind <;> rfl

/-- What the machine has done before counts as part of the run. -/
theorem Ends.of_reaches {frames : List Frame} {pc' : Nat} {result : Except Source.Halt Source.State}
    (hreach : X.platform.Reaches lines (M, pc) (M₁, k)) (hkeeps : A.Keeps X M M₁)
    (h : Ends X A lines frames owns M₁ k pc' result) :
    Ends X A lines frames owns M pc pc' result := by
  rcases result with ⟨⟨⟩⟩ | σ'
  · trivial
  · exact h
  · obtain ⟨M₂, hreach₂, hrelated, hkeeps₂⟩ := h
    exact ⟨M₂, hreach.trans hreach₂, hrelated, hkeeps.trans hkeeps₂⟩

namespace Standing

variable {S₁ S' : Standing} {own : List Placed} {fuel : Nat}

/-- At the end of a block its variables are released. -/
theorem simulates_finish (hS : S.Serves X A)
    (hcode : CodeAt lines pc (Line.ofCode (Body.releaseCode (S.scope.frameBytes S.table))))
    (h : Related X A S.scope.frames (own :: owns) σ M) :
    Ends X A lines S.scope.enclosing owns M pc
      (pc + (Line.ofCode (Body.releaseCode (S.scope.frameBytes S.table))).length)
      (.ok σ.leave) := by
  have hbytes : S.scope.frameBytes S.table = Frame.bytes A.table S.scope.frame := by
    rw [Scope.frameBytes, hS.table]
  unfold Body.releaseCode at hcode ⊢
  split at hcode
  · rename_i hzero
    have hesp : M.registers .esp = M.registers .esp + Frame.bytes A.table S.scope.frame := by
      rw [← hbytes, hzero]
      exact (Int.add_zero _).symm
    rw [if_pos hzero]
    exact ⟨M, .refl, h.leave rfl hesp rfl rfl, .refl⟩
  · rename_i hzero
    rw [if_neg hzero]
    let M₁ := (M.set .esp (M.registers .esp + S.scope.frameBytes S.table)).spoil
    have hesp : M₁.registers .esp = M.registers .esp + Frame.bytes A.table S.scope.frame := by
      rw [← hbytes]
      simp [M₁]
    have hexec : X.platform.exec? M [.release (S.scope.frameBytes S.table)] = some M₁ := by
      simp [Platform.exec?, M₁]
    exact ⟨M₁, Platform.reaches_of_exec? hcode hexec, h.leave (by simp [M₁]) hesp rfl rfl,
      .of_memory fun _ _ => rfl⟩

/-- A block is run as often as its condition says. -/
theorem simulates_branch (hX : X.Sound) (hlinked : X.Linked lines)
    (hsimulated : Simulated X lines fuel) (hA : A.Fits X) (hS : S.Serves X A)
    {c : Tree.Condition} {head : Branch} {inner rest : Tree.Block} {innerBody restBody : Body}
    (hcondition : S.condition? c = some head.condition)
    (hinner : ElaboratesBlock S.draw.enter inner innerBody S₁)
    (hrest : ElaboratesBlock S₁.leave rest restBody S')
    (hblock : ElaboratesBlock S (.branch head.kind c inner rest)
      (.branch head innerBody restBody) S')
    (hentries : S'.data.entries <+: X.entries)
    (hcode : CodeAt lines pc (Body.branch head innerBody restBody).code)
    (h : Related X A S.scope.frames (own :: owns) σ M) :
    Ends X A lines S.scope.enclosing owns M pc
      (pc + (Body.branch head innerBody restBody).code.length)
      (Source.run X.program (fuel + 1) σ (.branch head.kind c inner rest)) := by
  obtain ⟨b, M₁, htest, hexec, htaken, hrelated₁, hkeeps₁⟩ := simulates_test hX hA hS hcondition h
  have hentries₁ : S₁.data.entries <+: X.entries := List.IsPrefix.trans hrest.entries hentries
  have hsplit : (Body.branch head innerBody restBody).code = head.opening ++ innerBody.code ++
      (head.back ++ [.label head.behind]) ++ restBody.code := by
    rw [Body.code, Branch.closing_eq]
  have hpieces := hsplit ▸ hcode
  have hclosing := hpieces.left.right
  have hbehind := hclosing.right.head
  have hline := lineOf?_eq_some (fun k' hk' => hlinked.unique hbehind hk') hbehind
  have hopening :=
    Platform.reaches_opening (P := X.platform) hpieces.left.left.left hexec htaken hline
  -- behind the block, in the scope that the block is in
  have hrestEnds : ∀ {σ' : Source.State} {M' : Machine},
      Related X A S.scope.frames (own :: owns) σ' M' →
      Ends X A lines S.scope.enclosing owns M'
        (pc + (head.opening ++ innerBody.code).length + head.back.length)
        (pc + (Body.branch head innerBody restBody).code.length)
        (Source.run X.program fuel σ' rest) := by
    intro σ' M' h'
    have hscope := hinner.keeps.scope_leave
    have hends := hsimulated hA (hS.leave hinner hentries₁) hrest hentries hpieces.right
      (hscope.symm ▸ h')
    rw [hscope, Nat.add_assoc, ← List.length_append, ← hsplit] at hends
    refine hends.of_reaches ?_ .refl
    have hlabel := Platform.reaches_label (P := X.platform) (M := M') hbehind
    simpa [Nat.add_assoc] using hlabel
  cases b with
  | false =>
    rw [Source.run, htest]
    exact (hrestEnds hrelated₁).of_reaches hopening hkeeps₁
  | true =>
    rw [Source.run_branch htest]
    refine (hsimulated hA hS.enter hinner hentries₁ hpieces.left.left.right
      hrelated₁.enter).bind fun {σ₂ M₂} hreach₂ hrelated₂ hkeeps₂ => ?_
    have hreach := hopening.trans hreach₂
    rw [Nat.add_assoc, ← List.length_append] at hreach
    have hkeeps := hkeeps₁.trans hkeeps₂
    cases hkind : head.kind with
    | conditional =>
      have hback : head.back = [] := by rw [Branch.back, hkind]
      rw [hback] at hrestEnds
      exact (hrestEnds hrelated₂).of_reaches hreach hkeeps
    | loop =>
      have hjump := hlinked.step?_back (M := M₂) hkind hpieces.left.left.left hclosing.left
      have hends := hsimulated hA hS hblock hentries hcode hrelated₂
      rw [hkind] at hends
      exact hends.of_reaches (hreach.tail hjump) hkeeps

end Standing

/-- Every block of the program does what it means, whatever the fuel. -/
theorem Setting.Linked.simulated (hlinked : X.Linked lines) (hX : X.Sound) (fuel : Nat) :
    Simulated X lines fuel := by
  induction fuel with
  | zero =>
    intro S S' A t body own owns σ M pc _ _ _ _ _ _
    trivial
  | succ fuel ih =>
    intro S S' A t body own owns σ M pc hA hS hblock hentries hcode h
    cases hblock with
    | finish =>
      rw [Source.run]
      exact Standing.simulates_finish hS hcode h
    | @simple _ S₁ _ s rest command body hsimple hrest =>
      have hentries₁ : S₁.data.entries <+: X.entries :=
        List.IsPrefix.trans hrest.entries hentries
      have hS₁ := hS.elaborates hsimple hentries₁
      have hcode' : CodeAt lines pc (Line.ofCode command.code ++ body.code) := hcode
      have hlength : pc + command.code.length + body.code.length =
          pc + (Body.simple command body).code.length := by
        simp [Body.code, Line.ofCode, Nat.add_assoc]
      have hrestCode : CodeAt lines (pc + command.code.length) body.code := by
        have hright := hcode'.right
        rw [Line.ofCode, List.length_map] at hright
        exact hright
      have henclosing : S₁.scope.enclosing = S.scope.enclosing := hsimple.keeps.enclosing
      rw [← hlength, ← henclosing]
      by_cases hcall : ∀ callee a, s ≠ .call callee a
      · obtain ⟨σ', own', M', hstate, hreach, hrelated, hkeeps⟩ :=
          hsimple.simulates hX hA hS hcall hentries₁ hcode'.left h
        rw [Source.run_simple hcall hstate]
        exact (ih hA hS₁ hrest hentries hrestCode hrelated).of_reaches hreach hkeeps
      · push Not at hcall
        obtain ⟨callee, a, rfl⟩ := hcall
        cases hsimple with
        | call hcallee hmethod hargument =>
          obtain ⟨tree, σ₁, hstate, hends⟩ := Standing.simulates_call hX hlinked ih hA hS hcallee
            hmethod hargument hcode'.left h
          rw [Source.run_call hstate]
          exact hends.bind fun hreach hrelated hkeeps =>
            (ih hA hS₁ hrest hentries hrestCode hrelated).of_reaches hreach hkeeps
    | branch hcondition hinner hrest =>
      exact Standing.simulates_branch hX hlinked ih hA hS hcondition hinner hrest
        (.branch hcondition hinner hrest) hentries hcode h

end

end ClassLang
