/-
  ClassLang/Proofs/CallSimulation.lean
  ====================================
  **Calls and returns.**

  A caller pushes the argument and the address of the receiver, the call pushes the
  return address, and the routine pushes the frame pointer of its caller.  From there on
  the routine is an activation of its own: the objects of the caller, its own and those
  that it was given, are what lies above it.  `Related.enterMethod` is the way in.

  The way back rests on what an activation keeps (`Activation.Keeps`): the words that were
  pushed are still there, and so is every variable of the caller.  Objects may have
  changed, and the state after the call has them as the routine left them.
-/
import ClassLang.Proofs.StatementSimulation

namespace ClassLang

open Source (Datum ObjectRef)
open Instruction (release pushRegister)

/-! ### Passing arguments -/

/-- Where the object is that a method is called on. -/
def Receiver.pointer (P : Platform) (M : Machine) : Receiver → Int
  | .current _ => M.memory (M.registers .ebp + 8)
  | .object _ _ storage => storage.pointer P M

def passing (receiver : Receiver) (argument : Option Value) : List Instruction :=
  (match argument with
    | some value => value.fetch .eax ++ [pushRegister .eax]
    | none => []) ++
  receiver.address ++ [pushRegister .eax]

theorem Command.code_call (receiver : Receiver) (method : Signature) (argument : Option Value) :
    (Command.call receiver method argument).code =
      passing receiver argument ++ [.call (Label.method receiver.owner method.name),
        release method.argumentBytes] := by
  cases argument <;> simp [Command.code, passing]

structure Machine.Passes (M : Machine) (argument : Option Int) (receiver : Int) (M' : Machine) :
    Prop where
  ebp : M'.registers .ebp = M.registers .ebp
  esp : M'.registers .esp = M.registers .esp - if argument.isSome then 8 else 4
  receiver : M'.memory (M'.registers .esp) = receiver
  argument : ∀ w ∈ argument, M'.memory (M'.registers .esp + 4) = w
  memory : ∀ a, M.registers .esp ≤ a → M'.memory a = M.memory a
  output : M'.output = M.output

section

variable {P : Platform} {M M' : Machine}

theorem exec?_receiver (receiver : Receiver) :
    P.exec? M receiver.address = some (M.set .eax (receiver.pointer P M)) := by
  cases receiver with
  | current owner => simp [Receiver.address, Receiver.pointer, Platform.exec?]
  | object symbol owner storage => exact exec?_objectAddress storage

/-- Pushing words below the frame pointer does not move the receiver. -/
theorem Receiver.pointer_congr (hebp : M'.registers .ebp = M.registers .ebp)
    (hmemory : ∀ a, M.registers .ebp ≤ a → M'.memory a = M.memory a) (receiver : Receiver) :
    receiver.pointer P M' = receiver.pointer P M := by
  cases receiver with
  | current owner =>
    rw [pointer, pointer, hebp]
    exact hmemory _ (by omega)
  | object symbol owner storage =>
    cases storage with
    | frame offset => simp only [pointer, Storage.pointer, hebp]
    | data label => rfl
    | parameter =>
      simp only [pointer, Storage.pointer, hebp]
      exact hmemory _ (by omega)

theorem exec?_passing (hle : M.registers .esp ≤ M.registers .ebp) (receiver : Receiver)
    (argument : Option Value) :
    ∃ M', P.exec? M (passing receiver argument) = some M' ∧
      M.Passes (argument.map (·.word P M)) (receiver.pointer P M) M' := by
  cases argument with
  | none =>
    refine ⟨(M.set .eax (receiver.pointer P M)).push (receiver.pointer P M), ?_, ?_⟩
    · rw [passing, List.nil_append, Platform.exec?_append_of_eq (exec?_receiver receiver)]
      simp [Platform.exec?]
    · refine ⟨by simp, by simp, by simp, fun w hw => by contradiction, fun a ha => ?_, rfl⟩
      rw [Machine.push_memory, Machine.set_registers_of_ne _ _ _ _ (by decide),
        Function.update_of_ne (by omega)]
      rfl
  | some value =>
    let M₁ := (M.set .eax (value.word P M)).push (value.word P M)
    have hpush : P.exec? (M.set .eax (value.word P M)) [pushRegister .eax] = some M₁ := by
      simp [Platform.exec?, M₁]
    have hebp : M₁.registers .ebp = M.registers .ebp := by simp [M₁]
    have hesp : M₁.registers .esp = M.registers .esp - 4 := by simp [M₁]
    have hmemory : M₁.memory =
        Function.update M.memory (M.registers .esp - 4) (value.word P M) := by simp [M₁]
    have hpointer : receiver.pointer P M₁ = receiver.pointer P M := by
      refine receiver.pointer_congr hebp fun a ha => ?_
      rw [hmemory, Function.update_of_ne (by omega)]
    refine ⟨(M₁.set .eax (receiver.pointer P M)).push (receiver.pointer P M), ?_, ?_⟩
    · rw [passing, List.append_assoc, List.append_assoc,
        Platform.exec?_append_of_eq (exec?_fetch value), Platform.exec?_append_of_eq hpush,
        Platform.exec?_append_of_eq (exec?_receiver receiver), hpointer]
      simp [Platform.exec?]
    · refine ⟨by simp [hebp], ?_, by simp, fun w hw => ?_, fun a ha => ?_, rfl⟩
      · simp only [Machine.push_esp, Option.map_some, Option.isSome_some, if_true]
        rw [Machine.set_registers_of_ne _ _ _ _ (by decide), hesp]
        omega
      · cases hw
        rw [Machine.push_memory, Machine.push_esp, Machine.set_registers_of_ne _ _ _ _ (by decide),
          Function.update_of_ne (by omega), Machine.set_memory, hmemory, hesp]
        exact Function.update_apply .. |>.trans (if_pos (by omega))
      · rw [Machine.push_memory, Machine.set_registers_of_ne _ _ _ _ (by decide), hesp,
          Function.update_of_ne (by omega), Machine.set_memory, hmemory,
          Function.update_of_ne (by omega)]

end

/-! ### The way in and the way back -/

namespace Related

variable {X : Setting} {A A' : Activation} {frames : List Frame} {owns : List (List Placed)}
  {σ σ' : Source.State} {M M₁ M₂ M₃ : Machine}

/-- A routine begins: all objects of the caller lie above it, and nothing is declared yet. -/
theorem enterMethod (h : Related X A frames owns σ M) (hA : A.Fits X)
    (houter : A'.outer = owns.flatten ++ A.outer) (hebp : M₁.registers .ebp = A'.bp)
    (hesp : M₁.registers .esp = A'.bp)
    (hmemory : ∀ a, M.registers .esp ≤ a → M₁.memory a = M.memory a)
    (houtput : M₁.output = M.output) {parameter : Option (String × Datum)} {ref : ObjectRef}
    (hparameter : Option.Rel (fun (s : Symbol) (q : String × Datum) => q.1 = s.name ∧
      Represents X A'.outer s.type q.2 (M₁.memory (A'.bp + 12))) A'.parameter parameter)
    (hreceiver : Option.Rel (fun (c : String) (ref : ObjectRef) => ref.className = c ∧
      ⟨ref, M₁.memory (A'.bp + 8)⟩ ∈ A'.outer) A'.owner (some ref)) :
    Related X A' [[]] [[]] { σ with frames := [[]], parameter, receiver := some ref } M₁ := by
  have hle := h.esp_le
  have hbase := hA.below
  have hlive : ([[]] : List (List Placed)).flatten ++ A'.outer = owns.flatten ++ A.outer := houter
  refine ⟨hebp, by simpa [Scope.framesBytes, Frame.bytes] using hesp, ?_, hparameter, hreceiver, ?_,
    hlive ▸ h.apart, fun a ha => ?_, houtput.trans h.output⟩
  · exact .cons .nil (List.forall_mem_nil _) .nil
  · rw [hlive]
    exact h.objects_congr hA hmemory
  · rw [hmemory a (by omega)]
    exact h.above a ha

/-- A method that is called fits below its caller. -/
theorem fits_callee (h : Related X A frames owns σ M) (hA : A.Fits X) {S : Standing}
    {parameter : Option Parameter} (henters : X.program.Enters S A'.owner parameter)
    (htable : A'.table = S.table) (hparameter : A'.parameter = parameter.map Symbol.ofParameter)
    (howner : A'.owner.isSome) (houter : A'.outer = owns.flatten ++ A.outer)
    (htop : A'.top = M.registers .esp) : A'.Fits X := by
  have hle := h.esp_le
  have hbelow := hA.below
  have htopLe := A'.le_top
  refine ⟨htable ▸ henters.covers, ?_, by omega, fun _ => by omega, fun hnone => ?_, ?_⟩
  · intro s hs c hc
    rw [hparameter] at hs
    obtain ⟨q, hq, rfl⟩ := Option.map_eq_some_iff.1 hs
    exact htable ▸ henters.known q hq c hc
  · rw [hnone] at howner
    cases howner
  · rw [houter, htop]
    exact h.within_stack hA

/-- A routine has ended, and its caller goes on with the objects as they are now. -/
theorem returnTo (h : Related X A frames owns σ M) (hA : A.Fits X)
    (houter : A'.outer = owns.flatten ++ A.outer) (htop : A'.top = M.registers .esp)
    (hmemory : ∀ a, M.registers .esp ≤ a → M₁.memory a = M.memory a)
    (hcallee : Related X A' [] [] σ' M₂) (hkeeps : A'.Keeps X M₁ M₂)
    (hebp : M₃.registers .ebp = M.registers .ebp) (hesp : M₃.registers .esp = M.registers .esp)
    (hmemory₃ : M₃.memory = M₂.memory) (houtput : M₃.output = M₂.output) :
    Related X A frames owns (σ.return_ σ') M₃ ∧ A.Keeps X M M₃ := by
  have hle := h.esp_le
  -- no word of the caller has changed but those of objects
  have hsame : ∀ a, M.registers .esp ≤ a → Private X.program (owns.flatten ++ A.outer) a →
      M₃.memory a = M.memory a := by
    intro a ha hprivate
    have htop' := A'.le_top
    rw [hmemory₃, hkeeps a (by omega) (fun hsome => ?_) (houter ▸ hprivate), hmemory a ha]
    have hargument := Activation.top_of_isSome hsome
    omega
  refine ⟨⟨hebp.trans h.ebp, hesp.trans h.esp, ?_, ?_, ?_, ?_, h.apart, ?_, ?_⟩, ?_⟩
  · refine h.frames.imp fun a hlow _ hprivate => ⟨hsame a ?_ hprivate, hprivate⟩
    rw [h.esp]
    exact hlow
  · exact h.parameter_congr fun hsome => hsame _ (by omega) (h.private_parameter hA hsome)
  · rw [hsame _ (by omega) (h.private_receiver hA)]
    exact h.receiver
  · rw [hmemory₃]
    exact houter ▸ hcallee.objects
  · rw [hmemory₃]
    exact hcallee.above
  · exact houtput.trans hcallee.output
  · intro a hlow _ hprivate
    refine hsame a (by omega) fun o ho hcovers => ?_
    rcases h.covers_cases hA ho hcovers with hbounds | ⟨ho, -⟩
    · omega
    · exact hprivate o ho hcovers

end Related

/-! ### The machine on the way in and back -/

/-- A routine has been called and has set up its frame pointer. -/
structure Machine.Calls (M : Machine) (argument : Option Int) (receiver : Int) (pc : Nat)
    (M' : Machine) : Prop where
  ebp : M'.registers .ebp = M'.registers .esp
  esp : M'.registers .esp = M.registers .esp - if argument.isSome then 16 else 12
  saved : M'.memory (M'.registers .esp) = M.registers .ebp
  returns : M'.memory (M'.registers .esp + 4) = pc
  receiver : M'.memory (M'.registers .esp + 8) = receiver
  argument : ∀ w ∈ argument, M'.memory (M'.registers .esp + 12) = w
  memory : ∀ a, M.registers .esp ≤ a → M'.memory a = M.memory a
  output : M'.output = M.output

namespace Platform

variable {P : Platform} {lines : List (Line Instruction)} {M M₁ : Machine} {pc k : Nat}

/-- The call itself, and the first lines of the routine. -/
theorem reaches_routine {argument : Option Int} {receiver : Int} {name : String}
    (hpasses : M.Passes argument receiver M₁)
    (hcall : lines[pc]? = some (.instruction (.call name))) (hline : lineOf? lines name = some k)
    (hnumber : name ≠ Label.printNumber) (htext : name ≠ Label.printText)
    (hlabel : lines[k]? = some (.label name))
    (hopening : CodeAt lines (k + 1) (Line.ofCode [pushRegister .ebp, .copy .ebp .esp])) :
    ∃ M₂, P.Reaches lines (M₁, pc) (M₂, k + 3) ∧ M.Calls argument receiver (pc + 1) M₂ := by
  let M₀ := (M₁.push (pc + 1 : Nat)).push (M₁.registers .ebp)
  let M₂ := M₀.set .ebp (M₁.registers .esp - 8)
  have hesp₀ : M₀.registers .esp = M₁.registers .esp - 8 := by
    simp only [M₀, Machine.push_esp]
    omega
  have hesp : M₂.registers .esp = M₁.registers .esp - 8 := by
    simp [M₂, hesp₀]
  have hstep : P.step? lines (M₁, pc) = some (M₁.push (pc + 1 : Nat), k) := by
    rw [step?, hcall]
    simp only [hnumber, htext, if_false, hline, Option.map_some]
  have hexec : P.exec? (M₁.push (pc + 1 : Nat)) [pushRegister .ebp, .copy .ebp .esp] = some M₂ := by
    simp only [exec?, effect?_pushRegister, effect?_copy, Option.bind_some, Option.some.injEq, M₂,
      ← hesp₀]
    simp [M₀]
  have hmemory : M₂.memory = Function.update (Function.update M₁.memory (M₁.registers .esp - 4)
      ((pc + 1 : Nat) : Int)) (M₁.registers .esp - 8) (M₁.registers .ebp) := by
    have heq : M₁.registers .esp - 4 - 4 = M₁.registers .esp - 8 := by omega
    simp [M₂, M₀, heq]
  have habove : ∀ a, M₁.registers .esp ≤ a → M₂.memory a = M₁.memory a := by
    intro a ha
    rw [hmemory, Function.update_of_ne (by omega), Function.update_of_ne (by omega)]
  have hpassed := hpasses.esp
  refine ⟨M₂, reaches_step hstep ((reaches_label hlabel).trans (reaches_of_exec? hopening hexec)),
    ?_, ?_, ?_, ?_, ?_, fun w hw => ?_, fun a ha => ?_, ?_⟩
  · rw [hesp]
    exact Machine.set_registers_self ..
  · rw [hesp, hpassed]
    split <;> omega
  · rw [hmemory, hesp, Function.update_self]
    exact hpasses.ebp
  · rw [hmemory, hesp, Function.update_of_ne (by omega)]
    exact Function.update_apply .. |>.trans (if_pos (by omega))
  · rw [habove _ (by omega), hesp]
    have heq : M₁.registers .esp - 8 + 8 = M₁.registers .esp := by omega
    rw [heq]
    exact hpasses.receiver
  · rw [habove _ (by omega), hesp]
    have heq : M₁.registers .esp - 8 + 12 = M₁.registers .esp + 4 := by omega
    rw [heq]
    exact hpasses.argument w hw
  · have hlow : M₁.registers .esp ≤ a := by
      rw [hpassed]
      split <;> omega
    rw [habove a hlow]
    exact hpasses.memory a ha
  · exact hpasses.output

/-- The last lines of the routine, and the release of what was pushed for the call. -/
theorem reaches_return {bp : Int} {bytes : Nat} (hesp : M.registers .esp = bp)
    (hreturns : M.memory (bp + 4) = pc)
    (hclosing : CodeAt lines k (Line.ofCode [.pop .ebp, .ret]))
    (hrelease : lines[pc]? = some (.instruction (release bytes))) :
    ∃ M', P.Reaches lines (M, k) (M', pc + 1) ∧ M'.registers .ebp = M.memory bp ∧
      M'.registers .esp = bp + 8 + bytes ∧ M'.memory = M.memory ∧ M'.output = M.output := by
  let M₁ := (M.set .esp (bp + 4)).set .ebp (M.memory bp)
  have hesp₁ : M₁.registers .esp = bp + 4 := by simp [M₁]
  let M₂ := M₁.set .esp (bp + 8)
  have hpop : P.step? lines (M, k) = some (M₁, k + 1) :=
    step?_of_effect hclosing.head (by rw [effect?, hesp])
  have hret : P.step? lines (M₁, k + 1) = some (M₂, pc) := by
    have hword : M₁.memory (bp + 4) = pc := hreturns
    have heq : bp + 4 + 4 = bp + 8 := by omega
    rw [step?, hclosing.tail.head]
    simp only [hesp₁, hword, heq, Int.toNat_natCast, M₂]
  refine ⟨(M₂.set .esp (M₂.registers .esp + bytes)).spoil, reaches_step hpop (reaches_step hret
    (.single (step?_of_effect hrelease (effect?_release ..)))), ?_, ?_, rfl, rfl⟩
  · simp [M₂, M₁]
  · simp [M₂]

end Platform

/-- The method that was called has come to its end: what was pushed for it is still there, and the
    machine is back in the caller. -/
theorem Related.reaches_caller {X : Setting} {A A' : Activation} {frames : List Frame}
    {owns : List (List Placed)} {σ σ' : Source.State} {M M₁ M₂ : Machine}
    {lines : List (Line Instruction)} {pc k bytes : Nat} {argument : Option Int} {receiver : Int}
    (h : Related X A frames owns σ M) (hA : A.Fits X)
    (houter : A'.outer = owns.flatten ++ A.outer) (htop : A'.top = M.registers .esp)
    (hbp : A'.bp = M₁.registers .esp) (hcalls : M.Calls argument receiver pc M₁)
    (hcallee : Related X A' [] [] σ' M₂) (hkeeps : A'.Keeps X M₁ M₂)
    (hclosing : CodeAt lines k (Line.ofCode [.pop .ebp, .ret]))
    (hrelease : lines[pc]? = some (.instruction (release bytes)))
    (hbytes : bytes = if argument.isSome then 8 else 4) :
    ∃ M₃, X.platform.Reaches lines (M₂, k) (M₃, pc + 1) ∧
      Related X A frames owns (σ.return_ σ') M₃ ∧ A.Keeps X M M₃ := by
  have hsaved : ∀ a, M₁.registers .esp ≤ a → a < M₁.registers .esp + 8 →
      M₂.memory a = M₁.memory a := by
    intro a hlow hhigh
    have hle := A'.le_top
    refine hkeeps a (hbp ▸ hlow) (fun _ => by omega) ?_
    rw [houter]
    exact h.private_below hA (by omega)
  have hesp : M₂.registers .esp = M₁.registers .esp := by
    rw [hcallee.esp, Scope.framesBytes, hbp]
    exact Int.sub_zero _
  have hreturns := (hsaved (M₁.registers .esp + 4) (by omega) (by omega)).trans hcalls.returns
  obtain ⟨M₃, hreach, hebp₃, hesp₃, hmemory₃, houtput₃⟩ :=
    Platform.reaches_return (P := X.platform) hesp hreturns hclosing hrelease
  rw [hsaved _ (by omega) (by omega), hcalls.saved] at hebp₃
  have hback : M₃.registers .esp = M.registers .esp := by
    rw [hesp₃, hcalls.esp, hbytes]
    split <;> omega
  exact ⟨M₃, hreach, h.returnTo hA houter htop hcalls.memory hcallee hkeeps hebp₃ hback hmemory₃
    houtput₃⟩

/-! ### Calls -/

/-- Labels are defined once, and every method of the program is somewhere in the code. -/
structure Setting.Linked (X : Setting) (lines : List (Line Instruction)) : Prop where
  unique : ∀ {name : String} {k k' : Nat}, lines[k]? = some (.label name) →
    lines[k']? = some (.label name) → k' = k
  methods : ∀ {c m : String} {method : Tree.Method}, Source.method? X.program c m = some method →
    ∃ body k, CodeAt lines k (Routine.mk (some c) m body).listing.lines ∧
      X.program.Origin X.entries (some c) method.signature.parameter method.body body
  printing : ∀ {c m : String} {method : Tree.Method}, Source.method? X.program c m = some method →
    Label.method c m ≠ Label.printNumber ∧ Label.method c m ≠ Label.printText

/-- How a run of a block ends: it never goes wrong, and if it comes to an end then the machine gets
    to the line behind the block. -/
def Ends (X : Setting) (A : Activation) (lines : List (Line Instruction)) (frames : List Frame)
    (owns : List (List Placed)) (M : Machine) (pc pc' : Nat) :
    Except Source.Halt Source.State → Prop
  | .error .outOfFuel => True
  | .error .wrong => False
  | .ok σ => ∃ M', X.platform.Reaches lines (M, pc) (M', pc') ∧ Related X A frames owns σ M' ∧
      A.Keeps X M M'

/-- Where one run ends, the next one begins. -/
theorem Ends.bind {X : Setting} {A A' : Activation} {lines : List (Line Instruction)}
    {frames frames' : List Frame} {owns owns' : List (List Placed)} {M M₁ : Machine}
    {pc pc' k k' : Nat} {result : Except Source.Halt Source.State}
    {next : Source.State → Except Source.Halt Source.State}
    (h : Ends X A' lines frames' owns' M₁ k k' result)
    (hnext : ∀ {σ : Source.State} {M₂ : Machine}, X.platform.Reaches lines (M₁, k) (M₂, k') →
      Related X A' frames' owns' σ M₂ → A'.Keeps X M₁ M₂ →
      Ends X A lines frames owns M pc pc' (next σ)) :
    Ends X A lines frames owns M pc pc' (result.bind next) := by
  rcases result with ⟨⟨⟩⟩ | σ
  · trivial
  · exact h
  · obtain ⟨M₂, hreach, hrelated, hkeeps⟩ := h
    exact hnext hreach hrelated hkeeps

/-- What is known of the blocks of a program for runs with some amount of fuel. -/
def Simulated (X : Setting) (lines : List (Line Instruction)) (fuel : Nat) : Prop :=
  ∀ {S S' : Standing} {A : Activation} {t : Tree.Block} {body : Body} {own : List Placed}
    {owns : List (List Placed)} {σ : Source.State} {M : Machine} {pc : Nat},
    A.Fits X → S.Serves X A → Standing.ElaboratesBlock S t body S' →
    S'.data.entries <+: X.entries → CodeAt lines pc body.code →
    Related X A S.scope.frames (own :: owns) σ M →
    Ends X A lines S.scope.enclosing owns M pc (pc + body.code.length)
      (Source.run X.program fuel σ t)

namespace Standing

variable {X : Setting} {A : Activation} {S : Standing} {owns : List (List Placed)}
  {σ : Source.State} {M : Machine}

theorem exists_receiver (hA : A.Fits X) (hS : S.Serves X A) {callee : Tree.Callee}
    {receiver : Receiver} {m : String} (hcallee : S.callee? callee = some (receiver, m))
    (h : Related X A S.scope.frames owns σ M) :
    ∃ ref : ObjectRef, ref.className = receiver.owner ∧ σ.callee? callee = some (ref, m) ∧
      ⟨ref, receiver.pointer X.platform M⟩ ∈ owns.flatten ++ A.outer := by
  cases callee with
  | bare m' | receiver m' =>
    obtain ⟨c, howner, heq⟩ := Option.map_eq_some_iff.1 hcallee
    cases heq
    obtain ⟨ref, hclass, hreceiver, ho⟩ := h.exists_receiver (hS.owner ▸ howner)
    exact ⟨ref, hclass, by rw [Source.State.callee?, hreceiver, Option.map_some], ho⟩
  | object x m' =>
    obtain ⟨s, hs, c, htype, storage, hstorage, rfl, rfl⟩ := Context.callee?_object.1 hcallee
    obtain ⟨ref, hclass, hlookup, ho, -⟩ := h.object hA hS hs hstorage htype
    exact ⟨ref, hclass, by simp [Source.State.callee?, Source.State.object?, hlookup], ho⟩

theorem exists_argument (hX : X.Sound) (hA : A.Fits X) (hS : S.Serves X A) {method : Tree.Method}
    {a : Option Tree.Value} {argument : Option Value}
    (hargument : S.argument? method.signature.parameter a = some argument)
    (h : Related X A S.scope.frames owns σ M) :
    ∃ parameter, σ.argument? method.parameter a = some parameter ∧
      argument.isSome = method.signature.parameter.isSome ∧
      ∀ word, (∀ w ∈ argument.map (·.word X.platform M), word = w) →
        Option.Rel (fun (s : Symbol) (q : String × Datum) => q.1 = s.name ∧
            Represents X (owns.flatten ++ A.outer) s.type q.2 word)
          (method.signature.parameter.map Symbol.ofParameter) parameter := by
  have hparameter : method.signature.parameter =
      method.parameter.map fun q => ⟨q.name, q.type.type⟩ := rfl
  rw [hparameter] at hargument ⊢
  generalize method.parameter = q at hargument ⊢
  cases q with
  | none =>
    cases a with
    | none =>
      cases hargument
      exact ⟨none, rfl, rfl, fun _ _ => .none⟩
    | some v => cases hargument
  | some q =>
    cases a with
    | none => cases hargument
    | some v =>
      obtain ⟨value, hvalue, rfl⟩ := Option.map_eq_some_iff.1 hargument
      obtain ⟨d, heval, hrepresents, -⟩ := h.eval hX hA hS hvalue
      refine ⟨some (q.name, d), by rw [Source.State.argument?, heval, Option.map_some], rfl,
        fun word hword => .some ⟨rfl, ?_⟩⟩
      rw [hword _ rfl]
      exact hrepresents

theorem serves_of_enters {table : ClassTable} {owner : Option String}
    {parameter : Option Parameter} {bp : Int} {outer : List Placed} {S' : Standing} {t : Tree.Block}
    {body : Body} (henters : X.program.Enters S owner parameter) (htable : S.table = table)
    (ht : ElaboratesBlock S t body S') (hentries : S'.data.entries <+: X.entries) :
    S.Serves X ⟨table, owner, parameter.map Symbol.ofParameter, bp, outer⟩ := by
  refine ⟨henters.sound, ?_, htable, henters.owner, by rw [henters.scope],
    ht.entries.trans hentries⟩
  rw [Labelled, henters.scope]
  simp [Scope.frames]

/-- A call has a meaning, and its code does what it means, if this is known of the routines. -/
theorem simulates_call {lines : List (Line Instruction)} {pc fuel : Nat} (hX : X.Sound)
    (hlinked : X.Linked lines) (hsimulated : Simulated X lines fuel) (hA : A.Fits X)
    (hS : S.Serves X A) {callee : Tree.Callee} {a : Option Tree.Value} {receiver : Receiver}
    {m : String} {signature : Signature} {argument : Option Value}
    (hcallee : S.callee? callee = some (receiver, m))
    (hmethod : S.table.method? receiver.owner m = some signature)
    (hargument : S.argument? signature.parameter a = some argument)
    (hcode : CodeAt lines pc (Line.ofCode (Command.call receiver signature argument).code))
    (h : Related X A S.scope.frames owns σ M) :
    ∃ tree σ₁, σ.call? X.program callee a = some (tree, σ₁) ∧
      Ends X A lines S.scope.frames owns M pc
        (pc + (Command.call receiver signature argument).code.length)
        ((Source.run X.program fuel σ₁ tree).map σ.return_) := by
  obtain ⟨ref, hclass, hcallee, ho⟩ := exists_receiver hA hS hcallee h
  obtain ⟨method, hfind, hname, rfl⟩ := hA.method hX (hS.table ▸ hmethod)
  obtain ⟨parameter, hparameter, hsome, hrel⟩ := exists_argument hX hA hS hargument h
  obtain ⟨body, k, hlisting, S₀, S₁, henters, hbody, hentries⟩ := hlinked.methods hfind
  have hstate : σ.call? X.program callee a = some (method.body,
      { σ with frames := [[]], parameter, receiver := some ref }) := by
    simp [Source.State.call?, hcallee, hclass, hfind, hparameter]
  refine ⟨_, _, hstate, ?_⟩
  -- the argument and the receiver are pushed
  have hle : M.registers .esp ≤ M.registers .ebp := by
    rw [h.ebp]
    exact h.esp_le
  obtain ⟨M₁, hexec, hpasses⟩ := exec?_passing (P := X.platform) hle receiver argument
  rw [Command.code_call, Line.ofCode, List.map_append] at hcode
  have hreach₁ := Platform.reaches_of_exec? hcode.left hexec
  have hcall := hcode.right
  rw [List.length_map] at hcall
  -- the routine is entered
  have hlabel := hlisting.left.left.head
  have hbodyCode := hlisting.left.right
  have hclosing := hlisting.right
  have hline := lineOf?_eq_some (fun k' hk' => hlinked.unique hlabel hk') hlabel
  have hcalled := hcall.head
  have hsignature : method.signature.name = m := hname
  rw [hsignature] at hcalled
  obtain ⟨M₂, hreach₂, hcalls⟩ := Platform.reaches_routine (P := X.platform) hpasses hcalled hline
    (hlinked.printing hfind).1 (hlinked.printing hfind).2 hlabel hlisting.left.left.tail
  let A' : Activation := ⟨S₀.table, some receiver.owner,
    method.signature.parameter.map Symbol.ofParameter, M₂.registers .esp, owns.flatten ++ A.outer⟩
  have hesp := hcalls.esp
  have htop : A'.top = M.registers .esp := by
    simp only [Activation.top, A', Option.isSome_map] at hesp ⊢
    rw [hsome] at hesp
    rw [hesp]
    split <;> omega
  have hA' : A'.Fits X := h.fits_callee hA henters rfl rfl rfl rfl htop
  have hrelated : Related X A' S₀.scope.frames [[]]
      { σ with frames := [[]], parameter, receiver := some ref } M₂ := by
    rw [henters.scope]
    refine h.enterMethod hA rfl hcalls.ebp rfl hcalls.memory hcalls.output
      (hrel _ hcalls.argument) (.some ⟨hclass, ?_⟩)
    rw [hcalls.receiver]
    exact ho
  have hends := hsimulated hA' (serves_of_enters henters rfl hbody hentries) hbody hentries
    hbodyCode hrelated
  rw [henters.scope] at hends
  -- it comes back, and what was pushed is released
  refine hends.bind fun hreach₃ hrelated₃ hkeeps => ?_
  have hbytes : method.signature.argumentBytes =
      if (argument.map (·.word X.platform M)).isSome then 8 else 4 := by
    rw [Option.isSome_map, hsome, Signature.argumentBytes]
  obtain ⟨M₄, hreach₄, hback⟩ := h.reaches_caller hA rfl htop rfl hcalls hrelated₃ hkeeps hclosing
    hcall.tail.head hbytes
  refine ⟨M₄, ?_, hback⟩
  rw [List.length_append, ← Nat.add_assoc] at hreach₄
  rw [Command.code_call, List.length_append, ← Nat.add_assoc]
  exact ((hreach₁.trans hreach₂).trans hreach₃).trans hreach₄

end Standing

end ClassLang
