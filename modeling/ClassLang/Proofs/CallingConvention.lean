/-
  ClassLang/Proofs/CallingConvention.lean
  =======================================
  **Callers and callees agree on what lies where.**

  A caller pushes the argument, if the method has a parameter, and then the address of
  the receiver; behind the call it takes back as many bytes.  The callee finds the two
  above its frame pointer, the receiver at 8 and the argument at 12.  What the caller
  does is decided by a signature that it looks up by names, what the callee does by its
  own scope, and nothing but the label ties the one to the other.

  For the caller, a call is traced back to the statement that it is part of
  (`Routine.exists_call`), and from there to the table.  For the callee, `Admitted` says
  which words above the frame pointer an instruction may touch, given whether there is
  a parameter and whether there is a receiver, and holds of all that a block is
  elaborated to.  `calling_convention` puts the two sides together.
-/
import ClassLang.Proofs.LabelClosure
import ClassLang.Proofs.StackDepth

namespace ClassLang

open Instruction (pushRegister release load)

/-! ### Calls in code -/

/-- The commands of a body and of the blocks inside it, in their order. -/
def Body.commands : Body → List Command
  | .finish _ => []
  | .simple command rest => command :: rest.commands
  | .branch _ inner rest => inner.commands ++ rest.commands

/-- A call with these lines before and behind it stands as it does in the code of a call statement:
    right behind the code that passes argument and receiver, right before their release. -/
structure CallsAt (receiver : Receiver) (method : Signature) (argument : Option Value)
    (before after : List (Line Instruction)) : Prop where
  passes : Line.ofCode (passing receiver argument) <:+ before
  releases : after.head? = some (.instruction (release method.argumentBytes))

theorem CallsAt.inside {receiver : Receiver} {method : Signature} {argument : Option Value}
    {before after : List (Line Instruction)} (h : CallsAt receiver method argument before after)
    (above below : List (Line Instruction)) :
    CallsAt receiver method argument (above ++ before) (after ++ below) := by
  refine ⟨h.passes.trans (List.suffix_append ..), ?_⟩
  rw [List.head?_append, h.releases]
  rfl

/-- A line of two pieces of code is a line of the first one or of the second one. -/
theorem split_append {α : Type} {xs ys before after : List α} {a : α}
    (h : xs ++ ys = before ++ a :: after) :
    (∃ below, xs = before ++ a :: below ∧ after = below ++ ys) ∨
      ∃ above, before = xs ++ above ∧ ys = above ++ a :: after := by
  rcases List.append_eq_append_iff.1 h with ⟨above, hbefore, hys⟩ | ⟨below, hxs, hafter⟩
  · exact .inr ⟨above, hbefore, hys⟩
  · cases below with
    | nil => exact .inr ⟨[], by rw [hxs, List.append_nil, List.append_nil], hafter.symm⟩
    | cons b below =>
      obtain ⟨rfl, rfl⟩ := List.cons.inj hafter
      exact .inl ⟨below, hxs, rfl⟩

theorem split_behind {α : Type} {xs ys before after : List α} {a : α} (hxs : a ∉ xs)
    (h : xs ++ ys = before ++ a :: after) :
    ∃ above, before = xs ++ above ∧ ys = above ++ a :: after := by
  rcases split_append h with ⟨below, rfl, -⟩ | hbehind
  · exact absurd (List.mem_append_right _ List.mem_cons_self) hxs
  · exact hbehind

theorem split_before {α : Type} {xs ys before after : List α} {a : α} (hys : a ∉ ys)
    (h : xs ++ ys = before ++ a :: after) :
    ∃ below, xs = before ++ a :: below ∧ after = below ++ ys := by
  rcases split_append h with hbefore | ⟨above, -, rfl⟩
  · exact hbefore
  · exact absurd (List.mem_append_right _ List.mem_cons_self) hys

/-- Code that sets a register calls nothing. -/
theorem not_call_of_sets {target : Register} {code : List Instruction}
    (h : ∀ c ∈ code, c.Sets target) (label : String) : .call label ∉ code := by
  intro hmem
  cases (h _ hmem).2

theorem not_call_passing (receiver : Receiver) (argument : Option Value) (label : String) :
    .call label ∉ passing receiver argument := by
  intro hmem
  rcases List.mem_append.1 hmem with hmem | hmem
  · rcases List.mem_append.1 hmem with hmem | hmem
    · cases argument with
      | none => cases hmem
      | some value =>
        rcases List.mem_append.1 hmem with hmem | hmem
        · exact not_call_of_sets (value.sets_fetch .eax) label hmem
        · cases List.mem_singleton.1 hmem
    · exact not_call_of_sets receiver.sets_address label hmem
  · cases List.mem_singleton.1 hmem

theorem mem_ofCode {code : List Instruction} {c : Instruction} :
    Line.instruction c ∈ Line.ofCode code ↔ c ∈ code := by
  simp [Line.ofCode]

/-- The only statements that call anything but the printing routines are calls. -/
theorem Command.exists_call {command : Command} {label : String} (h : .call label ∈ command.code)
    (hlabel : label ∉ [Label.printNumber, Label.printText]) :
    ∃ receiver method argument, command = .call receiver method argument := by
  have href : Reference.call label ∈ command.references := by
    rw [← command.references_code]
    exact List.mem_flatMap.2 ⟨_, h, List.mem_singleton_self _⟩
  rcases command.references_cases _ href with hdata | ⟨target, htarget, heq⟩
  · exact hdata.elim
  cases heq
  cases command with
  | call receiver method argument => exact ⟨receiver, method, argument, rfl⟩
  | print value | printText source =>
    cases htarget
    simp at hlabel
  | _ => cases htarget

/-- A call in the code of a call statement is the one of its method. -/
theorem callsAt_of_code {receiver : Receiver} {method : Signature} {argument : Option Value}
    {before after : List (Line Instruction)} {label : String}
    (h : Line.ofCode (Command.call receiver method argument).code =
      before ++ .instruction (.call label) :: after) :
    label = Label.method receiver.owner method.name ∧
      CallsAt receiver method argument before after := by
  have hpassing : Line.instruction (.call label) ∉ Line.ofCode (passing receiver argument) :=
    fun hmem => not_call_passing receiver argument label (mem_ofCode.1 hmem)
  rw [Command.code_call, Line.ofCode_append] at h
  obtain ⟨above, rfl, hcall⟩ := split_behind hpassing h
  cases above with
  | nil =>
    obtain ⟨hsame, rfl⟩ := List.cons.inj hcall
    cases hsame
    rw [List.append_nil]
    exact ⟨rfl, List.suffix_rfl, rfl⟩
  | cons line above =>
    have hrelease : Line.instruction (.call label) ∈
        Line.ofCode [release method.argumentBytes] := by
      have htail := (List.cons.inj hcall).2
      rw [Line.ofCode, htail]
      exact List.mem_append_right _ List.mem_cons_self
    cases List.mem_singleton.1 (mem_ofCode.1 hrelease)

theorem Branch.not_call_opening (head : Branch) (label : String) :
    Line.instruction (.call label) ∉ head.opening := by
  have htest : ∀ target, .call label ∉ head.condition.jumpUnless target := by
    intro target hmem
    rcases List.mem_append.1 hmem with hmem | hmem
    · rcases List.mem_append.1 hmem with hmem | hmem
      · exact not_call_of_sets (head.condition.left.sets_fetch .eax) label hmem
      · exact not_call_of_sets (head.condition.right.sets_fetch .ebx) label hmem
    · simp at hmem
  unfold Branch.opening
  split
  · exact fun hmem => htest _ (mem_ofCode.1 hmem)
  · intro hmem
    rcases List.mem_cons.1 hmem with hmem | hmem
    · cases hmem
    · exact htest _ (mem_ofCode.1 hmem)

theorem Branch.not_call_closing (head : Branch) (label : String) :
    Line.instruction (.call label) ∉ head.closing := by
  unfold Branch.closing
  split <;> simp

/-- A call of a method is part of the code of a call statement. -/
theorem Body.exists_call {body : Body} {before after : List (Line Instruction)} {label : String}
    (hlabel : label ∉ [Label.printNumber, Label.printText])
    (h : body.code = before ++ .instruction (.call label) :: after) :
    ∃ receiver method argument, .call receiver method argument ∈ body.commands ∧
      label = Label.method receiver.owner method.name ∧
      CallsAt receiver method argument before after := by
  induction body generalizing before after with
  | finish bytes =>
    have hnone : Line.instruction (.call label) ∉ Body.code (.finish bytes) := by
      unfold code releaseCode
      split <;> simp [Line.ofCode, release]
    rw [h] at hnone
    exact absurd (List.mem_append_right _ List.mem_cons_self) hnone
  | simple command rest ih =>
    rcases split_append h with ⟨below, hcommand, rfl⟩ | ⟨above, rfl, hrest⟩
    · have hmem : Line.instruction (.call label) ∈ Line.ofCode command.code := by
        rw [hcommand]
        exact List.mem_append_right _ List.mem_cons_self
      obtain ⟨receiver, method, argument, rfl⟩ := Command.exists_call (mem_ofCode.1 hmem) hlabel
      obtain ⟨hname, hcalls⟩ := callsAt_of_code hcommand
      exact ⟨receiver, method, argument, List.mem_cons_self, hname, hcalls.inside [] rest.code⟩
    · obtain ⟨receiver, method, argument, hmem, hname, hcalls⟩ := ih hrest
      have hinside := hcalls.inside (Line.ofCode command.code) []
      rw [List.append_nil] at hinside
      exact ⟨receiver, method, argument, List.mem_cons_of_mem _ hmem, hname, hinside⟩
  | branch head inner rest ihInner ihRest =>
    rcases split_append h with ⟨below, hblock, rfl⟩ | ⟨above, rfl, hrest⟩
    · obtain ⟨below, hopened, rfl⟩ := split_before (head.not_call_closing label) hblock
      obtain ⟨above, rfl, hinner⟩ := split_behind (head.not_call_opening label) hopened
      obtain ⟨receiver, method, argument, hmem, hname, hcalls⟩ := ihInner hinner
      have hinside := hcalls.inside head.opening (head.closing ++ rest.code)
      rw [← List.append_assoc] at hinside
      exact ⟨receiver, method, argument, List.mem_append_left _ hmem, hname, hinside⟩
    · obtain ⟨receiver, method, argument, hmem, hname, hcalls⟩ := ihRest hrest
      have hinside := hcalls.inside (head.opening ++ inner.code ++ head.closing) []
      rw [List.append_nil] at hinside
      exact ⟨receiver, method, argument, List.mem_append_right _ hmem, hname, hinside⟩

/-- The entry and the end of a routine call nothing. -/
theorem Routine.exists_call {r : Routine} {before after : List (Line Instruction)} {label : String}
    (hlabel : label ∉ [Label.printNumber, Label.printText])
    (h : r.listing.lines = before ++ .instruction (.call label) :: after) :
    ∃ receiver method argument, .call receiver method argument ∈ r.body.commands ∧
      label = Label.method receiver.owner method.name ∧
      CallsAt receiver method argument before after := by
  have hpreamble : Line.instruction (.call label) ∉ r.preamble := by
    unfold Routine.preamble Routine.opening
    split <;> simp [Line.ofCode, Instruction.copy, pushRegister]
  have hclosing : Line.instruction (.call label) ∉ Line.ofCode r.closing := by
    unfold Routine.closing
    split <;> simp [Line.ofCode]
  rw [r.listing_lines] at h
  obtain ⟨below, hcode, rfl⟩ := split_before hclosing h
  obtain ⟨above, rfl, hbody⟩ := split_behind hpreamble hcode
  obtain ⟨receiver, method, argument, hmem, hname, hcalls⟩ := r.body.exists_call hlabel hbody
  exact ⟨receiver, method, argument, hmem, hname, hcalls.inside _ _⟩

/-! ### Calls and the table -/

/-- The method that a label belongs to. -/
structure ClassTable.HasLabel (table : ClassTable) (label : String) (d : ClassDef)
    (s : Signature) : Prop where
  class_mem : d ∈ table.classes
  method_mem : s ∈ d.methods
  label : Label.method d.name s.name = label

/-- There is an argument exactly if there is a parameter. -/
theorem Context.isSome_argument? {Γ : Context} {q : Option Parameter} {a : Option Tree.Value}
    {argument : Option Value} (h : Γ.argument? q a = some argument) :
    argument.isSome = q.isSome := by
  rcases argument?_cases h with ⟨rfl, -, rfl⟩ | ⟨p, v, value, rfl, -, rfl, -⟩
  · rfl
  · rfl

/-- A call statement calls a method that the table knew when the routine began. -/
theorem Standing.ElaboratesBlock.exists_signature {S S' : Standing} {t : Tree.Block} {body : Body}
    (h : ElaboratesBlock S t body S') {receiver : Receiver} {method : Signature}
    {argument : Option Value} (hmem : .call receiver method argument ∈ body.commands) :
    (∃ m, S.table.method? receiver.owner m = some method) ∧
      argument.isSome = method.parameter.isSome := by
  induction h with
  | finish => cases hmem
  | @simple S S₁ S₂ s rest command body hsimple _ ih =>
    rcases List.mem_cons.1 hmem with rfl | hmem
    · cases hsimple with
      | call hcallee hmethod hargument => exact ⟨⟨_, hmethod⟩, Context.isSome_argument? hargument⟩
    · rw [← hsimple.keeps.table]
      exact ih hmem
  | branch _ hinner _ ihInner ihRest =>
    rcases List.mem_append.1 hmem with hmem | hmem
    · exact ihInner hmem
    · have hrest := ihRest hmem
      rw [hinner.keeps.leave.table] at hrest
      exact hrest

namespace Tree.Program

variable {p : Tree.Program} {compilation : Compilation}

/-- At the end the table holds the classes of the program. -/
theorem Elaborates.table (h : p.Elaborates compilation) :
    compilation.table.classes = p.classes.map Tree.Class.definition ∧
      compilation.table.Distinct := by
  cases h with
  | @intro S S' rs body hclasses hmain =>
    have hreads : S.ReadsClasses p.classes :=
      (hclasses.origins Standing.readsClasses_initial (fun k hk => hk) hmain.entries).2
    have htable : S'.table = S.table := hmain.keeps.table
    exact ⟨htable ▸ hreads.classes, htable ▸ hreads.distinct⟩

/-- The labels of the methods of a program are those of its routines, in their order. -/
theorem Elaborates.methodLabels (h : p.Elaborates compilation) :
    p.methods.map (fun q => Label.method q.1 q.2.name) =
      compilation.methods.map Routine.entryLabel := by
  refine List.forall₂_eq_eq_eq ▸ List.forall₂_map_left_iff.2 (List.forall₂_map_right_iff.2 ?_)
  refine h.methods.imp ?_
  rintro ⟨c, m⟩ r ⟨howner, hname, -⟩
  rw [Routine.entryLabel, howner, hname]
  rfl

/-- A method of the table is one of the program. -/
theorem Elaborates.exists_method (h : p.Elaborates compilation) {label : String} {d : ClassDef}
    {s : Signature} (hs : compilation.table.HasLabel label d s) :
    ∃ m, (d.name, m) ∈ p.methods ∧ m.signature = s := by
  have hd := hs.class_mem
  rw [h.table.1] at hd
  obtain ⟨k, hk, rfl⟩ := List.mem_map.1 hd
  obtain ⟨m, hm, hsignature⟩ := List.mem_map.1 hs.method_mem
  exact ⟨m, List.mem_flatMap.2 ⟨k, hk, List.mem_map_of_mem hm⟩, hsignature⟩

theorem Elaborates.nodup_methodLabels (h : p.Elaborates compilation)
    (htidy : compilation.LabelsTidy) :
    (p.methods.map fun q => Label.method q.1 q.2.name).Nodup := by
  have hreserved := (List.nodup_append.1 htidy.taken).2.1
  rw [htidy.reserved] at hreserved
  rw [h.methodLabels]
  exact List.nodup_reverse.1 (List.nodup_append.1 hreserved).1

/-- No two methods have the same label. -/
theorem Elaborates.hasLabel_unique (h : p.Elaborates compilation) (htidy : compilation.LabelsTidy)
    {label : String} {d d' : ClassDef} {s s' : Signature}
    (hs : compilation.table.HasLabel label d s) (hs' : compilation.table.HasLabel label d' s') :
    d' = d ∧ s' = s := by
  obtain ⟨m, hm, rfl⟩ := h.exists_method hs
  obtain ⟨m', hm', rfl⟩ := h.exists_method hs'
  have hlabels : Label.method d'.name m'.name = Label.method d.name m.name :=
    hs'.label.trans hs.label.symm
  have hsame : (d'.name, m') = (d.name, m) :=
    List.inj_on_of_nodup_map (h.nodup_methodLabels htidy) hm' hm hlabels
  obtain ⟨hname, rfl⟩ := Prod.mk.inj hsame
  refine ⟨?_, rfl⟩
  exact List.inj_on_of_nodup_map h.table.2.classes hs'.class_mem hs.class_mem hname

/-- No method has the label of a printing routine. -/
theorem Elaborates.hasLabel_not_printing (h : p.Elaborates compilation)
    (htidy : compilation.LabelsTidy) {label : String} {d : ClassDef} {s : Signature}
    (hs : compilation.table.HasLabel label d s) :
    label ∉ [Label.printNumber, Label.printText] := by
  obtain ⟨m, hm, rfl⟩ := h.exists_method hs
  have hmem : label ∈ compilation.methods.map Routine.entryLabel := by
    rw [← h.methodLabels, ← hs.label]
    exact List.mem_map.2 ⟨(d.name, m), hm, rfl⟩
  obtain ⟨r, hr, rfl⟩ := List.mem_map.1 hmem
  have hclaimed := htidy.claimed r hr
  intro hprinting
  simp only [List.mem_cons, List.not_mem_nil, or_false] at hprinting
  rcases hprinting with heq | heq
  · rw [heq] at hclaimed
    exact absurd hclaimed (by decide)
  · rw [heq] at hclaimed
    exact absurd hclaimed (by decide)

/-- What the table knew when a routine began, it says at the end. -/
theorem Elaborates.hasLabel_of_covers (h : p.Elaborates compilation) {table : ClassTable}
    (hcovers : p.Covers table) {c m : String} {s : Signature} (hs : table.method? c m = some s) :
    ∃ d, compilation.table.HasLabel (Label.method c s.name) d s ∧ d.name = c := by
  rw [ClassTable.method?, Option.bind_eq_some_iff] at hs
  obtain ⟨d, hfind, hd⟩ := hs
  obtain ⟨k, hk, rfl, -, hmethods⟩ := hcovers hfind
  obtain ⟨m', hm', rfl⟩ := hmethods s (List.mem_of_find?_eq_some hd)
  refine ⟨k.definition, ⟨?_, List.mem_map_of_mem hm', rfl⟩, rfl⟩
  rw [h.table.1]
  exact List.mem_map_of_mem hk

end Tree.Program

/-! ### Words above the frame pointer -/

def Operand.addresses : Operand → List Address
  | .memory _ address => [address]
  | _ => []

/-- The addresses that an instruction has among its operands. -/
def Instruction.addresses : Instruction → List Address
  | .mov target source => target.addresses ++ source.addresses
  | .lea _ address => [address]
  | .push source | .add _ source | .sub _ source | .xor _ source => source.addresses
  | .cmp left right => left.addresses ++ right.addresses
  | _ => []

section

variable {P R : Prop}

/-- An address above the frame pointer is that of the argument or of the receiver, and there is
    one. -/
def Address.Admitted (P R : Prop) (address : Address) : Prop :=
  address.base = .ebp → 0 < address.displacement →
    address = .argument ∧ P ∨ address = .receiver ∧ R

/-- The words above the frame pointer that an instruction touches are there: the argument if `P`,
    the receiver if `R`. -/
def Instruction.Admitted (P R : Prop) (code : Instruction) : Prop :=
  ∀ address ∈ code.addresses, address.Admitted P R

theorem Address.admitted_slot (offset : Nat) : (Address.slot offset).Admitted P R := by
  intro _ hpositive
  simp only [slot, offBy] at hpositive
  omega

theorem Address.admitted_of_base {address : Address} (h : address.base ≠ .ebp) :
    address.Admitted P R :=
  fun hbase => absurd hbase h

theorem Address.admitted_argument (h : P) : Address.argument.Admitted P R :=
  fun _ _ => .inl ⟨rfl, h⟩

theorem Address.admitted_receiver (h : R) : Address.receiver.Admitted P R :=
  fun _ _ => .inr ⟨rfl, h⟩

namespace Instruction

theorem admitted_of_none {code : Instruction} (h : code.addresses = []) : code.Admitted P R := by
  intro address hmem
  rw [h] at hmem
  cases hmem

theorem admitted_of_singleton {code : Instruction} {address : Address}
    (h : code.addresses = [address]) (haddress : address.Admitted P R) : code.Admitted P R := by
  intro address' hmem
  rw [h, List.mem_singleton] at hmem
  exact hmem ▸ haddress

end Instruction

/-- The storage is not that of the parameter, unless there is one. -/
def Storage.Admitted (P : Prop) : Storage → Prop
  | .parameter => P
  | _ => True

def Place.Admitted (P R : Prop) : Place → Prop
  | .binding _ storage => storage.Admitted P
  | .receiverField _ _ => R
  | .objectField _ storage _ _ => storage.Admitted P

def Value.Admitted (P R : Prop) : Value → Prop
  | .place p => p.Admitted P R
  | .literal _ => True

open Instruction (admitted_of_none admitted_of_singleton)

theorem Storage.Admitted.objectAddress {storage : Storage} (h : storage.Admitted P)
    (target : Register) : ∀ c ∈ storage.objectAddress target, c.Admitted P R := by
  cases storage with
  | frame offset =>
    exact List.forall_mem_singleton.2 (admitted_of_singleton rfl (Address.admitted_slot offset))
  | parameter =>
    exact List.forall_mem_singleton.2 (admitted_of_singleton rfl (Address.admitted_argument h))
  | data label => exact List.forall_mem_singleton.2 (admitted_of_none rfl)

theorem Storage.Admitted.fieldAddress {storage : Storage} (h : storage.Admitted P) (index : Nat)
    {target : Register} (htarget : target ≠ .ebp) :
    ∀ c ∈ storage.fieldAddress index target, c.Admitted P R := by
  have hfield : (Instruction.lea target (.field target index)).Admitted P R :=
    admitted_of_singleton rfl (Address.admitted_of_base htarget)
  cases storage with
  | frame offset =>
    exact List.forall_mem_singleton.2 (admitted_of_singleton rfl (Address.admitted_slot _))
  | parameter | data =>
    refine List.forall_mem_append.2 ⟨h.objectAddress target, ?_⟩
    split
    · exact List.forall_mem_nil _
    · exact List.forall_mem_singleton.2 hfield

theorem Storage.Admitted.fieldValue {storage : Storage} (h : storage.Admitted P) (index : Nat)
    {target : Register} (htarget : target ≠ .ebp) :
    ∀ c ∈ storage.fieldValue index target, c.Admitted P R := by
  have hfield : (load target (.field target index)).Admitted P R :=
    admitted_of_singleton rfl (Address.admitted_of_base htarget)
  cases storage with
  | frame offset =>
    exact List.forall_mem_singleton.2 (admitted_of_singleton rfl (Address.admitted_slot _))
  | parameter | data =>
    exact List.forall_mem_append.2 ⟨h.objectAddress target, List.forall_mem_singleton.2 hfield⟩

theorem Place.Admitted.address {place : Place} (h : place.Admitted P R) :
    ∀ c ∈ place.address, c.Admitted P R := by
  cases place with
  | binding symbol storage =>
    unfold Place.address
    dsimp only
    split
    · exact List.forall_mem_singleton.2 (admitted_of_singleton rfl (Address.admitted_slot _))
    · exact List.forall_mem_singleton.2 (admitted_of_singleton rfl (Address.admitted_argument h))
    · exact Storage.Admitted.objectAddress h .ebx
  | receiverField field index =>
    refine List.forall_mem_cons.2 ⟨admitted_of_singleton rfl (Address.admitted_receiver h), ?_⟩
    split
    · exact List.forall_mem_nil _
    · have hebx : Register.ebx ≠ .ebp := by decide
      exact List.forall_mem_singleton.2
        (admitted_of_singleton rfl (Address.admitted_of_base hebx))
  | objectField owner storage field index =>
    exact Storage.Admitted.fieldAddress h index (by decide)

theorem Value.Admitted.fetch {value : Value} (h : value.Admitted P R) {target : Register}
    (htarget : target ≠ .ebp) : ∀ c ∈ value.fetch target, c.Admitted P R := by
  cases value with
  | literal n => exact List.forall_mem_singleton.2 (admitted_of_none rfl)
  | place p =>
    cases p with
    | binding symbol storage =>
      unfold Value.fetch Place.fetch
      dsimp only
      split
      · exact List.forall_mem_singleton.2 (admitted_of_singleton rfl (Address.admitted_slot _))
      · exact List.forall_mem_singleton.2 (admitted_of_singleton rfl (Address.admitted_argument h))
      · exact Storage.Admitted.objectAddress h target
    | receiverField field index =>
      exact List.forall_mem_cons.2 ⟨admitted_of_singleton rfl (Address.admitted_receiver h),
        List.forall_mem_singleton.2 (admitted_of_singleton rfl (Address.admitted_of_base htarget))⟩
    | objectField owner storage field index =>
      exact Storage.Admitted.fieldValue h index htarget

theorem admitted_zeroFields (offset fields : Nat) :
    ∀ c ∈ zeroFields offset fields, c.Admitted P R := by
  intro c hc
  obtain ⟨index, -, rfl⟩ := List.mem_map.1 hc
  exact admitted_of_singleton rfl (Address.admitted_slot _)

theorem admitted_copyFields (fields : Nat) {target : Nat → Address}
    (h : ∀ index, (target index).Admitted P R) :
    ∀ c ∈ copyFields fields target, c.Admitted P R := by
  intro c hc
  obtain ⟨index, -, hc⟩ := List.mem_flatMap.1 hc
  rcases List.mem_cons.1 hc with rfl | hc
  · exact admitted_of_singleton rfl (Address.admitted_of_base (show Register.eax ≠ .ebp by decide))
  · rw [List.mem_singleton.1 hc]
    exact admitted_of_singleton rfl (h index)

namespace Standing

variable {S S' : Standing}

/-- The parameter and the receiver of a routine are granted to its code. -/
structure Grants (S : Standing) (P R : Prop) : Prop where
  parameter : S.scope.parameter.isSome = true → P
  receiver : S.owner.isSome = true → R

theorem Grants.keeps (h : S.Grants P R) (hkeeps : S.Keeps S') : S'.Grants P R :=
  ⟨fun hparameter => h.parameter (hkeeps.parameter ▸ hparameter),
    fun howner => h.receiver (hkeeps.owner ▸ howner)⟩

theorem Grants.storage (h : S.Grants P R) (hS : S.Sound) {x : String} {s : Symbol}
    {storage : Storage} (hs : S.scope.find? x = some s)
    (hstorage : S.toContext.storage s = .ok storage) : storage.Admitted P := by
  rcases Context.storage_cases hS hs hstorage with
    ⟨rfl, -, hparameter⟩ | ⟨-, ⟨label, rfl, -⟩ | ⟨offset, rfl, -⟩⟩
  · exact h.parameter (by rw [hparameter]; rfl)
  · trivial
  · trivial

theorem Grants.place (h : S.Grants P R) (hS : S.Sound) {p : Tree.Place} {place : Place}
    (hplace : S.place? p = some place) : place.Admitted P R := by
  cases p with
  | «variable» x =>
    obtain ⟨s, hs, storage, hstorage, rfl⟩ := Context.place?_variable.1 hplace
    exact h.storage hS hs hstorage
  | receiverField f =>
    obtain ⟨owner, howner, index, -, rfl⟩ := Context.place?_receiverField.1 hplace
    exact h.receiver (by rw [howner]; rfl)
  | objectField x f =>
    obtain ⟨s, hs, c, -, index, -, storage, hstorage, rfl⟩ := Context.place?_objectField.1 hplace
    exact h.storage hS hs hstorage

theorem Grants.value (h : S.Grants P R) (hS : S.Sound) {type : Ty} {v : Tree.Value} {value : Value}
    (hvalue : S.valueOf? type v = some value) : value.Admitted P R := by
  cases v with
  | number digits =>
    obtain ⟨n, -, -, rfl⟩ := Context.valueOf?_number.1 hvalue
    trivial
  | place p =>
    obtain ⟨place, hplace, -, rfl⟩ := Context.valueOf?_place.1 hvalue
    exact h.place hS hplace

/-- A call without an object, or on the receiver, is one inside a class. -/
theorem Grants.receiverAddress (h : S.Grants P R) (hS : S.Sound) {callee : Tree.Callee}
    {receiver : Receiver} {m : String} (hcallee : S.callee? callee = some (receiver, m)) :
    ∀ c ∈ receiver.address, c.Admitted P R := by
  cases callee with
  | bare n | receiver n =>
    simp only [Context.callee?, Option.map_eq_some_iff, Prod.mk.injEq] at hcallee
    obtain ⟨owner, howner, rfl, -⟩ := hcallee
    have hgranted : R := h.receiver (by rw [howner]; rfl)
    exact List.forall_mem_singleton.2
      (admitted_of_singleton rfl (Address.admitted_receiver hgranted))
  | object x n =>
    obtain ⟨s, hs, c, -, storage, hstorage, rfl, -⟩ := Context.callee?_object.1 hcallee
    exact (h.storage hS hs hstorage).objectAddress .eax

theorem Grants.argument (h : S.Grants P R) (hS : S.Sound) {q : Option Parameter}
    {a : Option Tree.Value} {argument : Option Value}
    (hargument : S.argument? q a = some argument) : ∀ value ∈ argument, value.Admitted P R := by
  rcases Context.argument?_cases hargument with
    ⟨-, -, rfl⟩ | ⟨p, v, value, -, -, rfl, hvalue⟩
  · exact nofun
  · intro value' hmem
    cases hmem
    exact h.value hS hvalue

/-- A statement touches the argument and the receiver only where they are. -/
theorem Elaborates.admitted (h : S.Grants P R) (hS : S.Sound) {s : Tree.Simple} {command : Command}
    (hs : S.Elaborates s command S') : ∀ c ∈ command.code, c.Admitted P R := by
  have hfetch : ∀ {type v value}, S.valueOf? type v = some value →
      ∀ c ∈ value.fetch .eax, c.Admitted P R :=
    fun hvalue => (h.value hS hvalue).fetch (by decide)
  have hcalled : ∀ {push : Instruction} (target : String) (bytes : Nat), push.Admitted P R →
      ∀ c ∈ [push, .call target, release bytes], c.Admitted P R := by
    intro push target bytes hpush
    exact List.forall_mem_cons.2 ⟨hpush, List.forall_mem_cons.2 ⟨admitted_of_none rfl,
      List.forall_mem_singleton.2 (admitted_of_none rfl)⟩⟩
  have hpush : (pushRegister .eax).Admitted P R := admitted_of_none rfl
  have hebx : ∀ index, (Address.field .ebx index).Admitted P R :=
    fun index => Address.admitted_of_base (show Register.ebx ≠ .ebp by decide)
  cases hs with
  | number htype hfree hvalue =>
    refine List.forall_mem_append.2
      ⟨hfetch hvalue, List.forall_mem_cons.2 ⟨admitted_of_none rfl, ?_⟩⟩
    exact List.forall_mem_singleton.2 (admitted_of_singleton rfl (Address.admitted_slot _))
  | text | string => exact List.forall_mem_nil _
  | create =>
    exact List.forall_mem_cons.2 ⟨admitted_of_none rfl, admitted_zeroFields _ _⟩
  | copy htype hfree hvalue =>
    refine List.forall_mem_append.2 ⟨List.forall_mem_append.2 ⟨hfetch hvalue, ?_⟩, ?_⟩
    · exact List.forall_mem_singleton.2 (admitted_of_none rfl)
    · exact admitted_copyFields _ fun index => Address.admitted_slot _
  | assignNumber htarget htype hvalue =>
    refine List.forall_mem_append.2
      ⟨List.forall_mem_append.2 ⟨(h.place hS htarget).address, hfetch hvalue⟩, ?_⟩
    exact List.forall_mem_singleton.2 (admitted_of_singleton rfl (hebx 0))
  | assignObject htarget htype hvalue =>
    refine List.forall_mem_append.2
      ⟨List.forall_mem_append.2 ⟨(h.place hS htarget).address, hfetch hvalue⟩, ?_⟩
    exact admitted_copyFields _ hebx
  | @call callee a receiver m signature argument hcallee hmethod hargument =>
    refine List.forall_mem_append.2
      ⟨List.forall_mem_append.2 ⟨?_, h.receiverAddress hS hcallee⟩, hcalled _ _ hpush⟩
    cases argument with
    | none => exact List.forall_mem_nil _
    | some value =>
      have hvalue : value.Admitted P R := h.argument hS hargument value rfl
      exact List.forall_mem_append.2
        ⟨hvalue.fetch (by decide), List.forall_mem_singleton.2 hpush⟩
  | print hvalue => exact List.forall_mem_append.2 ⟨hfetch hvalue, hcalled _ _ hpush⟩
  | printLiteral => exact hcalled _ _ (admitted_of_none rfl)
  | @printVariable x s hsymbol htype =>
    refine hcalled _ _ ?_
    rcases Context.Scope.find?_cases hsymbol with ⟨-, frame, hframe, hs⟩ | ⟨-, hparameter⟩
    · obtain ⟨hrole, hlabel⟩ := hS.scope.binding frame hframe s hs
      obtain ⟨label, hlabel⟩ := Option.isSome_iff_exists.1 (hlabel.2 htype)
      simp only [TextSource.push, hrole, hlabel]
      exact admitted_of_none rfl
    · obtain ⟨hrole, -⟩ := hS.scope.parameter s hparameter
      have hgranted : P := h.parameter (by rw [hparameter]; rfl)
      simp only [TextSource.push, hrole]
      exact admitted_of_singleton rfl (Address.admitted_argument hgranted)

theorem admitted_opening (h : S.Grants P R) (hS : S.Sound) {c : Tree.Condition}
    {condition : Condition} (hcondition : S.condition? c = some condition) (kind : BranchKind)
    (id : Nat) : ∀ code, .instruction code ∈ (Branch.mk kind condition id).opening →
      code.Admitted P R := by
  obtain ⟨left, hleft, right, hright, rfl⟩ := Context.condition?_eq_some.1 hcondition
  have htest : ∀ target, ∀ code ∈ (Condition.mk left c.relation right).jumpUnless target,
      code.Admitted P R := by
    intro target
    refine List.forall_mem_append.2 ⟨List.forall_mem_append.2 ⟨?_, ?_⟩, ?_⟩
    · exact (h.value hS hleft).fetch (by decide)
    · exact (h.value hS hright).fetch (by decide)
    · exact List.forall_mem_cons.2 ⟨admitted_of_none rfl,
        List.forall_mem_singleton.2 (admitted_of_none rfl)⟩
  intro code hmem
  cases kind with
  | conditional => exact htest _ code (mem_ofCode.1 hmem)
  | loop =>
    rcases List.mem_cons.1 hmem with hmem | hmem
    · cases hmem
    · exact htest _ code (mem_ofCode.1 hmem)

/-- The statements of a block touch the argument and the receiver only where they are. -/
theorem ElaboratesBlock.admitted (h : S.Grants P R) (hS : S.Sound) {t : Tree.Block} {body : Body}
    (hblock : ElaboratesBlock S t body S') :
    ∀ code, .instruction code ∈ body.code → code.Admitted P R := by
  induction hblock with
  | @finish S =>
    intro code hmem
    have hrelease : code ∈ Body.releaseCode (S.scope.frameBytes S.table) := mem_ofCode.1 hmem
    unfold Body.releaseCode at hrelease
    split at hrelease
    · cases hrelease
    · rw [List.mem_singleton.1 hrelease]
      exact admitted_of_none rfl
  | simple hsimple _ ih =>
    intro code hmem
    rcases List.mem_append.1 hmem with hmem | hmem
    · exact hsimple.admitted h hS code (mem_ofCode.1 hmem)
    · exact ih (h.keeps hsimple.keeps) (hsimple.sound hS) code hmem
  | @branch S S₁ S₂ kind c condition inner rest innerBody restBody hcondition hinner _ ihInner
      ihRest =>
    have hentered := sound_enter hS
    have hleft := hinner.keeps.sound_leave hS
    intro code hmem
    rcases List.mem_append.1 hmem with hmem | hmem
    · rcases List.mem_append.1 hmem with hmem | hmem
      · rcases List.mem_append.1 hmem with hmem | hmem
        · exact admitted_opening h hS hcondition kind _ code hmem
        · exact ihInner ⟨h.parameter, h.receiver⟩ hentered code hmem
      · cases kind with
        | conditional => cases List.mem_singleton.1 hmem
        | loop =>
          simp only [Branch.closing, List.mem_cons, Line.instruction.injEq, List.not_mem_nil,
            or_false, reduceCtorEq] at hmem
          rw [hmem]
          exact admitted_of_none rfl
    · exact ihRest (h.keeps hinner.keeps.leave) hleft code hmem

end Standing

end

/-- What a routine touches above its frame pointer: the argument only if the routine has a
    parameter, the receiver only if it belongs to a class. -/
theorem Routine.admitted {r : Routine} {p : Tree.Program} {parameter : Option Parameter}
    {tree : Tree.Block} {S S' : Standing} (henters : p.Enters S r.owner parameter)
    (hbody : Standing.ElaboratesBlock S tree r.body S') :
    ∀ code, .instruction code ∈ r.listing.lines →
      code.Admitted (parameter.isSome = true) (r.owner.isSome = true) := by
  have hgrants : S.Grants (parameter.isSome = true) (r.owner.isSome = true) := by
    refine ⟨fun hparameter => ?_, fun howner => henters.owner ▸ howner⟩
    rw [henters.scope, Option.isSome_map] at hparameter
    exact hparameter
  have hedge : ∀ code, code ∈ r.opening ++ r.closing → code.addresses = [] := by
    obtain ⟨owner, method, body⟩ := r
    cases owner <;> simp [opening, closing, pushRegister, Instruction.copy, Instruction.addresses,
      Operand.addresses]
  intro code hmem
  rw [r.listing_lines] at hmem
  rcases List.mem_append.1 hmem with hmem | hmem
  · rcases List.mem_append.1 hmem with hmem | hmem
    · rcases List.mem_cons.1 hmem with hmem | hmem
      · cases hmem
      · exact Instruction.admitted_of_none (hedge code (List.mem_append_left _ (mem_ofCode.1 hmem)))
    · exact hbody.admitted hgrants henters.sound code hmem
  · exact Instruction.admitted_of_none (hedge code (List.mem_append_right _ (mem_ofCode.1 hmem)))

/-! ### Both sides -/

def Instruction.isPush : Instruction → Bool
  | .push _ => true
  | _ => false

theorem filter_isPush_of_sets {target : Register} {code : List Instruction}
    (h : ∀ c ∈ code, c.Sets target) : code.filter Instruction.isPush = [] := by
  rw [List.filter_eq_nil_iff]
  intro c hc hpush
  have hpushed := (h c hc).1
  cases c with
  | push source => cases hpushed
  | _ => cases hpush

/-- The argument and the receiver are all that a call statement pushes. -/
theorem pushes_passing (receiver : Receiver) (argument : Option Value) :
    (passing receiver argument).filter Instruction.isPush =
      argument.toList.map (fun _ => pushRegister .eax) ++ [pushRegister .eax] := by
  have hpush : [pushRegister .eax].filter Instruction.isPush = [pushRegister .eax] := rfl
  cases argument with
  | none =>
    rw [passing, List.filter_append, List.filter_append, hpush,
      filter_isPush_of_sets receiver.sets_address]
    rfl
  | some value =>
    rw [passing, List.filter_append, List.filter_append, List.filter_append, hpush,
      filter_isPush_of_sets receiver.sets_address, filter_isPush_of_sets (value.sets_fetch .eax)]
    rfl

/-- The lines around a call are those of a statement of the routine that calls the method: they
    push an argument, exactly if the method has a parameter, then the receiver, and nothing else,
    and behind the call they release what the signature asks for. -/
def Routine.CallsMethod (r : Routine) (d : ClassDef) (s : Signature)
    (before after : List (Line Instruction)) : Prop :=
  ∃ receiver argument, .call receiver s argument ∈ r.body.commands ∧ receiver.owner = d.name ∧
    argument.isSome = s.parameter.isSome ∧ CallsAt receiver s argument before after ∧
    (passing receiver argument).filter Instruction.isPush =
      if s.parameter.isSome then [pushRegister .eax, pushRegister .eax] else [pushRegister .eax]

theorem Tree.Program.Elaborates.callsMethod {p : Tree.Program} {compilation : Compilation}
    (h : p.Elaborates compilation) {r : Routine} (hr : r ∈ compilation.routines)
    {before after : List (Line Instruction)} {label : String}
    (hlabel : label ∉ [Label.printNumber, Label.printText])
    (hlines : r.listing.lines = before ++ .instruction (.call label) :: after) :
    ∃ d s, compilation.table.HasLabel label d s ∧ r.CallsMethod d s before after := by
  obtain ⟨receiver, s, argument, hmem, rfl, hcalls⟩ := r.exists_call hlabel hlines
  obtain ⟨parameter, tree, S, S', henters, hbody, -⟩ := h.origin hr
  obtain ⟨⟨m, hmethod⟩, hargument⟩ := hbody.exists_signature hmem
  obtain ⟨d, hhas, hname⟩ := h.hasLabel_of_covers henters.covers hmethod
  refine ⟨d, s, hhas, receiver, argument, hmem, hname.symm, hargument, hcalls, ?_⟩
  rw [pushes_passing, ← hargument]
  cases argument <;> rfl

/-- An address above the frame pointer occurs in methods only, and is that of the receiver, or of
    the argument of a method with a parameter. -/
theorem Tree.Program.Elaborates.admitted {p : Tree.Program} {compilation : Compilation}
    (h : p.Elaborates compilation) {r : Routine} (hr : r ∈ compilation.routines)
    {code : Instruction} (hcode : .instruction code ∈ r.listing.lines) {address : Address}
    (haddress : address ∈ code.addresses) (hbase : address.base = .ebp)
    (hpositive : 0 < address.displacement) :
    r ∈ compilation.methods ∧ ∃ owner s, r.owner = some owner ∧
      compilation.table.method? owner r.method = some s ∧
      (address = .receiver ∨ address = .argument ∧ s.parameter.isSome = true) := by
  rcases List.mem_cons.1 hr with rfl | hr
  · obtain ⟨howner, S, S', henters, hbody, -⟩ := h.main
    have hadmitted := Routine.admitted (howner.symm ▸ henters) hbody code hcode address haddress
      hbase hpositive
    rw [howner] at hadmitted
    rcases hadmitted with ⟨-, hparameter⟩ | ⟨-, hreceiver⟩
    · cases hparameter
    · cases hreceiver
  · obtain ⟨⟨c, m⟩, hq, howner, hname, S, S', henters, hbody, -⟩ :=
      exists_left_of_forall₂ h.methods hr
    have hadmitted := Routine.admitted (howner.symm ▸ henters) hbody code hcode address haddress
      hbase hpositive
    obtain ⟨k, hk, hm⟩ := List.mem_flatMap.1 hq
    obtain ⟨m', hm', heq⟩ := List.mem_map.1 hm
    cases heq
    have hmethod : compilation.table.method? k.name r.method = some m.signature := by
      refine h.table.2.method?_eq_some.2 ⟨hname.symm, k.definition, ?_, rfl, ?_⟩
      · rw [h.table.1]
        exact List.mem_map_of_mem hk
      · exact List.mem_map_of_mem hm'
    refine ⟨hr, k.name, m.signature, howner, hmethod, ?_⟩
    rcases hadmitted with ⟨hargument, hparameter⟩ | ⟨hreceiver, -⟩
    · exact .inr ⟨hargument, hparameter⟩
    · exact .inl hreceiver

/-- Callers and callees agree on the calling convention.  Whatever a listing of an accepted program
    calls, the printing routines apart, is the label of one method of the table, and the caller
    passes and releases what that method's signature says.  Above the frame pointer, only methods
    look, and only at the receiver or, if their signature has a parameter, at the argument. -/
theorem calling_convention {source : String} {compilation : Compilation}
    (h : compile source = .ok compilation) :
    (∀ r ∈ compilation.routines, ∀ before label after,
      r.listing.lines = before ++ .instruction (.call label) :: after →
      label ∉ [Label.printNumber, Label.printText] →
      ∃ d s, compilation.table.HasLabel label d s ∧
        (∀ d' s', compilation.table.HasLabel label d' s' → d' = d ∧ s' = s) ∧
        r.CallsMethod d s before after) ∧
    (∀ label d s, compilation.table.HasLabel label d s →
      label ∉ [Label.printNumber, Label.printText]) ∧
    ∀ r ∈ compilation.routines, ∀ code address, .instruction code ∈ r.listing.lines →
      address ∈ code.addresses → address.base = .ebp → 0 < address.displacement →
      r ∈ compilation.methods ∧ ∃ owner s, r.owner = some owner ∧
        compilation.table.method? owner r.method = some s ∧
        (address = .receiver ∨ address = .argument ∧ s.parameter.isSome = true) := by
  obtain ⟨p, hp⟩ := exists_spelledBy h
  obtain ⟨helaborates, htidy⟩ := hp.elaborates h
  refine ⟨?_, ?_, ?_⟩
  · intro r hr before label after hlines hlabel
    obtain ⟨d, s, hhas, hcalls⟩ := helaborates.callsMethod hr hlabel hlines
    refine ⟨d, s, hhas, ?_, hcalls⟩
    intro d' s' hhas'
    exact helaborates.hasLabel_unique htidy hhas hhas'
  · intro label d s hhas
    exact helaborates.hasLabel_not_printing htidy hhas
  · intro r hr code address hcode haddress hbase hpositive
    exact helaborates.admitted hr hcode haddress hbase hpositive

theorem calling_convention_shadow :
    ∃ compilation before after, compile shadowText = .ok compilation ∧
      compilation.entry.listing.lines = before ++ .instruction (.call "_P_f") :: after ∧
      ∃ d s, compilation.table.HasLabel "_P_f" d s ∧
        compilation.entry.CallsMethod d s before after := by
  obtain ⟨tokens, htokens, hyield⟩ := shadowTree_spelledBy.1.spelled
  have hcalled : (shadowTree.compile?.map fun c =>
      c.entry.listing.lines.contains (.instruction (.call "_P_f"))) = some true := by
    decide +kernel
  obtain ⟨compilation, htree, hcontains⟩ := Option.map_eq_some_iff.1 hcalled
  have hcompile : compile shadowText = .ok compilation :=
    bind_eq_ok.2 ⟨tokens, htokens, compileTokens_eq_ok_iff.2 ⟨shadowTree, hyield, htree⟩⟩
  have hmem := List.contains_iff_mem.1 hcontains
  obtain ⟨before, after, hlines⟩ := List.append_of_mem hmem
  obtain ⟨d, s, hhas, -, hcalls⟩ := (calling_convention hcompile).1 compilation.entry
    List.mem_cons_self before "_P_f" after hlines (by decide)
  exact ⟨compilation, before, after, hcompile, hlines, d, s, hhas, hcalls⟩

end ClassLang
