import Resumable.Proofs.Instrument.Frames
import Resumable.Proofs.Instrument.PutOff
import Resumable.Proofs.Instrument.Resume

/-!
# Heights along the code of a transformed body

Control runs straight through what a transformed body has for an instruction, from its start to its
end. `climb?` follows the height of the operand stack along such code. Saving takes away all that is
left of the operand stack and restoring puts it back (`climb?_saving`, `climb?_resuming`); what leads
to a constructor call adds the operands that are put back (`climb?_leadIn`).
-/

namespace Resumable

/-- The height of the operand stack behind some code that control runs straight through, if there are
enough operands all along. -/
def climb? : List Instr → Nat → Option Nat
  | [], n => some n
  | x :: code, n => if x.takes ≤ n then climb? code (n - x.takes + x.gives) else none

section Climbing

variable {x : Instr} {code code' : List Instr} {n n' l t : Nat}

theorem climb?_cons (h : x.takes ≤ n) :
    climb? (x :: code) n = climb? code (n - x.takes + x.gives) := if_pos h

theorem climb?_append (code code' : List Instr) (n : Nat) :
    climb? (code ++ code') n = (climb? code n).bind (climb? code') := by
  induction code generalizing n with
  | nil => rfl
  | cons x code ih =>
    rw [List.cons_append, climb?, climb?]
    split
    · exact ih _
    · rfl

theorem climb?_trans (h : climb? code n = some l) (h' : climb? code' l = some n') :
    climb? (code ++ code') n = some n' := by
  rw [climb?_append, h]
  exact h'

/-- Some pieces of code none of which changes the height do not change it together. -/
theorem climb?_flatMap {α : Type} {write : α → List Instr} {as : List α}
    (h : ∀ a ∈ as, climb? (write a) n = some n) : climb? (as.flatMap write) n = some n := by
  induction as with
  | nil => rfl
  | cons a as ih =>
    rw [List.flatMap_cons]
    exact climb?_trans (h a List.mem_cons_self) (ih fun b hb => h b (List.mem_cons_of_mem a hb))

/-- Instructions that each take one operand. -/
theorem climb?_falling (h : ∀ x ∈ code, x.takes = 1 ∧ x.gives = 0) :
    climb? code (n + code.length) = some n := by
  induction code with
  | nil => rfl
  | cons x code ih =>
    obtain ⟨htakes, hgives⟩ := h x List.mem_cons_self
    rw [climb?_cons (by rw [htakes, List.length_cons]; omega), htakes, hgives]
    exact ih fun y hy => h y (List.mem_cons_of_mem x hy)

/-- Instructions that each give one operand. -/
theorem climb?_rising (h : ∀ x ∈ code, x.takes = 0 ∧ x.gives = 1) :
    climb? code n = some (n + code.length) := by
  induction code generalizing n with
  | nil => rfl
  | cons x code ih =>
    obtain ⟨htakes, hgives⟩ := h x List.mem_cons_self
    rw [climb?_cons (by omega), htakes, hgives, ih fun y hy => h y (List.mem_cons_of_mem x hy),
      List.length_cons]
    congr 1
    omega

/-- At every place of the code there is enough to take, and from there the climb goes on. -/
theorem climb?_take_succ (h : climb? code n = some n') (hx : code[t]? = some x) :
    ∃ l, climb? (code.take t) n = some l ∧ x.takes ≤ l ∧
      climb? (code.take (t + 1)) n = some (l - x.takes + x.gives) := by
  induction code generalizing n t with
  | nil => cases hx
  | cons y code ih =>
    unfold climb? at h
    split at h
    · rename_i htakes
      cases t with
      | zero =>
        cases hx
        exact ⟨n, rfl, htakes, by rw [List.take_succ_cons, climb?_cons htakes]; rfl⟩
      | succ t =>
        obtain ⟨l, htake, hl, hnext⟩ := ih h hx
        exact ⟨l, by rw [List.take_succ_cons, climb?_cons htakes, htake], hl, by
          rw [List.take_succ_cons, climb?_cons htakes, hnext]⟩
    · cases h

end Climbing

/-! ## Saving and restoring -/

namespace SuspensionPoint

variable {n : Nat}

/-- Code for one operand each, but for those that are omitted. -/
theorem length_flatMap_write (write : SlotAction → List Instr)
    (h : ∀ action, (write action).length = if action = .omitted then 0 else 1)
    (actions : List SlotAction) :
    (actions.flatMap write).length = (present actions).length := by
  induction actions with
  | nil => rfl
  | cons action actions ih =>
    rw [List.flatMap_cons, List.length_append, h, ih]
    unfold present
    by_cases haction : action = .omitted
    · simp [haction]
    · simp [haction, Nat.add_comm]

theorem climb?_saveOperands (actions : List SlotAction) :
    climb? (actions.flatMap saveOperand) (n + (present actions).length) = some n := by
  rw [← length_flatMap_write saveOperand fun action => by cases action <;> rfl]
  refine climb?_falling fun x hx => ?_
  obtain ⟨action, -, hx⟩ := List.mem_flatMap.1 hx
  cases action with
  | omitted => cases hx
  | saved | null =>
    rw [List.mem_singleton.1 hx]
    exact ⟨rfl, rfl⟩

theorem climb?_restoreOperands (actions : List SlotAction) :
    climb? (actions.flatMap restoreOperand) n = some (n + (present actions).length) := by
  rw [← length_flatMap_write restoreOperand fun action => by cases action <;> rfl]
  refine climb?_rising fun x hx => ?_
  obtain ⟨action, -, hx⟩ := List.mem_flatMap.1 hx
  cases action with
  | omitted => cases hx
  | saved | null =>
    rw [List.mem_singleton.1 hx]
    exact ⟨rfl, rfl⟩

theorem isLoad_loadOpcode (kind : SlotKind) : kind.loadOpcode.isLoad = true := by
  cases kind <;> rfl

theorem isLoad_storeOpcode (kind : SlotKind) : kind.storeOpcode.isLoad = false := by
  cases kind <;> rfl

/-- Saving takes away all that has to be kept or made again. -/
theorem climb?_saveCode (p : SuspensionPoint) (entry : UInt32) :
    climb? (p.saveCode entry) (present p.stack).length = some 0 := by
  rw [saveCode_eq, climb?_cons (Nat.zero_le _)]
  have hoperands := climb?_saveOperands (n := 0) p.stack.reverse
  rw [present_reverse, List.length_reverse] at hoperands
  refine climb?_trans (l := 0) (by rw [← hoperands, Nat.zero_add]; rfl) ?_
  refine climb?_flatMap fun ⟨index, action⟩ _ => ?_
  cases action with
  | saved kind => simp [saveLocal, climb?, Instr.takes, Instr.gives, Instr.effect, isLoad_loadOpcode]
  | null | omitted => rfl

/-- Restoring puts it back. -/
theorem climb?_restoreCode (p : SuspensionPoint) :
    climb? p.restoreCode 0 = some (present p.stack).length := by
  rw [restoreCode_eq]
  refine climb?_trans (l := 0) (climb?_flatMap fun ⟨index, action⟩ _ => ?_) ?_
  · cases action with
    | saved kind =>
      simp [restoreLocal, climb?, Instr.takes, Instr.gives, Instr.effect, isLoad_storeOpcode]
    | null | omitted => rfl
  · rw [climb?_restoreOperands, Nat.zero_add]

end SuspensionPoint

namespace Analysed

open SuspensionPoint (present)

variable {a : Analysed} {plan : MethodPlan} {k i n : Nat} {p : SuspensionPoint} {f g : Frame}
  {x : Instr} {front : List Instr}

/-- Up to where it goes on after a suspension, the code of a point clears the operand stack. -/
theorem climb?_saving (a : Analysed) (plan : MethodPlan) (k : Nat) (p : SuspensionPoint) :
    climb? (Layout.saving a plan k p) (present p.stack).length = some 0 := by
  unfold Layout.saving
  rw [List.cons_append, climb?_cons (Nat.zero_le _)]
  refine climb?_trans (l := 0) (p.climb?_saveCode _) ?_
  split <;> rfl

/-- From there on it puts everything back. -/
theorem climb?_resuming (a : Analysed) (plan : MethodPlan) (k : Nat) (p : SuspensionPoint) :
    climb? (Layout.resuming a plan k p) 0 = some (present p.stack).length := by
  unfold Layout.resuming
  rw [climb?_cons (Nat.zero_le _)]
  exact climb?_trans p.climb?_restoreCode rfl

theorem climb?_stretch (a : Analysed) (plan : MethodPlan) (k : Nat) (p : SuspensionPoint) :
    climb? (a.stretch plan k p) (present p.stack).length = some (present p.stack).length := by
  rw [Layout.stretch_eq]
  exact climb?_trans (climb?_saving a plan k p) (climb?_resuming a plan k p)

/-! ## What leads to an instruction -/

/-- The arguments are set aside, the object is allocated twice below them, and they come back. -/
theorem climb?_allocationCode (type : String) (base : UInt16) (kinds : List SlotKind) :
    climb? (allocationCode type base kinds) (n + kinds.length) = some (n + 2 + kinds.length) := by
  have hstore (temps : List (SlotKind × UInt16)) : climb? (temps.map fun temp =>
      .local temp.1.storeOpcode temp.2) (n + temps.length) = some n := by
    let write (temp : SlotKind × UInt16) := Instr.local temp.1.storeOpcode temp.2
    rw [← show (temps.map write).length = temps.length from List.length_map write]
    refine climb?_falling fun x hx => ?_
    obtain ⟨temp, -, rfl⟩ := List.mem_map.1 hx
    simp [Instr.takes, Instr.gives, Instr.effect, SuspensionPoint.isLoad_storeOpcode]
  have hload (temps : List (SlotKind × UInt16)) : climb? (temps.map fun temp =>
      .local temp.1.loadOpcode temp.2) (n + 2) = some (n + 2 + temps.length) := by
    let write (temp : SlotKind × UInt16) := Instr.local temp.1.loadOpcode temp.2
    rw [← show (temps.map write).length = temps.length from List.length_map write]
    refine climb?_rising fun x hx => ?_
    obtain ⟨temp, -, rfl⟩ := List.mem_map.1 hx
    simp [Instr.takes, Instr.gives, Instr.effect, SuspensionPoint.isLoad_loadOpcode]
  have hobject : climb? [.type .new type, .simple .dup] n = some (n + 2) := by
    simp [climb?, Instr.takes, Instr.gives, Instr.effect, Opcode.effect?]
  rw [allocationCode_eq, ← length_temps base kinds]
  refine climb?_trans (climb?_trans (l := n) ?_ hobject) (hload _)
  rw [← List.length_reverse]
  exact hstore _

/-- **What leads to an instruction adds the operands that are put back to it.** -/
theorem climb?_leadIn (h : Writes (a.leadIn plan.omitted i x) front) (hf : a.frame? i = some f)
    (hstep : f.step i x = .ok g) (hargs : x.takes - 1 ≤ n) :
    climb? front n = some (n + plan.putsBack f x) := by
  cases x with
  | simple op =>
    rw [leadIn_simple h]
    split <;> rfl
  | invoke op callee =>
    rcases leadIn_invoke h with ⟨⟨rfl, hname⟩, hfront⟩ | ⟨hordinary, rfl⟩
    · obtain ⟨type, htype, -⟩ := Frame.stepInvoke_eq_ok hstep
      have hargc : callee.effect.1 = type.arity := by
        unfold MemberRef.effect
        rw [htype]
      have hback : plan.putsBack f (.invoke .invokespecial callee) =
          if rebuilds plan.omitted (f.stack.drop type.arity) then 2 else 0 := by
        simp [MethodPlan.putsBack, hname, hargc]
      rcases deferredAllocation_spec hfront with ⟨rfl, hnot⟩ |
        ⟨f', type', hf', htype', hrebuilds, name, base, kinds, hkinds, rfl⟩
      · rw [hback, hnot f type hf htype]
        rfl
      · cases hf.symm.trans hf'
        cases htype.symm.trans htype'
        have hle : kinds.length ≤ n := by
          rw [hkinds, ← hargc]
          simpa [Instr.takes, Instr.effect] using hargs
        have hclimb := climb?_allocationCode (n := n - kinds.length) name base kinds
        rw [Nat.sub_add_cancel hle] at hclimb
        rw [hback, if_pos hrebuilds, hclimb]
        congr 1
        omega
    · have hback : plan.putsBack f (.invoke op callee) = 0 := by
        unfold MethodPlan.putsBack
        split
        · rename_i heq
          cases heq
          exact if_neg fun hctor => hordinary ⟨rfl, hctor.1⟩
        · rfl
      rw [hback]
      rfl
  | _ =>
    rw [Writes.pure h]
    rfl

end Analysed

end Resumable
