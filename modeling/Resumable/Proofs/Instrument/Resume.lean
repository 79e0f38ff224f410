import Resumable.Proofs.FrameStack.Chain
import Resumable.Proofs.Instrument.Unwinding

/-!
# Saving and restoring

At a suspension point, what an activation works with is kept in its coroutine frame, and comes back
from there. Between the two stands a `FrameRecord`: the code that saves leaves the frame with a record
in which every value has been given its slot (`runs_saveCode`), and the code that restores needs
nothing but the record (`runs_restoreCode`).

`Frame.Describes` says what an activation has in front of a point, and `Frame.GoesOn` what there is
of it behind the point (`Frame.runs_resume`).
-/

namespace Resumable

open List (Forall₂)
open SuspensionPoint (Treats places)

/-! ## Values and their slots -/

/-- The value may be treated so. -/
def SlotAction.Fits : SlotAction → Value → Prop
  | .saved kind _, v => v.kind = kind
  | .null, v => v = .null
  | .omitted, _ => False

/-- The record gives the value back. -/
def FrameRecord.Keeps (r : FrameRecord) : SlotAction → Value → Prop
  | .saved kind slot, v => r.saved kind slot = some v
  | .null, v => v = .null
  | .omitted, _ => False

namespace FrameRecord

variable {r : FrameRecord} {actions : List SlotAction} {vs : List Value}

/-- What is kept where. -/
structure Store where
  kind : SlotKind
  slot : UInt32
  value : Value

/-- The buffer and the slot of a store. -/
def Store.place (x : Store) : Bool × UInt32 := (x.kind.isReference, x.slot)

/-- The values that go into slots. -/
def stores : List SlotAction → List Value → List Store
  | .saved kind slot :: actions, v :: vs => ⟨kind, slot, v⟩ :: stores actions vs
  | _ :: actions, _ :: vs => stores actions vs
  | _, _ => []

/-- The record once all of some values have been saved, one after the other. -/
def saveAll (r : FrameRecord) (xs : List Store) : FrameRecord :=
  xs.foldl (fun r x => r.save x.kind x.slot x.value) r

theorem saveAll_append (xs ys : List Store) : r.saveAll (xs ++ ys) = (r.saveAll xs).saveAll ys :=
  List.foldl_append

@[simp]
theorem saveAll_resumeIndex (xs : List Store) : (r.saveAll xs).resumeIndex = r.resumeIndex := by
  induction xs generalizing r with
  | nil => rfl
  | cons x xs ih => exact ih

@[simp]
theorem saveAll_slots (xs : List Store) : (r.saveAll xs).slots = r.slots := by
  induction xs generalizing r with
  | nil => rfl
  | cons x xs ih => exact ih

/-- Saving to other places leaves a place alone. -/
theorem saved_saveAll_of_not_mem {kind : SlotKind} {slot : UInt32} {xs : List Store}
    (h : (kind.isReference, slot) ∉ xs.map Store.place) :
    (r.saveAll xs).saved kind slot = r.saved kind slot := by
  induction xs generalizing r with
  | nil => rfl
  | cons x xs ih =>
    rw [List.map_cons, List.mem_cons, not_or] at h
    show ((r.save x.kind x.slot x.value).saveAll xs).saved kind slot = _
    rw [ih h.2]
    refine if_neg fun hsame => h.1 ?_
    rw [Store.place, hsame.1, hsame.2]

/-- Each of some places has the value that was saved there, if no place was used twice. -/
theorem saved_saveAll_of_mem {xs : List Store} (hnodup : (xs.map Store.place).Nodup) {x : Store}
    (hx : x ∈ xs) : (r.saveAll xs).saved x.kind x.slot = some x.value := by
  induction xs generalizing r with
  | nil => cases hx
  | cons y xs ih =>
    rw [List.map_cons, List.nodup_cons] at hnodup
    rcases List.mem_cons.1 hx with rfl | hx
    · show ((r.save x.kind x.slot x.value).saveAll xs).saved x.kind x.slot = _
      rw [saved_saveAll_of_not_mem hnodup.1]
      simp [FrameRecord.save]
    · exact ih hnodup.2 hx

/-- What goes into slots are the values that a plan has given places to. -/
theorem places_stores (h : Forall₂ SlotAction.Fits actions vs) :
    (stores actions vs).map Store.place = places actions := by
  induction h with
  | nil => rfl
  | @cons action v actions vs _ _ ih =>
    cases action with
    | saved kind slot => exact congrArg ((kind.isReference, slot) :: ·) ih
    | null => exact ih
    | omitted => exact ih

/-- Once everything has been saved, the record gives everything back. -/
theorem keeps_of_stores (h : Forall₂ SlotAction.Fits actions vs)
    (hall : ∀ x ∈ stores actions vs, r.saved x.kind x.slot = some x.value) :
    Forall₂ r.Keeps actions vs := by
  induction h with
  | nil => exact .nil
  | @cons action v actions vs hfits _ ih =>
    cases action with
    | saved kind slot =>
      refine .cons (hall _ List.mem_cons_self) (ih fun x hx => hall x ?_)
      exact List.mem_cons_of_mem _ hx
    | null => exact .cons hfits (ih hall)
    | omitted => cases hfits

end FrameRecord

/-! ## Saving -/

namespace SuspensionPoint

open Activation (Runs)
open FrameStack (Beyond Current Keeps safeCapacity)
open FrameRecord (stores)

variable {classes : ClassTable} {act : Activation} {mem : Memory} {s s' : FrameStack}
  {r : FrameRecord} {k base : Nat} {actions : List SlotAction} {vs rest : List Value}
  {locals : List Value} {code : List Instr} {planned : List (UInt16 × SlotAction)}

/-- The code that takes an operand off and keeps it. -/
def saveOperand : SlotAction → List Instr
  | .saved kind slot => [.frame (.save kind slot)]
  | .null => [.simple .pop]
  | .omitted => []

/-- The code that keeps a local. -/
def saveLocal : UInt16 × SlotAction → List Instr
  | (index, .saved kind slot) => [.local kind.loadOpcode index, .frame (.save kind slot)]
  | _ => []

theorem saveCode_eq (p : SuspensionPoint) (entry : UInt32) : p.saveCode entry =
    .frame (.reserve entry p.slots) ::
      (p.stack.reverse.flatMap saveOperand ++ p.locals.flatMap saveLocal) := rfl

/-- Operands are taken off one after the other, and those that need it are kept. -/
theorem runs_saveOperands (hfits : Forall₂ SlotAction.Fits actions vs)
    (hstack : act.stack = vs ++ rest) (hat : act.At (actions.flatMap saveOperand ++ code))
    (hs : mem.stack? = some s) (hcur : Current k base r s)
    (hroom : ∀ place ∈ places actions, place.2.toNat < r.slots) :
    ∃ s', Runs classes act mem (act.after rest (actions.flatMap saveOperand).length)
        (mem.withStack s') ∧
      Current k base (r.saveAll (stores actions vs)) s' ∧ Keeps k base s s' := by
  induction hfits generalizing act mem s r with
  | nil =>
    refine ⟨s, ?_, hcur, .refl _ _ _⟩
    rw [Memory.withStack_self hs, ← List.nil_append rest, ← hstack]
    exact .refl act mem
  | @cons action v actions vs hfits _ ih =>
    cases action with
    | saved kind slot =>
      have hslot : slot.toNat < r.slots := hroom (kind.isReference, slot) List.mem_cons_self
      have hat' : act.At (.frame (.save kind slot) :: (actions.flatMap saveOperand ++ code)) := hat
      obtain ⟨s₁, hs₁, hcur₁⟩ := hcur.save hslot hfits
      have hstep : Runs classes act mem (act.after (vs ++ rest) 1) (mem.withStack s₁) :=
        Activation.runs_after hat' (.instr_save hs hstack hs₁)
      obtain ⟨s', hruns, hcur', hkeeps⟩ := ih rfl (hat'.next _) (Memory.stack?_withStack hs) hcur₁
        fun place hplace => hroom place (List.mem_cons_of_mem _ hplace)
      rw [Activation.after_after, Memory.withStack_withStack hs, Nat.add_comm] at hruns
      exact ⟨s', hstep.trans hruns, hcur', (hcur.beyond.save hs₁).trans hkeeps⟩
    | null =>
      have hat' : act.At (.simple .pop :: (actions.flatMap saveOperand ++ code)) := hat
      have hstep : Runs classes act mem (act.after (vs ++ rest) 1) mem :=
        Activation.runs_after hat' (.instr_pop hstack)
      obtain ⟨s', hruns, hcur', hkeeps⟩ := ih rfl (hat'.next _) hs hcur hroom
      rw [Activation.after_after, Nat.add_comm] at hruns
      exact ⟨s', hstep.trans hruns, hcur', hkeeps⟩
    | omitted => cases hfits

/-- Locals are kept one after the other. -/
theorem runs_saveLocals
    (hfits : Forall₂ (fun x v => locals[x.1.toNat]? = some v ∧ x.2.Fits v) planned vs)
    (hlocals : act.locals = locals) (hat : act.At (planned.flatMap saveLocal ++ code))
    (hs : mem.stack? = some s) (hcur : Current k base r s)
    (hroom : ∀ place ∈ places (planned.map Prod.snd), place.2.toNat < r.slots) :
    ∃ s', Runs classes act mem (act.after act.stack (planned.flatMap saveLocal).length)
        (mem.withStack s') ∧
      Current k base (r.saveAll (stores (planned.map Prod.snd) vs)) s' ∧ Keeps k base s s' := by
  induction hfits generalizing act mem s r with
  | nil =>
    refine ⟨s, ?_, hcur, .refl _ _ _⟩
    rw [Memory.withStack_self hs]
    exact .refl act mem
  | @cons x v planned vs hx _ ih =>
    obtain ⟨index, action⟩ := x
    obtain ⟨hlocal, hfits⟩ := hx
    rw [← hlocals] at hlocal
    cases action with
    | saved kind slot =>
      have hslot : slot.toNat < r.slots := hroom (kind.isReference, slot) List.mem_cons_self
      have hat' : act.At (.local kind.loadOpcode index :: .frame (.save kind slot) ::
        (planned.flatMap saveLocal ++ code)) := hat
      obtain ⟨s₁, hs₁, hcur₁⟩ := hcur.save hslot hfits
      have hload : Runs classes act mem (act.after (v :: act.stack) 1) mem :=
        Activation.runs_after hat' (.instr_load hlocal)
      have hsave : Runs classes (act.after (v :: act.stack) 1) mem (act.after act.stack 2)
          (mem.withStack s₁) :=
        Activation.runs_after (hat'.next _) (.instr_save hs rfl hs₁)
      have hat₂ : (act.after act.stack 2).At (planned.flatMap saveLocal ++ code) :=
        (hat'.next (v :: act.stack)).next act.stack
      obtain ⟨s', hruns, hcur', hkeeps⟩ := @ih (act.after act.stack 2) _ _ _ hlocals hat₂
        (Memory.stack?_withStack hs) hcur₁
        fun place hplace => hroom place (List.mem_cons_of_mem _ hplace)
      rw [Activation.after_after, Memory.withStack_withStack hs, Nat.add_comm] at hruns
      exact ⟨s', hload.trans (hsave.trans hruns), hcur', (hcur.beyond.save hs₁).trans hkeeps⟩
    | null => exact ih hlocals hat hs hcur hroom
    | omitted => cases hfits

/-- The operands of which there is something at run time. -/
def present (actions : List SlotAction) : List SlotAction := actions.filter (· ≠ .omitted)

theorem flatMap_present {write : SlotAction → List Instr} (h : write .omitted = []) :
    (present actions).flatMap write = actions.flatMap write := by
  induction actions with
  | nil => rfl
  | cons action actions ih =>
    by_cases hout : action = .omitted
    · rw [hout, List.flatMap_cons, h, ← ih]
      rfl
    · rw [present, List.filter_cons_of_pos (by simpa using hout), List.flatMap_cons,
        List.flatMap_cons, ← ih]
      rfl

theorem places_present : places (present actions) = places actions := by
  induction actions with
  | nil => rfl
  | cons action actions ih =>
    cases action with
    | saved kind slot => exact congrArg ((kind.isReference, slot) :: ·) ih
    | null => exact ih
    | omitted => exact ih

theorem present_reverse : present actions.reverse = (present actions).reverse :=
  List.filter_reverse

/-- The code that saves leaves no operands, and a record that gives everything back. -/
theorem runs_saveCode {p : SuspensionPoint} {entry : UInt32} {mark : FrameMark}
    (hstack : Forall₂ SlotAction.Fits (present p.stack) act.stack.reverse)
    (hlocals : Forall₂ (fun x v => act.locals[x.1.toNat]? = some v ∧ x.2.Fits v) p.locals vs)
    (hnodup : (places p.stack ++ places (p.locals.map Prod.snd)).Nodup)
    (hroom : ∀ place ∈ places p.stack ++ places (p.locals.map Prod.snd),
      place.2.toNat < p.slots.toNat)
    (hat : act.At (p.saveCode entry ++ code)) (hs : mem.stack? = some s)
    (hsizes : s.refs.size = s.prims.size) (hdepth : s.depth = k + 1)
    (hmark : s.frames[k]? = some mark) (hspace : mark.base + p.slots.toNat ≤ safeCapacity) :
    ∃ s' r, Runs classes act mem (act.after [] (p.saveCode entry).length) (mem.withStack s') ∧
      Current k mark.base r s' ∧ r.resumeIndex = entry ∧ r.slots = p.slots.toNat ∧
      Forall₂ r.Keeps (present p.stack) act.stack.reverse ∧
      Forall₂ (fun x v => r.Keeps x.2 v) p.locals vs ∧
      ∀ bound, Beyond k bound s → Keeps k bound s s' := by
  have hstack' : Forall₂ SlotAction.Fits (present p.stack.reverse) act.stack := by
    rw [present_reverse, ← List.reverse_reverse act.stack]
    exact List.rel_reverse hstack
  rw [saveCode_eq, ← flatMap_present (show saveOperand .omitted = [] from rfl)] at hat ⊢
  -- Reserving starts the record anew; the two loops fill it.
  obtain ⟨s₁, hs₁, hcur₁⟩ :=
    FrameStack.current_of_reserve hsizes hdepth hmark entry
      (show mark.base + p.slots.toUInt64.toNat ≤ safeCapacity from hspace)
  have hat₁ : act.At (.frame (.reserve entry p.slots) ::
    ((present p.stack.reverse).flatMap saveOperand ++ (p.locals.flatMap saveLocal ++ code))) := by
    simpa using hat
  have hreserve : Runs classes act mem (act.after act.stack 1) (mem.withStack s₁) :=
    Activation.runs_after hat₁ (.instr_reserve hs hs₁)
  have hfits : Forall₂ SlotAction.Fits (p.locals.map Prod.snd) vs :=
    List.forall₂_map_left_iff.2 (hlocals.imp fun _ _ h => h.2)
  have hperm : (places p.stack.reverse ++ places (p.locals.map Prod.snd)).Perm
      (places p.stack ++ places (p.locals.map Prod.snd)) := by
    rw [places, List.filterMap_reverse]
    exact (List.reverse_perm _).append_right _
  have hat₂ := hat₁.next act.stack
  have hall : (act.after act.stack 1).stack = act.stack ++ [] := (List.append_nil _).symm
  obtain ⟨s₂, hruns₂, hcur₂, hkeeps₂⟩ := runs_saveOperands hstack' hall hat₂
    (Memory.stack?_withStack hs) hcur₁ (fun place hplace => by
      rw [places_present] at hplace
      exact hroom place (hperm.mem_iff.1 (List.mem_append_left _ hplace)))
  rw [Activation.after_after, Memory.withStack_withStack hs] at hruns₂
  have hat₃ := hat₂.after []
  rw [Activation.after_after] at hat₃
  have hsame : (act.after []
    (1 + ((present p.stack.reverse).flatMap saveOperand).length)).locals = act.locals := rfl
  obtain ⟨s₃, hruns₃, hcur₃, hkeeps₃⟩ := runs_saveLocals hlocals hsame hat₃
    (Memory.stack?_withStack hs) hcur₂ (fun place hplace => by
      rw [FrameRecord.saveAll_slots]
      exact hroom place (List.mem_append_right _ hplace))
  rw [Activation.after_after, Memory.withStack_withStack hs] at hruns₃
  rw [← FrameRecord.saveAll_append] at hcur₃
  -- No place is used twice, so the record has every value.
  have hstores : ∀ x ∈ stores (present p.stack.reverse) act.stack ++
      stores (p.locals.map Prod.snd) vs,
      (FrameRecord.saveAll { resumeIndex := entry, slots := p.slots.toNat }
        (stores (present p.stack.reverse) act.stack ++ stores (p.locals.map Prod.snd) vs)).saved
          x.kind x.slot = some x.value := by
    intro x hx
    refine FrameRecord.saved_saveAll_of_mem ?_ hx
    rw [List.map_append, FrameRecord.places_stores hstack', FrameRecord.places_stores hfits,
      places_present]
    exact hperm.nodup_iff.2 hnodup
  refine ⟨s₃, _, hreserve.trans (hruns₂.trans ?_), hcur₃, ?_, ?_, ?_, ?_, fun bound hbeyond => ?_⟩
  · rw [List.length_cons, List.length_append, Nat.add_comm (_ + _) 1, ← Nat.add_assoc]
    exact hruns₃
  · simp
  · simp
  · have hkeeps := FrameRecord.keeps_of_stores hstack' fun x hx =>
      hstores x (List.mem_append_left _ hx)
    have hkeeps' := List.rel_reverse hkeeps
    rw [← present_reverse, List.reverse_reverse] at hkeeps'
    exact hkeeps'
  · exact List.forall₂_map_left_iff.1 (FrameRecord.keeps_of_stores hfits fun x hx =>
      hstores x (List.mem_append_right _ hx))
  · have hbound : bound ≤ mark.base := hbeyond.le_base hdepth hmark
    exact (hbeyond.reserve hs₁).trans ((hkeeps₂.trans hkeeps₃).mono (Nat.le_refl k) hbound)

/-! ## Restoring -/

/-- The code that makes a local again. -/
def restoreLocal : UInt16 × SlotAction → List Instr
  | (index, .saved kind slot) => [.frame (.restore kind slot), .local kind.storeOpcode index]
  | (index, .null) => [.simple .aconstNull, .local .astore index]
  | (_, .omitted) => []

/-- The code that makes an operand again. -/
def restoreOperand : SlotAction → List Instr
  | .saved kind slot => [.frame (.restore kind slot)]
  | .null => [.simple .aconstNull]
  | .omitted => []

theorem restoreCode_eq (p : SuspensionPoint) : p.restoreCode =
    p.locals.flatMap restoreLocal ++ p.stack.flatMap restoreOperand := rfl

/-- The frame gives back what is on record. -/
def Gives (s : FrameStack) (r : FrameRecord) : Prop :=
  ∀ kind slot v, r.saved kind slot = some v → s.restore kind slot = .ok v

/-- A value is pushed again by a single instruction. -/
theorem runs_restore {action : SlotAction} {v : Value} (hkeeps : r.Keeps action v)
    (hat : act.At (restoreOperand action ++ code)) (hs : mem.stack? = some s) (hgives : Gives s r) :
    (restoreOperand action).length = 1 ∧
      Runs classes act mem (act.after (v :: act.stack) 1) mem := by
  cases action with
  | saved kind slot => exact ⟨rfl, Activation.runs_after hat (.instr_restore hs (hgives _ _ _ hkeeps))⟩
  | null =>
    obtain rfl : v = .null := hkeeps
    exact ⟨rfl, Activation.runs_after hat .instr_aconstNull⟩
  | omitted => cases hkeeps

/-- Operands come back from the bottom up. -/
theorem runs_restoreOperands (hkeeps : Forall₂ r.Keeps actions vs)
    (hat : act.At (actions.flatMap restoreOperand ++ code)) (hs : mem.stack? = some s)
    (hgives : Gives s r) :
    Runs classes act mem
      (act.after (vs.reverse ++ act.stack) (actions.flatMap restoreOperand).length) mem := by
  induction hkeeps generalizing act with
  | nil => exact .refl act mem
  | @cons action v actions vs hkeep _ ih =>
    rw [List.flatMap_cons, List.append_assoc] at hat
    obtain ⟨hone, hstep⟩ := runs_restore hkeep hat hs hgives
    have hat' := hat.after (v :: act.stack)
    rw [hone] at hat'
    have hruns := hstep.trans (ih hat')
    rw [Activation.after_after] at hruns
    rw [List.flatMap_cons, List.length_append, hone, List.reverse_cons, List.append_assoc]
    exact hruns

/-- Some locals with values put into them. -/
def putAll : List (UInt16 × SlotAction) → List Value → List Value → List Value
  | x :: planned, v :: vs, locals => putAll planned vs (locals.set x.1.toNat v)
  | _, _, locals => locals

/-- A local that has its former value, or gets it, has it in the end. -/
theorem getElem?_putAll {former : List Value} {i : Nat}
    (hvalues : Forall₂ (fun x v => former[x.1.toNat]? = some v) planned vs)
    (hindex : ∀ x ∈ planned, x.1.toNat < locals.length)
    (h : locals[i]? = former[i]? ∨ ∃ x ∈ planned, x.1.toNat = i) :
    (putAll planned vs locals)[i]? = former[i]? := by
  induction hvalues generalizing locals with
  | nil => simpa [putAll] using h
  | @cons x v planned vs hx _ ih =>
    have hindex' : ∀ y ∈ planned, y.1.toNat < (locals.set x.1.toNat v).length := fun y hy => by
      rw [List.length_set]
      exact hindex y (List.mem_cons_of_mem _ hy)
    refine ih hindex' ?_
    by_cases hi : x.1.toNat = i
    · left
      rw [← hi, hx, List.getElem?_set_self (hindex x List.mem_cons_self)]
    · rw [List.getElem?_set_ne hi]
      rcases h with h | ⟨y, hy, hyi⟩
      · exact .inl h
      · rcases List.mem_cons.1 hy with rfl | hy
        · exact absurd hyi hi
        · exact .inr ⟨y, hy, hyi⟩

theorem length_putAll : (putAll planned vs locals).length = locals.length := by
  induction planned generalizing vs locals with
  | nil => rfl
  | cons x planned ih =>
    cases vs with
    | nil => rfl
    | cons v vs => exact ih.trans List.length_set

theorem getElem?_putAll_of_ne {i : Nat} (h : ∀ x ∈ planned, x.1.toNat ≠ i) :
    (putAll planned vs locals)[i]? = locals[i]? := by
  induction planned generalizing vs locals with
  | nil => rfl
  | cons x planned ih =>
    cases vs with
    | nil => rfl
    | cons v vs =>
      exact (ih fun y hy => h y (List.mem_cons_of_mem _ hy)).trans
        (List.getElem?_set_ne (h x List.mem_cons_self))

theorem restoreLocal_eq {x : UInt16 × SlotAction} {v : Value} (h : r.Keeps x.2 v) :
    ∃ kind : SlotKind, restoreLocal x = restoreOperand x.2 ++ [.local kind.storeOpcode x.1] := by
  obtain ⟨index, action⟩ := x
  cases action with
  | saved kind slot => exact ⟨kind, rfl⟩
  | null => exact ⟨.ref, rfl⟩
  | omitted => cases h

/-- Locals get their values one after the other. -/
theorem runs_restoreLocals (hkeeps : Forall₂ (fun x v => r.Keeps x.2 v) planned vs)
    (hindex : ∀ x ∈ planned, x.1.toNat < act.locals.length)
    (hat : act.At (planned.flatMap restoreLocal ++ code)) (hs : mem.stack? = some s)
    (hgives : Gives s r) :
    Runs classes act mem { act with
      locals := putAll planned vs act.locals
      pc := act.pc + (planned.flatMap restoreLocal).length } mem := by
  induction hkeeps generalizing act with
  | nil => exact .refl act mem
  | @cons x v planned vs hkeep _ ih =>
    obtain ⟨kind, hlocal⟩ := restoreLocal_eq hkeep
    rw [List.flatMap_cons, hlocal, List.append_assoc, List.append_assoc] at hat
    obtain ⟨hone, hstep⟩ := runs_restore hkeep hat hs hgives
    have hat₁ := hat.after (v :: act.stack)
    rw [hone] at hat₁
    have hstore : Exec.Does (Exec.instr classes (.local kind.storeOpcode x.1))
        (act.after (v :: act.stack) 1) mem .next
        { act with locals := act.locals.set x.1.toNat v, pc := act.pc + 1 } mem :=
      .instr_store rfl (hindex x List.mem_cons_self)
    have hset : Runs classes (act.after (v :: act.stack) 1) mem
        { act with locals := act.locals.set x.1.toNat v, pc := act.pc + 2 } mem :=
      Activation.runs_next hat₁ hstore
    have hat₂ : Activation.At { act with locals := act.locals.set x.1.toNat v, pc := act.pc + 2 }
        (planned.flatMap restoreLocal ++ code) := hat₁.skip rfl rfl
    have hindex' : ∀ y ∈ planned, y.1.toNat < (act.locals.set x.1.toNat v).length := fun y hy => by
      rw [List.length_set]
      exact hindex y (List.mem_cons_of_mem _ hy)
    have hruns := hstep.trans (hset.trans (ih hindex' hat₂))
    rw [List.flatMap_cons, hlocal, List.length_append, List.length_append, hone,
      List.length_singleton, ← Nat.add_assoc]
    exact hruns

/-- The code that restores gives operands and locals their values and leaves the memory alone. -/
theorem runs_restoreCode {p : SuspensionPoint} {operands : List Value}
    (hoperands : Forall₂ r.Keeps (present p.stack) operands.reverse)
    (hlocals : Forall₂ (fun x v => r.Keeps x.2 v) p.locals vs)
    (hindex : ∀ x ∈ p.locals, x.1.toNat < act.locals.length) (hempty : act.stack = [])
    (hat : act.At (p.restoreCode ++ code)) (hs : mem.stack? = some s) (hgives : Gives s r) :
    Runs classes act mem { act with
      locals := putAll p.locals vs act.locals
      stack := operands
      pc := act.pc + p.restoreCode.length } mem := by
  rw [restoreCode_eq, ← flatMap_present (show restoreOperand .omitted = [] from rfl)] at hat ⊢
  rw [List.append_assoc] at hat
  have hfirst : Runs classes act mem _ mem := runs_restoreLocals hlocals hindex hat hs hgives
  have hat' : Activation.At { act with
      locals := putAll p.locals vs act.locals
      pc := act.pc + (p.locals.flatMap restoreLocal).length }
        ((present p.stack).flatMap restoreOperand ++ code) := hat.skip rfl rfl
  have hruns := hfirst.trans (runs_restoreOperands hoperands hat' hs hgives)
  rw [List.reverse_reverse] at hruns
  rw [List.length_append, ← Nat.add_assoc]
  simpa only [Activation.after, hempty, List.append_nil] using hruns

end SuspensionPoint

/-! ## What an activation has at a point -/

/-- What the activation works with is what the frame says. Objects under construction have been put
off and are not there, and of locals beyond those of the frame nothing is said. -/
structure Frame.Describes (f : Frame) (act : Activation) : Prop where
  locals : Forall₂ FlowValue.Admits f.locals (act.locals.take f.locals.length)
  stack : Forall₂ FlowValue.Admits (f.stack.filter (!·.isFresh)) act.stack

/-- The second activation has the operands of the first, and the locals from `first` on of which
something is known. -/
structure Frame.GoesOn (f : Frame) (first : Nat) (act next : Activation) : Prop where
  method : next.method = act.method
  stack : next.stack = act.stack
  locals : ∀ i t, first ≤ i → f.locals[i]? = some t → t ≠ .unknown → t.isFresh = false →
    next.locals[i]? = act.locals[i]?
  null : ∀ i, first ≤ i → f.locals[i]? = some .null → next.locals[i]? = some .null

theorem SlotAction.fits_of_treats {t : FlowValue} {action : SlotAction} {v : Value}
    (htreats : Treats t action) (hadmits : t.Admits v) (hpresent : action ≠ .omitted) :
    action.Fits v := by
  cases htreats with
  | saved hkind slot =>
    cases t with
    | reference type =>
      cases hkind
      exact eq_of_beq hadmits
    | int | long | float | double =>
      cases hkind
      exact hadmits
    | unknown | null | fresh => cases hkind
  | null => exact hadmits
  | fresh => exact absurd rfl hpresent

namespace SuspensionPoint.For

variable {p : SuspensionPoint} {f : Frame} {act : Activation} {first : Nat}

/-- The operands that are there fit their plan. -/
theorem fits_stack (h : p.For f first) (hf : f.Describes act) :
    Forall₂ SlotAction.Fits (present p.stack) act.stack.reverse := by
  have hthere {t : FlowValue} {action : SlotAction} (ht : Treats t action) :
      (!t.isFresh) = true ↔ decide (action ≠ .omitted) = true := by
    simp [← ht.omits.2]
  have htreats : Forall₂ Treats (f.stack.reverse.filter (!·.isFresh)) (present p.stack) :=
    List.rel_filter (fun _ _ ht => hthere ht) h.stack
  have hadmits := List.rel_reverse hf.stack
  rw [← List.filter_reverse] at hadmits
  have hpresent : ∀ action ∈ present p.stack, action ≠ .omitted := fun action hmem => by
    simpa using (List.mem_filter.1 hmem).2
  refine ((List.forall₂_and_left _ _).2 ⟨hpresent, forall₂_join htreats hadmits⟩).imp ?_
  rintro action v ⟨hne, t, ht, hv⟩
  exact SlotAction.fits_of_treats ht hv hne

/-- The locals that are kept fit their plan. -/
theorem fits_locals (h : p.For f first) (hf : f.Describes act) :
    ∃ vs, Forall₂ (fun x v => act.locals[x.1.toNat]? = some v ∧ x.2.Fits v) p.locals vs := by
  refine exists_forall₂ fun x hx => ?_
  obtain ⟨i, t, hindex, ht, hlive, htreats⟩ := h.locals.sound x hx
  rw [List.getElem?_drop, ← hindex] at ht
  have hlen := hf.locals.length_eq
  have hlt : x.1.toNat < f.locals.length := (List.getElem?_eq_some_iff.1 ht).1
  have hv : (act.locals.take f.locals.length)[x.1.toNat]? =
      some (act.locals.take f.locals.length)[x.1.toNat] := List.getElem?_eq_getElem (by omega)
  refine ⟨_, ?_, SlotAction.fits_of_treats htreats (forall₂_getElem? hf.locals ht hv) ?_⟩
  · rw [← hv, List.getElem?_take_of_lt hlt]
  · rintro heq
    rw [heq] at htreats
    cases htreats
    cases hlive

end SuspensionPoint.For

/-! ## Going on -/

/-- The record has what the activation has at the point. -/
structure SuspensionPoint.Kept (p : SuspensionPoint) (r : FrameRecord) (act : Activation) : Prop where
  operands : Forall₂ r.Keeps (present p.stack) act.stack.reverse
  locals : ∃ vs, Forall₂ (fun x v => act.locals[x.1.toNat]? = some v) p.locals vs ∧
    Forall₂ (fun x v => r.Keeps x.2 v) p.locals vs

namespace Frame

open Activation (Runs)
open FrameStack (Beyond Current Keeps safeCapacity)
open SuspensionPoint (present)

variable {classes : ClassTable} {act b : Activation} {mem : Memory} {s : FrameStack}
  {r : FrameRecord} {p : SuspensionPoint} {f : Frame} {first k : Nat} {code : List Instr} {l : Label}

/-- In front of a point, the method keeps what it has there, and leaves the frames further out
alone. -/
theorem runs_suspend (hfor : p.For f first) (hf : f.Describes act) {entry : UInt32}
    {mark : FrameMark} (hat : act.At (.label l :: (p.saveCode entry ++ code)))
    (hs : mem.stack? = some s) (hsizes : s.refs.size = s.prims.size) (hdepth : s.depth = k + 1)
    (hmark : s.frames[k]? = some mark) (hspace : mark.base + p.slots.toNat ≤ safeCapacity) :
    ∃ s' r b, Runs classes act mem b (mem.withStack s') ∧
      b = act.after [] (1 + (p.saveCode entry).length) ∧ b.At code ∧
      Current k mark.base r s' ∧ r.resumeIndex = entry ∧ r.slots = p.slots.toNat ∧ p.Kept r act ∧
      ∀ bound, Beyond k bound s → Keeps k bound s s' := by
  obtain ⟨vs, hvs⟩ := hfor.fits_locals hf
  have hoperands : Forall₂ SlotAction.Fits (present p.stack)
      (act.after act.stack 1).stack.reverse :=
    (hfor.fits_stack hf : Forall₂ _ _ act.stack.reverse)
  have hlocals : Forall₂ (fun x v => (act.after act.stack 1).locals[x.1.toNat]? = some v ∧ x.2.Fits v)
      p.locals vs := hvs
  have hlabel : Runs classes act mem (act.after act.stack 1) mem :=
    Activation.runs_after hat .instr_label
  obtain ⟨s', r, hsave, hcur, hentry, hslots, hstack, hkept, hkeeps⟩ :=
    SuspensionPoint.runs_saveCode hoperands hlocals hfor.nodup hfor.room (hat.next act.stack) hs
      hsizes hdepth hmark hspace
  have hcode := (hat.next act.stack).after []
  rw [Activation.after_after] at hsave hcode
  exact ⟨s', r, _, hlabel.trans hsave, rfl, hcode, hcur, hentry, hslots,
    ⟨hstack, vs, hvs.imp fun _ _ hx => hx.1, hkept⟩, hkeeps⟩

/-- From the label where a method goes on, it gets back what it had in front of the point; locals
below the first one stay. -/
theorem runs_resume (hfor : p.For f first) (hf : f.Describes act)
    (hlocals : f.locals.length < 65536) (hkept : p.Kept r act) (hmethod : b.method = act.method)
    (hempty : b.stack = []) (hlen : f.locals.length ≤ b.locals.length)
    (hat : b.At (.label l :: (p.restoreCode ++ code))) (hs : mem.stack? = some s)
    (hgives : SuspensionPoint.Gives s r) :
    ∃ c, Runs classes b mem c mem ∧ c.pc = b.pc + 1 + p.restoreCode.length ∧
      f.GoesOn first act c ∧ c.locals.length = b.locals.length ∧
      ∀ i < first, c.locals[i]? = b.locals[i]? := by
  obtain ⟨hoperands, vs, hvalues, hkeeps⟩ := hkept
  have hlabel : Runs classes b mem (b.after b.stack 1) mem := Activation.runs_after hat .instr_label
  have hindex : ∀ x ∈ p.locals, x.1.toNat < b.locals.length := fun x hx => by
    obtain ⟨i, t, hnumber, ht, -⟩ := hfor.locals.sound x hx
    rw [List.getElem?_drop, ← hnumber] at ht
    have := (List.getElem?_eq_some_iff.1 ht).1
    omega
  have hindex' : ∀ x ∈ p.locals, x.1.toNat < (b.after b.stack 1).locals.length := hindex
  have hempty' : (b.after b.stack 1).stack = [] := hempty
  have hrestore : Runs classes (b.after b.stack 1) mem _ mem :=
    SuspensionPoint.runs_restoreCode hoperands hkeeps hindex' hempty' (hat.next b.stack) hs hgives
  have hsame : ∀ i t, first ≤ i → f.locals[i]? = some t → t.isLive = true →
      (SuspensionPoint.putAll p.locals vs b.locals)[i]? = act.locals[i]? := by
    intro i t hi ht hlive
    have hlt : i < f.locals.length := (List.getElem?_eq_some_iff.1 ht).1
    have ht' : (f.locals.drop first)[i - first]? = some t := by
      rw [List.getElem?_drop, Nat.add_sub_cancel' hi]
      exact ht
    obtain ⟨action, hmem⟩ := hfor.locals.complete _ t ht' hlive
    rw [Nat.add_sub_cancel' hi] at hmem
    refine SuspensionPoint.getElem?_putAll hvalues hindex (.inr ⟨_, hmem, ?_⟩)
    exact UInt16.toNat_ofNat_of_lt' (Nat.lt_trans hlt hlocals)
  refine ⟨_, hlabel.trans hrestore, rfl, ⟨hmethod, rfl, ?_, ?_⟩, SuspensionPoint.length_putAll,
    fun i hi => SuspensionPoint.getElem?_putAll_of_ne fun x hx hsame => ?_⟩
  · intro i t hi ht hknown hfresh
    exact hsame i t hi ht (isLive_iff.2 ⟨hknown, hfresh⟩)
  · intro i hi ht
    have hlt : i < f.locals.length := (List.getElem?_eq_some_iff.1 ht).1
    have hlen' := hf.locals.length_eq
    have hv := List.getElem?_eq_getElem (l := act.locals.take f.locals.length) (i := i) (by omega)
    have hnull : (act.locals.take f.locals.length)[i] = .null := forall₂_getElem? hf.locals ht hv
    rw [hnull, List.getElem?_take_of_lt hlt] at hv
    exact (hsame i _ hi ht rfl).trans hv
  · obtain ⟨j, t, hnumber, -⟩ := hfor.locals.sound x hx
    omega

end Frame

end Resumable
