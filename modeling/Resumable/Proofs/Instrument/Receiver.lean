import Resumable.Proofs.Instrument.Suspension
import Resumable.Proofs.Instrument.Verified
import Resumable.Proofs.Machine.Locals

/-!
# The receiver

Local 0 of an instance method holds the receiver and is the one live local that is not saved: whoever
enters the method again passes the receiver again. So behind a suspension point that is resumed, the
method finds the receiver there, whatever was there before (`Transforms.receiver_returns`). This is
what was there before unless the method itself has written the local, since what is added to a method
never does.
-/

namespace Resumable

/-! ## What is added to a method -/

namespace SuspensionPoint

variable {p : SuspensionPoint} {i : Instr} {n : Nat}

theorem not_assigns_load (kind : SlotKind) (slot : UInt16) :
    ¬ (Instr.local kind.loadOpcode slot).Assigns n := by
  rintro ⟨-, hop⟩
  cases kind <;> simp [SlotKind.loadOpcode] at hop

/-- The code that saves writes no locals. -/
theorem not_assigns_saveCode {entry : UInt32} (hi : i ∈ p.saveCode entry) : ¬ i.Assigns n := by
  rw [saveCode_eq, List.mem_cons, List.mem_append, List.mem_flatMap, List.mem_flatMap] at hi
  rcases hi with rfl | ⟨action, -, hi⟩ | ⟨⟨index, action⟩, -, hi⟩
  · exact id
  · cases action with
    | saved | null =>
      rw [List.mem_singleton.1 hi]
      exact id
    | omitted => cases hi
  · cases action with
    | saved kind slot =>
      simp only [saveLocal, List.mem_cons, List.not_mem_nil, or_false] at hi
      rcases hi with rfl | rfl
      · exact not_assigns_load kind index
      · exact id
    | null | omitted => cases hi

end SuspensionPoint

/-- An instruction that may stand in code that restores. It goes on to the next one, and of the locals
it writes at most one from number `first` on. -/
inductive Instr.Restores (first : Nat) : Instr → Prop where
  | label (l : Label) : Restores first (.label l)
  | restore (kind : SlotKind) (slot : UInt32) : Restores first (.frame (.restore kind slot))
  | null : Restores first (.simple .aconstNull)
  | store (kind : SlotKind) {slot : UInt16} (h : first ≤ slot.toNat) :
    Restores first (.local kind.storeOpcode slot)

theorem Instr.Restores.not_assigns {first n : Nat} {i : Instr} (h : i.Restores first)
    (hn : n < first) : ¬ i.Assigns n := by
  cases h with
  | label | restore | null => exact id
  | store kind hslot =>
    rintro ⟨rfl, -⟩
    exact Nat.not_lt.2 hslot hn

theorem SuspensionPoint.restores_restoreCode {p : SuspensionPoint} {first : Nat}
    (hp : ∀ x ∈ p.locals, first ≤ x.1.toNat) : ∀ i ∈ p.restoreCode, i.Restores first := by
  intro i hi
  rw [restoreCode_eq, List.mem_append, List.mem_flatMap, List.mem_flatMap] at hi
  rcases hi with ⟨⟨index, action⟩, hx, hi⟩ | ⟨action, -, hi⟩
  · cases action with
    | saved kind slot =>
      simp only [restoreLocal, List.mem_cons, List.not_mem_nil, or_false] at hi
      rcases hi with rfl | rfl
      · exact .restore kind slot
      · exact .store kind (hp _ hx)
    | null =>
      simp only [restoreLocal, List.mem_cons, List.not_mem_nil, or_false] at hi
      rcases hi with rfl | rfl
      · exact .null
      · exact .store .ref (hp _ hx)
    | omitted => cases hi
  · cases action with
    | saved kind slot =>
      rw [List.mem_singleton.1 hi]
      exact .restore kind slot
    | null =>
      rw [List.mem_singleton.1 hi]
      exact .null
    | omitted => cases hi

namespace Analysed

variable {a : Analysed} {plan : MethodPlan} {omitted : List Nat} {index n : Nat} {i x : Instr}
  {front : List Instr}

/-- An allocation that is made up for uses locals of its own. -/
theorem le_of_assigns_deferredAllocation {desc : String}
    (h : Writes (a.deferredAllocation omitted index desc) front) (hi : i ∈ front)
    (hassigns : i.Assigns n) : a.method.maxLocals.toNat ≤ n := by
  obtain ⟨account, account', h⟩ := h
  rcases deferredAllocation_cases h with ⟨rfl, -⟩ |
    ⟨f, type, copy, name, alloc, insn, rest, -, -, hdrop, -, hroom, rfl, -⟩
  · cases hi
  · obtain ⟨index, hindex, rfl⟩ := hassigns.localIndex?
    exact (localIndex?_allocationCode (by rwa [length_argumentKinds hdrop]) hi hindex).1

theorem le_of_assigns_leadIn (h : Writes (a.leadIn omitted index i) front) (hx : x ∈ front)
    (hassigns : x.Assigns n) : a.method.maxLocals.toNat ≤ n := by
  cases i with
  | simple op =>
    rw [leadIn_simple h] at hx
    split at hx
    · rw [List.mem_singleton.1 hx] at hassigns
      exact hassigns.elim
    · cases hx
  | invoke op callee =>
    rcases leadIn_invoke h with ⟨-, hfront⟩ | ⟨-, rfl⟩
    · exact le_of_assigns_deferredAllocation hfront hx hassigns
    · cases hx
  | _ =>
    rw [Writes.pure h] at hx
    cases hx

/-- The code of a point writes only locals that are restored. -/
theorem not_assigns_of_mem_stretch {k first : Nat} {p : SuspensionPoint}
    (hp : ∀ x ∈ p.locals, first ≤ x.1.toNat) (hx : x ∈ a.stretch plan k p) (hn : n < first) :
    ¬ x.Assigns n := by
  rw [Layout.stretch_eq, List.mem_append] at hx
  rcases hx with hx | hx
  · rw [Layout.saving, List.cons_append, List.mem_cons, List.mem_append] at hx
    rcases hx with rfl | hx | hx
    · exact id
    · exact SuspensionPoint.not_assigns_saveCode hx
    · split at hx
      · rw [List.mem_singleton.1 hx]
        exact id
      · cases hx
  · rw [Layout.resuming, List.mem_cons, List.mem_append, List.mem_singleton] at hx
    rcases hx with rfl | hx | rfl
    · exact id
    · exact (SuspensionPoint.restores_restoreCode hp x hx).not_assigns hn
    · exact id

/-- What is written for an instruction writes a local below the others only if the instruction does. -/
theorem eq_of_assigns_chunk {first : Nat} {y : Instr × Nat} {c : List Instr}
    (hchunk : a.Chunk plan y c) (hp : ∀ p ∈ plan.points, ∀ x ∈ p.locals, first ≤ x.1.toNat)
    (hx : x ∈ c) (hassigns : x.Assigns n) (hn : n < first) (hmax : n < a.method.maxLocals.toNat) :
    x = y.1 := by
  have hwrit {c : List Instr} (hw : Writ a plan.omitted y c) (hx : x ∈ c) : x = y.1 := by
    cases hw with
    | kept _ hfront =>
      rcases List.mem_append.1 hx with hx | hx
      · exact absurd (le_of_assigns_leadIn hfront hx hassigns) (Nat.not_le.2 hmax)
      · exact List.mem_singleton.1 hx
    | leftOut => cases hx
  have hstretch {k : Nat} {p : SuspensionPoint} (hk : plan.points[k]? = some p) :
      x ∉ a.stretch plan k p := fun hx =>
    not_assigns_of_mem_stretch (hp p (List.mem_of_getElem? hk)) hx hn hassigns
  cases hchunk with
  | plain _ hw => exact hwrit hw hx
  | point hk _ _ hw =>
    rcases List.mem_append.1 hx with hx | hx
    · exact absurd hx (hstretch hk)
    · exact hwrit hw hx
  | yield hk => exact absurd hx (hstretch hk)

end Analysed

namespace Transforms

variable {owner : String} {m m' : Method} {a : Analysed} {plan : MethodPlan} {p : SuspensionPoint}

/-- Locals below `firstLocal` are not planned. -/
theorem firstLocal_le (h : Transforms owner m a plan m') (hp : p ∈ plan.points) :
    ∀ x ∈ p.locals, a.firstLocal ≤ x.1.toNat := by
  obtain ⟨op, callee, f, hcode, hf, hplan⟩ := (h.point hp).1
  intro x hx
  obtain ⟨i, t, hnumber, -⟩ := (SuspensionPoint.plan_for hplan).locals.sound x hx
  exact hnumber ▸ Nat.le_add_right _ _

/-- There is a local for the receiver. -/
theorem maxLocals_pos (h : Transforms owner m a plan m') (hinstance : m.isStatic = false)
    (hp : p ∈ plan.points) : 0 < m.maxLocals.toNat := by
  obtain ⟨-, hmethod, hanalyzed⟩ := h.analyzed
  have hcode : m.code ≠ [] := by
    rw [← hmethod]
    exact List.ne_nil_of_length_pos (Nat.zero_lt_of_lt (h.point hp).2)
  obtain ⟨type, -, hle, -⟩ := hanalyzed.entry hcode
  refine Nat.lt_of_lt_of_le ?_ hle
  simp [Flow.arguments, hinstance]

/-- What is added to an instance method leaves the receiver alone. -/
theorem not_assigns (h : Transforms owner m a plan m') (hinstance : m.isStatic = false)
    (hpoints : plan.points ≠ []) (hcode : ∀ i ∈ m.code, ¬ i.Assigns 0) :
    ∀ i ∈ m'.code, ¬ i.Assigns 0 := by
  obtain ⟨-, hmethod, -⟩ := h.analyzed
  obtain ⟨p, hp⟩ := List.exists_mem_of_ne_nil _ hpoints
  obtain ⟨chunks, hlayout⟩ := h.layout hpoints
  have hfirst : a.firstLocal = 1 := by simp [Analysed.firstLocal, hmethod, hinstance]
  intro i hi hassigns
  rw [hlayout.code, List.mem_append, List.mem_append] at hi
  rcases hi with (hi | hi) | hi
  · simp only [Analysed.head, List.mem_cons, List.not_mem_nil, or_false] at hi
    rcases hi with rfl | rfl | rfl <;> exact hassigns
  · obtain ⟨c, hc, hi⟩ := List.mem_flatten.1 hi
    obtain ⟨y, hy, hchunk⟩ := exists_left_of_mem hlayout.chunk hc
    obtain rfl : i = y.1 := by
      refine Analysed.eq_of_assigns_chunk hchunk (fun p hp => h.firstLocal_le hp) hi hassigns ?_ ?_
      · rw [hfirst]
        exact Nat.zero_lt_one
      · rw [hmethod]
        exact h.maxLocals_pos hinstance hp
    refine hcode _ ?_ hassigns
    rw [← hmethod]
    exact List.mem_of_getElem? (List.mk_mem_zipIdx_iff_getElem?.1 hy)
  · simp only [Analysed.tail, List.mem_cons, List.not_mem_nil, or_false] at hi
    rcases hi with rfl | rfl | rfl | rfl | rfl <;> exact hassigns

end Transforms

/-! ## At work -/

namespace Activation

variable {classes : ClassTable} {method : LoadedMethod} {receiver : Value} {args : List Value}
  {a b d w : Activation} {m m' m'' : Memory} {s : FrameStack} {i : Instr} {first q : Nat}
  {code rest : List Instr}

/-- Activations of the method that was called on the receiver: entered for the first time or again,
going on from one to the next, or with the answer to a call. -/
inductive Serves (classes : ClassTable) (method : LoadedMethod) (receiver : Value) :
    Activation → Memory → Prop where
  | enter {args : List Value} {a : Activation} (h : enter method (receiver :: args) = .ok a)
    (m : Memory) : Serves classes method receiver a m
  | step {a b : Activation} {m m' : Memory} (h : Serves classes method receiver a m)
    (hstep : a.step classes m = (.going b, m')) : Serves classes method receiver b m'
  | resume {a w b : Activation} {m m₁ m₂ m₃ : Memory} {request : Call}
    {answer : Except RunError (Option Value)} (h : Serves classes method receiver a m)
    (hcall : a.step classes m = (.calling w request, m₁))
    (hanswer : w.resume classes request answer m₂ = (.going b, m₃)) :
    Serves classes method receiver b m₃

/-- Steps lead from the first activation to the second, which is the first one to stand at `q`. -/
inductive Reaches (classes : ClassTable) (q : Nat) : Activation → Memory → Activation → Memory → Prop
  where
  | here {a : Activation} (h : a.pc = q) (m : Memory) : Reaches classes q a m a m
  | step {a b d : Activation} {m m' m'' : Memory} (hne : a.pc ≠ q)
    (hstep : a.step classes m = (.going b, m')) (h : Reaches classes q b m' d m'') :
    Reaches classes q a m d m''

theorem receiver_of_enter (h : enter method (receiver :: args) = .ok a) :
    a.locals[0]? = some receiver := by
  unfold enter at h
  dsimp only at h
  split at h
  · cases h
  · cases h
    rfl

/-- A method that does not write local 0 has the receiver there all the time. -/
theorem Serves.locals_zero (h : Serves classes method receiver a m)
    (hcode : ∀ i ∈ method.method.code, ¬ i.Assigns 0) :
    a.method = method ∧ a.locals[0]? = some receiver := by
  have hstays {a : Activation} (hmethod : a.method = method) (i : Instr)
      (hi : a.method.method.code[a.pc]? = some i) : ¬ i.Assigns 0 :=
    hcode i (hmethod ▸ List.mem_of_getElem? hi)
  induction h with
  | enter h => exact ⟨(enter_spec h).1, receiver_of_enter h⟩
  | @step a b m m' _ hstep ih =>
    obtain ⟨hmethod, hlocal⟩ := ih
    obtain ⟨c, hc⟩ := m.coroutines.exists_not_active
    have hsame := (step_spares hstep fun _ _ => hc).2.1 b rfl
    have hkeeps := (locals_of_step hstep (hstays hmethod)).1 b rfl
    exact ⟨hsame.trans hmethod, hkeeps.trans hlocal⟩
  | @resume a w b m m₁ m₂ m₃ request answer _ hcall hanswer ih =>
    obtain ⟨hmethod, hlocal⟩ := ih
    obtain ⟨c, hc⟩ := m.coroutines.exists_not_active
    have hsame := ((step_spares hcall fun _ _ => hc).2.2 w request rfl).1
    have hkeeps := (locals_of_step hcall (hstays hmethod)).2 w request rfl
    refine ⟨((resume_spares (c := c) hanswer).2.1 b rfl).trans (hsame.trans hmethod), ?_⟩
    rw [locals_of_resume hanswer, hkeeps, hlocal]

/-! ### The way behind a point -/

theorem Reaches.of_step (h : Reaches classes q a m d m'') (hne : a.pc ≠ q)
    (hstep : a.step classes m = (.going b, m')) : Reaches classes q b m' d m'' := by
  cases h with
  | here hpc => exact absurd hpc hne
  | step _ hstep' h =>
    cases hstep.symm.trans hstep'
    exact h

theorem at_of_getElem? (hi : a.method.method.code[a.pc]? = some i) : a.At [i] := by
  obtain ⟨hlt, rfl⟩ := List.getElem?_eq_some_iff.1 hi
  unfold At
  rw [List.drop_eq_getElem_cons hlt]
  exact ⟨_, rfl⟩

/-- A value is stored if there is one and there is a local for it. Otherwise this is the end. -/
theorem store_cases (classes : ClassTable) (a : Activation) (m : Memory) (kind : SlotKind)
    (slot : UInt16) :
    (∃ e, ((Exec.instr classes (.local kind.storeOpcode slot)).run a).run m = (.error e, m) ∧
      e.IsFatal) ∨ ∃ v rest, a.stack = v :: rest ∧ slot.toNat < a.locals.length := by
  have hstore : Exec.onLocal kind.storeOpcode slot =
      (do let v ← Exec.pop; Exec.setLocal slot v) := by
    cases kind <;> rfl
  have hfails {e : RunError}
      (hrun : ((Exec.onLocal kind.storeOpcode slot).run a).run m = (.error e, m)) :
      ((Exec.instr classes (.local kind.storeOpcode slot)).run a).run m = (.error e, m) :=
    Exec.run_bind_of_error hrun
  rw [hstore] at hfails
  rcases hstack : a.stack with _ | ⟨v, rest⟩
  · have hpop : (Exec.pop.run a).run m = (.error .stackUnderflow, m) := by
      obtain ⟨method, locals, stack, pc⟩ := a
      obtain rfl : stack = [] := hstack
      rfl
    exact .inl ⟨_, hfails (Exec.run_bind_of_error hpop), fun _ => rfl⟩
  · rcases Nat.lt_or_ge slot.toNat a.locals.length with hlt | hge
    · exact .inr ⟨v, rest, rfl, hlt⟩
    · have hpop := @Exec.Does.pop_of_stack a m v rest hstack
      have hget : ((get : Exec Activation).run (a.withStack rest)).run m =
          (.ok (a.withStack rest, a.withStack rest), m) := rfl
      have hlocal : ((Exec.local? slot).run (a.withStack rest)).run m =
          (.error (.code (.localOutOfRange slot)), m) := by
        refine (Exec.run_bind_of_ok hget).trans ?_
        rw [show (a.withStack rest).locals[slot.toNat]? = none from List.getElem?_eq_none hge]
        rfl
      have hset : ((Exec.setLocal slot v).run (a.withStack rest)).run m =
          (.error (.code (.localOutOfRange slot)), m) := Exec.run_bind_of_error hlocal
      exact .inl ⟨_, hfails ((Exec.run_bind_of_ok hpop).trans hset), fun _ => rfl⟩

/-- An instruction that restores goes on to the next one, or else this is the end. -/
theorem step_of_restores (hi : a.method.method.code[a.pc]? = some i) (hr : i.Restores first)
    (hs : m.stack? = some s) (h : a.step classes m = (.going b, m')) :
    b.pc = a.pc + 1 ∧ m' = m ∧ b.method = a.method := by
  have hgoing {a' : Activation} (hdoes : Exec.Does (Exec.instr classes i) a m .next a' m)
      (hmethod : a'.method = a.method) : b.pc = a.pc + 1 ∧ m' = m ∧ b.method = a.method := by
    rw [step_of_next (at_of_getElem? hi) hdoes] at h
    cases h
    exact ⟨rfl, rfl, hmethod⟩
  cases hr with
  | label l => exact hgoing .instr_label rfl
  | null => exact hgoing .instr_aconstNull rfl
  | restore kind slot =>
    rcases step_frame_cases hi hs h with
      ⟨hop, -⟩ | ⟨e, he, -⟩ | ⟨a', s', hgoing, hm, hacts, hmethod, -⟩
    · cases hop
    · cases he
    · cases hgoing
      cases hacts
      exact ⟨rfl, hm.trans (Memory.withStack_self hs), hmethod⟩
  | store kind hslot =>
    rcases store_cases classes a m kind _ with ⟨e, hrun, hfatal⟩ | ⟨v, rest, hstack, hlt⟩
    · rw [step_of_failure hi hrun, raise_of_fatal hfatal] at h
      cases h
    · exact hgoing (.instr_store hstack hlt) rfl

/-- Behind some code that restores, the first locals are what they were in front of it. -/
theorem Reaches.locals_of_restores (hat : a.At (code ++ rest)) (hcode : ∀ i ∈ code, i.Restores first)
    (hs : m.stack? = some s) (hq : q = a.pc + code.length) (h : Reaches classes q a m d m') {n : Nat}
    (hn : n < first) : d.locals[n]? = a.locals[n]? := by
  induction code generalizing a with
  | nil =>
    cases h with
    | here => rfl
    | step hne => exact absurd hq.symm hne
  | cons i code ih =>
    rw [List.length_cons] at hq
    cases h with
    | here hpc => omega
    | @step _ b _ _ m₁ _ _ hstep h =>
      have hi : a.method.method.code[a.pc]? = some i := hat.getElem?
      have hr : i.Restores first := hcode i List.mem_cons_self
      obtain ⟨hpc, rfl, hmethod⟩ := step_of_restores hi hr hs hstep
      have hkeeps : b.locals[n]? = a.locals[n]? := by
        refine (locals_of_step hstep fun i' hi' => ?_).1 b rfl
        cases hi.symm.trans hi'
        exact hr.not_assigns hn
      have hcons : a.At ([i] ++ (code ++ rest)) := hat
      have hb : b.At (code ++ rest) := hcons.skip hmethod hpc
      have hrest := ih hb (fun i hi => hcode i (List.mem_cons_of_mem _ hi)) (by omega) h
      exact hrest.trans hkeeps

end Activation

/-! ## Entering again -/

namespace Transforms

open Activation (Runs)
open FrameStack (reenter)

variable {owner : String} {m m' : Method} {a : Analysed} {plan : MethodPlan} {k q : Nat}
  {p : SuspensionPoint} {classes : ClassTable} {act b d : Activation} {mem mem₁ mem₂ : Memory}
  {s s' : FrameStack} {receiver : Value} {args : List Value}

/-- A new activation that goes on behind a point has there what it was entered with in its first
locals. -/
theorem locals_of_reaches (h : Transforms owner m a plan m')
    (hlabels : m.HasLabels (4 + 3 * plan.points.length)) (hk : k < plan.points.length)
    (henter : Activation.enter (.load owner m') args = .ok b) (hs : mem₁.stack? = some s)
    (hentry : s.enter = (UInt32.ofNat (k + 1), s'))
    (hq : (BodyLabels.forMethod m plan.points.length).after[k]?.bind (labelPosition? m'.code) = some q)
    (hreaches : b.Reaches classes q mem₁ d mem₂) {n : Nat} (hn : n < a.firstLocal) :
    d.locals[n]? = b.locals[n]? := by
  obtain ⟨rfl, rfl, -⟩ := h.analyzed
  have hp : plan.points[k]? = some plan.points[k] := List.getElem?_eq_getElem hk
  have hmem := List.mem_of_getElem? hp
  obtain ⟨chunks, hlayout⟩ := h.layout (List.ne_nil_of_mem hmem)
  obtain ⟨start, hcode, -, hresume, hafter⟩ :=
    hlayout.exists_position h.sorted hlabels hp (h.point hmem).2
  obtain ⟨hmethod, -, hpc, -⟩ := Activation.enter_spec henter
  rw [Analysed.bind_after hk, hafter, Option.some.injEq] at hq
  -- The head goes to the label of the point in two steps, and restoring starts there.
  obtain ⟨c, hfirst, hc, hsecond⟩ := hlayout.steps_head hlabels hk hmethod hpc hs hentry hresume
  have hsaving : 0 < (Analysed.Layout.saving a plan k plan.points[k]).length := by
    simp [Analysed.Layout.saving]
  have hreaches' := (hreaches.of_step (by omega) hfirst).of_step (by omega) hsecond
  have hat : Activation.At
      { b with pc := start + (Analysed.Layout.saving a plan k plan.points[k]).length }
      (Analysed.Layout.resuming a plan k plan.points[k]) := by
    rw [Analysed.Layout.stretch_eq] at hcode
    have hstart : Activation.At { b with pc := start }
        (Analysed.Layout.saving a plan k plan.points[k] ++
          Analysed.Layout.resuming a plan k plan.points[k]) := by
      unfold Activation.At
      rw [show Activation.method _ = b.method from rfl, hmethod]
      exact hcode
    exact hstart.skip rfl rfl
  have hrestores : ∀ i ∈ .label (a.method.freshLabel (4 + k)) :: plan.points[k].restoreCode,
      i.Restores a.firstLocal :=
    List.forall_mem_cons.2 ⟨.label _,
      SuspensionPoint.restores_restoreCode (h.firstLocal_le hmem)⟩
  refine hreaches'.locals_of_restores hat hrestores (Memory.stack?_withStack hs) ?_ hn
  rw [List.length_cons, ← hq, Nat.add_assoc, Nat.add_comm 1]

/-- **The receiver comes back.** An instance method that was called on some receiver is entered again
with this receiver, to go on behind a suspension point. As soon as everything has been restored, it
finds the receiver in local 0. This is what an earlier activation, say the one that was suspended at
the point, had there if and only if that one had the receiver there, and it is so if no instruction
of the method writes the local. -/
theorem receiver_returns (h : Transforms owner m a plan m') (hinstance : m.isStatic = false)
    (hlabels : m.HasLabels (4 + 3 * plan.points.length)) (hk : k < plan.points.length)
    (hserves : act.Serves classes (.load owner m') receiver mem)
    (henter : Activation.enter (.load owner m') (receiver :: args) = .ok b)
    (hs : mem₁.stack? = some s) (hentry : s.enter = (UInt32.ofNat (k + 1), s'))
    (hq : (BodyLabels.forMethod m plan.points.length).after[k]?.bind (labelPosition? m'.code) = some q)
    (hreaches : b.Reaches classes q mem₁ d mem₂) :
    d.locals[0]? = some receiver ∧
      (d.locals[0]? = act.locals[0]? ↔ act.locals[0]? = some receiver) ∧
      ((∀ i ∈ m.code, ¬ i.Assigns 0) → d.locals[0]? = act.locals[0]?) := by
  have hfirst : 0 < a.firstLocal := by
    obtain ⟨-, hmethod, -⟩ := h.analyzed
    simp [Analysed.firstLocal, hmethod, hinstance]
  have hlocal : d.locals[0]? = some receiver := by
    rw [h.locals_of_reaches hlabels hk henter hs hentry hq hreaches hfirst]
    exact Activation.receiver_of_enter henter
  refine ⟨hlocal, ?_, fun hcode => ?_⟩
  · rw [hlocal, eq_comm]
  · have hpoints : plan.points ≠ [] := List.ne_nil_of_length_pos (Nat.zero_lt_of_lt hk)
    rw [hlocal, (hserves.locals_zero (h.not_assigns hinstance hpoints hcode)).2]

/-! ### A method that forgets its receiver -/

/-- Puts 5 into local 0 and pauses. -/
def forgetting : Method :=
  { name := "forget", desc := "()V", maxLocals := 1
    code := [.const (.int 5), .local .istore 0,
      .invoke .invokestatic ⟨Names.coroutine, Names.yieldName, Names.yieldDesc⟩, .simple .ret] }

/-- What the analysis finds in it. -/
def forgettingAnalysed : Analysed :=
  ⟨"app/A", forgetting, #[some ⟨[.reference "app/A"], []⟩, some ⟨[.reference "app/A"], [.int]⟩,
    some ⟨[.int], []⟩, some ⟨[.int], []⟩]⟩

/-- Its point. -/
def forgettingPoint : SuspensionPoint :=
  { index := 2, isYield := true, stack := [], locals := [], slots := 0 }

/-- What becomes of it. -/
def forgettingBody : Method :=
  { forgetting with
    code := [.frame .entry, .switch 1 ⟨0⟩ [⟨4⟩], .label ⟨0⟩, .const (.int 5), .local .istore 0,
      .label ⟨5⟩, .frame (.reserve 1 0), .frame .suspend, .label ⟨4⟩, .label ⟨6⟩, .frame .release,
      .simple .ret, .label ⟨1⟩, .label ⟨3⟩, .frame .release, .label ⟨2⟩, .simple .athrow]
    handlers := [⟨⟨0⟩, ⟨1⟩, ⟨2⟩, some Names.suspendExecution⟩, ⟨⟨0⟩, ⟨1⟩, ⟨3⟩, none⟩] }

theorem transforms_forgetting :
    Transforms "app/A" forgetting forgettingAnalysed ⟨[forgettingPoint], []⟩ forgettingBody :=
  .of_database (.new {} .empty) (by cbv) rfl (by decide +kernel)

/-- The activation at an instruction. -/
def forgettingAt (pc : Nat) (first : Value) (stack : List Value) : Activation :=
  { method := .load "app/A" forgettingBody, locals := [first], stack, pc }

/-- The frames of the coroutine when it is suspended. -/
def forgettingStack : FrameStack := { (FrameStack.ofSize 1).enter.2 with frames := [⟨1, 0⟩, ⟨0, 0⟩] }

/-- It comes to its point with 5 in local 0. -/
theorem serves_forgetting : (forgettingAt 5 (.int 5) []).Serves {} (.load "app/A" forgettingBody)
    (.object 1) (pausingMemory (FrameStack.ofSize 1).enter.2) := by
  have hentered : Activation.enter (.load "app/A" forgettingBody) (.object 1 :: []) =
      .ok (forgettingAt 0 (.object 1) []) := rfl
  have hentry : (forgettingAt 1 (.object 1) [.int 0]).Serves {} (.load "app/A" forgettingBody)
      (.object 1) (pausingMemory (FrameStack.ofSize 1).enter.2) :=
    (Activation.Serves.enter hentered (pausingMemory (FrameStack.ofSize 1))).step rfl
  have hswitch : (forgettingAt 2 (.object 1) []).Serves {} (.load "app/A" forgettingBody)
      (.object 1) (pausingMemory (FrameStack.ofSize 1).enter.2) := hentry.step (by cbv)
  have hlabel := hswitch.step (b := forgettingAt 3 (.object 1) []) rfl
  have hconst := hlabel.step (b := forgettingAt 4 (.object 1) [.int 5]) rfl
  exact hconst.step rfl

/-- Entered again, it comes behind its point. -/
theorem reaches_forgetting : (forgettingAt 0 (.object 1) []).Reaches {} 9
    (pausingMemory forgettingStack.rewind) (forgettingAt 9 (.object 1) [])
    (pausingMemory (reenter 1 forgettingStack.rewind)) := by
  have hentry : (forgettingAt 0 (.object 1) []).step {} (pausingMemory forgettingStack.rewind) =
      (.going (forgettingAt 1 (.object 1) [.int 1]),
        pausingMemory (reenter 1 forgettingStack.rewind)) := rfl
  have hswitch : (forgettingAt 1 (.object 1) [.int 1]).step {}
      (pausingMemory (reenter 1 forgettingStack.rewind)) =
        (.going (forgettingAt 8 (.object 1) []),
          pausingMemory (reenter 1 forgettingStack.rewind)) := by cbv
  have hlabel : (forgettingAt 8 (.object 1) []).step {}
      (pausingMemory (reenter 1 forgettingStack.rewind)) =
        (.going (forgettingAt 9 (.object 1) []),
          pausingMemory (reenter 1 forgettingStack.rewind)) := rfl
  have hthere : (forgettingAt 9 (.object 1) []).pc = 9 := rfl
  exact .step (by decide) hentry
    (.step (by decide) hswitch (.step (by decide) hlabel (.here hthere _)))

/-- Behind the point it has the object that it was called on, and not what it had in front of it. -/
theorem receiver_returns_forgetting :
    (forgettingAt 9 (.object 1) []).locals[0]? = some (.object 1) ∧
      (forgettingAt 9 (.object 1) []).locals[0]? ≠ (forgettingAt 5 (.int 5) []).locals[0]? := by
  have hentered : Activation.enter (.load "app/A" forgettingBody) (.object 1 :: []) =
      .ok (forgettingAt 0 (.object 1) []) := rfl
  obtain ⟨hlocal, hsame, -⟩ := transforms_forgetting.receiver_returns (k := 0) rfl
    (by decide +kernel) (by decide) serves_forgetting hentered rfl rfl (by cbv) reaches_forgetting
  refine ⟨hlocal, fun heq => ?_⟩
  cases hsame.1 heq

/-- Called on an object, the method has 5 in local 0 when it is suspended at its point, and when it is
entered again with the object, it has the object there behind the point. -/
theorem receiver_overwritten :
    ∃ act c d q, act.Serves {} (.load "app/A" forgettingBody) (.object 1)
        (pausingMemory (FrameStack.ofSize 1).enter.2) ∧
      (BodyLabels.forMethod forgetting 1).before[0]?.bind (labelPosition? forgettingBody.code) =
        some act.pc ∧
      Runs {} act (pausingMemory (FrameStack.ofSize 1).enter.2) c (pausingMemory forgettingStack) ∧
      c.Leaves {} (pausingMemory forgettingStack) ∧
      Activation.enter (.load "app/A" forgettingBody) [.object 1] =
        .ok (forgettingAt 0 (.object 1) []) ∧
      (BodyLabels.forMethod forgetting 1).after[0]?.bind (labelPosition? forgettingBody.code) =
        some q ∧
      (forgettingAt 0 (.object 1) []).Reaches {} q (pausingMemory forgettingStack.rewind) d
        (pausingMemory (reenter 1 forgettingStack.rewind)) ∧
      act.locals[0]? = some (.int 5) ∧ d.locals[0]? = some (.object 1) := by
  have hreserve : Runs {} (forgettingAt 5 (.int 5) [])
      (pausingMemory (FrameStack.ofSize 1).enter.2) (forgettingAt 7 (.int 5) [])
      (pausingMemory forgettingStack) :=
    .step (b := forgettingAt 6 (.int 5) []) rfl (.step rfl (.refl _ _))
  have hraise : (forgettingAt 7 (.int 5) []).step {} (pausingMemory forgettingStack) =
      (.going (forgettingAt 15 (.int 5) [Heap.signal]), pausingMemory forgettingStack) := by cbv
  have hthrow : (forgettingAt 16 (.int 5) [Heap.signal]).step {} (pausingMemory forgettingStack) =
      (.done (.error .suspension), pausingMemory forgettingStack) := by cbv
  have hleaves : (forgettingAt 7 (.int 5) []).Leaves {} (pausingMemory forgettingStack) :=
    ⟨_, .step hraise (.step rfl (.refl _ _)), hthrow⟩
  exact ⟨_, _, _, 9, serves_forgetting, by cbv, hreserve, hleaves, rfl, by cbv,
    reaches_forgetting, rfl, rfl⟩

end Transforms

end Resumable
