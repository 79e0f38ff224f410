import Mathlib.Data.Nat.Find
import Resumable.Proofs.Instrument.Preservation
import Resumable.Proofs.Instrument.Stages
import Resumable.Proofs.Machine.BenchMethods

/-!
# Frame discipline

An activation of a transformed method leaves the frames of its coroutine as it has found them, or,
when the signal takes it, with a record of the point where it stopped
(`Transforms.keeps_frame_discipline`).

A visit lasts from the arrival of an activation until something has come out of it. All its steps are
in a stage, and the frame has been released at most once (`Reentrant.stage_of_visit`). The last stage
tells what the activation has left behind.

What is assumed of a visit says who may work on frames. It is also needed that whoever is not
transformed hands failures on (`Execution.HandsFailuresOn`), and that there are numbers for the labels
that are added: without either, a frame may be left behind (`Transforms.leaves_frame_behind`).
-/

namespace Resumable

variable {H : Host}

namespace Analysed

open Layout (startOf placeOf stop)

/-- At the place `pc` the method stops at point number `k`: at the suspend operation in front of the
label where it goes on, or at a call. -/
def StopsAt (a : Analysed) (plan : MethodPlan) (m : Method) (place : Nat → Nat) (k pc : Nat) : Prop :=
  ∃ p, plan.points[k]? = some p ∧
    if p.isYield then m.code[pc]? = some (.frame .suspend) ∧
      labelPosition? m.code (a.method.freshLabel (4 + k)) = some (pc + 1)
    else pc = place p.index

/-- From the arrival of an activation, in the frame number `d` of the coroutine `c`, to what comes
out of it `n` steps later. -/
structure Visit (a : Analysed) (plan : MethodPlan) (m : Method) (place : Nat → Nat) (c d : Nat)
    (e : Execution H) (n : Nat) (outcome : Except RunError (Option Value)) : Prop where
  enters : ∃ args act, Activation.enter (.load a.owner m) args = .ok act ∧ e.focus = .active act
  active : e.machine.memory.coroutines.active = some c
  current : ∃ s, e.machine.memory.coroutines.running? c = some s ∧ s.depth = d ∧
    d ≤ s.frames.length
  signal : (e.machine.memory.heap.object 0).type = Names.suspendExecution
  ends : (Execution.step^[n] e).focus = .answer outcome ∧
    (Execution.step^[n] e).waiting = e.waiting
  going : ∀ j < n, ∀ answer, (Execution.step^[j] e).focus = .answer answer →
    (Execution.step^[j] e).waiting ≠ e.waiting
  spares : ∀ j < n, (Execution.step^[j] e).SparesFrames c e.waiting
  /-- When the signal comes up for the first time, it does so at a suspend operation or out of the
  call of a point. -/
  raised : ∀ j < n, ∀ pc, (Execution.step^[j] e).RaisesSignal e.waiting pc →
    (∀ i < j, ∀ pc, ¬ (Execution.step^[i] e).RaisesSignal e.waiting pc) →
    m.code[pc]? = some (.frame .suspend) ∨
      ∃ p ∈ plan.points, p.isYield = false ∧ pc = place p.index

/-- The frame number `d` has been released once, and it is gone. -/
structure Released (c d : Nat) (e : Execution H) (n : Nat) : Prop where
  once : ∃! j, j < n ∧ (Execution.step^[j] e).Releases c d
  gone : ∃ s, (Execution.step^[n] e).machine.memory.coroutines.running? c = some s ∧ s.depth = d ∧
    s.frames.length = d

/-- The signal has come up at a point, where the frame number `d` tells to go on. Nothing of the
method has been executed afterwards but the last two instructions, which throw it on. -/
structure Stopped (a : Analysed) (plan : MethodPlan) (m : Method) (place : Nat → Nat) (c d : Nat)
    (e : Execution H) (n : Nat) : Prop where
  kept : ∀ j < n, ¬ (Execution.step^[j] e).Releases c d
  stopped : ∃ j k pc, n = j + 3 ∧ (Execution.step^[j] e).RaisesSignal e.waiting pc ∧
    a.StopsAt plan m place k pc ∧
    (∀ t < 2, ∃ b, (Execution.step^[j + 1 + t] e).focus = .active b ∧
      (Execution.step^[j + 1 + t] e).waiting = e.waiting ∧ b.method = .load a.owner m ∧
      b.pc + 2 = m.code.length + t) ∧
    ∃ s f, (Execution.step^[n] e).machine.memory.coroutines.running? c = some s ∧
      s.frames[d]? = some f ∧ f.resumeIndex = UInt32.ofNat (k + 1)

namespace Reentrant

variable {a : Analysed} {plan : MethodPlan} {m : Method} {chunks : List (List Instr)}
  {place : Nat → Nat} {c d n : Nat} {e : Execution H} {outcome : Except RunError (Option Value)}

/-- A call that is a point is kept. -/
theorem keeps_point (h : a.Reentrant plan m chunks) (hplace : a.Embeds plan m place)
    {p : SuspensionPoint} (hp : p ∈ plan.points) (hyield : p.isYield = false) :
    a.Keeps plan p.index := by
  obtain ⟨op, callee, f, hcode, -⟩ := h.arranged.planned p hp
  refine Classical.byContradiction fun hnot => ?_
  rcases hplace.replaced (h.arranged.index_lt hp) hnot with ⟨p', hp', hindex, hyield', -⟩ |
    ⟨-, ⟨type, hget⟩ | hget⟩
  · obtain ⟨k, hk⟩ := List.mem_iff_getElem?.1 hp
    obtain ⟨k', hk'⟩ := List.mem_iff_getElem?.1 hp'
    obtain ⟨-, rfl⟩ := Layout.number_unique h.arranged.sorted hk hk' hindex
    rw [hyield] at hyield'
    cases hyield'
  · cases hcode.symm.trans hget
  · cases hcode.symm.trans hget

/-- Where the method stops at a point, the point is on record. -/
theorem marked_of_stops (h : a.Reentrant plan m chunks) (hplace : a.Embeds plan m (placeOf chunks))
    {pc : Nat} (hpc : m.code[pc]? = some (.frame .suspend) ∨
      ∃ p ∈ plan.points, p.isYield = false ∧ pc = placeOf chunks p.index) :
    ∃ k, Marked plan chunks k pc ∧ a.StopsAt plan m (placeOf chunks) k pc ∧
      (m.code[pc]? = some (.frame .suspend) ∨
        ∃ op member, m.code[pc]? = some (.invoke op member)) := by
  rcases hpc with hpc | ⟨p, hp, hyield, rfl⟩
  · cases h.framePlace hpc with
    | @suspend _ k p hp hyield hlow hhigh hresume =>
      refine ⟨k, ⟨p, hp, hlow, hhigh⟩, ⟨p, hp, ?_⟩, .inl hpc⟩
      rw [if_pos hyield]
      exact ⟨hpc, hresume⟩
  · obtain ⟨k, hk⟩ := List.mem_iff_getElem?.1 hp
    have hkeeps := h.keeps_point hplace hp hyield
    obtain ⟨op, callee, f, hcode, -⟩ := h.arranged.planned p hp
    refine ⟨k, h.marked_call hk hkeeps, ⟨p, hk, ?_⟩, .inr ⟨op, callee, ?_⟩⟩
    · rw [if_neg (by rw [hyield]; nofun)]
    · rw [h.arranged.layout.getElem?_placeOf hkeeps, hcode]

/-- **A visit goes through its stages**, and it has released its frame at most once. -/
theorem stage_of_visit (h : a.Reentrant plan m chunks)
    (hvisit : a.Visit plan m place c d e n outcome)
    (hhands : ∀ j < n, (Execution.step^[j] e).HandsFailuresOn e.waiting) {j : Nat} (hj : j ≤ n) :
    (Stage a plan m chunks c d e.waiting (Execution.step^[j] e) false ∧
      ∀ i < j, ¬ (Execution.step^[i] e).Releases c d) ∨
    (Stage a plan m chunks c d e.waiting (Execution.step^[j] e) true ∧
      ∃! i, i < j ∧ (Execution.step^[i] e).Releases c d) := by
  induction j with
  | zero =>
    obtain ⟨args, act, henter, hfocus⟩ := hvisit.enters
    obtain ⟨s, hs, hdepth, hframes⟩ := hvisit.current
    obtain ⟨hmethod, -, hpc, -⟩ := Activation.enter_spec henter
    exact .inl ⟨.own hfocus rfl hmethod hvisit.active hs (.arriving hpc hdepth hframes), nofun⟩
  | succ j ih =>
    rw [Function.iterate_succ_apply']
    have hgoing := hvisit.going j hj
    have hkeeps : (Execution.step^[j] e).KeepsFrames c e.waiting := ⟨hvisit.spares j hj, hhands j hj⟩
    rcases ih (Nat.le_of_succ_le hj) with ⟨hstage, hnone⟩ | ⟨hstage, i, ⟨hi, hrelease⟩, honly⟩
    · rcases hstage.step h hgoing hkeeps with ⟨hnot, hnext⟩ | ⟨hrelease, -, hnext⟩
      · refine .inl ⟨hnext, fun i hi => ?_⟩
        rcases Nat.lt_succ_iff_lt_or_eq.1 hi with hi | rfl
        · exact hnone i hi
        · exact hnot
      · refine .inr ⟨hnext, j, ⟨Nat.lt_succ_self j, hrelease⟩, fun i ⟨hi, hrelease'⟩ => ?_⟩
        rcases Nat.lt_succ_iff_lt_or_eq.1 hi with hi | hi
        · exact absurd hrelease' (hnone i hi)
        · exact hi
    · rcases hstage.step h hgoing hkeeps with ⟨hnot, hnext⟩ | ⟨-, hspent, -⟩
      · refine .inr ⟨hnext, i, ⟨Nat.lt_succ_of_lt hi, hrelease⟩, fun i' ⟨hi', hrelease'⟩ => ?_⟩
        rcases Nat.lt_succ_iff_lt_or_eq.1 hi' with hi' | rfl
        · exact honly i' ⟨hi', hrelease'⟩
        · exact absurd hrelease' hnot
      · cases hspent

/-- What a visit comes to when no signal leaves it. -/
theorem releases_of_visit (h : a.Reentrant plan m chunks)
    (hvisit : a.Visit plan m place c d e n outcome)
    (hhands : ∀ j < n, (Execution.step^[j] e).HandsFailuresOn e.waiting)
    (hcomplete : Completes e.machine.classes (Execution.step^[n] e).machine.memory.heap outcome) :
    Released c d e n := by
  obtain ⟨hfocus, hwaiting⟩ := hvisit.ends
  have hlonger {more : List (Waiting H.Pending)} (hmore : more ≠ []) :
      (Execution.step^[n] e).waiting ≠ more ++ e.waiting := by
    rw [hwaiting]
    exact fun heq => hmore (List.self_eq_append_left.1 heq)
  have hspent {spent : Bool}
      (hstage : Stage a plan m chunks c d e.waiting (Execution.step^[n] e) spent) :
      spent = true ∧ ∃ s, (Execution.step^[n] e).machine.memory.coroutines.running? c = some s ∧
        s.depth = d ∧ s.frames.length = d := by
    cases hstage with
    | own hfocus' => cases hfocus.symm.trans hfocus'
    | inner hwaiting' hcallers => exact absurd hwaiting' (hlonger hcallers.ne_nil)
    | guests hwaiting' hguests hcallers =>
      rw [← List.append_assoc] at hwaiting'
      exact absurd hwaiting' (hlonger (List.append_ne_nil_of_right_ne_nil _ hcallers.ne_nil))
    | left hfocus' _ hs hdone =>
      cases hfocus.symm.trans hfocus'
      rw [(e.iterate_extends n).1] at hdone
      obtain ⟨hspent, hdepth, hframes⟩ := hdone hcomplete
      exact ⟨hspent, _, hs, hdepth, hframes⟩
    | fatal hfocus' hfatal =>
      cases hfocus.symm.trans hfocus'
      exact absurd hfatal hcomplete.1
  rcases h.stage_of_visit hvisit hhands (Nat.le_refl n) with ⟨hstage, -⟩ | ⟨hstage, honce⟩
  · cases (hspent hstage).1
  · exact ⟨honce, (hspent hstage).2⟩

/-- What a visit comes to when the signal leaves it. -/
theorem stopped_of_visit (h : a.Reentrant plan m chunks) (hplace : a.Embeds plan m (placeOf chunks))
    (hvisit : a.Visit plan m (placeOf chunks) c d e n (.error .suspension))
    (hhands : ∀ j < n, (Execution.step^[j] e).HandsFailuresOn e.waiting) :
    a.Stopped plan m (placeOf chunks) c d e n := by
  obtain ⟨hfocus, hwaiting⟩ := hvisit.ends
  have hsignal (j : Nat) :
      ((Execution.step^[j] e).machine.memory.heap.object 0).type = Names.suspendExecution :=
    (e.iterate_extends j).2.signal hvisit.signal
  -- The signal has come up, and the first time is the only one.
  have hraised : ∃ j, j < n ∧ ∃ pc, (Execution.step^[j] e).RaisesSignal e.waiting pc := by
    obtain _ | n := n
    · obtain ⟨args, act, -, hfocus'⟩ := hvisit.enters
      cases hfocus.symm.trans hfocus'
    have hgoing := hvisit.going n (Nat.lt_succ_self n)
    rw [Function.iterate_succ_apply'] at hfocus hwaiting
    obtain ⟨spent, hstage⟩ : ∃ spent,
        Stage a plan m chunks c d e.waiting (Execution.step^[n] e) spent := by
      rcases h.stage_of_visit hvisit hhands (Nat.le_succ n) with ⟨hstage, -⟩ | ⟨hstage, -⟩
      · exact ⟨_, hstage⟩
      · exact ⟨_, hstage⟩
    rcases hstage.own_of_left h hgoing
        ⟨hvisit.spares n (Nat.lt_succ_self n), hhands n (Nat.lt_succ_self n)⟩ hfocus hwaiting with
      ⟨b, hb, hbase⟩ | ⟨error, heq, hfatal⟩
    · rcases hstep : b.step (Execution.step^[n] e).machine.classes
        (Execution.step^[n] e).machine.memory with ⟨progress, mem⟩
      rw [Execution.step_of_active hb hstep] at hfocus
      cases progress with
      | going | calling => cases hfocus
      | done answer =>
        cases hfocus
        obtain ⟨i, mem', hi, hrun⟩ := Activation.raises_of_suspends (hsignal n) hstep
        exact ⟨n, Nat.lt_succ_self n, b.pc, .inl ⟨b, i, mem', hb, hbase, rfl, hi, hrun⟩⟩
    · cases heq
      cases hfatal .initial
  classical
  obtain ⟨hj, pc, hraises⟩ := Nat.find_spec hraised
  have hfirst (i : Nat) (hi : i < Nat.find hraised) (pc : Nat) :
      ¬ (Execution.step^[i] e).RaisesSignal e.waiting pc := fun hpc =>
    Nat.find_min hraised hi ⟨Nat.lt_trans hi hj, pc, hpc⟩
  generalize Nat.find hraised = j at hj hraises hfirst
  obtain ⟨k, hmarked, hstops, hinstr⟩ :=
    h.marked_of_stops hplace (hvisit.raised j hj pc hraises hfirst)
  rcases h.stage_of_visit hvisit hhands (Nat.le_of_lt hj) with ⟨hstage, hnone⟩ | ⟨hstage, -⟩
  case inr => cases (hstage.signalled h (hvisit.going j hj) (hsignal j) hraises hmarked hinstr).1
  obtain ⟨-, hnot, b, s, f, hb, hbase, hmethod, hpc, hstack, hs, hf, hindex⟩ :=
    hstage.signalled h (hvisit.going j hj) (hsignal j) hraises hmarked hinstr
  rw [← Function.iterate_succ_apply' Execution.step] at hb hbase hs
  obtain ⟨hsecond, hthird⟩ := h.throws_on hb hmethod hpc hstack
  rw [← Function.iterate_succ_apply' Execution.step, ← Function.iterate_succ_apply' Execution.step]
    at hthird
  rw [← Function.iterate_succ_apply' Execution.step] at hsecond
  -- Two steps later the activation has been left, and not before.
  obtain rfl : n = j + 3 := by
    have hne₁ : n ≠ j + 1 := by
      rintro rfl
      cases hfocus.symm.trans hb
    have hne₂ : n ≠ j + 2 := by
      rintro rfl
      cases hfocus.symm.trans (congrArg Execution.focus hsecond)
    have hle : n ≤ j + 3 := by
      refine Nat.le_of_not_lt fun hlt => ?_
      refine hvisit.going (j + 3) hlt _ (congrArg Execution.focus hthird) ?_
      exact (congrArg Execution.waiting hthird).trans hbase
    omega
  obtain ⟨before, hcode, hbefore⟩ := h.arranged.layout.code_eq
  have hlength : m.code.length = stop chunks + 5 := by
    rw [hcode, List.length_append, hbefore]
    rfl
  have hat (t : Nat) (ht : t < 2) : ∃ b, (Execution.step^[j + 1 + t] e).focus = .active b ∧
      (Execution.step^[j + 1 + t] e).waiting = e.waiting ∧ b.method = .load a.owner m ∧
      b.pc + 2 = m.code.length + t := by
    match t with
    | 0 => exact ⟨b, hb, hbase, hmethod, by omega⟩
    | 1 =>
      refine ⟨b.after [Heap.signal] 1, congrArg Execution.focus hsecond,
        (congrArg Execution.waiting hsecond).trans hbase, hmethod, ?_⟩
      show b.pc + 1 + 2 = _
      omega
  refine ⟨fun i hi => ?_, j, k, pc, rfl, hraises, hstops, hat, s, f, ?_, hf, hindex⟩
  · rcases Nat.lt_trichotomy i j with hlt | rfl | hlt
    · exact hnone i hlt
    · exact hnot
    · obtain ⟨t, rfl⟩ := Nat.exists_eq_add_of_lt hlt
      obtain ⟨b', hb', -, hmethod', hpc'⟩ := hat t (by omega)
      rw [show j + 1 + t = j + t + 1 by omega] at hb'
      rintro ⟨b'', s'', hb'', hi', -⟩
      cases hb'.symm.trans hb''
      rw [hmethod'] at hi'
      rcases h.behind_cases (q := b'.pc) (by omega) with hget | hget | hget <;>
        cases hi'.symm.trans hget
  · have hmemory := congrArg (·.machine.memory) hthird
    exact (congrArg (·.coroutines.running? c) hmemory).trans hs

/-- A coroutine that is left so by its outermost method has no frames any more. -/
theorem finished_of_visit (h : a.Reentrant plan m chunks)
    (hvisit : a.Visit plan m place c 0 e n outcome)
    (hhands : ∀ j < n, (Execution.step^[j] e).HandsFailuresOn e.waiting)
    (hcomplete : Completes e.machine.classes (Execution.step^[n] e).machine.memory.heap outcome)
    {previous : Option Nat} {rest : List (Waiting H.Pending)}
    (hrunner : e.waiting = .runner c previous :: rest) :
    ∃ co, (Execution.step^[n + 1] e).machine.memory.coroutines.all[c]? = some co ∧
      co.state = .finished ∧ co.stack.frames = [] := by
  obtain ⟨hfocus, hwaiting⟩ := hvisit.ends
  obtain ⟨-, s, hs, -, hframes⟩ := h.releases_of_visit hvisit hhands hcomplete
  obtain ⟨co, hco, -, rfl⟩ := Coroutines.running?_eq_some.1 hs
  have hnot : Coroutines.isSuspension (outcome.map fun _ => ()) = false := by
    rcases outcome with error | result
    · refine beq_false_of_ne ?_
      rintro rfl
      have hsignal : e.machine.classes.isInstance _ Heap.signal Names.suspendExecution = true :=
        Layout.isInstance_signal ((e.iterate_extends n).2.signal hvisit.signal)
      rw [hcomplete.2 Heap.signal rfl] at hsignal
      cases hsignal
    · rfl
  rw [Function.iterate_succ_apply', Execution.step_of_runner hfocus (hwaiting.trans hrunner)
    (Coroutines.conclude_of_not_suspension hnot)]
  refine ⟨{ co with state := .finished }, ?_, rfl, List.eq_nil_of_length_eq_zero hframes⟩
  show ((Execution.step^[n] e).machine.memory.coroutines.all.modify c _)[c]? = _
  rw [Array.getElem?_modify, if_pos rfl, hco]
  rfl

end Reentrant

end Analysed

namespace Transforms

variable {owner : String} {m m' : Method} {a : Analysed} {plan : MethodPlan}

/-- **Frame discipline.** An activation of a transformed method that ends with a result, or with an
exception other than the signal, has released its frame once, and the coroutine has the frames that
it had before; if the activation is that of its outermost method, the coroutine is then finished and
has no frames. An activation that ends with the signal has not released its frame, which has the
index of the point where the signal has come up, and it has executed nothing of the method since. -/
theorem keeps_frame_discipline (h : Transforms owner m a plan m') (hpoints : plan.points ≠ [])
    (hlabels : m.HasLabels (4 + 3 * plan.points.length)) (hplain : ∀ op, .frame op ∉ m.code) :
    ∃ place, a.Embeds plan m' place ∧ ∀ (H : Host) c d (e : Execution H) n outcome,
      a.Visit plan m' place c d e n outcome →
      (∀ j < n, (Execution.step^[j] e).HandsFailuresOn e.waiting) →
      (Completes e.machine.classes (Execution.step^[n] e).machine.memory.heap outcome →
        Analysed.Released c d e n ∧
          ∀ previous rest, d = 0 → e.waiting = .runner c previous :: rest →
            ∃ co, (Execution.step^[n + 1] e).machine.memory.coroutines.all[c]? = some co ∧
              co.state = .finished ∧ co.stack.frames = []) ∧
      (outcome = .error .suspension → a.Stopped plan m' place c d e n) := by
  obtain ⟨chunks, hreentrant⟩ := h.reentrant hpoints hlabels hplain
  have hplace := hreentrant.arranged.embeds h.replaced
  refine ⟨_, hplace, fun H c d e n outcome hvisit hhands => ⟨fun hcomplete => ⟨?_, ?_⟩, ?_⟩⟩
  · exact hreentrant.releases_of_visit hvisit hhands hcomplete
  · rintro previous rest rfl hrunner
    exact hreentrant.finished_of_visit hvisit hhands hcomplete hrunner
  · rintro rfl
    exact hreentrant.stopped_of_visit hplace hvisit hhands

end Transforms

/-! ## Visits without a signal -/

namespace Execution

variable {methods : List LoadedMethod} {base : List (Waiting benchHost.Pending)}
  {e : Execution benchHost}

/-- Above `base` only these methods work on frames. The activation that `base` waits for does not end,
and it neither raises the signal nor gets it as an answer. -/
def isQuiet (methods : List LoadedMethod) (base : List (Waiting benchHost.Pending))
    (e : Execution benchHost) : Bool :=
  match e.focus with
  | .request _ => true
  | .active b =>
    b.method.method.code[b.pc]?.all fun i =>
      if e.waiting = base then
        let outcome := (((Exec.instr e.machine.classes i).run b).run e.machine.memory).1
        !Coroutines.isSuspension (outcome.map fun _ => ())
      else !i.opcode.isFrameOp || methods.contains b.method
  | .answer outcome =>
    e.waiting != base &&
      (e.waiting.tail != base || !Coroutines.isSuspension (outcome.map fun _ => ()))

theorem sparesFrames_of_isQuiet (hmethods : ∀ m ∈ methods, m.IsTransformed) (c : Nat)
    (h : e.isQuiet methods base = true) : e.SparesFrames c base where
  performs := by
    intro chain b op hchain hwaiting _ hfocus hop
    have hother : e.waiting ≠ base := by
      rw [hwaiting]
      exact fun heq => hchain (List.self_eq_append_left.1 heq.symm)
    have hframe : (Instr.frame op).opcode.isFrameOp = true := by cases op <;> rfl
    unfold isQuiet at h
    simp only [hfocus, hop, Option.all_some, if_neg hother, hframe, Bool.not_true, Bool.false_or,
      List.contains_iff_mem] at h
    exact hmethods _ h
  hosts := fun hat => spares_of_atHost hat c

theorem not_raisesSignal_of_isQuiet (h : e.isQuiet methods base = true) (pc : Nat) :
    ¬ e.RaisesSignal base pc := by
  unfold isQuiet at h
  rintro (⟨b, i, mem, hfocus, hwaiting, rfl, hi, hrun⟩ | ⟨w, request, hfocus, hwaiting, -⟩)
  · simp only [hfocus, hi, Option.all_some, if_pos hwaiting, hrun] at h
    cases h
  · simp only [hfocus, hwaiting, List.tail_cons, bne_self_eq_false, Bool.false_or,
      Bool.and_eq_true] at h
    cases h.2

theorem waiting_ne_of_isQuiet (h : e.isQuiet methods base = true)
    {outcome : Except RunError (Option Value)} (hfocus : e.focus = .answer outcome) :
    e.waiting ≠ base := by
  unfold isQuiet at h
  simp only [hfocus, Bool.and_eq_true, bne_iff_ne] at h
  exact h.1

/-- The outcome has come out of what `base` waits for. -/
def hasEnded (base : List (Waiting benchHost.Pending)) (outcome : Except RunError (Option Value))
    (e : Execution benchHost) : Bool :=
  match e.focus with
  | .answer given => decide (given = outcome ∧ e.waiting = base)
  | _ => false

theorem of_hasEnded {outcome : Except RunError (Option Value)}
    (h : e.hasEnded base outcome = true) : e.focus = .answer outcome ∧ e.waiting = base := by
  unfold hasEnded at h
  split at h
  · rename_i given hfocus
    obtain ⟨rfl, hwaiting⟩ := of_decide_eq_true h
    exact ⟨hfocus, hwaiting⟩
  · cases h

/-- An activation that waits for nobody has no failure to hand on. -/
theorem handsFailuresOn_of_waiting (h : e.waiting = base) : e.HandsFailuresOn base := by
  intro chain w error hwaiting
  have hlength := congrArg List.length (h.symm.trans hwaiting)
  simp only [List.length_cons, List.length_append] at hlength
  omega

end Execution

/-- A visit in which no signal comes up. -/
theorem Analysed.Visit.of_isQuiet {a : Analysed} {plan : MethodPlan} {m : Method} {c d n : Nat}
    {e : Execution benchHost} {outcome : Except RunError (Option Value)} {methods : List LoadedMethod}
    (hmethods : ∀ m ∈ methods, m.IsTransformed)
    (hquiet : ∀ j < n, (Execution.step^[j] e).isQuiet methods e.waiting = true)
    (henters : ∃ args act, Activation.enter (.load a.owner m) args = .ok act ∧ e.focus = .active act)
    (hactive : e.machine.memory.coroutines.active = some c)
    (hcurrent : ∃ s, e.machine.memory.coroutines.running? c = some s ∧ s.depth = d ∧
      d ≤ s.frames.length)
    (hsignal : (e.machine.memory.heap.object 0).type = Names.suspendExecution)
    (hends : (Execution.step^[n] e).hasEnded e.waiting outcome = true) (place : Nat → Nat) :
    a.Visit plan m place c d e n outcome where
  enters := henters
  active := hactive
  current := hcurrent
  signal := hsignal
  ends := Execution.of_hasEnded hends
  going j hj _ hfocus := Execution.waiting_ne_of_isQuiet (hquiet j hj) hfocus
  spares j hj := Execution.sparesFrames_of_isQuiet hmethods c (hquiet j hj)
  raised j hj pc hraises := absurd hraises (Execution.not_raisesSignal_of_isQuiet (hquiet j hj) pc)

namespace Transforms

/-! ### A method that goes on after a pause -/

/-- The frames of the coroutine that has paused with 5 and 8, before it goes on. -/
def pausingStack : FrameStack :=
  { frames := [⟨1, 0⟩], depth := 0, base := 0, top := 2, prims := #[5, 8], refs := #[.null, .null] }

/-- A machine whose only coroutine has these frames and is active. -/
def machineOf (classes : ClassTable) (s : FrameStack) : Machine benchHost :=
  { classes
    natives := BenchMethod.platform ++ BenchMethod.bench
    host := { memory := pausingMemory s, own := {} } }

/-- The coroutine is run again and is about to start its method. -/
def pausingRun : Execution benchHost :=
  ⟨machineOf {} pausingStack, [.runner 0 none], .active (pausingAt 0 0 [])⟩

/-- It returns 13. The coroutine is finished then and has no frames. -/
theorem keeps_frame_discipline_pausing :
    (∃! j, j < 11 ∧ (Execution.step^[j] pausingRun).Releases 0 0) ∧
      ∃ co, (Execution.step^[12] pausingRun).machine.memory.coroutines.all[0]? = some co ∧
        co.state = .finished ∧ co.stack.frames = [] := by
  obtain ⟨place, -, hvisits⟩ := transforms_pausing.keeps_frame_discipline (List.cons_ne_nil _ _)
    (by decide +kernel) (by simp [pausing])
  have hquiet : ∀ j < 11,
      (Execution.step^[j] pausingRun).isQuiet [] pausingRun.waiting = true := by decide +kernel
  have hvisit : pausingAnalysed.Visit ⟨[pausingPoint], []⟩ pausingBody place 0 0 pausingRun 11
      (.ok (some (.int 13))) :=
    .of_isQuiet (List.forall_mem_nil _) hquiet ⟨[.int 0], _, rfl, rfl⟩ rfl
      ⟨_, rfl, rfl, Nat.zero_le _⟩ rfl (by decide +kernel) place
  have halone : ∀ j < 11, (Execution.step^[j] pausingRun).waiting = pausingRun.waiting := by
    decide +kernel
  obtain ⟨⟨honce, -⟩, hfinished⟩ := (hvisits benchHost 0 0 pausingRun 11 _ hvisit fun j hj =>
    Execution.handsFailuresOn_of_waiting (halone j hj)).1 trivial
  exact ⟨honce, hfinished none [] rfl rfl⟩

/-! ### Without label numbers, or with someone who keeps the signal -/

/-- The first activation of the body, called with 0. -/
def collidingRun : Execution benchHost :=
  ⟨machineOf {} (FrameStack.ofSize 1), [.runner 0 none],
    .active { collidingAt with locals := [.int 0], pc := 0 }⟩

/-- Pauses if its argument is 0, and calls the other method if it is not. -/
def attempting : Method :=
  { name := "attempt", desc := "(I)V", access := .static, throws := [Names.suspendExecution]
    maxLocals := 1
    code := [.local .iload 0, .jump .ifeq ⟨0⟩, .invoke .invokestatic ⟨"app/A", "calm", "()V"⟩,
      .simple .ret, .label ⟨0⟩,
      .invoke .invokestatic ⟨Names.coroutine, Names.yieldName, Names.yieldDesc⟩, .simple .ret] }

/-- Calls the other method with 0, and keeps whatever comes out of it. Since it does not say that it can
be suspended, it is not transformed. -/
def calming : Method :=
  { name := "calm", desc := "()V", access := .static
    code := [.label ⟨0⟩, .const (.int 0), .invoke .invokestatic ⟨"app/A", "attempt", "(I)V"⟩,
      .label ⟨1⟩, .simple .ret, .label ⟨2⟩, .simple .pop, .simple .ret]
    handlers := [⟨⟨0⟩, ⟨1⟩, ⟨2⟩, none⟩] }

/-- What the analysis finds in the first method. -/
def attemptingAnalysed : Analysed :=
  ⟨"app/A", attempting, #[some ⟨[.int], []⟩, some ⟨[.int], [.int]⟩, some ⟨[.int], []⟩,
    some ⟨[.int], []⟩, some ⟨[.int], []⟩, some ⟨[.int], []⟩, some ⟨[.int], []⟩]⟩

/-- Its point. -/
def attemptingPoint : SuspensionPoint :=
  { index := 5, isYield := true, stack := [], locals := [(0, .saved .int 0)], slots := 1 }

/-- What becomes of it. -/
def attemptingBody : Method :=
  { attempting with
    code := [.frame .entry, .switch 1 ⟨1⟩ [⟨5⟩], .label ⟨1⟩, .local .iload 0, .jump .ifeq ⟨0⟩,
      .invoke .invokestatic ⟨"app/A", "calm", "()V"⟩, .frame .release, .simple .ret, .label ⟨0⟩,
      .label ⟨6⟩, .frame (.reserve 1 1), .local .iload 0, .frame (.save .int 0), .frame .suspend,
      .label ⟨5⟩, .frame (.restore .int 0), .local .istore 0, .label ⟨7⟩, .frame .release,
      .simple .ret, .label ⟨2⟩, .label ⟨4⟩, .frame .release, .label ⟨3⟩, .simple .athrow]
    handlers := [⟨⟨1⟩, ⟨2⟩, ⟨3⟩, some Names.suspendExecution⟩, ⟨⟨1⟩, ⟨2⟩, ⟨4⟩, none⟩] }

/-- Where the class of the two methods is found. -/
def attemptingResolver : Resolver :=
  .ofList [("app/A", { name := "app/A", methods := [attempting, calming] })]

theorem transforms_attempting :
    Transforms "app/A" attempting attemptingAnalysed ⟨[attemptingPoint], []⟩ attemptingBody :=
  .of_database (.new {} attemptingResolver) (by cbv) rfl (by decide +kernel)

/-- The first activation of the first method, called with 1. -/
def attemptingRun : Execution benchHost :=
  ⟨machineOf (.insert {} { name := "app/A", methods := [attemptingBody, calming] })
      (FrameStack.ofSize 1), [.runner 0 none],
    .active { method := .load "app/A" attemptingBody, locals := [.int 1] }⟩

/-- A frame that is still entered has not been released. -/
theorem not_released_of_depth (depth : Nat) {c d n : Nat} {e : Execution benchHost}
    (h : ((Execution.step^[n] e).machine.memory.coroutines.running? c).map FrameStack.depth =
      some depth) (hne : depth ≠ d) : ¬ Analysed.Released c d e n := by
  rintro ⟨-, s, hs, hdepth, -⟩
  rw [hs] at h
  exact hne ((Option.some.inj h).symm.trans hdepth)

/-- Without numbers for the labels that are added, an activation leaves its frame behind when it
throws. With them it may do so as well, if someone who is not transformed keeps the signal: the frame
that the activation releases is then that of the method that has been suspended. -/
theorem leaves_frame_behind :
    (Transforms "app/A" colliding collidingAnalysed ⟨[collidingPoint], []⟩ collidingBody ∧
      (∀ op, .frame op ∉ colliding.code) ∧
      (∀ place, collidingAnalysed.Visit ⟨[collidingPoint], []⟩ collidingBody place 0 0 collidingRun 10
        (.error (.thrown (.object 1)))) ∧
      (∀ j < 10, (Execution.step^[j] collidingRun).HandsFailuresOn collidingRun.waiting) ∧
      Completes collidingRun.machine.classes
        (Execution.step^[10] collidingRun).machine.memory.heap (.error (.thrown (.object 1))) ∧
      ¬ Analysed.Released 0 0 collidingRun 10) ∧
    Transforms "app/A" attempting attemptingAnalysed ⟨[attemptingPoint], []⟩ attemptingBody ∧
      attempting.HasLabels 7 ∧ (∀ op, .frame op ∉ attempting.code) ∧
      (∀ place, attemptingAnalysed.Visit ⟨[attemptingPoint], []⟩ attemptingBody place 0 0 attemptingRun
        31 (.ok none)) ∧
      ¬ Analysed.Released 0 0 attemptingRun 31 := by
  have hlabels : attempting.HasLabels 7 := by decide +kernel
  have hplain : ∀ op, .frame op ∉ attempting.code := by simp [attempting]
  have htransformed : ∀ m ∈ [LoadedMethod.load "app/A" attemptingBody], m.IsTransformed := by
    intro m hm
    rw [List.mem_singleton.1 hm]
    exact ⟨_, _, _, _, _, transforms_attempting, List.cons_ne_nil _ _, hlabels, hplain, rfl⟩
  have hthrows : ∀ j < 10, (Execution.step^[j] collidingRun).isQuiet [] collidingRun.waiting = true ∧
      (Execution.step^[j] collidingRun).waiting = collidingRun.waiting := by decide +kernel
  have hkeeps : ∀ j < 31, (Execution.step^[j] attemptingRun).isQuiet
      [.load "app/A" attemptingBody] attemptingRun.waiting = true := by decide +kernel
  refine ⟨⟨transforms_colliding, by simp [colliding], fun place => ?_, fun j hj => ?_, ?_, ?_⟩,
    transforms_attempting, hlabels, hplain, fun place => ?_, ?_⟩
  · have hquiet (j : Nat) (hj : j < 10) := (hthrows j hj).1
    exact .of_isQuiet (List.forall_mem_nil _) hquiet ⟨[.int 0], _, rfl, rfl⟩ rfl
      ⟨_, rfl, rfl, Nat.zero_le _⟩ rfl (by decide +kernel) place
  · exact Execution.handsFailuresOn_of_waiting (hthrows j hj).2
  · refine ⟨fun hfatal => (nomatch hfatal .initial), fun v hv => ?_⟩
    cases hv
    decide +kernel
  · exact not_released_of_depth 1 (by decide +kernel) (by decide)
  · exact .of_isQuiet htransformed hkeeps ⟨[.int 1], _, rfl, rfl⟩ rfl ⟨_, rfl, rfl, Nat.zero_le _⟩ rfl
      (by decide +kernel) place
  · exact not_released_of_depth 1 (by decide +kernel) (by decide)

end Transforms

end Resumable
