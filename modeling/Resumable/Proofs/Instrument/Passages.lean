import Resumable.Proofs.Instrument.Mirrors

/-!
# Through what has been added

What the re-entrant form of a careful method does between the instructions of the method, while the
coroutine of a `Drive` is running: it enters its frame (`Revision.runs_entry`), keeps what it has in
front of a point and takes it back (`Mirrors.runs_point`) or suspends there (`Mirrors.runs_pause`), and
releases the frame in front of a return (`Careful.runs_departure`) or when an exception is not caught
(`Revision.runs_ending`). When it is entered again, it finds the way to the point where it has stopped
and goes on behind it (`Mirrors.runs_again`).
-/

namespace Resumable

open Activation (Runs)

namespace FrameStack

variable {s : FrameStack} {k b base : Nat} {r : FrameRecord}

/-- The next frame to be entered is number `k`, and the cursor is at the frame below. -/
structure Poised (k b : Nat) (s : FrameStack) : Prop where
  ready : Ready k b s
  base : ∀ mark, k ≠ 0 → s.frames[k - 1]? = some mark → s.base = mark.base

theorem Current.poised (h : Current k base r s) : Poised (k + 1) (base + r.slots) s := by
  refine ⟨h.ready, fun mark _ hmark => ?_⟩
  rw [Nat.add_sub_cancel, h.recorded.mark] at hmark
  cases hmark
  exact h.base_eq

theorem Poised.current (h : Poised (k + 1) (base + r.slots) s) (hr : Recorded k base r s) :
    Current k base r s :=
  ⟨h.ready, hr, h.base _ (Nat.succ_ne_zero k) hr.mark⟩

/-- The frame of a method is left. -/
theorem Current.leave (h : Current k base r s) (h0 : k = 0 → base = 0) :
    ∃ s', s.release = .ok s' ∧ Poised k base s' ∧ Keeps k base s s' := by
  have hmark := h.recorded.mark
  have hdepth : s.depth = k + 1 := h.ready.depth
  obtain ⟨s', hs⟩ : ∃ s', s.release = .ok s' := ⟨_, release_of_depth hdepth hmark⟩
  have habove := (h.above (Nat.le_refl _) h0).release (by omega) hs
  refine ⟨s', hs, ⟨⟨?_, habove, ?_, ?_, ?_⟩, fun mark hk hbelow => ?_⟩, h.beyond.release hs⟩ <;>
    rw [release_of_depth hdepth hmark] at hs <;> cases hs
  · rfl
  · exact Nat.le_succ_of_le (List.length_take_le _ _)
  · intro f hf
    simp at hf
  · rfl
  · have hlt : k - 1 < k := by omega
    dsimp only at hbelow
    rw [List.getElem?_take_of_lt hlt] at hbelow
    simp [hk, hbelow]

/-- Once all frames have been entered again, the stack is what it was. -/
theorem Current.reenter_rewind (h : Current k base r s) : reenter (k + 1) s.rewind = s := by
  obtain ⟨base', hagain⟩ := FrameStack.reenter_rewind (s := s)
    (Nat.le_of_lt (List.getElem?_eq_some_iff.1 h.recorded.mark).1)
  rw [reenter, hagain, enter_of_some h.recorded.mark]
  have hdepth : s.depth = k + 1 := h.ready.depth
  have hbase := h.base_eq
  cases s
  cases hdepth
  cases hbase
  rfl

end FrameStack

open FrameStack (Current Keeps Poised Recorded reenter safeCapacity)

/-- A frame of the coroutine is released. -/
theorem Drive.instr_release (d : Drive) (m : Memory) {s s' : FrameStack} {t : ClassTable}
    {b : Activation} (h : s.release = .ok s') : Exec.Does (Exec.instr t (.frame .release)) b
      (m.withCoroutines (d.running s)) .next b (m.withCoroutines (d.running s')) := by
  rw [← d.withStack_running m s s']
  refine .instr_frame (.onStack_of_ok (d.stack?_running m s) ?_)
  rw [h]
  rfl

/-- A reference that is not null is thrown. -/
theorem Exec.athrow_of_stack {t : ClassTable} {b : Activation} {m : Memory} {v : Value}
    {rest : List Value} (hstack : b.stack = v :: rest) (hreference : v.isReference = true)
    (hnull : v.isNull = false) :
    ((instr t (.simple .athrow)).run b).run m = (.error (.thrown v), m) := by
  obtain ⟨method, locals, stack, pc⟩ := b
  cases hstack
  cases v with
  | null => cases hnull
  | str | object | array => rfl
  | int | long | float | double => cases hreference

namespace Revision

variable {w : Revision} {d : Drive} {t : ClassTable} {m : Memory} {a b c : Activation}
  {s s' : FrameStack} {f : Frame} {entered : List Value} {i k number base : Nat} {r : FrameRecord}
  {x : Instr} {p : SuspensionPoint}

/-! ## At both ends -/

/-- Entered for the first time, the method starts. -/
theorem runs_entry (hb : b.method = w.after) (hpc : b.pc = 0) (henter : s.enter = (0, s')) :
    Runs t b (m.withCoroutines (d.running s)) { b with pc := w.start 0 }
      (m.withCoroutines (d.running s')) := by
  have hat : b.At (.frame .entry :: .switch 1 (w.source.freshLabel 0)
      ((List.range w.plan.points.length).map fun k => w.source.freshLabel (4 + k)) ::
        .label (w.source.freshLabel 0) :: (w.chunks.flatten ++ w.analysed.tail)) := by
    unfold Activation.At
    rw [hb, hpc, show w.after.method.code = w.target.code from rfl, w.arranged.layout.code,
      List.drop_zero, Analysed.head, List.append_assoc]
    exact List.prefix_refl _
  have hentry : Runs t b (m.withCoroutines (d.running s)) (b.after (.int 0 :: b.stack) 1)
      (m.withCoroutines (d.running s')) := by
    rw [← d.withStack_running m s s']
    exact Activation.runs_after hat (.instr_entry (d.stack?_running m s) henter (by decide))
  have hswitch : Exec.Does (Exec.instr t (.switch 1 (w.source.freshLabel 0)
      ((List.range w.plan.points.length).map fun k => w.source.freshLabel (4 + k))))
      (b.after (.int 0 :: b.stack) 1) (m.withCoroutines (d.running s')) (.goto 2)
      { b with pc := b.pc + 1 } (m.withCoroutines (d.running s')) := by
    refine .instr_switch_to rfl (if_pos (by decide)) ?_
    show labelPosition? b.method.method.code _ = _
    rw [hb]
    exact w.arranged.layout.position_start w.labels
  have hgoto := Activation.step_of_goto (hat.next _) hswitch
  have hlabel : Runs t { b with pc := 2 } (m.withCoroutines (d.running s'))
      { b with pc := 3 } (m.withCoroutines (d.running s')) :=
    Activation.runs_after (i := .label (w.source.freshLabel 0))
      (Activation.At.skip (show b.At ([_, _] ++ _) from hat) rfl (by rw [hpc]; rfl)) .instr_label
  exact hentry.trans (.step hgoto hlabel)

/-- Behind the code of the method, the frame is released and the exception is thrown on. -/
theorem runs_ending (hb : b.method = w.after) (hpc : b.pc = w.ending + 1) {v : Value}
    (hstack : b.stack = [v]) (hreference : v.isReference = true) (hnull : v.isNull = false)
    (hrelease : s.release = .ok s') :
    ∃ c, Runs t b (m.withCoroutines (d.running s)) c (m.withCoroutines (d.running s')) ∧
      c.step t (m.withCoroutines (d.running s')) =
        (.done (.error (.thrown v)), m.withCoroutines (d.running s')) := by
  have hat : b.At [.label (w.source.freshLabel 3), .frame .release, .label (w.source.freshLabel 2),
      .simple .athrow] := by
    have htail : Activation.At { b with pc := w.ending } w.analysed.tail := by
      unfold Activation.At
      rw [show Activation.method _ = b.method from rfl, hb]
      exact (w.arranged.layout.drop_stop ▸ List.prefix_refl w.analysed.tail :
        w.analysed.tail <+: w.target.code.drop w.ending)
    exact Activation.At.skip (show Activation.At _ ([_] ++ _) from htail) rfl hpc
  have hfirst : Runs t b (m.withCoroutines (d.running s)) (b.after b.stack 1)
      (m.withCoroutines (d.running s)) := Activation.runs_after hat .instr_label
  have hsecond : Runs t _ (m.withCoroutines (d.running s)) _ (m.withCoroutines (d.running s')) :=
    Activation.runs_after (hat.next b.stack) (d.instr_release m hrelease)
  have hthird : Runs t _ (m.withCoroutines (d.running s')) _ (m.withCoroutines (d.running s')) :=
    Activation.runs_after ((hat.next b.stack).next b.stack) .instr_label
  refine ⟨_, hfirst.trans (hsecond.trans hthird), ?_⟩
  rw [Activation.step_of_error (((hat.next b.stack).next b.stack).next b.stack)
    (Exec.athrow_of_stack hstack hreference hnull)]
  refine Activation.raise_of_unhandled rfl ?_
  show t.handlerFor? m.heap b.method (b.pc + 1 + 1 + 1) v = none
  rw [hb]
  exact w.arranged.layout.handlerFor?_behind w.labels (by
    show w.ending ≤ b.pc + 1 + 1 + 1
    omega) _ v

/-- An instruction that neither returns nor is a point has nothing in front of it. -/
theorem Careful.start_eq_place (h : w.Careful) (hx : w.source.code[i]? = some x)
    (hpoint : ∀ p ∈ w.plan.points, p.index ≠ i) (hreturn : x.departure = []) :
    w.start i = w.place i := by
  obtain ⟨before, -, hlen, ⟨-, rfl⟩ | ⟨k, p, hp, hindex, -⟩⟩ :=
    h.chunk_at hx fun p hp hindex => absurd hindex (hpoint p hp)
  · rw [← hlen, hreturn]
    rfl
  · exact absurd hindex (hpoint p (List.mem_of_getElem? hp))

/-- In front of a return, the frame is released. -/
theorem Careful.runs_departure (h : w.Careful) {op : Opcode} (hx : w.source.code[i]? = some (.simple op))
    (hop : op.isReturn = true) (hb : b.method = w.after) (hpc : b.pc = w.start i)
    (hrelease : s.release = .ok s') :
    Runs t b (m.withCoroutines (d.running s)) { b with pc := w.place i }
      (m.withCoroutines (d.running s')) := by
  have hnone : ∀ p ∈ w.plan.points, p.index ≠ i := by
    rintro p hp rfl
    obtain ⟨⟨_, _, _, hinvoke, -⟩, -⟩ := w.transforms.point hp
    rw [hx] at hinvoke
    cases hinvoke
  have hdeparture : (Instr.simple op).departure = [.frame .release] := if_pos hop
  obtain ⟨before, hat, hlen, ⟨-, rfl⟩ | ⟨k, p, hp, hindex, -⟩⟩ :=
    h.chunk_at hx fun p hp hindex => absurd hindex (hnone p hp)
  · rw [hdeparture] at hat hlen
    have hhere : b.At (.frame .release :: [.simple op]) := by
      unfold Activation.At
      rw [hb, hpc]
      exact hat
    rw [← hlen, ← hpc]
    exact Activation.runs_after hhere (d.instr_release m hrelease)
  · exact absurd hindex (hnone p (List.mem_of_getElem? hp))

/-! ## At a point -/

theorem index_lt (hp : w.plan.points[k]? = some p) : p.index < w.source.code.length :=
  (w.transforms.point (List.mem_of_getElem? hp)).2

/-- A point that is no yield is gone on from. -/
theorem goesOn_of_point (hp : w.plan.points[k]? = some p) (hyield : p.isYield = false) :
    w.GoesOn p.index := by
  intro q hq hindex
  obtain ⟨k', hk'⟩ := List.mem_iff_getElem?.1 hq
  obtain ⟨-, rfl⟩ := Analysed.Layout.number_unique w.transforms.sorted hp hk' hindex
  exact hyield

/-- A stretch reaches up to the call, or fills the whole place of a suspend call. -/
theorem Careful.length_stretch (h : w.Careful) (hp : w.plan.points[k]? = some p) :
    w.start p.index + (w.analysed.stretch w.plan k p).length =
      if p.isYield then w.start (p.index + 1) else w.place p.index := by
  obtain ⟨op, callee, -, hx, -⟩ := (w.transforms.point (List.mem_of_getElem? hp)).1
  split
  · rename_i hyield
    obtain ⟨c, hc, hchunk, -⟩ := w.arranged.layout.exists_chunk hx
    obtain ⟨body, rfl, hbody⟩ :=
      Analysed.Layout.chunk_of_point w.transforms.sorted hp rfl hchunk
    rw [if_pos hyield] at hbody
    subst hbody
    rw [List.append_nil] at hc
    exact (Analysed.Layout.startOf_add hc).trans (w.start_succ p.index).symm
  · rename_i hyield
    obtain ⟨before, -, hlen, hbefore⟩ :=
      h.chunk_at hx (w.goesOn_of_point hp (by simpa using hyield))
    rcases hbefore with ⟨hnone, -⟩ | ⟨k', p', hp', hindex, -, rfl⟩
    · exact absurd rfl (hnone p (List.mem_of_getElem? hp))
    · obtain ⟨rfl, rfl⟩ := Analysed.Layout.number_unique w.transforms.sorted hp hp' hindex
      exact hlen

/-- What a mirrored activation has is described by the frame as well. -/
theorem Mirrors.describes (h : w.Mirrors f entered a b) (hf : f.Holds a)
    (hstack : ∀ v ∈ f.stack, v.isFresh = false) : f.Describes b := by
  constructor
  · rw [← h.length', List.take_length]
    refine List.forall₂_iff_get.2 ⟨h.length'.symm, fun i hi hi' => ?_⟩
    have ht : f.locals[i]? = some f.locals[i] := List.getElem?_eq_getElem hi
    have hv : b.locals[i]? = some b.locals[i] := List.getElem?_eq_getElem hi'
    show f.locals[i].Admits b.locals[i]
    by_cases hunknown : f.locals[i] = .unknown
    · rw [hunknown]
      trivial
    · rw [h.locals i _ ht hunknown] at hv
      exact forall₂_getElem? hf.locals ht hv
  · rw [h.stack, List.filter_eq_self.2 fun v hv => by simp [hstack v hv]]
    exact hf.stack

/-- From the label where a point goes on, its record leads back to what there was in front of the
point. -/
theorem Mirrors.runs_back (hp : w.plan.points[k]? = some p)
    (hf : w.analysed.frame? p.index = some f) (hdescribes : f.Describes b)
    (hbuilt : ∀ v ∈ f.locals, v.isFresh = false) (h : w.Mirrors f entered a b) (hkept : p.Kept r b)
    (hc : c.method = w.after) (hempty : c.stack = []) (hlen : c.locals.length = f.locals.length)
    (hentered : ∀ i < w.analysed.firstLocal, c.locals[i]? = entered[i]?)
    (hpc : c.pc = w.start p.index + (Analysed.Layout.saving w.analysed w.plan k p).length)
    (hgives : SuspensionPoint.Gives s r) :
    ∃ c', Runs t c (m.withCoroutines (d.running s)) c' (m.withCoroutines (d.running s)) ∧
      c'.pc = w.start p.index + (w.analysed.stretch w.plan k p).length ∧
      w.Mirrors f entered a c' := by
  obtain ⟨hfor, -⟩ := w.transforms.plan_for hp hf
  obtain ⟨hstretch, -⟩ := w.arranged.layout.positions_of_point w.transforms.sorted w.labels hp
    (w.index_lt hp)
  have hat : c.At (.label (w.source.freshLabel (4 + k)) :: (p.restoreCode ++ [.label
      (w.source.freshLabel (4 + w.plan.points.length + w.plan.points.length + k))])) := by
    rw [Analysed.Layout.stretch_eq] at hstretch
    have hstart : Activation.At { c with pc := w.start p.index }
        (Analysed.Layout.saving w.analysed w.plan k p ++
          Analysed.Layout.resuming w.analysed w.plan k p) := by
      unfold Activation.At
      rw [show Activation.method _ = c.method from rfl, hc]
      exact hstretch
    exact hstart.skip rfl hpc
  have hmax : f.locals.length < 65536 := by
    obtain ⟨-, -, hanalyzed⟩ := w.transforms.analyzed
    rw [hanalyzed.uniform p.index f hf]
    exact UInt16.toNat_lt _
  obtain ⟨c₁, hruns, hpc₁, hgoes, hlen₁, hbelow⟩ : ∃ c₁, Runs t c _ c₁ _ ∧ _ :=
    Frame.runs_resume hfor hdescribes hmax hkept (hc.trans h.revised.symm) hempty
      (Nat.le_of_eq hlen.symm) hat (d.stack?_running m s) hgives
  have hlast : c₁.At [.label
      (w.source.freshLabel (4 + w.plan.points.length + w.plan.points.length + k))] :=
    Activation.At.skip (show c.At ((_ :: p.restoreCode) ++ _) from hat)
      (hgoes.method.trans (h.revised.trans hc.symm))
      (by rw [hpc₁, List.length_cons, Nat.add_assoc, Nat.add_comm 1])
  refine ⟨_, hruns.trans (Activation.runs_after hlast .instr_label), ?_, ?_⟩
  · show c₁.pc + 1 = _
    rw [hpc₁, hpc, Analysed.Layout.stretch_eq]
    simp [Analysed.Layout.resuming]
    omega
  · refine ⟨h.method, hgoes.method.trans h.revised, hgoes.stack.trans h.stack, h.length,
      hlen₁.trans hlen, fun i v hv hknown => ?_, fun i hi => ⟨(h.entered i hi).1, ?_⟩⟩
    · rcases Nat.lt_or_ge i w.analysed.firstLocal with hi | hi
      · show c₁.locals[i]? = a.locals[i]?
        rw [hbelow i hi, hentered i hi, (h.entered i hi).1]
      · exact (hgoes.locals i v hi hv hknown (hbuilt v (List.mem_of_getElem? hv))).trans
          (h.locals i v hv hknown)
    · exact (hbelow i hi).trans (hentered i hi)

/-- **In front of a point**, everything is put on record. -/
theorem Mirrors.runs_saving (hp : w.plan.points[k]? = some p)
    (hf : w.analysed.frame? p.index = some f) (hdescribes : f.Describes b)
    (h : w.Mirrors f entered a b) (hpc : b.pc = w.start p.index) (hcur : Current number base r s)
    (hroom : base + UInt32.size ≤ safeCapacity) :
    ∃ s' r' c, Runs t b (m.withCoroutines (d.running s)) c (m.withCoroutines (d.running s')) ∧
      c = b.after [] (1 + (p.saveCode (UInt32.ofNat (k + 1))).length) ∧
      c.At ((if p.isYield then [.frame .suspend] else []) ++
        Analysed.Layout.resuming w.analysed w.plan k p) ∧
      Current number base r' s' ∧ r'.resumeIndex = UInt32.ofNat (k + 1) ∧
      r'.slots < UInt32.size ∧ p.Kept r' b ∧ Keeps number base s s' := by
  have hsmall : p.slots.toNat < UInt32.size := p.slots.toNat_lt_size
  obtain ⟨hfor, -⟩ := w.transforms.plan_for hp hf
  obtain ⟨hstretch, -⟩ := w.arranged.layout.positions_of_point w.transforms.sorted w.labels hp
    (w.index_lt hp)
  have hat : b.At (.label (w.source.freshLabel (4 + w.plan.points.length + k)) ::
      (p.saveCode (UInt32.ofNat (k + 1)) ++ ((if p.isYield then [.frame .suspend] else []) ++
        Analysed.Layout.resuming w.analysed w.plan k p))) := by
    unfold Activation.At
    rw [Analysed.Layout.stretch_eq] at hstretch
    rw [h.revised, hpc]
    show _ <+: w.target.code.drop (Analysed.Layout.startOf w.chunks p.index)
    simpa [Analysed.Layout.saving] using hstretch
  obtain ⟨s', r', c, hruns, hc, hnext, hcur', hindex, hslots, hkept, hkeeps⟩ :
      ∃ s' r' c, Runs t b _ c _ ∧ _ :=
    Frame.runs_suspend hfor hdescribes hat (d.stack?_running m s) hcur.ready.above.sizes
      hcur.ready.depth hcur.recorded.mark (Nat.le_trans (Nat.add_le_add_left hsmall.le base) hroom)
  rw [d.withStack_running] at hruns
  exact ⟨s', r', c, hruns, hc, hnext, hcur', hindex, hslots ▸ hsmall, hkept,
    hkeeps base hcur.beyond⟩

/-- **At a point that is no yield**, everything is put on record and taken back. -/
theorem Mirrors.runs_point (hcareful : w.Careful) (hp : w.plan.points[k]? = some p)
    (hyield : p.isYield = false) (hf : w.analysed.frame? p.index = some f)
    (hdescribes : f.Describes b) (hbuilt : ∀ v ∈ f.locals, v.isFresh = false)
    (h : w.Mirrors f entered a b) (hpc : b.pc = w.start p.index) (hcur : Current number base r s)
    (hroom : base + UInt32.size ≤ safeCapacity) :
    ∃ s' r' c, Runs t b (m.withCoroutines (d.running s)) c (m.withCoroutines (d.running s')) ∧
      c.pc = w.place p.index ∧ w.Mirrors f entered a c ∧ Current number base r' s' ∧
      r'.resumeIndex = UInt32.ofNat (k + 1) ∧ r'.slots < UInt32.size ∧ p.Kept r' b ∧
      Keeps number base s s' := by
  obtain ⟨s', r', c, hsave, rfl, -, hcur', hindex, hslots, hkept, hkeeps⟩ :=
    h.runs_saving (t := t) (d := d) (m := m) hp hf hdescribes hpc hcur hroom
  obtain ⟨c', hback, hpc', hmirrors⟩ := h.runs_back (t := t) (d := d) (m := m)
    (c := b.after [] (1 + (p.saveCode (UInt32.ofNat (k + 1))).length)) hp hf hdescribes hbuilt hkept
    h.revised rfl h.length' (fun i hi => (h.entered i hi).2)
    (by
      show b.pc + _ = _
      rw [hpc, Analysed.Layout.saving, hyield]
      simp [Nat.add_comm])
    (fun kind slot v hv => hcur'.recorded.restore hcur'.base_eq hv)
  rw [hcareful.length_stretch hp, hyield] at hpc'
  exact ⟨s', r', c', hsave.trans hback, hpc', hmirrors, hcur', hindex, hslots, hkept, hkeeps⟩

/-- **At a yield**, everything is put on record and the signal is raised, which leaves the method. -/
theorem Mirrors.runs_pause (hp : w.plan.points[k]? = some p) (hyield : p.isYield = true)
    (hf : w.analysed.frame? p.index = some f) (hdescribes : f.Describes b)
    (h : w.Mirrors f entered a b) (hpc : b.pc = w.start p.index) (hcur : Current number base r s)
    (hroom : base + UInt32.size ≤ safeCapacity)
    (hsignal : (m.heap.object 0).type = Names.suspendExecution) :
    ∃ s' r', (∃ c, Runs t b (m.withCoroutines (d.running s)) c (m.withCoroutines (d.running s')) ∧
        c.step t (m.withCoroutines (d.running s')) =
          (.done (.error .suspension), m.withCoroutines (d.running s'))) ∧
      Current number base r' s' ∧ r'.resumeIndex = UInt32.ofNat (k + 1) ∧
      r'.slots < UInt32.size ∧ p.Kept r' b ∧ Keeps number base s s' := by
  obtain ⟨s', r', c, hsave, hc, hnext, hcur', hindex, hslots, hkept, hkeeps⟩ :=
    h.runs_saving (t := t) (d := d) (m := m) hp hf hdescribes hpc hcur hroom
  rw [hyield] at hnext
  have hmethod : c.method = w.after := by rw [hc]; exact h.revised
  have hsuspend := hnext.getElem?
  rw [hmethod] at hsuspend
  obtain ⟨hlow, hhigh⟩ := w.arranged.layout.bounds hsuspend (by simp [Analysed.head])
    (by simp [Analysed.tail])
  obtain ⟨e, hraise, g, hruns, hg⟩ : ∃ e, c.raise t .suspension (m.withCoroutines (d.running s')) =
      (.going e, m.withCoroutines (d.running s')) ∧ e.Leaves t (m.withCoroutines (d.running s')) :=
    w.arranged.layout.signal_leaves w.labels hmethod hlow hhigh hsignal
  refine ⟨s', r', ⟨g, hsave.trans (.step ?_ hruns), hg⟩, hcur', hindex, hslots, hkept, hkeeps⟩
  rw [Activation.step_of_error hnext rfl]
  exact hraise

/-- **Entered again**, the method goes on behind the point where it has stopped, with what it had in
front of it. -/
theorem Mirrors.runs_again (hcareful : w.Careful) (hp : w.plan.points[k]? = some p)
    (hf : w.analysed.frame? p.index = some f) (hdescribes : f.Describes b)
    (hbuilt : ∀ v ∈ f.locals, v.isFresh = false) (h : w.Mirrors f entered a b) (hkept : p.Kept r b)
    (hrecorded : Recorded number base r s) (hindex : r.resumeIndex = UInt32.ofNat (k + 1))
    (hc : c = { method := w.after, locals := entered }) (hlen : entered.length = f.locals.length) :
    ∃ c', Runs t c (m.withCoroutines (d.running (reenter number s.rewind))) c'
        (m.withCoroutines (d.running (reenter (number + 1) s.rewind))) ∧
      c'.pc = (if p.isYield then w.start (p.index + 1) else w.place p.index) ∧
      w.Mirrors f entered a c' := by
  subst hc
  obtain ⟨hresume, hgives⟩ := hrecorded.reenter
  obtain ⟨-, -, hposition, -⟩ := w.arranged.layout.positions_of_point w.transforms.sorted w.labels hp
    (w.index_lt hp)
  have henter : (reenter number s.rewind).enter =
      (UInt32.ofNat (k + 1), reenter (number + 1) s.rewind) := by
    rw [← hindex, ← hresume]
    rfl
  obtain ⟨c₁, hhead, rfl⟩ : ∃ c₁, Runs t ⟨w.after, entered, [], 0⟩ _ c₁ _ ∧ _ :=
    w.arranged.layout.runs_head w.labels (List.getElem?_eq_some_iff.1 hp).1 rfl rfl
      (d.stack?_running m (reenter number s.rewind)) henter hposition
  rw [d.withStack_running] at hhead
  obtain ⟨c', hback, hpc', hmirrors⟩ := h.runs_back (t := t) (d := d) (m := m)
    (c := ⟨w.after, entered, [], _⟩) hp hf hdescribes hbuilt hkept rfl rfl hlen (fun _ _ => rfl) rfl
    hgives
  rw [hcareful.length_stretch hp] at hpc'
  exact ⟨c', hhead.trans hback, hpc', hmirrors⟩

/-- The signal that comes out of a call goes through the method. -/
theorem lets_out (hb : b.method = w.after) {request : Call}
    (hinvoke : ∃ op callee, w.target.code[b.pc]? = some (.invoke op callee))
    (hsignal : (m.heap.object 0).type = Names.suspendExecution) :
    ∃ c, b.resume t request (.error .suspension) m = (.going c, m) ∧ c.Leaves t m :=
  w.arranged.layout.letsOut w.labels b request m hb hinvoke hsignal

end Revision

end Resumable
