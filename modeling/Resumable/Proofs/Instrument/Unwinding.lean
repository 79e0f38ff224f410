import Resumable.Proofs.Instrument.Layout
import Resumable.Proofs.Machine.Runs

/-!
# How the signal leaves

The suspension signal may be raised anywhere between the first and the last label of a transformed
body, by the suspend operation or by a call. The first handler of the body takes it and throws it on
from behind the last label, where no handler covers anything. So the activation ends with the signal,
and neither the coroutine frame nor anything else in memory is touched (`Layout.signal_leaves`).
-/

namespace Resumable

/-- From here on the activation ends with the signal and leaves the memory as it is. -/
def Activation.Leaves (classes : ClassTable) (a : Activation) (m : Memory) : Prop :=
  ∃ b, Activation.Runs classes a m b m ∧ b.step classes m = (.done (.error .suspension), m)

namespace Analysed.Layout

variable {a : Analysed} {plan : MethodPlan} {m : Method} {chunks : List (List Instr)}
  {classes : ClassTable} {act : Activation} {mem : Memory} {l : Label} {number q : Nat}

/-! ## Labels at the ends -/

/-- The labels of the head and the tail stand in no chunk. -/
theorem end_not_mem_chunks (h : a.Layout plan m chunks)
    (hlabels : a.method.HasLabels (4 + 3 * plan.points.length)) (hnumber : number < 4) :
    .label (a.method.freshLabel number) ∉ chunks.flatten := by
  intro hmem
  obtain ⟨c, hc, hmem⟩ := List.mem_flatten.1 hmem
  obtain ⟨x, hx, hchunk⟩ := exists_left_of_mem h.chunk hc
  rcases label_of_mem_chunk hchunk hmem with hown | ⟨k, p, hp, -, number', hnumber', heq⟩
  · have hcode : a.method.code[x.2]? = some x.1 := by
      simpa using List.mk_mem_zipIdx_iff_getElem?.1 hx
    rw [hown] at hcode
    exact Method.freshLabel_ne hlabels (by omega) (Method.mem_labels_of_getElem? hcode) rfl
  · have hk := (List.getElem?_eq_some_iff.1 hp).1
    have hlow := le_of_mem_pointLabels hnumber'
    have := Method.freshLabel_inj hlabels (by omega) (lt_of_mem_pointLabels hnumber' hk) heq
    omega

/-- Where the chunks end. -/
def stop (chunks : List (List Instr)) : Nat := 3 + chunks.flatten.length

theorem code_eq (h : a.Layout plan m chunks) :
    ∃ before, m.code = before ++ a.tail ∧ before.length = stop chunks := by
  refine ⟨a.head plan ++ chunks.flatten, by rw [h.code], ?_⟩
  simp [head, stop]
  omega

theorem drop_stop (h : a.Layout plan m chunks) : m.code.drop (stop chunks) = a.tail := by
  obtain ⟨before, hcode, hlen⟩ := h.code_eq
  rw [hcode, List.drop_left' hlen]

theorem position_start (h : a.Layout plan m chunks)
    (hlabels : a.method.HasLabels (4 + 3 * plan.points.length)) :
    labelPosition? m.code (a.method.freshLabel 0) = some 2 := by
  have hsplit : m.code = [Instr.frame .entry, .switch 1 (a.method.freshLabel 0)
      ((List.range plan.points.length).map fun k => a.method.freshLabel (4 + k))] ++
      .label (a.method.freshLabel 0) :: (chunks.flatten ++ a.tail) := by
    rw [h.code]
    simp [head]
  rw [hsplit, labelPosition?_append_cons]
  · rfl
  · intro hmem
    rcases List.mem_append.1 hmem with hmem | hmem
    · exact h.end_not_mem_chunks hlabels (by omega) hmem
    · obtain ⟨number, hnumber, heq⟩ := number_of_mem_tail hmem
      simp only [List.mem_cons, List.not_mem_nil, or_false] at hnumber
      have := Method.freshLabel_inj hlabels (by omega) (by omega) heq
      omega

theorem position_stop (h : a.Layout plan m chunks)
    (hlabels : a.method.HasLabels (4 + 3 * plan.points.length)) :
    labelPosition? m.code (a.method.freshLabel 1) = some (stop chunks) := by
  obtain ⟨before, hcode, hlen⟩ := h.code_eq
  rw [hcode, ← hlen]
  apply labelPosition?_append_cons
  have hthree : a.method.freshLabel 1 ≠ a.method.freshLabel 3 := fun heq => by
    have := Method.freshLabel_inj hlabels (by omega) (by omega) heq
    omega
  have htwo : a.method.freshLabel 1 ≠ a.method.freshLabel 2 := fun heq => by
    have := Method.freshLabel_inj hlabels (by omega) (by omega) heq
    omega
  simp [hthree, htwo]

theorem position_catchAll (h : a.Layout plan m chunks)
    (hlabels : a.method.HasLabels (4 + 3 * plan.points.length)) :
    labelPosition? m.code (a.method.freshLabel 3) = some (stop chunks + 1) := by
  obtain ⟨before, hcode, hlen⟩ := h.code_eq
  have htwo : a.method.freshLabel 3 ≠ a.method.freshLabel 2 := fun heq => by
    have := Method.freshLabel_inj hlabels (by omega) (by omega) heq
    omega
  have hsplit : m.code = (before ++ [.label (a.method.freshLabel 1)]) ++
      .label (a.method.freshLabel 3) :: [.frame .release, .label (a.method.freshLabel 2),
        .simple .athrow] := by
    rw [hcode, tail]
    simp
  rw [hsplit, labelPosition?_append_cons (by simp [htwo]), ← hlen]
  simp

theorem position_catchSignal (h : a.Layout plan m chunks) :
    labelPosition? m.code (a.method.freshLabel 2) = some (stop chunks + 3) := by
  obtain ⟨before, hcode, hlen⟩ := h.code_eq
  have hsplit : m.code = (before ++ [.label (a.method.freshLabel 1),
      .label (a.method.freshLabel 3), .frame .release]) ++
        .label (a.method.freshLabel 2) :: [.simple .athrow] := by
    rw [hcode, tail]
    simp
  rw [hsplit, labelPosition?_append_cons (by simp), ← hlen]
  simp

/-- All labels but those at the end stand in front of them. -/
theorem position_lt_stop (h : a.Layout plan m chunks)
    (hlabels : a.method.HasLabels (4 + 3 * plan.points.length))
    (hl : l ∈ a.method.labels ∨
      ∃ k < plan.points.length, l = a.method.freshLabel (4 + plan.points.length + k))
    (hq : labelPosition? m.code l = some q) : q < stop chunks := by
  refine Nat.lt_of_not_le fun hle => ?_
  have hmem : .label l ∈ a.tail := by
    rw [← h.drop_stop]
    refine List.mem_iff_getElem?.2 ⟨q - stop chunks, ?_⟩
    rw [List.getElem?_drop, Nat.add_sub_cancel' hle]
    exact getElem?_of_labelPosition? hq
  obtain ⟨number, hnumber, heq⟩ := number_of_mem_tail hmem
  simp only [List.mem_cons, List.not_mem_nil, or_false] at hnumber
  rcases hl with hown | ⟨k, hk, rfl⟩
  · exact Method.freshLabel_ne hlabels (by omega) hown heq
  · have := Method.freshLabel_inj hlabels (by omega) (by omega) heq
    omega

/-! ## The signal -/

/-- No handler covers what comes behind the last label. -/
theorem not_covers (h : a.Layout plan m chunks)
    (hlabels : a.method.HasLabels (4 + 3 * plan.points.length)) (hq : stop chunks ≤ q)
    {loaded : LoadedHandler} (hmem : loaded ∈ (LoadedMethod.load a.owner m).handlers) :
    loaded.covers q = false := by
  obtain ⟨handler, hhandler, hload⟩ := List.mem_filterMap.1 hmem
  obtain ⟨cut, hhandlers, hcut⟩ := h.handlers
  have hstop := (Handler.load?_eq_some_iff.1 hload).2.1
  have hle : loaded.stop ≤ stop chunks := by
    rw [hhandlers] at hhandler
    rcases List.mem_append.1 hhandler with hhandler | hhandler
    · rcases List.mem_cons.1 hhandler with rfl | hhandler
      · rw [show a.signalHandler.stop = a.method.freshLabel 1 from rfl,
          h.position_stop hlabels] at hstop
        exact Nat.le_of_eq (Option.some.inj hstop).symm
      · exact Nat.le_of_lt (h.position_lt_stop hlabels (hcut handler hhandler) hstop)
    · rw [List.mem_singleton.1 hhandler, show a.otherHandler.stop = a.method.freshLabel 1 from rfl,
        h.position_stop hlabels] at hstop
      exact Nat.le_of_eq (Option.some.inj hstop).symm
  unfold LoadedHandler.covers
  simp only [Bool.and_eq_false_iff, decide_eq_false_iff_not]
  omega

theorem load_signalHandler (h : a.Layout plan m chunks)
    (hlabels : a.method.HasLabels (4 + 3 * plan.points.length)) :
    a.signalHandler.load? m.code =
      some ⟨2, stop chunks, stop chunks + 3, some Names.suspendExecution⟩ := by
  unfold Handler.load? signalHandler
  rw [h.position_start hlabels, h.position_stop hlabels, h.position_catchSignal]
  rfl

theorem isInstance_signal {heap : Heap} (h : (heap.object 0).type = Names.suspendExecution) :
    classes.isInstance heap Heap.signal Names.suspendExecution = true := by
  show classes.reaches Names.suspendExecution classes.entries.length (heap.object 0).type = true
  rw [h]
  unfold ClassTable.reaches
  simp

/-- The signal, and whatever else is of its class, goes to its own handler first. -/
theorem handlerFor?_signal (h : a.Layout plan m chunks)
    (hlabels : a.method.HasLabels (4 + 3 * plan.points.length)) (hlow : 2 ≤ q)
    (hhigh : q < stop chunks) {heap : Heap} {v : Value}
    (hinstance : classes.isInstance heap v Names.suspendExecution = true) :
    classes.handlerFor? heap (.load a.owner m) q v =
      some ⟨2, stop chunks, stop chunks + 3, some Names.suspendExecution⟩ := by
  obtain ⟨cut, hhandlers, -⟩ := h.handlers
  have hfirst : ∃ rest, (LoadedMethod.load a.owner m).handlers =
      ⟨2, stop chunks, stop chunks + 3, some Names.suspendExecution⟩ :: rest := by
    refine ⟨(cut ++ [a.otherHandler]).filterMap (·.load? m.code), ?_⟩
    show m.handlers.filterMap (·.load? m.code) = _
    rw [hhandlers, List.cons_append, List.filterMap_cons, h.load_signalHandler hlabels]
  obtain ⟨rest, hrest⟩ := hfirst
  unfold ClassTable.handlerFor?
  rw [hrest, List.find?_cons_of_pos]
  simp [LoadedHandler.covers, hlow, hhigh, hinstance]

/-- Behind the last label, nothing is caught. -/
theorem handlerFor?_behind (h : a.Layout plan m chunks)
    (hlabels : a.method.HasLabels (4 + 3 * plan.points.length)) (hq : stop chunks ≤ q) (heap : Heap)
    (v : Value) : classes.handlerFor? heap (.load a.owner m) q v = none := by
  unfold ClassTable.handlerFor?
  rw [List.find?_eq_none]
  intro loaded hmem
  rw [h.not_covers hlabels hq hmem]
  simp

/-- The signal goes behind the release of the frame. -/
theorem raise_signal (h : a.Layout plan m chunks)
    (hlabels : a.method.HasLabels (4 + 3 * plan.points.length))
    (hmethod : act.method = .load a.owner m) (hlow : 2 ≤ act.pc) (hhigh : act.pc < stop chunks)
    (hsignal : (mem.heap.object 0).type = Names.suspendExecution) :
    act.raise classes .suspension mem =
      (.going { act with stack := [Heap.signal], pc := stop chunks + 3 }, mem) := by
  have hhandler : classes.handlerFor? mem.heap act.method act.pc Heap.signal =
      some ⟨2, stop chunks, stop chunks + 3, some Names.suspendExecution⟩ := by
    rw [hmethod]
    exact h.handlerFor?_signal hlabels hlow hhigh (isInstance_signal hsignal)
  exact Activation.raise_of_handler rfl hhandler

/-- There it is thrown on. -/
theorem step_signal (h : a.Layout plan m chunks)
    (hlabels : a.method.HasLabels (4 + 3 * plan.points.length))
    (hmethod : act.method = .load a.owner m) (hpc : act.pc = stop chunks + 3)
    (hstack : act.stack = [Heap.signal]) :
    act.step classes mem = (.going (act.after [Heap.signal] 1), mem) ∧
      (act.after [Heap.signal] 1).step classes mem = (.done (.error .suspension), mem) := by
  have hat : act.At [.label (a.method.freshLabel 2), .simple .athrow] := by
    have htail : Activation.At { act with pc := stop chunks } a.tail := by
      unfold Activation.At
      rw [show Activation.method _ = act.method from rfl, hmethod]
      exact (h.drop_stop ▸ List.prefix_refl a.tail : a.tail <+: m.code.drop (stop chunks))
    exact Activation.At.skip (show Activation.At _ ([_, _, _] ++ _) from htail) rfl hpc
  constructor
  · rw [Activation.step_of_next hat .instr_label, ← hstack]
    rfl
  · rw [Activation.step_of_error (hat.next _)
      (show _ = (Except.error RunError.suspension, mem) from rfl)]
    have hnone : classes.handlerFor? mem.heap act.method (act.pc + 1) Heap.signal = none := by
      rw [hmethod]
      exact h.handlerFor?_behind hlabels (by omega) mem.heap Heap.signal
    exact Activation.raise_of_unhandled rfl hnone

/-- **The signal leaves.** Wherever it is raised between the first and the last label, the activation
ends with it, and the memory stays as it is. -/
theorem signal_leaves (h : a.Layout plan m chunks)
    (hlabels : a.method.HasLabels (4 + 3 * plan.points.length))
    (hmethod : act.method = .load a.owner m) (hlow : 2 ≤ act.pc) (hhigh : act.pc < stop chunks)
    (hsignal : (mem.heap.object 0).type = Names.suspendExecution) :
    ∃ b, act.raise classes .suspension mem = (.going b, mem) ∧ b.Leaves classes mem := by
  have hcaught : ({ act with stack := [Heap.signal], pc := stop chunks + 3 } : Activation).method =
    .load a.owner m := hmethod
  refine ⟨_, h.raise_signal hlabels hmethod hlow hhigh hsignal,
    ⟨_, .step (h.step_signal hlabels hcaught rfl rfl).1 (.refl _ _), ?_⟩⟩
  exact (h.step_signal hlabels hcaught rfl rfl).2

end Analysed.Layout

end Resumable
