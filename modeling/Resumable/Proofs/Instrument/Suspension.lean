import Resumable.Proofs.Instrument.Resume
import Resumable.Proofs.Machine.Activity

/-!
# Suspending and going on

At a suspension point a transformed method keeps what it works with, and goes on with the same behind
the point: at once, if the call does not suspend, or in a later activation of the same method, which
finds its way to the point through the resume index (`suspension_resumes`).

In between, the frames further in may do as they like (`FrameStack.Inside`), the signal has left the
activation, and the cursor has been rewound and has come back to the frame.

The labels that are added have to be told from those of the method, and there has to be room for what is
kept (`not_resumes`).
-/

namespace Resumable

/-! ## Entering again -/

namespace Analysed.Layout

open Activation (Runs)

variable {a : Analysed} {plan : MethodPlan} {m : Method} {chunks : List (List Instr)}
  {classes : ClassTable} {act : Activation} {mem : Memory} {s s' : FrameStack} {k q : Nat}

/-- With the resume index of a point on record, the head finds the way to the point in two steps. -/
theorem steps_head (h : a.Layout plan m chunks)
    (hlabels : a.method.HasLabels (4 + 3 * plan.points.length)) (hk : k < plan.points.length)
    (hmethod : act.method = .load a.owner m) (hpc : act.pc = 0)
    (hs : mem.stack? = some s) (henter : s.enter = (UInt32.ofNat (k + 1), s'))
    (hq : labelPosition? m.code (a.method.freshLabel (4 + k)) = some q) :
    ∃ b, act.step classes mem = (.going b, mem.withStack s') ∧ b.pc = 1 ∧
      b.step classes (mem.withStack s') = (.going { act with pc := q }, mem.withStack s') := by
  have hat : act.At (.frame .entry :: .switch 1 (a.method.freshLabel 0)
      ((List.range plan.points.length).map fun k => a.method.freshLabel (4 + k)) ::
        (.label (a.method.freshLabel 0) :: (chunks.flatten ++ a.tail))) := by
    unfold Activation.At
    rw [hmethod, hpc, show (LoadedMethod.load a.owner m).method.code = m.code from rfl, h.code,
      List.drop_zero, head, List.append_assoc]
    exact List.prefix_refl _
  have hsmall : k + 1 < 2147483648 := by
    unfold Method.HasLabels at hlabels
    omega
  have hnumber : (UInt32.ofNat (k + 1)).toNat = k + 1 :=
    UInt32.toNat_ofNat_of_lt' (Nat.lt_trans hsmall (by decide))
  have hentry : act.step classes mem =
      (.going (act.after ((.int (UInt32.ofNat (k + 1)).toInt32) :: act.stack) 1),
        mem.withStack s') :=
    Activation.step_of_next hat (.instr_entry hs henter (by rw [hnumber]; exact hsmall))
  have hoffset : (UInt32.ofNat (k + 1)).toInt32.toInt - (1 : Int32).toInt = k := by
    rw [Exec.Does.toInt_toInt32 (by rw [hnumber]; exact hsmall), hnumber]
    show ((k + 1 : Nat) : Int) - 1 = k
    omega
  have htarget : ((List.range plan.points.length).map fun k => a.method.freshLabel (4 + k))[k]? =
      some (a.method.freshLabel (4 + k)) := by
    rw [List.getElem?_map, List.getElem?_range hk]
    rfl
  have hdoes : Exec.Does (Exec.instr classes (.switch 1 (a.method.freshLabel 0)
      ((List.range plan.points.length).map fun k => a.method.freshLabel (4 + k))))
      (act.after ((.int (UInt32.ofNat (k + 1)).toInt32) :: act.stack) 1) (mem.withStack s')
      (.goto q) (act.after act.stack 1) (mem.withStack s') := by
    refine .instr_switch rfl hoffset htarget ?_
    show labelPosition? act.method.method.code _ = _
    rw [hmethod]
    exact hq
  have hswitch := Activation.step_of_goto (hat.next _) hdoes
  exact ⟨_, hentry, congrArg (· + 1) hpc, hswitch⟩

theorem runs_head (h : a.Layout plan m chunks)
    (hlabels : a.method.HasLabels (4 + 3 * plan.points.length)) (hk : k < plan.points.length)
    (hmethod : act.method = .load a.owner m) (hpc : act.pc = 0)
    (hs : mem.stack? = some s) (henter : s.enter = (UInt32.ofNat (k + 1), s'))
    (hq : labelPosition? m.code (a.method.freshLabel (4 + k)) = some q) :
    ∃ b, Runs classes act mem b (mem.withStack s') ∧ b = { act with pc := q } := by
  obtain ⟨b, hentry, -, hswitch⟩ := h.steps_head hlabels hk hmethod hpc hs henter hq
  exact ⟨_, .step hentry (.step hswitch (.refl _ _)), rfl⟩

/-- What stands neither in the head nor in the tail stands between the labels at the ends. -/
theorem bounds (h : a.Layout plan m chunks) {i : Instr} (hq : m.code[q]? = some i)
    (hhead : i ∉ a.head plan) (htail : i ∉ a.tail) : 2 ≤ q ∧ q < stop chunks := by
  constructor
  · refine Nat.le_of_not_lt fun hlt => hhead ?_
    rw [h.code, List.append_assoc, List.getElem?_append_left (by simp [head]; omega)] at hq
    exact List.mem_of_getElem? hq
  · refine Nat.lt_of_not_le fun hle => htail ?_
    rw [← h.drop_stop]
    refine List.mem_iff_getElem?.2 ⟨q - stop chunks, ?_⟩
    rw [List.getElem?_drop, Nat.add_sub_cancel' hle]
    exact hq

/-- Where the method has a suspend operation, the activation ends with the signal. -/
theorem suspends (h : a.Layout plan m chunks)
    (hlabels : a.method.HasLabels (4 + 3 * plan.points.length)) {rest : List Instr}
    (hmethod : act.method = .load a.owner m) (hat : act.At (.frame .suspend :: rest))
    (hsignal : (mem.heap.object 0).type = Names.suspendExecution) : act.Leaves classes mem := by
  have hop := hat.getElem?
  rw [hmethod] at hop
  obtain ⟨hlow, hhigh⟩ := h.bounds hop (by simp [head]) (by simp [tail])
  obtain ⟨b, hraise, c, hruns, hleaves⟩ :
      ∃ b, act.raise classes .suspension mem = (.going b, mem) ∧ b.Leaves classes mem :=
    h.signal_leaves hlabels hmethod hlow hhigh hsignal
  refine ⟨c, .step ?_ hruns, hleaves⟩
  rw [Activation.step_of_error hat rfl]
  exact hraise

end Analysed.Layout

/-! ## The point -/

namespace Analysed

open Activation (Runs)
open FrameStack (Inside reenter)

variable {a : Analysed} {plan : MethodPlan} {m : Method} {classes : ClassTable}
  {act : Activation} {mem mem' : Memory} {f : Frame} {k d : Nat}

/-- The activation stands in front of point number `k` with what the frame says. Of the frames of the
active coroutine, number `d` is its own and is the current one. -/
structure Stands (a : Analysed) (plan : MethodPlan) (m : Method) (k : Nat) (f : Frame) (d : Nat)
    (act : Activation) (mem : Memory) : Prop where
  method : act.method = .load a.owner m
  place : (BodyLabels.forMethod a.method plan.points.length).before[k]?.bind
    (labelPosition? m.code) = some act.pc
  describes : f.Describes act
  current : ∃ s mark, mem.stack? = some s ∧ s.refs.size = s.prims.size ∧ s.depth = d + 1 ∧
    s.frames[d]? = some mark

/-- From `b` the place behind point number `k` is reached, with what `act` had in front of it. -/
def Passes (a : Analysed) (plan : MethodPlan) (m : Method) (k : Nat) (f : Frame)
    (classes : ClassTable) (act b : Activation) (mem mem' : Memory) : Prop :=
  ∃ c, Runs classes b mem c mem' ∧
    (BodyLabels.forMethod a.method plan.points.length).after[k]?.bind (labelPosition? m.code) =
      some c.pc ∧ f.GoesOn a.firstLocal act c

/-- The signal goes through the calls of the method and leaves it. -/
def LetsOut (a : Analysed) (m : Method) (classes : ClassTable) : Prop :=
  ∀ (w : Activation) (request : Call) (mem : Memory), w.method = .load a.owner m →
    (∃ op callee, m.code[w.pc]? = some (.invoke op callee)) →
    (mem.heap.object 0).type = Names.suspendExecution →
    ∃ b, w.resume classes request (.error .suspension) mem = (.going b, mem) ∧
      b.Leaves classes mem

/-- In front of a point, the activation saves what it works with and then either suspends, or goes on
behind the point at once and lets the signal out if the call there suspends. Once the frames further
in have done as they like and the cursor has been rewound and moved back to the frame, a new
activation of the method, with whatever arguments, reaches the place behind the point with the same
operands and the same values in all locals that the frame knows. -/
def Resumes (a : Analysed) (plan : MethodPlan) (m : Method) (k : Nat) (p : SuspensionPoint)
    (f : Frame) (d : Nat) (classes : ClassTable) (act : Activation) (mem : Memory) : Prop :=
  ∃ s₁, (if p.isYield then
      ∃ b, Runs classes act mem b (mem.withStack s₁) ∧ b.Leaves classes (mem.withStack s₁)
    else a.Passes plan m k f classes act act mem (mem.withStack s₁) ∧ a.LetsOut m classes) ∧
    ∀ s₂ mem₂ args b, Inside (d + 1) s₁ s₂ → mem₂.stack? = some (reenter d s₂.rewind) →
      Activation.enter (.load a.owner m) args = .ok b →
      a.Passes plan m k f classes act b mem₂ (mem₂.withStack (reenter (d + 1) s₂.rewind))

theorem Layout.letsOut {chunks : List (List Instr)} (h : a.Layout plan m chunks)
    (hlabels : a.method.HasLabels (4 + 3 * plan.points.length)) : a.LetsOut m classes := by
  intro w request mem hmethod hinvoke hsignal
  obtain ⟨op, callee, hinvoke⟩ := hinvoke
  obtain ⟨hlow, hhigh⟩ := h.bounds hinvoke (by simp [head]) (by simp [tail])
  exact h.signal_leaves hlabels hmethod hlow hhigh hsignal

theorem bind_before {k n : Nat} (hk : k < n) (place : Label → Option Nat) :
    (BodyLabels.forMethod a.method n).before[k]?.bind place =
      place (a.method.freshLabel (4 + n + k)) := by
  rw [Method.forMethod_eq, List.getElem?_map, List.getElem?_range hk]
  rfl

theorem bind_after {k n : Nat} (hk : k < n) (place : Label → Option Nat) :
    (BodyLabels.forMethod a.method n).after[k]?.bind place =
      place (a.method.freshLabel (4 + n + n + k)) := by
  rw [Method.forMethod_eq, List.getElem?_map, List.getElem?_range hk]
  rfl

end Analysed

namespace Transforms

open Activation (Runs)
open Analysed (Stands Passes Resumes LetsOut)
open FrameStack (Current Inside reenter)

variable {owner : String} {m m' : Method} {a : Analysed} {plan : MethodPlan} {k d : Nat}
  {p : SuspensionPoint} {f : Frame} {classes : ClassTable} {act : Activation} {mem : Memory}

/-- What is planned for a point fits its frame. -/
theorem plan_for (h : Transforms owner m a plan m') (hp : plan.points[k]? = some p)
    (hf : a.frame? p.index = some f) :
    p.For f a.firstLocal ∧ f.locals.length = m.maxLocals.toNat := by
  obtain ⟨-, -, hanalyzed⟩ := h.analyzed
  obtain ⟨⟨op, callee, f', -, hf', hplan⟩, -⟩ := h.point (List.mem_of_getElem? hp)
  rw [hf] at hf'
  cases hf'
  exact ⟨SuspensionPoint.plan_for hplan, hanalyzed.uniform p.index f hf⟩

/-- Once a frame has the record, the place behind the point is reached from the label where the
method goes on. -/
theorem passes (h : Transforms owner m a plan m') (hp : plan.points[k]? = some p)
    (hf : a.frame? p.index = some f) (hlabels : m.HasLabels (4 + 3 * plan.points.length))
    (hstands : a.Stands plan m' k f d act mem) {r : FrameRecord} (hkept : p.Kept r act)
    {b : Activation} (hb : b.method = act.method) (hempty : b.stack = [])
    (hlocals : f.locals.length ≤ b.locals.length)
    (hpc : labelPosition? m'.code (a.method.freshLabel (4 + k)) = some b.pc) {mem' : Memory}
    {s : FrameStack} (hs : mem'.stack? = some s) (hgives : SuspensionPoint.Gives s r) :
    a.Passes plan m' k f classes act b mem' mem' := by
  obtain ⟨-, rfl, -⟩ := h.analyzed
  obtain ⟨hfor, hlen⟩ := h.plan_for hp hf
  obtain ⟨chunks, hlayout⟩ := h.layout (List.ne_nil_of_mem (List.mem_of_getElem? hp))
  obtain ⟨start, hcode, -, hresume, hafter⟩ :=
    hlayout.exists_position h.sorted hlabels hp (h.point (List.mem_of_getElem? hp)).2
  rw [hresume, Option.some.injEq] at hpc
  have hat : b.At (Analysed.Layout.resuming a plan k p) := by
    rw [Analysed.Layout.stretch_eq] at hcode
    have hstart : Activation.At { b with pc := start }
        (Analysed.Layout.saving a plan k p ++ Analysed.Layout.resuming a plan k p) := by
      unfold Activation.At
      rw [show Activation.method _ = b.method from rfl, hb, hstands.method]
      exact hcode
    exact hstart.skip rfl hpc.symm
  have hmax : f.locals.length < 65536 := hlen ▸ UInt16.toNat_lt _
  obtain ⟨c, hruns, hc, hgoes, -⟩ :=
    Frame.runs_resume hfor hstands.describes hmax hkept hb hempty hlocals hat hs hgives
  refine ⟨c, hruns, ?_, hgoes⟩
  rw [Analysed.bind_after (List.getElem?_eq_some_iff.1 hp).1, hafter, hc, ← hpc]

/-- Once the frames further in have done as they like and the cursor has come back, a new activation
of the method reaches the place behind the point as well: its head finds the record. -/
theorem passes_again (h : Transforms owner m a plan m') (hp : plan.points[k]? = some p)
    (hf : a.frame? p.index = some f) (hlabels : m.HasLabels (4 + 3 * plan.points.length))
    (hstands : a.Stands plan m' k f d act mem) {r : FrameRecord} (hkept : p.Kept r act)
    {base : Nat} {s₁ s₂ : FrameStack} (hcur : Current d base r s₁)
    (hindex : r.resumeIndex = UInt32.ofNat (k + 1)) (hinside : Inside (d + 1) s₁ s₂)
    {mem₂ : Memory} (hs₂ : mem₂.stack? = some (reenter d s₂.rewind)) {args : List Value}
    {b : Activation} (henter : Activation.enter (.load a.owner m') args = .ok b) :
    a.Passes plan m' k f classes act b mem₂ (mem₂.withStack (reenter (d + 1) s₂.rewind)) := by
  have hk : k < plan.points.length := (List.getElem?_eq_some_iff.1 hp).1
  obtain ⟨-, hmethod, -⟩ := h.analyzed
  obtain ⟨-, hlen⟩ := h.plan_for hp hf
  obtain ⟨chunks, hlayout⟩ := h.layout (List.ne_nil_of_mem (List.mem_of_getElem? hp))
  have hlabels' := hlabels
  rw [← hmethod] at hlabels' hlen
  obtain ⟨start, -, -, hresume, -⟩ :=
    hlayout.exists_position h.sorted hlabels' hp (h.point (List.mem_of_getElem? hp)).2
  -- The record outlives what happens further in, and leads the new activation to the point.
  obtain ⟨-, hkeeps⟩ := hinside.keeps hcur.ready.above
  obtain ⟨hentry, hgives⟩ := (hcur.recorded.keeps hkeeps).reenter
  obtain ⟨hb, hempty, hpc, hlocals⟩ := Activation.enter_spec henter
  have henter' : (reenter d s₂.rewind).enter =
      (UInt32.ofNat (k + 1), reenter (d + 1) s₂.rewind) := by
    rw [← hindex, ← hentry]
    rfl
  obtain ⟨e, hhead, he⟩ : ∃ e, Runs classes b mem₂ e _ ∧ e = _ :=
    hlayout.runs_head hlabels' hk hb hpc hs₂ henter' hresume
  have hmethod' : e.method = act.method := by rw [he, hstands.method, ← hb]
  have hempty' : e.stack = [] := by rw [he, ← hempty]
  have hmax : f.locals.length ≤ e.locals.length := by
    rw [he, hlen]
    exact Nat.le_trans hlayout.maxLocals (Nat.le_of_eq hlocals.symm)
  have hpc' : labelPosition? m'.code (a.method.freshLabel (4 + k)) = some e.pc := by
    rw [he]
    exact hresume
  obtain ⟨c, hruns, hc⟩ : a.Passes plan m' k f classes act e _ _ :=
    h.passes hp hf hlabels hstands hkept hmethod' hempty' hmax hpc' (Memory.stack?_withStack hs₂)
      hgives
  exact ⟨c, hhead.trans hruns, hc⟩

/-- **A suspension loses nothing**, if there are numbers for the labels that are added and room for the
slots of the point. -/
theorem suspension_resumes (h : Transforms owner m a plan m') (hp : plan.points[k]? = some p)
    (hf : a.frame? p.index = some f) (hlabels : m.HasLabels (4 + 3 * plan.points.length))
    (hstands : a.Stands plan m' k f d act mem)
    (hroom : ∀ s mark, mem.stack? = some s → s.frames[d]? = some mark →
      mark.base + p.slots.toNat ≤ FrameStack.safeCapacity)
    (hsignal : (mem.heap.object 0).type = Names.suspendExecution) :
    a.Resumes plan m' k p f d classes act mem := by
  have hk : k < plan.points.length := (List.getElem?_eq_some_iff.1 hp).1
  obtain ⟨rfl, hmethod, -⟩ := h.analyzed
  obtain ⟨hfor, -⟩ := h.plan_for hp hf
  obtain ⟨chunks, hlayout⟩ := h.layout (List.ne_nil_of_mem (List.mem_of_getElem? hp))
  have hlabels' := hlabels
  rw [← hmethod] at hlabels'
  obtain ⟨start, hcode, hbefore, hresume, -⟩ :=
    hlayout.exists_position h.sorted hlabels' hp (h.point (List.mem_of_getElem? hp)).2
  obtain rfl : start = act.pc := by
    have hplace := hstands.place
    rw [Analysed.bind_before hk, hbefore] at hplace
    exact Option.some.inj hplace
  obtain ⟨s, mark, hs, hsizes, hdepth, hmark⟩ := hstands.current
  have hspace : mark.base + p.slots.toNat ≤ FrameStack.safeCapacity := hroom s mark hs hmark
  have hat : act.At (.label (a.method.freshLabel (4 + plan.points.length + k)) ::
      (p.saveCode (UInt32.ofNat (k + 1)) ++ ((if p.isYield then [.frame .suspend] else []) ++
        Analysed.Layout.resuming a plan k p))) := by
    unfold Activation.At
    rw [Analysed.Layout.stretch_eq] at hcode
    rw [hstands.method]
    show _ <+: m'.code.drop act.pc
    simpa [Analysed.Layout.saving] using hcode
  obtain ⟨s₁, r, b, hsave, hb, hnext, hcur, hindex, -, hkept, -⟩ :=
    Frame.runs_suspend hfor hstands.describes hat hs hsizes hdepth hmark hspace
  have hmethod' : b.method = act.method := by rw [hb]; rfl
  have hs₁ : (mem.withStack s₁).stack? = some s₁ := Memory.stack?_withStack hs
  refine ⟨s₁, ?_, fun s₂ mem₂ args c hinside hs₂ henter =>
    h.passes_again hp hf hlabels hstands hkept hcur hindex hinside hs₂ henter⟩
  cases hyield : p.isYield with
  | true =>
    rw [hyield] at hnext
    have hsignal' : ((mem.withStack s₁).heap.object 0).type = Names.suspendExecution := by
      rw [Memory.heap_withStack]
      exact hsignal
    exact ⟨b, hsave,
      hlayout.suspends hlabels' (hmethod'.trans hstands.method) hnext hsignal'⟩
  | false =>
    rw [hyield] at hnext
    refine ⟨?_, hlayout.letsOut hlabels'⟩
    have hlocals : f.locals.length ≤ b.locals.length := by
      have hlen := hstands.describes.locals.length_eq
      rw [List.length_take] at hlen
      rw [hb]
      show _ ≤ act.locals.length
      omega
    -- The code that goes on follows at once; it is what a resumed activation jumps to.
    have hpc : labelPosition? m'.code (a.method.freshLabel (4 + k)) = some b.pc := by
      rw [hresume, Analysed.Layout.saving, hyield, hb]
      simp [Activation.after, Nat.add_comm]
    have hempty : b.stack = [] := by rw [hb]; rfl
    have hgives : SuspensionPoint.Gives s₁ r := fun kind slot v hv =>
      hcur.recorded.restore hcur.base_eq hv
    obtain ⟨c, hruns, hc⟩ : a.Passes plan m' k f classes act b _ _ :=
      h.passes hp hf hlabels hstands hkept hmethod' hempty hlocals hpc hs₁ hgives
    exact ⟨c, hsave.trans hruns, hc⟩

/-! ### A method that pauses -/

/-- Pauses with an operand and a local. -/
def pausing : Method :=
  { name := "pause", desc := "(I)I", access := .static, maxLocals := 1
    code := [.const (.int 5),
      .invoke .invokestatic ⟨Names.coroutine, Names.yieldName, Names.yieldDesc⟩, .local .iload 0,
      .simple .iadd, .simple .ireturn] }

/-- What the analysis finds in it. -/
def pausingAnalysed : Analysed :=
  ⟨"app/A", pausing, #[some ⟨[.int], []⟩, some ⟨[.int], [.int]⟩, some ⟨[.int], [.int]⟩,
    some ⟨[.int], [.int, .int]⟩, some ⟨[.int], [.int]⟩]⟩

/-- Its point. -/
def pausingPoint : SuspensionPoint :=
  { index := 1, isYield := true, stack := [.saved .int 0], locals := [(0, .saved .int 1)]
    slots := 2 }

/-- What becomes of it. -/
def pausingBody : Method :=
  { pausing with
    code := [.frame .entry, .switch 1 ⟨0⟩ [⟨4⟩], .label ⟨0⟩, .const (.int 5), .label ⟨5⟩,
      .frame (.reserve 1 2), .frame (.save .int 0), .local .iload 0, .frame (.save .int 1),
      .frame .suspend, .label ⟨4⟩, .frame (.restore .int 1), .local .istore 0,
      .frame (.restore .int 0), .label ⟨6⟩, .local .iload 0, .simple .iadd, .frame .release,
      .simple .ireturn, .label ⟨1⟩, .label ⟨3⟩, .frame .release, .label ⟨2⟩, .simple .athrow]
    handlers := [⟨⟨0⟩, ⟨1⟩, ⟨2⟩, some Names.suspendExecution⟩, ⟨⟨0⟩, ⟨1⟩, ⟨3⟩, none⟩] }

theorem transforms_pausing :
    Transforms "app/A" pausing pausingAnalysed ⟨[pausingPoint], []⟩ pausingBody :=
  .of_database (.new {} .empty) (by cbv) rfl (by decide +kernel)

/-- A memory whose only coroutine has these frames and is active. -/
def pausingMemory (s : FrameStack) : Memory :=
  { coroutines := { all := #[{ state := .running, stack := s }], active := some 0 } }

/-- The activation at an instruction. -/
def pausingAt (pc : Nat) (argument : Int32) (stack : List Value) : Activation :=
  { method := .load "app/A" pausingBody, locals := [.int argument], stack, pc }

/-- Called with 8, it suspends; entered again with 0, it goes on with 8 and with its operand. -/
theorem suspension_resumes_pausing :
    ∃ s₁, (∃ b, Runs {} (pausingAt 4 8 [.int 5]) (pausingMemory (FrameStack.ofSize 1).enter.2) b
        (pausingMemory s₁) ∧ b.Leaves {} (pausingMemory s₁)) ∧
      ∃ c, Runs {} (pausingAt 0 0 []) (pausingMemory s₁.rewind) c
          (pausingMemory (reenter 1 s₁.rewind)) ∧
        c.stack = [.int 5] ∧ c.locals[0]? = some (.int 8) := by
  have hstands : pausingAnalysed.Stands ⟨[pausingPoint], []⟩ pausingBody 0 ⟨[.int], [.int]⟩ 0
      (pausingAt 4 8 [.int 5]) (pausingMemory (FrameStack.ofSize 1).enter.2) :=
    ⟨rfl, by decide +kernel, ⟨.cons rfl .nil, .cons rfl .nil⟩, _, _, rfl, rfl, rfl, rfl⟩
  have hroom (s : FrameStack) (mark : FrameMark)
      (hs : (pausingMemory (FrameStack.ofSize 1).enter.2).stack? = some s)
      (hmark : s.frames[0]? = some mark) :
      mark.base + pausingPoint.slots.toNat ≤ FrameStack.safeCapacity := by
    cases hs
    cases hmark
    decide
  obtain ⟨s₁, hsuspends, hresumes⟩ := transforms_pausing.suspension_resumes rfl rfl
    (by decide +kernel) hstands hroom rfl
  obtain ⟨c, hruns, -, hgoes⟩ := hresumes s₁ (pausingMemory s₁.rewind) [.int 0]
    (pausingAt 0 0 []) (.refl _) rfl rfl
  exact ⟨s₁, hsuspends, c, hruns, hgoes.stack, hgoes.locals 0 .int (Nat.zero_le _) rfl nofun rfl⟩

/-! ### Without label numbers or room -/

/-- An activation of the body never comes to the code between the two labels around its point, since
the label where it should go on is found elsewhere. -/
theorem colliding_never_between {b : Activation}
    (h : Activation.Arises (.load "app/A" collidingBody) b) : b.pc < 11 ∨ 14 < b.pc := by
  have hcode : ∀ p < 33, (p < 11 ∨ 14 < p) → (collidingBody.code[p]?.all fun i =>
      (i.opcode.isTerminator || decide (p + 1 < 11 ∨ 14 < p + 1)) &&
        i.branchTargets.all fun l =>
          (labelPosition? collidingBody.code l).all fun q => decide (q < 11 ∨ 14 < q)) = true := by
    decide +kernel
  have hhandlers : ∀ handler ∈ (LoadedMethod.load "app/A" collidingBody).handlers,
      14 < handler.target := by decide +kernel
  refine h.pc_induction (P := fun q => q < 11 ∨ 14 < q) (.inl (by decide)) ?_
  rintro b hb hwhere q ⟨i, hi, hleads⟩
  rw [hb] at hi hleads
  have hall := hcode b.pc (List.getElem?_eq_some_iff.1 hi).1 hwhere
  rw [show collidingBody.code[b.pc]? = some i from hi] at hall
  simp only [Option.all_some, Bool.and_eq_true, Bool.or_eq_true, decide_eq_true_eq,
    List.all_eq_true] at hall
  obtain ⟨hnext, htargets⟩ := hall
  rcases hleads with ⟨hterm, rfl⟩ | ⟨l, hl, hq⟩ | ⟨handler, hmem, rfl⟩
  · rcases hnext with hnext | hnext
    · cases hterm.symm.trans hnext
    · exact hnext
  · have hq' := htargets l hl
    rw [show labelPosition? collidingBody.code l = some q from hq] at hq'
    simpa using hq'
  · exact .inr (hhandlers handler hmem)

/-- The only activation of the body in front of its point, called with 1. -/
def collidingAt : Activation :=
  { method := .load "app/A" collidingBody, locals := [.int 1], stack := [], pc := 6 }

/-- A coroutine in a frame that begins behind `2 ^ 60` slots. -/
def crowded : FrameStack :=
  { frames := [⟨0, 2 ^ 60⟩], depth := 1, base := 2 ^ 60, top := 2 ^ 60, prims := #[], refs := #[] }

/-- Without numbers for the labels that are added, a new activation misses the point; and without room
for its slots, a method does not come to suspend. -/
theorem not_resumes :
    (Transforms "app/A" colliding collidingAnalysed ⟨[collidingPoint], []⟩ collidingBody ∧
      collidingAnalysed.Stands ⟨[collidingPoint], []⟩ collidingBody 0 ⟨[.int], []⟩ 0 collidingAt
        (pausingMemory (FrameStack.ofSize 1).enter.2) ∧
      ¬ collidingAnalysed.Resumes ⟨[collidingPoint], []⟩ collidingBody 0 collidingPoint ⟨[.int], []⟩ 0
        {} collidingAt (pausingMemory (FrameStack.ofSize 1).enter.2)) ∧
    pausingAnalysed.Stands ⟨[pausingPoint], []⟩ pausingBody 0 ⟨[.int], [.int]⟩ 0
        (pausingAt 4 8 [.int 5]) (pausingMemory crowded) ∧
      ¬ pausingAnalysed.Resumes ⟨[pausingPoint], []⟩ pausingBody 0 pausingPoint ⟨[.int], [.int]⟩ 0
        {} (pausingAt 4 8 [.int 5]) (pausingMemory crowded) := by
  refine ⟨⟨transforms_colliding, ?_, ?_⟩, ?_, ?_⟩
  · exact ⟨rfl, by decide +kernel, ⟨.cons rfl .nil, .nil⟩, _, _, rfl, rfl, rfl, rfl⟩
  · rintro ⟨s₁, -, hresumes⟩
    have henter : Activation.enter (.load "app/A" collidingBody) [.int 1] =
        .ok { collidingAt with pc := 0 } := rfl
    obtain ⟨c, hruns, hafter, -⟩ :=
      hresumes s₁ (pausingMemory s₁.rewind) [.int 1] _ (.refl _) rfl henter
    have hplace : (BodyLabels.forMethod colliding 1).after[0]?.bind
        (labelPosition? collidingBody.code) = some 14 := by decide +kernel
    have hpc : 14 = c.pc := Option.some.inj (hplace.symm.trans hafter)
    have harises : Activation.Arises (.load "app/A" collidingBody) c :=
      .runs (.enter henter) hruns
    rcases colliding_never_between harises with hlt | hlt <;> omega
  · exact ⟨rfl, by decide +kernel, ⟨.cons rfl .nil, .cons rfl .nil⟩, _, _, rfl, rfl, rfl, rfl⟩
  · rintro ⟨s₁, ⟨b, hsaves, c, hruns, hleaves⟩, -⟩
    have hlabel : (pausingAt 4 8 [.int 5]).step {} (pausingMemory crowded) =
        (.going (pausingAt 5 8 [.int 5]), pausingMemory crowded) := rfl
    have hrefused : crowded.reserve 1 2 = .error (.code (.tooManySlots (2 ^ 60 + 2))) := by
      refine (FrameStack.reserve_of_depth (k := 0) (s := crowded) rfl rfl 1 2).trans (if_neg ?_)
      intro hold
      have hle := Nat.le_trans (FrameStack.le_doubled (by decide)) (hold (by decide))
      exact absurd hle (by decide)
    have hreserve : (pausingAt 5 8 [.int 5]).step {} (pausingMemory crowded) =
        (.done (.error (.code (.tooManySlots (2 ^ 60 + 2)))), pausingMemory crowded) := by
      exact Activation.step_of_reserve_error rfl rfl hrefused
    cases hsaves.trans hruns with
    | refl => cases hlabel.symm.trans hleaves
    | step hstep hrest =>
      cases hlabel.symm.trans hstep
      cases hrest with
      | refl => cases hreserve.symm.trans hleaves
      | step hstep => cases hreserve.symm.trans hstep

end Transforms

end Resumable
