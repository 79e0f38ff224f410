import Resumable.Proofs.Instrument.Phases
import Resumable.Proofs.Machine.Executions

/-!
# The stages of an execution

An activation of a transformed method works, or waits for others who wait for one another: methods
with code, and methods of the host that have called back. The transformed ones among them have frames
of their own, further in (`Callers`), and where other coroutines are being run, nobody touches these
frames (`Guests`).

`Stage` describes the whole execution from the arrival of the activation until it has been left, and
`Stage.step` is one step of it. It needs to know that only transformed methods work on frames
(`Execution.SparesFrames`), and that whoever is not transformed does nothing with the signal, or with
an error that nobody can catch, but hand it on (`Execution.HandsFailuresOn`): who goes on instead does
so with frames that nobody has released.
-/

namespace Resumable

/-- The method came out of a transformation that has found suspension points in it, and it did not
work on frames before. -/
def LoadedMethod.IsTransformed (method : LoadedMethod) : Prop :=
  ∃ owner m a plan m', Transforms owner m a plan m' ∧ plan.points ≠ [] ∧
    m.HasLabels (4 + 3 * plan.points.length) ∧ (∀ op, .frame op ∉ m.code) ∧
    method = .load owner m'

theorem LoadedMethod.IsTransformed.exists_reentrant {method : LoadedMethod}
    (h : method.IsTransformed) : ∃ a plan m chunks, Analysed.Reentrant a plan m chunks ∧
      method = .load a.owner m := by
  obtain ⟨owner, m, a, plan, m', h, hpoints, hlabels, hplain, rfl⟩ := h
  obtain ⟨rfl, -, -⟩ := h.analyzed
  obtain ⟨chunks, hreentrant⟩ := h.reentrant hpoints hlabels hplain
  exact ⟨a, plan, m', chunks, hreentrant, rfl⟩

variable {H : Host}

/-- A transformed method waits. -/
def Waiting.IsTransformed {π : Type} : Waiting π → Prop
  | .caller a _ => a.method.IsTransformed
  | _ => False

namespace Execution

/-- The execution is at the release of the frame number `d` of the coroutine `c`. -/
def Releases (e : Execution H) (c d : Nat) : Prop :=
  ∃ b s, e.focus = .active b ∧ b.method.method.code[b.pc]? = some (.frame .release) ∧
    e.machine.memory.coroutines.active = some c ∧
    e.machine.memory.coroutines.running? c = some s ∧ s.depth = d + 1

/-- The signal comes up at the place `pc` of an activation that `base` waits for: an instruction
raises it there, or it comes out of a call. -/
def RaisesSignal (e : Execution H) (base : List (Waiting H.Pending)) (pc : Nat) : Prop :=
  (∃ b i mem, e.focus = .active b ∧ e.waiting = base ∧ b.pc = pc ∧
    b.method.method.code[pc]? = some i ∧
    ((Exec.instr e.machine.classes i).run b).run e.machine.memory = (.error .suspension, mem)) ∨
  ∃ w request, e.focus = .answer (.error .suspension) ∧ e.waiting = .caller w request :: base ∧
    w.pc = pc

/-- Whatever goes on above `base` leaves the frames of the coroutine `c` to transformed methods. Where
other coroutines are being run, anything may go on among them. -/
structure SparesFrames (c : Nat) (base : List (Waiting H.Pending)) (e : Execution H) : Prop where
  /-- Only transformed methods work on frames. -/
  performs : ∀ chain b op, chain ≠ [] → e.waiting = chain ++ base →
    (∀ w ∈ chain, w.isRunner = false) → e.focus = .active b →
    b.method.method.code[b.pc]? = some (.frame op) → b.method.IsTransformed
  /-- Methods of the host do not. -/
  hosts : e.AtHost → e.machine.memory.Spares c e.step.machine.memory

/-- The signal, another exception of its class, or an error that nobody can catch is handed on by
whoever is not transformed. -/
def HandsFailuresOn (base : List (Waiting H.Pending)) (e : Execution H) : Prop :=
  ∀ chain w error, e.waiting = w :: (chain ++ base) → (∀ w ∈ chain, w.isRunner = false) →
    w.isRunner = false → ¬ w.IsTransformed → e.focus = .answer (.error error) →
    ¬ Completes e.machine.classes e.machine.memory.heap (.error error) → e.HandsOn

/-- Whatever goes on above `base` respects the frames of the coroutine `c`. -/
structure KeepsFrames (c : Nat) (base : List (Waiting H.Pending)) (e : Execution H) : Prop
    extends e.SparesFrames c base where
  hands : e.HandsFailuresOn base

/-- What nobody can catch goes on to whoever waits next. -/
theorem KeepsFrames.step_of_fatal {e : Execution H} {c : Nat} {chain base : List (Waiting H.Pending)}
    {w : Waiting H.Pending} {error : RunError} (h : e.KeepsFrames c base)
    (hfocus : e.focus = .answer (.error error)) (hfatal : error.IsFatal)
    (hwaiting : e.waiting = w :: (chain ++ base)) (hrunner : w.isRunner = false)
    (hchain : ∀ w ∈ chain, w.isRunner = false) :
    e.step.focus = .answer (.error error) ∧ e.step.waiting = chain ++ base := by
  have hhands : e.HandsOn := by
    by_cases htransformed : w.IsTransformed
    · cases w with
      | caller a request => exact handsOn_of_fatal hfocus hwaiting hfatal
      | native | runner => cases htransformed
    · exact h.hands chain w error hwaiting hchain hrunner htransformed hfocus
        fun hcomplete => hcomplete.1 hfatal
  refine ⟨hhands.focus.trans hfocus, ?_⟩
  rw [hhands.waiting, hwaiting]
  rfl

end Execution

namespace Analysed.Reentrant

open Layout (startOf placeOf stop)

/-- Who waits above a caller, from the top of the stack down to an activation of the method, which
has the frame number `d`. Transformed ones have a frame each, and `level` is the number of frames. -/
inductive Callers {π : Type} (a : Analysed) (plan : MethodPlan) (m : Method)
    (chunks : List (List Instr)) (d : Nat) (s : FrameStack) : Nat → List (Waiting π) → Prop where
  | base {w : Activation} {request : Call} (hmethod : w.method = .load a.owner m)
    (hwaits : Waits plan m chunks d s w) : Callers a plan m chunks d s (d + 1) [.caller w request]
  | transformed {w : Activation} {request : Call} {level : Nat} {rest : List (Waiting π)}
    {a' : Analysed} {plan' : MethodPlan} {m' : Method} {chunks' : List (List Instr)}
    (h : a'.Reentrant plan' m' chunks') (hmethod : w.method = .load a'.owner m')
    (htransformed : w.method.IsTransformed) (hwaits : Waits plan' m' chunks' level s w)
    (hrest : Callers a plan m chunks d s level rest) :
    Callers a plan m chunks d s (level + 1) (.caller w request :: rest)
  | plain {w : Activation} {request : Call} {level : Nat} {rest : List (Waiting π)}
    (hplain : ¬ w.method.IsTransformed) (hrest : Callers a plan m chunks d s level rest) :
    Callers a plan m chunks d s level (.caller w request :: rest)
  | native {next : π} {level : Nat} {rest : List (Waiting π)}
    (hrest : Callers a plan m chunks d s level rest) :
    Callers a plan m chunks d s level (.native next :: rest)

variable {a : Analysed} {plan : MethodPlan} {m : Method} {chunks : List (List Instr)}
  {c d level : Nat} {s s' : FrameStack} {chain base : List (Waiting H.Pending)} {e : Execution H}
  {spent : Bool}

namespace Callers

theorem within (h : Callers a plan m chunks d s level chain)
    (hs : FrameStack.Within level s s') : Callers a plan m chunks d s' level chain := by
  induction h with
  | base hmethod hwaits => exact .base hmethod (hwaits.within hs)
  | transformed h hmethod htransformed hwaits _ ih =>
    exact .transformed h hmethod htransformed (hwaits.within hs) (ih (hs.mono (Nat.le_succ _)))
  | plain hplain _ ih => exact .plain hplain (ih hs)
  | native _ ih => exact .native (ih hs)

theorem isRunner (h : Callers a plan m chunks d s level chain) :
    ∀ w ∈ chain, w.isRunner = false := by
  induction h with
  | base => simp [Waiting.isRunner]
  | transformed _ _ _ _ _ ih | plain _ _ ih | native _ ih =>
    intro w hw
    rcases List.mem_cons.1 hw with rfl | hw
    · rfl
    · exact ih w hw

theorem ne_nil (h : Callers a plan m chunks d s level chain) : chain ≠ [] := by
  cases h <;> exact List.cons_ne_nil _ _

theorem lt (h : Callers a plan m chunks d s level chain) :
    d < level ∧ level ≤ s.depth ∧ level ≤ s.frames.length := by
  induction h with
  | base hmethod hwaits => exact ⟨Nat.lt_succ_self d, hwaits.depth, hwaits.frames⟩
  | transformed h hmethod htransformed hwaits _ ih =>
    exact ⟨Nat.lt_succ_of_lt ih.1, hwaits.depth, hwaits.frames⟩
  | plain _ _ ih | native _ ih => exact ih

end Callers

/-- What is going on above those who wait, with `level` frames of theirs. When an answer is a result, or
an exception that is no signal, nothing has been left behind. -/
def Inner (classes : ClassTable) (heap : Heap) (s : FrameStack) (level : Nat) : Focus → Prop
  | .request _ => s.depth = level
  | .active b => ¬ b.method.IsTransformed ∧ s.depth = level ∨ b.method.IsTransformed ∧
    ∃ a plan m chunks spent, Analysed.Reentrant a plan m chunks ∧ b.method = .load a.owner m ∧
      Phase a plan m chunks classes level heap s spent b
  | .answer outcome => Completes classes heap outcome → s.depth = level

/-- An execution between the arrival of an activation of the method, above `base` and in the frame
number `d` of the coroutine `c`, and the time when the activation has been left. -/
inductive Stage (a : Analysed) (plan : MethodPlan) (m : Method) (chunks : List (List Instr))
    (c d : Nat) (base : List (Waiting H.Pending)) (e : Execution H) : (spent : Bool) → Prop where
  /-- The activation itself is at work. -/
  | own {b : Activation} {s : FrameStack} {spent : Bool} (hfocus : e.focus = .active b)
    (hwaiting : e.waiting = base) (hmethod : b.method = .load a.owner m)
    (hactive : e.machine.memory.coroutines.active = some c)
    (hs : e.machine.memory.coroutines.running? c = some s)
    (hphase : Phase a plan m chunks e.machine.classes d e.machine.memory.heap s spent b) :
    Stage a plan m chunks c d base e spent
  /-- It waits for others. -/
  | inner {chain : List (Waiting H.Pending)} {s : FrameStack} {level : Nat}
    (hwaiting : e.waiting = chain ++ base)
    (hcallers : Callers a plan m chunks d s level chain)
    (hactive : e.machine.memory.coroutines.active = some c)
    (hs : e.machine.memory.coroutines.running? c = some s)
    (hinner : Inner e.machine.classes e.machine.memory.heap s level e.focus) :
    Stage a plan m chunks c d base e false
  /-- It waits for others, who wait for the run of another coroutine. -/
  | guests {guests chain : List (Waiting H.Pending)} {s : FrameStack} {level : Nat}
    (hwaiting : e.waiting = guests ++ (chain ++ base))
    (hguests : Guests c guests e.machine.memory.coroutines.active)
    (hcallers : Callers a plan m chunks d s level chain) (hdepth : s.depth = level)
    (hs : e.machine.memory.coroutines.running? c = some s) :
    Stage a plan m chunks c d base e false
  | left {outcome : Except RunError (Option Value)} {s : FrameStack} {spent : Bool}
    (hfocus : e.focus = .answer outcome) (hwaiting : e.waiting = base)
    (hs : e.machine.memory.coroutines.running? c = some s)
    (hdone : Completes e.machine.classes e.machine.memory.heap outcome →
      spent = true ∧ s.depth = d ∧ s.frames.length = d) :
    Stage a plan m chunks c d base e spent
  /-- Something has happened that ends everything. -/
  | fatal {error : RunError} {chain : List (Waiting H.Pending)} {spent : Bool}
    (hfocus : e.focus = .answer (.error error)) (hfatal : error.IsFatal)
    (hwaiting : e.waiting = chain ++ base) (hchain : ∀ w ∈ chain, w.isRunner = false) :
    Stage a plan m chunks c d base e spent

/-- Only an activation that still works releases its frame, and it is the current one. -/
theorem Phase.of_release {classes : ClassTable} {heap : Heap} {b : Activation}
    (h : a.Reentrant plan m chunks) (hphase : Phase a plan m chunks classes level heap s spent b)
    (hi : m.code[b.pc]? = some (.frame .release)) : spent = false ∧ s.depth = level + 1 := by
  cases hphase with
  | arriving hpc =>
    rw [hpc, h.getElem?_head (by omega)] at hi
    cases hi
  | choosing hpc =>
    rw [hpc, h.getElem?_head (by omega)] at hi
    cases hi
  | working hlow hhigh hreturn hdepth => exact ⟨rfl, hdepth⟩
  | released hpc =>
    rcases hpc with ⟨op, hget, -⟩ | hhigh
    · cases hi.symm.trans hget
    · rcases h.behind_cases hhigh with hget | hget | hget <;> cases hi.symm.trans hget
  | signalled hhigh =>
    rcases h.behind_cases hhigh with hget | hget | hget <;> cases hi.symm.trans hget

namespace Stage

/-- An activation is at its own release if and only if the frame of the visit is being released. -/
theorem releases_iff {b : Activation} (hfocus : e.focus = .active b)
    (hactive : e.machine.memory.coroutines.active = some c)
    (hs : e.machine.memory.coroutines.running? c = some s) : e.Releases c d ↔
      b.method.method.code[b.pc]? = some (.frame .release) ∧ s.depth = d + 1 := by
  constructor
  · rintro ⟨b', s', hfocus', hi, -, hs', hdepth⟩
    cases hfocus.symm.trans hfocus'
    cases hs.symm.trans hs'
    exact ⟨hi, hdepth⟩
  · rintro ⟨hi, hdepth⟩
    exact ⟨b, s, hfocus, hi, hactive, hs, hdepth⟩

/-- The activation itself makes a step. -/
theorem step_own (h : a.Reentrant plan m chunks) {b : Activation} (hfocus : e.focus = .active b)
    (hwaiting : e.waiting = base) (hmethod : b.method = .load a.owner m)
    (hactive : e.machine.memory.coroutines.active = some c)
    (hs : e.machine.memory.coroutines.running? c = some s)
    (hphase : Phase a plan m chunks e.machine.classes d e.machine.memory.heap s spent b) :
    Stage a plan m chunks c d base e.step
      (spent || decide (m.code[b.pc]? = some (.frame .release))) := by
  rcases hstep : b.step e.machine.classes e.machine.memory with ⟨progress, mem⟩
  have hleads := h.leads_of_step hmethod hs hstep hactive hphase
  rw [Execution.step_of_active hfocus hstep]
  rcases hleads with ⟨error, rfl, hfatal⟩ | ⟨s', hs', hactive', -, -, hnext⟩
  · exact .fatal rfl hfatal (show e.waiting = [] ++ base from hwaiting) nofun
  rw [hactive] at hactive'
  cases progress with
  | going b' => exact .own rfl hwaiting hnext.1 hactive' hs' hnext.2
  | done outcome => exact .left rfl hwaiting hs' hnext
  | calling w request =>
    obtain ⟨hspent, hmethod', hwaits, hdepth⟩ := hnext
    rw [hspent]
    have hwaiting' : e.waiting = [] ++ base := hwaiting
    exact .inner (Execution.waiting_calling hwaiting') (.base hmethod' hwaits) hactive' hs' hdepth

/-- Another activation makes a step while the coroutine is active. -/
theorem step_active {b : Activation} (hfocus : e.focus = .active b)
    (hwaiting : e.waiting = chain ++ base) (hcallers : Callers a plan m chunks d s level chain)
    (hactive : e.machine.memory.coroutines.active = some c)
    (hs : e.machine.memory.coroutines.running? c = some s)
    (hinner : Inner e.machine.classes e.machine.memory.heap s level (.active b))
    (hkeeps : e.KeepsFrames c base) :
    ¬ e.Releases c d ∧ Stage a plan m chunks c d base e.step false := by
  obtain ⟨hlt, -⟩ := hcallers.lt
  rw [releases_iff hfocus hactive hs]
  rcases hstep : b.step e.machine.classes e.machine.memory with ⟨progress, mem⟩
  have hnext := Execution.step_of_active hfocus hstep
  rcases hinner with ⟨hplain, hdepth⟩ |
    ⟨htransformed, a', plan', m', chunks', spent, h, hmethod, hphase⟩
  · -- A method that is not transformed does not work on frames.
    have hnot (op : FrameOp) : b.method.method.code[b.pc]? ≠ some (.frame op) := fun hop =>
      hplain (hkeeps.performs chain b op hcallers.ne_nil hwaiting hcallers.isRunner hfocus hop)
    refine ⟨fun hrelease => hnot _ hrelease.1, ?_⟩
    obtain ⟨hspares, hgoing, hcalls⟩ :=
      Activation.step_spares (c := c) hstep fun op hop => absurd hop (hnot op)
    have hactive' := hspares.active.trans hactive
    have hs' := hspares.running.trans hs
    rw [hnext]
    cases progress with
    | going b' =>
      exact .inner hwaiting hcallers hactive' hs' (.inl ⟨by rwa [hgoing b' rfl], hdepth⟩)
    | done outcome => exact .inner hwaiting hcallers hactive' hs' fun _ => hdepth
    | calling w request =>
      obtain ⟨hw, -⟩ := hcalls w request rfl
      exact .inner (Execution.waiting_calling hwaiting) (.plain (by rwa [hw]) hcallers) hactive' hs'
        hdepth
  · constructor
    · rintro ⟨hi, hdepth⟩
      rw [hmethod] at hi
      have := (Phase.of_release h hphase hi).2
      omega
    rcases h.leads_of_step hmethod hs hstep hactive hphase with
      ⟨error, rfl, hfatal⟩ | ⟨s', hs', hactive', -, hwithin, hleads⟩
    · rw [hnext]
      exact .fatal rfl hfatal hwaiting hcallers.isRunner
    rw [hactive] at hactive'
    have hcallers' := hcallers.within hwithin
    cases progress with
    | going b' =>
      rw [hnext]
      refine .inner hwaiting hcallers' hactive' hs' (.inr ⟨?_, a', plan', m', chunks', _, h, hleads⟩)
      rw [hleads.1, ← hmethod]
      exact htransformed
    | calling w request =>
      obtain ⟨-, hmethod', hwaits, hdepth⟩ := hleads
      rw [hnext]
      refine .inner (Execution.waiting_calling hwaiting) (.transformed h hmethod' ?_ hwaits hcallers')
        hactive' hs' hdepth
      rw [hmethod', ← hmethod]
      exact htransformed
    | done outcome =>
      rw [hnext]
      exact .inner hwaiting hcallers' hactive' hs' fun hcomplete => (hleads hcomplete).2.1

/-- What leaves frames behind is handed on by whoever is not transformed. -/
theorem step_handedOn {w : Waiting H.Pending} {outcome : Except RunError (Option Value)}
    (hfocus : e.focus = .answer outcome) (hwaiting : e.waiting = w :: (chain ++ base))
    (hrunner : w.isRunner = false) (hplain : ¬ w.IsTransformed)
    (hcallers : Callers a plan m chunks d s level chain)
    (hactive : e.machine.memory.coroutines.active = some c)
    (hs : e.machine.memory.coroutines.running? c = some s)
    (hnot : ¬ Completes e.machine.classes e.machine.memory.heap outcome)
    (hkeeps : e.KeepsFrames c base) : Stage a plan m chunks c d base e.step false := by
  rcases outcome with error | result
  case ok => exact absurd trivial hnot
  have hhands := hkeeps.hands chain w error hwaiting hcallers.isRunner hrunner hplain hfocus hnot
  refine .inner (hhands.waiting.trans (congrArg List.tail hwaiting)) hcallers
    (hhands.memory ▸ hactive) (hhands.memory ▸ hs) ?_
  rw [hhands.focus, hfocus, e.step_extends.1, hhands.memory]
  exact fun hcomplete => absurd hcomplete hnot

/-- Someone goes on with the answer to a call. -/
theorem step_answer (h : a.Reentrant plan m chunks) {outcome : Except RunError (Option Value)}
    (hfocus : e.focus = .answer outcome) (hwaiting : e.waiting = chain ++ base)
    (hcallers : Callers a plan m chunks d s level chain)
    (hactive : e.machine.memory.coroutines.active = some c)
    (hs : e.machine.memory.coroutines.running? c = some s)
    (hinner : Inner e.machine.classes e.machine.memory.heap s level (.answer outcome))
    (hkeeps : e.KeepsFrames c base) : Stage a plan m chunks c d base e.step false := by
  cases hcallers with
  | @base w request hmethod hwaits =>
    -- The activation of the visit itself goes on, at the point where it called.
    rcases hresume : w.resume e.machine.classes request outcome e.machine.memory with ⟨progress, mem⟩
    have hleads := h.leads_of_resume hmethod hs hwaits hinner hresume
    rw [Execution.step_of_caller hfocus hwaiting hresume]
    rcases hleads with ⟨error, rfl, hfatal⟩ | ⟨s', hs', hactive', -, -, hnext⟩
    · exact .fatal rfl hfatal (show base = [] ++ base from rfl) nofun
    rw [hactive] at hactive'
    cases progress with
    | going b => exact .own rfl rfl hnext.1 hactive' hs' hnext.2
    | done outcome => exact .left rfl rfl hs' hnext
    | calling w' request' =>
      exact absurd rfl ((Activation.resume_spares (c := c) hresume).2.2 w' request')
  | @transformed w request level rest a' plan' m' chunks' h' hmethod htransformed hwaits hrest =>
    rcases hresume : w.resume e.machine.classes request outcome e.machine.memory with ⟨progress, mem⟩
    have hleads := h'.leads_of_resume hmethod hs hwaits hinner hresume
    rw [Execution.step_of_caller hfocus hwaiting hresume]
    rcases h'.going_of_resume hmethod hwaits hresume with ⟨error, rfl, hfatal⟩ | ⟨b, rfl⟩
    · exact .fatal rfl hfatal rfl hrest.isRunner
    rcases hleads with ⟨error, herror, -⟩ | ⟨s', hs', hactive', -, hwithin, hnext⟩
    · cases herror
    · refine .inner rfl (hrest.within hwithin) (hactive'.trans hactive) hs' ?_
      refine .inr ⟨?_, a', plan', m', chunks', false, h', hnext⟩
      rw [hnext.1, ← hmethod]
      exact htransformed
  | @plain w request _ rest hplain hrest =>
    -- Who is not transformed may catch what completes a callee, and only that.
    by_cases hcomplete : Completes e.machine.classes e.machine.memory.heap outcome
    · have hdepth : s.depth = level := hinner hcomplete
      rcases hresume : w.resume e.machine.classes request outcome e.machine.memory with ⟨progress, mem⟩
      obtain ⟨hspares, hgoing, hcalls⟩ := Activation.resume_spares (c := c) hresume
      have hactive' := hspares.active.trans hactive
      have hs' := hspares.running.trans hs
      rw [Execution.step_of_caller hfocus hwaiting hresume]
      cases progress with
      | going b => exact .inner rfl hrest hactive' hs' (.inl ⟨by rwa [hgoing b rfl], hdepth⟩)
      | done outcome => exact .inner rfl hrest hactive' hs' fun _ => hdepth
      | calling w' request' => exact absurd rfl (hcalls w' request')
    · exact step_handedOn hfocus hwaiting rfl hplain hrest hactive hs hcomplete hkeeps
  | @native next _ rest hrest =>
    by_cases hcomplete : Completes e.machine.classes e.machine.memory.heap outcome
    · -- The method of the host goes on as it likes, but nothing has been left behind.
      have hdepth : s.depth = level := hinner hcomplete
      have hspares := hkeeps.hosts (.inr ⟨outcome, next, _, hfocus, hwaiting⟩)
      have hnew : Inner e.step.machine.classes e.step.machine.memory.heap s level e.step.focus := by
        rcases hresume : H.resume next outcome e.machine.host with ⟨response, host⟩
        rw [Execution.step_of_native hfocus hwaiting hresume]
        cases response with
        | answer => exact fun _ => hdepth
        | ask => exact hdepth
      have hactive' := hspares.active.trans hactive
      have hs' := hspares.running.trans hs
      rcases Execution.waiting_of_native hfocus hwaiting with hsame | ⟨next', hnext⟩
      · exact .inner hsame hrest hactive' hs' hnew
      · exact .inner hnext (.native hrest) hactive' hs' hnew
    · exact step_handedOn hfocus hwaiting rfl id hrest hactive hs hcomplete hkeeps

/-- Someone asks for something. -/
theorem step_request {request : Request} (hfocus : e.focus = .request request)
    (hwaiting : e.waiting = chain ++ base) (hcallers : Callers a plan m chunks d s level chain)
    (hactive : e.machine.memory.coroutines.active = some c)
    (hs : e.machine.memory.coroutines.running? c = some s) (hdepth : s.depth = level)
    (hkeeps : e.KeepsFrames c base) : Stage a plan m chunks c d base e.step false := by
  obtain ⟨-, -, hframes⟩ := hcallers.lt
  rcases Execution.request_cases hfocus with hcarried | ⟨k, coroutines, body, -, hbegin, hrun⟩
  · have hspares := hcarried.spares hkeeps.hosts
    have hactive' := hspares.active.trans hactive
    have hs' := hspares.running.trans hs
    have hnew : Inner e.step.machine.classes e.step.machine.memory.heap s level e.step.focus := by
      have hfresh := hcarried.fresh
      cases hfocus' : e.step.focus with
      | request => exact hdepth
      | answer => exact fun _ => hdepth
      | active b =>
        rw [hfocus'] at hfresh
        by_cases htransformed : b.method.IsTransformed
        · obtain ⟨a', plan', m', chunks', h, hmethod⟩ := htransformed.exists_reentrant
          exact .inr ⟨htransformed, a', plan', m', chunks', false, h, hmethod,
            .arriving hfresh hdepth hframes⟩
        · exact .inl ⟨htransformed, hdepth⟩
    rcases hcarried.waiting with hsame | ⟨next, hnext⟩
    · exact .inner (hsame.trans hwaiting) hcallers hactive' hs' hnew
    · exact .inner (hnext.trans (congrArg (_ :: ·) hwaiting)) (.native hcallers) hactive' hs' hnew
  · obtain ⟨hk, hactive', hs'⟩ := Coroutines.begin_spares hbegin hs
    rw [hrun]
    have hguests : Guests c [(.runner k e.machine.memory.coroutines.active : Waiting H.Pending)]
        coroutines.active := by
      rw [hactive', hactive]
      exact .first hk
    exact .guests (congrArg (_ :: ·) hwaiting) hguests hcallers hdepth hs'

/-- **A step of a visit.** It releases the frame of the visit at most once, and as long as the
activation has not been left, the visit goes on. -/
theorem step (h : a.Reentrant plan m chunks) (hstage : Stage a plan m chunks c d base e spent)
    (hgoing : ∀ outcome, e.focus = .answer outcome → e.waiting ≠ base)
    (hkeeps : e.KeepsFrames c base) :
    (¬ e.Releases c d ∧ Stage a plan m chunks c d base e.step spent) ∨
      (e.Releases c d ∧ spent = false ∧ Stage a plan m chunks c d base e.step true) := by
  cases hstage with
  | @own b _ _ hfocus hwaiting hmethod hactive hs hphase =>
    have hstep := step_own h hfocus hwaiting hmethod hactive hs hphase
    rw [releases_iff hfocus hactive hs, hmethod]
    by_cases hi : m.code[b.pc]? = some (.frame .release)
    · obtain ⟨rfl, hdepth⟩ := Phase.of_release h hphase hi
      rw [decide_eq_true hi] at hstep
      exact .inr ⟨⟨hi, hdepth⟩, rfl, hstep⟩
    · rw [decide_eq_false hi, Bool.or_false] at hstep
      exact .inl ⟨fun hrelease => hi hrelease.1, hstep⟩
  | inner hwaiting hcallers hactive hs hinner =>
    left
    cases hfocus : e.focus with
    | active b =>
      rw [hfocus] at hinner
      exact step_active hfocus hwaiting hcallers hactive hs hinner hkeeps
    | request request =>
      rw [hfocus] at hinner
      refine ⟨?_, step_request hfocus hwaiting hcallers hactive hs hinner hkeeps⟩
      rintro ⟨b, s', hb, -⟩
      cases hfocus.symm.trans hb
    | answer outcome =>
      rw [hfocus] at hinner
      refine ⟨?_, step_answer h hfocus hwaiting hcallers hactive hs hinner hkeeps⟩
      rintro ⟨b, s', hb, -⟩
      cases hfocus.symm.trans hb
  | guests hwaiting hguests hcallers hdepth hs =>
    refine .inl ⟨?_, ?_⟩
    · rintro ⟨b, s', -, -, hactive, -⟩
      exact hguests.ne hactive
    obtain ⟨hs', ⟨guests', hwaiting', hguests'⟩ | ⟨hwaiting', hactive', outcome, hfocus'⟩⟩ :=
      hguests.step hwaiting hkeeps.hosts hs
    · exact .guests hwaiting' hguests' hcallers hdepth hs'
    · refine .inner hwaiting' hcallers hactive' hs' ?_
      rw [hfocus']
      exact fun _ => hdepth
  | left hfocus hwaiting => exact absurd hwaiting (hgoing _ hfocus)
  | @fatal error chain _ hfocus hfatal hwaiting hchain =>
    refine .inl ⟨?_, ?_⟩
    · rintro ⟨b, s', hb, -⟩
      cases hfocus.symm.trans hb
    rcases chain with _ | ⟨w, chain⟩
    · exact absurd hwaiting (hgoing _ hfocus)
    obtain ⟨hrunner, hrest⟩ := List.forall_mem_cons.1 hchain
    obtain ⟨hfocus', hwaiting'⟩ := hkeeps.step_of_fatal hfocus hfatal hwaiting hrunner hrest
    exact .fatal hfocus' hfatal hwaiting' hrest

/-- Only the activation itself, or something that ends everything, ends the visit. -/
theorem own_of_left (h : a.Reentrant plan m chunks) (hstage : Stage a plan m chunks c d base e spent)
    (hgoing : ∀ outcome, e.focus = .answer outcome → e.waiting ≠ base) (hkeeps : e.KeepsFrames c base)
    {outcome : Except RunError (Option Value)} (hfocus' : e.step.focus = .answer outcome)
    (hwaiting' : e.step.waiting = base) :
    (∃ b, e.focus = .active b ∧ e.waiting = base) ∨
      ∃ error, outcome = .error error ∧ error.IsFatal := by
  have hlonger {more : List (Waiting H.Pending)} (hmore : more ≠ []) :
      e.step.waiting ≠ more ++ base := by
    rw [hwaiting']
    exact fun heq => hmore (List.self_eq_append_left.1 heq)
  cases hstage with
  | own hfocus hwaiting => exact .inl ⟨_, hfocus, hwaiting⟩
  | @inner chain _ _ hwaiting hcallers hactive hs =>
    have hrest {w : Activation} {request : Call} {rest : List (Waiting H.Pending)}
        {given : Except RunError (Option Value)} (hfocus : e.focus = .answer given)
        (hcons : e.waiting = .caller w request :: (rest ++ base)) (hne : rest ≠ []) : False :=
      hlonger hne (Execution.waiting_of_caller hfocus hcons)
    by_cases hanswer : ∃ given, e.focus = .answer given
    · obtain ⟨given, hfocus⟩ := hanswer
      cases hcallers with
      | @base w request hmethod hwaits =>
        right
        rcases hresume : w.resume e.machine.classes request given e.machine.memory with
          ⟨progress, mem⟩
        rw [Execution.step_of_caller hfocus hwaiting hresume] at hfocus'
        rcases h.going_of_resume hmethod hwaits hresume with ⟨error, rfl, hfatal⟩ | ⟨b, rfl⟩
        · cases hfocus'
          exact ⟨error, rfl, hfatal⟩
        · cases hfocus'
      | transformed _ _ _ _ hcallers => exact (hrest hfocus hwaiting hcallers.ne_nil).elim
      | plain _ hcallers => exact (hrest hfocus hwaiting hcallers.ne_nil).elim
      | @native next _ rest hcallers =>
        rcases Execution.waiting_of_native hfocus hwaiting with hsame | ⟨next', hnext⟩
        · exact absurd hsame (hlonger hcallers.ne_nil)
        · exact absurd hnext (hlonger (List.cons_ne_nil _ rest))
    · obtain ⟨more, hmore⟩ := e.waiting_grows fun given hfocus => hanswer ⟨given, hfocus⟩
      rw [hwaiting, ← List.append_assoc] at hmore
      exact absurd hmore (hlonger (List.append_ne_nil_of_right_ne_nil _ hcallers.ne_nil))
  | @guests guests chain _ _ hwaiting hguests hcallers _ hs =>
    obtain ⟨-, ⟨guests', hmore, -⟩ | ⟨hmore, -⟩⟩ := hguests.step hwaiting hkeeps.hosts hs
    · rw [← List.append_assoc] at hmore
      exact absurd hmore (hlonger (List.append_ne_nil_of_right_ne_nil _ hcallers.ne_nil))
    · exact absurd hmore (hlonger hcallers.ne_nil)
  | left hfocus hwaiting => exact absurd hwaiting (hgoing _ hfocus)
  | @fatal error chain _ hfocus hfatal hwaiting hchain =>
    rcases chain with _ | ⟨w, chain⟩
    · exact absurd hwaiting (hgoing _ hfocus)
    obtain ⟨hrunner, hrest⟩ := List.forall_mem_cons.1 hchain
    obtain ⟨hsame, -⟩ := hkeeps.step_of_fatal hfocus hfatal hwaiting hrunner hrest
    cases hsame.symm.trans hfocus'
    exact .inr ⟨_, rfl, hfatal⟩

/-- When the signal comes up where point number `k` is on record, it is thrown on, and nothing of the
record is lost. -/
theorem signalled (h : a.Reentrant plan m chunks) (hstage : Stage a plan m chunks c d base e spent)
    (hgoing : ∀ outcome, e.focus = .answer outcome → e.waiting ≠ base)
    (hsignal : (e.machine.memory.heap.object 0).type = Names.suspendExecution) {k pc : Nat}
    (hraises : e.RaisesSignal base pc) (hmarked : Marked plan chunks k pc)
    (hplace : m.code[pc]? = some (.frame .suspend) ∨
      ∃ op member, m.code[pc]? = some (.invoke op member)) :
    spent = false ∧ ¬ e.Releases c d ∧ ∃ b s f, e.step.focus = .active b ∧ e.step.waiting = base ∧
      b.method = .load a.owner m ∧ b.pc = stop chunks + 3 ∧ b.stack = [Heap.signal] ∧
      e.step.machine.memory.coroutines.running? c = some s ∧ s.frames[d]? = some f ∧
      f.resumeIndex = UInt32.ofNat (k + 1) := by
  obtain ⟨hlow, hhigh⟩ := h.marked_lt hmarked
  have hreleases : m.code[pc]? ≠ some (.frame .release) := by
    intro hget
    rcases hplace with hplace | ⟨op, member, hplace⟩ <;> cases hget.symm.trans hplace
  have hreturn : ¬ AtReturn m.code pc := by
    rintro ⟨op', hget, -⟩
    rcases hplace with hplace | ⟨op, member, hplace⟩ <;> cases hget.symm.trans hplace
  have hlonger {more : List (Waiting H.Pending)} (hmore : more ≠ []) : base ≠ more ++ base :=
    fun heq => hmore (List.self_eq_append_left.1 heq)
  cases hstage with
  | @own b s _ hfocus hwaiting hmethod hactive hs hphase =>
    rcases hraises with ⟨b', i, mem, hfocus', -, rfl, hi, hrun⟩ | ⟨w, request, hfocus', -⟩
    · cases hfocus.symm.trans hfocus'
      have hcode := hi
      rw [hmethod] at hcode
      -- Neither the suspend operation nor a call touches the frames.
      obtain ⟨hs', hsignal'⟩ : mem.coroutines.running? c = some s ∧
          (mem.heap.object 0).type = Names.suspendExecution := by
        rcases hplace with hplace | ⟨op, member, hplace⟩
        · cases hcode.symm.trans hplace
          cases hrun
          exact ⟨hs, hsignal⟩
        · cases hcode.symm.trans hplace
          have hspares : Exec.Spares c (fun _ => True)
              (Exec.instr e.machine.classes (.invoke op member)) := Exec.spares_instr _ (.inl nofun)
          obtain ⟨hspares, -⟩ := hspares b e.machine.memory trivial
          rw [hrun] at hspares
          exact ⟨hspares.running.trans hs, hspares.heap.signal hsignal⟩
      have hstep : b.step e.machine.classes e.machine.memory = _ :=
        (Activation.step_of_failure hi hrun).trans (h.arranged.layout.raise_signal h.arranged.labels
          hmethod (by omega) hhigh hsignal')
      cases hphase with
      | arriving hpc => omega
      | choosing hpc => omega
      | released hpc =>
        rcases hpc with hpc | hpc
        · exact absurd hpc hreturn
        · omega
      | signalled hpc => omega
      | working _ _ _ _ _ hrecorded =>
        obtain ⟨f, hf, hindex⟩ := hrecorded k hmarked
        rw [releases_iff hfocus hactive hs, Execution.step_of_active hfocus hstep]
        refine ⟨rfl, fun hrelease => hreleases ?_, _, s, f, rfl, hwaiting, hmethod, rfl, rfl, hs', hf,
          hindex⟩
        rw [← hrelease.1, hmethod]
        rfl
    · cases hfocus.symm.trans hfocus'
  | @inner chain s _ hwaiting hcallers hactive hs =>
    rcases hraises with ⟨_, _, _, -, hwaiting', -⟩ | ⟨w, request, hfocus, hwaiting', rfl⟩
    · exact absurd (hwaiting'.symm.trans hwaiting) (hlonger hcallers.ne_nil)
    obtain rfl : chain = [.caller w request] :=
      List.append_cancel_right (hwaiting.symm.trans hwaiting')
    cases hcallers with
    | base hmethod hwaits =>
      have hresume : w.resume e.machine.classes request (.error .suspension) e.machine.memory = _ :=
        h.arranged.layout.raise_signal h.arranged.labels hmethod (by omega) hhigh hsignal
      obtain ⟨f, hf, hindex⟩ := hwaits.recorded k hmarked
      rw [Execution.step_of_caller hfocus hwaiting' hresume]
      refine ⟨rfl, ?_, _, s, f, rfl, rfl, hmethod, rfl, rfl, hs, hf, hindex⟩
      rintro ⟨b, s', hb, -⟩
      cases hfocus.symm.trans hb
    | transformed _ _ _ _ hrest => exact absurd rfl hrest.ne_nil
    | plain _ hrest => exact absurd rfl hrest.ne_nil
  | @guests guests chain _ _ hwaiting hguests hcallers =>
    have hguests' := List.length_pos_of_ne_nil hguests.ne_nil
    have hchain' := List.length_pos_of_ne_nil hcallers.ne_nil
    have hlength := congrArg List.length hwaiting
    rw [List.length_append, List.length_append] at hlength
    rcases hraises with ⟨_, _, _, -, hwaiting', -⟩ | ⟨w, request, -, hwaiting', -⟩
    · rw [hwaiting'] at hlength
      omega
    · rw [hwaiting', List.length_cons] at hlength
      omega
  | left hfocus hwaiting => exact absurd hwaiting (hgoing _ hfocus)
  | fatal hfocus hfatal =>
    rcases hraises with ⟨_, _, _, hfocus', -⟩ | ⟨_, _, hfocus', -⟩
    · cases hfocus.symm.trans hfocus'
    · cases hfocus.symm.trans hfocus'
      cases hfatal .initial

end Stage

/-- Behind the release of the frame, the signal is out in two steps. -/
theorem throws_on (h : a.Reentrant plan m chunks) {b : Activation} (hfocus : e.focus = .active b)
    (hmethod : b.method = .load a.owner m) (hpc : b.pc = stop chunks + 3)
    (hstack : b.stack = [Heap.signal]) :
    e.step = { e with focus := .active (b.after [Heap.signal] 1) } ∧
      e.step.step = { e with focus := .answer (.error .suspension) } := by
  have hstep : b.step e.machine.classes e.machine.memory = _ :=
    (h.arranged.layout.step_signal h.arranged.labels hmethod hpc hstack).1
  have hdone : (b.after [Heap.signal] 1).step e.machine.classes e.machine.memory = _ :=
    (h.arranged.layout.step_signal h.arranged.labels hmethod hpc hstack).2
  have hnext : e.step = { e with focus := .active (b.after [Heap.signal] 1) } :=
    Execution.step_of_active hfocus hstep
  refine ⟨hnext, ?_⟩
  rw [hnext]
  exact Execution.step_of_active (e := { e with focus := .active (b.after [Heap.signal] 1) }) rfl hdone

end Analysed.Reentrant

end Resumable
