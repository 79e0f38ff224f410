import Resumable.Proofs.Instrument.Passages

/-!
# Those who wait

A machine is watched next to the machine with the transformed methods, in which the coroutine of a
`Drive` is running (`Drive.execution`). In both, the same callers wait for each other (`Callers`), and
those whose methods have been transformed have a frame each. As long as all of them stand at suspension
points, everything that they have is on record: the signal gets through to whoever runs the coroutine
(`Callers.unwinds`), and once the coroutine is run again, the same callers wait again
(`Callers.reenters`).
-/

namespace Resumable

open Activation (Runs)
open Execution (Leads)
open FrameStack (Keeps Poised Recorded reenter)

variable {H : Host}

/-- Whoever waits on top has asked for this, or the body of the coroutine if nobody waits. -/
def asked {π : Type} (body : Request) : List (Waiting π) → Request
  | .caller _ request :: _ => .call request
  | _ => body

/-- If a caller waits on top, its call is one that can be carried out. -/
def Answerable {π : Type} : List (Waiting π) → Prop
  | .caller _ request :: _ => request.op.isInvoke = true
  | _ => True

theorem Machine.isInvoke_of_target {m : Machine H} {c : Call} {callable : Callable H.Native}
    (h : m.target c = .ok callable) : c.op.isInvoke = true := by
  obtain ⟨start, hstart, -⟩ := bind_eq_ok.1 h
  obtain ⟨op, member, args⟩ := c
  unfold dispatchClass at hstart
  cases op <;> first | rfl | cases hstart

theorem Answerable.of_target {m : Machine H} {c : Call} {callable : Callable H.Native} {body : Request}
    {ws : List (Waiting H.Pending)} {h : Heap} (hcall : (asked body ws).call? h = some c)
    (htarget : m.target c = .ok callable) : Answerable ws := by
  unfold Answerable
  split
  · cases hcall
    exact Machine.isInvoke_of_target htarget
  · trivial

theorem Machine.Enters.answerable {m : Machine H} {body : Request} {ws : List (Waiting H.Pending)}
    {a : Activation}
    (h : m.Enters (asked body ws) a) : Answerable ws := by
  obtain ⟨c, callee, hcall, -, htarget, -⟩ := h
  exact .of_target hcall htarget

/-! ## The other machine at work -/

namespace Drive

/-- The machine with the transformed methods at work, while the coroutine is running with some frames. -/
def execution (d : Drive) (r : Revisions) (m : Machine H) (s : FrameStack)
    (waiting : List (Waiting H.Pending)) (focus : Focus) : Execution H where
  machine := m.revised r (d.running s)
  waiting := waiting ++ [.runner d.number d.coroutines.active]
  focus

variable {d : Drive} {r : Revisions} {m : Machine H} {mem : Memory} {s s' : FrameStack}
  {ws : List (Waiting H.Pending)} {b c : Activation} {progress : Progress} {request : Call}
  {outcome : Except RunError (Option Value)}

theorem leads_of_runs (h : Runs (m.classes.revise r) b (m.memory.withCoroutines (d.running s)) c
    (m.memory.withCoroutines (d.running s'))) :
    (d.execution r m s ws (.active b)).Leads [] (d.execution r m s' ws (.active c)) :=
  Leads.of_runs (e := d.execution r m s ws (.active b)) h

theorem leads_of_step (h : b.step (m.classes.revise r) (m.memory.withCoroutines (d.running s)) =
    (progress, mem.withCoroutines (d.running s'))) :
    (d.execution r m s ws (.active b)).Leads []
      ((d.execution r (m.withMemory mem) s' ws (.active b)).proceed progress) := by
  have hstep := Leads.of_silent (e := d.execution r m s ws (.active b))
    (Execution.event?_of_call? rfl)
  rw [Execution.step_of_active rfl h] at hstep
  exact hstep

theorem leads_of_resume (h : b.resume (m.classes.revise r) request outcome
    (m.memory.withCoroutines (d.running s)) = (progress, mem.withCoroutines (d.running s))) :
    (d.execution r m s (.caller b request :: ws) (.answer outcome)).Leads []
      ((d.execution r (m.withMemory mem) s ws (.answer outcome)).proceed progress) := by
  have hstep := Leads.of_silent
    (e := d.execution r m s (.caller b request :: ws) (.answer outcome))
    (Execution.event?_of_call? rfl)
  rw [Execution.step_of_caller rfl rfl h] at hstep
  exact hstep

/-- An activation that is left by the signal hands the signal over. -/
theorem leads_of_leaves (h : ∃ c, Runs (m.classes.revise r) b (m.memory.withCoroutines (d.running s)) c
      (m.memory.withCoroutines (d.running s')) ∧
    c.step (m.classes.revise r) (m.memory.withCoroutines (d.running s')) =
      (.done (.error .suspension), m.memory.withCoroutines (d.running s'))) :
    (d.execution r m s ws (.active b)).Leads []
      (d.execution r m s' ws (.answer (.error .suspension))) := by
  obtain ⟨c, hruns, hstep⟩ := h
  exact (leads_of_runs hruns).trans (leads_of_step hstep)

end Drive

/-- A call that leads to a method with points leads to the re-entrant form of the method. -/
theorem Machine.Enters.revised {m : Machine H} {request : Request} {w : Revision} {r : Revisions}
    {locals : List Value} (h : m.Enters request { method := w.before, locals })
    (hof : r.of? w.before = some w) (hcareful : w.Careful) (coroutines : Coroutines) :
    (m.revised r coroutines).Enters request { method := w.after, locals } := by
  obtain ⟨c, body, hcall, hyield, htarget, henter⟩ := h
  obtain rfl : w.before = body := (Activation.enter_spec henter).1
  refine ⟨c, w.after, hcall, hyield, ?_, ?_⟩
  · rw [m.target_revised, htarget]
    show Except.ok (Callable.code (r.apply w.before)) = _
    rw [Revisions.apply_of_some hof]
  · rw [hcareful.enter_after, henter]
    rfl

/-! ## Activations of transformed methods -/

/-- What there is to know about an activation of a method with points: how far it has come, how it was
entered, and its frame. -/
structure Stay where
  revision : Revision
  /-- What the analysis knows in front of the instruction where the activation stands. -/
  known : Frame
  entered : List Value
  number : Nat
  base : Nat
  record : FrameRecord

namespace Stay

/-- Both forms of an activation that was asked for while so many callers were waiting. -/
structure Spans (x : Stay) (r : Revisions) (m : Machine H) (request : Request) (depth : Nat)
    (a b : Activation) : Prop where
  revised : r.of? x.revision.before = some x.revision
  known : x.revision.analysed.frame? a.pc = some x.known
  mirrors : x.revision.Mirrors x.known x.entered a b
  enters : m.Enters request { method := x.revision.before, locals := x.entered }
  room : depth < maxCallDepth
  small : x.record.slots < UInt32.size

/-- In front of the call of point number `k`, everything is on record. -/
structure Halts (x : Stay) (k : Nat) (p : SuspensionPoint) (a b : Activation) : Prop where
  point : x.revision.plan.points[k]? = some p
  index : p.index = a.pc
  known : x.revision.analysed.frame? a.pc = some x.known
  built : ∀ v ∈ x.known.locals, v.isFresh = false
  describes : x.known.Describes b
  mirrors : x.revision.Mirrors x.known x.entered a b
  kept : p.Kept x.record b
  resumes : x.record.resumeIndex = UInt32.ofNat (k + 1)

/-- The activation waits for the answer to its request: within the method, or at one of its points. -/
inductive Waits (x : Stay) (request : Call) (a : Activation) : (isOpen : Bool) → Prop
  | within (h : ∀ p ∈ x.revision.plan.points, p.index ≠ a.pc)
    (hcode : x.revision.source.code[a.pc]? = some (.invoke request.op request.member)) :
    x.Waits request a false
  | point {k : Nat} {p : SuspensionPoint} {a₀ b₀ : Activation} {op : Opcode} {callee : MemberRef}
    (halts : x.Halts k p a₀ b₀) (hyield : p.isYield = false)
    (hcode : x.revision.source.code[a₀.pc]? = some (.invoke op callee))
    (hrequest : ∀ mem, Exec.Does (Exec.request op callee) a₀ mem request a mem) :
    x.Waits request a true

end Stay

/-- Taking the arguments of a call off the operands has nothing to do with the memory. -/
theorem Exec.Does.request_of_memory {op : Opcode} {callee : MemberRef} {a a' : Activation}
    {m m' : Memory} {c : Call} (h : Does (Exec.request op callee) a m c a' m') (mem : Memory) :
    Does (Exec.request op callee) a mem c a' mem := by
  unfold Exec.request at h ⊢
  rcases htype : Exec.methodType callee.desc with e | type <;> rw [htype] at h
  · exact (Does.not_throw h).elim
  · dsimp only at h ⊢
    generalize type.arity + (if op = .invokestatic then 0 else 1) = count at h ⊢
    obtain ⟨_, _, _, hget, h⟩ := h.bind
    cases hget
    refine Does.seq (show Does (get : Exec Activation) a mem a a mem from rfl) ?_
    split at h
    · obtain ⟨_, _, _, hthrow, -⟩ := h.bind
      exact (Does.not_throw hthrow).elim
    · rename_i henough
      rw [if_neg henough]
      cases h
      rfl

namespace Stay

variable {x : Stay} {r : Revisions} {m m' : Machine H} {request : Request} {call : Call}
  {depth k : Nat} {a b a₀ b₀ : Activation} {p : SuspensionPoint} {isOpen : Bool} {d : Drive}
  {s : FrameStack}
  {ws : List (Waiting H.Pending)}

theorem Spans.precedes (h : x.Spans r m request depth a b) (hm : m.Precedes m') :
    x.Spans r m' request depth a b :=
  ⟨h.revised, h.known, h.mirrors, h.enters.precedes hm, h.room, h.small⟩

/-- A method is entered with as many locals as are known. -/
theorem Spans.length_entered (h : x.Spans r m request depth a b) :
    x.entered.length = x.known.locals.length := by
  obtain ⟨c, body, -, -, -, henter⟩ := h.enters
  obtain ⟨rfl, -, -, hlen⟩ := Activation.enter_spec henter
  obtain ⟨-, -, hanalyzed⟩ := x.revision.transforms.analyzed
  exact hlen.trans (hanalyzed.uniform _ _ h.known).symm

theorem Waits.code (h : x.Waits call a isOpen) :
    x.revision.source.code[a.pc]? = some (.invoke call.op call.member) := by
  cases h with
  | within _ hcode => exact hcode
  | point _ _ hcode hrequest =>
    obtain ⟨type, -, rfl, rfl, rfl⟩ := (hrequest {}).request
    exact hcode

theorem Waits.goesOn (h : x.Waits call a isOpen) : x.revision.GoesOn a.pc := by
  cases h with
  | within h _ => exact fun p hp hindex => absurd hindex (h p hp)
  | point halts hyield _ hrequest =>
    obtain ⟨type, -, -, -, rfl⟩ := (hrequest {}).request
    exact halts.index ▸ x.revision.goesOn_of_point halts.point hyield

/-- **Asked for again**, the activation comes to the point where it has stopped, with all that it had
there. -/
theorem Halts.reenters (halts : x.Halts k p a₀ b₀) (hx : x.Spans r m request depth a b)
    (hcareful : x.revision.Careful) (hrec : Recorded x.number x.base x.record s)
    (hdepth : ws.countP Waiting.isCaller = depth) : ∃ c,
      (d.execution r m (reenter x.number s.rewind) ws (.request request)).Leads []
        (d.execution r m (reenter (x.number + 1) s.rewind) ws (.active c)) ∧
      c.pc = (if p.isYield then x.revision.start (p.index + 1) else x.revision.place p.index) ∧
      x.revision.Mirrors x.known x.entered a₀ c := by
  have henters : Leads (d.execution r m (reenter x.number s.rewind) ws (.request request)) []
      (d.execution r m (reenter x.number s.rewind) ws
        (.active { method := x.revision.after, locals := x.entered })) := by
    refine Leads.of_enters (hx.enters.revised hx.revised hcareful _) rfl ?_
    show (ws ++ [_]).countP Waiting.isCaller < maxCallDepth
    rw [List.countP_append, hdepth]
    exact hx.room
  obtain ⟨c, hruns, hpc, hmirrors⟩ := halts.mirrors.runs_again (t := m.classes.revise r) (d := d)
    (m := m.memory) hcareful halts.point (halts.index ▸ halts.known) halts.describes halts.built
    halts.kept hrec halts.resumes rfl hx.length_entered
  exact ⟨c, henters.trans (Drive.leads_of_runs hruns), hpc, hmirrors⟩

end Stay

/-! ## Callers -/

/-- The same callers wait in both machines. The next frame is number `number`, and the slots that are
taken end at `bound`. If the callers are open, all of them stand at points of their methods. -/
inductive Callers (r : Revisions) (body : Request) (m : Machine H) (s : FrameStack) :
    (isOpen : Bool) → (number bound : Nat) → List (Waiting H.Pending) → List (Waiting H.Pending) → Prop
  | nil : Callers r body m s true 0 0 [] []
  | plain {isOpen : Bool} {number bound : Nat} {ws ws' : List (Waiting H.Pending)} {a : Activation}
    {request : Call} (h : Callers r body m s isOpen number bound ws ws')
    (hplain : r.of? a.method = none) (hcode : ∀ op, .frame op ∉ a.method.method.code)
    (hbelow : Answerable ws) :
    Callers r body m s false number bound (.caller a request :: ws) (.caller a request :: ws')
  | revised {isOpen : Bool} {ws ws' : List (Waiting H.Pending)} {a b : Activation} {request : Call}
    (x : Stay) (h : Callers r body m s true x.number x.base ws ws')
    (hx : x.Spans r m (asked body ws) (ws.countP Waiting.isCaller) a b)
    (hwaits : x.Waits request a isOpen) (hpc : b.pc = x.revision.place a.pc)
    (hrec : Recorded x.number x.base x.record s) :
    Callers r body m s isOpen (x.number + 1) (x.base + x.record.slots)
      (.caller a request :: ws) (.caller b request :: ws')

namespace Callers

variable {r : Revisions} {body : Request} {m m' : Machine H} {s s' : FrameStack} {isOpen : Bool}
  {number bound : Nat} {ws ws' : List (Waiting H.Pending)} {d : Drive}

theorem countP_eq (h : Callers r body m s isOpen number bound ws ws') :
    ws'.countP Waiting.isCaller = ws.countP Waiting.isCaller := by
  induction h with
  | nil => rfl
  | plain _ _ _ _ ih | revised _ _ _ _ _ _ ih =>
    rw [List.countP_cons_of_pos rfl, List.countP_cons_of_pos rfl, ih]

/-- Callers wait on, whatever the machine does and however the coroutine works on inner frames. -/
theorem precedes (h : Callers r body m s isOpen number bound ws ws') (hm : m.Precedes m')
    (hs : Keeps number bound s s') : Callers r body m' s' isOpen number bound ws ws' := by
  induction h with
  | nil => exact .nil
  | plain _ hplain hcode hbelow ih => exact .plain (ih hs) hplain hcode hbelow
  | revised x _ hx hwaits hpc hrec ih =>
    exact .revised x (ih (hs.mono (Nat.le_succ _) (Nat.le_add_right _ _)))
      (hx.precedes hm) hwaits hpc (hrec.keeps hs)

/-- **The signal gets through** to whoever runs the coroutine. -/
theorem unwinds (h : Callers r body m s true number bound ws ws')
    (hcareful : ∀ {m w}, r.of? m = some w → w.Careful)
    (hsignal : (m.memory.heap.object 0).type = Names.suspendExecution) (s₁ : FrameStack) :
    (d.execution r m s₁ ws' (.answer (.error .suspension))).Leads []
      (d.execution r m s₁ [] (.answer (.error .suspension))) := by
  -- From the innermost caller outwards: what one lets out is the answer to the next.
  generalize hopen : true = isOpen at h
  induction h with
  | nil => exact .refl _
  | plain => cases hopen
  | @revised _ _ ws' a b request x _ hx hwaits hpc _ ih =>
    have hinvoke : ∃ op callee, x.revision.target.code[b.pc]? = some (.invoke op callee) :=
      ⟨_, _, hpc ▸ (hcareful hx.revised).getElem?_place hwaits.code hwaits.goesOn⟩
    obtain ⟨c, hresume, hleaves⟩ := x.revision.lets_out (t := m.classes.revise r)
      (m := m.memory.withCoroutines (d.running s₁)) hx.mirrors.revised hinvoke hsignal
    exact (Drive.leads_of_resume hresume).trans ((Drive.leads_of_leaves hleaves).trans (ih rfl))

/-- **Run again**, the coroutine has the same callers waiting. -/
theorem reenters (h : Callers r body m s true number bound ws ws')
    (hcareful : ∀ {m w}, r.of? m = some w → w.Careful) : ∃ ws'',
      Callers r body m s true number bound ws ws'' ∧
      (d.execution r m s.rewind [] (.request body)).Leads []
        (d.execution r m (reenter number s.rewind) ws'' (.request (asked body ws))) := by
  -- From the outermost caller inwards: each is asked by the one below it, and finds its own record.
  generalize hopen : true = isOpen at h
  induction h with
  | nil => exact ⟨[], .nil, .refl _⟩
  | plain => cases hopen
  | @revised _ ws _ a b request x _ hx hwaits hpc hrec ih =>
    obtain ⟨ws'', hcallers, hleads⟩ := ih rfl
    subst hopen
    -- Open callers stand at points, so there is a record that leads back.
    cases hwaits with
    | @point k p a₀ b₀ op callee halts hyield hcode hrequest =>
      obtain ⟨c, hcome, hcpc, hmirrors⟩ := halts.reenters (d := d) hx (hcareful hx.revised) hrec
        hcallers.countP_eq
      rw [hyield, if_neg nofun] at hcpc
      obtain ⟨type, -, -, -, ha⟩ := (hrequest m.memory).request
      have hindex : p.index = a.pc := halts.index.trans (ha ▸ rfl)
      obtain ⟨y, g, hy, hstep, -⟩ := x.revision.exists_step halts.known
      obtain rfl : _ = y := Option.some.inj (hcode.symm.trans hy)
      obtain ⟨c', hcall, hmirrors', -⟩ := hmirrors.does (hcareful hx.revised)
        (m.classes.agrees_revise r) hcode halts.known hstep ((hrequest m.memory).seq rfl)
        (d.running (reenter (x.number + 1) s.rewind))
      have hthere : c.method.method.code[c.pc]? = some (.invoke op callee) := by
        rw [hmirrors.revised, hcpc, halts.index]
        exact (hcareful hx.revised).getElem?_place hcode
          (halts.index ▸ x.revision.goesOn_of_point halts.point hyield)
      obtain ⟨_, _, _, hrequest', hlast⟩ := hcall.bind
      cases hlast
      obtain ⟨type', -, -, -, hc'⟩ := hrequest'.request
      refine ⟨_, .revised x hcallers ⟨hx.revised, hx.known, hmirrors', hx.enters, hx.room, hx.small⟩
        (.point halts hyield hcode hrequest) ?_ hrec, hleads.trans (hcome.trans
          (Drive.leads_of_step (Activation.step_of_does hthere hcall)))⟩
      rw [hc']
      exact hcpc.trans (congrArg x.revision.place hindex)

end Callers

end Resumable
