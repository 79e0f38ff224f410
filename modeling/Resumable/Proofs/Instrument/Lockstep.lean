import Resumable.Proofs.Instrument.Callers
import Resumable.Proofs.Machine.BenchMethods
import Resumable.Proofs.Machine.Dispatch

/-!
# Step by step

An uninterrupted run of a machine is followed by the machine with the transformed methods, in which the
coroutine of a `Drive` is running. `Drive.Matches` says when both stand at the same place: the same
callers wait, and whoever is at work has the same operands, and the same locals as far as these are
known. From there, each step that is no suspension leads to such a place again, and both machines show
the same of it (`Drive.follows`).

What is assumed of the uninterrupted run on the way is `Execution.Proper`.
-/

namespace Resumable

open Activation (Runs)
open Execution (Leads)
open FrameStack (Current Keeps Poised Ready Recorded safeCapacity)

variable {H : Host}

/-! ## Assumptions -/

namespace Execution

variable {e : Execution H} {r : Revisions}

/-- The caller on top of those who wait stands at a point of its method. -/
def CallsFrom (e : Execution H) (r : Revisions) (p : SuspensionPoint) : Prop :=
  ∃ a request ws w, e.waiting = .caller a request :: ws ∧ r.of? a.method = some w ∧
    p ∈ w.plan.points ∧ p.index = a.pc

/-- The exception that the next step has to do with: an instruction throws it, or a call has come to
nothing else. -/
def exception? (e : Execution H) : Option (Heap × Value) :=
  match e.focus with
  | .active a =>
    a.method.method.code[a.pc]?.bind fun i =>
      match ((Exec.instr e.machine.classes i).run a).run e.machine.memory with
      | (.error error, m) => error.exception? m.heap
      | _ => none
  | .answer (.error error) => error.exception? e.machine.memory.heap
  | _ => none

/-- What is assumed of an uninterrupted run, before each of its steps. -/
structure Admissible (r : Revisions) (e : Execution H) : Prop where
  /-- At a point, there is what the analysis has found, and nothing is under construction. -/
  point : ∀ a w p f, e.focus = .active a → r.of? a.method = some w → p ∈ w.plan.points →
    p.index = a.pc → w.analysed.frame? a.pc = some f →
      f.Holds a ∧ (∀ v ∈ f.locals, v.isFresh = false) ∧ ∀ v ∈ f.stack, v.isFresh = false
  /-- Only yields call the suspend call. -/
  yields : ∀ c, e.call? = some c → c.isYield = true → ∃ p, e.CallsFrom r p ∧ p.isYield = true
  /-- Only the body of the coroutine and points lead to transformed methods. -/
  enters : ∀ c m, e.call? = some c → e.machine.target c = .ok (.code m) → r.of? m ≠ none →
    e.waiting = [] ∨ ∃ p, e.CallsFrom r p
  /-- Methods of the host do not call back, and have nothing to do with coroutines. -/
  natives : ∀ c n, e.call? = some c → e.machine.target c = .ok (.native n) → H.Detached n
  /-- Nobody throws the signal. -/
  signal : ∀ heap v, e.exception? = some (heap, v) →
    e.machine.classes.isInstance heap v Names.suspendExecution = false

/-- What is assumed, and that no method of the host throws anything that could not be thrown again. -/
structure Proper (r : Revisions) (e : Execution H) : Prop extends e.Admissible r where
  thrown : ∀ heap v, e.exception? = some (heap, v) → v.isReference = true ∧ v.isNull = false

theorem Proper.throws (h : e.Proper r) {heap : Heap} {v : Value} (hv : e.exception? = some (heap, v)) :
    v.isReference = true ∧ v.isNull = false ∧
      e.machine.classes.isInstance heap v Names.suspendExecution = false :=
  ⟨(h.thrown heap v hv).1, (h.thrown heap v hv).2, h.signal heap v hv⟩

/-! ### Checking -/

/-- The points at which the caller on top of those who wait stands. -/
def callerPoints (r : Revisions) (e : Execution H) : List SuspensionPoint :=
  match e.waiting with
  | .caller a _ :: _ => ((r.of? a.method).elim [] (·.plan.points)).filter (·.index == a.pc)
  | _ => []

theorem callsFrom_of_mem {p : SuspensionPoint} (h : p ∈ e.callerPoints r) : e.CallsFrom r p := by
  unfold callerPoints at h
  split at h
  · rename_i a request ws hwaiting
    obtain ⟨hp, hindex⟩ := List.mem_filter.1 h
    rcases hof : r.of? a.method with _ | w <;> rw [hof] at hp
    · cases hp
    · exact ⟨a, request, ws, w, hwaiting, hof, hp, beq_iff_eq.1 hindex⟩
  · cases h

/-- Whether the activation may stand where it does. -/
def standsProperly (r : Revisions) (a : Activation) : Bool :=
  (r.of? a.method).all fun w => w.plan.points.all fun p => p.index != a.pc ||
    (w.analysed.frame? a.pc).all fun f =>
      decide (f.Holds a) && f.locals.all (!·.isFresh) && f.stack.all (!·.isFresh)

/-- Whether the call may be made. -/
def callsProperly (r : Revisions) (e : Execution benchHost) (c : Call) : Bool :=
  (!c.isYield || (e.callerPoints r).any (·.isYield)) &&
    match e.machine.target c with
    | .ok (.code m) => (r.of? m).isNone || e.waiting.isEmpty || !(e.callerPoints r).isEmpty
    | .ok (.native n) => n.isDetached
    | .error _ => true

/-- Whether an execution is admissible, as far as the methods of the workbench are known not to have to
do with coroutines. -/
def isAdmissible (r : Revisions) (e : Execution benchHost) : Bool :=
  (match e.focus with
    | .active a => standsProperly r a
    | _ => true) &&
  e.call?.all (e.callsProperly r) &&
  e.exception?.all fun (heap, v) => !e.machine.classes.isInstance heap v Names.suspendExecution

theorem admissible_of_isAdmissible {e : Execution benchHost} (h : e.isAdmissible r = true) :
    e.Admissible r := by
  unfold isAdmissible at h
  rw [Bool.and_eq_true, Bool.and_eq_true] at h
  obtain ⟨⟨hstands, hcall⟩, hsignal⟩ := h
  have hcalls {c : Call} (hc : e.call? = some c) : e.callsProperly r c = true := by
    rwa [hc, Option.all_some] at hcall
  refine ⟨fun a w p f hfocus hof hp hindex hf => ?_, fun c hc hyield => ?_,
    fun c m hc htarget hof => ?_, fun c n hc htarget => ?_, fun heap v hv => ?_⟩
  · rw [hfocus] at hstands
    unfold standsProperly at hstands
    dsimp only at hstands
    rw [hof, Option.all_some, List.all_eq_true] at hstands
    have hat := hstands p hp
    rw [hindex, hf] at hat
    simpa [and_assoc] using hat
  · have hmay := hcalls hc
    unfold callsProperly at hmay
    rw [hyield, Bool.and_eq_true] at hmay
    obtain ⟨p, hp, hpause⟩ := List.any_eq_true.1 hmay.1
    exact ⟨p, callsFrom_of_mem hp, hpause⟩
  · have hmay := hcalls hc
    unfold callsProperly at hmay
    rw [htarget, Bool.and_eq_true] at hmay
    replace hmay := hmay.2
    rw [Bool.or_eq_true, Bool.or_eq_true] at hmay
    rcases hmay with (hnone | hfirst) | hpoints
    · exact absurd (Option.isNone_iff_eq_none.1 hnone) hof
    · exact .inl (List.isEmpty_iff.1 hfirst)
    · obtain ⟨p, hp⟩ := List.exists_mem_of_ne_nil (e.callerPoints r) (by simpa using hpoints)
      exact .inr ⟨p, callsFrom_of_mem hp⟩
  · have hmay := hcalls hc
    unfold callsProperly at hmay
    rw [htarget, Bool.and_eq_true] at hmay
    exact BenchMethod.detached_of_isDetached hmay.2
  · rw [hv, Option.all_some] at hsignal
    simpa using hsignal

end Execution

/-- No method with code works on frames. -/
def ClassTable.Plain (t : ClassTable) : Prop :=
  ∀ entry ∈ t.entries, ∀ m ∈ entry.2.methods, ∀ op, .frame op ∉ m.method.code

/-- What a machine has to be like all along. -/
structure Drive.Fits (d : Drive) (r : Revisions) (m : Machine H) : Prop where
  careful : ∀ {m w}, r.of? m = some w → w.Careful
  plain : m.classes.Plain
  signal : (m.memory.heap.object 0).type = Names.suspendExecution
  body : m.bodies[d.number]? = some d.body

theorem Drive.Fits.precedes {d : Drive} {r : Revisions} {m m' : Machine H} (h : d.Fits r m)
    (hm : m.Precedes m') : d.Fits r m' :=
  ⟨h.careful, hm.classes ▸ h.plain, hm.heap.signal h.signal, hm.bodies ▸ h.body⟩

theorem Machine.Dispatches.exists_entry {m : Machine H} {name desc type : String}
    {callable : Callable H.Native}
    (h : m.Dispatches name desc type callable) {body : LoadedMethod} (hbody : callable = .code body) :
    ∃ entry ∈ m.classes.entries, body ∈ entry.2.methods := by
  induction h with
  | native => cases hbody
  | code _ hclass hfound =>
    cases hbody
    obtain ⟨before, after, hentries, -⟩ := List.lookup_eq_some_iff.1 hclass
    exact ⟨_, hentries ▸ List.mem_append_right _ List.mem_cons_self,
      (LoadedClass.findBody?_eq_some hfound).1⟩
  | inherited _ _ _ _ _ ih => exact ih hbody

/-- A call leads to a method of a class that is loaded. -/
theorem Machine.exists_entry_of_target {m : Machine H} {c : Call} {body : LoadedMethod}
    (h : m.target c = .ok (.code body)) : ∃ entry ∈ m.classes.entries, body ∈ entry.2.methods := by
  obtain ⟨start, -, h⟩ := bind_eq_ok.1 h
  obtain ⟨callable, hresolve, h⟩ := bind_eq_ok.1 h
  obtain rfl : callable = .code body := by
    split at h
    · cases h
    · cases h
      rfl
  unfold resolve at hresolve
  split at hresolve
  · rename_i hfind
    cases hresolve
    exact (dispatches_of_findCallable? hfind).exists_entry rfl
  · cases hresolve

/-! ## Both machines -/

/-- Both machines stand at the same place. -/
inductive Drive.Matches (d : Drive) (r : Revisions) : Execution H → Execution H → Prop
  | request {m : Machine H} {s : FrameStack} {isOpen : Bool} {number bound : Nat}
    {ws ws' : List (Waiting H.Pending)}
    (callers : Callers r d.body.request m s isOpen number bound ws ws')
    (poised : Poised number bound s) :
    d.Matches r ⟨m, ws, .request (asked d.body.request ws)⟩
      (d.execution r m s ws' (.request (asked d.body.request ws)))
  | plain {m : Machine H} {s : FrameStack} {isOpen : Bool} {number bound : Nat}
    {ws ws' : List (Waiting H.Pending)} {a : Activation}
    (callers : Callers r d.body.request m s isOpen number bound ws ws')
    (poised : Poised number bound s) (hplain : r.of? a.method = none)
    (hcode : ∀ op, .frame op ∉ a.method.method.code) (hbelow : Answerable ws) :
    d.Matches r ⟨m, ws, .active a⟩ (d.execution r m s ws' (.active a))
  | revised {m : Machine H} {s : FrameStack} {ws ws' : List (Waiting H.Pending)} {a b : Activation}
    (x : Stay) (callers : Callers r d.body.request m s true x.number x.base ws ws')
    (hx : x.Spans r m (asked d.body.request ws) (ws.countP Waiting.isCaller) a b)
    (hpc : b.pc = x.revision.start a.pc)
    (hcur : Current x.number x.base x.record s) :
    d.Matches r ⟨m, ws, .active a⟩ (d.execution r m s ws' (.active b))
  | answer {m : Machine H} {s : FrameStack} {isOpen : Bool} {number bound : Nat}
    {ws ws' : List (Waiting H.Pending)} {outcome : Except RunError (Option Value)}
    (callers : Callers r d.body.request m s isOpen number bound ws ws')
    (poised : Poised number bound s) (hanswer : ∀ result, outcome = .ok result → Answerable ws) :
    d.Matches r ⟨m, ws, .answer outcome⟩ (d.execution r m s ws' (.answer outcome))
  /-- What nobody can catch goes through, whatever the frames are. -/
  | fatal {m : Machine H} {s : FrameStack} {ws ws' : List (Waiting H.Pending)} {error : RunError}
    (hfatal : error.IsFatal)
    (callers : List.Forall₂ (fun w w' => w.isCaller = true ∧ w'.isCaller = true) ws ws') :
    d.Matches r ⟨m, ws, .answer (.error error)⟩ (d.execution r m s ws' (.answer (.error error)))

/-- After the next step, the other machine gets to the same place, and shows the same on the way. -/
def Drive.Follows (d : Drive) (r : Revisions) (e e' : Execution H) : Prop :=
  ∃ e'', e'.Leads e.event?.toList e'' ∧ d.Matches r e.pass e''


theorem RunError.isFatal_of_exception? {e : RunError} {h : Heap} (he : e.exception? h = none) :
    e.IsFatal := by
  intro h'
  cases e with
  | thrown | arithmetic | nullPointer => cases he
  | _ => rfl

/-- A caller that stands at a yield does not wait any more. -/
theorem Callers.goesOn {r : Revisions} {body : Request} {m : Machine H} {s : FrameStack} {isOpen : Bool}
    {number bound : Nat} {ws ws' : List (Waiting H.Pending)} {a : Activation} {request : Call}
    {w : Revision}
    (h : Callers r body m s isOpen number bound (.caller a request :: ws) ws')
    (hof : r.of? a.method = some w) : w.GoesOn a.pc ∧
      ((∃ p ∈ w.plan.points, p.index = a.pc) → isOpen = true) := by
  cases h with
  | plain _ hplain =>
    rw [hplain] at hof
    cases hof
  | revised x _ hx hwaits =>
    rw [hx.mirrors.method, hx.revised] at hof
    cases hof
    refine ⟨hwaits.goesOn, fun ⟨p, hp, hindex⟩ => ?_⟩
    cases hwaits with
    | within hno _ => exact absurd hindex (hno p hp)
    | point => rfl

/-- Below the first frame, no slots are taken. -/
theorem Callers.bound_eq_zero {r : Revisions} {body : Request} {m : Machine H} {s : FrameStack}
    {isOpen : Bool} {number bound : Nat} {ws ws' : List (Waiting H.Pending)}
    (h : Callers r body m s isOpen number bound ws ws') (hnumber : number = 0) : bound = 0 := by
  induction h with
  | nil => rfl
  | plain _ _ _ _ ih => exact ih hnumber
  | revised => cases hnumber

/-- There are no more frames than callers, and each has less than `2 ^ 32` slots. -/
theorem Callers.bound_le {r : Revisions} {body : Request} {m : Machine H} {s : FrameStack}
    {isOpen : Bool} {number bound : Nat} {ws ws' : List (Waiting H.Pending)}
    (h : Callers r body m s isOpen number bound ws ws') :
    number ≤ ws.countP Waiting.isCaller ∧ bound ≤ number * UInt32.size := by
  induction h with
  | nil => exact ⟨Nat.le_refl _, Nat.le_refl _⟩
  | plain _ _ _ _ ih =>
    obtain ⟨hnumber, hbound⟩ := ih
    rw [List.countP_cons_of_pos rfl]
    exact ⟨Nat.le_succ_of_le hnumber, hbound⟩
  | revised x _ hx _ _ _ ih =>
    obtain ⟨hnumber, hbound⟩ := ih
    have hsmall := hx.small
    rw [List.countP_cons_of_pos rfl]
    exact ⟨Nat.succ_le_succ hnumber, by rw [Nat.succ_mul]; omega⟩

/-- Since there are not many callers, there is room for one more frame. -/
theorem Callers.room {r : Revisions} {body : Request} {m : Machine H} {s : FrameStack}
    {isOpen : Bool} {number bound : Nat} {ws ws' : List (Waiting H.Pending)}
    (h : Callers r body m s isOpen number bound ws ws')
    (hdepth : ws.countP Waiting.isCaller < maxCallDepth) :
    bound + UInt32.size ≤ safeCapacity := by
  obtain ⟨hnumber, hbound⟩ := h.bound_le
  have hmax : (number + 1) * UInt32.size ≤ maxCallDepth * UInt32.size :=
    Nat.mul_le_mul_right _ (Nat.lt_of_le_of_lt hnumber hdepth)
  have hsafe : maxCallDepth * UInt32.size ≤ safeCapacity := by decide
  rw [Nat.succ_mul] at hmax
  omega

theorem Callers.isCaller {r : Revisions} {body : Request} {m : Machine H} {s : FrameStack}
    {isOpen : Bool} {number bound : Nat} {ws ws' : List (Waiting H.Pending)}
    (h : Callers r body m s isOpen number bound ws ws') :
    List.Forall₂ (fun w w' => w.isCaller = true ∧ w'.isCaller = true) ws ws' := by
  induction h with
  | nil => exact .nil
  | plain _ _ _ _ ih | revised _ _ _ _ _ _ ih => exact .cons ⟨rfl, rfl⟩ ih

theorem asked_ne_run (body : CoroutineBody) (ws : List (Waiting H.Pending)) (k : Nat) :
    asked body.request ws ≠ .run k := by
  unfold asked
  split
  · nofun
  · cases body <;> nofun

namespace Drive

variable {d : Drive} {r : Revisions} {m : Machine H} {s : FrameStack} {isOpen : Bool}
  {number bound : Nat} {ws ws' : List (Waiting H.Pending)} {a b : Activation} {x : Stay}
  {outcome : Except RunError (Option Value)}

/-! ## Calls -/

/-- Both machines show the same of the next step. -/
theorem event?_execution (ws : List (Waiting H.Pending)) (focus : Focus) :
    (d.execution r m s ws' focus).event? =
    (⟨m, ws, focus⟩ : Execution H).event? := by
  unfold Execution.event?
  rw [show (d.execution r m s ws' focus).call? = (⟨m, ws, focus⟩ : Execution H).call? from rfl]
  refine Option.bind_congr fun c _ => ?_
  split
  · rfl
  · rw [show (d.execution r m s ws' focus).machine.target c = _ from
      m.target_revised r (d.running s) c]
    rcases m.target c with e | n | body <;> rfl

/-- A method with points is entered for the first time. -/
theorem enters_revised {w : Revision}
    (callers : Callers r d.body.request m s true number bound ws ws')
    (poised : Poised number bound s) (hof : r.of? w.before = some w) {locals : List Value}
    (henters : m.Enters (asked d.body.request ws) { method := w.before, locals })
    (hroom : ws.countP Waiting.isCaller < maxCallDepth) :
    ∃ e, (d.execution r m s ws' (.active { method := w.after, locals })).Leads [] e ∧
      d.Matches r ⟨m, ws, .active { method := w.before, locals }⟩ e := by
  obtain ⟨hzero, hkeeps, hcur⟩ := poised.ready.enter
  obtain ⟨-, -, hanalyzed⟩ := w.transforms.analyzed
  have hcode : w.source.code ≠ [] := by
    obtain ⟨p, hp⟩ := List.exists_mem_of_ne_nil _ w.points
    exact List.ne_nil_of_length_pos (Nat.zero_lt_of_lt (w.transforms.point hp).2)
  obtain ⟨-, -, -, known, hknown, -⟩ := hanalyzed.entry hcode
  have hframe : w.analysed.frame? 0 = some known := hknown
  have hlen : locals.length = known.locals.length := by
    obtain ⟨c, body, -, -, -, henter⟩ := henters
    obtain ⟨rfl, -, -, hlen⟩ := Activation.enter_spec henter
    exact hlen.trans (hanalyzed.uniform _ _ hknown).symm
  have hruns := w.runs_entry (t := m.classes.revise r) (d := d) (m := m.memory)
    (b := { method := w.after, locals }) rfl rfl (Prod.ext hzero rfl)
  refine ⟨_, leads_of_runs hruns, .revised ⟨w, known, locals, number, bound, {}⟩
    (callers.precedes (.refl m) hkeeps) ⟨hof, hframe, ?_, henters, hroom, Nat.zero_lt_succ _⟩ rfl hcur⟩
  exact ⟨rfl, rfl, rfl, hlen, hlen, fun _ _ _ _ => rfl, fun _ _ => ⟨rfl, rfl⟩⟩

/-- A method with code is started alike. -/
theorem matches_start (hfit : d.Fits r m)
    (callers : Callers r d.body.request m s isOpen number bound ws ws')
    (poised : Poised number bound s) {c : Call} {body : LoadedMethod}
    (hcall : (asked d.body.request ws).call? m.memory.heap = some c) (hyield : c.isYield = false)
    (htarget : m.target c = .ok (.code body)) (hopen : r.of? body ≠ none → isOpen = true)
    (focus focus' : Focus) :
    ∃ e, ((d.execution r m s ws' focus').start (r.apply body) c.args).Leads [] e ∧
      d.Matches r ((⟨m, ws, focus⟩ : Execution H).start body c.args) e := by
  have hcount : (d.execution r m s ws' focus').waiting.countP Waiting.isCaller =
      ws.countP Waiting.isCaller := by
    show (ws' ++ [_]).countP Waiting.isCaller = _
    rw [List.countP_append, callers.countP_eq]
    rfl
  rcases Nat.lt_or_ge (ws.countP Waiting.isCaller) maxCallDepth with hroom | hdeep
  · rw [Execution.start_of_room (e := ⟨m, ws, focus⟩) hroom,
      Execution.start_of_room (e := d.execution r m s ws' focus') (hcount ▸ hroom)]
    rcases hof : r.of? body with _ | w
    · rw [Revisions.apply_of_none hof]
      rcases henter : Activation.enter body c.args with error | a
      · exact ⟨_, .refl _, .answer callers poised nofun⟩
      · obtain ⟨rfl, -⟩ := Activation.enter_spec henter
        obtain ⟨entry, hentry, hbody⟩ := Machine.exists_entry_of_target htarget
        exact ⟨_, .refl _, .plain callers poised hof (hfit.plain entry hentry _ hbody)
          (.of_target hcall htarget)⟩
    · obtain rfl := r.before_eq hof
      obtain rfl := hopen (by rw [hof]; nofun)
      rw [Revisions.apply_of_some hof, (hfit.careful hof).enter_after]
      rcases henter : Activation.enter w.before c.args with error | a
      · exact ⟨_, .refl _, .answer callers poised nofun⟩
      · obtain ⟨hmethod, hstack, hpc, -⟩ := Activation.enter_spec henter
        obtain ⟨method, locals, stack, pc⟩ := a
        obtain ⟨rfl, rfl, rfl⟩ : method = w.before ∧ stack = [] ∧ pc = 0 := ⟨hmethod, hstack, hpc⟩
        exact enters_revised callers poised hof ⟨c, w.before, hcall, hyield, htarget, henter⟩ hroom
  · rw [Execution.start_of_deep (e := ⟨m, ws, focus⟩) hdeep,
      Execution.start_of_deep (e := d.execution r m s ws' focus') (hcount ▸ hdeep)]
    exact ⟨_, .refl _, .answer callers poised nofun⟩

/-- A request leads to the same method in both machines. -/
theorem follows_request (hfit : d.Fits r m)
    (callers : Callers r d.body.request m s isOpen number bound ws ws')
    (poised : Poised number bound s)
    (hproper : Execution.Proper r ⟨m, ws, .request (asked d.body.request ws)⟩) :
    d.Follows r ⟨m, ws, .request (asked d.body.request ws)⟩
      (d.execution r m s ws' (.request (asked d.body.request ws))) := by
  obtain ⟨q, hq⟩ : ∃ q, asked d.body.request ws = q := ⟨_, rfl⟩
  have hrun : ∀ k, q ≠ .run k := hq ▸ asked_ne_run d.body ws
  rw [hq] at hproper ⊢
  have hsteps := Leads.step (d.execution r m s ws' (.request q))
  rw [event?_execution ws] at hsteps
  rcases hcall : (⟨m, ws, .request q⟩ : Execution H).call? with _ | c
  · have hstep := Execution.step_of_no_call (e := ⟨m, ws, .request q⟩) rfl hrun hcall
    rw [Execution.step_of_no_call (e := d.execution r m s ws' (.request q)) rfl hrun hcall] at hsteps
    refine ⟨_, hsteps, ?_⟩
    rw [Execution.pass_of_call? hcall, hstep]
    exact .answer callers poised nofun
  -- Here is no yield, for nobody waits at one.
  rcases hyield : c.isYield with _ | _
  case true =>
    obtain ⟨p, ⟨a, request, rest, w, hws, hof, hp, hindex⟩, hpause⟩ := hproper.yields c hcall hyield
    obtain rfl : ws = .caller a request :: rest := hws
    rw [(callers.goesOn hof).1 p hp hindex] at hpause
    cases hpause
  have hm := Execution.precedes_step ⟨m, ws, .request q⟩
  unfold Follows
  rw [Execution.pass_of_not_yield hcall hyield]
  rw [Execution.step_of_call? hcall] at hm ⊢
  rw [Execution.step_of_call? (e := d.execution r m s ws' (.request q)) hcall] at hsteps
  have htarget' := m.target_revised r (d.running s) c
  rcases htarget : m.target c with error | n | body <;> rw [htarget] at htarget'
  · rw [Execution.call_of_error (e := ⟨m, ws, .request q⟩) htarget]
    rw [Execution.call_of_error (e := d.execution r m s ws' (.request q)) htarget'] at hsteps
    exact ⟨_, hsteps, .answer callers poised nofun⟩
  · obtain ⟨answer, host, hdetached⟩ := hproper.natives c n hcall htarget c.args m.host
    have happly := hdetached m.memory.coroutines
    rw [show m.host.withCoroutines m.memory.coroutines = m.host from rfl] at happly
    rw [Execution.call_of_native (e := ⟨m, ws, .request q⟩) htarget happly] at hm ⊢
    rw [Execution.call_of_native (e := d.execution r m s ws' (.request q)) htarget'
      (hdetached (d.running s))] at hsteps
    exact ⟨_, hsteps, .answer (callers.precedes hm (.refl _ _ _)) poised fun _ _ =>
      .of_target (hq ▸ hcall) htarget⟩
  · have hopen (hof : r.of? body ≠ none) : isOpen = true := by
      rcases hproper.enters c body hcall htarget hof with hnil | ⟨p, a, request, rest, w, hws, hw, hp⟩
      · obtain rfl : ws = [] := hnil
        cases callers
        rfl
      · obtain rfl : ws = .caller a request :: rest := hws
        exact (callers.goesOn hw).2 ⟨p, hp⟩
    rw [Execution.call_of_code (e := ⟨m, ws, .request q⟩) htarget]
    rw [Execution.call_of_code (e := d.execution r m s ws' (.request q)) htarget'] at hsteps
    obtain ⟨e, hleads, hmatches⟩ :=
      matches_start hfit callers poised (hq ▸ hcall) hyield htarget hopen (.request q) (.request q)
    refine ⟨e, ?_, hmatches⟩
    rw [← List.append_nil (Option.toList _)]
    exact hsteps.trans hleads

/-! ## Methods without points -/

/-- However a method without points goes on, it goes on alike in both machines. -/
theorem matches_plain {mem : Memory} {progress : Progress} {focus focus' : Focus}
    (callers : Callers r d.body.request (m.withMemory mem) s isOpen number bound ws ws')
    (poised : Poised number bound s) (hplain : r.of? a.method = none)
    (hcode : ∀ op, .frame op ∉ a.method.method.code) (hbelow : Answerable ws)
    (hgoing : ∀ b, progress = .going b → b.method = a.method)
    (hcalling : ∀ b request, progress = .calling b request → b.method = a.method) :
    d.Matches r ((⟨m.withMemory mem, ws, focus⟩ : Execution H).proceed progress)
      ((d.execution r (m.withMemory mem) s ws' focus').proceed progress) := by
  cases progress with
  | going b =>
    rw [← hgoing b rfl] at hplain hcode
    exact .plain callers poised hplain hcode hbelow
  | done outcome => exact .answer callers poised fun _ _ => hbelow
  | calling b request =>
    rw [← hcalling b request rfl] at hplain hcode
    exact .request (.plain callers hplain hcode hbelow) poised

theorem follows_plain (callers : Callers r d.body.request m s isOpen number bound ws ws')
    (poised : Poised number bound s) (hplain : r.of? a.method = none)
    (hcode : ∀ op, .frame op ∉ a.method.method.code) (hbelow : Answerable ws) :
    d.Follows r ⟨m, ws, .active a⟩ (d.execution r m s ws' (.active a)) := by
  have hm := Execution.precedes_step ⟨m, ws, .active a⟩
  rcases hstep : a.step m.classes m.memory with ⟨progress, mem⟩
  have hstep' := Activation.step_parallel (m.classes.agrees_revise r) hcode hstep (d.running s)
  unfold Follows
  rw [Execution.pass_of_call? rfl, Execution.event?_of_call? rfl]
  rw [Execution.step_of_active (e := ⟨m, ws, .active a⟩) rfl hstep] at hm ⊢
  rw [Execution.proceed_machine] at hm
  obtain ⟨-, hgoing, hcalling⟩ := Activation.step_spares (c := m.memory.coroutines.all.size + 1) hstep
    fun op hop => absurd (List.mem_of_getElem? hop) (hcode op)
  exact ⟨_, leads_of_step hstep', matches_plain (callers.precedes hm (.refl _ _ _)) poised hplain hcode
    hbelow hgoing fun b request h => (hcalling b request h).1⟩

/-! ## Errors -/

/-- What nobody can catch goes on to the next caller. -/
theorem follows_fatal {error : RunError} (hfatal : error.IsFatal)
    (callers : List.Forall₂ (fun w w' => w.isCaller = true ∧ w'.isCaller = true) ws ws') :
    d.Follows r ⟨m, ws, .answer (.error error)⟩ (d.execution r m s ws' (.answer (.error error))) := by
  unfold Follows
  rw [Execution.pass_of_call? rfl, Execution.event?_of_call? rfl]
  cases callers with
  | nil => exact ⟨_, .refl _, .fatal hfatal .nil⟩
  | @cons w w' ws ws' hboth hrest =>
    obtain ⟨hcaller, hcaller'⟩ := hboth
    cases w with
    | native | runner => cases hcaller
    | caller a request =>
      cases w' with
      | native | runner => cases hcaller'
      | caller b request' =>
        rw [Execution.step_of_caller (e := ⟨m, .caller a request :: ws, .answer (.error error)⟩) rfl rfl
          (Activation.raise_of_fatal hfatal)]
        exact ⟨_, leads_of_resume (Activation.raise_of_fatal hfatal),
          .fatal hfatal hrest⟩

/-! ## Methods with points -/

/-- An error leads both forms of a method to the same handler, or out of the method. -/
theorem matches_raise {mem mem' : Memory} {error : RunError} {progress : Progress}
    {c : Activation} (focus focus' : Focus) (hcareful : x.revision.Careful)
    (callers : Callers r d.body.request (m.withMemory mem') s true x.number x.base ws ws')
    (hx : x.Spans r (m.withMemory mem') (asked d.body.request ws) (ws.countP Waiting.isCaller) a c)
    (hpc : c.pc = x.revision.place a.pc) (hgoes : x.revision.GoesOn a.pc)
    (hcur : Current x.number x.base x.record s)
    (hthrows : ∀ heap v, error.exception? mem.heap = some (heap, v) → v.isReference = true ∧
      v.isNull = false ∧ m.classes.isInstance heap v Names.suspendExecution = false)
    (hraise : a.raise m.classes error mem = (progress, mem')) :
    ∃ progress', c.raise (m.classes.revise r) error (mem.withCoroutines (d.running s)) =
        (progress', mem'.withCoroutines (d.running s)) ∧
      ∃ e, ((d.execution r (m.withMemory mem') s ws' focus').proceed progress').Leads [] e ∧
        d.Matches r ((⟨m.withMemory mem', ws, focus⟩ : Execution H).proceed progress) e := by
  -- Nobody can catch it, the method itself does, or the frame is released and it is thrown again.
  rcases hexception : error.exception? mem.heap with _ | ⟨heap, v⟩
  · have hfatal := RunError.isFatal_of_exception? hexception
    rw [Activation.raise_of_fatal hfatal] at hraise
    cases hraise
    exact ⟨_, Activation.raise_of_fatal hfatal, _, .refl _, .fatal hfatal callers.isCaller⟩
  obtain ⟨hreference, hnull, hsignal⟩ := hthrows heap v hexception
  rcases hx.mirrors.raises hcareful (m.classes.agrees_revise r) hx.known hgoes hpc hexception hsignal
    (d.running s) with ⟨pc, g, hcaught, hcaught', hg, hmirrors⟩ | ⟨hleft, hleft'⟩
  · rw [hcaught] at hraise
    cases hraise
    exact ⟨_, hcaught', _, .refl _, .revised { x with known := g } callers
      ⟨hx.revised, hg, hmirrors, hx.enters, hx.room, hx.small⟩ rfl hcur⟩
  · rw [hleft] at hraise
    cases hraise
    obtain ⟨s', hrelease, hpoised, hkeeps⟩ := hcur.leave callers.bound_eq_zero
    obtain ⟨c', hruns, hstep⟩ := x.revision.runs_ending (t := m.classes.revise r) (d := d)
      (m := { mem with heap }) (b := { c with stack := [v], pc := x.revision.ending + 1 })
      hx.mirrors.revised rfl rfl hreference hnull hrelease
    refine ⟨_, hleft', _, (leads_of_runs (m := m.withMemory { mem with heap }) hruns).trans
      (leads_of_step hstep), ?_⟩
    exact .answer (callers.precedes (.refl _) hkeeps) hpoised nofun

end Drive

/-- The re-entrant form comes to the instruction where the method stands; at a point, with everything
on record. -/
theorem Stay.Spans.arrives {x : Stay} {r : Revisions} {m : Machine H} {request : Request}
    {depth : Nat} {a b : Activation} {d : Drive} {s : FrameStack} {i : Instr}
    (hx : x.Spans r m request depth a b) (hcareful : x.revision.Careful)
    (hpc : b.pc = x.revision.start a.pc) (hgoes : x.revision.GoesOn a.pc)
    (hcur : Current x.number x.base x.record s) (hroom : x.base + UInt32.size ≤ safeCapacity)
    (hi : x.revision.source.code[a.pc]? = some i)
    (hdeparture : i.departure = [])
    (hpoint : ∀ p ∈ x.revision.plan.points, p.index = a.pc →
      x.known.Holds a ∧ ∀ v ∈ x.known.locals, v.isFresh = false) :
    ∃ record s' c, Runs (m.classes.revise r) b (m.memory.withCoroutines (d.running s)) c
        (m.memory.withCoroutines (d.running s')) ∧
      c.pc = x.revision.place a.pc ∧ Stay.Spans { x with record } r m request depth a c ∧
      Current x.number x.base record s' ∧ Keeps x.number x.base s s' ∧
      ((∀ p ∈ x.revision.plan.points, p.index ≠ a.pc) ∨
        ∃ k p, Stay.Halts { x with record } k p a b ∧ p.isYield = false) := by
  by_cases hnone : ∀ p ∈ x.revision.plan.points, p.index ≠ a.pc
  · -- Nothing stands in front of the instruction.
    refine ⟨x.record, s, b, .refl _ _, ?_, hx, hcur, .refl _ _ _, .inl hnone⟩
    rw [hpc, hcareful.start_eq_place hi hnone hdeparture]
  · push Not at hnone
    obtain ⟨p, hp, hindex⟩ := hnone
    obtain ⟨k, hk⟩ := List.mem_iff_getElem?.1 hp
    obtain ⟨hholds, hbuilt⟩ := hpoint p hp hindex
    have hyield := hgoes p hp hindex
    have hknown : x.revision.analysed.frame? p.index = some x.known := hindex ▸ hx.known
    have hdescribes := hx.mirrors.describes hholds (hcareful.built p hp x.known hknown)
    obtain ⟨s', record, c, hruns, hcpc, hmirrors, hcur', hresumes, hsmall, hkept, hkeeps⟩ :=
      hx.mirrors.runs_point (t := m.classes.revise r) (d := d) (m := m.memory) hcareful hk hyield
        hknown hdescribes hbuilt (hindex ▸ hpc) hcur hroom
    refine ⟨record, s', c, hruns, hindex ▸ hcpc,
      ⟨hx.revised, hx.known, hmirrors, hx.enters, hx.room, hsmall⟩, hcur', hkeeps, .inr ⟨k, p,
        ⟨hk, hindex, hx.known, hbuilt, hdescribes, hx.mirrors, hkept, hresumes⟩, hyield⟩⟩

/-- A return fails only for want of an operand. -/
theorem Exec.isFatal_of_isReturn {t : ClassTable} {op : Opcode} (hop : op.isReturn = true)
    {a : Activation} {m m' : Memory} {error : RunError}
    (h : ((instr t (.simple op)).run a).run m = (.error error, m')) : error.IsFatal := by
  obtain ⟨method, locals, stack, pc⟩ := a
  cases op with
  | ret => cases h
  | ireturn | lreturn | freturn | dreturn | areturn =>
    cases stack with
    | nil =>
      cases h
      exact fun _ => rfl
    | cons => cases h
  | _ => cases hop

theorem Instr.fallsThrough_of_isInvoke {op : Opcode} (h : op.isInvoke = true) (callee : MemberRef) :
    (Instr.invoke op callee).fallsThrough = true := by
  cases op <;> first | rfl | cases h

namespace Drive

variable {d : Drive} {r : Revisions} {m : Machine H} {s : FrameStack} {isOpen : Bool}
  {number bound : Nat} {ws ws' : List (Waiting H.Pending)} {a b : Activation} {x : Stay}
  {outcome : Except RunError (Option Value)}

/-- In front of a return, the re-entrant form releases its frame. -/
theorem follows_return (hfit : d.Fits r m)
    (callers : Callers r d.body.request m s true x.number x.base ws ws')
    (hx : x.Spans r m (asked d.body.request ws) (ws.countP Waiting.isCaller) a b)
    (hpc : b.pc = x.revision.start a.pc) (hgoes : x.revision.GoesOn a.pc)
    (hcur : Current x.number x.base x.record s) {op : Opcode}
    (hi : x.revision.source.code[a.pc]? = some (.simple op)) (hop : op.isReturn = true) :
    d.Follows r ⟨m, ws, .active a⟩ (d.execution r m s ws' (.active b)) := by
  have hcareful := hfit.careful hx.revised
  have hm := Execution.precedes_step ⟨m, ws, .active a⟩
  obtain ⟨s', hrelease, hpoised, hkeeps⟩ := hcur.leave callers.bound_eq_zero
  have hruns := hcareful.runs_departure (t := m.classes.revise r) (d := d) (m := m.memory) hi hop
    hx.mirrors.revised hpc hrelease
  have hmirrors : x.revision.Mirrors x.known x.entered a { b with pc := x.revision.place a.pc } :=
    ⟨hx.mirrors.method, hx.mirrors.revised, hx.mirrors.stack, hx.mirrors.length, hx.mirrors.length',
      hx.mirrors.locals, hx.mirrors.entered⟩
  rcases hstep : a.step m.classes m.memory with ⟨progress, mem⟩
  unfold Follows
  rw [Execution.pass_of_call? rfl, Execution.event?_of_call? rfl]
  rw [Execution.step_of_active (e := ⟨m, ws, .active a⟩) rfl hstep] at hm ⊢
  rw [Execution.proceed_machine] at hm
  have ha : a.method.method.code[a.pc]? = some (.simple op) := by
    rw [hx.mirrors.method]
    exact hi
  have hb : b.method.method.code[x.revision.place a.pc]? = some (.simple op) := by
    rw [hx.mirrors.revised]
    exact hcareful.getElem?_place hi hgoes
  rcases Activation.step_cases ha hstep with ⟨error, m₁, hrun, hraise⟩ | ⟨move, a', hdoes, rfl⟩
  · -- The frame is gone by then, but what fails here is fatal: no handler will look for it.
    have hfatal := Exec.isFatal_of_isReturn hop hrun
    have hrun' := hmirrors.fails hcareful (m.classes.agrees_revise r) hi hx.known hrun (d.running s')
    rw [Activation.raise_of_fatal hfatal] at hraise
    cases hraise
    exact ⟨_, (leads_of_runs hruns).trans (leads_of_step
      ((Activation.step_of_failure hb hrun').trans (Activation.raise_of_fatal hfatal))),
      .fatal hfatal callers.isCaller⟩
  · have hleads := Exec.leads_instr hdoes
    obtain ⟨y, g, hy, hknown, -⟩ := x.revision.exists_step hx.known
    obtain rfl : _ = y := Option.some.inj (hi.symm.trans hy)
    obtain ⟨b', hdoes', -⟩ := hmirrors.does hcareful (m.classes.agrees_revise r) hi hx.known hknown hdoes
      (d.running s')
    cases move with
    | next => exact absurd (hleads op rfl) (by rw [hop]; nofun)
    | goto pc =>
      obtain ⟨l, hl, -⟩ := hleads
      cases hl
    | call request =>
      obtain ⟨_, _, hinvoke⟩ := hleads
      cases hinvoke
    | leave result =>
      exact ⟨_, (leads_of_runs hruns).trans (leads_of_step (Activation.step_of_does hb hdoes')),
        .answer (callers.precedes hm hkeeps) hpoised fun _ _ => hx.enters.answerable⟩

/-- What an instruction does it does in its place in the re-entrant form, too. -/
theorem matches_does {mem : Memory} {c : Activation} {i : Instr} {move : Move} {a' : Activation}
    (hcareful : x.revision.Careful)
    (callers : Callers r d.body.request (m.withMemory mem) s true x.number x.base ws ws')
    (hx : x.Spans r (m.withMemory mem) (asked d.body.request ws) (ws.countP Waiting.isCaller) a c)
    (hpc : c.pc = x.revision.place a.pc) (hgoes : x.revision.GoesOn a.pc)
    (hcur : Current x.number x.base x.record s) (hi : x.revision.source.code[a.pc]? = some i)
    (hreturn : ¬ ∃ op, i = .simple op ∧ op.isReturn = true)
    (hwaits : (∀ p ∈ x.revision.plan.points, p.index ≠ a.pc) ∨
      ∃ k p, x.Halts k p a b ∧ p.isYield = false)
    (hdoes : Exec.Does (Exec.instr m.classes i) a m.memory move a' mem) :
    ∃ e, (d.execution r m s ws' (.active c)).Leads [] e ∧
      d.Matches r ((⟨m.withMemory mem, ws, .active a⟩ : Execution H).proceed (move.progress a.pc a'))
        e := by
  have hc : c.method.method.code[c.pc]? = some i := by
    rw [hx.mirrors.revised, hpc]
    exact hcareful.getElem?_place hi hgoes
  have hleads := Exec.leads_instr hdoes
  -- Past an instruction and at a label, both forms go on.
  have hgoing {a₂ : Activation} (h : move.progress a.pc a' = .going a₂) :
      ∃ e, (d.execution r m s ws' (.active c)).Leads [] e ∧
        d.Matches r ⟨m.withMemory mem, ws, .active a₂⟩ e := by
    obtain ⟨b', b₂, g, hdoes', hprogress, hg, hmirrors, hpc'⟩ := hx.mirrors.leads hcareful
      (m.classes.agrees_revise r) hx.known hpc hi hdoes (d.running s) h
    have hstep := Activation.step_of_does hc hdoes'
    rw [hprogress] at hstep
    exact ⟨_, leads_of_step hstep, .revised { x with known := g } callers
      ⟨hx.revised, hg, hmirrors, hx.enters, hx.room, hx.small⟩ hpc' hcur⟩
  cases move with
  | next => exact hgoing rfl
  | goto pc => exact hgoing rfl
  | leave result => exact absurd hleads hreturn
  | call request =>
    obtain ⟨op, callee, rfl⟩ := hleads
    obtain ⟨y, g, hy, hknown, -⟩ := x.revision.exists_step hx.known
    obtain rfl : _ = y := Option.some.inj (hi.symm.trans hy)
    obtain ⟨b', hdoes', hmirrors, -⟩ := hx.mirrors.does hcareful (m.classes.agrees_revise r) hi
      hx.known hknown hdoes (d.running s)
    obtain ⟨_, _, _, hrequest, hlast⟩ := hdoes.bind
    cases hlast
    obtain ⟨_, _, _, hrequest', hlast'⟩ := hdoes'.bind
    cases hlast'
    obtain ⟨type, -, hop, hmember, ha'⟩ := hrequest.request
    obtain ⟨type', -, -, -, hb'⟩ := hrequest'.request
    have hpc' : a'.pc = a.pc := by rw [ha']; rfl
    obtain ⟨isOpen, hwaits⟩ : ∃ isOpen, x.Waits request a' isOpen := by
      rcases hwaits with hnone | ⟨k, p, halts, hyield⟩
      · exact ⟨false, .within (hpc' ▸ hnone) (by rw [hop, hmember, hpc']; exact hi)⟩
      · exact ⟨true, .point halts hyield hi hrequest.request_of_memory⟩
    refine ⟨_, leads_of_step (Activation.step_of_does hc hdoes'), .request (.revised x callers
      ⟨hx.revised, hpc' ▸ hx.known, hmirrors, hx.enters, hx.room, hx.small⟩ hwaits ?_ hcur.recorded)
      hcur.poised⟩
    rw [hpc', hb']
    exact hpc

/-- Any other instruction than a yield is executed by both forms. -/
theorem follows_revised (hfit : d.Fits r m)
    (callers : Callers r d.body.request m s true x.number x.base ws ws')
    (hx : x.Spans r m (asked d.body.request ws) (ws.countP Waiting.isCaller) a b)
    (hpc : b.pc = x.revision.start a.pc) (hgoes : x.revision.GoesOn a.pc)
    (hcur : Current x.number x.base x.record s) (hproper : Execution.Proper r ⟨m, ws, .active a⟩) :
    d.Follows r ⟨m, ws, .active a⟩ (d.execution r m s ws' (.active b)) := by
  have hcareful := hfit.careful hx.revised
  obtain ⟨i, -, hi, -⟩ := x.revision.exists_step hx.known
  by_cases hreturn : ∃ op, i = .simple op ∧ op.isReturn = true
  · obtain ⟨op, rfl, hop⟩ := hreturn
    exact follows_return hfit callers hx hpc hgoes hcur hi hop
  have hdeparture : i.departure = [] := by
    unfold Instr.departure
    split
    · exact if_neg fun hop => hreturn ⟨_, rfl, hop⟩
    · rfl
  obtain ⟨record, s', c, hruns, hcpc, hspans, hcur', hkeeps, hwaits⟩ := hx.arrives (d := d) hcareful hpc
    hgoes hcur (callers.room hx.room) hi hdeparture fun p hp hindex =>
      (hproper.point a x.revision p x.known rfl (hx.mirrors.method ▸ hx.revised) hp hindex
        hx.known).imp_right And.left
  have hm := Execution.precedes_step ⟨m, ws, .active a⟩
  rcases hstep : a.step m.classes m.memory with ⟨progress, mem⟩
  unfold Follows
  rw [Execution.pass_of_call? rfl, Execution.event?_of_call? rfl]
  rw [Execution.step_of_active (e := ⟨m, ws, .active a⟩) rfl hstep] at hm ⊢
  rw [Execution.proceed_machine] at hm
  have hcallers := callers.precedes hm hkeeps
  replace hspans := hspans.precedes hm
  have ha : a.method.method.code[a.pc]? = some i := by
    rw [hx.mirrors.method]
    exact hi
  rcases Activation.step_cases ha hstep with ⟨error, m₁, hrun, hraise⟩ | ⟨move, a', hdoes, rfl⟩
  · have hc : c.method.method.code[c.pc]? = some i := by
      rw [hspans.mirrors.revised, hcpc]
      exact hcareful.getElem?_place hi hgoes
    have hrun' := hspans.mirrors.fails hcareful (m.classes.agrees_revise r) hi hx.known hrun
      (d.running s')
    have hthrows : ∀ heap v, error.exception? m₁.heap = some (heap, v) → v.isReference = true ∧
        v.isNull = false ∧ m.classes.isInstance heap v Names.suspendExecution = false := by
      intro heap v hexception
      refine hproper.throws ?_
      unfold Execution.exception?
      dsimp only
      rw [ha, Option.bind_some, hrun]
      exact hexception
    obtain ⟨progress', hraise', e, hleads, hmatches⟩ := matches_raise (x := { x with record })
      (.active a) (.active c) hcareful hcallers hspans hcpc hgoes hcur' hthrows hraise
    exact ⟨e, (leads_of_runs hruns).trans ((leads_of_step
      ((Activation.step_of_failure hc hrun').trans hraise')).trans hleads), hmatches⟩
  · obtain ⟨e, hleads, hmatches⟩ := matches_does (x := { x with record }) hcareful hcallers hspans hcpc
      hgoes hcur' hi hreturn hwaits hdoes
    exact ⟨e, (leads_of_runs hruns).trans hleads, hmatches⟩

/-! ## Answers -/

/-- An answer goes to whoever waits on top. -/
theorem follows_answer (hfit : d.Fits r m)
    (callers : Callers r d.body.request m s isOpen number bound ws ws')
    (poised : Poised number bound s) (hanswer : ∀ result, outcome = .ok result → Answerable ws)
    (hproper : Execution.Proper r ⟨m, ws, .answer outcome⟩) :
    d.Follows r ⟨m, ws, .answer outcome⟩ (d.execution r m s ws' (.answer outcome)) := by
  have hm := Execution.precedes_step ⟨m, ws, .answer outcome⟩
  unfold Follows
  rw [Execution.pass_of_call? rfl, Execution.event?_of_call? rfl]
  cases callers with
  | nil => exact ⟨_, .refl _, .answer .nil poised fun _ _ => trivial⟩
  | @plain _ _ _ ws ws' a request callers hplain hcode hbelow =>
    rcases hresume : a.resume m.classes request outcome m.memory with ⟨progress, mem⟩
    have hresume' := Activation.resume_parallel (m.classes.agrees_revise r) hresume (d.running s)
    rw [Execution.step_of_caller (e := ⟨m, .caller a request :: ws, .answer outcome⟩) rfl rfl hresume]
      at hm ⊢
    rw [Execution.proceed_machine] at hm
    obtain ⟨-, hgoing, hcalling⟩ := Activation.resume_spares (c := 0) hresume
    exact ⟨_, leads_of_resume hresume', matches_plain (callers.precedes hm (.refl _ _ _)) poised hplain
      hcode hbelow hgoing fun b request h => absurd h (hcalling b request)⟩
  | @revised _ ws ws' a b request x callers hx hwaits hpc hrec =>
    have hcareful := hfit.careful hx.revised
    have hcur := poised.current hrec
    rcases hresume : a.resume m.classes request outcome m.memory with ⟨progress, mem⟩
    rw [Execution.step_of_caller (e := ⟨m, .caller a request :: ws, .answer outcome⟩) rfl rfl hresume]
      at hm ⊢
    rw [Execution.proceed_machine] at hm
    have hcallers := callers.precedes hm (.refl _ _ _)
    rw [Activation.resume_eq] at hresume
    have hresume' := Activation.resume_eq (m.classes.revise r) b request outcome
      (m.memory.withCoroutines (d.running s))
    rcases hresult : request.result outcome with error | pushed <;> rw [hresult] at hresume hresume'
    · have hthrows : ∀ heap v, error.exception? m.memory.heap = some (heap, v) →
          v.isReference = true ∧ v.isNull = false ∧
            m.classes.isInstance heap v Names.suspendExecution = false := by
        intro heap v hexception
        rcases Call.result_eq_error hresult with rfl | hfatal
        · exact hproper.throws hexception
        · rw [hfatal] at hexception
          cases hexception
      obtain ⟨progress', hraise', e, hleads, hmatches⟩ := matches_raise (.answer outcome)
        (.answer outcome) hcareful hcallers (hx.precedes hm) hpc hwaits.goesOn hcur hthrows
        hresume
      exact ⟨e, (leads_of_resume (hresume'.trans hraise')).trans hleads, hmatches⟩
    · cases hresume
      have hfalls : (Instr.invoke request.op request.member).fallsThrough = true := by
        obtain ⟨result, hok⟩ := Call.exists_of_result hresult
        exact Instr.fallsThrough_of_isInvoke (hanswer result hok) _
      obtain ⟨g, hg, hmirrors⟩ := hx.mirrors.behind hx.known hwaits.code hfalls
      have hspans : Stay.Spans { x with known := g } r (m.withMemory m.memory)
          (asked d.body.request ws) (ws.countP Waiting.isCaller)
          { a with stack := pushed ++ a.stack, pc := a.pc + 1 }
          { b with stack := pushed ++ b.stack, pc := b.pc + 1 } :=
        ⟨hx.revised, hg, hx.mirrors.stack ▸ hmirrors.go _ _ _, (hx.precedes hm).enters, hx.room,
          hx.small⟩
      refine ⟨_, leads_of_resume hresume',
        .revised { x with known := g } hcallers hspans ?_ hcur⟩
      show b.pc + 1 = x.revision.start (a.pc + 1)
      rw [x.revision.start_succ, hpc]

/-- **Step by step.** Each step that is no suspension leads both machines to the same place. -/
theorem follows {e e' : Execution H} (hfit : d.Fits r e.machine) (hproper : e.Proper r)
    (hmatches : d.Matches r e e')
    (hgoes : ∀ a w, e.focus = .active a → r.of? a.method = some w → w.GoesOn a.pc) :
    d.Follows r e e' := by
  cases hmatches with
  | request callers poised => exact follows_request hfit callers poised hproper
  | plain callers poised hplain hcode hbelow =>
    exact follows_plain callers poised hplain hcode hbelow
  | revised x callers hx hpc hcur =>
    exact follows_revised hfit callers hx hpc
      (hgoes _ x.revision rfl (hx.mirrors.method ▸ hx.revised)) hcur hproper
  | answer callers poised hanswer => exact follows_answer hfit callers poised hanswer hproper
  | fatal hfatal callers => exact follows_fatal hfatal callers

end Drive

end Resumable
