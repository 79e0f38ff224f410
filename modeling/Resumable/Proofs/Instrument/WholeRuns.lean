import Resumable.Machine.Bench
import Resumable.Proofs.Coroutine.NestedRuns
import Resumable.Proofs.Instrument.Lockstep

/-!
# Whole runs

What units do in one go, when the suspend call returns at once, their transformed forms do in a
coroutine that is run until it is finished, however often it is suspended on the way
(`ClassTable.Transparent`). Step by step both are at the same place (`Drive.follows`); a yield takes the
coroutine out of the run that it is in and puts it back in the next (`Drive.pauses`). This goes on to
the end (`Drive.drains`).

On the way, the run in one go has to be proper and the methods careful. At the end are two methods for
which less is not enough.
-/

namespace Resumable

open Activation (Runs)
open Execution (Leads Drains events pass)
open FrameStack (Current Keeps Poised Recorded reenter)
open List (Forall₂)

variable {H : Host}

namespace Drive

variable {d : Drive} {r : Revisions} {m : Machine H} {s : FrameStack} {number bound : Nat}
  {ws ws' : List (Waiting H.Pending)} {a b : Activation} {x : Stay} {p : SuspensionPoint}

/-! ## One run of the coroutine -/

/-- A coroutine that pauses starts to run its body. -/
theorem leads_of_begin {coroutines : Coroutines} (hfit : d.Fits r m)
    (hactive : coroutines.active = d.coroutines.active)
    (hbegin : coroutines.begin d.number = .ok (d.running s)) :
    (⟨m.revised r coroutines, [], .request (.run d.number)⟩ : Execution H).Leads []
      (d.execution r m s [] (.request d.body.request)) := by
  have hstep := Leads.of_silent (e := ⟨m.revised r coroutines, [], .request (.run d.number)⟩)
    (Execution.event?_of_call? rfl)
  rw [Execution.step_of_request rfl] at hstep
  unfold Execution.perform Execution.runCoroutine at hstep
  dsimp only at hstep
  rw [show (m.revised r coroutines).memory.coroutines = coroutines from rfl, hbegin] at hstep
  dsimp only at hstep
  rw [show (m.revised r coroutines).bodies = m.bodies from rfl, hfit.body, hactive] at hstep
  exact hstep

/-- A coroutine that is left by the signal is suspended. -/
theorem leads_of_suspension : ∃ e,
    (d.execution r m s [] (.answer (.error .suspension))).Leads [] e ∧
      e.machine = m.revised r (d.suspended s.rewind) ∧ e.outcome? = some (.ok none) ∧
      e.machine.memory.coroutines.state? d.number = some .suspended := by
  have hstep := Leads.of_silent (e := d.execution r m s [] (.answer (.error .suspension)))
    (Execution.event?_of_call? rfl)
  rw [Execution.step_of_runner (show (d.execution r m s [] _).focus = .answer (.error .suspension)
    from rfl) rfl (d.conclude_suspension s)] at hstep
  refine ⟨_, hstep, rfl, rfl, ?_⟩
  show (d.suspended s.rewind).all[d.number]?.map (·.state) = _
  rw [suspended, getElem?_during]
  rfl

/-- A coroutine with any other end is finished. -/
theorem leads_of_end {outcome : Except RunError (Option Value)}
    (h : outcome ≠ .error .suspension) : ∃ e,
    (d.execution r m s [] (.answer outcome)).Leads [] e ∧
      e.machine.host.withCoroutines {} = m.host.withCoroutines {} ∧
      e.outcome? = some (outcome.map fun _ => none) ∧
      e.machine.memory.coroutines.state? d.number = some .finished := by
  have hother : Coroutines.isSuspension (outcome.map fun _ => ()) = false := by
    rw [← Bool.not_eq_true, Scene.isSuspension_iff]
    rintro heq
    rcases outcome with error | result
    · exact h (congrArg Except.error (Except.error.inj heq))
    · cases heq
  have hstep := Leads.of_silent (e := d.execution r m s [] (.answer outcome))
    (Execution.event?_of_call? rfl)
  rw [Execution.step_of_runner (show (d.execution r m s [] _).focus = .answer outcome from rfl)
    rfl (d.conclude_other s hother)] at hstep
  refine ⟨_, hstep, rfl, ?_, ?_⟩
  · rcases outcome with error | result <;> rfl
  · show (d.during .finished s d.coroutines.active).all[d.number]?.map (·.state) = _
    rw [getElem?_during]
    rfl

end Drive

/-! ## Suspensions -/

namespace Execution

variable (m : Machine H) (ws : List (Waiting H.Pending)) {a : Activation} {callee : MemberRef}

/-- At a yield, an uninterrupted run makes three steps: the suspend call is asked for, returns at
once, and the method goes on behind it. -/
theorem pass_yield (hcode : a.method.method.code[a.pc]? = some (.invoke .invokestatic callee))
    (hyield : Names.isYield callee.owner callee.name callee.desc = true) :
    pass ⟨m, ws, .active a⟩ = ⟨m, .caller a ⟨.invokestatic, callee, []⟩ :: ws,
        .request (.call ⟨.invokestatic, callee, []⟩)⟩ ∧
      pass ⟨m, .caller a ⟨.invokestatic, callee, []⟩ :: ws,
        .request (.call ⟨.invokestatic, callee, []⟩)⟩ =
          ⟨m, .caller a ⟨.invokestatic, callee, []⟩ :: ws, .answer (.ok none)⟩ ∧
      pass ⟨m, .caller a ⟨.invokestatic, callee, []⟩ :: ws, .answer (.ok none)⟩ =
        ⟨m, ws, .active { a with pc := a.pc + 1 }⟩ := by
  have htype := MemberRef.type_of_isYield hyield
  refine ⟨?_, pass_of_yield rfl hyield, ?_⟩
  · have hstep : a.step m.classes m.memory = (.calling a ⟨.invokestatic, callee, []⟩, m.memory) :=
      Activation.step_of_does hcode
        (Exec.Does.instr_invoke htype (List.nil_append a.stack).symm rfl)
    rw [pass_of_call? rfl, step_of_active rfl hstep]
    rfl
  · have hresume : a.resume m.classes ⟨.invokestatic, callee, []⟩ (.ok none) m.memory =
        (.going { a with pc := a.pc + 1 }, m.memory) := by
      unfold Activation.resume Exec.methodType
      dsimp only
      rw [htype]
      rfl
    rw [pass_of_call? rfl, step_of_caller rfl rfl hresume]
    rfl

/-- Of these steps, only the pause is seen, and the run is not over in between. -/
theorem events_yield (hcode : a.method.method.code[a.pc]? = some (.invoke .invokestatic callee))
    (hyield : Names.isYield callee.owner callee.name callee.desc = true) :
    events pass 3 ⟨m, ws, .active a⟩ = [.pause] ∧
      pass^[3] ⟨m, ws, .active a⟩ = ⟨m, ws, .active { a with pc := a.pc + 1 }⟩ ∧
      ∀ i < 3, (pass^[i] ⟨m, ws, .active a⟩).outcome? = none := by
  obtain ⟨hfirst, hsecond, hthird⟩ := pass_yield m ws hcode hyield
  have hpause : (⟨m, .caller a ⟨.invokestatic, callee, []⟩ :: ws,
      .request (.call ⟨.invokestatic, callee, []⟩)⟩ : Execution H).event? = some .pause :=
    if_pos hyield
  refine ⟨?_, ?_, fun i hi => ?_⟩
  · simp only [events, hfirst, hsecond, hpause]
    rfl
  · show pass (pass (pass _)) = _
    rw [hfirst, hsecond, hthird]
  · obtain rfl | rfl | rfl : i = 0 ∨ i = 1 ∨ i = 2 := by omega
    · rfl
    · rw [Function.iterate_one, hfirst]
      rfl
    · rw [Function.iterate_succ_apply, Function.iterate_one, hfirst, hsecond]
      rfl

/-- Whoever comes from a yield to the end has gone on behind it, after the pause. -/
theorem beyond_yield (hcode : a.method.method.code[a.pc]? = some (.invoke .invokestatic callee))
    (hyield : Names.isYield callee.owner callee.name callee.desc = true) {n : Nat}
    {outcome : Except RunError (Option Value)}
    (hover : (pass^[n] ⟨m, ws, .active a⟩).outcome? = some outcome) : ∃ rest, n = 3 + rest ∧
      events pass n ⟨m, ws, .active a⟩ =
        .pause :: events pass rest ⟨m, ws, .active { a with pc := a.pc + 1 }⟩ ∧
      ∀ i, pass^[3 + i] ⟨m, ws, .active a⟩ = pass^[i] ⟨m, ws, .active { a with pc := a.pc + 1 }⟩ := by
  obtain ⟨hevents, hthree, hnot⟩ := events_yield m ws hcode hyield
  have hlong : 3 ≤ n := by
    refine Nat.le_of_not_lt fun hlt => ?_
    rw [hnot n hlt] at hover
    cases hover
  obtain ⟨rest, rfl⟩ := Nat.exists_eq_add_of_le hlong
  refine ⟨rest, rfl, ?_, fun i => ?_⟩
  · rw [events_add, hevents, hthree]
    rfl
  · rw [Nat.add_comm, Function.iterate_add_apply, hthree]

end Execution

namespace Drive

variable {d : Drive} {r : Revisions} {m : Machine H} {s : FrameStack}
  {ws ws' : List (Waiting H.Pending)} {a b : Activation} {x : Stay} {k : Nat} {p : SuspensionPoint}

/-- **At a yield**, the coroutine is suspended; once it is run again, it is where the uninterrupted run
is behind the yield. -/
theorem pauses (hfit : d.Fits r m)
    (callers : Callers r d.body.request m s true x.number x.base ws ws')
    (hx : x.Spans r m (asked d.body.request ws) (ws.countP Waiting.isCaller) a b)
    (hpc : b.pc = x.revision.start a.pc)
    (hcur : Current x.number x.base x.record s) (hproper : Execution.Proper r ⟨m, ws, .active a⟩)
    (hp : x.revision.plan.points[k]? = some p) (hindex : p.index = a.pc) (hyield : p.isYield = true) :
    ∃ s' e, (d.execution r m s ws' (.active b)).Leads []
        (d.execution r m s' [] (.answer (.error .suspension))) ∧
      (d.execution r m s'.rewind [] (.request d.body.request)).Leads [] e ∧
      d.Matches r ⟨m, ws, .active { a with pc := a.pc + 1 }⟩ e := by
  have hcareful := hfit.careful hx.revised
  have hmem := List.mem_of_getElem? hp
  have hknown : x.revision.analysed.frame? p.index = some x.known := hindex ▸ hx.known
  obtain ⟨hholds, hbuilt, -⟩ := hproper.point a x.revision p x.known rfl
    (hx.mirrors.method ▸ hx.revised) hmem hindex hx.known
  have hdescribes := hx.mirrors.describes hholds (hcareful.built p hmem x.known hknown)
  obtain ⟨s', record, hleaves, hcur', hresumes, hsmall, hkept, hkeeps⟩ :=
    hx.mirrors.runs_pause (t := m.classes.revise r) (d := d) (m := m.memory) hp hyield hknown
      hdescribes (hindex ▸ hpc) hcur (callers.room hx.room) hfit.signal
  -- Everything is on record, for this method and for all that wait.
  have hcallers := callers.precedes (.refl m) hkeeps
  have halts : Stay.Halts { x with record } k p a b :=
    ⟨hp, hindex, hx.known, hbuilt, hdescribes, hx.mirrors, hkept, hresumes⟩
  have hspans : Stay.Spans { x with record } r m (asked d.body.request ws)
      (ws.countP Waiting.isCaller) a b :=
    ⟨hx.revised, hx.known, hx.mirrors, hx.enters, hx.room, hsmall⟩
  obtain ⟨ws'', hcallers'', hagain⟩ := hcallers.reenters (d := d) hfit.careful
  obtain ⟨c, hcome, hcpc, hmirrors⟩ := halts.reenters (d := d) hspans hcareful hcur'.recorded
    hcallers''.countP_eq
  rw [hcur'.reenter_rewind] at hcome
  rw [hyield, if_pos rfl, hindex] at hcpc
  refine ⟨s', _, (leads_of_leaves hleaves).trans (hcallers.unwinds hfit.careful hfit.signal s'),
    hagain.trans hcome, ?_⟩
  obtain ⟨callee, hcode, his⟩ := x.revision.transforms.of_isYield hmem hyield
  rw [hindex] at hcode
  obtain ⟨g, hg, hmirrors'⟩ := hmirrors.behind hx.known hcode rfl
  refine .revised { x with known := g, record } hcallers''
    ⟨hx.revised, hg, ?_, hx.enters, hx.room, hsmall⟩ hcpc hcur'
  exact ⟨hmirrors'.method, hmirrors'.revised, hmirrors'.stack, hmirrors'.length, hmirrors'.length',
    hmirrors'.locals, hmirrors'.entered⟩

/-- What comes of the coroutine once it is run again comes of it from the yield on, after the pause. -/
theorem drains_of_pause {e e' : Execution H} {seen : List (Execution.Event H)} {m' : Machine H}
    {s' : FrameStack}
    {outcome : Except RunError (Option Value)} (hfit : d.Fits r m)
    (hsuspends : e.Leads [] (d.execution r m s' [] (.answer (.error .suspension))))
    (hagain : (d.execution r m s'.rewind [] (.request d.body.request)).Leads [] e')
    (h : Drains d.number e' seen m' outcome) : Drains d.number e (.pause :: seen) m' outcome := by
  obtain ⟨e₁, hleads, hmachine, hover, hstate⟩ :=
    leads_of_suspension (d := d) (r := r) (m := m) (s := s')
  show Drains _ _ ([] ++ .pause :: _) _ _
  refine .again (hsuspends.trans hleads) hover hstate ?_
  rw [hmachine]
  have hbegin := leads_of_begin hfit (show (d.suspended s'.rewind).active = _ from rfl)
    (d.begin_during s'.rewind (.inr rfl) d.coroutines.active)
  exact .of_leads (hbegin.trans hagain) h

/-! ## Until the end -/

/-- At the end of the uninterrupted run, the coroutine ends as well. -/
theorem drains_end {e e' : Execution H} {outcome : Except RunError (Option Value)}
    (hfit : d.Fits r e.machine)
    (hproper : e.Proper r) (hmatches : d.Matches r e e') (hover : e.outcome? = some outcome) :
    ∃ m, Drains d.number e' [] m (outcome.map fun _ => none) ∧
      m.host.withCoroutines {} = e.machine.host.withCoroutines {} := by
  -- The signal is not thrown.
  have hother {machine : Machine H}
      (hsignal : (machine.memory.heap.object 0).type = Names.suspendExecution)
      (hproper : Execution.Proper r ⟨machine, [], .answer outcome⟩) :
      outcome ≠ .error .suspension := by
    rintro rfl
    obtain ⟨-, -, hnot⟩ := hproper.throws
      (show _ = some (machine.memory.heap, Heap.signal) from rfl)
    rw [Analysed.Layout.isInstance_signal hsignal] at hnot
    cases hnot
  have hends {machine : Machine H} {s : FrameStack}
      (hsignal : (machine.memory.heap.object 0).type = Names.suspendExecution)
      (hproper : Execution.Proper r ⟨machine, [], .answer outcome⟩) :
      ∃ m, Drains d.number (d.execution r machine s [] (.answer outcome)) [] m
          (outcome.map fun _ => none) ∧
        m.host.withCoroutines {} = machine.host.withCoroutines {} := by
    obtain ⟨e, hleads, hhost, hover, hstate⟩ :=
      leads_of_end (d := d) (r := r) (s := s) (hother hsignal hproper)
    exact ⟨e.machine, .last hleads hover hstate, hhost⟩
  cases hmatches with
  | request | plain | revised => cases hover
  | @answer m s _ _ _ ws ws' _ callers =>
    rcases ws with _ | ⟨w, ws⟩
    · cases hover
      cases callers
      exact hends hfit.signal hproper
    · cases hover
  | @fatal m s ws ws' error hfatal callers =>
    rcases ws with _ | ⟨w, ws⟩
    · cases hover
      cases callers
      exact hends hfit.signal hproper
    · cases hover

/-- **The whole run.** From the same place, the uninterrupted run and the coroutine show the same, and
come to the same end. -/
theorem drains {e e' : Execution H} {outcome : Except RunError (Option Value)} {n : Nat}
    (hfit : d.Fits r e.machine) (hmatches : d.Matches r e e')
    (hproper : ∀ i ≤ n, (pass^[i] e).Proper r) (hover : (pass^[n] e).outcome? = some outcome) :
    ∃ m, Drains d.number e' (events pass n e) m (outcome.map fun _ => none) ∧
      m.host.withCoroutines {} = (pass^[n] e).machine.host.withCoroutines {} := by
  -- By induction on the number of passes: a yield takes three of them, anything else one.
  induction n using Nat.strong_induction_on generalizing e e' with
  | _ n ih =>
  by_cases hyield : ∃ a w p, e.focus = .active a ∧ r.of? a.method = some w ∧ p ∈ w.plan.points ∧
    p.index = a.pc ∧ p.isYield = true
  · obtain ⟨a, w, p, hfocus, hof, hp, hindex, hpause⟩ := hyield
    cases hmatches with
    | request | answer | fatal => cases hfocus
    | plain _ _ hplain =>
      cases hfocus
      rw [hplain] at hof
      cases hof
    | @revised m s ws ws' _ b x callers hx hpc hcur =>
      cases hfocus
      rw [hx.mirrors.method, hx.revised] at hof
      cases hof
      obtain ⟨callee, hcode, his⟩ := x.revision.transforms.of_isYield hp hpause
      rw [hindex] at hcode
      have hat : a.method.method.code[a.pc]? = some (.invoke .invokestatic callee) := by
        rw [hx.mirrors.method]
        exact hcode
      obtain ⟨rest, rfl, hevents, hrest⟩ := Execution.beyond_yield m ws hat his hover
      obtain ⟨k, hk⟩ := List.mem_iff_getElem?.1 hp
      obtain ⟨s', e'', hsuspends, hagain, hmatches'⟩ := pauses hfit callers hx hpc hcur
        (hproper 0 (Nat.zero_le _)) hk hindex hpause
      obtain ⟨m', hdrains, hhost⟩ := ih rest (by omega) (e := ⟨m, ws, .active { a with pc := a.pc + 1 }⟩)
        hfit hmatches' (fun i hi => hrest i ▸ hproper (3 + i) (by omega)) (hrest rest ▸ hover)
      exact ⟨m', hevents ▸ drains_of_pause hfit hsuspends hagain hdrains, hrest rest ▸ hhost⟩
  · rcases n with _ | n
    · exact drains_end hfit (hproper 0 (Nat.le_refl _)) hmatches hover
    obtain ⟨e'', hleads, hmatches'⟩ := follows hfit (hproper 0 (Nat.zero_le _)) hmatches
      fun a w hfocus hof p hp hindex => by
        rw [← Bool.not_eq_true]
        exact fun hpause => hyield ⟨a, w, p, hfocus, hof, hp, hindex, hpause⟩
    obtain ⟨m', hdrains, hhost⟩ := ih n (Nat.lt_succ_self n) (hfit.precedes e.precedes_pass) hmatches'
      (fun i hi => hproper (i + 1) (Nat.succ_le_succ hi)) hover
    exact ⟨m', .of_leads hleads hdrains, hhost⟩

end Drive

/-! ## Transformed units -/

namespace ClassTable

theorem Plain.insert {t : ClassTable} (h : t.Plain) {c : ClassDef}
    (hc : ∀ m ∈ c.methods, ∀ op, .frame op ∉ m.code) : (t.insert c).Plain := by
  intro entry hentry m hm
  rcases List.mem_cons.1 hentry with rfl | hentry
  · obtain ⟨source, hsource, rfl⟩ := List.mem_map.1 hm
    exact hc source hsource
  · exact h entry (List.mem_filter.1 hentry).1 m hm

theorem plain_table : Platform.table.Plain := by
  have hall : ∀ entry ∈ Platform.table.entries, ∀ m ∈ entry.2.methods, ∀ i ∈ m.method.code,
      i.opcode.isFrameOp = false := by decide +kernel
  intro entry hentry m hm op hop
  have hnot := hall entry hentry m hm _ hop
  cases op <;> cases hnot

theorem plain_of_loaded {units : List ClassDef} {t : ClassTable}
    (hplain : ∀ c ∈ units, ∀ m ∈ c.methods, ∀ op, .frame op ∉ m.code)
    (hload : units.foldlM load Platform.table = .ok t) : t.Plain := by
  suffices hall : ∀ start : ClassTable, start.Plain → units.foldlM load start = .ok t → t.Plain from
    hall _ plain_table hload
  clear hload
  induction units with
  | nil =>
    intro start hstart hload
    cases hload
    exact hstart
  | cons c units ih =>
    intro start hstart hload
    rw [List.foldlM_cons] at hload
    obtain ⟨next, hnext, hload⟩ := bind_eq_ok.1 hload
    obtain ⟨-, rfl⟩ := load_eq_ok hnext
    exact ih (fun c hc => hplain c (List.mem_cons_of_mem _ hc)) (start.insert c)
      (hstart.insert (hplain c List.mem_cons_self)) hload

end ClassTable

/-- There is a coroutine with this number and this body that has never been run, and the object of the
signal is there. -/
structure Machine.Offers (m : Machine H) (k : Nat) (body : CoroutineBody) : Prop where
  body : m.bodies[k]? = some body
  fresh : ∃ size locals, m.memory.coroutines.all[k]? = some { stack := .ofSize size, locals }
  signal : (m.memory.heap.object 0).type = Names.suspendExecution

/-- The body of a coroutine, called in one go. -/
def Machine.calling (m : Machine H) (body : CoroutineBody) : Execution H :=
  { machine := m, focus := .request body.request }

namespace ClassTable

/-- **A coroutine does with the revised methods what its body does in one go.** If the body is called in
one go, the run comes to an end, and all is up to there as it is assumed to be, then the coroutine is
finished once it has been run often enough: the same methods of the host are called, with the same
arguments and in the same states, there is a pause wherever the suspend call returned at once, and the
end is the same. -/
def Transparent (t : ClassTable) (r : Revisions) (assumed : Execution H → Prop) : Prop :=
  ∀ (m : Machine H) (k : Nat) (body : CoroutineBody) (n : Nat)
    (outcome : Except RunError (Option Value)),
    m.classes = t → m.Offers k body → (∀ i ≤ n, assumed (pass^[i] (m.calling body))) →
    (pass^[n] (m.calling body)).outcome? = some outcome →
    ∃ m', Drains k ⟨m.revised r m.memory.coroutines, [], .request (.run k)⟩
        (events pass n (m.calling body)) m' (outcome.map fun _ => none) ∧
      m'.host.withCoroutines {} = (pass^[n] (m.calling body)).machine.host.withCoroutines {}

end ClassTable

/-! ### Methods on a bench -/

/-- A class with one method. -/
def ClassDef.only (m : Method) : ClassDef :=
  { name := "app/A", superName := some Names.object, methods := [m] }

/-- What is loaded with it. -/
def ClassTable.only (m : Method) : ClassTable := Platform.table.insert (.only m)

/-- One method has been transformed. -/
def Revisions.only (w : Revision) : Revisions where
  of? m := if w.before = m then some w else none
  before_eq h := by
    split at h
    · rename_i heq
      cases h
      exact heq
    · cases h

theorem Revisions.of?_only {w w' : Revision} {m : LoadedMethod} (h : (only w).of? m = some w') :
    w' = w := by
  unfold only at h
  dsimp only at h
  split at h
  · exact (Option.some.inj h).symm
  · cases h

/-- A static method with its arguments is the body of a coroutine. -/
def CoroutineBody.only (m : Method) (args : List Value) : CoroutineBody :=
  .static ⟨"app/A", m.name, m.desc⟩ args

/-- A bench with the class of a method, and a coroutine. -/
def Machine.hosting (m : Method) (args : List Value) : Machine benchHost :=
  { (Bench.new {} .empty).machine with
    classes := .only m
    bodies := #[.only m args]
    host.memory.coroutines.all := #[{ stack := .ofSize 1 }] }

theorem Machine.offers_hosting (m : Method) (args : List Value) :
    (hosting m args).Offers 0 (.only m args) :=
  ⟨rfl, ⟨1, [], rfl⟩, rfl⟩

/-- The method in one go. -/
def Execution.original (m : Method) (args : List Value) : Execution benchHost :=
  (Machine.hosting m args).calling (.only m args)

/-- The first run of the coroutine. -/
def Execution.resumable (w : Revision) (args : List Value) : Execution benchHost :=
  ⟨(Machine.hosting w.source args).revised (.only w) (Machine.hosting w.source args).memory.coroutines,
    [], .request (.run 0)⟩

/-- A revision that the bench makes. -/
structure Revision.OnBench (w : Revision) : Prop where
  load : [ClassDef.only w.source].foldlM ClassTable.load Platform.table = .ok (.only w.source)
  gives : Gives (Inquiry.instrument (.only w.source))
    { ClassDef.only w.target with markers := [Names.instrumented] }
  revised : [{ ClassDef.only w.target with markers := [Names.instrumented] }].foldlM ClassTable.load
    Platform.table = .ok ((ClassTable.only w.source).revise (.only w))

/-- What has been analysed becomes this method, and it is a revision. -/
structure Analysed.Becomes (a : Analysed) (plan : MethodPlan) (m' : Method) : Prop where
  transforms : Transforms a.owner a.method a plan m'
  points : plan.points ≠ []
  labels : a.method.HasLabels (4 + 3 * plan.points.length)
  plain : ∀ op, .frame op ∉ a.method.code

namespace Analysed.Becomes

variable {a : Analysed} {plan : MethodPlan} {m' : Method}

/-- The revision. -/
def revision (h : a.Becomes plan m') : Revision :=
  ⟨a, plan, m', h.transforms, h.points, h.labels, h.plain⟩

/-- On the bench, the transformation comes to this. -/
theorem of_bench
    (hanalysed : ((Analysed.of a.owner a.method).run.run (Bench.new {} .empty).database).1 = .ok a)
    (hplan : (a.plan.run (Bench.new {} .empty).database).1 = (plan, .ok ()))
    (hwritten : ((a.body plan).run.run (Bench.new {} .empty).database).1 = .ok m')
    (hpoints : plan.points ≠ []) (hlabels : a.method.HasLabels (4 + 3 * plan.points.length))
    (hplain : ∀ i ∈ a.method.code, i.opcode.isFrameOp = false) : a.Becomes plan m' := by
  refine ⟨.of_database _ hanalysed hplan hwritten, hpoints, hlabels, fun op hop => ?_⟩
  have hnot := hplain _ hop
  cases op <;> cases hnot

end Analysed.Becomes

/-- Calls itself down to 0 and pauses there. On the way back, the arguments go to the host. -/
def descending : Method :=
  { name := "main", desc := "(I)V", access := .static, maxLocals := 1
    throws := [Names.suspendExecution]
    code := [.local .iload 0, .jump .ifeq ⟨0⟩, .local .iload 0, .const (.int 1), .simple .isub,
      .invoke .invokestatic ⟨"app/A", "main", "(I)V"⟩, .local .iload 0,
      .invoke .invokestatic ⟨"app/Trace", "record", "(I)V"⟩, .simple .ret, .label ⟨0⟩,
      .invoke .invokestatic ⟨Names.coroutine, Names.yieldName, Names.yieldDesc⟩, .simple .ret] }

/-- Where it can be suspended. -/
def descendingPoints : List SuspensionPoint :=
  [{ index := 5, isYield := false, stack := [.saved .int 0], locals := [(0, .saved .int 1)]
     slots := 2 },
    { index := 10, isYield := true, stack := [], locals := [(0, .saved .int 0)], slots := 1 }]

/-- What becomes of it. -/
def descendingBody : Method :=
  { descending with
    code := [.frame .entry, .switch 1 ⟨1⟩ [⟨5⟩, ⟨6⟩], .label ⟨1⟩, .local .iload 0, .jump .ifeq ⟨0⟩,
      .local .iload 0, .const (.int 1), .simple .isub, .label ⟨7⟩, .frame (.reserve 1 2),
      .frame (.save .int 0), .local .iload 0, .frame (.save .int 1), .label ⟨5⟩,
      .frame (.restore .int 1), .local .istore 0, .frame (.restore .int 0), .label ⟨9⟩,
      .invoke .invokestatic ⟨"app/A", "main", "(I)V"⟩, .local .iload 0,
      .invoke .invokestatic ⟨"app/Trace", "record", "(I)V"⟩, .frame .release, .simple .ret,
      .label ⟨0⟩, .label ⟨8⟩, .frame (.reserve 2 1), .local .iload 0, .frame (.save .int 0),
      .frame .suspend, .label ⟨6⟩, .frame (.restore .int 0), .local .istore 0, .label ⟨10⟩,
      .frame .release, .simple .ret, .label ⟨2⟩, .label ⟨4⟩, .frame .release, .label ⟨3⟩,
      .simple .athrow]
    handlers := [⟨⟨1⟩, ⟨2⟩, ⟨3⟩, some Names.suspendExecution⟩, ⟨⟨1⟩, ⟨2⟩, ⟨4⟩, none⟩] }

/-- What the analysis finds in it. -/
def descendingAnalysed : Analysed :=
  ⟨"app/A", descending,
    #[some ⟨[.int], []⟩, some ⟨[.int], [.int]⟩, some ⟨[.int], []⟩, some ⟨[.int], [.int]⟩,
      some ⟨[.int], [.int, .int]⟩, some ⟨[.int], [.int]⟩, some ⟨[.int], []⟩, some ⟨[.int], [.int]⟩,
      some ⟨[.int], []⟩, some ⟨[.int], []⟩, some ⟨[.int], []⟩, some ⟨[.int], []⟩]⟩

theorem becomes_descending : descendingAnalysed.Becomes ⟨descendingPoints, []⟩ descendingBody :=
  .of_bench (by cbv) rfl (by decide +kernel) (List.cons_ne_nil _ _) (by decide +kernel)
    (by decide +kernel)

def Revision.descending : Revision := becomes_descending.revision

theorem Revision.onBench_descending : descending.OnBench :=
  ⟨by decide +kernel, ⟨(Bench.new {} .empty).database, _, Prod.ext (by decide +kernel) rfl⟩,
    by decide +kernel⟩

theorem Revision.careful_descending : descending.Careful := by
  have hall : ∀ f ∈ descending.analysed.frames, f.all fun f =>
      f.locals = [.int] ∧ ∀ t ∈ f.stack, t = .int := by decide +kernel
  have hframes (i : Nat) (f : Frame) (hf : descending.analysed.frame? i = some f) :
      f.locals = [.int] ∧ ∀ t ∈ f.stack, t = .int := by
    have hf' := hall _ (Array.mem_of_getElem? (Option.join_eq_some_iff.1 hf))
    rwa [Option.all_some, decide_eq_true_iff] at hf'
  refine ⟨⟨fun i x f slot _ hf _ hunknown => ?_, nofun⟩, fun p _ f hf t ht => ?_⟩
  · rw [(hframes i f hf).1] at hunknown
    rcases slot with _ | slot <;> cases hunknown
  · rw [(hframes _ f hf).2 t ht]
    rfl

/-- A static method that reads no locals is disciplined. -/
theorem Revision.disciplined_of_static {w : Revision} (hstatic : w.source.isStatic = true)
    (hreads : ∀ x ∈ w.source.code, ∀ slot, ¬ x.Reads slot) : w.Disciplined := by
  refine ⟨fun i x f slot hx _ hread => ?_, fun hnot => ?_⟩
  · exact absurd hread (hreads x (List.mem_of_getElem? hx) slot)
  · rw [hstatic] at hnot
    cases hnot

/-- Builds an object across a yield that is jumped over. -/
def allocating : Method :=
  { name := "main", desc := "()V", access := .static, maxLocals := 0
    throws := [Names.suspendExecution]
    code := [.type .new Names.object, .const (.int 0), .jump .ifeq ⟨0⟩,
      .invoke .invokestatic ⟨Names.coroutine, Names.yieldName, Names.yieldDesc⟩, .label ⟨0⟩,
      .simple .pop, .const (.int 7), .invoke .invokestatic ⟨"app/Trace", "record", "(I)V"⟩,
      .simple .ret] }

/-- What the analysis knows of the object. -/
def allocated : FlowValue := .fresh Names.object 0 0 false

/-- What becomes of it: the allocation is left out. -/
def allocatingBody : Method :=
  { allocating with
    code := [.frame .entry, .switch 1 ⟨1⟩ [⟨5⟩], .label ⟨1⟩, .const (.int 0), .jump .ifeq ⟨0⟩,
      .label ⟨6⟩, .frame (.reserve 1 0), .frame .suspend, .label ⟨5⟩, .label ⟨7⟩, .label ⟨0⟩,
      .simple .pop, .const (.int 7), .invoke .invokestatic ⟨"app/Trace", "record", "(I)V"⟩,
      .frame .release, .simple .ret, .label ⟨2⟩, .label ⟨4⟩, .frame .release, .label ⟨3⟩,
      .simple .athrow]
    handlers := [⟨⟨1⟩, ⟨2⟩, ⟨3⟩, some Names.suspendExecution⟩, ⟨⟨1⟩, ⟨2⟩, ⟨4⟩, none⟩] }

/-- Where it can be suspended, without the object. -/
def allocatingPoint : SuspensionPoint :=
  { index := 3, isYield := true, stack := [.omitted], locals := [], slots := 0 }

/-- What the analysis finds in it. -/
def allocatingAnalysed : Analysed :=
  ⟨"app/A", allocating,
    #[some ⟨[], []⟩, some ⟨[], [allocated]⟩, some ⟨[], [.int, allocated]⟩, some ⟨[], [allocated]⟩,
      some ⟨[], [allocated]⟩, some ⟨[], [allocated]⟩, some ⟨[], []⟩, some ⟨[], [.int]⟩, some ⟨[], []⟩]⟩

theorem becomes_allocating :
    allocatingAnalysed.Becomes ⟨[allocatingPoint], [0]⟩ allocatingBody :=
  .of_bench (by cbv) rfl (by decide +kernel) (List.cons_ne_nil _ _) (by decide +kernel)
    (by decide +kernel)

def Revision.allocating : Revision := becomes_allocating.revision

theorem Revision.onBench_allocating : allocating.OnBench :=
  ⟨by decide +kernel, ⟨(Bench.new {} .empty).database, _, Prod.ext (by decide +kernel) rfl⟩,
    by decide +kernel⟩

/-- Calls a method of the host that throws null. -/
def failing : Method :=
  { name := "main", desc := "()V", access := .static, maxLocals := 0
    throws := [Names.suspendExecution]
    code := [.const (.int 15), .invoke .invokestatic ⟨"app/Host", "fail", "(I)V"⟩,
      .invoke .invokestatic ⟨Names.coroutine, Names.yieldName, Names.yieldDesc⟩, .simple .ret] }

/-- What becomes of it: what the host throws is caught and thrown again. -/
def failingBody : Method :=
  { failing with
    code := [.frame .entry, .switch 1 ⟨0⟩ [⟨4⟩], .label ⟨0⟩, .const (.int 15),
      .invoke .invokestatic ⟨"app/Host", "fail", "(I)V"⟩, .label ⟨5⟩, .frame (.reserve 1 0),
      .frame .suspend, .label ⟨4⟩, .label ⟨6⟩, .frame .release, .simple .ret, .label ⟨1⟩, .label ⟨3⟩,
      .frame .release, .label ⟨2⟩, .simple .athrow]
    handlers := [⟨⟨0⟩, ⟨1⟩, ⟨2⟩, some Names.suspendExecution⟩, ⟨⟨0⟩, ⟨1⟩, ⟨3⟩, none⟩] }

/-- Where it can be suspended. -/
def failingPoint : SuspensionPoint :=
  { index := 2, isYield := true, stack := [], locals := [], slots := 0 }

/-- What the analysis finds in it. -/
def failingAnalysed : Analysed :=
  ⟨"app/A", failing,
    #[some ⟨[], []⟩, some ⟨[], [.int]⟩, some ⟨[], []⟩, some ⟨[], []⟩]⟩

theorem becomes_failing : failingAnalysed.Becomes ⟨[failingPoint], []⟩ failingBody :=
  .of_bench (by cbv) rfl (by decide +kernel) (List.cons_ne_nil _ _) (by decide +kernel)
    (by decide +kernel)

def Revision.failing : Revision := becomes_failing.revision

theorem Revision.onBench_failing : failing.OnBench :=
  ⟨by decide +kernel, ⟨(Bench.new {} .empty).database, _, Prod.ext (by decide +kernel) rfl⟩,
    by decide +kernel⟩

theorem Revision.careful_failing : failing.Careful := by
  refine ⟨disciplined_of_static rfl ?_, fun p hp f hf t ht => ?_⟩
  · show ∀ x ∈ Resumable.failing.code, ∀ slot, ¬ x.Reads slot
    simp [Resumable.failing, Instr.Reads]
  · obtain rfl := List.mem_singleton.1 hp
    cases hf
    cases ht

/-- If the coroutine comes to another end than the method in one go, something else is needed. -/
theorem ClassTable.not_transparent_of_outcome (w : Revision) (n count : Nat)
    (outcome outcome' : Except RunError (Option Value))
    (hadmissible : ∀ i ≤ n, (pass^[i] (.original w.source [])).isAdmissible (.only w) = true)
    (hover : (pass^[n] (.original w.source [])).outcome? = some outcome)
    (hover' : (Execution.step^[count] (.resumable w [])).outcome? = some outcome')
    (hstate : (Execution.step^[count] (.resumable w [])).machine.memory.coroutines.state? 0 =
      some .finished)
    (hne : outcome' ≠ outcome.map fun _ => none) :
    ¬ (ClassTable.only w.source).Transparent (.only w)
      (Execution.Admissible (H := benchHost) (.only w)) := by
  intro h
  obtain ⟨m', hdrains, -⟩ := h (Machine.hosting w.source []) 0 (.only w.source []) n outcome rfl
    (Machine.offers_hosting w.source [])
    (fun i hi => Execution.admissible_of_isAdmissible (hadmissible i hi)) hover
  exact hne (hdrains.unique (.last ⟨count, rfl, rfl⟩ hover' hstate)).2.2

end Resumable
