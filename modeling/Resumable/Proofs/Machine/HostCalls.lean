import Resumable.Proofs.Machine.Executions

/-!
# What the host sees of an execution

A machine is watched through the methods of its host: which of them are called, with which
arguments, and in which state the host is at the call (`HostCall`). Coroutines are not part of what
is seen. Between such calls there may be pauses.

A run can be watched in two ways. In an uninterrupted run the suspend call does nothing but return
(`Execution.pass`), and each such call counts as a pause. A coroutine, on the other hand, is run until
it is suspended, then run again, and so on until it is finished (`Execution.Drains`), and there is a
pause between any two of these runs. What is seen of it, and its end, are settled by where it starts
(`Execution.Drains.unique`).
-/

namespace Resumable

/-! ## Calls -/

/-- The memory with other coroutines. -/
def Memory.withCoroutines (m : Memory) (coroutines : Coroutines) : Memory := { m with coroutines }

/-- The state of the host with other coroutines. -/
def HostState.withCoroutines {σ : Type} (s : HostState σ) (coroutines : Coroutines) : HostState σ :=
  { s with memory := s.memory.withCoroutines coroutines }

/-- A method of the host is called. -/
structure HostCall (H : Host) where
  native : H.Native
  call : Call
  /-- The state in which the host is, without any coroutines. -/
  host : HostState H.State

/-- What can be seen of an execution. -/
inductive Execution.Event (H : Host) where
  | host (call : HostCall H)
  | pause

/-- Whatever the method is called with, it answers at once; and neither does it look at coroutines nor
change any. -/
def Host.Detached (H : Host) (n : H.Native) : Prop :=
  ∀ args (s : HostState H.State), ∃ outcome, ∃ s' : HostState H.State, ∀ coroutines,
    H.apply n args (s.withCoroutines coroutines) = (.answer outcome, s'.withCoroutines coroutines)

/-- The suspend call is called by its own name. -/
def Call.isYield (c : Call) : Bool := Names.isYield c.member.owner c.member.name c.member.desc

variable {H : Host}

namespace Execution

/-- What is seen of the next step. -/
def event? (e : Execution H) : Option (Event H) :=
  e.call?.bind fun c =>
    if c.isYield then some .pause
    else match e.machine.target c with
      | .ok (.native n) => some (.host ⟨n, c, e.machine.host.withCoroutines {}⟩)
      | _ => none

/-- A step of an uninterrupted run: the suspend call returns at once. -/
def pass (e : Execution H) : Execution H :=
  if e.call?.any Call.isYield then e.answer (.ok none) else e.step

/-- What is seen of so many steps. -/
def events (next : Execution H → Execution H) : (count : Nat) → Execution H → List (Event H)
  | 0, _ => []
  | count + 1, e => e.event?.toList ++ events next count (next e)

/-- Steps lead from the first execution to the second, and this is seen of them. -/
def Leads (e : Execution H) (seen : List (Event H)) (e' : Execution H) : Prop :=
  ∃ count, step^[count] e = e' ∧ events step count e = seen

/-- Going on from here, the coroutine number `k` is run until it is finished. This is seen of its runs,
with a pause between any two of them. The machine is in the end as given, and so is the outcome of the
last run. -/
inductive Drains (k : Nat) :
    Execution H → List (Event H) → Machine H → Except RunError (Option Value) → Prop where
  | last {e e' : Execution H} {seen : List (Event H)} {outcome : Except RunError (Option Value)}
    (h : e.Leads seen e') (hover : e'.outcome? = some outcome)
    (hstate : e'.machine.memory.coroutines.state? k = some .finished) :
    Drains k e seen e'.machine outcome
  | again {e e' : Execution H} {seen rest : List (Event H)} {m : Machine H}
    {outcome : Except RunError (Option Value)} (h : e.Leads seen e')
    (hover : e'.outcome? = some (.ok none))
    (hstate : e'.machine.memory.coroutines.state? k = some .suspended)
    (hrest : Drains k { machine := e'.machine, focus := .request (.run k) } rest m outcome) :
    Drains k e (seen ++ .pause :: rest) m outcome

variable {e e' e'' : Execution H} {seen seen' rest : List (Event H)} {a b : Activation}
  {m m' : Memory} {k : Nat}

/-! ## Following an execution -/

theorem events_add (next : Execution H → Execution H) (count more : Nat) (e : Execution H) :
    events next (count + more) e = events next count e ++ events next more (next^[count] e) := by
  induction count generalizing e with
  | zero => rw [Nat.zero_add, events, Function.iterate_zero_apply, List.nil_append]
  | succ count ih =>
    rw [Nat.add_right_comm, events, events, ih, Function.iterate_succ_apply, List.append_assoc]

theorem Leads.refl (e : Execution H) : e.Leads [] e := ⟨0, rfl, rfl⟩

theorem Leads.trans (h : e.Leads seen e') (h' : e'.Leads rest e'') :
    e.Leads (seen ++ rest) e'' := by
  obtain ⟨count, rfl, rfl⟩ := h
  obtain ⟨more, rfl, rfl⟩ := h'
  exact ⟨count + more, by rw [Nat.add_comm, Function.iterate_add_apply],
    events_add step count more e⟩

theorem Leads.step (e : Execution H) : e.Leads e.event?.toList e.step :=
  ⟨1, rfl, List.append_nil _⟩

/-- Nothing is seen of a step without a call. -/
theorem Leads.of_silent (h : e.event? = none) : e.Leads [] e.step := by
  have hstep := Leads.step e
  rwa [h] at hstep

theorem event?_of_call? (h : e.call? = none) : e.event? = none := by
  unfold event?
  rw [h]
  rfl

theorem call?_of_active (h : e.focus = .active a) : e.call? = none := by
  unfold call?
  rw [h]

theorem call?_of_answer {outcome : Except RunError (Option Value)} (h : e.focus = .answer outcome) :
    e.call? = none := by
  unfold call?
  rw [h]

/-- The steps of an activation are silent. -/
theorem Leads.of_runs (h : Activation.Runs e.machine.classes a m b m') :
    (e.continued a m).Leads [] (e.continued b m') := by
  induction h with
  | refl a m => exact .refl _
  | @step a c b m m₁ m' hstep _ ih =>
    have hfirst : (e.continued a m).Leads [] (e.continued a m).step :=
      .of_silent (event?_of_call? (call?_of_active rfl))
    rw [step_continued hstep] at hfirst
    exact hfirst.trans ih

theorem Drains.of_leads {m : Machine H} {outcome : Except RunError (Option Value)}
    (h : e.Leads seen e') (hdrains : Drains k e' rest m outcome) :
    Drains k e (seen ++ rest) m outcome := by
  cases hdrains with
  | last h' hover hstate => exact .last (h.trans h') hover hstate
  | again h' hover hstate hrest =>
    rw [← List.append_assoc]
    exact .again (h.trans h') hover hstate hrest

/-- An execution that is over stays as it is. -/
theorem step_of_outcome? {outcome : Except RunError (Option Value)} (h : e.outcome? = some outcome) :
    e.step = e := by
  obtain ⟨machine, waiting, focus⟩ := e
  rcases focus with request | a | answer
  · cases h
  · cases h
  · rcases waiting with _ | ⟨w, waiting⟩
    · rfl
    · cases h

/-- Nothing is seen any more of an execution that is over. -/
theorem events_of_outcome? {outcome : Except RunError (Option Value)}
    (h : e.outcome? = some outcome) (count : Nat) : events step count e = [] := by
  have hsilent : e.event? = none := by
    unfold outcome? at h
    split at h
    · rename_i hfocus _
      exact event?_of_call? (call?_of_answer hfocus)
    · cases h
  induction count with
  | zero => rfl
  | succ count ih =>
    unfold events
    rw [hsilent, step_of_outcome? h, ih]
    rfl

/-- More steps than it takes to the end change nothing. -/
theorem iterate_of_outcome? {outcome : Except RunError (Option Value)} {count : Nat}
    (h : (step^[count] e).outcome? = some outcome) (more : Nat) :
    events step (count + more) e = events step count e ∧ step^[count + more] e = step^[count] e := by
  rw [events_add, events_of_outcome? h, List.append_nil, Nat.add_comm, Function.iterate_add_apply,
    Function.iterate_fixed (step_of_outcome? h)]
  exact ⟨rfl, rfl⟩

/-- There is one way to go on to the end. -/
theorem Leads.unique {outcome outcome' : Except RunError (Option Value)} (h : e.Leads seen e')
    (hover : e'.outcome? = some outcome) (h' : e.Leads seen' e'')
    (hover' : e''.outcome? = some outcome') : seen' = seen ∧ e'' = e' := by
  obtain ⟨count, rfl, rfl⟩ := h
  obtain ⟨count', rfl, rfl⟩ := h'
  rcases Nat.le_total count count' with hle | hle
  · obtain ⟨more, rfl⟩ := Nat.exists_eq_add_of_le hle
    exact iterate_of_outcome? hover more
  · obtain ⟨more, rfl⟩ := Nat.exists_eq_add_of_le hle
    exact (iterate_of_outcome? hover' more).imp Eq.symm Eq.symm

/-- **What comes of a coroutine is settled**: what is seen of its runs, and their end. -/
theorem Drains.unique {m m' : Machine H} {outcome outcome' : Except RunError (Option Value)}
    (h : Drains k e seen m outcome) (h' : Drains k e seen' m' outcome') :
    seen' = seen ∧ m' = m ∧ outcome' = outcome := by
  induction h generalizing seen' with
  | last hleads hover hstate =>
    cases h' with
    | last hleads' hover' hstate' =>
      obtain ⟨rfl, rfl⟩ := hleads.unique hover hleads' hover'
      rw [hover] at hover'
      exact ⟨rfl, rfl, (Option.some.inj hover').symm⟩
    -- The state the first run leaves says whether there is another.
    | again hleads' hover' hstate' =>
      obtain ⟨-, rfl⟩ := hleads.unique hover hleads' hover'
      rw [hstate] at hstate'
      cases hstate'
  | again hleads hover hstate _ ih =>
    cases h' with
    | last hleads' hover' hstate' =>
      obtain ⟨-, rfl⟩ := hleads.unique hover hleads' hover'
      rw [hstate] at hstate'
      cases hstate'
    | again hleads' hover' hstate' hrest =>
      obtain ⟨rfl, rfl⟩ := hleads.unique hover hleads' hover'
      obtain ⟨rfl, rfl, rfl⟩ := ih hrest
      exact ⟨rfl, rfl, rfl⟩

/-- What steps lead to at the end is what the machine comes to. -/
theorem run?_of_leads {outcome : Except RunError (Option Value)} (h : e.Leads seen e')
    (hover : e'.outcome? = some outcome) : ∃ limit, e.run? limit = some (e'.machine, outcome) := by
  obtain ⟨count, rfl, -⟩ := h
  refine ⟨count, ?_⟩
  induction count generalizing e with
  | zero =>
    unfold run?
    rw [show step^[0] e = e from rfl] at hover
    rw [hover]
    rfl
  | succ count ih =>
    unfold run?
    rcases hout : e.outcome? with _ | outcome'
    · exact ih hover
    · rw [Function.iterate_fixed (step_of_outcome? hout)] at hover ⊢
      rw [hout] at hover
      rw [Option.some.inj hover]

/-! ## Uninterrupted steps -/

theorem pass_of_call? (h : e.call? = none) : e.pass = e.step := by
  unfold pass
  rw [h]
  rfl

theorem pass_of_not_yield {c : Call} (h : e.call? = some c) (hc : c.isYield = false) :
    e.pass = e.step := by
  unfold pass
  rw [h, Option.any_some, hc]
  rfl

theorem pass_of_yield {c : Call} (h : e.call? = some c) (hc : c.isYield = true) :
    e.pass = e.answer (.ok none) := by
  unfold pass
  rw [h, Option.any_some, hc]
  rfl

end Execution

/-! ## Machines that have gone on -/

theorem Heap.Extends.className? {h h' : Heap} (hext : h.Extends h') {v : Value} {type : String}
    (hv : h.className? v = some type) : h'.className? v = some type := by
  cases v with
  | object id =>
    obtain ⟨x, hx, rfl⟩ := Option.map_eq_some_iff.1 hv
    obtain ⟨hlt, htype⟩ := hext id (Array.getElem?_eq_some_iff.1 hx).1
    rw [object, object, hx, Array.getElem?_eq_getElem hlt] at htype
    show (h'.objects[id]?.map Object.type) = _
    rw [Array.getElem?_eq_getElem hlt]
    exact congrArg some htype
  | _ => exact hv

namespace Machine

variable {m m' m'' : Machine H} {c : Call} {request : Request} {a : Activation}

/-- The second machine is the first one later on: it has the same methods, and objects have kept their
classes. -/
structure Precedes (m m' : Machine H) : Prop where
  classes : m'.classes = m.classes
  natives : m'.natives = m.natives
  bodies : m'.bodies = m.bodies
  heap : m.memory.heap.Extends m'.memory.heap

theorem Precedes.refl (m : Machine H) : m.Precedes m := ⟨rfl, rfl, rfl, .refl _⟩

theorem Precedes.trans (h : m.Precedes m') (h' : m'.Precedes m'') : m.Precedes m'' :=
  ⟨h'.classes.trans h.classes, h'.natives.trans h.natives, h'.bodies.trans h.bodies,
    h.heap.trans h'.heap⟩

theorem Precedes.findCallable? (h : m.Precedes m') (method desc : String) (steps : Nat)
    (name : String) :
    m'.findCallable? method desc steps name = m.findCallable? method desc steps name := by
  induction steps generalizing name with
  | zero =>
    unfold Machine.findCallable?
    rw [h.classes, h.natives]
  | succ steps ih =>
    unfold Machine.findCallable?
    rw [h.classes, h.natives]
    rcases hnative : m.natives.lookup ⟨name, method, desc⟩ with _ | n <;> simp only [hnative]
    rcases m.classes.find? name with _ | c
    · rfl
    · dsimp only
      rcases c.findBody? method desc with _ | body
      · rcases c.superName with _ | parent
        · rfl
        · exact ih parent
      · rfl

theorem Precedes.dispatchClass (h : m.Precedes m') {start : String}
    (hc : m.dispatchClass c = .ok start) : m'.dispatchClass c = .ok start := by
  obtain ⟨op, member, args⟩ := c
  unfold Machine.dispatchClass at hc ⊢
  cases op with
  | invokevirtual | invokeinterface =>
    rcases args with _ | ⟨receiver, args⟩
    · cases hc
    · dsimp only at hc ⊢
      split at hc
      · rename_i type htype
        rw [h.heap.className? htype]
        exact hc
      · cases hc
  | _ => exact hc

/-- A call still leads to the same method. -/
theorem Precedes.target (h : m.Precedes m') {callable : Callable H.Native}
    (hc : m.target c = .ok callable) :
    m'.target c = .ok callable := by
  unfold Machine.target at hc ⊢
  obtain ⟨start, hstart, hc⟩ := bind_eq_ok.1 hc
  have hresolve (name desc : String) : m'.resolve start name desc = m.resolve start name desc := by
    unfold resolve
    rw [h.findCallable?, h.classes]
  refine bind_eq_ok.2 ⟨start, h.dispatchClass hstart, ?_⟩
  rw [hresolve]
  exact hc

/-- The request is one for a call of a method with code, which is entered so. -/
def Enters (m : Machine H) (request : Request) (a : Activation) : Prop :=
  ∃ c body, request.call? m.memory.heap = some c ∧ c.isYield = false ∧
    m.target c = .ok (.code body) ∧ Activation.enter body c.args = .ok a

theorem Enters.precedes (h : m.Enters request a) (hm : m.Precedes m') : m'.Enters request a := by
  obtain ⟨c, body, hcall, hyield, htarget, henter⟩ := h
  refine ⟨c, body, ?_, hyield, hm.target htarget, henter⟩
  cases request with
  | call => exact hcall
  | on receiver name desc args =>
    obtain ⟨owner, howner, rfl⟩ := Option.map_eq_some_iff.1 hcall
    exact Option.map_eq_some_iff.2 ⟨owner, hm.heap.className? howner, rfl⟩
  | run => exact hcall

end Machine

namespace Execution

variable {e : Execution H} {request : Request} {a : Activation}

/-- Nothing is seen of a method with code being entered. -/
theorem Leads.of_enters (h : e.machine.Enters request a) (hfocus : e.focus = .request request)
    (hroom : e.waiting.countP Waiting.isCaller < maxCallDepth) :
    e.Leads [] { e with focus := .active a } := by
  obtain ⟨c, body, hcall, hyield, htarget, henter⟩ := h
  have hcall' : e.call? = some c := by
    unfold call?
    rw [hfocus]
    exact hcall
  have hsilent : e.event? = none := by
    unfold event?
    rw [hcall', Option.bind_some, if_neg (by rw [hyield]; nofun), htarget]
  have hstep : e.step = { e with focus := .active a } := by
    rw [step_of_call? hcall', call_of_code htarget, start_of_room hroom, henter]
  rw [← hstep]
  exact .of_silent hsilent

/-- A machine goes on with each step. -/
theorem precedes_step (e : Execution H) : e.machine.Precedes e.step.machine := by
  obtain ⟨hclasses, hheap⟩ := e.step_extends
  suffices hrest : e.step.machine.natives = e.machine.natives ∧
      e.step.machine.bodies = e.machine.bodies from ⟨hclasses, hrest.1, hrest.2, hheap⟩
  have hcall (c : Call) : (e.call c).machine.natives = e.machine.natives ∧
      (e.call c).machine.bodies = e.machine.bodies := by
    unfold call start
    repeat' split
    all_goals first | exact ⟨rfl, rfl⟩ | rw [respond_machine]; exact ⟨rfl, rfl⟩
  rcases hfocus : e.focus with request | a | outcome
  · rw [step_of_request hfocus]
    unfold perform runCoroutine
    dsimp only
    repeat' split
    all_goals first | exact ⟨rfl, rfl⟩ | exact hcall _
  · rw [step_of_active hfocus rfl, proceed_machine]
    exact ⟨rfl, rfl⟩
  · unfold step deliver
    rw [hfocus]
    dsimp only
    split
    · exact ⟨rfl, rfl⟩
    · rw [proceed_machine]
      exact ⟨rfl, rfl⟩
    · rw [respond_machine]
      exact ⟨rfl, rfl⟩
    · exact ⟨rfl, rfl⟩

theorem precedes_pass (e : Execution H) : e.machine.Precedes e.pass.machine := by
  unfold pass
  split
  · exact .refl _
  · exact e.precedes_step

end Execution

/-! ## The coroutine that is run -/

/-- A coroutine that is run, its body, and all coroutines as they were before. -/
structure Drive where
  coroutines : Coroutines
  number : Nat
  body : CoroutineBody
  there : number < coroutines.all.size

namespace Drive

variable (d : Drive) (m : Memory) (s s' : FrameStack)

/-- The coroutine as it was before. -/
def coroutine : Coroutine :=
  have := d.there
  d.coroutines.all[d.number]

/-- The coroutines while this one is in some state, with some frames. -/
def during (state : CoroutineState) (s : FrameStack) (active : Option Nat) : Coroutines where
  all := d.coroutines.all.setIfInBounds d.number { d.coroutine with state, stack := s }
  active

def running : Coroutines := d.during .running s (some d.number)

def suspended : Coroutines := d.during .suspended s d.coroutines.active

theorem getElem?_during (state : CoroutineState) (active : Option Nat) :
    (d.during state s active).all[d.number]? =
      some { d.coroutine with state, stack := s } := by
  unfold during
  rw [Array.getElem?_setIfInBounds_self, if_pos d.there]

/-- With its own state and frames, nothing has become of the coroutine. -/
theorem during_self : d.during d.coroutine.state d.coroutine.stack d.coroutines.active =
    d.coroutines := by
  show (⟨d.coroutines.all.setIfInBounds d.number d.coroutine, d.coroutines.active⟩ : Coroutines) = _
  rw [Array.setIfInBounds_def, dif_pos d.there, coroutine, Array.set_getElem_self]

theorem modify_during (state : CoroutineState) (active : Option Nat) (f : Coroutine → Coroutine) :
    (d.during state s active).modify d.number f = { d.during state s active with
      all := d.coroutines.all.setIfInBounds d.number (f { d.coroutine with state, stack := s }) } := by
  unfold Coroutines.modify during
  congr 1
  refine Array.ext_getElem? fun i => ?_
  rw [Array.getElem?_modify, Array.getElem?_setIfInBounds, Array.getElem?_setIfInBounds]
  by_cases hi : d.number = i
  · simp [hi, hi ▸ d.there]
  · simp [hi]

theorem stack?_running : (m.withCoroutines (d.running s)).stack? = some s := by
  show (some d.number).bind (fun k => (d.running s).all[k]?.map Coroutine.stack) = some s
  rw [Option.bind_some, running, getElem?_during]
  rfl

theorem withStack_running : (m.withCoroutines (d.running s)).withStack s' =
    m.withCoroutines (d.running s') := by
  rw [Memory.withStack_eq rfl (d.getElem?_during s _ _)]
  unfold Memory.withCoroutines running during
  simp only [Array.setIfInBounds_setIfInBounds]

/-- A coroutine that pauses can be run. -/
theorem begin_during {state : CoroutineState} (hstate : state = .new ∨ state = .suspended)
    (active : Option Nat) : (d.during state s active).begin d.number = .ok (d.running s) := by
  unfold Coroutines.begin
  rw [getElem?_during, d.modify_during]
  rcases hstate with rfl | rfl <;> rfl

/-- The signal suspends the coroutine. -/
theorem conclude_suspension : (d.running s).conclude d.number d.coroutines.active
    (.error .suspension) = (d.suspended s.rewind, .ok ()) := by
  unfold Coroutines.conclude
  dsimp only
  rw [if_pos (by decide)]
  exact congrArg (·, _) (d.modify_during s .running d.coroutines.active _)

/-- Any other end finishes the coroutine. -/
theorem conclude_other {outcome : Except RunError Unit}
    (h : Coroutines.isSuspension outcome = false) :
    (d.running s).conclude d.number d.coroutines.active outcome =
      (d.during .finished s d.coroutines.active, outcome) := by
  rw [Coroutines.conclude_of_not_suspension h]
  exact congrArg (·, _) (d.modify_during s .running d.coroutines.active _)

end Drive

end Resumable
