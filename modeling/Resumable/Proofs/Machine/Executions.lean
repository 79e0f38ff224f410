import Mathlib.Logic.Function.Iterate
import Resumable.Proofs.Machine.Steps

/-!
# Steps of an execution

What a step of an execution leaves alone. Classes stay loaded, objects keep their classes, and an
error that nobody can catch goes through to the end, unless a method of the host stops it
(`Execution.HandsOn`).

A method of the host may do anything with the coroutines. Where it matters, it is assumed that it
spares the one in question, whenever the next step is one of the host (`Execution.AtHost`). While other
coroutines are being run on top of it, a running coroutine keeps its frames (`Guests.step`): it is not
the active one, so no frame operation reaches it, and it cannot be run again. When the last of these
runs ends, it is the active one again.
-/

namespace Resumable

/-- A run that was not left by the signal finishes its coroutine. -/
theorem Coroutines.conclude_of_not_suspension {cs : Coroutines} {k : Nat} {previous : Option Nat}
    {outcome : Except RunError Unit} (h : isSuspension outcome = false) :
    cs.conclude k previous outcome =
      ({ cs with active := previous }.modify k ({ · with state := .finished }), outcome) := by
  unfold conclude
  dsimp only
  exact if_neg (by rw [h]; nofun)

/-- An activation is at the start of its method. -/
def Focus.IsFresh : Focus → Prop
  | .active a => a.pc = 0
  | _ => True

/-- The call that is asked for, if it is one. The class of a receiver is known from the heap. -/
def Request.call? (h : Heap) : Request → Option Call
  | .call c => some c
  | .on receiver name desc args =>
    (h.className? receiver).map fun owner => ⟨.invokevirtual, ⟨owner, name, desc⟩, receiver :: args⟩
  | .run _ => none

namespace Execution

variable {H : Host} {e : Execution H} {c k : Nat} {s : FrameStack}

theorem proceed_machine (e : Execution H) (p : Progress) : (e.proceed p).machine = e.machine := by
  cases p <;> rfl

theorem waiting_calling {w : Activation} {request : Call} {chain base : List (Waiting H.Pending)}
    (h : e.waiting = chain ++ base) :
    (e.proceed (.calling w request)).waiting = (.caller w request :: chain) ++ base :=
  congrArg (Waiting.caller w request :: ·) h

/-! ## Steps of the host -/

@[simp] theorem respond_machine (e : Execution H) (response : Response H.Pending) :
    (e.respond response).machine = e.machine := by
  cases response <;> rfl

/-- A method of the host that asks for something waits for it. -/
theorem respond_waiting (e : Execution H) (response : Response H.Pending) :
    (e.respond response).waiting = e.waiting ∨
      ∃ next, (e.respond response).waiting = .native next :: e.waiting := by
  cases response with
  | answer => exact .inl rfl
  | ask request next => exact .inr ⟨next, rfl⟩

/-- The call that the machine is about to carry out. -/
def call? (e : Execution H) : Option Call :=
  match e.focus with
  | .request request => request.call? e.machine.memory.heap
  | _ => none

/-- The next step is one of a method of the host: it is called, or gets an answer. -/
def AtHost (e : Execution H) : Prop :=
  (∃ c n, e.call? = some c ∧ e.machine.target c = .ok (.native n)) ∨
    ∃ outcome next rest, e.focus = .answer outcome ∧ e.waiting = .native next :: rest

/-! ## Carrying out a request -/

theorem step_of_request {request : Request} (h : e.focus = .request request) :
    e.step = e.perform request := by
  unfold step
  rw [h]

/-- A request for a call is carried out as the call. -/
theorem step_of_call? {c : Call} (h : e.call? = some c) : e.step = e.call c := by
  unfold call? at h
  split at h
  · rename_i request hfocus
    rw [step_of_request hfocus]
    unfold perform
    rcases request with call | ⟨receiver, name, desc, args⟩ | k
    · cases h
      rfl
    · obtain ⟨owner, howner, rfl⟩ := Option.map_eq_some_iff.1 h
      dsimp only
      rw [howner]
    · cases h
  · cases h

/-- Without a receiver there is no call. -/
theorem step_of_no_call {request : Request} (h : e.focus = .request request)
    (hrun : ∀ k, request ≠ .run k) (hcall : e.call? = none) :
    e.step = e.answer (.error .nullPointer) := by
  unfold call? at hcall
  rw [h] at hcall
  rw [step_of_request h]
  cases request with
  | call => cases hcall
  | on receiver name desc args =>
    unfold perform
    dsimp only
    rw [Option.map_eq_none_iff.1 hcall]
  | run k => exact absurd rfl (hrun k)

theorem call_of_error {c : Call} {error : RunError} (h : e.machine.target c = .error error) :
    e.call c = e.answer (.error error) := by
  unfold call
  rw [h]

theorem call_of_native {c : Call} {n : H.Native} {host : HostState H.State}
    {response : Response H.Pending} (h : e.machine.target c = .ok (.native n))
    (happly : H.apply n c.args e.machine.host = (response, host)) :
    e.call c = { e with machine := { e.machine with host } }.respond response := by
  simp only [call, h, happly]

theorem call_of_code {c : Call} {body : LoadedMethod} (h : e.machine.target c = .ok (.code body)) :
    e.call c = e.start body c.args := by
  unfold call
  rw [h]

theorem start_of_deep (h : maxCallDepth ≤ e.waiting.countP Waiting.isCaller) (body : LoadedMethod)
    (args : List Value) : e.start body args = e.answer (.error (.code (.tooDeep maxCallDepth))) :=
  if_pos h

theorem start_of_room (h : e.waiting.countP Waiting.isCaller < maxCallDepth) (body : LoadedMethod)
    (args : List Value) : e.start body args = match Activation.enter body args with
      | .ok a => { e with focus := .active a }
      | .error error => e.answer (.error error) :=
  if_neg (Nat.not_le.2 h)

/-- A method with code does not start, or there is an activation that is about to start. -/
theorem start_cases (e : Execution H) (body : LoadedMethod) (args : List Value) :
    (∃ outcome, e.start body args = e.answer outcome) ∨
      ∃ a, a.pc = 0 ∧ e.start body args = { e with focus := .active a } := by
  rcases Nat.lt_or_ge (e.waiting.countP Waiting.isCaller) maxCallDepth with hroom | hdeep
  · rw [start_of_room hroom]
    rcases henter : Activation.enter body args with error | a
    · exact .inl ⟨_, rfl⟩
    · refine .inr ⟨a, ?_, rfl⟩
      unfold Activation.enter at henter
      dsimp only at henter
      split at henter <;> cases henter
      rfl
  · exact .inl ⟨_, start_of_deep hdeep body args⟩

/-- What a request leads to that is not one for a run. The machine stays as it is, unless the host is
at work. -/
structure Carried (e e' : Execution H) : Prop where
  waiting : e'.waiting = e.waiting ∨ ∃ next, e'.waiting = .native next :: e.waiting
  fresh : e'.focus.IsFresh
  classes : e'.machine.classes = e.machine.classes
  heap : e.machine.memory.heap.Extends e'.machine.memory.heap
  machine : ¬ e.AtHost → e'.machine = e.machine

theorem Carried.spares {e' : Execution H} (h : e.Carried e')
    (hhost : e.AtHost → e.machine.memory.Spares c e'.machine.memory) :
    e.machine.memory.Spares c e'.machine.memory := by
  by_cases hat : e.AtHost
  · exact hhost hat
  · rw [h.machine hat]
    exact .refl c _

/-- A request is carried out, or it starts a run. -/
theorem request_cases {request : Request} (h : e.focus = .request request) :
    e.Carried e.step ∨ ∃ k coroutines body, request = .run k ∧
      e.machine.memory.coroutines.begin k = .ok coroutines ∧ e.step = { e with
        machine := e.machine.withMemory { e.machine.memory with coroutines }
        waiting := .runner k e.machine.memory.coroutines.active :: e.waiting
        focus := .request body } := by
  have hanswer (outcome : Except RunError (Option Value)) : e.Carried (e.answer outcome) :=
    ⟨.inl rfl, trivial, rfl, .refl _, fun _ => rfl⟩
  rcases hcall : e.call? with _ | c
  · by_cases hrun : ∃ k, request = .run k
    · obtain ⟨k, rfl⟩ := hrun
      rw [step_of_request h]
      unfold perform runCoroutine
      dsimp only
      split
      · exact .inl (hanswer _)
      · rename_i coroutines hbegin
        exact .inr ⟨k, coroutines, _, rfl, hbegin, rfl⟩
    · rw [step_of_no_call h (fun k hk => hrun ⟨k, hk⟩) hcall]
      exact .inl (hanswer _)
  left
  rw [step_of_call? hcall]
  rcases htarget : e.machine.target c with error | n | body
  · rw [call_of_error htarget]
    exact hanswer _
  · rcases happly : H.apply n c.args e.machine.host with ⟨response, host⟩
    have hextends := H.apply_extends n c.args e.machine.host
    rw [happly] at hextends
    rw [call_of_native htarget happly]
    refine ⟨respond_waiting _ response, ?_, ?_, ?_, fun hat => absurd (.inl ⟨c, n, hcall, htarget⟩) hat⟩
    · cases response <;> trivial
    · rw [respond_machine]
    · rw [respond_machine]
      exact hextends
  · rw [call_of_code htarget]
    rcases e.start_cases body c.args with ⟨outcome, hstart⟩ | ⟨a, hpc, hstart⟩ <;> rw [hstart]
    · exact hanswer _
    · exact ⟨.inl rfl, hpc, rfl, .refl _, fun _ => rfl⟩

/-! ## Other steps -/

theorem step_of_active {a : Activation} {progress : Progress} {m : Memory}
    (h : e.focus = .active a) (hstep : a.step e.machine.classes e.machine.memory = (progress, m)) :
    e.step = { e with machine := e.machine.withMemory m }.proceed progress := by
  unfold step
  rw [h]
  dsimp only
  rw [hstep]

theorem step_of_caller {a : Activation} {request : Call} {waiting : List (Waiting H.Pending)}
    {outcome : Except RunError (Option Value)} {progress : Progress} {m : Memory}
    (h : e.focus = .answer outcome) (hwaiting : e.waiting = .caller a request :: waiting)
    (hresume : a.resume e.machine.classes request outcome e.machine.memory = (progress, m)) :
    e.step = { e with machine := e.machine.withMemory m, waiting }.proceed progress := by
  unfold step deliver
  rw [h]
  dsimp only
  rw [hwaiting]
  dsimp only
  rw [hresume]

theorem step_of_native {next : H.Pending} {waiting : List (Waiting H.Pending)}
    {outcome : Except RunError (Option Value)} {response : Response H.Pending}
    {host : HostState H.State} (h : e.focus = .answer outcome)
    (hwaiting : e.waiting = .native next :: waiting)
    (hresume : H.resume next outcome e.machine.host = (response, host)) :
    e.step = { e with machine := { e.machine with host }, waiting }.respond response := by
  simp only [step, deliver, h, hwaiting, hresume]

/-- A method of the host that has been handed an answer may wait again. -/
theorem waiting_of_native {next : H.Pending} {waiting : List (Waiting H.Pending)}
    {outcome : Except RunError (Option Value)} (h : e.focus = .answer outcome)
    (hwaiting : e.waiting = .native next :: waiting) :
    e.step.waiting = waiting ∨ ∃ next', e.step.waiting = .native next' :: waiting := by
  rcases hresume : H.resume next outcome e.machine.host with ⟨response, host⟩
  rw [step_of_native h hwaiting hresume]
  exact respond_waiting _ response

theorem step_of_runner {previous : Option Nat} {waiting : List (Waiting H.Pending)}
    {outcome : Except RunError (Option Value)} {coroutines : Coroutines}
    {conclusion : Except RunError Unit} (h : e.focus = .answer outcome)
    (hwaiting : e.waiting = .runner k previous :: waiting)
    (hend : e.machine.memory.coroutines.conclude k previous (outcome.map fun _ => ()) =
      (coroutines, conclusion)) :
    e.step = { e with
      machine := e.machine.withMemory { e.machine.memory with coroutines }, waiting }.answer
        (conclusion.map fun _ => none) := by
  unfold step deliver
  rw [h]
  dsimp only
  rw [hwaiting]
  dsimp only
  rw [hend]

/-- An answer for which nobody waits stays. -/
theorem step_of_nobody {outcome : Except RunError (Option Value)} (h : e.focus = .answer outcome)
    (hwaiting : e.waiting = []) : e.step = e := by
  unfold step deliver
  rw [h]
  dsimp only
  rw [hwaiting]

/-- Who has been handed an answer does not wait any more. -/
theorem waiting_of_caller {a : Activation} {request : Call} {waiting : List (Waiting H.Pending)}
    {outcome : Except RunError (Option Value)} (h : e.focus = .answer outcome)
    (hwaiting : e.waiting = .caller a request :: waiting) : e.step.waiting = waiting := by
  rcases hresume : a.resume e.machine.classes request outcome e.machine.memory with ⟨progress, m⟩
  rw [step_of_caller h hwaiting hresume]
  cases progress with
  | going | done => rfl
  | calling w request' => exact absurd rfl ((Activation.resume_spares (c := 0) hresume).2.2 w request')

/-- Without an answer, all who wait go on waiting. -/
theorem waiting_grows (h : ∀ outcome, e.focus ≠ .answer outcome) :
    ∃ more, e.step.waiting = more ++ e.waiting := by
  rcases hfocus : e.focus with request | a | outcome
  · rcases request_cases hfocus with hcarried | ⟨k, coroutines, body, -, -, hrun⟩
    · rcases hcarried.waiting with hsame | ⟨next, hnext⟩
      · exact ⟨[], hsame⟩
      · exact ⟨[_], hnext⟩
    · rw [hrun]
      exact ⟨[_], rfl⟩
  · rcases hstep : a.step e.machine.classes e.machine.memory with ⟨progress, m⟩
    rw [step_of_active hfocus hstep]
    cases progress with
    | going | done => exact ⟨[], rfl⟩
    | calling => exact ⟨[_], rfl⟩
  · exact absurd hfocus (h outcome)

/-- Classes stay loaded as they are, and objects keep their classes. -/
theorem step_extends (e : Execution H) : e.step.machine.classes = e.machine.classes ∧
    e.machine.memory.heap.Extends e.step.machine.memory.heap := by
  -- What spares some coroutine that is not active extends the heap.
  obtain ⟨c, hc⟩ := e.machine.memory.coroutines.exists_not_active
  rcases hfocus : e.focus with request | a | outcome
  · rcases request_cases hfocus with hcarried | ⟨k, coroutines, body, -, -, hrun⟩
    · exact ⟨hcarried.classes, hcarried.heap⟩
    · rw [hrun]
      exact ⟨rfl, .refl _⟩
  · rcases hstep : a.step e.machine.classes e.machine.memory with ⟨progress, m⟩
    rw [step_of_active hfocus hstep, proceed_machine]
    obtain ⟨hspares, -⟩ := Activation.step_spares (c := c) hstep fun _ _ => hc
    exact ⟨rfl, hspares.heap⟩
  · rcases hwaiting : e.waiting with _ | ⟨⟨a, request⟩ | next | ⟨k, previous⟩, waiting⟩
    · rw [step_of_nobody hfocus hwaiting]
      exact ⟨rfl, .refl _⟩
    · rcases hresume : a.resume e.machine.classes request outcome e.machine.memory with ⟨progress, m⟩
      rw [step_of_caller hfocus hwaiting hresume, proceed_machine]
      obtain ⟨hspares, -⟩ := Activation.resume_spares (c := c) hresume
      exact ⟨rfl, hspares.heap⟩
    · rcases hresume : H.resume next outcome e.machine.host with ⟨response, host⟩
      have hextends := H.resume_extends next outcome e.machine.host
      rw [hresume] at hextends
      rw [step_of_native hfocus hwaiting hresume, respond_machine]
      exact ⟨rfl, hextends⟩
    · rcases hend : e.machine.memory.coroutines.conclude k previous (outcome.map fun _ => ()) with
        ⟨coroutines, conclusion⟩
      rw [step_of_runner hfocus hwaiting hend]
      exact ⟨rfl, .refl _⟩

theorem iterate_extends (e : Execution H) (n : Nat) :
    (step^[n] e).machine.classes = e.machine.classes ∧
      e.machine.memory.heap.Extends (step^[n] e).machine.memory.heap := by
  induction n with
  | zero => exact ⟨rfl, .refl _⟩
  | succ n ih =>
    rw [Function.iterate_succ_apply']
    obtain ⟨hclasses, hheap⟩ := (step^[n] e).step_extends
    exact ⟨hclasses.trans ih.1, ih.2.trans hheap⟩

/-- Whoever waits hands the answer on, and leaves the memory alone. -/
structure HandsOn (e : Execution H) : Prop where
  focus : e.step.focus = e.focus
  waiting : e.step.waiting = e.waiting.tail
  memory : e.step.machine.memory = e.machine.memory

/-- A caller hands on what nobody can catch. -/
theorem handsOn_of_fatal {a : Activation} {request : Call} {waiting : List (Waiting H.Pending)}
    {error : RunError} (h : e.focus = .answer (.error error))
    (hwaiting : e.waiting = .caller a request :: waiting) (hfatal : error.IsFatal) : e.HandsOn := by
  have hstep := step_of_caller h hwaiting (Activation.raise_of_fatal hfatal)
  exact ⟨by rw [hstep, h]; rfl, by rw [hstep, hwaiting]; rfl, by rw [hstep]; rfl⟩

end Execution

/-! ## Straight-line code -/

namespace Execution

variable {H : Host} {e : Execution H} {a b : Activation} {m m' : Memory}

/-- The execution with this activation at work on this memory. -/
def continued (e : Execution H) (a : Activation) (m : Memory) : Execution H :=
  { e with machine := e.machine.withMemory m, focus := .active a }

theorem continued_self (h : e.focus = .active a) : e.continued a e.machine.memory = e := by
  obtain ⟨machine, waiting, focus⟩ := e
  obtain rfl : focus = .active a := h
  rfl

theorem step_continued (h : a.step e.machine.classes m = (.going b, m')) :
    (e.continued a m).step = e.continued b m' :=
  step_of_active (e := e.continued a m) rfl h

end Execution

namespace Activation

variable {classes : ClassTable} {a a' b c : Activation} {m m' m₁ m₂ : Memory} {i : Instr}
  {rest : List Instr} {count count' : Nat}

/-- So many steps lead from the first activation to the second, in whatever execution. -/
def Advances (classes : ClassTable) (count : Nat) (a : Activation) (m : Memory) (b : Activation)
    (m' : Memory) : Prop :=
  ∀ (H : Host) (e : Execution H), e.machine.classes = classes →
    Execution.step^[count] (e.continued a m) = e.continued b m'

theorem Advances.refl (a : Activation) (m : Memory) : Advances classes 0 a m a m :=
  fun _ _ _ => rfl

theorem Advances.trans (h : Advances classes count a m b m₁)
    (h' : Advances classes count' b m₁ c m₂) : Advances classes (count + count') a m c m₂ := by
  intro H e he
  rw [Nat.add_comm, Function.iterate_add_apply, h H e he, h' H e he]

/-- An instruction that succeeds takes one step. -/
theorem advances_next (classes : ClassTable) (h : a.At (i :: rest))
    (hdoes : Exec.Does (Exec.instr classes i) a m .next a' m') :
    Advances classes 1 a m { a' with pc := a.pc + 1 } m' := by
  intro H e he
  exact Execution.step_continued (he ▸ step_of_next h hdoes)

end Activation

/-! ## Runs of other coroutines -/

/-- Other coroutines than `c`, which is running, are being run, and who waits meanwhile. At the end
`c` is active again; in between the given one is. -/
inductive Guests {π : Type} (c : Nat) : List (Waiting π) → Option Nat → Prop where
  | first {k : Nat} (hk : k ≠ c) : Guests c [.runner k (some c)] (some k)
  | runner {waiting : List (Waiting π)} {active : Option Nat} {k : Nat} (h : Guests c waiting active)
    (hk : k ≠ c) : Guests c (.runner k active :: waiting) (some k)
  | caller {waiting : List (Waiting π)} {active : Option Nat} {a : Activation} {request : Call}
    (h : Guests c waiting active) : Guests c (.caller a request :: waiting) active
  | native {waiting : List (Waiting π)} {active : Option Nat} {next : π}
    (h : Guests c waiting active) : Guests c (.native next :: waiting) active

namespace Guests

variable {H : Host} {e : Execution H} {c : Nat} {s : FrameStack}
  {waiting rest : List (Waiting H.Pending)} {active : Option Nat}

theorem ne (h : Guests c waiting active) : active ≠ some c := by
  induction h with
  | first hk | runner _ hk => exact fun heq => hk (Option.some.inj heq)
  | caller _ ih | native _ ih => exact ih

theorem ne_nil (h : Guests c waiting active) : waiting ≠ [] := by
  cases h <;> exact List.cons_ne_nil _ _

/-- A coroutine keeps its frames while others are being run, and afterwards it is active again. -/
theorem step (h : Guests c waiting e.machine.memory.coroutines.active)
    (hwaiting : e.waiting = waiting ++ rest)
    (hhost : e.AtHost → e.machine.memory.Spares c e.step.machine.memory)
    (hs : e.machine.memory.coroutines.running? c = some s) :
    e.step.machine.memory.coroutines.running? c = some s ∧
      ((∃ waiting', e.step.waiting = waiting' ++ rest ∧
        Guests c waiting' e.step.machine.memory.coroutines.active) ∨
      e.step.waiting = rest ∧ e.step.machine.memory.coroutines.active = some c ∧
        ∃ outcome, e.step.focus = .answer outcome) := by
  have hne := h.ne
  rcases hfocus : e.focus with request | a | outcome
  · -- A request leaves the coroutines alone, unless it begins to run one more of them.
    rcases Execution.request_cases hfocus with hcarried | ⟨k, coroutines, body, -, hbegin, hrun⟩
    · have hspares := hcarried.spares hhost
      rw [← hspares.active] at h
      refine ⟨hspares.running.trans hs, .inl ?_⟩
      rcases hcarried.waiting with hsame | ⟨next, hnext⟩
      · exact ⟨waiting, hsame.trans hwaiting, h⟩
      · exact ⟨_ :: waiting, hnext.trans (congrArg (_ :: ·) hwaiting), .native h⟩
    · obtain ⟨hk, hactive, hrunning⟩ := Coroutines.begin_spares hbegin hs
      rw [hrun]
      refine ⟨hrunning, .inl ⟨_ :: waiting, congrArg (_ :: ·) hwaiting, ?_⟩⟩
      show Guests c _ coroutines.active
      rw [hactive]
      exact .runner h hk
  · rcases hstep : a.step e.machine.classes e.machine.memory with ⟨progress, m⟩
    obtain ⟨hspares, -⟩ := Activation.step_spares (c := c) hstep fun _ _ => hne
    rw [Execution.step_of_active hfocus hstep, Execution.proceed_machine]
    refine ⟨hspares.running.trans hs, .inl ?_⟩
    have hactive : Guests c waiting m.coroutines.active := hspares.active ▸ h
    cases progress with
    | going b => exact ⟨waiting, hwaiting, hactive⟩
    | done outcome => exact ⟨waiting, hwaiting, hactive⟩
    | calling w request => exact ⟨_ :: waiting, congrArg (_ :: ·) hwaiting, .caller hactive⟩
  · -- An answer goes to whoever waits first; only at the end of the innermost guest does another
    -- coroutine become active.
    generalize hgiven : e.machine.memory.coroutines.active = given at h
    cases h with
    | @caller waiting' _ a request h =>
      rcases hresume : a.resume e.machine.classes request outcome e.machine.memory with ⟨progress, m⟩
      obtain ⟨hspares, -, hcalls⟩ := Activation.resume_spares (c := c) hresume
      rw [Execution.step_of_caller hfocus hwaiting hresume, Execution.proceed_machine]
      refine ⟨hspares.running.trans hs, .inl ⟨waiting', ?_, ?_⟩⟩
      · cases progress with
        | going b => rfl
        | done outcome => rfl
        | calling w request => exact absurd rfl (hcalls w request)
      · show Guests c waiting' m.coroutines.active
        rwa [hspares.active, hgiven]
    | @native waiting' _ next h =>
      have hspares := hhost (.inr ⟨outcome, next, _, hfocus, hwaiting⟩)
      have hactive : Guests c waiting' e.step.machine.memory.coroutines.active := by
        rwa [hspares.active, hgiven]
      refine ⟨hspares.running.trans hs, .inl ?_⟩
      rcases Execution.waiting_of_native hfocus hwaiting with hsame | ⟨next', hnext⟩
      · exact ⟨waiting', hsame, hactive⟩
      · exact ⟨.native next' :: waiting', hnext, .native hactive⟩
    | @first k hk =>
      rcases hend : e.machine.memory.coroutines.conclude k (some c) (outcome.map fun _ => ()) with
        ⟨coroutines, conclusion⟩
      obtain ⟨hactive, hrunning⟩ := e.machine.memory.coroutines.conclude_spares
        (some c) (outcome.map fun _ => ()) hk
      rw [hend] at hactive hrunning
      rw [Execution.step_of_runner hfocus hwaiting hend]
      exact ⟨hrunning.trans hs, .inr ⟨rfl, hactive, _, rfl⟩⟩
    | @runner waiting' previous k h hk =>
      rcases hend : e.machine.memory.coroutines.conclude k previous (outcome.map fun _ => ()) with
        ⟨coroutines, conclusion⟩
      obtain ⟨hactive, hrunning⟩ := e.machine.memory.coroutines.conclude_spares
        previous (outcome.map fun _ => ()) hk
      rw [hend] at hactive hrunning
      rw [Execution.step_of_runner hfocus hwaiting hend]
      refine ⟨hrunning.trans hs, .inl ⟨waiting', rfl, ?_⟩⟩
      show Guests c waiting' coroutines.active
      rwa [hactive]

end Guests

end Resumable
