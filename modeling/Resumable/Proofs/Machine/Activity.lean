import Resumable.Proofs.Machine.Executions

/-!
# What becomes of an activation

`Activation.Arises` has all activations that can come of a method: from its entry with any arguments,
step after step on any memory, and from any answer to a call that a machine may give, whatever its host
does. Only where a machine cannot find the method of a call is the answer certain (`Call.MayAnswer`).

Such an activation stays in its method and keeps the number of its locals (`Activation.Arises.fits`).
It is at the entry, or an instruction has led to where it stands (`Activation.Arises.pc_cases`).

All activations at work in an execution arise (`Execution.arises_of_active`). The invariant of an
execution is that everybody who waits for an answer gets one that may be given (`Execution.Lively`).
-/

namespace Resumable

/-- The answer may come back for the call: it is the error with which a machine looks for the method
in vain, or the machine finds one, and it may be anything. -/
def Call.MayAnswer (c : Call) (answer : Except RunError (Option Value)) : Prop :=
  ∃ (H : Host) (machine : Machine H), ∀ e, machine.target c = .error e → answer = .error e

/-- Only a call by an operation that calls is answered with a result. -/
theorem Call.MayAnswer.isInvoke {c : Call} {result : Option Value} (h : c.MayAnswer (.ok result)) :
    c.op.isInvoke = true := by
  obtain ⟨H, machine, h⟩ := h
  by_contra hop
  have htarget : machine.target c = .error (.code (.notInvoke c.op)) := by
    have hdispatch : machine.dispatchClass c = .error (.code (.notInvoke c.op)) := by
      unfold Machine.dispatchClass
      split
      case h_5 => rfl
      all_goals
        rename_i heq
        rw [heq] at hop
        exact absurd rfl hop
    unfold Machine.target
    rw [hdispatch]
    rfl
  cases h _ htarget

/-! ## Instructions behind which control does not go on -/

theorem Opcode.isTerminator_cases {op : Opcode} (h : op.isTerminator = true) :
    op.isReturn = true ∨ op = .goto ∨ op = .tableswitch ∨ op = .athrow ∨ op = .frameSuspend := by
  unfold isTerminator at h
  rcases (Bool.or_eq_true _ _).mp h with hreturn | hother
  · exact .inl hreturn
  · right
    split at hother
    · exact .inl rfl
    · exact .inr (.inl rfl)
    · exact .inr (.inr (.inl rfl))
    · exact .inr (.inr (.inr rfl))
    · cases hother

/-- Control goes on to the next instruction only where verification takes it to. -/
theorem Exec.Does.isTerminator_of_next {classes : ClassTable} {i : Instr} {a a' : Activation}
    {m m' : Memory} (h : Does (instr classes i) a m .next a' m') :
    i.opcode.isTerminator = false := by
  refine Bool.eq_false_iff.2 fun hterm => ?_
  cases i with
  | label | inc => cases hterm
  | const c => cases c <;> cases hterm
  | invoke op member =>
    obtain ⟨_, _, _, -, h⟩ := h.bind
    cases h
  | switch low default targets =>
    obtain ⟨n, a₁, m₁, -, h⟩ := h.bind
    obtain ⟨pc, hmove, -⟩ := h.jumpTo
    cases hmove
  | simple op =>
    rcases Opcode.isTerminator_cases hterm with hreturn | rfl | rfl | rfl | rfl
    · exact absurd hreturn (Bool.eq_false_iff.1 (leads_instr h op rfl))
    · exact not_throw h
    · exact not_throw h
    · obtain ⟨v, _, _, -, h⟩ := h.bind
      dsimp only at h
      split at h
      · obtain ⟨_, _, _, h, -⟩ := h.bind
        exact not_throw h
      · exact not_throw h
    · exact not_throw h
  | jump op l =>
    obtain ⟨taken, a₁, m₁, hcondition, h⟩ := h.bind
    -- The only one of them that is decided is the jump that is always taken.
    have hgoto : op = .goto := by
      rcases Opcode.isTerminator_cases hterm with hreturn | rfl | rfl | rfl | rfl
      · cases op <;> first | cases hreturn; done | exact (not_throw hcondition).elim
      · rfl
      all_goals exact (not_throw hcondition).elim
    rw [if_pos (hcondition.condition.2 hgoto)] at h
    obtain ⟨pc, hmove, -⟩ := h.jumpTo
    cases hmove
  | «local» op slot =>
    obtain ⟨_, _, _, h, -⟩ := h.bind
    unfold onLocal at h
    split at h
    case h_11 => exact not_throw h
    all_goals cases hterm
  | field op member =>
    obtain ⟨_, _, _, h, -⟩ := h.bind
    unfold Exec.field at h
    split at h
    case h_5 => exact not_throw h
    all_goals cases hterm
  | type op desc =>
    obtain ⟨_, _, _, h, -⟩ := h.bind
    unfold onType at h
    split at h
    case h_5 => exact not_throw h
    all_goals cases hterm
  | frame op =>
    obtain ⟨_, _, _, h, -⟩ := h.bind
    cases op with
    | suspend => exact not_throw h
    | _ => cases hterm

/-! ## Steps that go on -/

namespace Activation

variable {classes : ClassTable} {method : LoadedMethod} {a b w : Activation} {m m' : Memory}
  {request : Call} {e : RunError}

/-- An activation that fails stands behind the code, or it ends with the error of its instruction or
with an exception. -/
theorem step_eq_failure (h : a.step classes m = (.done (.error e), m')) :
    (a.method.method.code[a.pc]? = none ∧ e = .code (.fellOff a.method.ref)) ∨
      ∃ i e₀ m₁, a.method.method.code[a.pc]? = some i ∧
        ((Exec.instr classes i).run a).run m = (.error e₀, m₁) ∧ (e = e₀ ∨ ∃ v, e = .thrown v) := by
  rcases hcode : a.method.method.code[a.pc]? with _ | i
  · rw [step_of_none hcode] at h
    cases h
    exact .inl ⟨rfl, rfl⟩
  right
  rcases step_cases hcode h with ⟨e₀, m₁, hrun, hraise⟩ | ⟨move, a', hdoes, hprogress⟩
  · refine ⟨i, e₀, m₁, rfl, hrun, ?_⟩
    rcases raise_eq_done hraise with heq | ⟨v, heq⟩
    · exact .inl (Except.error.inj heq)
    · exact .inr ⟨v, Except.error.inj heq⟩
  · cases move <;> cases hprogress

/-- An activation that waits for an answer stands at the call. -/
theorem step_eq_calling (h : a.step classes m = (.calling w request, m')) :
    (∃ stack, w = a.withStack stack) ∧
      a.method.method.code[a.pc]? = some (.invoke request.op request.member) := by
  rcases hcode : a.method.method.code[a.pc]? with _ | i
  · rw [step_of_none hcode] at h
    cases h
  rcases step_cases hcode h with ⟨e, m₁, -, hraise⟩ | ⟨move, a', hdoes, hprogress⟩
  · exact absurd hraise raise_ne_calling
  cases move <;> cases hprogress
  obtain ⟨op, member, rfl⟩ := Exec.leads_instr hdoes
  obtain ⟨c, a₁, m₁, hrequest, hdoes⟩ := hdoes.bind
  obtain ⟨type, -, hop, hmember, rfl⟩ := hrequest.request
  cases hdoes
  rw [hop, hmember]
  exact ⟨⟨_, rfl⟩, rfl⟩

/-- Control goes on at `pc`, from where the activation stands: along a label that the instruction or
a handler names, or to the next instruction if verification takes it there. -/
def LeadsTo (a : Activation) (pc : Nat) : Prop :=
  ∃ i, a.method.method.code[a.pc]? = some i ∧
    ((i.opcode.isTerminator = false ∧ pc = a.pc + 1) ∨
      (∃ l ∈ i.branchTargets, labelPosition? a.method.method.code l = some pc) ∨
        ∃ handler ∈ a.method.handlers, handler.target = pc)

theorem leadsTo_of_step (h : a.step classes m = (.going b, m')) : a.LeadsTo b.pc := by
  rcases hcode : a.method.method.code[a.pc]? with _ | i
  · rw [step_of_none hcode] at h
    cases h
  refine ⟨i, hcode, ?_⟩
  rcases step_cases hcode h with ⟨e, m₁, -, hraise⟩ | ⟨move, a', hdoes, hprogress⟩
  · obtain ⟨_, _, handler, -, hmem, -, rfl⟩ := raise_eq_going hraise
    exact .inr (.inr ⟨handler, hmem, rfl⟩)
  · cases move with
    | next =>
      cases hprogress
      exact .inl ⟨hdoes.isTerminator_of_next, rfl⟩
    | goto pc =>
      cases hprogress
      exact .inr (.inl (Exec.leads_instr hdoes))
    | leave result => cases hprogress
    | call request => cases hprogress

theorem leadsTo_of_resume {answer : Except RunError (Option Value)} {classes' : ClassTable}
    {m₁ m₂ : Memory} (hcall : a.step classes m = (.calling w request, m'))
    (hanswer : request.MayAnswer answer)
    (h : w.resume classes' request answer m₁ = (.going b, m₂)) : a.LeadsTo b.pc := by
  obtain ⟨⟨stack, rfl⟩, hcode⟩ := step_eq_calling hcall
  refine ⟨_, hcode, ?_⟩
  rcases resume_cases h with ⟨e, -, hraise⟩ | ⟨⟨result, rfl⟩, -, stack', hgoing⟩
  · obtain ⟨_, _, handler, -, hmem, -, rfl⟩ := raise_eq_going hraise
    exact .inr (.inr ⟨handler, hmem, rfl⟩)
  · cases hgoing
    refine .inl ⟨?_, rfl⟩
    have hop := hanswer.isInvoke
    rcases request with ⟨op, member, args⟩
    cases op <;> first | rfl | cases hop

/-! ### Method and locals -/

theorem enter_spec {args : List Value} (h : enter method args = .ok a) : a.method = method ∧
    a.stack = [] ∧ a.pc = 0 ∧ a.locals.length = method.method.maxLocals.toNat := by
  unfold enter at h
  dsimp only at h
  split at h
  · cases h
  · cases h
    refine ⟨rfl, rfl, rfl, ?_⟩
    rw [List.length_append, List.length_replicate]
    omega

/-- The activation is one of the method, with as many locals as that declares. -/
structure Fits (method : LoadedMethod) (a : Activation) : Prop where
  method_eq : a.method = method
  length_locals : a.locals.length = method.method.maxLocals.toNat

namespace Fits

theorem enter {args : List Value} (h : Activation.enter method args = .ok a) : a.Fits method :=
  have ⟨hmethod, _, _, hlocals⟩ := enter_spec h
  ⟨hmethod, hlocals⟩

/-- Neither the method nor the number of locals changes. -/
theorem laws {F : RunError → Memory → Prop} (hfails : ∀ m e, e.isOrdinary = true → F e m)
    (hthrows : ∀ m v, F (.thrown v) m) : Exec.Laws (fun b _ => b.Fits method) F where
  stack _ h := ⟨h.method_eq, h.length_locals⟩
  heap _ h := h
  statics _ h := h
  fails he _ := hfails _ _ he
  throws _ _ := hthrows _ _

theorem does {i : Instr} {a' : Activation} {move : Move} (h : a.Fits method)
    (hdoes : Exec.Does (Exec.instr classes i) a m move a' m') : a'.Fits method := by
  have hi : i.Laws (fun b _ => b.Fits method) fun _ _ => True :=
    { reads := fun _ _ _ => trivial
      writes := fun _ _ h => ⟨h.method_eq, List.length_set.trans h.length_locals⟩
      labels := fun _ _ _ => trivial
      frames := fun _ _ => id }
  have hl : Exec.Laws (fun b _ => b.Fits method) fun _ _ => True :=
    laws (fun _ _ _ => trivial) fun _ _ => trivial
  exact (Exec.keeps_instr hl hi classes).of_ok hdoes h

theorem raise (h : a.Fits method) (hraise : a.raise classes e m = (.going b, m')) :
    b.Fits method := by
  obtain ⟨_, _, handler, -, -, -, rfl⟩ := raise_eq_going hraise
  exact ⟨h.method_eq, h.length_locals⟩

theorem step (h : a.Fits method) (hstep : a.step classes m = (.going b, m')) : b.Fits method := by
  rcases hcode : a.method.method.code[a.pc]? with _ | i
  · rw [step_of_none hcode] at hstep
    cases hstep
  rcases step_cases hcode hstep with ⟨e, m₁, -, hraise⟩ | ⟨move, a', hdoes, hprogress⟩
  · exact h.raise hraise
  · have hfits := h.does hdoes
    cases move <;> cases hprogress <;> exact ⟨hfits.method_eq, hfits.length_locals⟩

theorem calling (h : a.Fits method) (hcall : a.step classes m = (.calling w request, m')) :
    w.Fits method := by
  obtain ⟨⟨stack, rfl⟩, -⟩ := step_eq_calling hcall
  exact ⟨h.method_eq, h.length_locals⟩

theorem resume {answer : Except RunError (Option Value)} (h : w.Fits method)
    (hresume : w.resume classes request answer m = (.going b, m')) : b.Fits method := by
  rcases resume_cases hresume with ⟨e, -, hraise⟩ | ⟨-, -, stack, hgoing⟩
  · exact h.raise hraise
  · cases hgoing
    exact ⟨h.method_eq, h.length_locals⟩

end Fits

/-! ## All activations of a method -/

/-- The activation can come of the method, whatever classes and memory it finds at each step, and
whatever answers it may get. -/
inductive Arises (method : LoadedMethod) : Activation → Prop where
  | enter {args : List Value} {a : Activation} (h : Activation.enter method args = .ok a) :
    Arises method a
  | step {a b : Activation} {classes : ClassTable} {m m' : Memory} (ha : Arises method a)
    (h : a.step classes m = (.going b, m')) : Arises method b
  | answered {a w b : Activation} {request : Call} {answer : Except RunError (Option Value)}
    {classes classes' : ClassTable} {m m' m₁ m₂ : Memory} (ha : Arises method a)
    (hcall : a.step classes m = (.calling w request, m')) (hanswer : request.MayAnswer answer)
    (h : w.resume classes' request answer m₁ = (.going b, m₂)) : Arises method b

namespace Arises

theorem fits (h : Arises method a) : a.Fits method := by
  induction h with
  | enter h => exact .enter h
  | step _ h ih => exact ih.step h
  | answered _ hcall _ h ih => exact (ih.calling hcall).resume h

/-- An activation has just been entered, or control has come from where another one stands. -/
theorem pc_cases (h : Arises method a) :
    a.pc = 0 ∨ ∃ b, Arises method b ∧ b.LeadsTo a.pc := by
  cases h with
  | enter h =>
    left
    exact (enter_spec h).2.2.1
  | step ha h => exact .inr ⟨_, ha, leadsTo_of_step h⟩
  | answered ha hcall hanswer h => exact .inr ⟨_, ha, leadsTo_of_resume hcall hanswer h⟩

/-- What holds of the entry, and of any place to which control leads from one of which it holds, holds
wherever an activation of the method stands. -/
theorem pc_induction {P : Nat → Prop} (hentry : P 0)
    (hleads : ∀ b : Activation, b.method = method → P b.pc → ∀ pc, b.LeadsTo pc → P pc)
    (h : Arises method a) : P a.pc := by
  induction h with
  | enter h =>
    rw [(enter_spec h).2.2.1]
    exact hentry
  | step ha h ih => exact hleads _ ha.fits.method_eq ih _ (leadsTo_of_step h)
  | answered ha hcall hanswer h ih =>
    exact hleads _ ha.fits.method_eq ih _ (leadsTo_of_resume hcall hanswer h)

/-- What an activation of the method runs to is one of the method. -/
theorem runs (h : Arises method a) (hruns : Runs classes a m b m') : Arises method b := by
  induction hruns with
  | refl => exact h
  | step hstep _ ih => exact ih (h.step hstep)

end Arises

end Activation

/-! ## The activations of an execution -/

/-- The method of the call has been found. -/
def Call.Found (c : Call) : Prop :=
  ∃ (H : Host) (machine : Machine H) (callable : Callable H.Native), machine.target c = .ok callable

theorem Call.Found.mayAnswer {c : Call} (h : c.Found) (answer : Except RunError (Option Value)) :
    c.MayAnswer answer := by
  obtain ⟨H, machine, callable, htarget⟩ := h
  refine ⟨H, machine, fun e he => ?_⟩
  rw [htarget] at he
  cases he

namespace Execution

section Waiting

variable {π : Type}

/-- All who wait for the answer to a call have found its method. -/
def AllFound (waiting : List (Waiting π)) : Prop :=
  ∀ a request, .caller a request ∈ waiting → request.Found

theorem allFound_caller_iff {a : Activation} {request : Call} {rest : List (Waiting π)} :
    AllFound (.caller a request :: rest) ↔ request.Found ∧ AllFound rest := by
  constructor
  · intro h
    exact ⟨h a request List.mem_cons_self, fun b r hmem => h b r (List.mem_cons_of_mem _ hmem)⟩
  · rintro ⟨hfound, hrest⟩ b r hmem
    rcases List.mem_cons.1 hmem with heq | hmem
    · cases heq
      exact hfound
    · exact hrest b r hmem

theorem allFound_native_iff {next : π} {rest : List (Waiting π)} :
    AllFound (.native next :: rest) ↔ AllFound rest :=
  ⟨fun h a r hmem => h a r (List.mem_cons_of_mem _ hmem),
    fun h a r hmem => h a r ((List.mem_cons.1 hmem).resolve_left nofun)⟩

theorem allFound_runner_iff {k : Nat} {previous : Option Nat} {rest : List (Waiting π)} :
    AllFound (.runner k previous :: rest) ↔ AllFound rest :=
  ⟨fun h a r hmem => h a r (List.mem_cons_of_mem _ hmem),
    fun h a r hmem => h a r ((List.mem_cons.1 hmem).resolve_left nofun)⟩

/-- Of the calls that are waited for, the last one may still be about to be carried out, or its
answer about to be handed over. All others have found their methods. -/
def Answers (waiting : List (Waiting π)) (focus : Focus) : Prop :=
  AllFound waiting ∨ ∃ a request rest, waiting = .caller a request :: rest ∧ AllFound rest ∧
    (focus = .request (.call request) ∨
      ∃ outcome, focus = .answer outcome ∧ request.MayAnswer outcome)

end Waiting

variable {H : Host}

/-- All activations of the execution have arisen, and whoever waits for an answer gets one that it
may get. -/
structure Lively (e : Execution H) : Prop where
  active : ∀ a, e.focus = .active a → a.Arises a.method
  waits : ∀ w request, .caller w request ∈ e.waiting → ∃ a classes m m',
    Activation.Arises w.method a ∧ a.step classes m = (.calling w request, m')
  answers : Answers e.waiting e.focus

theorem lively_request (machine : Machine H) (request : Request) :
    Lively { machine, focus := .request request } :=
  ⟨nofun, fun _ _ hmem => absurd hmem List.not_mem_nil,
    .inl fun _ _ hmem => absurd hmem List.not_mem_nil⟩

namespace Lively

variable {e : Execution H} {c : Call}

/-- Nobody waits for what is neither a call nor an answer. -/
theorem allFound (h : e.Lively) (hcall : ∀ c, e.focus ≠ .request (.call c))
    (hanswer : ∀ outcome, e.focus ≠ .answer outcome) : AllFound e.waiting := by
  rcases h.answers with hfound | ⟨a, request, rest, -, -, hfocus | ⟨outcome, hfocus, -⟩⟩
  · exact hfound
  · exact absurd hfocus (hcall request)
  · exact absurd hfocus (hanswer outcome)

/-- With an outcome for all who wait, or for a call that nobody else waits for. -/
theorem answer (h : e.Lively) (outcome : Except RunError (Option Value))
    (hfound : AllFound e.waiting) : (e.answer outcome).Lively :=
  ⟨nofun, h.waits, .inl hfound⟩

/-- A method of the host that has found its caller answers, or asks for more and waits itself. -/
theorem respond (h : e.Lively) (host : HostState H.State) (response : Response H.Pending)
    (hfound : AllFound e.waiting) :
    ({ e with machine := { e.machine with host } }.respond response).Lively := by
  cases response with
  | answer => exact ⟨nofun, h.waits, .inl hfound⟩
  | ask request next =>
    refine ⟨nofun, fun w request' hmem => ?_, .inl (allFound_native_iff.2 hfound)⟩
    exact h.waits w request' ((List.mem_cons.1 hmem).resolve_left nofun)

/-- Whoever waits for a call that is about to be carried out is the last to wait. -/
theorem asked (h : e.Lively) (hfocus : e.focus = .request (.call c)) :
    AllFound e.waiting ∨ ∃ a rest, e.waiting = .caller a c :: rest ∧ AllFound rest := by
  rcases h.answers with hfound | ⟨a, request, rest, hwaiting, hrest, hcall | ⟨_, hanswer, -⟩⟩
  · exact .inl hfound
  · rw [hfocus] at hcall
    cases hcall
    exact .inr ⟨a, rest, hwaiting, hrest⟩
  · rw [hfocus] at hanswer
    cases hanswer

/-- A call is carried out. -/
theorem call (h : e.Lively) (c : Call)
    (hc : AllFound e.waiting ∨ ∃ a rest, e.waiting = .caller a c :: rest ∧ AllFound rest) :
    (e.call c).Lively := by
  have hfound (hc' : c.Found) : AllFound e.waiting := by
    rcases hc with hfound | ⟨a, rest, hwaiting, hrest⟩
    · exact hfound
    · rw [hwaiting]
      exact allFound_caller_iff.2 ⟨hc', hrest⟩
  unfold Execution.call
  split
  · -- The method cannot be found, and this is the answer that whoever has asked may get.
    rename_i error htarget
    refine ⟨nofun, h.waits, ?_⟩
    rcases hc with hfound | ⟨a, rest, hwaiting, hrest⟩
    · exact .inl hfound
    · refine .inr ⟨a, c, rest, hwaiting, hrest, .inr ⟨_, rfl, H, e.machine, fun e' he => ?_⟩⟩
      rw [htarget] at he
      cases he
      rfl
  · rename_i m htarget
    have hfound := hfound ⟨_, _, _, htarget⟩
    unfold start
    split
    · exact h.answer _ hfound
    · split
      · rename_i a henter
        refine ⟨fun b hb => ?_, h.waits, .inl hfound⟩
        cases hb
        rw [(Activation.Fits.enter henter).method_eq]
        exact .enter henter
      · exact h.answer _ hfound
  · -- A method of the host answers or asks for more, and has been found in either case.
    rename_i n htarget
    exact h.respond _ _ (hfound ⟨_, _, _, htarget⟩)

theorem perform (h : e.Lively) {request : Request} (hfocus : e.focus = .request request) :
    (e.perform request).Lively := by
  cases request with
  | call c => exact h.call c (h.asked hfocus)
  | on receiver name desc args =>
    have hfound : AllFound e.waiting := h.allFound (by simp [hfocus]) (by simp [hfocus])
    unfold Execution.perform
    dsimp only
    split
    · exact h.answer _ hfound
    · exact h.call _ (.inl hfound)
  | run k =>
    have hfound : AllFound e.waiting := h.allFound (by simp [hfocus]) (by simp [hfocus])
    unfold Execution.perform runCoroutine
    dsimp only
    split
    · exact h.answer _ hfound
    · refine ⟨nofun, fun w request hmem => ?_, .inl (allFound_runner_iff.2 hfound)⟩
      exact h.waits w request ((List.mem_cons.1 hmem).resolve_left nofun)

/-- A step keeps an execution lively. -/
theorem step (h : e.Lively) : e.step.Lively := by
  rcases hfocus : e.focus with request | a | outcome
  · rw [step_of_request hfocus]
    exact h.perform hfocus
  · -- An activation is at work, so nobody is about to be answered.
    have hfound : AllFound e.waiting := h.allFound (by simp [hfocus]) (by simp [hfocus])
    have ha := h.active a hfocus
    rcases hstep : a.step e.machine.classes e.machine.memory with ⟨progress, m⟩
    rw [step_of_active hfocus hstep]
    cases progress with
    | going b =>
      refine ⟨fun b' hb => ?_, h.waits, .inl hfound⟩
      cases hb
      rw [(ha.fits.step hstep).method_eq]
      exact ha.step hstep
    | done outcome => exact ⟨nofun, h.waits, .inl hfound⟩
    | calling w request =>
      refine ⟨nofun, fun w' request' hmem => ?_, .inr ⟨w, request, _, rfl, hfound, .inl rfl⟩⟩
      rcases List.mem_cons.1 hmem with heq | hmem
      · cases heq
        rw [(ha.fits.calling hstep).method_eq]
        exact ⟨a, _, _, _, ha, hstep⟩
      · exact h.waits w' request' hmem
  · rcases hwaiting : e.waiting with _ | ⟨⟨w, request⟩ | next | ⟨k, previous⟩, rest⟩
    · rw [step_of_nobody hfocus hwaiting]
      exact h
    · have hwaits : ∀ w' request', .caller w' request' ∈ rest → ∃ a classes m m',
          Activation.Arises w'.method a ∧ a.step classes m = (.calling w' request', m') :=
        fun w' request' hmem => h.waits w' request' (hwaiting ▸ List.mem_cons_of_mem _ hmem)
      -- Whoever has found the method may be answered in any way.
      have hanswers : request.MayAnswer outcome ∧ AllFound rest := by
        rcases h.answers with hfound | ⟨a, request', rest', heq, hrest, hcall | ⟨outcome', ho, hmay⟩⟩
        · obtain ⟨hfound, hrest⟩ := allFound_caller_iff.1 (hwaiting ▸ hfound)
          exact ⟨hfound.mayAnswer outcome, hrest⟩
        · rw [hfocus] at hcall
          cases hcall
        · rw [hwaiting] at heq
          rw [hfocus] at ho
          cases heq
          cases ho
          exact ⟨hmay, hrest⟩
      obtain ⟨a, classes, m, m', ha, hcall⟩ :=
        h.waits w request (hwaiting ▸ List.mem_cons_self)
      rcases hresume : w.resume e.machine.classes request outcome e.machine.memory with ⟨progress, m₁⟩
      rw [step_of_caller hfocus hwaiting hresume]
      cases progress with
      | going b =>
        refine ⟨fun b' hb => ?_, hwaits, .inl hanswers.2⟩
        cases hb
        rw [((ha.fits.calling hcall).resume hresume).method_eq]
        exact .answered ha hcall hanswers.1 hresume
      | done outcome => exact ⟨nofun, hwaits, .inl hanswers.2⟩
      | calling w' request' =>
        exact absurd rfl ((Activation.resume_spares (c := 0) hresume).2.2 w' request')
    · rcases hresume : H.resume next outcome e.machine.host with ⟨response, host⟩
      rw [step_of_native hfocus hwaiting hresume]
      have hfound : AllFound rest := by
        rcases h.answers with hfound | ⟨a, request', rest', heq, -⟩
        · exact allFound_native_iff.1 (hwaiting ▸ hfound)
        · rw [hwaiting] at heq
          cases heq
      have hrest : { e with waiting := rest }.Lively := by
        refine ⟨h.active, fun w request hmem => ?_, .inl hfound⟩
        exact h.waits w request (hwaiting ▸ List.mem_cons_of_mem _ hmem)
      exact hrest.respond host response hfound
    · rcases hend : e.machine.memory.coroutines.conclude k previous (outcome.map fun _ => ()) with
        ⟨coroutines, conclusion⟩
      rw [step_of_runner hfocus hwaiting hend]
      have hfound : AllFound rest := by
        rcases h.answers with hfound | ⟨a, request', rest', heq, -⟩
        · exact allFound_runner_iff.1 (hwaiting ▸ hfound)
        · rw [hwaiting] at heq
          cases heq
      exact ⟨nofun, fun w request hmem => h.waits w request (hwaiting ▸ List.mem_cons_of_mem _ hmem),
        .inl hfound⟩

theorem iterate (h : e.Lively) (n : Nat) : (Execution.step^[n] e).Lively := by
  induction n with
  | zero => exact h
  | succ n ih =>
    rw [Function.iterate_succ_apply']
    exact ih.step

end Lively

/-- **All activations of an execution arise**, whatever the machine and whatever it is asked for. -/
theorem arises_of_active {machine : Machine H} {request : Request} {n : Nat} {a : Activation}
    (h : (step^[n] { machine, focus := .request request }).focus = .active a) : a.Arises a.method :=
  ((lively_request machine request).iterate n).active a h

end Execution

end Resumable
