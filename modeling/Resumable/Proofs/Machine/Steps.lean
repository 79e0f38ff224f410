import Resumable.Proofs.Machine.Errors
import Resumable.Proofs.Machine.Spares

/-!
# Steps of an activation

What one step of an activation comes to. `Activation.step_cases` says so for all instructions, and
`Exec.instr_frame_cases` adds what a frame operation does to the frames of the active coroutine. A
step spares a coroutine unless it is such an operation on that coroutine (`Activation.step_spares`).
-/

namespace Resumable

/-! ## Frame operations -/

/-- A frame operation turns the first stack into the second. -/
inductive FrameStack.Acts : FrameOp → FrameStack → FrameStack → Prop where
  | entry {s : FrameStack} (h : s.enter.1.toNat < 2147483648) : Acts .entry s s.enter.2
  | reserve {s s' : FrameStack} {entry slots : UInt32} (h : s.reserve entry slots.toUInt64 = .ok s') :
    Acts (.reserve entry slots) s s'
  | release {s s' : FrameStack} (h : s.release = .ok s') : Acts .release s s'
  | save {s s' : FrameStack} {kind : SlotKind} {slot : UInt32} {v : Value}
    (h : s.save kind slot v = .ok s') : Acts (.save kind slot) s s'
  | restore {kind : SlotKind} {slot : UInt32} {s : FrameStack} : Acts (.restore kind slot) s s

/-- Saving does not move the cursor and changes no mark. -/
theorem FrameStack.save_frames {s s' : FrameStack} {kind : SlotKind} {slot : UInt32} {v : Value}
    (h : s.save kind slot v = .ok s') : s'.frames = s.frames ∧ s'.depth = s.depth := by
  unfold save at h
  dsimp only at h
  split at h
  · cases h
  · obtain ⟨index, -, h⟩ := bind_eq_ok.1 h
    cases h
    split <;> exact ⟨rfl, rfl⟩

namespace Exec

variable {α : Type} {classes : ClassTable} {a a' : Activation} {m m' : Memory} {s : FrameStack}

theorem run_onStack {f : FrameStack → Except RunError (α × FrameStack)} (hs : m.stack? = some s) :
    ((onStack f).run a).run m = match f s with
      | .ok (x, s') => (.ok (x, a), m.withStack s')
      | .error e => (.error e, m) := by
  rcases hf : f s with e | ⟨x, s'⟩
  · obtain ⟨k, c, hactive, hall, rfl⟩ := Memory.stack?_eq_some hs
    have hstack : m.coroutines.onStack f = .error e := by
      simp [Coroutines.onStack, Coroutines.onActive, hactive, hall, hf, bind, Except.bind]
    have hget : ((getThe Memory : Exec Memory).run a).run m = (.ok (m, a), m) := rfl
    unfold onStack
    rw [run_bind_of_ok hget, hstack]
    rfl
  · exact Does.onStack_of_ok hs hf

/-- What a frame operation comes to: the signal, the end, or other frames. -/
theorem instr_frame_cases {op : FrameOp} {out : Except RunError (Move × Activation)}
    (hs : m.stack? = some s) (h : ((instr classes (.frame op)).run a).run m = (out, m')) :
    op = .suspend ∧ out = .error .suspension ∧ m' = m ∨ (∃ e, out = .error e ∧ e.IsFatal) ∨
      ∃ a' s', out = .ok (.next, a') ∧ m' = m.withStack s' ∧ FrameStack.Acts op s s' ∧
        a'.method = a.method ∧ (op = .entry → a'.stack = .int s.enter.1.toInt32 :: a.stack) := by
  have hfails {e : RunError} {m₁ : Memory} (hrun : ((frame op).run a).run m = (.error e, m₁)) :
      out = .error e ∧ m' = m₁ := by
    have hinstr : ((instr classes (.frame op)).run a).run m = (.error e, m₁) :=
      run_bind_of_error hrun
    rw [h] at hinstr
    exact Prod.mk.inj hinstr
  have hdoes {a₁ : Activation} {m₁ : Memory} (hrun : Does (frame op) a m () a₁ m₁) :
      out = .ok (.next, a₁) ∧ m' = m₁ := by
    have hinstr : ((instr classes (.frame op)).run a).run m = (.ok (.next, a₁), m₁) :=
      Does.instr_frame hrun
    rw [h] at hinstr
    exact Prod.mk.inj hinstr
  cases op with
  | entry =>
    right
    have henter : Does (onStack fun s => .ok s.enter) a m s.enter.1 a (m.withStack s.enter.2) :=
      Does.onStack_of_ok hs rfl
    by_cases hlt : Nat.pow 2 31 ≤ s.enter.1.toNat
    · have hrun : ((frame .entry).run a).run m =
          (.error (.invalidState (.entryOutOfRange s.enter.1)), m.withStack s.enter.2) := by
        refine (run_bind_of_ok henter).trans ?_
        dsimp only
        rw [if_pos hlt]
        rfl
      exact .inl ⟨_, (hfails hrun).1, fun _ => rfl⟩
    · have hsmall : s.enter.1.toNat < 2147483648 := Nat.lt_of_not_le hlt
      have hrun : Does (frame .entry) a m ()
          (a.withStack (.int s.enter.1.toInt32 :: a.stack)) (m.withStack s.enter.2) := by
        refine henter.seq ?_
        dsimp only
        rw [if_neg hlt]
        rfl
      obtain ⟨rfl, rfl⟩ := hdoes hrun
      exact .inr ⟨_, _, rfl, rfl, .entry hsmall, rfl, fun _ => rfl⟩
  | reserve entry slots =>
    right
    rcases hreserve : s.reserve entry slots.toUInt64 with e | s'
    · have hrun : ((frame (.reserve entry slots)).run a).run m = (.error e, m) :=
        (run_onStack hs).trans (by rw [hreserve]; rfl)
      exact .inl ⟨e, (hfails hrun).1, (FrameStack.refusal_of_reserve hreserve).isFatal⟩
    · obtain ⟨rfl, rfl⟩ := hdoes (Does.onStack_of_ok hs (by rw [hreserve]; rfl))
      exact .inr ⟨_, s', rfl, rfl, .reserve hreserve, rfl, nofun⟩
  | release =>
    right
    rcases hrelease : s.release with e | s'
    · have hrun : ((frame .release).run a).run m = (.error e, m) :=
        (run_onStack hs).trans (by rw [hrelease]; rfl)
      exact .inl ⟨e, (hfails hrun).1, (FrameStack.refusal_of_release hrelease).isFatal⟩
    · obtain ⟨rfl, rfl⟩ := hdoes (Does.onStack_of_ok hs (by rw [hrelease]; rfl))
      exact .inr ⟨_, s', rfl, rfl, .release hrelease, rfl, nofun⟩
  | save kind slot =>
    right
    rcases hstack : a.stack with _ | ⟨v, rest⟩
    · have hpop : (pop.run a).run m = (.error .stackUnderflow, m) := by
        obtain ⟨method, locals, stack, pc⟩ := a
        obtain rfl : stack = [] := hstack
        rfl
      exact .inl ⟨_, (hfails (run_bind_of_error hpop)).1, fun _ => rfl⟩
    · have hpop := @Does.pop_of_stack a m v rest hstack
      rcases hsave : s.save kind slot v with e | s'
      · have hrun : ((frame (.save kind slot)).run a).run m = (.error e, m) :=
          (run_bind_of_ok hpop).trans ((run_onStack hs).trans (by rw [hsave]; rfl))
        exact .inl ⟨e, (hfails hrun).1, (FrameStack.refusal_of_save hsave).isFatal⟩
      · obtain ⟨rfl, rfl⟩ := hdoes (hpop.seq (Does.onStack_of_ok hs (by rw [hsave]; rfl)))
        exact .inr ⟨_, s', rfl, rfl, .save hsave, rfl, nofun⟩
  | restore kind slot =>
    right
    rcases hrestore : s.restore kind slot with e | v
    · have hstack : ((onStack fun s => return (← s.restore kind slot, s)).run a).run m =
          (.error e, m) := (run_onStack hs).trans (by rw [hrestore]; rfl)
      exact .inl ⟨e, (hfails (run_bind_of_error hstack)).1,
        (FrameStack.refusal_of_restore hrestore).isFatal⟩
    · have hstack : Does (onStack fun s => return (← s.restore kind slot, s)) a m v a
          (m.withStack s) := Does.onStack_of_ok hs (by rw [hrestore]; rfl)
      obtain ⟨rfl, rfl⟩ := hdoes (hstack.seq rfl)
      exact .inr ⟨_, s, rfl, rfl, .restore, rfl, nofun⟩
  | suspend => exact .inl ⟨rfl, hfails rfl⟩

end Exec

/-! ## Steps -/

/-- How an activation goes on after an instruction that succeeds at the place `pc`. -/
def Move.progress (pc : Nat) (a : Activation) : Move → Progress
  | .next => .going { a with pc := pc + 1 }
  | .goto pc => .going { a with pc }
  | .leave result => .done (.ok result)
  | .call request => .calling a request

/-- The activation ends in a way that nobody can catch. -/
def Progress.IsFatal (p : Progress) : Prop := ∃ e, p = .done (.error e) ∧ e.IsFatal

namespace Activation

variable {classes : ClassTable} {a b w : Activation} {m m' : Memory} {i : Instr} {c : Nat}
  {progress : Progress} {request : Call} {e : RunError}

/-- An instruction fails, and its error is raised, or it succeeds and leads somewhere. -/
theorem step_cases (hi : a.method.method.code[a.pc]? = some i)
    (h : a.step classes m = (progress, m')) :
    (∃ e m₁, ((Exec.instr classes i).run a).run m = (.error e, m₁) ∧
      a.raise classes e m₁ = (progress, m')) ∨
    ∃ move a', Exec.Does (Exec.instr classes i) a m move a' m' ∧
      progress = move.progress a.pc a' := by
  unfold step at h
  rw [hi] at h
  dsimp only at h
  rcases hrun : ((Exec.instr classes i).run a).run m with ⟨e | ⟨move, a'⟩, m₁⟩
  · rw [hrun] at h
    exact .inl ⟨e, m₁, rfl, h⟩
  · rw [hrun] at h
    cases move with
    | next | goto _ | leave _ | call _ =>
      cases h
      exact .inr ⟨_, a', hrun, rfl⟩

/-- Behind the code, a step tells just that. -/
theorem step_of_none (h : a.method.method.code[a.pc]? = none) :
    a.step classes m = (.done (.error (.code (.fellOff a.method.ref))), m) := by
  unfold step
  rw [h]

theorem step_of_failure (hi : a.method.method.code[a.pc]? = some i)
    (hrun : ((Exec.instr classes i).run a).run m = (.error e, m')) :
    a.step classes m = a.raise classes e m' := by
  unfold step
  rw [hi]
  dsimp only
  rw [hrun]

/-- Looking for a handler leaves everything alone but the heap. -/
theorem raise_spares (h : a.raise classes e m = (progress, m')) :
    m.Spares c m' ∧ (∀ b, progress = .going b → b.method = a.method) := by
  have hheap {heap : Heap} {exception : Value} (he : e.exception? m.heap = some (heap, exception)) :
      m.heap.Extends heap := by
    unfold RunError.exception? at he
    split at he
    · cases he
      exact .refl _
    · cases he
      exact m.heap.extends_newException _ _
    · cases he
      exact m.heap.extends_newException _ _
    · cases he
  unfold raise at h
  split at h
  · cases h
    exact ⟨.refl c _, fun b hb => by cases hb⟩
  · rename_i heap exception he
    dsimp only at h
    split at h
    · cases h
      refine ⟨.of_heap c (hheap he), fun b hb => ?_⟩
      cases hb
      rfl
    · cases h
      exact ⟨.of_heap c (hheap he), fun b hb => by cases hb⟩

/-- A step spares a coroutine, unless it is a frame operation while the coroutine is active. The
activation stays in its method, and if it calls, there is a call at its place. -/
theorem step_spares (h : a.step classes m = (progress, m'))
    (hi : ∀ op, a.method.method.code[a.pc]? = some (.frame op) → m.coroutines.active ≠ some c) :
    m.Spares c m' ∧ (∀ b, progress = .going b → b.method = a.method) ∧
      ∀ w request, progress = .calling w request → w.method = a.method ∧ w.pc = a.pc ∧
        ∃ op member, a.method.method.code[a.pc]? = some (.invoke op member) := by
  rcases hcode : a.method.method.code[a.pc]? with _ | i
  · rw [step_of_none hcode] at h
    cases h
    exact ⟨.refl c m, fun b hb => (by cases hb), fun w request hw => (by cases hw)⟩
  have hspares : Exec.Spares c (fun active => ∀ op, i = .frame op → active ≠ some c)
      (Exec.instr classes i) := by
    refine Exec.spares_instr classes ?_
    by_cases hframe : ∃ op, i = .frame op
    · obtain ⟨op, rfl⟩ := hframe
      exact .inr fun k hk => hk op rfl
    · exact .inl fun op heq => hframe ⟨op, heq⟩
  obtain ⟨hmemory, hstays⟩ := hspares a m fun op heq => hi op (heq ▸ hcode)
  rcases step_cases hcode h with ⟨e, m₁, hrun, hraise⟩ | ⟨move, a', hdoes, rfl⟩
  · rw [hrun] at hmemory
    obtain ⟨hrest, hmethod⟩ := raise_spares (c := c) hraise
    refine ⟨hmemory.trans hrest, hmethod, fun w request heq => ?_⟩
    rw [heq] at hraise
    exact absurd hraise raise_ne_calling
  · rw [show ((Exec.instr classes i).run a).run m = _ from hdoes] at hmemory hstays
    obtain ⟨hmethod, hpc⟩ := hstays move a' rfl
    have hleads := Exec.leads_instr hdoes
    refine ⟨hmemory, fun b hb => ?_, fun w request hw => ?_⟩
    · cases move <;> cases hb <;> exact hmethod
    · cases move <;> cases hw
      obtain ⟨op, member, rfl⟩ := hleads
      exact ⟨hmethod, hpc, op, member, rfl⟩

/-- Going on with an answer spares all coroutines, and it is no call. -/
theorem resume_spares {answer : Except RunError (Option Value)}
    (h : a.resume classes request answer m = (progress, m')) :
    m.Spares c m' ∧ (∀ b, progress = .going b → b.method = a.method) ∧
      ∀ w request, progress ≠ .calling w request := by
  have hraised {e : RunError} (hraise : a.raise classes e m = (progress, m')) :
      m.Spares c m' ∧ (∀ b, progress = .going b → b.method = a.method) ∧
        ∀ w request, progress ≠ .calling w request := by
    obtain ⟨hspares, hmethod⟩ := raise_spares (c := c) hraise
    refine ⟨hspares, hmethod, fun w request heq => ?_⟩
    rw [heq] at hraise
    exact raise_ne_calling hraise
  unfold resume at h
  split at h
  · exact hraised h
  · split at h
    · exact hraised h
    · split at h
      · cases h
        exact ⟨.refl c m, fun b hb => (by cases hb; rfl), fun w request hw => (by cases hw)⟩
      · cases h
        exact ⟨.refl c m, fun b hb => (by cases hb; rfl), fun w request hw => (by cases hw)⟩
      · exact hraised h

/-- With the answer to a call, an activation goes on behind the call, or an error is raised: the one
that answers, or an ordinary one that is fatal. -/
theorem resume_cases {answer : Except RunError (Option Value)}
    (h : a.resume classes request answer m = (progress, m')) :
    (∃ e, (answer = .error e ∨ e.IsFatal ∧ e.isOrdinary = true) ∧
        a.raise classes e m = (progress, m')) ∨
      (∃ result, answer = .ok result) ∧ m' = m ∧
        ∃ stack, progress = .going { a with stack, pc := a.pc + 1 } := by
  unfold resume at h
  split at h
  · exact .inl ⟨_, .inl rfl, h⟩
  · split at h
    · rename_i e htype
      refine .inl ⟨e, .inr ?_, h⟩
      unfold Exec.methodType at htype
      rcases hparse : MethodType.parse request.member.desc with cause | type
      · rw [hparse] at htype
        cases htype
        exact ⟨fun _ => rfl, rfl⟩
      · rw [hparse] at htype
        cases htype
    · split at h
      · cases h
        exact .inr ⟨⟨_, rfl⟩, rfl, _, rfl⟩
      · cases h
        exact .inr ⟨⟨_, rfl⟩, rfl, _, rfl⟩
      · exact .inl ⟨_, .inr ⟨fun _ => rfl, rfl⟩, h⟩

/-- A fatal error ends the activation. -/
theorem raise_of_fatal (he : e.IsFatal) : a.raise classes e m = (.done (.error e), m) := by
  unfold raise
  rw [he]

/-- Nobody can catch it when there is no room for the slots of a point. -/
theorem step_of_reserve_error {entry slots : UInt32} {s : FrameStack}
    (hi : a.method.method.code[a.pc]? = some (.frame (.reserve entry slots)))
    (hs : m.stack? = some s) (he : s.reserve entry slots.toUInt64 = .error e) :
    a.step classes m = (.done (.error e), m) := by
  have hrun : ((Exec.frame (.reserve entry slots)).run a).run m = (.error e, m) :=
    (Exec.run_onStack hs).trans (by rw [he]; rfl)
  rw [step_of_failure hi (Exec.run_bind_of_error hrun)]
  exact raise_of_fatal (FrameStack.refusal_of_reserve he).isFatal

/-- An activation ends with the signal only if an instruction raises it. -/
theorem raises_of_suspends (hsignal : (m.heap.object 0).type = Names.suspendExecution)
    (h : a.step classes m = (.done (.error .suspension), m')) :
    ∃ i m₁, a.method.method.code[a.pc]? = some i ∧
      ((Exec.instr classes i).run a).run m = (.error .suspension, m₁) := by
  rcases hcode : a.method.method.code[a.pc]? with _ | i
  · rw [step_of_none hcode] at h
    cases h
  refine ⟨i, ?_⟩
  rcases step_cases hcode h with ⟨e, m₁, hrun, hraise⟩ | ⟨move, a', hdoes, hprogress⟩
  · refine ⟨m₁, rfl, ?_⟩
    rw [hrun]
    -- The signal is not a new object.
    have hnew (type message : String) : (m₁.heap.newException type message).2 ≠ Heap.signal := by
      obtain ⟨c, hc⟩ := m.coroutines.exists_not_active
      have hspares : Exec.Spares c (fun active => active ≠ some c) (Exec.instr classes i) :=
        Exec.spares_instr classes (.inr fun _ hk => hk)
      obtain ⟨hspares, -⟩ := hspares a m hc
      rw [hrun] at hspares
      have hsize : 0 < m₁.heap.objects.size := Heap.size_pos_of_signal (hspares.heap.signal hsignal)
      exact fun heq => Nat.ne_of_gt hsize (Value.object.inj heq)
    unfold raise at hraise
    split at hraise
    · rename_i hnone
      cases hraise
      cases hnone
    · rename_i heap v hsome
      dsimp only at hraise
      split at hraise
      · cases hraise
      · cases hraise
        unfold RunError.exception? at hsome
        split at hsome
        · cases hsome
          rfl
        · exact absurd (congrArg Prod.snd (Option.some.inj hsome)) (hnew _ _)
        · exact absurd (congrArg Prod.snd (Option.some.inj hsome)) (hnew _ _)
        · cases hsome
  · cases move <;> cases hprogress

/-- What a frame operation comes to, for an activation of the active coroutine. -/
theorem step_frame_cases {op : FrameOp} {s : FrameStack}
    (hi : a.method.method.code[a.pc]? = some (.frame op)) (hs : m.stack? = some s)
    (h : a.step classes m = (progress, m')) :
    op = .suspend ∧ a.raise classes .suspension m = (progress, m') ∨ progress.IsFatal ∨
      ∃ (a' : Activation) (s' : FrameStack), progress = .going { a' with pc := a.pc + 1 } ∧
        m' = m.withStack s' ∧ FrameStack.Acts op s s' ∧ a'.method = a.method ∧
        (op = .entry → a'.stack = .int s.enter.1.toInt32 :: a.stack) := by
  rcases step_cases hi h with ⟨e, m₁, hrun, hraise⟩ | ⟨move, a', hdoes, rfl⟩
  · rcases Exec.instr_frame_cases hs hrun with ⟨rfl, he, rfl⟩ | ⟨e', he, hfatal⟩ | ⟨_, _, he, -⟩
    · cases he
      exact .inl ⟨rfl, hraise⟩
    · cases he
      rw [raise_of_fatal hfatal] at hraise
      cases hraise
      exact .inr (.inl ⟨e, rfl, hfatal⟩)
    · cases he
  · rcases Exec.instr_frame_cases hs hdoes with ⟨-, he, -⟩ | ⟨_, he, -⟩ |
      ⟨a₁, s', heq, hm, hacts, hmethod, hentry⟩
    · cases he
    · cases he
    · cases heq
      exact .inr (.inr ⟨a', s', rfl, hm, hacts, hmethod, hentry⟩)

end Activation

end Resumable
