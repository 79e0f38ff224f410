import Resumable.Proofs.FrameStack.Nesting
import Resumable.Proofs.Instrument.Frames
import Resumable.Proofs.Machine.Steps

/-!
# The phases of an activation

An activation of a transformed method goes through phases (`Reentrant.Phase`): it arrives, finds the
place to go on from, works, and in the end it has either released its frame or been left by the
signal. Its frame is the one with the number `level`; frames further out are left alone
(`FrameStack.Within`).

Each step leads from a phase to a phase (`Reentrant.leads_of_step`), and so does going on with the
answer to a call (`Reentrant.leads_of_resume`). What comes out at the end is told by the phase: a
result or an exception other than the signal comes out only of an activation that has released its
frame, once and for all.
-/

namespace Resumable

/-- The outcome is a result or an exception that is no signal. -/
def Completes (classes : ClassTable) (heap : Heap) : Except RunError (Option Value) → Prop
  | .ok _ => True
  | .error e => ¬ e.IsFatal ∧
    ∀ v, e = .thrown v → classes.isInstance heap v Names.suspendExecution = false

/-- The second stack has the `level` outermost frames of the first, and they are entered. -/
structure FrameStack.Within (level : Nat) (s s' : FrameStack) : Prop where
  frames : s'.frames.take level = s.frames.take level
  depth : level ≤ s'.depth
  length : level ≤ s'.frames.length

namespace FrameStack.Within

variable {level level' k : Nat} {s s' s'' : FrameStack}

theorem refl (hdepth : level ≤ s.depth) (hlength : level ≤ s.frames.length) : Within level s s :=
  ⟨rfl, hdepth, hlength⟩

theorem trans (h : Within level s s') (h' : Within level s' s'') : Within level s s'' :=
  ⟨h'.frames.trans h.frames, h'.depth, h'.length⟩

theorem mono (h : Within level s s') (hle : level' ≤ level) : Within level' s s' := by
  refine ⟨?_, Nat.le_trans hle h.depth, Nat.le_trans hle h.length⟩
  have htake := congrArg (List.take level') h.frames
  rwa [List.take_take, List.take_take, Nat.min_eq_left hle] at htake

theorem getElem? (h : Within level s s') (hk : k < level) : s'.frames[k]? = s.frames[k]? := by
  have hget := congrArg (·[k]?) h.frames
  simpa [List.getElem?_take, hk] using hget

/-- The next frame is entered: one that was there, or a new one with index 0. -/
theorem enter (h : s.depth ≤ s.frames.length) : Within s.depth s s.enter.2 ∧
    s.enter.2.depth = s.depth + 1 ∧
    ∃ f, s.enter.2.frames[s.depth]? = some f ∧ f.resumeIndex = s.enter.1 := by
  rcases hf : s.frames[s.depth]? with _ | f
  · have hlen : s.frames.length = s.depth := by
      have := List.getElem?_eq_none_iff.1 hf
      omega
    rw [enter_of_none hf]
    refine ⟨⟨by simp [← hlen], by simp, by simp; omega⟩, rfl,
      ⟨0, if s.depth = 0 then 0 else s.top⟩, ?_, rfl⟩
    rw [List.getElem?_append_right (Nat.le_of_eq hlen), hlen, Nat.sub_self]
    rfl
  · rw [enter_of_some hf]
    exact ⟨⟨rfl, Nat.le_succ _, h⟩, rfl, f, hf, rfl⟩

/-- Where the current method goes on is recorded in its frame. -/
theorem reserve {entry : UInt32} {slots : UInt64} (hdepth : s.depth = level + 1)
    (hlen : level < s.frames.length) (h : s.reserve entry slots = .ok s') : Within level s s' ∧
      s'.depth = level + 1 ∧ ∃ f, s'.frames[level]? = some f ∧ f.resumeIndex = entry := by
  have htake : (s.frames.take level).length = level := by
    rw [List.length_take, Nat.min_eq_left (Nat.le_of_lt hlen)]
  obtain ⟨k, f, hk, -, -, rfl⟩ := reserve_eq_ok h
  obtain rfl : k = level := by omega
  refine ⟨⟨?_, ?_, ?_⟩, by rw [← hdepth]; exact grow_depth _, ⟨entry, f.base⟩, ?_, rfl⟩
  · exact List.take_left' htake
  · show k ≤ (s.grow _).depth
    rw [grow_depth, hdepth]
    exact Nat.le_succ _
  · show k ≤ (s.frames.take k ++ _).length
    rw [List.length_append, htake]
    exact Nat.le_add_right _ _
  · show (s.frames.take k ++ _)[k]? = _
    rw [List.getElem?_append_right (Nat.le_of_eq htake), htake, Nat.sub_self]
    rfl

/-- Once it has been released, the frame is not there any more. -/
theorem release (hdepth : s.depth = level + 1) (hlen : level < s.frames.length)
    (h : s.release = .ok s') : Within level s s' ∧ s'.depth = level ∧ s'.frames.length = level := by
  have htake : (s.frames.take level).length = level := by
    rw [List.length_take, Nat.min_eq_left (Nat.le_of_lt hlen)]
  rw [release_of_depth hdepth (List.getElem?_eq_getElem hlen)] at h
  cases h
  exact ⟨⟨by rw [List.take_take, Nat.min_self], Nat.le_refl _, Nat.le_of_eq htake.symm⟩, rfl, htake⟩

/-- Of the operations of the current method, all but the release keep its frame, and only recording
changes the index there. -/
theorem acts {op : FrameOp} (hdepth : s.depth = level + 1) (hlen : level < s.frames.length)
    (h : Acts op s s') (hentry : op ≠ .entry) (hrelease : op ≠ .release) : Within level s s' ∧
      s'.depth = level + 1 ∧ level < s'.frames.length ∧
      (∀ entry slots, op = .reserve entry slots →
        ∃ f, s'.frames[level]? = some f ∧ f.resumeIndex = entry) ∧
      ((∀ entry slots, op ≠ .reserve entry slots) → s'.frames[level]? = s.frames[level]?) := by
  cases h with
  | entry => exact absurd rfl hentry
  | release => exact absurd rfl hrelease
  | reserve h =>
    obtain ⟨hwithin, hdepth', f, hf, hindex⟩ := reserve hdepth hlen h
    refine ⟨hwithin, hdepth', (List.getElem?_eq_some_iff.1 hf).1, fun entry slots heq => ?_,
      fun hnot => absurd rfl (hnot _ _)⟩
    cases heq
    exact ⟨f, hf, hindex⟩
  | save h =>
    obtain ⟨hframes, hsame⟩ := save_frames h
    have hwithin : Within level s s' := ⟨by rw [hframes], by omega, by rw [hframes]; omega⟩
    exact ⟨hwithin, hsame.trans hdepth, by rw [hframes]; exact hlen, nofun, fun _ => by rw [hframes]⟩
  | restore =>
    exact ⟨.refl (by omega) (Nat.le_of_lt hlen), hdepth, hlen, nofun, fun _ => rfl⟩

end FrameStack.Within

/-! ## Throwing on -/

/-- An instance of a class is a reference. -/
theorem ClassTable.isReference_of_isInstance {classes : ClassTable} {heap : Heap} {v : Value}
    {type : String} (h : classes.isInstance heap v type = true) :
    v.isReference = true ∧ v.isNull = false := by
  cases v <;> first | exact ⟨rfl, rfl⟩ | cases h

namespace Exec

variable {classes : ClassTable} {a a' : Activation} {m m' : Memory} {v : Value} {rest : List Value}

theorem run_athrow (h : a.stack = v :: rest) (hv : v.isReference = true) (hnull : v.isNull = false) :
    ((instr classes (.simple .athrow)).run a).run m = (.error (.thrown v), m) := by
  obtain ⟨method, locals, stack, pc⟩ := a
  obtain rfl : stack = v :: rest := h
  cases v <;> first | rfl | simp [Value.isReference, Value.isNull, Value.kind] at hv hnull

/-- A return fails only if there is nothing to return. -/
theorem fatal_of_return {op : Opcode} {e : RunError} (hop : op.isReturn = true)
    (h : ((instr classes (.simple op)).run a).run m = (.error e, m')) : e.IsFatal := by
  have hpop (hreturn : simple op = (do return .leave (some (← pop)))) : e.IsFatal := by
    obtain ⟨method, locals, stack, pc⟩ := a
    change ((simple op).run _).run m = _ at h
    rw [hreturn] at h
    cases stack with
    | nil =>
      cases h
      exact fun _ => rfl
    | cons => cases h
  cases op <;> first | exact absurd hop (by decide) | exact hpop rfl | exact nomatch h

end Exec

namespace Analysed

open Layout (startOf placeOf stop)

variable {a : Analysed} {plan : MethodPlan} {m : Method} {chunks : List (List Instr)}
  {classes : ClassTable} {level c : Nat} {heap : Heap} {s s' : FrameStack} {act b w : Activation}
  {mem mem' : Memory} {progress : Resumable.Progress} {spent : Bool} {q : Nat}

/-- If the place lies behind the record of a point, the frame has the index of the point. -/
def Recorded (plan : MethodPlan) (chunks : List (List Instr)) (level : Nat) (s : FrameStack)
    (q : Nat) : Prop :=
  ∀ k, Marked plan chunks k q →
    ∃ f, s.frames[level]? = some f ∧ f.resumeIndex = UInt32.ofNat (k + 1)

theorem Recorded.within (h : Recorded plan chunks level s q)
    (hs : FrameStack.Within (level + 1) s s') : Recorded plan chunks level s' q := by
  intro k hk
  rw [hs.getElem? (Nat.lt_succ_self level)]
  exact h k hk

namespace Reentrant

/-- An activation of a transformed method in the frame number `level`, with the frames `s`. It is
`spent` once it has released its frame. -/
inductive Phase (a : Analysed) (plan : MethodPlan) (m : Method) (chunks : List (List Instr))
    (classes : ClassTable) (level : Nat) (heap : Heap) (s : FrameStack) :
    (spent : Bool) → Activation → Prop where
  | arriving {b : Activation} (hpc : b.pc = 0) (hdepth : s.depth = level)
    (hframes : level ≤ s.frames.length) : Phase a plan m chunks classes level heap s false b
  /-- It has entered its frame and has the index found there on its operands. -/
  | choosing {b : Activation} {f : FrameMark} {rest : List Value} (hpc : b.pc = 1)
    (hdepth : s.depth = level + 1) (hf : s.frames[level]? = some f)
    (hsmall : f.resumeIndex.toNat < 2147483648)
    (hstack : b.stack = .int f.resumeIndex.toInt32 :: rest) :
    Phase a plan m chunks classes level heap s false b
  | working {b : Activation} (hlow : 2 ≤ b.pc) (hhigh : b.pc ≤ stop chunks + 2)
    (hreturn : ¬ AtReturn m.code b.pc) (hdepth : s.depth = level + 1)
    (hframes : level < s.frames.length) (hrecorded : Recorded plan chunks level s b.pc) :
    Phase a plan m chunks classes level heap s false b
  /-- It returns or throws on. -/
  | released {b : Activation} (hpc : AtReturn m.code b.pc ∨ stop chunks + 3 ≤ b.pc)
    (hdepth : s.depth = level) (hframes : s.frames.length = level) :
    Phase a plan m chunks classes level heap s true b
  /-- It throws the signal on. -/
  | signalled {b : Activation} {v : Value} (hpc : stop chunks + 3 ≤ b.pc) (hstack : b.stack = [v])
    (hsignal : classes.isInstance heap v Names.suspendExecution = true) (hdepth : level < s.depth)
    (hframes : level < s.frames.length) : Phase a plan m chunks classes level heap s false b

/-- An activation that waits for the answer to a call. -/
structure Waits (plan : MethodPlan) (m : Method) (chunks : List (List Instr)) (level : Nat)
    (s : FrameStack) (w : Activation) : Prop where
  call : ∃ op member, m.code[w.pc]? = some (.invoke op member)
  depth : level < s.depth
  frames : level < s.frames.length
  recorded : Recorded plan chunks level s w.pc

theorem Waits.within (h : Waits plan m chunks level s w) (hs : FrameStack.Within (level + 1) s s') :
    Waits plan m chunks level s' w :=
  ⟨h.call, hs.depth, hs.length, h.recorded.within hs⟩

/-- What an activation in the frame number `level` comes to. -/
def Next (a : Analysed) (plan : MethodPlan) (m : Method) (chunks : List (List Instr))
    (classes : ClassTable) (level : Nat) (heap : Heap) (s : FrameStack) (spent : Bool) :
    Resumable.Progress → Prop
  | .going b => b.method = .load a.owner m ∧ Phase a plan m chunks classes level heap s spent b
  | .calling w _ => spent = false ∧ w.method = .load a.owner m ∧
    Waits plan m chunks level s w ∧ s.depth = level + 1
  | .done outcome => Completes classes heap outcome →
    spent = true ∧ s.depth = level ∧ s.frames.length = level

/-- What a step leads to: the end of everything, or what comes next, with the frames further out as
they were. -/
def Leads (a : Analysed) (plan : MethodPlan) (m : Method) (chunks : List (List Instr))
    (classes : ClassTable) (c level : Nat) (s : FrameStack) (mem mem' : Memory) (spent : Bool)
    (progress : Resumable.Progress) : Prop :=
  progress.IsFatal ∨ ∃ s', mem'.coroutines.running? c = some s' ∧
    mem'.coroutines.active = mem.coroutines.active ∧ mem.heap.Extends mem'.heap ∧
    FrameStack.Within level s s' ∧ Next a plan m chunks classes level mem'.heap s' spent progress

/-- Where the coroutine has been spared, it remains to say what comes next. -/
theorem Leads.of_spares (hs : mem.coroutines.running? c = some s) (hspares : mem.Spares c mem')
    (hdepth : level ≤ s.depth) (hframes : level ≤ s.frames.length)
    (hnext : Next a plan m chunks classes level mem'.heap s spent progress) :
    Leads a plan m chunks classes c level s mem mem' spent progress :=
  .inr ⟨s, hspares.running.trans hs, hspares.active, hspares.heap, .refl hdepth hframes, hnext⟩

/-! ## Errors -/

/-- Between the labels at the ends, an error ends everything, or it goes to a handler: the signal
behind the release of the frame, anything else in front of it or to a handler of the method. -/
theorem raise_cases (h : a.Reentrant plan m chunks) (hmethod : b.method = .load a.owner m)
    (hlow : 2 ≤ b.pc) (hhigh : b.pc < stop chunks) (classes : ClassTable) (e : RunError)
    (mem : Memory) : (e.IsFatal ∧ b.raise classes e mem = (.done (.error e), mem)) ∨
      ∃ heap v pc, e.exception? mem.heap = some (heap, v) ∧
        b.raise classes e mem = (.going { b with stack := [v], pc }, { mem with heap }) ∧
        if classes.isInstance heap v Names.suspendExecution then pc = stop chunks + 3
        else a.Lands plan chunks pc ∨ pc = stop chunks + 1 := by
  rcases he : e.exception? mem.heap with _ | ⟨heap, v⟩
  · have hfatal : e.IsFatal := by
      intro heap
      unfold RunError.exception? at he ⊢
      split at he <;> first | rfl | cases he
    exact .inl ⟨hfatal, Activation.raise_of_fatal hfatal⟩
  right
  obtain ⟨cut, hhandlers, hcut⟩ := h.handlers
  have hraise {handler : LoadedHandler}
      (hfind : classes.handlerFor? heap b.method b.pc v = some handler) :
      b.raise classes e mem =
        (.going { b with stack := [v], pc := handler.target }, { mem with heap }) := by
    unfold Activation.raise
    rw [he]
    dsimp only
    rw [hfind]
  by_cases hinstance : classes.isInstance heap v Names.suspendExecution = true
  · refine ⟨heap, v, _, rfl, hraise (hmethod ▸ h.arranged.layout.handlerFor?_signal
      h.arranged.labels hlow hhigh hinstance), ?_⟩
    rw [if_pos hinstance]
  · -- The handler for everything else takes what no other does.
    have hother : ∃ other ∈ (LoadedMethod.load a.owner m).handlers, (other.covers b.pc &&
        other.catchType.all (classes.isInstance heap v)) = true := by
      refine ⟨⟨2, stop chunks, stop chunks + 1, none⟩, List.mem_filterMap.2 ⟨a.otherHandler, ?_, ?_⟩,
        ?_⟩
      · rw [hhandlers]
        simp
      · unfold Handler.load? otherHandler
        rw [h.arranged.layout.position_start h.arranged.labels,
          h.arranged.layout.position_stop h.arranged.labels,
          h.arranged.layout.position_catchAll h.arranged.labels]
        rfl
      · simp [LoadedHandler.covers, hlow, hhigh]
    obtain ⟨other, hother, htakes⟩ := hother
    rcases hfind : classes.handlerFor? heap (.load a.owner m) b.pc v with _ | handler
    · exact absurd htakes (List.find?_eq_none.1 hfind other hother)
    refine ⟨heap, v, _, rfl, hraise (hmethod ▸ hfind), ?_⟩
    rw [if_neg hinstance]
    obtain ⟨source, hsource, hload⟩ := List.mem_filterMap.1 (List.mem_of_find?_eq_some hfind)
    obtain ⟨-, -, htarget, htype⟩ := Handler.load?_eq_some_iff.1 hload
    rw [hhandlers, List.cons_append, List.mem_cons, List.mem_append, List.mem_singleton] at hsource
    rcases hsource with rfl | hsource | rfl
    · -- The handler for the signal takes only what is a signal.
      have htakes := List.find?_some hfind
      rw [Bool.and_eq_true, htype] at htakes
      exact absurd htakes.2 hinstance
    · exact .inl (h.lands_of_label (hcut source hsource) htarget)
    · right
      rw [show a.otherHandler.target = a.method.freshLabel 3 from rfl,
        h.arranged.layout.position_catchAll h.arranged.labels] at htarget
      exact (Option.some.inj htarget).symm

/-- An error that is raised while the activation works, or with the answer that it waits for, ends
everything or leads to a phase again. -/
theorem leads_of_raise (h : a.Reentrant plan m chunks) (hmethod : b.method = .load a.owner m)
    (hlow : 2 ≤ b.pc) (hhigh : b.pc < stop chunks) {e : RunError}
    (hs : mem.coroutines.running? c = some s) (hdepth : level < s.depth)
    (hframes : level < s.frames.length)
    (hback : Completes classes mem.heap (.error e) → s.depth = level + 1)
    (hraise : b.raise classes e mem = (progress, mem')) :
    Leads a plan m chunks classes c level s mem mem' false progress := by
  rcases h.raise_cases hmethod hlow hhigh classes e mem with ⟨hfatal, heq⟩ |
    ⟨heap, v, pc, he, heq, hpc⟩
  · rw [heq] at hraise
    cases hraise
    exact .inl ⟨e, rfl, hfatal⟩
  obtain ⟨hspares, -⟩ := Activation.raise_spares (c := c) heq
  rw [heq] at hraise
  cases hraise
  refine .of_spares hs hspares (Nat.le_of_lt hdepth) (Nat.le_of_lt hframes) ⟨hmethod, ?_⟩
  cases hinstance : classes.isInstance heap v Names.suspendExecution with
  | true =>
    rw [if_pos hinstance] at hpc
    exact .signalled (Nat.le_of_eq hpc.symm) rfl hinstance hdepth hframes
  | false =>
    rw [if_neg (by rw [hinstance]; nofun)] at hpc
    have hcurrent : s.depth = level + 1 := by
      refine hback ⟨fun hfatal => ?_, fun w hw => ?_⟩
      · rw [hfatal] at he
        cases he
      · subst hw
        cases he
        exact hinstance
    rcases hpc with hpc | rfl
    · obtain ⟨hlow', hhigh', hreturn, hmarked⟩ := h.lands_spec hpc
      exact .working hlow' (Nat.le_of_lt (Nat.lt_of_lt_of_le hhigh' (by omega))) hreturn hcurrent
        hframes fun k hk => absurd hk (hmarked k)
    · refine .working (by show 2 ≤ stop chunks + 1; omega) (by simp) ?_ hcurrent hframes
        fun k hk => ?_
      · rintro ⟨op, hget, -⟩
        change m.code[stop chunks + 1]? = _ at hget
        rw [h.getElem?_tail] at hget
        cases hget
      · have := h.marked_lt hk
        simp only at this
        omega

/-- Behind the last label, an error leaves the activation. -/
theorem raise_behind (h : a.Reentrant plan m chunks) (hmethod : b.method = .load a.owner m)
    (hhigh : stop chunks ≤ b.pc) {e : RunError} (hraise : b.raise classes e mem = (progress, mem')) :
    progress.IsFatal ∨ ∃ heap v, e.exception? mem.heap = some (heap, v) ∧
      progress = .done (.error (.thrown v)) ∧ mem' = { mem with heap } := by
  unfold Activation.raise at hraise
  split at hraise
  · rename_i he
    have hfatal : e.IsFatal := by
      intro heap
      unfold RunError.exception? at he ⊢
      split at he <;> first | rfl | cases he
    cases hraise
    exact .inl ⟨e, rfl, hfatal⟩
  · rename_i heap v he
    dsimp only at hraise
    rw [hmethod, h.arranged.layout.handlerFor?_behind h.arranged.labels hhigh] at hraise
    cases hraise
    exact .inr ⟨heap, v, he, rfl, rfl⟩

/-! ## From place to place -/

/-- Behind the next place, too, the frame has the index of the point. -/
theorem recorded_succ (h : a.Reentrant plan m chunks) {i : Instr}
    (hrecorded : Recorded plan chunks level s q) (hi : m.code[q]? = some i)
    (hnew : ∀ entry slots, i = .frame (.reserve entry slots) →
      ∃ f, s'.frames[level]? = some f ∧ f.resumeIndex = entry)
    (hold : (∀ entry slots, i ≠ .frame (.reserve entry slots)) →
      s'.frames[level]? = s.frames[level]?) : Recorded plan chunks level s' (q + 1) := by
  intro k hk
  rcases h.marked_succ hk with hk | ⟨slots, hreserve⟩
  · rw [hold fun entry slots heq => h.not_reserve_of_marked hk (heq ▸ hi)]
    exact hrecorded k hk
  · rw [hi, Option.some.injEq] at hreserve
    exact hnew _ slots hreserve

/-- As long as the frame is not released, there is no return at the next place. -/
theorem working_succ (h : a.Reentrant plan m chunks) {i : Instr} (hi : m.code[q]? = some i)
    (hhigh : q ≤ stop chunks + 2) (hrelease : i ≠ .frame .release) :
    q + 1 ≤ stop chunks + 2 ∧ ¬ AtReturn m.code (q + 1) := by
  constructor
  · refine Nat.lt_of_le_of_ne hhigh fun heq => hrelease ?_
    rw [heq, h.getElem?_tail] at hi
    exact (Option.some.inj hi).symm
  · intro hreturn
    have hbefore := (h.release_of_return hreturn).2
    rw [hi, Option.some.injEq] at hbefore
    exact hrelease hbefore

/-- What stands behind the release of the frame. -/
theorem behind_cases (h : a.Reentrant plan m chunks) (hq : stop chunks + 3 ≤ q) :
    m.code[q]? = some (.label (a.method.freshLabel 2)) ∨ m.code[q]? = some (.simple .athrow) ∨
      m.code[q]? = none := by
  obtain ⟨t, rfl⟩ := Nat.exists_eq_add_of_le hq
  rw [Nat.add_assoc, h.getElem?_tail]
  match t with
  | 0 => exact .inl rfl
  | 1 => exact .inr (.inl rfl)
  | t + 2 => exact .inr (.inr (List.getElem?_eq_none (show 5 ≤ 3 + (t + 2) by omega)))

/-! ## One step -/

variable (h : a.Reentrant plan m chunks) (hmethod : b.method = .load a.owner m)
  (hs : mem.coroutines.running? c = some s) (hstep : b.step classes mem = (progress, mem'))

include h hmethod hs hstep

/-- On arrival, the frame is entered. -/
theorem leads_of_arriving (hactive : mem.coroutines.active = some c) (hpc : b.pc = 0)
    (hdepth : s.depth = level) (hframes : level ≤ s.frames.length) :
    Leads a plan m chunks classes c level s mem mem' false progress := by
  have hcode : b.method.method.code[b.pc]? = some (.frame .entry) := by
    rw [hmethod, hpc]
    exact h.getElem?_head (by omega)
  have hstack := Memory.stack?_of_running? hactive hs
  rcases Activation.step_frame_cases hcode hstack hstep with ⟨hop, -⟩ | hfatal |
    ⟨b', s', rfl, rfl, hacts, hmethod', hoperands⟩
  · cases hop
  · exact .inl hfatal
  cases hacts with | entry hsmall
  subst hdepth
  obtain ⟨hwithin, hdepth', f, hf, hindex⟩ := FrameStack.Within.enter hframes
  refine .inr ⟨s.enter.2, Memory.running?_withStack hactive hs, Memory.active_withStack, ?_, hwithin,
    hmethod'.trans hmethod, ?_⟩
  · rw [Memory.heap_withStack]
    exact .refl _
  · rw [← hindex] at hsmall hoperands
    exact .choosing (by simp [hpc]) hdepth' hf hsmall (hoperands rfl)

/-- The index chooses the start of the method or the place behind the record of its point. -/
theorem leads_of_choosing {f : FrameMark} {rest : List Value} (hpc : b.pc = 1)
    (hdepth : s.depth = level + 1) (hf : s.frames[level]? = some f)
    (hsmall : f.resumeIndex.toNat < 2147483648)
    (hstack : b.stack = .int f.resumeIndex.toInt32 :: rest) :
    Leads a plan m chunks classes c level s mem mem' false progress := by
  have hcode : b.method.method.code[b.pc]? = some (.switch 1 (a.method.freshLabel 0)
      ((List.range plan.points.length).map fun k => a.method.freshLabel (4 + k))) := by
    rw [hmethod, hpc]
    exact h.getElem?_head (by omega)
  have hlen : level < s.frames.length := (List.getElem?_eq_some_iff.1 hf).1
  have hindex := Exec.Does.toInt_toInt32 hsmall
  have hoffset : f.resumeIndex.toInt32.toInt - (1 : Int32).toInt = f.resumeIndex.toNat - 1 := by
    rw [hindex]
    rfl
  -- It remains to look at the place to which the switch goes.
  have hgoes {l : Label} {q : Nat} (hl : (if f.resumeIndex.toInt32.toInt - (1 : Int32).toInt < 0
        then a.method.freshLabel 0 else ((List.range plan.points.length).map fun k =>
          a.method.freshLabel (4 + k))[(f.resumeIndex.toInt32.toInt -
            (1 : Int32).toInt).toNat]?.getD (a.method.freshLabel 0)) = l)
      (hq : labelPosition? m.code l = some q) (hlow : 2 ≤ q) (hhigh : q < stop chunks)
      (hmarked : ∀ k, Marked plan chunks k q → f.resumeIndex = UInt32.ofNat (k + 1)) :
      Leads a plan m chunks classes c level s mem mem' false progress := by
    have hdoes : Exec.Does (Exec.instr classes (.switch 1 (a.method.freshLabel 0)
        ((List.range plan.points.length).map fun k => a.method.freshLabel (4 + k)))) b mem (.goto q)
        (b.withStack rest) mem := .instr_switch_to hstack hl (by rw [hmethod]; exact hq)
    rcases Activation.step_cases hcode hstep with ⟨e, m₁, hrun, -⟩ | ⟨move, b', hdoes', rfl⟩
    · cases hrun.symm.trans hdoes
    · cases hdoes.symm.trans hdoes'
      refine .of_spares hs (.refl c mem) (by omega) (by omega) ⟨hmethod, ?_⟩
      refine .working hlow (by simp only; omega) ?_ hdepth hlen fun k hk => ⟨f, hf, hmarked k hk⟩
      rintro ⟨op, hget, -⟩
      rw [show ({ b.withStack rest with pc := q } : Activation).pc = q from rfl,
        getElem?_of_labelPosition? hq] at hget
      cases hget
  have hstart := h.arranged.layout.position_start h.arranged.labels
  have hsize : 2 < stop chunks := by unfold stop; omega
  have hnone (k : Nat) (hk : Marked plan chunks k 2) : f.resumeIndex = UInt32.ofNat (k + 1) := by
    have := h.marked_lt hk
    omega
  rw [hoffset] at hgoes
  by_cases hzero : f.resumeIndex.toNat = 0
  · exact hgoes (by rw [if_pos (by omega)]) hstart (Nat.le_refl 2) hsize hnone
  · have hnat : ((f.resumeIndex.toNat : Int) - 1).toNat = f.resumeIndex.toNat - 1 := by omega
    rw [if_neg (by omega), hnat, List.getElem?_map] at hgoes
    by_cases hk : f.resumeIndex.toNat - 1 < plan.points.length
    · rw [List.getElem?_range hk] at hgoes
      have hp := List.getElem?_eq_getElem hk
      obtain ⟨-, -, hresume, -⟩ := h.arranged.layout.positions_of_point h.arranged.sorted
        h.arranged.labels hp (h.arranged.index_lt (List.mem_of_getElem? hp))
      have hmarked := h.marked_resume hk hresume
      obtain ⟨hlow, hhigh⟩ := h.marked_lt hmarked
      refine hgoes rfl hresume (by omega) hhigh fun k hk' => ?_
      rw [h.marked_unique hmarked hk', Nat.sub_add_cancel (by omega), UInt32.ofNat_toNat]
    · rw [List.getElem?_eq_none (by simpa using Nat.le_of_not_lt hk)] at hgoes
      exact hgoes rfl hstart (Nat.le_refl 2) hsize hnone

/-- A frame operation at work is the record, the release, the signal, or a move of a value. -/
theorem leads_of_frame {op : FrameOp} (hactive : mem.coroutines.active = some c) (hlow : 2 ≤ b.pc)
    (hhigh : b.pc ≤ stop chunks + 2) (hdepth : s.depth = level + 1)
    (hframes : level < s.frames.length) (hrecorded : Recorded plan chunks level s b.pc)
    (hi : m.code[b.pc]? = some (.frame op)) :
    Leads a plan m chunks classes c level s mem mem' (decide (op = .release)) progress := by
  have hcode : b.method.method.code[b.pc]? = some (.frame op) := by
    rw [hmethod]
    exact hi
  have hplace := h.framePlace hi
  generalize hq : b.pc = q at hplace
  rcases Activation.step_frame_cases hcode (Memory.stack?_of_running? hactive hs) hstep with
    ⟨rfl, hraise⟩ | hfatal | ⟨b', s', rfl, rfl, hacts, hb', -⟩
  · cases hplace with | suspend hpoint hyield hlow' hhigh' =>
    have hlt := h.lt_stop (h.arranged.index_lt (List.mem_of_getElem? hpoint))
    exact h.leads_of_raise hmethod hlow (by omega) hs (by omega) hframes (fun _ => hdepth) hraise
  · exact .inl hfatal
  have hgoes {spent : Bool} (hwithin : FrameStack.Within level s s')
      (hphase : Phase a plan m chunks classes level mem.heap s' spent { b' with pc := b.pc + 1 }) :
      Leads a plan m chunks classes c level s mem (mem.withStack s') spent
        (.going { b' with pc := b.pc + 1 }) := by
    refine .inr ⟨s', Memory.running?_withStack hactive hs, Memory.active_withStack, ?_, hwithin,
      hb'.trans hmethod, ?_⟩
    · rw [Memory.heap_withStack]
      exact .refl _
    · rw [Memory.heap_withStack]
      exact hphase
  by_cases hrelease : op = .release
  · subst hrelease
    cases hacts with | release hacts =>
    obtain ⟨hwithin, hdepth', hlen⟩ := FrameStack.Within.release hdepth hframes hacts
    refine hgoes hwithin (.released ?_ hdepth' hlen)
    cases hplace with
    | leaving _ hreturn => exact .inl (hq ▸ hreturn)
    | tail => exact .inr (by show stop chunks + 3 ≤ b.pc + 1; omega)
  · have hentry : op ≠ .entry := by
      rintro rfl
      cases hplace
      omega
    obtain ⟨hwithin, hdepth', hlen, hnew, hold⟩ :=
      FrameStack.Within.acts hdepth hframes hacts hentry hrelease
    obtain ⟨hhigh', hreturn⟩ := h.working_succ hi hhigh fun heq => hrelease (Instr.frame.inj heq)
    rw [decide_eq_false hrelease]
    refine hgoes hwithin (.working (Nat.le_succ_of_le hlow) hhigh' hreturn hdepth' hlen ?_)
    refine h.recorded_succ hrecorded hi (fun entry slots heq => ?_) fun hnot => ?_
    · exact hnew entry slots (Instr.frame.inj heq)
    · exact hold fun entry slots heq => hnot entry slots (by rw [heq])

/-- All other instructions leave the frame alone. -/
theorem leads_of_plain {i : Instr} (hlow : 2 ≤ b.pc) (hhigh : b.pc ≤ stop chunks + 2)
    (hreturn : ¬ AtReturn m.code b.pc) (hdepth : s.depth = level + 1)
    (hframes : level < s.frames.length) (hrecorded : Recorded plan chunks level s b.pc)
    (hi : m.code[b.pc]? = some i) (hplain : ∀ op, i ≠ .frame op) :
    Leads a plan m chunks classes c level s mem mem' false progress := by
  have hcode : b.method.method.code[b.pc]? = some i := by
    rw [hmethod]
    exact hi
  obtain ⟨hspares, -⟩ := Activation.step_spares (c := c) hstep fun op hop =>
    absurd (Option.some.inj (hcode.symm.trans hop)) (hplain op)
  rcases Activation.step_cases hcode hstep with ⟨e, m₁, hrun, hraise⟩ | ⟨move, b', hdoes, rfl⟩
  · -- The labels at the end do not fail.
    have hlt : b.pc < stop chunks := by
      refine Nat.lt_of_not_le fun hle => ?_
      obtain ⟨t, ht⟩ := Nat.exists_eq_add_of_le hle
      rw [ht, h.getElem?_tail] at hi
      match t with
      | 0 | 1 =>
        cases hi
        cases hrun
      | 2 =>
        cases hi
        exact hplain _ rfl
      | t + 3 => omega
    have hbefore : Exec.Spares c (fun _ => True) (Exec.instr classes i) :=
      Exec.spares_instr classes (.inl hplain)
    obtain ⟨hspares₁, -⟩ := hbefore b mem trivial
    rw [hrun] at hspares₁
    rcases h.leads_of_raise hmethod hlow hlt (hspares₁.running.trans hs) (by omega) hframes
      (fun _ => hdepth) hraise with hfatal | ⟨s', hs', -, -, hwithin, hnext⟩
    · exact .inl hfatal
    · exact .inr ⟨s', hs', hspares.active, hspares.heap, hwithin, hnext⟩
  · have hstays : Exec.Spares c (fun _ => True) (Exec.instr classes i) :=
      Exec.spares_instr classes (.inl hplain)
    obtain ⟨-, hstays⟩ := hstays b mem trivial
    obtain ⟨hb', hpc'⟩ := hstays move b' (congrArg Prod.fst hdoes)
    have hleads := Exec.leads_instr hdoes
    rw [hmethod] at hb'
    refine .of_spares hs hspares (by omega) (Nat.le_of_lt hframes) ?_
    cases move with
    | next =>
      obtain ⟨hhigh', hreturn'⟩ := h.working_succ hi hhigh (hplain _)
      refine ⟨hb', .working (Nat.le_succ_of_le hlow) hhigh' hreturn' hdepth hframes ?_⟩
      exact h.recorded_succ hrecorded hi (fun entry slots heq => absurd heq (hplain _)) fun _ => rfl
    | goto pc =>
      obtain ⟨l, hl, hpc⟩ := hleads
      rw [hmethod] at hpc
      obtain ⟨hlow', hhigh', hreturn', hmarked⟩ :=
        h.lands_spec (h.lands_of_target hlow hi hl hpc)
      exact ⟨hb', .working hlow' (by show pc ≤ _; omega) hreturn' hdepth hframes
        fun k hk => absurd hk (hmarked k)⟩
    | leave result =>
      obtain ⟨op, rfl, hop⟩ := hleads
      exact absurd ⟨op, hi, hop⟩ hreturn
    | call request =>
      obtain ⟨op, member, rfl⟩ := hleads
      rw [← hpc'] at hi hrecorded
      exact ⟨rfl, hb', ⟨⟨op, member, hi⟩, by omega, hframes, hrecorded⟩, hdepth⟩

omit hs in
/-- Behind the release of the frame, what is on top of the operands is thrown on. -/
theorem step_behind (hhigh : stop chunks + 3 ≤ b.pc) : progress.IsFatal ∨
    (progress = .going { b with pc := b.pc + 1 } ∧ mem' = mem) ∨
    ∃ v, progress = .done (.error (.thrown v)) ∧
      ∀ w rest, b.stack = w :: rest → w.isReference = true → w.isNull = false →
        v = w ∧ mem' = mem := by
  have hcode : b.method.method.code = m.code := by
    rw [hmethod]
    rfl
  rcases h.behind_cases hhigh with hi | hi | hi <;> rw [← hcode] at hi
  · rcases Activation.step_cases hi hstep with ⟨e, m₁, hrun, -⟩ | ⟨move, b', hdoes, rfl⟩
    · cases hrun
    · cases hdoes
      exact .inr (.inl ⟨rfl, rfl⟩)
  · rcases Activation.step_cases hi hstep with ⟨e, m₁, hrun, hraise⟩ | ⟨move, b', hdoes, rfl⟩
    · rcases h.raise_behind hmethod (by omega) hraise with hfatal | ⟨heap, v, he, rfl, rfl⟩
      · exact .inl hfatal
      · refine .inr (.inr ⟨v, rfl, fun w rest hstack hreference hnull => ?_⟩)
        rw [Exec.run_athrow hstack hreference hnull] at hrun
        cases hrun
        cases he
        exact ⟨rfl, rfl⟩
    · -- Throwing does not succeed.
      have hfails : Exec.Yields (fun _ : Move => False) (Exec.simple .athrow) := by
        refine .bind fun v => ?_
        dsimp only
        split
        · exact .bind fun _ => .throw _
        · exact .throw _
      exact (hfails _ _ _ _ _ hdoes).elim
  · rw [Activation.step_of_none hi] at hstep
    cases hstep
    exact .inl ⟨_, rfl, fun _ => rfl⟩

/-- Once the frame has been released, the activation returns or throws on. -/
theorem leads_of_released (hpc : AtReturn m.code b.pc ∨ stop chunks + 3 ≤ b.pc)
    (hdepth : s.depth = level) (hframes : s.frames.length = level) :
    Leads a plan m chunks classes c level s mem mem' true progress := by
  have hnoframe (op : FrameOp) : b.method.method.code[b.pc]? ≠ some (.frame op) := by
    intro hop
    rw [hmethod] at hop
    rcases hpc with ⟨op', hget, -⟩ | hhigh
    · cases hget.symm.trans hop
    · rcases h.behind_cases hhigh with hget | hget | hget <;> cases hget.symm.trans hop
  obtain ⟨hspares, -⟩ := Activation.step_spares (c := c) hstep fun op hop => absurd hop (hnoframe op)
  have hdone {outcome : Except RunError (Option Value)} (hp : progress = .done outcome) :
      Leads a plan m chunks classes c level s mem mem' true progress := by
    subst hp
    exact .of_spares hs hspares (Nat.le_of_eq hdepth.symm) (Nat.le_of_eq hframes.symm)
      fun _ => ⟨rfl, hdepth, hframes⟩
  rcases hpc with ⟨op, hi, hop⟩ | hhigh
  · have hcode : b.method.method.code[b.pc]? = some (.simple op) := by
      rw [hmethod]
      exact hi
    rcases Activation.step_cases hcode hstep with ⟨e, m₁, hrun, hraise⟩ | ⟨move, b', hdoes, hp⟩
    · have hfatal := Exec.fatal_of_return hop hrun
      rw [Activation.raise_of_fatal hfatal] at hraise
      cases hraise
      exact .inl ⟨e, rfl, hfatal⟩
    · have hleads := Exec.leads_instr hdoes
      cases move with
      | next =>
        have hnot := hleads op rfl
        rw [hop] at hnot
        cases hnot
      | goto pc =>
        obtain ⟨l, hl, -⟩ := hleads
        cases hl
      | leave result => exact hdone hp
      | call request =>
        obtain ⟨_, _, heq⟩ := hleads
        cases heq
  · rcases h.step_behind hmethod hstep hhigh with hfatal | ⟨rfl, rfl⟩ | ⟨v, hp, -⟩
    · exact .inl hfatal
    · exact .of_spares hs hspares (Nat.le_of_eq hdepth.symm) (Nat.le_of_eq hframes.symm)
        ⟨hmethod, .released (.inr (Nat.le_succ_of_le hhigh)) hdepth hframes⟩
    · exact hdone hp

/-- The signal is thrown on as it is. -/
theorem leads_of_signalled {v : Value} (hpc : stop chunks + 3 ≤ b.pc) (hstack : b.stack = [v])
    (hsignal : classes.isInstance mem.heap v Names.suspendExecution = true)
    (hdepth : level < s.depth) (hframes : level < s.frames.length) :
    Leads a plan m chunks classes c level s mem mem' false progress := by
  obtain ⟨hreference, hnull⟩ := ClassTable.isReference_of_isInstance hsignal
  rcases h.step_behind hmethod hstep hpc with hfatal | ⟨rfl, rfl⟩ | ⟨w, rfl, hw⟩
  · exact .inl hfatal
  · exact .of_spares hs (.refl c _) (Nat.le_of_lt hdepth) (Nat.le_of_lt hframes)
      ⟨hmethod, .signalled (Nat.le_succ_of_le hpc) hstack hsignal hdepth hframes⟩
  · obtain ⟨rfl, rfl⟩ := hw v [] hstack hreference hnull
    refine .of_spares hs (.refl c _) (Nat.le_of_lt hdepth) (Nat.le_of_lt hframes) ?_
    rintro ⟨-, hother⟩
    rw [hother w rfl] at hsignal
    cases hsignal

/-- **Each step leads from a phase to a phase.** -/
theorem leads_of_step (hactive : mem.coroutines.active = some c)
    (hphase : Phase a plan m chunks classes level mem.heap s spent b) :
    Leads a plan m chunks classes c level s mem mem'
      (spent || decide (m.code[b.pc]? = some (.frame .release))) progress := by
  have hnot {i : Instr} (hi : m.code[b.pc]? = some i) (hne : i ≠ .frame .release) :
      decide (m.code[b.pc]? = some (.frame .release)) = false := by
    rw [hi]
    simpa using hne
  cases hphase with
  | arriving hpc hdepth hframes =>
    have hi : m.code[b.pc]? = some (.frame .entry) := by
      rw [hpc]
      exact h.getElem?_head (by omega)
    rw [hnot hi nofun]
    exact h.leads_of_arriving hmethod hs hstep hactive hpc hdepth hframes
  | choosing hpc hdepth hf hsmall hstack =>
    have hi : m.code[b.pc]? = some (.switch 1 (a.method.freshLabel 0)
        ((List.range plan.points.length).map fun k => a.method.freshLabel (4 + k))) := by
      rw [hpc]
      exact h.getElem?_head (by omega)
    rw [hnot hi nofun]
    exact h.leads_of_choosing hmethod hs hstep hpc hdepth hf hsmall hstack
  | working hlow hhigh hreturn hdepth hframes hrecorded =>
    obtain ⟨i, hi⟩ : ∃ i, m.code[b.pc]? = some i := by
      refine ⟨_, List.getElem?_eq_getElem ?_⟩
      obtain ⟨before, heq, hlen⟩ := h.arranged.layout.code_eq
      rw [heq, List.length_append, hlen]
      exact Nat.lt_of_le_of_lt hhigh (Nat.add_lt_add_left (show 2 < 5 by decide) _)
    rw [Bool.false_or]
    by_cases hframe : ∃ op, i = .frame op
    · obtain ⟨op, rfl⟩ := hframe
      have hspent : decide (m.code[b.pc]? = some (.frame .release)) = decide (op = .release) := by
        rw [hi]
        simp
      rw [hspent]
      exact h.leads_of_frame hmethod hs hstep hactive hlow hhigh hdepth hframes hrecorded hi
    · have hplain (op : FrameOp) : i ≠ .frame op := fun heq => hframe ⟨op, heq⟩
      rw [hnot hi (hplain _)]
      exact h.leads_of_plain hmethod hs hstep hlow hhigh hreturn hdepth hframes hrecorded hi hplain
  | released hpc hdepth hframes => exact h.leads_of_released hmethod hs hstep hpc hdepth hframes
  | signalled hpc hstack hsignal hdepth hframes =>
    have hspent : decide (m.code[b.pc]? = some (.frame .release)) = false := by
      rcases h.behind_cases hpc with hget | hget | hget <;> rw [hget] <;> rfl
    rw [hspent]
    exact h.leads_of_signalled hmethod hs hstep hpc hstack hsignal hdepth hframes

omit hstep

/-- With the answer to its call, the activation works on, or the error that comes out of the call is
raised there. -/
theorem leads_of_resume {request : Call} {answer : Except RunError (Option Value)}
    (hwaits : Waits plan m chunks level s b)
    (hback : Completes classes mem.heap answer → s.depth = level + 1)
    (hresume : b.resume classes request answer mem = (progress, mem')) :
    Leads a plan m chunks classes c level s mem mem' false progress := by
  obtain ⟨op, member, hi⟩ := hwaits.call
  obtain ⟨hlow, hhigh⟩ := h.bounds_of_invoke hi
  rcases Activation.resume_cases hresume with ⟨e, he, hraise⟩ | ⟨⟨result, rfl⟩, rfl, stack, rfl⟩
  · refine h.leads_of_raise hmethod hlow hhigh hs hwaits.depth hwaits.frames (fun hcomplete => ?_)
      hraise
    rcases he with rfl | ⟨hfatal, -⟩
    · exact hback hcomplete
    · exact absurd hfatal hcomplete.1
  · obtain ⟨hhigh', hreturn⟩ := h.working_succ hi (by omega) nofun
    refine .of_spares hs (.refl c _) (Nat.le_of_lt hwaits.depth) (Nat.le_of_lt hwaits.frames)
      ⟨hmethod, .working (Nat.le_succ_of_le hlow) hhigh' hreturn (hback trivial) hwaits.frames ?_⟩
    exact h.recorded_succ hwaits.recorded hi nofun fun _ => rfl

omit hs in
/-- An answer that does not end everything keeps the activation going. -/
theorem going_of_resume {request : Call} {answer : Except RunError (Option Value)}
    (hwaits : Waits plan m chunks level s b)
    (hresume : b.resume classes request answer mem = (progress, mem')) :
    progress.IsFatal ∨ ∃ b', progress = .going b' := by
  obtain ⟨op, member, hi⟩ := hwaits.call
  obtain ⟨hlow, hhigh⟩ := h.bounds_of_invoke hi
  rcases Activation.resume_cases hresume with ⟨e, -, hraise⟩ | ⟨-, -, stack, rfl⟩
  · rcases h.raise_cases hmethod hlow hhigh classes e mem with ⟨hfatal, heq⟩ | ⟨_, _, _, -, heq, -⟩
    · cases heq.symm.trans hraise
      exact .inl ⟨e, rfl, hfatal⟩
    · cases heq.symm.trans hraise
      exact .inr ⟨_, rfl⟩
  · exact .inr ⟨_, rfl⟩

end Reentrant

end Analysed

end Resumable
