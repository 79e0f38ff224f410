import Resumable.Proofs.Coroutine.Chronicle
import Resumable.Proofs.Coroutine.Locals

/-!
# Coroutines do not interfere

A moment has to do with one coroutine at most, and leaves all others as they are (`Moment.frame`).
What a coroutine has done to its variables can be read off the chronicle, without a look at what it
keeps: `Scene.recollection` replays it. What it keeps is always just that, for all variables that
somebody can still ask for (`Scene.Faithful`), so what it is told when it asks for a variable
depends on what it has done itself, and on nothing else (`Scene.coroutines_isolated`).
-/

namespace Resumable

/-! ## What a moment leaves alone -/

namespace Coroutines

variable {cs cs' : Coroutines} {j k : Nat} {c : Coroutine}

theorem getElem?_onActive {α : Type} {x : α} {f : Coroutine → Except RunError (α × Coroutine)}
    (h : cs.onActive f = .ok (x, cs')) (hj : cs.active ≠ some j) : cs'.all[j]? = cs.all[j]? := by
  obtain ⟨k, c, c', hactive, hc, -, rfl⟩ := onActive_eq_ok h
  have hne : j ≠ k := fun heq => hj (heq ▸ hactive)
  simp [getElem?_set hc, hne]

theorem getElem?_modify_ne (cs : Coroutines) (f : Coroutine → Coroutine) (h : j ≠ k) :
    (cs.modify k f).all[j]? = cs.all[j]? := by
  simp [modify, Array.getElem?_modify, h.symm]

/-- The values of a coroutine for variables. -/
def locals? (cs : Coroutines) (k : Nat) : Option LocalValues := cs.all[k]?.map (·.locals)

theorem locals?_of_getElem? (hc : cs.all[k]? = some c) : cs.locals? k = some c.locals := by
  rw [locals?, hc]
  rfl

theorem locals?_modify (cs : Coroutines) (k j : Nat) {f : Coroutine → Coroutine}
    (hf : ∀ c, (f c).locals = c.locals) : (cs.modify k f).locals? j = cs.locals? j := by
  simp only [locals?, modify, Array.getElem?_modify]
  split <;> simp [Function.comp_def, hf]

theorem locals?_onStack {α : Type} {x : α} {f : FrameStack → Except RunError (α × FrameStack)}
    (h : cs.onStack f = .ok (x, cs')) (j : Nat) : cs'.locals? j = cs.locals? j := by
  obtain ⟨k, c, c', -, hc, hx, rfl⟩ := onActive_eq_ok h
  obtain ⟨⟨x, stack⟩, -, hc'⟩ := bind_eq_ok.1 hx
  cases hc'
  simp only [locals?, getElem?_set hc]
  split
  · next heq => simp [heq, hc]
  · rfl

end Coroutines

namespace Scene

variable {s : Scene} {j k key : Nat} {c : Coroutine} {step : BodyStep}
  {f : LocalValues → Reply × LocalValues}

/-- No coroutine is changed but the active one. -/
theorem Effect.getElem? (h : s.Effect step s') (hj : s.coroutines.active ≠ some j) :
    s'.coroutines.all[j]? = s.coroutines.all[j]? := by
  cases h with
  | stack hresult => exact Coroutines.getElem?_onActive hresult hj
  | @locals _ k _ _ hactive hc =>
    have hne : j ≠ k := fun heq => hj (heq ▸ hactive)
    rw [withLocals, Coroutines.getElem?_set hc, if_neg hne]
  | nothing | heap | drop | produce => rfl

theorem getElem?_ending (s : Scene) (previous : Option Nat) (outcome : Except RunError Unit)
    (h : j ≠ k) : (s.ending k previous outcome).1.coroutines.all[j]? = s.coroutines.all[j]? := by
  simp only [ending, Coroutines.conclude]
  split <;> exact Coroutines.getElem?_modify_ne _ _ h

end Scene

/-- A moment changes no coroutine but the one that it has to do with. -/
theorem Moment.frame {m : Moment} {j : Nat} (h : m.IsDone) (hj : m.agent ≠ some j) :
    m.after.coroutines.all[j]? = m.before.coroutines.all[j]? := by
  obtain ⟨before, deed, after⟩ := m
  cases deed with
  | act step outcome => exact h.effect.getElem? hj
  | start k =>
    obtain ⟨-, (rfl : after = before.starting k)⟩ := h
    exact Coroutines.getElem?_modify_ne _ _ fun heq => hj (congrArg some heq.symm)
  | finish k outcome =>
    obtain ⟨previous, (rfl : after = (before.ending k previous outcome).1)⟩ := h
    exact Scene.getElem?_ending _ _ _ fun heq => hj (congrArg some heq.symm)

/-! ## What a coroutine remembers -/

/-- What a step does to what is remembered, if it does not fail. -/
def BodyStep.remember (is : List Initializer) : BodyStep → Recollection → Recollection
  | .get key, memory => (Initializer.recollect is.reverse key memory).2
  | .set key value, memory => Function.update memory key (some value)
  | .remove key, memory => Function.update memory key none
  | _, memory => memory

/-- What each coroutine remembers after a step, made while `active` was active. -/
def remembered (active : Option Nat) (outcome : Except RunError Reply)
    (f : Recollection → Recollection) (memory : Nat → Recollection) : Nat → Recollection :=
  match outcome, active with
  | .ok _, some k => Function.update memory k (f (memory k))
  | _, _ => memory

/-- What a moment does to what each coroutine remembers. -/
def Moment.remember (is : List Initializer) (m : Moment) (memory : Nat → Recollection) :
    Nat → Recollection :=
  match m.deed with
  | .act step outcome => remembered m.before.coroutines.active outcome (step.remember is) memory
  | .start _ | .finish _ _ => memory

theorem remembered_id (active : Option Nat) (outcome : Except RunError Reply)
    (memory : Nat → Recollection) : remembered active outcome (fun m => m) memory = memory := by
  unfold remembered
  split
  · exact Function.update_eq_self _ _
  · rfl

namespace Scene

variable {s s' s₀ : Scene} {k key : Nat} {c : Coroutine} {step : BodyStep}
  {memory : Nat → Recollection} {is : List Initializer} {moments : List Moment}
  {f : LocalValues → Reply × LocalValues}

/-- What each coroutine has stored for variables and not taken away since, by what it has done. -/
def recollection (s₀ : Scene) (past : List Moment) : Nat → Recollection :=
  past.foldl (fun memory m => m.remember s₀.vars.initializers memory)
    fun k key => (s₀.coroutines.locals? k).bind (·.lookup key)

/-- What each coroutine keeps is what it remembers. -/
structure Faithful (is : List Initializer) (s : Scene) (memory : Nat → Recollection) : Prop where
  initializers : s.vars.initializers = is
  agrees : ∀ k l, s.coroutines.locals? k = some l → s.vars.Agrees l (memory k)

namespace Faithful

/-- It stays so if no coroutine's values change, and no variable that is gone comes back. -/
theorem of_same (h : s.Faithful is memory)
    (hinitializers : s'.vars.initializers = s.vars.initializers)
    (hgone : ∀ key, s'.vars.isGone key = false → s.vars.isGone key = false)
    (hlocals : ∀ k, s'.coroutines.locals? k = s.coroutines.locals? k) : s'.Faithful is memory where
  initializers := hinitializers.trans h.initializers
  agrees k l hl key hkey := h.agrees k l ((hlocals k).symm.trans hl) key (hgone key hkey)

/-- Work on the values for a variable is remembered. -/
theorem onVariable (h : s.Faithful is memory) {g : Recollection → Recollection}
    (hf : ∀ l memory, s.vars.isLive key = true → s.vars.Agrees l memory →
      s.vars.Agrees (f l).2 (g memory)) :
    (s.onVariable key f).1.Faithful is
      (remembered s.coroutines.active (s.onVariable key f).2 g memory) := by
  obtain ⟨e, hfailed⟩ | ⟨k, c, hlive, hactive, hc⟩ := onVariable_cases s key f
  · rw [hfailed]
    exact h
  rw [onVariable_of_live hlive hactive hc, hactive]
  refine ⟨h.initializers, fun j l hl => ?_⟩
  simp only [withLocals, Coroutines.locals?, Coroutines.getElem?_set hc] at hl
  simp only [remembered, Function.update_apply]
  split at hl
  · next heq =>
    cases hl
    rw [if_pos heq]
    exact hf _ _ hlive (h.agrees k _ (Coroutines.locals?_of_getElem? hc))
  · next hne =>
    rw [if_neg hne]
    exact h.agrees j l hl

/-- What a step does is remembered. -/
theorem perform (h : s.Faithful is memory)
    (run : Nat → Scene → Scene × Except RunError Unit) (hstep : step.runs? = none) :
    (s.perform run step).1.Faithful is
      (remembered s.coroutines.active (s.perform run step).2 (step.remember is) memory) := by
  have hinitializers := h.initializers
  cases step with
  | run k | runOrFail k => cases hstep
  | get key =>
    refine h.onVariable fun l memory hlive hl => ?_
    have hget := (hl.get (Variables.isGone_of_isLive hlive)).2
    rwa [hinitializers] at hget
  | set key value => exact h.onVariable fun l memory _ hl => hl.put key value
  | remove key => exact h.onVariable fun l memory _ hl => hl.remove key
  | drop key =>
    refine (remembered_id _ _ memory).symm ▸ h.of_same rfl ?_ fun _ => rfl
    exact fun other hother => Variables.isGone_of_drop hother
  | stack step =>
    refine (remembered_id _ _ memory).symm ▸ ?_
    rw [Scene.perform]
    split
    · next hresult =>
      exact h.of_same rfl (fun _ hgone => hgone) (Coroutines.locals?_onStack hresult)
    · exact h
  | produce element =>
    refine (remembered_id _ _ memory).symm ▸ ?_
    rw [Scene.perform]
    split
    · exact h
    · split
      · exact h
      · exact h.of_same rfl (fun _ hgone => hgone) fun _ => rfl
  | suspend | fail _ | counterfeit | state _ | capture _ | current =>
    exact (remembered_id _ _ memory).symm ▸ h.of_same rfl (fun _ hgone => hgone) fun _ => rfl

theorem ending (h : s.Faithful is memory) (k : Nat) (previous : Option Nat)
    (outcome : Except RunError Unit) : (s.ending k previous outcome).1.Faithful is memory := by
  refine h.of_same rfl (fun _ hgone => hgone) fun j => ?_
  simp only [Scene.ending, Coroutines.conclude]
  split <;> exact Coroutines.locals?_modify _ k j fun _ => rfl

/-- What happens in a moment is remembered. -/
theorem moment {m : Moment} (h : m.before.Faithful is memory) (hdone : m.IsDone) :
    m.after.Faithful is (m.remember is memory) := by
  obtain ⟨before, deed, after⟩ := m
  cases deed with
  | act step outcome =>
    obtain ⟨hplain, hperform⟩ := hdone
    have hnext := h.perform (fun k s => s.run k) hplain
    rwa [hperform] at hnext
  | start k =>
    obtain ⟨-, (rfl : after = before.starting k)⟩ := hdone
    refine h.of_same rfl (fun _ hgone => hgone) fun j => ?_
    exact Coroutines.locals?_modify before.coroutines k j fun _ => rfl
  | finish k outcome =>
    obtain ⟨previous, (rfl : after = (before.ending k previous outcome).1)⟩ := hdone
    exact h.ending k previous outcome

/-- What has been noted does not matter. -/
theorem of_silent (h : s.Faithful is memory) (hsame : s.silent = s'.silent) :
    s'.Faithful is memory := by
  have hvars : s.vars = s'.vars := congrArg (·.vars) hsame
  have hcoroutines : s.coroutines = s'.coroutines := congrArg (·.coroutines) hsame
  exact ⟨hvars ▸ h.initializers, hvars ▸ hcoroutines ▸ h.agrees⟩

/-- What happens in some moments is remembered. -/
theorem linked (h : s.Faithful is memory) (hlinked : Linked s moments s') :
    s'.Faithful is (moments.foldl (fun memory m => m.remember is memory) memory) := by
  induction hlinked generalizing memory with
  | nil hsame => exact h.of_silent hsame
  | cons hsame hdone _ ih => exact ih ((h.of_silent hsame).moment hdone)

end Faithful

/-- At the start, each coroutine remembers what it keeps. -/
theorem faithful_start (s₀ : Scene) :
    s₀.Faithful s₀.vars.initializers (s₀.recollection []) where
  initializers := rfl
  agrees k l hl key _ := by simp [recollection, hl]

theorem recollection_append (s₀ : Scene) (past later : List Moment) :
    s₀.recollection (past ++ later) =
      later.foldl (fun memory m => m.remember s₀.vars.initializers memory) (s₀.recollection past) :=
  List.foldl_append

/-! ## Isolation -/

/-- In the moment `m`, which comes after those of `past`, coroutines do not interfere. -/
structure Isolated (s₀ : Scene) (past : List Moment) (m : Moment) : Prop where
  /-- No coroutine is changed, its stack, its state or its values, but the active one or the one
  that is run. -/
  frame : ∀ j, m.agent ≠ some j → m.after.coroutines.all[j]? = m.before.coroutines.all[j]?
  /-- Whoever asks for a variable is told what it has stored last and not taken away since, or else
  what the initializer comes to. This is then stored, and so is whatever else had to be started on
  the way. -/
  asked : ∀ k c key initializer outcome, m.before.coroutines.active = some k →
    m.before.coroutines.all[k]? = some c → m.before.vars.isLive key = true →
    s₀.vars.initializers[key]? = some initializer → m.deed = .act (.get key) outcome →
    let memory := s₀.recollection past k
    let initial :=
      initializer.reading.run (Initializer.recollect (s₀.vars.initializers.take key).reverse) memory
    outcome = .ok (.number ((memory key).getD initial.1)) ∧
      s₀.recollection (past ++ [m]) k =
        if (memory key).isSome then memory else Function.update initial.2 key (some initial.1)
  /-- Each coroutine keeps what it has stored itself, for all variables that somebody can ask for.
  -/
  kept : ∀ k c key, m.after.coroutines.all[k]? = some c → m.after.vars.isGone key = false →
    c.locals.lookup key = s₀.recollection (past ++ [m]) k key
  /-- Dropping a variable changes no coroutine. -/
  dropped : ∀ key outcome, m.deed = .act (.drop key) outcome →
    m.after.coroutines = m.before.coroutines
  /-- A variable that can be asked for stays so until it is dropped itself, and is not gone. -/
  live : ∀ key, m.before.vars.isLive key = true →
    (∀ outcome, m.deed ≠ .act (.drop key) outcome) →
    m.after.vars.isLive key = true ∧ m.after.vars.isGone key = false

/-- No variable is dropped but the one that the step says. -/
theorem Effect.isLive (h : s.Effect step s') (hlive : s.vars.isLive key = true)
    (hother : step ≠ .drop key) : s'.vars.isLive key = true := by
  cases h with
  | @drop other =>
    have hne : key ≠ other := fun heq => hother (heq ▸ rfl)
    exact (Variables.isLive_drop hne).trans hlive
  | nothing | stack _ | heap | locals _ _ | produce => exact hlive

theorem isLive_moment {m : Moment} (hdone : m.IsDone) (hlive : m.before.vars.isLive key = true)
    (hother : ∀ outcome, m.deed ≠ .act (.drop key) outcome) :
    m.after.vars.isLive key = true := by
  obtain ⟨before, deed, after⟩ := m
  cases deed with
  | act step outcome =>
    exact hdone.effect.isLive hlive fun heq => hother outcome (congrArg (Deed.act · outcome) heq)
  | start k =>
    obtain ⟨-, (rfl : after = before.starting k)⟩ := hdone
    exact hlive
  | finish k outcome =>
    obtain ⟨previous, (rfl : after = (before.ending k previous outcome).1)⟩ := hdone
    exact hlive

/-- Who asks for a variable is told what is remembered. -/
theorem asked_recollect {m : Moment} {outcome : Except RunError Reply}
    (h : m.before.Faithful is memory) (hdone : m.IsDone)
    (hactive : m.before.coroutines.active = some k) (hc : m.before.coroutines.all[k]? = some c)
    (hlive : m.before.vars.isLive key = true) (hdeed : m.deed = .act (.get key) outcome) :
    outcome = .ok (.number (Initializer.recollect is.reverse key (memory k)).1) ∧
      m.remember is memory k = (Initializer.recollect is.reverse key (memory k)).2 := by
  obtain ⟨before, deed, after⟩ := m
  obtain rfl : deed = .act (.get key) outcome := hdeed
  obtain ⟨-, hperform⟩ := hdone
  have hagrees := h.agrees k _ (Coroutines.locals?_of_getElem? hc)
  have hvalue := (hagrees.get (Variables.isGone_of_isLive hlive)).1
  rw [h.initializers] at hvalue
  have houtcome : outcome = .ok (.number (before.vars.get key c.locals).1) := by
    have hresult := congrArg (·.2) hperform
    exact hresult.symm.trans (congrArg (·.2) (onVariable_of_live hlive hactive hc))
  refine ⟨houtcome.trans (by rw [hvalue]), ?_⟩
  replace hactive : before.coroutines.active = some k := hactive
  simp [Moment.remember, hactive, houtcome, remembered, BodyStep.remember]

theorem isolated_of_faithful {past : List Moment} {m : Moment}
    (h : m.before.Faithful s₀.vars.initializers (s₀.recollection past)) (hdone : m.IsDone) :
    s₀.Isolated past m := by
  have hafter : m.after.Faithful s₀.vars.initializers (s₀.recollection (past ++ [m])) := by
    rw [recollection_append]
    exact h.moment hdone
  refine ⟨fun j => m.frame hdone, ?_, ?_, ?_, ?_⟩
  · intro k c key initializer outcome hactive hc hlive hinitializer hdeed
    obtain ⟨houtcome, hremember⟩ := asked_recollect h hdone hactive hc hlive hdeed
    rw [Initializer.recollect_of_getElem? hinitializer] at houtcome hremember
    refine ⟨houtcome, ?_⟩
    rw [recollection_append]
    exact hremember
  · intro k c key hc hkey
    exact hafter.agrees k _ (Coroutines.locals?_of_getElem? hc) key hkey
  · intro key outcome hdeed
    obtain ⟨before, deed, after⟩ := m
    obtain rfl : deed = .act (.drop key) outcome := hdeed
    obtain ⟨-, hperform⟩ := hdone
    exact (congrArg (·.1.coroutines) hperform).symm
  · intro key hlive hother
    have hstill := isLive_moment hdone hlive hother
    exact ⟨hstill, Variables.isGone_of_isLive hstill⟩

/-- **Coroutines do not interfere.** Whatever a program does with coroutines, one after the other or
inside each other: its chronicle leaves out nothing that happens, and every moment of it keeps the
coroutines apart. -/
theorem coroutines_isolated (s₀ : Scene) (program : List BodyStep) :
    Linked s₀ (s₀.chronicle program) (((trace (program.map .step) s₀).map (·.2)).getLastD s₀) ∧
      (s₀.chronicle program).filterMap Moment.act? =
        (program.zip (trace (program.map .step) s₀)).flatMap
          (fun (step, reply, s) => (s.note step reply).noted) ∧
      ∀ past m future, s₀.chronicle program = past ++ m :: future → s₀.Isolated past m := by
  obtain ⟨hlinked, hnoted⟩ := told_chronicle program s₀
  refine ⟨hlinked, hnoted, fun past m future hchronicle => ?_⟩
  rw [hchronicle] at hlinked
  obtain ⟨s, hpast, hrest⟩ := hlinked.split
  have hfaithful : s.Faithful s₀.vars.initializers (s₀.recollection past) := by
    rw [← List.nil_append past, recollection_append]
    exact (faithful_start s₀).linked hpast
  cases hrest with
  | cons hsame hdone _ => exact isolated_of_faithful (hfaithful.of_silent hsame) hdone

/-- The first coroutine runs the second on its way. Both use a variable whose initializer asks for
another one that they have changed, and the second drops one that nobody uses. -/
def entwined : Scene where
  vars := .standard
  coroutines := { all := .replicate 2 { stack := .standard } }
  bodies := #[{ runs := [[.set 0 5, .run 1, .get 9, .suspend]] },
    { runs := [[.get 9, .drop 3, .set 0 7]] }]

/-- The first coroutine has set what the initializer asks for, and the second too, in between. Each
is told what comes of its own value. -/
theorem coroutines_isolated_entwined :
    ∃ past m future c, entwined.chronicle [.run 0] = past ++ m :: future ∧
      m.agent = some 0 ∧ m.deed = .act (.get 9) (.ok (.number 6)) ∧
      m.after.coroutines.all[1]? = m.before.coroutines.all[1]? ∧
      m.after.coroutines.all[1]? = some c ∧ c.locals.lookup 9 = some 1 := by
  have hlength : 7 < (entwined.chronicle [.run 0]).length := by decide +kernel
  have hsplit : entwined.chronicle [.run 0] = (entwined.chronicle [.run 0]).take 7 ++
      (entwined.chronicle [.run 0])[7] :: (entwined.chronicle [.run 0]).drop 8 := by
    rw [← List.drop_eq_getElem_cons hlength, List.take_append_drop]
  have h := (coroutines_isolated entwined [.run 0]).2.2 _ _ _ hsplit
  obtain ⟨outcome, hdeed⟩ :
      ∃ outcome, (entwined.chronicle [.run 0])[7].deed = .act (.get 9) outcome := ⟨_, rfl⟩
  have hasked : outcome = .ok (.number 6) :=
    (h.asked 0 _ 9 _ outcome rfl rfl rfl rfl hdeed).1
  have hagent : (entwined.chronicle [.run 0])[7].agent = some 0 := rfl
  have hframe := h.frame 1 (by rw [hagent]; decide)
  rw [hasked] at hdeed
  exact ⟨_, _, _, _, hsplit, hagent, hdeed, hframe, rfl, h.kept 1 _ 9 rfl rfl⟩

end Scene

end Resumable
