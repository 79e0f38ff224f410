import Resumable.Proofs.Coroutine.NestedRuns

/-!
# What happens, moment by moment

Coroutines are run one after the other and inside each other. The chronicle of a program takes all
of this apart into moments: a step that runs no coroutine, the start of a run, or its end
(`Scene.chronicle`). Every moment begins with what the one before has left, from the start of the
program to its end (`Linked`), and every step that has been noted on the way is there, in order and
with what it came to (`Told`). So whatever happens, happens in a moment (`Scene.told_chronicle`).
-/

namespace Resumable

/-- What is done in a moment. -/
inductive Deed where
  /-- A step that runs no coroutine, and what it came to. -/
  | act (step : BodyStep) (outcome : Except RunError Reply)
  /-- A run of a coroutine starts. -/
  | start (k : Nat)
  /-- A run of a coroutine ends, its body having come to `outcome`. -/
  | finish (k : Nat) (outcome : Except RunError Unit)

structure Moment where
  before : Scene
  deed : Deed
  after : Scene

/-- A step that runs no coroutine, and what it came to, if the event is one. -/
def Event.plain? (e : Event) : Option (BodyStep × Except RunError Reply) :=
  if e.step.runs?.isNone then some (e.step, e.outcome) else none

namespace Scene

/-- The scene without what has been noted. -/
def silent (s : Scene) : Scene := { s with events := [] }

/-- What has been noted of steps that run no coroutine, in order. -/
def noted (s : Scene) : List (BodyStep × Except RunError Reply) :=
  s.events.reverse.filterMap Event.plain?

end Scene

namespace Moment

/-- The coroutine that a moment has to do with: the active one, or the one that is run. -/
def agent (m : Moment) : Option Nat :=
  match m.deed with
  | .act _ _ => m.before.coroutines.active
  | .start k | .finish k _ => some k

/-- The step that is made, and what it came to. -/
def act? (m : Moment) : Option (BodyStep × Except RunError Reply) :=
  match m.deed with
  | .act step outcome => some (step, outcome)
  | .start _ | .finish _ _ => none

/-- The deed has led from the scene before to the scene after. -/
def IsDone (m : Moment) : Prop :=
  match m.deed with
  | .act step outcome =>
    step.runs? = none ∧ m.before.perform (fun k s => s.run k) step = (m.after, outcome)
  | .start k =>
    (∃ c, m.before.coroutines.all[k]? = some c ∧ c.pause?.isSome) ∧ m.after = m.before.starting k
  | .finish k outcome => ∃ previous, m.after = (m.before.ending k previous outcome).1

theorem IsDone.effect {before after : Scene} {step : BodyStep} {outcome : Except RunError Reply}
    (h : IsDone ⟨before, .act step outcome, after⟩) : before.Effect step after := by
  obtain ⟨hplain, hperform⟩ := h
  have heffect : before.Effect step (before.perform (fun k s => s.run k) step).1 :=
    Scene.effect_perform hplain
  rwa [hperform] at heffect

end Moment

/-- The moments lead from one scene to another, and nothing happens in between. -/
inductive Linked : Scene → List Moment → Scene → Prop where
  | nil {s s' : Scene} : s.silent = s'.silent → Linked s [] s'
  | cons {s s' : Scene} {m : Moment} {moments : List Moment} : s.silent = m.before.silent →
      m.IsDone → Linked m.after moments s' → Linked s (m :: moments) s'

namespace Linked

variable {s s' s'' : Scene} {moments later : List Moment}

theorem of_silent (h : s.silent = s'.silent) (hlinked : Linked s' moments s'') :
    Linked s moments s'' := by
  cases hlinked with
  | nil hsame => exact .nil (h.trans hsame)
  | cons hsame hdone hrest => exact .cons (h.trans hsame) hdone hrest

theorem append (h : Linked s moments s') (h' : Linked s' later s'') :
    Linked s (moments ++ later) s'' := by
  induction h with
  | nil hsame => exact h'.of_silent hsame
  | cons hsame hdone _ ih => exact .cons hsame hdone (ih h')

theorem to_silent (hlinked : Linked s moments s') (h : s'.silent = s''.silent) :
    Linked s moments s'' := by
  rw [← List.append_nil moments]
  exact hlinked.append (.nil h)

theorem split (h : Linked s (moments ++ later) s'') :
    ∃ s', Linked s moments s' ∧ Linked s' later s'' := by
  induction moments generalizing s with
  | nil => exact ⟨s, .nil rfl, h⟩
  | cons m moments ih =>
    cases h with
    | cons hsame hdone hrest =>
      obtain ⟨s', hfirst, hlast⟩ := ih hrest
      exact ⟨s', .cons hsame hdone hfirst, hlast⟩

end Linked

/-- The moments tell how one scene has become another, and leave out no step that has been noted. -/
structure Told (s : Scene) (moments : List Moment) (s' : Scene) : Prop where
  linked : Linked s moments s'
  noted : s'.noted = s.noted ++ moments.filterMap Moment.act?

namespace Told

variable {s s' s'' : Scene} {moments later : List Moment}

theorem refl (s : Scene) : Told s [] s := ⟨.nil rfl, by simp⟩

/-- One moment, in which nothing has been noted but what the deed says. -/
theorem single (m : Moment) (hdone : m.IsDone)
    (hnoted : m.after.noted = m.before.noted ++ [m].filterMap Moment.act?) :
    Told m.before [m] m.after :=
  ⟨.cons rfl hdone (.nil rfl), hnoted⟩

theorem append (h : Told s moments s') (h' : Told s' later s'') :
    Told s (moments ++ later) s'' where
  linked := h.linked.append h'.linked
  noted := by rw [h'.noted, h.noted, List.filterMap_append, List.append_assoc]

end Told

/-! ## Chronicles -/

namespace Scene

variable {s : Scene} {step : BodyStep} {run run' : Nat → Scene → Scene × Except RunError Unit}
  {told : Nat → Scene → List Moment}

/-- The moments of a step, given those of runs. A run that is refused has none. -/
def stepMoments (run : Nat → Scene → Scene × Except RunError Unit)
    (told : Nat → Scene → List Moment) (s : Scene) (step : BodyStep) : List Moment :=
  match step.runs? with
  | none => [⟨s, .act step (s.perform run step).2, (s.perform run step).1⟩]
  | some k =>
    match s.coroutine k with
    | .ok _ => told k s
    | .error _ => []

/-- The moments of steps up to the first that fails. -/
def bodyMoments (run : Nat → Scene → Scene × Except RunError Unit)
    (told : Nat → Scene → List Moment) : List BodyStep → Scene → List Moment
  | [], _ => []
  | step :: rest, s =>
    stepMoments run told s step ++
      match s.perform run step with
      | (s, .ok reply) => bodyMoments run told rest (s.note step (.ok reply))
      | (_, .error _) => []

/-- The moments of a run with at most `depth` coroutines inside each other. -/
def runMoments : (depth k : Nat) → Scene → List Moment
  | 0, _, _ => []
  | depth + 1, k, s =>
    match s.coroutines.begin k with
    | .error _ => []
    | .ok _ =>
      let (ended, outcome) := performAll (runWithin depth) (s.nextRun k) (s.starting k)
      ⟨s, .start k, s.starting k⟩ ::
        (bodyMoments (runWithin depth) (runMoments depth) (s.nextRun k) (s.starting k) ++
          [⟨ended, .finish k outcome, (ended.ending k s.coroutines.active outcome).1⟩])

/-- The moments of a program, made of steps from outside. -/
def chronicle : List BodyStep → Scene → List Moment
  | [], _ => []
  | step :: rest, s =>
    stepMoments (fun k s => s.run k) (fun k s => runMoments s.coroutines.all.size k s) s.silent
        step ++
      chronicle rest (s.silent.execute (.step step)).1

theorem perform_of_plain (hstep : step.runs? = none) :
    s.perform run step = s.perform run' step := by
  cases step with
  | run k | runOrFail k => cases hstep
  | _ => rfl

theorem noted_note (s : Scene) (step : BodyStep) (outcome : Except RunError Reply) :
    (s.note step outcome).noted =
      s.noted ++ if step.runs?.isNone then [(step, outcome)] else [] := by
  simp only [noted, note, List.reverse_cons, List.filterMap_append]
  cases hstep : step.runs? <;> simp [Event.plain?, hstep]

theorem noted_of_events {s' : Scene} (h : s'.events = s.events) : s'.noted = s.noted := by
  rw [noted, noted, h]

theorem told_stepMoments (h : ∀ k s, Told s (told k s) (run k s).1) (s : Scene)
    (step : BodyStep) : Told s (stepMoments run told s step)
      ((s.perform run step).1.note step (s.perform run step).2) := by
  unfold stepMoments
  rcases hruns : step.runs? with - | k
  · refine ⟨.cons rfl ⟨hruns, perform_of_plain hruns⟩ (.nil rfl), ?_⟩
    rw [noted_note, noted_of_events (effect_perform hruns).events, hruns]
    rfl
  have hnumber (settle : RunError → Except RunError Reply) : Told s
      (match s.coroutine k with
        | .ok _ => told k s
        | .error _ => []) (s.runNumber run k settle).1 := by
    unfold runNumber
    rcases s.coroutine k with e | c
    · exact .refl s
    · have hrun := h k s
      dsimp only
      rcases hcase : run k s with ⟨s', e | ⟨⟨⟩⟩⟩ <;> simpa [hcase] using hrun
  have hsame : Told s
      (match s.coroutine k with
        | .ok _ => told k s
        | .error _ => []) (s.perform run step).1 := by
    cases step with
    | run k | runOrFail k =>
      cases hruns
      exact hnumber _
    | _ => cases hruns
  refine ⟨hsame.linked.to_silent rfl, ?_⟩
  rw [noted_note, hruns, hsame.noted]
  simp

theorem told_bodyMoments (h : ∀ k s, Told s (told k s) (run k s).1) (steps : List BodyStep)
    (s : Scene) : Told s (bodyMoments run told steps s) (performAll run steps s).1 := by
  induction steps generalizing s with
  | nil => exact .refl s
  | cons step steps ih =>
    have hstep := told_stepMoments h s step
    rw [bodyMoments, performAll]
    rcases hperform : s.perform run step with ⟨s', e | reply⟩
    · rw [hperform] at hstep
      exact hstep.append (.refl _)
    · rw [hperform] at hstep
      exact hstep.append (ih _)

theorem told_runMoments (depth k : Nat) (s : Scene) :
    Told s (runMoments depth k s) (runWithin depth k s).1 := by
  induction depth generalizing k s with
  | zero =>
    rw [runMoments, runWithin]
    split <;> exact .refl s
  | succ depth ih =>
    rcases hc : s.coroutines.all[k]? with - | c
    · rw [runMoments, runWithin_of_none hc, Coroutines.begin_of_none hc]
      exact .refl s
    by_cases hpause : c.pause?.isSome
    · rw [runMoments, runWithin_succ hc hpause, Coroutines.begin_of_pause hc hpause]
      have hbody := told_bodyMoments ih (s.nextRun k) (s.starting k)
      rcases hended : performAll (runWithin depth) (s.nextRun k) (s.starting k) with
        ⟨ended, outcome⟩
      rw [hended] at hbody
      have hstart := Told.single ⟨s, .start k, s.starting k⟩ ⟨⟨c, hc, hpause⟩, rfl⟩
        (List.append_nil _).symm
      have hfinish := Told.single
        ⟨ended, .finish k outcome, (ended.ending k s.coroutines.active outcome).1⟩
        ⟨s.coroutines.active, rfl⟩ (List.append_nil _).symm
      exact hstart.append (hbody.append hfinish)
    · have hrefused : c.pause? = none := by simpa using hpause
      rw [runMoments, runWithin_of_not_pause hc hrefused, Coroutines.begin_of_not_pause hc hrefused]
      exact .refl s

/-- The chronicle of a program tells how its start has become its end, and leaves out no step: not
those that are noted in the bodies, and not those of the program itself. -/
theorem told_chronicle (program : List BodyStep) (s : Scene) :
    Linked s (s.chronicle program) (((trace (program.map .step) s).map (·.2)).getLastD s) ∧
      (s.chronicle program).filterMap Moment.act? =
        (program.zip (trace (program.map .step) s)).flatMap
          fun (step, reply, s) => (s.note step reply).noted := by
  induction program generalizing s with
  | nil => exact ⟨.nil rfl, rfl⟩
  | cons step program ih =>
    have hstep : Told s.silent (stepMoments (fun k s => s.run k)
        (fun k s => runMoments s.coroutines.all.size k s) s.silent step)
        ((s.silent.execute (.step step)).1.note step (s.silent.execute (.step step)).2) :=
      told_stepMoments (fun k s => told_runMoments s.coroutines.all.size k s) s.silent step
    obtain ⟨hlinked, hnoted⟩ := ih (s.silent.execute (.step step)).1
    rw [chronicle, List.map_cons, trace, List.map_cons, List.getLastD_cons, List.zip_cons_cons,
      List.flatMap_cons, List.filterMap_append]
    refine ⟨?_, ?_⟩
    · have hfirst : Linked s _ (s.silent.execute (.step step)).1 :=
        (hstep.linked.to_silent (by rfl)).of_silent (by rfl)
      exact hfirst.append hlinked
    · exact congrArg₂ _ hstep.noted.symm hnoted

end Scene

end Resumable
