import Mathlib.Data.List.Basic
import Resumable.Proofs.Coroutine.NestedRuns

/-!
# Iterators lose no element

A body and whoever iterates over it share one place for an element. Seen from the body, the events
of its runs account for what is pending: an element is put into an empty place and refused by a full
one (`Accounted`). Seen from outside, a call runs the body for as long as there is nothing to hand
out, and no longer (`Scene.Drives`). Put together, whatever has been offered with success has been
handed out in that order or is still pending (`Scene.iterator_conserves`).

All that is asked of the body is that it runs no coroutine itself (`Scene.Iterable`). Each run
counts, and after the last one the body does nothing and ends, so the bound on the number of runs is
never met (`Scene.hasNext_drives`).
-/

namespace Resumable

/-! ## Elements -/

/-- What is pending before and after some events, in the order in which they happened: offering an
element fails exactly if one is pending, and else it is pending from then on. -/
inductive Accounted : Option Int → List Event → Option Int → Prop where
  | nil {p : Option Int} : Accounted p [] p
  | stored {element : Int} {heap : Heap} {events : List Event} {q : Option Int} :
      Accounted (some element) events q →
      Accounted none (⟨.produce element, .ok .nothing, heap⟩ :: events) q
  | refused {old element : Int} {heap : Heap} {events : List Event} {q : Option Int} :
      Accounted (some old) events q →
      Accounted (some old)
        (⟨.produce element, .ok (.failed (.invalidState .alreadyPending)), heap⟩ :: events) q
  | other {p q : Option Int} {e : Event} {events : List Event} :
      (∀ element, e.step ≠ .produce element) → Accounted p events q → Accounted p (e :: events) q

theorem Accounted.append {p q r : Option Int} {events later : List Event}
    (h : Accounted p events q) (h' : Accounted q later r) : Accounted p (events ++ later) r := by
  induction h with
  | nil => exact h'
  | stored _ ih => exact .stored (ih h')
  | refused _ ih => exact .refused (ih h')
  | other hstep _ ih => exact .other hstep (ih h')

/-- The element that a step has offered with success. -/
def Event.element? (e : Event) : Option Int :=
  match e.step, e.outcome with
  | .produce element, .ok .nothing => some element
  | _, _ => none

/-- What has been offered is pending. -/
theorem Accounted.pending_eq {p q : Option Int} {events : List Event} (h : Accounted p events q) :
    q.toList = p.toList ++ events.filterMap Event.element? := by
  induction h with
  | nil => simp
  | stored _ ih | refused _ ih =>
    rw [ih]
    rfl
  | @other _ _ e _ hstep _ ih =>
    have hnone : e.element? = none := by
      unfold Event.element?
      split
      · next element heq _ => exact absurd heq (hstep element)
      · rfl
    rw [ih, List.filterMap_cons_none hnone]

namespace Scene

variable {s s' : Scene} {k : Nat} {chain : List Nat} {c : Coroutine} {b : Body} {step : BodyStep}
  {steps : List BodyStep} {run : Nat → Scene → Scene × Except RunError Unit}

/-- The elements that have been offered with success, in order. -/
def produced (s : Scene) : List Int := s.events.reverse.filterMap Event.element?

/-- The element of a coroutine that has been offered and not taken. -/
def offered (s : Scene) (k : Nat) : Option Int := (s.bodies[k]?.getD default).pending

theorem offered_of_body (hb : s.bodies[k]? = some b) : s.offered k = b.pending := by
  unfold offered
  rw [hb]
  rfl

/-! ## What a body does to its place -/

/-- To offer an element fails and changes nothing if one is pending, and else makes it pending. -/
theorem perform_produce (hactive : s.coroutines.active = some k) (element : Int) :
    s.perform run (.produce element) =
      if (s.offered k).isSome then (s, .ok (.failed (.invalidState .alreadyPending)))
      else (s.modifyBody k ({ · with pending := some element }), .ok .nothing) := by
  unfold offered
  rw [perform, hactive]
  dsimp only
  cases (s.bodies[k]?.getD default).pending <;> rfl

/-- Bodies are changed by offering an element, and by nothing else. -/
theorem Effect.bodies (h : s.Effect step s') (hother : ∀ element, step ≠ .produce element) :
    s'.bodies = s.bodies := by
  cases h with
  | produce => exact absurd rfl (hother _)
  | nothing | stack _ | heap | locals _ _ | drop => rfl

/-- A step of a body that runs no coroutine is accounted for. -/
theorem perform_accounted (run : Nat → Scene → Scene × Except RunError Unit)
    (hstep : step.runs? = none) (hactive : s.coroutines.active = some k)
    (hb : s.bodies[k]? = some b) :
    ∃ p, (s.perform run step).1.bodies[k]? = some { b with pending := p } ∧
      (s.perform run step).1.events = s.events ∧
      ∀ heap, Accounted b.pending [⟨step, (s.perform run step).2, heap⟩] p := by
  by_cases hproduce : ∃ element, step = .produce element
  · obtain ⟨element, rfl⟩ := hproduce
    rw [perform_produce hactive, offered_of_body hb]
    rcases hpending : b.pending with - | old
    · refine ⟨some element, ?_, rfl, fun heap => .stored .nil⟩
      show (s.bodies.modify k ({ · with pending := some element }))[k]? = _
      rw [Array.getElem?_modify, if_pos rfl, hb]
      rfl
    · refine ⟨some old, ?_, rfl, fun heap => .refused .nil⟩
      show s.bodies[k]? = _
      rw [hb, ← hpending]
  · have heffect : s.Effect step (s.perform run step).1 := effect_perform hstep
    have hbodies := heffect.bodies fun element heq => hproduce ⟨element, heq⟩
    refine ⟨b.pending, ?_, heffect.events, fun heap => ?_⟩
    · rw [hbodies]
      exact hb
    · exact .other (fun element heq => hproduce ⟨element, heq⟩) .nil

/-- The steps of a body are accounted for, up to the first that fails. -/
theorem performAll_accounted (run : Nat → Scene → Scene × Except RunError Unit)
    (hsteps : ∀ step ∈ steps, step.runs? = none)
    (hactive : s.coroutines.active = some k) (hb : s.bodies[k]? = some b) :
    ∃ p news, (performAll run steps s).1.bodies[k]? = some { b with pending := p } ∧
      (performAll run steps s).1.events = news ++ s.events ∧
      Accounted b.pending news.reverse p := by
  induction steps generalizing s b with
  | nil => exact ⟨b.pending, [], hb, rfl, .nil⟩
  | cons step steps ih =>
    obtain ⟨hstep, hrest⟩ := List.forall_mem_cons.1 hsteps
    obtain ⟨p, hbody, hevents, haccounted⟩ := perform_accounted run hstep hactive hb
    have halike : s.coroutines.Alike (s.perform run step).1.coroutines :=
      (effect_perform hstep).alike
    rw [performAll]
    rcases hperform : s.perform run step with ⟨s', e | reply⟩
    · rw [hperform] at hbody hevents haccounted
      exact ⟨p, [⟨step, .error e, s'.heap⟩], hbody, congrArg _ hevents, haccounted _⟩
    · rw [hperform] at hbody hevents haccounted halike
      obtain ⟨p', news, hbody', hevents', haccounted'⟩ :=
        ih (s := s'.note step (.ok reply)) hrest (halike.active.trans hactive) hbody
      refine ⟨p', news ++ [⟨step, .ok reply, s'.heap⟩], hbody', ?_, ?_⟩
      · rw [hevents', List.append_assoc, ← hevents]
        rfl
      · rw [List.reverse_append]
        exact (haccounted s'.heap).append haccounted'

/-! ## Runs -/

/-- The coroutine can be iterated over: whatever runs are going on, none is its own, and its body
runs no coroutine. -/
structure Iterable (k : Nat) (s : Scene) : Prop where
  nested : ∃ chain, s.Nested chain ∧ k ∉ chain
  exists_coroutine : ∃ c, s.coroutines.all[k]? = some c
  exists_body : ∃ b, s.bodies[k]? = some b ∧ ∀ run ∈ b.runs, ∀ step ∈ run, step.runs? = none

theorem nextRun_plain (hb : s.bodies[k]? = some b)
    (hplain : ∀ run ∈ b.runs, ∀ step ∈ run, step.runs? = none) :
    ∀ step ∈ s.nextRun k, step.runs? = none := by
  unfold nextRun
  rw [hb]
  dsimp only [Option.getD_some]
  rcases hrun : b.runs[b.count]? with - | run
  · exact fun step hstep => nomatch hstep
  · exact hplain run (List.mem_of_getElem? hrun)

/-- A run of a body that runs no coroutine. It counts, its events are accounted for, and if no run
is left the coroutine ends. -/
theorem run_accounted (h : s.Nested chain) (hc : s.coroutines.all[k]? = some c)
    (hpause : c.pause?.isSome) (hb : s.bodies[k]? = some b)
    (hplain : ∀ run ∈ b.runs, ∀ step ∈ run, step.runs? = none) :
    ∃ p news, (s.run k).1.bodies[k]? = some { b with count := b.count + 1, pending := p } ∧
      (s.run k).1.events = news ++ s.events ∧ Accounted b.pending news.reverse p ∧
      (b.runs.length ≤ b.count → (s.run k).1.coroutines.state? k = some .finished) := by
  have hstarted : (s.starting k).bodies[k]? = some { b with count := b.count + 1 } := by
    show (s.bodies.modify k _)[k]? = _
    rw [Array.getElem?_modify, if_pos rfl, hb]
    rfl
  obtain ⟨p, news, hbody, hevents, haccounted⟩ := performAll_accounted
    (fun k s => s.run k) (nextRun_plain hb hplain) (s := s.starting k) rfl hstarted
  rw [run_of_pause h hc hpause]
  refine ⟨p, news, hbody, hevents, haccounted, fun hcount => ?_⟩
  have hnone : s.nextRun k = [] := by
    unfold nextRun
    rw [hb]
    dsimp only [Option.getD_some]
    rw [List.getElem?_eq_none hcount]
    rfl
  rw [hnone]
  show ((s.starting k).coroutines.modify k ({ · with state := .finished })).state? k = _
  rw [Coroutines.state?_modify, if_pos rfl]
  show ((s.coroutines.all.modify k _)[k]?).map _ = _
  rw [Array.getElem?_modify, if_pos rfl, hc]
  rfl

/-- Runs of a coroutine, each of them made because nothing is pending and the coroutine can go on,
until an element is pending, the coroutine has ended or a run fails. -/
inductive Drives (k : Nat) : Scene → Scene → Option RunError → Prop where
  | stop {s : Scene} : (s.offered k).isSome ∨ s.coroutines.state? k = some .finished →
      Drives k s s none
  | fail {s s' : Scene} {e : RunError} : s.offered k = none →
      s.coroutines.state? k ≠ some .finished → s.run k = (s', .error e) → Drives k s s' (some e)
  | again {s s' s'' : Scene} {failure : Option RunError} : s.offered k = none →
      s.coroutines.state? k ≠ some .finished → s.run k = (s', .ok ()) → Drives k s' s'' failure →
      Drives k s s'' failure

namespace Iterable

theorem pause (h : s.Iterable k) (hstate : s.coroutines.state? k ≠ some .finished) :
    ∃ c, s.coroutines.all[k]? = some c ∧ c.pause?.isSome := by
  obtain ⟨c, hc⟩ := h.exists_coroutine
  have hc' : s.coroutines.state? k = some c.state := state?_eq_some hc
  refine ⟨c, hc, Coroutine.pause?_isSome_iff.2 ?_⟩
  cases hcase : c.state with
  | new => exact .inl rfl
  | suspended => exact .inr rfl
  | running =>
    obtain ⟨chain, hnested, hout⟩ := h.nested
    exact absurd ((hnested.running k).1 (hc'.trans (congrArg some hcase))) hout
  | finished => exact absurd (hc'.trans (congrArg some hcase)) hstate

/-- After a run, the coroutine can be iterated over as before. -/
theorem next (h : s.Iterable k) (hstate : s.coroutines.state? k ≠ some .finished) :
    (s.run k).1.Iterable k ∧ ∃ news, (s.run k).1.events = news ++ s.events ∧
      Accounted (s.offered k) news.reverse ((s.run k).1.offered k) ∧
      ((s.run k).1.coroutines.state? k = some .finished ∨
        s.runsLeft k = (s.run k).1.runsLeft k + 1) := by
  obtain ⟨c, hc, hpause⟩ := h.pause hstate
  obtain ⟨b, hb, hplain⟩ := h.exists_body
  obtain ⟨chain, hnested, hout⟩ := h.nested
  obtain ⟨p, news, hbody, hevents, haccounted, hended⟩ :=
    run_accounted hnested hc hpause hb hplain
  have hlater : s.Later chain (s.run k).1 := later_run hnested
  have hlt : k < (s.run k).1.coroutines.all.size := by
    rw [hlater.size]
    exact (Array.getElem?_eq_some_iff.1 hc).1
  refine ⟨⟨⟨chain, hlater.nested, hout⟩, ⟨_, Array.getElem?_eq_getElem hlt⟩, _, hbody, hplain⟩,
    news, hevents, ?_, ?_⟩
  · rw [offered_of_body hb, offered_of_body hbody]
    exact haccounted
  · by_cases hcount : b.runs.length ≤ b.count
    · exact .inl (hended hcount)
    · refine .inr ?_
      simp only [runsLeft, hb, hbody, Option.getD_some]
      omega

theorem nested_of_alike (h : s.Iterable k) (halike : s.coroutines.Alike s'.coroutines) :
    ∃ chain, s'.Nested chain ∧ k ∉ chain := by
  obtain ⟨chain, hnested, hout⟩ := h.nested
  exact ⟨chain, hnested.of_alike halike, hout⟩

theorem clear (h : s.Iterable k) : ((iteration k).clear s).Iterable k := by
  obtain ⟨b, hb, hplain⟩ := h.exists_body
  refine ⟨h.nested_of_alike (.refl _), h.exists_coroutine, { b with pending := none }, ?_, hplain⟩
  show (s.bodies.modify k ({ · with pending := none }))[k]? = _
  rw [Array.getElem?_modify, if_pos rfl, hb]
  rfl

theorem idle (h : s.Iterable k) : ({ s with events := [] } : Scene).Iterable k :=
  ⟨h.nested_of_alike (.refl _), h.exists_coroutine, h.exists_body⟩

theorem drive {failure : Option RunError} (h : s.Iterable k) (hdrives : Drives k s s' failure) :
    s'.Iterable k ∧ ∃ news, s'.events = news ++ s.events ∧
      Accounted (s.offered k) news.reverse (s'.offered k) := by
  induction hdrives with
  | stop _ => exact ⟨h, [], rfl, .nil⟩
  | fail _ hstate hrun =>
    obtain ⟨hnext, news, hevents, haccounted, -⟩ := h.next hstate
    rw [hrun] at hnext hevents haccounted
    exact ⟨hnext, news, hevents, haccounted⟩
  | again _ hstate hrun _ ih =>
    obtain ⟨hnext, news, hevents, haccounted, -⟩ := h.next hstate
    rw [hrun] at hnext hevents haccounted
    obtain ⟨hlast, more, hevents', haccounted'⟩ := ih hnext
    refine ⟨hlast, more ++ news, ?_, ?_⟩
    · rw [hevents', hevents, List.append_assoc]
    · rw [List.reverse_append]
      exact haccounted.append haccounted'

end Iterable

theorem offered_clear (s : Scene) (k : Nat) : ((iteration k).clear s).offered k = none := by
  show ((s.bodies.modify k ({ · with pending := none }))[k]?.getD default).pending = none
  rw [Array.getElem?_modify, if_pos rfl]
  cases s.bodies[k]? <;> rfl

/-! ## Calls -/

theorem hasNext_of_stop (limit : Nat)
    (h : (s.offered k).isSome ∨ s.coroutines.state? k = some .finished) :
    (iteration k).hasNext limit s = some (s, .ok (s.offered k).isSome) := by
  unfold Iteration.hasNext
  show (if (s.offered k).isSome then _ else _) = _
  split
  · next hsome => rw [hsome]
  · next hnone =>
    have hended : (iteration k).state s = .finished := by
      show (s.coroutines.state? k).getD .finished = _
      rw [h.resolve_left hnone]
      rfl
    rw [if_pos hended]
    simp [hnone]

theorem hasNext_of_run {limit : Nat} (h : s.Iterable k) (hnone : s.offered k = none)
    (hstate : s.coroutines.state? k ≠ some .finished) :
    (iteration k).hasNext (limit + 1) s = match s.run k with
      | (s, .error e) => some (s, .error e)
      | (s, .ok ()) => (iteration k).hasNext limit s := by
  obtain ⟨c, hc, -⟩ := h.pause hstate
  have hpending : ¬((iteration k).pending s).isSome = true := by
    show ¬(s.offered k).isSome = true
    simp [hnone]
  have hgoes : (iteration k).state s ≠ .finished := by
    have hc' : s.coroutines.state? k = some c.state := state?_eq_some hc
    show (s.coroutines.state? k).getD .finished ≠ _
    rw [hc'] at hstate ⊢
    exact fun heq => hstate (congrArg some heq)
  have hrun : (iteration k).run s = some (s.run k) := rfl
  rw [Iteration.hasNext, if_neg hpending, if_neg hgoes, hrun]
  rcases s.run k with ⟨s', e | ⟨⟨⟩⟩⟩ <;> rfl

/-- Whether there is an element is found out by running the body as long as need be. The bound on
the number of runs is not met. -/
theorem hasNext_drives {limit : Nat} (h : s.Iterable k) (hlimit : s.runsLeft k ≤ limit) :
    ∃ s' failure, Drives k s s' failure ∧ (iteration k).hasNext limit s =
      some (s', failure.elim (.ok (s'.offered k).isSome) .error) := by
  induction limit generalizing s with
  | zero => exact absurd hlimit (by simp [runsLeft])
  | succ limit ih =>
    by_cases hstop : (s.offered k).isSome ∨ s.coroutines.state? k = some .finished
    · exact ⟨s, none, .stop hstop, hasNext_of_stop _ hstop⟩
    obtain ⟨hpending, hstate⟩ := not_or.1 hstop
    have hnone : s.offered k = none := by simpa using hpending
    rw [hasNext_of_run h hnone hstate]
    obtain ⟨hnext, -, -, -, hleft⟩ := h.next hstate
    rcases hrun : s.run k with ⟨s', e | ⟨⟨⟩⟩⟩
    · exact ⟨s', some e, .fail hnone hstate hrun, rfl⟩
    rw [hrun] at hnext hleft
    rcases hleft with hended | hleft
    · exact ⟨s', none, .again hnone hstate hrun (.stop (.inr hended)),
        hasNext_of_stop _ (.inr hended)⟩
    · obtain ⟨s'', failure, hdrives, hanswer⟩ := ih hnext (by rw [hleft] at hlimit; omega)
      exact ⟨s'', failure, .again hnone hstate hrun hdrives, hanswer⟩

/-- A call on an iterator. -/
inductive IteratorCall where
  | hasNext
  | take
  | next
  deriving DecidableEq, Repr

namespace IteratorCall

/-- The call as a command. -/
def command (k : Nat) : IteratorCall → SceneCommand
  | .hasNext => .hasNext k
  | .take => .take k
  | .next => .next k

/-- What a call leaves and says when the body has been run as long as need be. -/
def answer (k : Nat) (s : Scene) : IteratorCall → Option RunError → Scene × Except RunError Reply
  | .hasNext, some e => (s, .error e)
  | .hasNext, none => (s, .ok (.flag (s.offered k).isSome))
  | .take, some e => (s, .error e)
  | .take, none =>
    match s.offered k with
    | some element => ((iteration k).clear s, .ok (.number element))
    | none => (s, .error .exhausted)
  | .next, some e => (s, .ok (.element (.error e)))
  | .next, none =>
    match s.offered k with
    | some element => ((iteration k).clear s, .ok (.element (.ok element)))
    | none => (s, .ok .nothing)

end IteratorCall

/-- A failure is passed on by those who want to take an element. -/
theorem takeNext_of_error {limit : Nat} {driven : Scene} {e : RunError}
    (hanswer : (iteration k).hasNext limit s = some (driven, .error e)) :
    (iteration k).takeNext limit s = some (driven, .error e) := by
  rw [Iteration.takeNext, hanswer]

/-- What is pending is taken. -/
theorem takeNext_of_ok {limit : Nat} {driven : Scene} {flag : Bool}
    (hanswer : (iteration k).hasNext limit s = some (driven, .ok flag)) :
    (iteration k).takeNext limit s = some (match driven.offered k with
      | some element => ((iteration k).clear driven, .ok element)
      | none => (driven, .error .exhausted)) := by
  have hpending : (iteration k).pending driven = driven.offered k := rfl
  rw [Iteration.takeNext, hanswer]
  dsimp only
  rw [hpending]
  cases driven.offered k <;> rfl

/-- A call runs the body as long as need be, and then hands out what is pending. -/
theorem execute_call (h : s.Iterable k) (call : IteratorCall) :
    ∃ driven failure, Drives k s driven failure ∧
      s.execute (call.command k) = call.answer k driven failure := by
  obtain ⟨c, hc⟩ := h.exists_coroutine
  obtain ⟨driven, failure, hdrives, hanswer⟩ := hasNext_drives h (Nat.le_refl _)
  refine ⟨driven, failure, hdrives, ?_⟩
  rcases failure with - | e
  · cases call with
    | hasNext =>
      simp only [IteratorCall.command, execute, onIterator, hc, hanswer]
      rfl
    | take =>
      simp only [IteratorCall.command, execute, onIterator, hc, takeNext_of_ok hanswer]
      unfold IteratorCall.answer
      cases driven.offered k <;> rfl
    | next =>
      simp only [IteratorCall.command, execute, onIterator, hc, Iteration.next?, hanswer]
      unfold IteratorCall.answer
      rcases hpending : driven.offered k with - | element
      · rfl
      · have htake := takeNext_of_ok
          (hasNext_of_stop (s := driven) (k := k) (s.runsLeft k) (.inl (by rw [hpending]; rfl)))
        rw [hpending] at htake
        simp only [Option.elim_none, Option.isSome_some, htake]
        rfl
  · cases call with
    | hasNext =>
      simp only [IteratorCall.command, execute, onIterator, hc, hanswer]
      rfl
    | take =>
      simp only [IteratorCall.command, execute, onIterator, hc, takeNext_of_error hanswer]
      rfl
    | next =>
      simp only [IteratorCall.command, execute, onIterator, hc, Iteration.next?, hanswer]
      rfl

/-! ## Any number of calls -/

/-- The element that a reply hands out. -/
def handed : Except RunError Reply → List Int
  | .ok (.number element) => [element]
  | .ok (.element (.ok element)) => [element]
  | _ => []

/-- An answer hands out what is pending, or it is still pending. Taking it changes neither what has
happened nor what can happen. -/
theorem answer_hands_out (h : s.Iterable k) (call : IteratorCall) (failure : Option RunError) :
    (call.answer k s failure).1.Iterable k ∧
      handed (call.answer k s failure).2 ++ ((call.answer k s failure).1.offered k).toList =
        (s.offered k).toList ∧
      (call.answer k s failure).1.produced = s.produced := by
  have hempty := offered_clear s k
  unfold IteratorCall.answer
  cases call with
  | hasNext => cases failure <;> exact ⟨h, rfl, rfl⟩
  | take | next =>
    rcases failure with - | e
    · rcases hpending : s.offered k with - | element
      · exact ⟨h, by simp [handed, hpending], rfl⟩
      · exact ⟨h.clear, by simp [handed, hempty], rfl⟩
    · exact ⟨h, rfl, rfl⟩

/-- A call hands out what was pending before or has been offered in the meantime, or it is still
pending. -/
theorem call_conserves (h : s.Iterable k) (hfresh : s.events = []) (call : IteratorCall) :
    (s.execute (call.command k)).1.Iterable k ∧
      handed (s.execute (call.command k)).2 ++ ((s.execute (call.command k)).1.offered k).toList =
        (s.offered k).toList ++ (s.execute (call.command k)).1.produced := by
  obtain ⟨driven, failure, hdrives, hanswer⟩ := execute_call h call
  obtain ⟨hdriven, news, hevents, haccounted⟩ := h.drive hdrives
  obtain ⟨hnext, hhanded, hproduced⟩ := answer_hands_out hdriven call failure
  rw [hanswer, hhanded, hproduced, produced, hevents, hfresh, List.append_nil]
  exact ⟨hnext, haccounted.pending_eq⟩

/-- What calls have handed out, and what is pending after them, has been offered with success. -/
theorem trace_conserves (h : s.Iterable k) (calls : List IteratorCall) :
    (((trace (calls.map (·.command k)) s).map (·.2)).getLastD s).Iterable k ∧
      (trace (calls.map (·.command k)) s).flatMap (handed ·.1) ++
          ((((trace (calls.map (·.command k)) s).map (·.2)).getLastD s).offered k).toList =
        (s.offered k).toList ++ (trace (calls.map (·.command k)) s).flatMap (·.2.produced) := by
  induction calls generalizing s with
  | nil => exact ⟨h, by simp [trace]⟩
  | cons call calls ih =>
    obtain ⟨hnext, hconserves⟩ := call_conserves h.idle rfl call
    obtain ⟨hlast, hrest⟩ := ih hnext
    rw [List.map_cons, trace, List.map_cons, List.getLastD_cons, List.flatMap_cons,
      List.flatMap_cons]
    refine ⟨hlast, ?_⟩
    rw [List.append_assoc, hrest, ← List.append_assoc, hconserves, List.append_assoc]
    rfl

/-- What a call says when there is nothing left. -/
def IteratorCall.atEnd : IteratorCall → Except RunError Reply
  | .hasNext => .ok (.flag false)
  | .take => .error .exhausted
  | .next => .ok .nothing

/-- Once the coroutine has ended and nothing is pending, calls change nothing. -/
theorem trace_of_end (h : s.Iterable k) (hstate : s.coroutines.state? k = some .finished)
    (hnone : s.offered k = none) (calls : List IteratorCall) :
    trace (calls.map (·.command k)) s =
      calls.map fun call => (call.atEnd, { s with events := [] }) := by
  have hcall (call : IteratorCall) : ({ s with events := [] } : Scene).execute (call.command k) =
      ({ s with events := [] }, call.atEnd) := by
    obtain ⟨driven, failure, hdrives, hanswer⟩ := execute_call h.idle call
    rw [hanswer]
    cases hdrives with
    | stop _ =>
      have hidle : ({ s with events := [] } : Scene).offered k = none := hnone
      cases call <;> simp only [IteratorCall.answer, hidle] <;> rfl
    | fail _ hgoes _ => exact absurd hstate hgoes
    | again _ hgoes _ _ => exact absurd hstate hgoes
  induction calls generalizing s with
  | nil => rfl
  | cons call calls ih =>
    rw [List.map_cons, List.map_cons, trace, hcall call]
    exact congrArg _ (ih h.idle hstate hnone hcall)

/-- **An iterator neither loses, doubles nor reorders elements.** After any calls, what has been
handed out and what is pending are the elements that were offered with success, in order, behind one
that may have been pending at the start. To offer an element fails and changes nothing just if one
is pending. A call runs the body only while nothing is pending, it has not ended and no run fails.
And once it has ended and nothing is pending, every call says so. -/
theorem iterator_conserves {s₀ : Scene} (h : s₀.Iterable k) (calls : List IteratorCall) :
    let past := trace (calls.map (·.command k)) s₀
    let s := (past.map (·.2)).getLastD s₀
    let idle : Scene := { s with events := [] }
    past.flatMap (handed ·.1) ++ (s.offered k).toList =
        (s₀.offered k).toList ++ past.flatMap (·.2.produced) ∧
      (∀ (t : Scene) (run : Nat → Scene → Scene × Except RunError Unit) (element : Int),
        t.coroutines.active = some k → t.perform run (.produce element) =
          if (t.offered k).isSome then (t, .ok (.failed (.invalidState .alreadyPending)))
          else (t.modifyBody k ({ · with pending := some element }), .ok .nothing)) ∧
      (∀ call : IteratorCall, ∃ driven failure, Drives k idle driven failure ∧
        Accounted (s.offered k) driven.events.reverse (driven.offered k) ∧
        idle.execute (call.command k) = call.answer k driven failure) ∧
      (s.coroutines.state? k = some .finished → s.offered k = none → ∀ later : List IteratorCall,
        trace (later.map (·.command k)) s = later.map fun call => (call.atEnd, idle)) := by
  obtain ⟨hlast, hconserves⟩ := trace_conserves h calls
  refine ⟨hconserves, fun t run element hactive => perform_produce hactive element, fun call => ?_,
    fun hstate hnone later => trace_of_end hlast hstate hnone later⟩
  obtain ⟨driven, failure, hdrives, hanswer⟩ := execute_call hlast.idle call
  obtain ⟨-, news, hevents, haccounted⟩ := hlast.idle.drive hdrives
  refine ⟨driven, failure, hdrives, ?_, hanswer⟩
  rw [hevents, List.append_nil]
  exact haccounted

/-- Offers two elements in its first run, none in its second, and one in its third, which fails. -/
def stuttering : Scene where
  vars := .standard
  coroutines := { all := #[{ stack := .standard }] }
  bodies := #[{ runs :=
    [[.produce 1, .produce 2, .suspend], [.suspend], [.produce 3, .fail .exhausted]] }]

/-- The second element is refused, and the failure does not lose the third. -/
theorem iterator_conserves_stuttering : stuttering.Iterable 0 ∧
    let past := trace ([.hasNext, .take, .next, .next].map (IteratorCall.command 0)) stuttering
    past.flatMap (handed ·.1) = [1, 3] ∧ past.flatMap (·.2.produced) = [1, 3] := by
  have h : stuttering.Iterable 0 :=
    ⟨⟨[], nested_nil_iff.2 ⟨rfl, by decide⟩, List.not_mem_nil⟩, ⟨_, rfl⟩, _, rfl, by decide⟩
  obtain ⟨hconserves, -⟩ := iterator_conserves h [.hasNext, .take, .next, .next]
  have hhanded : (trace ([.hasNext, .take, .next, .next].map (IteratorCall.command 0))
      stuttering).flatMap (handed ·.1) = [1, 3] := by decide +kernel
  have hempty : (((trace ([.hasNext, .take, .next, .next].map (IteratorCall.command 0))
      stuttering).map (·.2)).getLastD stuttering).offered 0 = none := by decide +kernel
  rw [hempty, hhanded] at hconserves
  exact ⟨h, hhanded, hconserves.symm⟩

end Scene

end Resumable
