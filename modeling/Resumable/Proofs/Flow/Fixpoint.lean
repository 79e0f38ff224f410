import Resumable.Proofs.Flow.Order
import Resumable.Proofs.Labels

/-!
# The frames of an analysis

An analysis that succeeds has found frames that no instruction can change any more: each one that
has a frame runs on it, and wherever control goes from there, the frame of that place knows no more
than what the instruction leaves (`Settled`). `settled_of_analyze` says so of all instructions, and
`entry_le_of_analyze` of the place where control starts.

The loop keeps one invariant (`Progressing`): an instruction that has a frame is settled or waits to
be looked at again. One look at an instruction keeps it because frames only go up and every frame
that has gone up is put among those that wait (`Rises`).
-/

namespace Resumable

open List (Forall₂)

/-! ## Steps keep the number of locals -/

namespace Frame

variable {f g : Frame}

theorem locals_of_replace {count : Nat} {v : FlowValue} (h : f.replace count v = .ok g) :
    g.locals = f.locals := by
  rw [(replace_eq_ok.1 h).2]

theorem locals_of_drop {count : Nat} (h : f.drop count = .ok g) : g.locals = f.locals := by
  rw [(drop_eq_ok.1 h).2]

theorem locals_of_convert {t : FlowValue} {op : Opcode} (h : f.convert t op = .ok g) :
    g.locals = f.locals := by
  obtain ⟨-, -, -, -, rfl⟩ := convert_eq_ok h
  rfl

theorem locals_of_stepSimple {index : Nat} {op : Opcode} (h : f.stepSimple index op = .ok g) :
    g.locals = f.locals := by
  unfold stepSimple at h
  split at h
  all_goals first
    | exact locals_of_replace h
    | exact locals_of_drop h
    | exact locals_of_convert h
    | cases h
      done
    | cases h
      rfl
    | obtain ⟨-, -, -, -, rfl, -⟩ := duplicate_eq_ok h
      rfl
    | obtain ⟨v, f₁, rfl, h₁⟩ := pop_bind h
      cases h₁
      rfl
    | obtain ⟨v₁, f₁, rfl, h₁⟩ := pop_bind h
      obtain ⟨v₂, f₂, rfl, h₂⟩ := pop_bind h₁
      cases h₂
      rfl

/-- No instruction changes how many locals there are. -/
theorem locals_length_of_step {index : Nat} {i : Instr} (h : f.step index i = .ok g) :
    g.locals.length = f.locals.length := by
  cases i with
  | label => cases h; rfl
  | simple => rw [locals_of_stepSimple h]
  | const c => cases c <;> cases h <;> rfl
  | «local» op slot =>
    simp only [step] at h
    split at h
    case h_6 =>
      obtain ⟨v, f₁, rfl, h₁⟩ := pop_bind h
      rw [(setLocal_eq_ok.1 h₁).2]
      exact List.length_set
    all_goals
      obtain ⟨v, -, h⟩ := bind_eq_ok.1 h
      cases h
      rfl
  | inc slot =>
    rw [(setLocal_eq_ok.1 h).2]
    exact List.length_set
  | jump op =>
    simp only [step] at h
    split at h
    case h_1 => cases h; rfl
    all_goals rw [locals_of_drop h]
  | switch => rw [locals_of_drop h]
  | field op m =>
    simp only [step] at h
    split at h
    · cases h
    · split at h
      · rw [locals_of_replace h]
      · rw [locals_of_drop h]
      · cases h; rfl
      · rw [locals_of_drop h]
  | invoke =>
    obtain ⟨-, -, -, settle, -, rfl⟩ := stepInvoke_eq_ok h
    exact List.length_map settle
  | type op =>
    simp only [step] at h
    split at h
    · cases h; rfl
    · obtain ⟨v, f₁, rfl, h₁⟩ := pop_bind h
      cases h₁
      rfl
    · rw [locals_of_replace h]
    · rw [locals_of_replace h]
  | frame op =>
    cases op with
    | save => rw [locals_of_drop h]
    | _ => cases h; rfl

end Frame

namespace Flow

variable {owner : String} {m : Method} {frames frames' : Array (Option Frame)} {s s' s'' : State}

/-! ## What it means to be settled -/

/-- The frame in front of the instruction at `target` knows no more than `f`. -/
def Into (frames : Array (Option Frame)) (target : Nat) (f : Frame) : Prop :=
  ∃ g, frames[target]?.join = some g ∧ f ≤ g

/-- Wherever control goes from the instruction at `index`, it brings what the frame there knows. -/
structure Leads (m : Method) (frames : Array (Option Frame)) (index : Nat) (i : Instr)
    (before after : Frame) : Prop where
  jumps : ∀ l ∈ i.branchTargets, ∃ target, labelPosition? m.code l = some target ∧
    Into frames target after
  falls : i.fallsThrough = true → Into frames (index + 1) after
  caught : ∀ h ∈ m.handlers, ∀ r, h.load? m.code = some r → r.covers index = true →
    ∃ type, Into frames r.target ⟨before.locals, [.reference type]⟩

/-- The instruction at `index` runs on its frame, if it has one, and changes no frame any more. -/
def Settled (m : Method) (frames : Array (Option Frame)) (index : Nat) : Prop :=
  ∀ i before, m.code[index]? = some i → frames[index]?.join = some before →
    ∃ after, before.step index i = .ok after ∧ Leads m frames index i before after

/-- All frames know about `count` locals. -/
def Uniform (count : Nat) (frames : Array (Option Frame)) : Prop :=
  ∀ (j : Nat) (f : Frame), frames[j]?.join = some f → f.locals.length = count

/-- What the loop keeps: an instruction is settled or waits to be looked at. -/
structure Progressing (m : Method) (s : State) : Prop where
  size : s.frames.size = m.code.length
  uniform : Uniform m.maxLocals.toNat s.frames
  settled : ∀ j, j ∉ s.pending → Settled m s.frames j

/-! ## Frames only go up -/

/-- From one state to the next frames have only gone up, and those that have changed wait to be
looked at. -/
structure Rises (s s' : State) : Prop where
  size : s'.frames.size = s.frames.size
  above : ∀ {j f}, s.frames[j]?.join = some f → Into s'.frames j f
  waits : ∀ {j}, j ∈ s.pending → j ∈ s'.pending
  changed : ∀ {j}, j ∉ s'.pending → s'.frames[j]? = s.frames[j]?

theorem Into.of_le {target : Nat} {f g : Frame} (h : Into frames target g) (hfg : f ≤ g) :
    Into frames target f := by
  obtain ⟨g', hg', hle⟩ := h
  exact ⟨g', hg', Frame.le_trans hfg hle⟩

theorem Into.rises {target : Nat} {f : Frame} (h : Into s.frames target f) (hs : Rises s s') :
    Into s'.frames target f := by
  obtain ⟨g, hg, hle⟩ := h
  exact (hs.above hg).of_le hle

namespace Rises

theorem refl (s : State) : Rises s s :=
  ⟨rfl, fun {_ f} h => ⟨f, h, Frame.le_refl f⟩, id, fun _ => rfl⟩

theorem trans (h : Rises s s') (h' : Rises s' s'') : Rises s s'' where
  size := h'.size.trans h.size
  above hf := (h.above hf).rises h'
  waits hj := h'.waits (h.waits hj)
  changed hj := (h'.changed hj).trans (h.changed fun hj' => hj (h'.waits hj'))

end Rises

theorem Leads.rises {index : Nat} {i : Instr} {before after : Frame}
    (h : Leads m s.frames index i before after) (hs : Rises s s') :
    Leads m s'.frames index i before after where
  jumps l hl := by
    obtain ⟨target, hpos, hinto⟩ := h.jumps l hl
    exact ⟨target, hpos, hinto.rises hs⟩
  falls hf := (h.falls hf).rises hs
  caught hd hmem r hr hcov := by
    obtain ⟨type, hinto⟩ := h.caught hd hmem r hr hcov
    exact ⟨type, hinto.rises hs⟩

/-! ## Looking at an instruction -/

/-- Puts a frame in its place and has the instruction looked at. -/
theorem rises_put {target : Nat} {f : Frame} {pending : List Nat}
    (habove : ∀ old, s.frames[target]?.join = some old → old ≤ f)
    (hwaits : ∀ {j}, j ∈ s.pending → j ∈ pending) (htarget : target ∈ pending) :
    Rises s ⟨s.frames.setIfInBounds target (some f), pending⟩ where
  size := Array.size_setIfInBounds
  above := by
    intro j old hold
    by_cases hj : target = j
    · subst hj
      have hlt : target < s.frames.size := by
        by_contra hge
        rw [Array.getElem?_eq_none (by omega)] at hold
        cases hold
      refine ⟨f, ?_, habove old hold⟩
      rw [Array.getElem?_setIfInBounds_self_of_lt hlt]
      rfl
    · refine ⟨old, ?_, Frame.le_refl old⟩
      rw [Array.getElem?_setIfInBounds_ne hj]
      exact hold
  waits := hwaits
  changed := by
    intro j hj
    refine Array.getElem?_setIfInBounds_ne ?_
    rintro rfl
    exact hj htarget

/-- A frame is the one that has been put in its place, or has been there before. -/
theorem cases_of_put {target j : Nat} {f g : Frame}
    (hg : (frames.setIfInBounds target (some f))[j]?.join = some g) :
    target = j ∧ g = f ∨ target ≠ j ∧ frames[j]?.join = some g := by
  by_cases hj : target = j
  · subst hj
    rw [Array.getElem?_setIfInBounds_self] at hg
    split at hg <;> cases hg
    exact .inl ⟨rfl, rfl⟩
  · rw [Array.getElem?_setIfInBounds_ne hj] at hg
    exact .inr ⟨hj, hg⟩

theorem uniform_put {count target : Nat} {f : Frame} (h : Uniform count frames)
    (hf : f.locals.length = count) : Uniform count (frames.setIfInBounds target (some f)) := by
  intro j g hg
  rcases cases_of_put hg with ⟨-, rfl⟩ | ⟨-, hg⟩
  · exact hf
  · exact h j g hg

/-- Having an instruction looked at puts it among those that wait. -/
theorem exists_pending (target : Nat) (s : State) : ∃ pending,
    (if s.pending.contains target then s else { s with pending := target :: s.pending }) =
      ⟨s.frames, pending⟩ ∧ target ∈ pending ∧ ∀ {j}, j ∈ s.pending → j ∈ pending := by
  by_cases hmem : s.pending.contains target = true
  · exact ⟨s.pending, by rw [if_pos hmem], by simpa using hmem, id⟩
  · exact ⟨target :: s.pending, by rw [if_neg hmem], List.mem_cons_self, List.mem_cons_of_mem _⟩

/-- Control has come to `target`: its frame knows no more than what has been brought. -/
theorem flowInto_spec {source target : Nat} {f : Frame}
    (hs : Uniform m.maxLocals.toNat s.frames) (hf : f.locals.length = m.maxLocals.toNat)
    (htarget : target < s.frames.size) (h : Gives (flowInto owner m source target f s) s') :
    Rises s s' ∧ Uniform m.maxLocals.toNat s'.frames ∧ Into s'.frames target f := by
  -- Whatever goes up to a frame above `f` brings what `f` knows.
  have hput : ∀ g, (∀ old, s.frames[target]?.join = some old → old ≤ g) → f ≤ g →
      g.locals.length = m.maxLocals.toNat →
      Gives (pure (if s.pending.contains target then
          ({ s with frames := s.frames.setIfInBounds target (some g) } : State)
        else { frames := s.frames.setIfInBounds target (some g)
               pending := target :: s.pending }) : Attempt State) s' →
      Rises s s' ∧ Uniform m.maxLocals.toNat s'.frames ∧ Into s'.frames target f := by
    intro g habove hfg hg h
    obtain ⟨pending, hp, hmem, hwaits⟩ :=
      exists_pending target { s with frames := s.frames.setIfInBounds target (some g) }
    rw [hp] at h
    rw [h.pure]
    refine ⟨rises_put habove hwaits hmem, uniform_put hs hg, g, ?_, hfg⟩
    show (s.frames.setIfInBounds target (some g))[target]?.join = some g
    rw [Array.getElem?_setIfInBounds_self_of_lt htarget]
    rfl
  unfold flowInto at h
  split at h
  · rename_i hnone
    refine hput f ?_ (Frame.le_refl f) hf h
    intro old hold
    rw [hnone] at hold
    cases hold
  · rename_i old hold
    obtain ⟨db, hrest⟩ := h.lift
    rcases hmerge : (old.merge f).run db with ⟨⟨answer, merged⟩, db'⟩
    rw [hmerge] at hrest
    obtain ⟨changed, hanswer, hlast⟩ := hrest.bind
    obtain rfl := gives_attempt hanswer
    have hmerged : (old.merged f).run.run db = (.ok merged, db') := by
      rw [Frame.merged_run, hmerge]
      rfl
    have hlen : old.locals.length = f.locals.length := (hs target old hold).trans hf.symm
    obtain ⟨hle, hle'⟩ := Frame.le_merged hlen hmerged
    have hchanged := Frame.merge_changed_iff hmerge
    cases changed with
    | false =>
      obtain rfl : merged = old := not_not.1 (mt hchanged.2 nofun)
      rw [hlast.pure]
      exact ⟨.refl s, hs, merged, hold, hle'⟩
    | true =>
      refine hput merged ?_ hle' (hle'.locals_length ▸ hf) hlast
      intro old' hold'
      cases hold.symm.trans hold'
      exact hle

theorem flowIntoAll_spec {source : Nat} {brought : List (Nat × Frame)}
    (hs : Uniform m.maxLocals.toNat s.frames)
    (hb : ∀ b ∈ brought, b.1 < s.frames.size ∧ b.2.locals.length = m.maxLocals.toNat)
    (h : Gives (flowIntoAll owner m source brought s) s') :
    Rises s s' ∧ Uniform m.maxLocals.toNat s'.frames ∧
      ∀ b ∈ brought, Into s'.frames b.1 b.2 := by
  induction brought generalizing s with
  | nil =>
    rw [Gives.pure h]
    exact ⟨.refl s, hs, by simp⟩
  | cons b rest ih =>
    obtain ⟨s₁, h₁, h⟩ := Gives.bind h
    obtain ⟨hlt, hlen⟩ := hb b List.mem_cons_self
    obtain ⟨hrise, hu, hinto⟩ := flowInto_spec hs hlen hlt h₁
    obtain ⟨hrise', hu', hrest⟩ := ih hu (fun b' hb' => by
      rw [hrise.size]
      exact hb b' (List.mem_cons_of_mem _ hb')) h
    refine ⟨hrise.trans hrise', hu', ?_⟩
    intro b' hb'
    rcases List.mem_cons.1 hb' with rfl | hb'
    · exact hinto.rises hrise'
    · exact hrest b' hb'

/-- The ranges have the positions of the handlers' labels. -/
def Placed (m : Method) (ranges : List HandlerRange) : Prop :=
  Forall₂ (fun h r => labelPosition? m.code h.start = some r.start ∧
    labelPosition? m.code h.stop = some r.stop ∧
    labelPosition? m.code h.target = some r.target) m.handlers ranges

theorem gives_position {index p : Nat} {l : Label} (h : Gives (position owner m index l) p) :
    labelPosition? m.code l = some p := by
  have hpos := gives_attempt h
  split at hpos
  · cases hpos
    assumption
  · cases hpos

theorem placed_of_handlerRanges {ranges : List HandlerRange}
    (h : Gives (m.handlers.mapM (handlerRange owner m)) ranges) : Placed m ranges := by
  refine h.mapM.imp ?_
  intro hd r hr
  obtain ⟨start, hstart, hr⟩ := Gives.bind hr
  obtain ⟨stop, hstop, hr⟩ := Gives.bind hr
  obtain ⟨target, htarget, hr⟩ := Gives.bind hr
  rw [hr.pure]
  exact ⟨gives_position hstart, gives_position hstop, gives_position htarget⟩

/-- A handler that is loaded has its range among those of the analysis. -/
theorem Placed.exists_range {ranges : List HandlerRange} (h : Placed m ranges) {hd : Handler}
    (hmem : hd ∈ m.handlers) {r : LoadedHandler} (hr : hd.load? m.code = some r) :
    ∃ range ∈ ranges, range.start = r.start ∧ range.stop = r.stop ∧ range.target = r.target := by
  obtain ⟨range, hrange, hstart, hstop, htarget⟩ := exists_right_of_mem h hmem
  obtain ⟨hstart', hstop', htarget', -⟩ := Handler.load?_eq_some_iff.1 hr
  rw [hstart] at hstart'
  rw [hstop] at hstop'
  rw [htarget] at htarget'
  exact ⟨range, hrange, Option.some.inj hstart', Option.some.inj hstop', Option.some.inj htarget'⟩

/-- One look at an instruction runs it on its frame and brings what it leaves everywhere it goes. -/
theorem visit_spec {ranges : List HandlerRange} {index : Nat} {i : Instr} {before : Frame}
    (hsize : s.frames.size = m.code.length) (hs : Uniform m.maxLocals.toNat s.frames)
    (hranges : Placed m ranges) (hbefore : before.locals.length = m.maxLocals.toNat)
    (h : Gives (visit owner m ranges index i before s) s') :
    Rises s s' ∧ Uniform m.maxLocals.toNat s'.frames ∧
      ∃ after, before.step index i = .ok after ∧ Leads m s'.frames index i before after := by
  unfold visit at h
  obtain ⟨after, hafter, h⟩ := Gives.bind h
  obtain ⟨targets, htargets, h⟩ := Gives.bind h
  obtain ⟨s₁, h₁, h⟩ := Gives.bind h
  replace hafter := gives_attempt hafter
  have hlen : after.locals.length = m.maxLocals.toNat :=
    (Frame.locals_length_of_step hafter).trans hbefore
  have hplaced : Forall₂ (fun l p => labelPosition? m.code l = some p) i.branchTargets targets :=
    htargets.mapM.imp fun _ _ => gives_position
  -- The places to which the instruction jumps.
  obtain ⟨hrise₁, hu₁, hinto₁⟩ := flowIntoAll_spec hs (by
    intro b hb
    obtain ⟨target, htarget, rfl⟩ := List.mem_map.1 hb
    obtain ⟨l, -, hl⟩ := exists_left_of_mem hplaced htarget
    exact ⟨hsize ▸ lt_of_labelPosition? hl, hlen⟩) h₁
  -- The instruction behind it.
  have hfalls : ∃ s₂, Rises s₁ s₂ ∧ Uniform m.maxLocals.toNat s₂.frames ∧
      (i.fallsThrough = true → Into s₂.frames (index + 1) after) ∧
      Gives (flowIntoAll owner m index ((ranges.filter (·.covers index)).flatMap fun r =>
        [before.locals, after.locals].map fun locals => (r.target, ⟨locals, [.reference r.type]⟩))
        s₂) s' := by
    dsimp only at h
    by_cases hfall : i.fallsThrough = true
    · rw [if_pos hfall] at h
      split at h
      · obtain ⟨_, hthrow, _⟩ := Gives.bind h
        exact (Gives.not_throw hthrow).elim
      · obtain ⟨s₂, h₂, h⟩ := Gives.bind h
        have hlt : index + 1 < s₁.frames.size := by
          rw [hrise₁.size, hsize]
          omega
        obtain ⟨hrise₂, hu₂, hinto₂⟩ := flowInto_spec hu₁ hlen hlt h₂
        exact ⟨s₂, hrise₂, hu₂, fun _ => hinto₂, h⟩
    · rw [if_neg hfall] at h
      exact ⟨s₁, .refl s₁, hu₁, fun hf => absurd hf hfall, h⟩
  obtain ⟨s₂, hrise₂, hu₂, hinto₂, h₃⟩ := hfalls
  -- The handlers that cover it.
  obtain ⟨hrise₃, hu₃, hinto₃⟩ := flowIntoAll_spec hu₂ (by
    intro b hb
    obtain ⟨range, hrange, hb⟩ := List.mem_flatMap.1 hb
    obtain ⟨locals, hlocals, rfl⟩ := List.mem_map.1 hb
    obtain ⟨hd, -, -, -, hl⟩ := exists_left_of_mem hranges (List.mem_of_mem_filter hrange)
    refine ⟨?_, ?_⟩
    · rw [hrise₂.size, hrise₁.size, hsize]
      exact lt_of_labelPosition? hl
    · rcases List.mem_cons.1 hlocals with rfl | hlocals
      · exact hbefore
      · rw [List.mem_singleton.1 hlocals]
        exact hlen) h₃
  refine ⟨(hrise₁.trans hrise₂).trans hrise₃, hu₃, after, hafter, ?_, ?_, ?_⟩
  · intro l hl
    obtain ⟨target, htarget, hpos⟩ := exists_right_of_mem hplaced hl
    have hinto := hinto₁ (target, after) (List.mem_map_of_mem htarget)
    exact ⟨target, hpos, (hinto.rises hrise₂).rises hrise₃⟩
  · intro hfall
    exact (hinto₂ hfall).rises hrise₃
  · intro hd hmem r hr hcov
    obtain ⟨range, hrange, hstart, hstop, htarget⟩ := hranges.exists_range hmem hr
    have hcov' : range.covers index = true := by
      unfold HandlerRange.covers
      rw [hstart, hstop]
      exact hcov
    refine ⟨range.type, htarget ▸ hinto₃ (range.target, ⟨before.locals, [.reference range.type]⟩) ?_⟩
    exact List.mem_flatMap.2 ⟨range, List.mem_filter.2 ⟨hrange, hcov'⟩, by simp⟩

/-! ## The loop -/

/-- One look keeps what the loop keeps: only what has changed, or has just been looked at, could be
unsettled, and the first waits again. -/
theorem Progressing.visit {ranges : List HandlerRange} {index : Nat} {pending : List Nat}
    {i : Instr} {before : Frame} (hs : Progressing m ⟨frames, index :: pending⟩)
    (hranges : Placed m ranges) (hi : m.code[index]? = some i)
    (hbefore : frames[index]?.join = some before)
    (h : Gives (Flow.visit owner m ranges index i before ⟨frames, pending⟩) s') :
    Progressing m s' ∧ Rises ⟨frames, pending⟩ s' := by
  obtain ⟨hrise, hu, after, hafter, hleads⟩ :=
    visit_spec (s := ⟨frames, pending⟩) hs.size hs.uniform hranges
      (hs.uniform index before hbefore) h
  refine ⟨⟨hrise.size.trans hs.size, hu, ?_⟩, hrise⟩
  intro j hj i' before' hi' hbefore'
  rw [hrise.changed hj] at hbefore'
  by_cases hji : j = index
  · subst hji
    cases hi.symm.trans hi'
    cases hbefore.symm.trans hbefore'
    exact ⟨after, hafter, hleads⟩
  · have hj' : j ∉ index :: pending := by
      rw [List.mem_cons, not_or]
      exact ⟨hji, fun hmem => hj (hrise.waits hmem)⟩
    obtain ⟨after', hafter', hleads'⟩ := hs.settled j hj' i' before' hi' hbefore'
    exact ⟨after', hafter', hleads'.rises (s := ⟨frames, pending⟩) hrise⟩

/-- Where there is nothing to look at, there is nothing to settle. -/
theorem Progressing.skip {index : Nat} {pending : List Nat}
    (hs : Progressing m ⟨frames, index :: pending⟩)
    (hskip : ∀ i before, m.code[index]? = some i → frames[index]?.join = some before → False) :
    Progressing m ⟨frames, pending⟩ where
  size := hs.size
  uniform := hs.uniform
  settled j hj i before hi hbefore := by
    by_cases hji : j = index
    · subst hji
      exact (hskip i before hi hbefore).elim
    · refine hs.settled j ?_ i before hi hbefore
      rw [List.mem_cons, not_or]
      exact ⟨hji, hj⟩

/-- When no instruction waits any more, all are settled. -/
theorem settle_spec {ranges : List HandlerRange} {steps : Nat} (hs : Progressing m s)
    (hranges : Placed m ranges)
    (h : Gives (settle owner m ranges m.code.toArray steps s) frames') :
    Progressing m ⟨frames', []⟩ ∧ ∀ j f, s.frames[j]?.join = some f → Into frames' j f := by
  induction steps generalizing s with
  | zero =>
    obtain ⟨frames, pending⟩ := s
    cases pending with
    | nil =>
      rw [Gives.pure h]
      exact ⟨hs, fun j f hf => ⟨f, hf, Frame.le_refl f⟩⟩
    | cons => exact (Gives.not_throw h).elim
  | succ steps ih =>
    obtain ⟨frames, pending⟩ := s
    cases pending with
    | nil =>
      rw [Gives.pure h]
      exact ⟨hs, fun j f hf => ⟨f, hf, Frame.le_refl f⟩⟩
    | cons index pending =>
      rw [settle] at h
      split at h
      · rename_i i before hi hbefore
        rw [List.getElem?_toArray] at hi
        obtain ⟨s₁, h₁, h⟩ := Gives.bind h
        obtain ⟨hs₁, hrise⟩ := hs.visit hranges hi hbefore h₁
        obtain ⟨hfinal, hinto⟩ := ih hs₁ h
        refine ⟨hfinal, fun j f hf => ?_⟩
        obtain ⟨g, hg, hle⟩ := hrise.above hf
        exact (hinto j g hg).of_le hle
      · rename_i hnone
        have hskip := hs.skip fun i before hi hbefore =>
          hnone i before (by rw [List.getElem?_toArray, hi]) hbefore
        exact ih (s := ⟨frames, pending⟩) hskip h

/-! ## Where control starts -/

/-- What is known of receiver and arguments. -/
def arguments (owner : String) (m : Method) (type : MethodType) : List FlowValue :=
  (if m.isStatic then [] else [.reference owner]) ++ type.params.map .ofFieldType

theorem placeParams_spec {types : List FieldType} {index count : Nat} {f g : Frame}
    (h : Gives (placeParams owner m index types f) g) {pre : List FlowValue}
    (hindex : pre.length = index) (hf : f.locals = pre ++ List.replicate count .unknown) :
    types.length ≤ count ∧ g = ⟨pre ++ types.map .ofFieldType ++
      List.replicate (count - types.length) .unknown, f.stack⟩ := by
  induction types generalizing index pre count f with
  | nil =>
    rw [Gives.pure h]
    refine ⟨Nat.zero_le count, ?_⟩
    rw [List.map_nil, List.append_nil, List.length_nil, Nat.sub_zero, ← hf]
  | cons type rest ih =>
    rw [placeParams] at h
    split at h
    · rename_i hlt
      rw [hf, List.length_append, List.length_replicate] at hlt
      obtain ⟨count, rfl⟩ : ∃ c, count = c + 1 := ⟨count - 1, by omega⟩
      have hset : f.locals.set index (.ofFieldType type) =
          (pre ++ [.ofFieldType type]) ++ List.replicate count .unknown := by
        rw [hf, List.replicate_succ, ← hindex]
        simp
      obtain ⟨hle, hg⟩ := ih h (by simp [hindex]) hset
      refine ⟨by simpa using hle, ?_⟩
      rw [hg]
      simp
    · exact (Gives.not_throw h).elim

theorem entryFrame_spec {f : Frame} (h : Gives (entryFrame owner m) f) :
    ∃ type, MethodType.parse m.desc = .ok type ∧
      (arguments owner m type).length ≤ m.maxLocals.toNat ∧
      f = ⟨arguments owner m type ++ List.replicate
        (m.maxLocals.toNat - (arguments owner m type).length) .unknown, []⟩ := by
  unfold entryFrame at h
  obtain ⟨type, htype, h⟩ : ∃ type, MethodType.parse m.desc = .ok type ∧ Gives
      (if m.isStatic then placeParams owner m 0 type.params (Frame.blank m.maxLocals.toNat)
      else if (Frame.blank m.maxLocals.toNat).locals.isEmpty then
        throw (failure owner m 0 .noReceiverLocal)
      else placeParams owner m 1 type.params ⟨(Frame.blank m.maxLocals.toNat).locals.set 0
        (.reference owner), []⟩) f := by
    rcases htype : MethodType.parse m.desc with cause | type
    all_goals
      rw [htype] at h
      obtain ⟨_, hfirst, h⟩ := Gives.bind h
    · exact (Gives.not_throw hfirst).elim
    · rw [Gives.pure hfirst] at h
      exact ⟨type, rfl, h⟩
  refine ⟨type, htype, ?_⟩
  unfold arguments
  by_cases hstatic : m.isStatic = true
  · rw [if_pos hstatic] at h
    have hblank : (Frame.blank m.maxLocals.toNat).locals =
        [] ++ List.replicate m.maxLocals.toNat .unknown := rfl
    obtain ⟨hle, rfl⟩ := placeParams_spec h rfl hblank
    simp only [if_pos hstatic, List.nil_append, List.length_map]
    exact ⟨hle, rfl⟩
  · rw [if_neg hstatic] at h
    split at h
    · exact (Gives.not_throw h).elim
    · rename_i hempty
      obtain ⟨count, hcount⟩ : ∃ c, m.maxLocals.toNat = c + 1 := by
        rcases hmax : m.maxLocals.toNat with _ | c
        · rw [hmax] at hempty
          exact absurd rfl hempty
        · exact ⟨c, rfl⟩
      have hset : (Frame.blank m.maxLocals.toNat).locals.set 0 (.reference owner) =
          [.reference owner] ++ List.replicate count .unknown := by
        rw [hcount]
        rfl
      obtain ⟨hle, rfl⟩ := placeParams_spec h rfl hset
      simp only [if_neg hstatic, hcount, List.length_append, List.length_map, List.length_cons,
        List.length_nil]
      refine ⟨by omega, ?_⟩
      rw [show count + 1 - (0 + 1 + type.params.length) = count - type.params.length by omega]

/-! ## The result -/

/-- What an analysis that succeeds has found. -/
structure Analyzed (owner : String) (m : Method) (frames : Array (Option Frame)) : Prop where
  size : frames.size = m.code.length
  uniform : Uniform m.maxLocals.toNat frames
  settled : ∀ j, Settled m frames j
  entry : m.code ≠ [] → ∃ type, MethodType.parse m.desc = .ok type ∧
    (arguments owner m type).length ≤ m.maxLocals.toNat ∧
    Into frames 0 ⟨arguments owner m type ++ List.replicate
      (m.maxLocals.toNat - (arguments owner m type).length) .unknown, []⟩

theorem analyzed_of_analyze (h : Gives (analyze owner m) frames) : Analyzed owner m frames := by
  unfold analyze at h
  obtain ⟨ranges, hranges, h⟩ := Gives.bind h
  replace hranges := placed_of_handlerRanges hranges
  split at h
  · rename_i hempty
    have hnil : m.code = [] := by simpa using hempty
    rw [Gives.pure h]
    refine ⟨by rw [hnil]; rfl, ?_, ?_, fun hcode => absurd hnil hcode⟩
    · intro j f hf
      simp at hf
    · intro j i before hi
      rw [hnil] at hi
      cases hi
  · rename_i hne
    have hpos : 0 < m.code.length := List.length_pos_iff.2 (by simpa using hne)
    obtain ⟨entry, hentry, h⟩ := Gives.bind h
    obtain ⟨type, htype, hle, hentry⟩ := entryFrame_spec hentry
    obtain ⟨db, -, h⟩ := Gives.bind h
    have hlen : entry.locals.length = m.maxLocals.toNat := by
      rw [hentry]
      simp only [List.length_append, List.length_replicate]
      omega
    have hfirst : ((Array.replicate m.code.length none).setIfInBounds 0 (some entry))[0]?.join =
        some entry := by
      rw [Array.getElem?_setIfInBounds_self_of_lt (by simpa using hpos)]
      rfl
    have hothers : Uniform m.maxLocals.toNat (Array.replicate m.code.length none) := by
      intro j f hf
      rw [Array.getElem?_replicate] at hf
      split at hf <;> cases hf
    have hstart : Progressing m
        ⟨(Array.replicate m.code.length none).setIfInBounds 0 (some entry), [0]⟩ := by
      refine ⟨by simp, uniform_put hothers hlen, ?_⟩
      intro j hj i before hi hbefore
      rw [Array.getElem?_setIfInBounds_ne (by simpa [eq_comm] using hj),
        Array.getElem?_replicate] at hbefore
      split at hbefore <;> cases hbefore
    obtain ⟨hfinal, hinto⟩ := settle_spec hstart hranges h
    refine ⟨hfinal.size, hfinal.uniform, fun j => hfinal.settled j List.not_mem_nil, fun _ => ?_⟩
    exact ⟨type, htype, hle, hentry ▸ hinto 0 entry hfirst⟩

end Flow

end Resumable
