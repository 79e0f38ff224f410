import Resumable.Proofs.FrameStack.Chain
import Resumable.Proofs.FrameStack.Operations

/-!
# References that a stack forgets

A frame that is released should leave no reference in its slots, lest the stack hold on to an object
that nobody can get at any more. What `release` clears ends with the reserved slots. So it forgets
everything if and only if no reference lies behind them.

A reference comes to lie there in one way only: a frame reserves fewer slots than it has used before,
or than the frames have used that it so drops. `release_forgets_iff` says that as long as saved values
keep to the slots that their frames have reserved, and those end within 64 bits, nothing else is to
blame, and that a frame that has been cut short like this does leave references behind.
-/

namespace Resumable

namespace FrameStack

variable {s s' : FrameStack} {op : Operation} {f : FrameMark} {k n b top : Nat} {frames : List FrameMark}
  {counts : List Nat}

/-! ## Slots that frames have reserved -/

/-- How many slots each frame has reserved last, after an operation. -/
def Operation.count : Operation → FrameStack → List Nat → List Nat
  | enter, s, counts => if s.depth < s.frames.length then counts else counts ++ [0]
  | reserve resumeIndex slots, s, counts =>
    match s.reserve resumeIndex slots with
    | .ok _ => counts.take (s.depth - 1) ++ [slots.toNat, 0]
    | .error _ => counts
  | release, s, counts =>
    match s.current with
    | .ok (k, _) => counts.take k
    | .error _ => counts
  | _, _, counts => counts

/-- A value is kept only in a slot that the current frame has reserved last. -/
def Operation.StaysWithin (s : FrameStack) (counts : List Nat) : Operation → Prop
  | save _ slot _ => ∃ k n, s.depth = k + 1 ∧ counts[k]? = some n ∧ slot.toNat < n
  | _ => True

/-- So it is with all of some operations, one after the other. -/
def StayWithin : FrameStack → List Nat → List Operation → Prop
  | _, _, [] => True
  | s, counts, op :: ops =>
    op.StaysWithin s counts ∧ StayWithin (s.perform op) (op.count s counts) ops

/-- Each frame has its reserved slots to itself, and all of them lie in front of `top`. -/
structure Spaced (frames : List FrameMark) (counts : List Nat) (top : Nat) : Prop where
  length : counts.length = frames.length
  apart : (frames.zip counts).Pairwise fun a b => a.1.base + a.2 ≤ b.1.base
  below : ∀ a ∈ frames.zip counts, a.1.base + a.2 ≤ top

namespace Spaced

theorem nil : Spaced [] [] top := ⟨rfl, .nil, nofun⟩

/-- The frames outside a frame have reserved nothing behind its start. -/
theorem take (h : Spaced frames counts top) (hf : frames[k]? = some f) :
    Spaced (frames.take k) (counts.take k) f.base := by
  have hzip : (frames.take k).zip (counts.take k) = (frames.zip counts).take k :=
    List.take_zipWith.symm
  obtain ⟨hk, rfl⟩ := List.getElem?_eq_some_iff.1 hf
  have hk' : k < (frames.zip counts).length := by
    rw [List.length_zip, h.length, Nat.min_self]
    exact hk
  refine ⟨by simp [h.length], ?_, fun a ha => ?_⟩
  · rw [hzip]
    exact h.apart.sublist (List.take_sublist k _)
  · rw [hzip] at ha
    obtain ⟨i, hi, rfl⟩ := List.mem_take_iff_getElem.1 ha
    have hlt := List.pairwise_iff_getElem.1 h.apart i k (by omega) hk' (by omega)
    rwa [List.getElem_zip (i := k)] at hlt

/-- One more frame reserves slots behind those of the others. -/
theorem concat (h : Spaced frames counts b) (resumeIndex : UInt32) (n : Nat) :
    Spaced (frames ++ [⟨resumeIndex, b⟩]) (counts ++ [n]) (b + n) := by
  have hzip : (frames ++ [(⟨resumeIndex, b⟩ : FrameMark)]).zip (counts ++ [n]) =
      frames.zip counts ++ [(⟨resumeIndex, b⟩, n)] := List.zip_append h.length.symm
  refine ⟨by simp [h.length], ?_, fun a ha => ?_⟩
  · rw [hzip]
    refine List.pairwise_append.2 ⟨h.apart, List.pairwise_singleton _ _, fun a ha a' ha' => ?_⟩
    rw [List.mem_singleton.1 ha']
    exact h.below a ha
  · rw [hzip] at ha
    rcases List.mem_append.1 ha with ha | ha
    · exact Nat.le_trans (h.below a ha) (Nat.le_add_right b n)
    · rw [List.mem_singleton.1 ha]

theorem mono (h : Spaced frames counts b) (hle : b ≤ top) : Spaced frames counts top :=
  ⟨h.length, h.apart, fun a ha => Nat.le_trans (h.below a ha) hle⟩

/-- The slots of a frame lie in front of `top`. -/
theorem le_top (h : Spaced frames counts top) (hf : frames[k]? = some f)
    (hn : counts[k]? = some n) : f.base + n ≤ top :=
  h.below (f, n) (List.mem_of_getElem? (List.getElem?_zip_eq_some.2 ⟨hf, hn⟩))

end Spaced

/-- The stack is well formed, and the counts are those of its frames. -/
structure Counted (s : FrameStack) (counts : List Nat) : Prop where
  wellFormed : s.WellFormed
  spaced : Spaced s.frames counts s.top

/-- The counts are right after one more operation. -/
theorem Counted.perform (h : Counted s counts) (hwraps : op.DoesNotWrap s) :
    Counted (s.perform op) (op.count s counts) := by
  refine ⟨h.wellFormed.perform hwraps, ?_⟩
  cases op with
  | enter =>
    show Spaced s.enter.2.frames _ s.enter.2.top
    cases hf : s.frames[s.depth]? with
    | some f =>
      have hlt : s.depth < s.frames.length := (List.getElem?_eq_some_iff.1 hf).1
      rw [enter_of_some hf, Operation.count, if_pos hlt]
      exact h.spaced
    | none =>
      have hle : s.frames.length ≤ s.depth := List.getElem?_eq_none_iff.1 hf
      rw [enter_of_none hf, Operation.count, if_neg (Nat.not_lt.2 hle)]
      dsimp only
      split
      · next h0 =>
        have hnil : s.frames = [] := List.eq_nil_of_length_eq_zero (by omega)
        have hcounts : counts = [] := List.eq_nil_of_length_eq_zero (by rw [h.spaced.length, hnil]; rfl)
        rw [hnil, hcounts]
        exact (Spaced.nil.concat 0 0).mono (Nat.zero_le _)
      · exact h.spaced.concat 0 0
  | reserve resumeIndex slots =>
    cases hrun : (Operation.reserve resumeIndex slots).run s with
    | error e =>
      have hreserve : s.reserve resumeIndex slots = .error e := hrun
      rw [perform_of_error hrun, Operation.count, hreserve]
      exact h.spaced
    | ok s' =>
      have hreserve : s.reserve resumeIndex slots = .ok s' := hrun
      obtain ⟨k, f, hk, hf, -, hs'⟩ := reserve_eq_ok hreserve
      have hsmall : s.base + slots.toNat < UInt64.size := hwraps
      rw [h.wellFormed.current k f hk hf] at hsmall
      rw [Nat.mod_eq_of_lt hsmall] at hs'
      rw [perform_of_ok hrun, Operation.count, hreserve, hk, hs']
      have := ((h.spaced.take hf).concat resumeIndex slots.toNat).concat 0 0
      simpa [reserved] using this
  | release =>
    cases hcur : s.current with
    | error e =>
      rw [perform_of_error (bind_eq_error.2 (.inl hcur)), Operation.count, hcur]
      exact h.spaced
    | ok current =>
      obtain ⟨k, f⟩ := current
      obtain ⟨hk, hf⟩ := current_eq_ok hcur
      have hrun : Operation.release.run s = _ := release_of_depth hk hf
      rw [perform_of_ok hrun, Operation.count, hcur]
      exact h.spaced.take hf
  | rewind => exact h.spaced
  | save kind slot v =>
    show Spaced (s.perform (.save kind slot v)).frames counts (s.perform (.save kind slot v)).top
    cases hrun : (Operation.save kind slot v).run s with
    | error e =>
      rw [perform_of_error hrun]
      exact h.spaced
    | ok s' =>
      obtain ⟨hv, hlt⟩ := save_eq_ok hrun
      obtain ⟨hframes, -, -, htop, -⟩ := save_shape hv hlt hrun
      rw [perform_of_ok hrun, hframes, htop]
      exact h.spaced
  | restore kind slot =>
    rw [perform_restore]
    exact h.spaced

/-! ## References behind the reserved slots -/

/-- From slot `b` on, there are no references. -/
def NullFrom (s : FrameStack) (b : Nat) : Prop := ∀ i v, b ≤ i → s.refs[i]? = some v → v = .null

/-- Growing adds slots without references. -/
theorem nullFrom_grow (n : Nat) : (s.grow n).NullFrom b ↔ s.NullFrom b := by
  unfold grow
  split
  case isFalse => rfl
  case isTrue =>
    constructor
    · intro h i v hi hv
      have hlt : i < s.refs.size := (Array.getElem?_eq_some_iff.1 hv).1
      exact h i v hi (by rwa [← Array.getElem?_append_left hlt] at hv)
    · intro h i v hi hv
      rcases Nat.lt_or_ge i s.refs.size with hlt | hge
      · exact h i v hi (by rwa [Array.getElem?_append_left hlt] at hv)
      · rw [Array.getElem?_append_right hge, Array.getElem?_replicate] at hv
        split at hv <;> cases hv
        rfl

/-- Reserving leaves behind it what was there. -/
theorem nullFrom_reserve {resumeIndex : UInt32} {slots : UInt64} (hcur : s.current = .ok (k, f))
    (hsmall : f.base + slots.toNat < UInt64.size) (hs : s.reserve resumeIndex slots = .ok s') :
    s'.NullFrom s'.top ↔ s.NullFrom (f.base + slots.toNat) := by
  obtain ⟨hk, hf⟩ := current_eq_ok hcur
  obtain ⟨k', f', hk', hf', -, rfl⟩ := reserve_eq_ok hs
  obtain rfl : k' = k := by omega
  cases hf.symm.trans hf'
  rw [Nat.mod_eq_of_lt hsmall]
  exact nullFrom_grow (f.base + slots.toNat)

/-- Behind all its slots, a stack has no references. -/
theorem nullFrom_of_capacity_le (hsizes : s.refs.size = s.prims.size) (hb : s.capacity ≤ b) :
    s.NullFrom b := by
  intro i v hi hv
  have hlt : i < s.refs.size := (Array.getElem?_eq_some_iff.1 hv).1
  have : s.capacity = s.prims.size := rfl
  omega

/-- Releasing a frame forgets the references from its start on if and only if there are none behind
the reserved slots. -/
theorem nullFrom_release (hcur : s.current = .ok (k, f)) (hbase : f.base ≤ s.top)
    (hs : s.release = .ok s') : s'.NullFrom f.base ↔ s.NullFrom s.top := by
  obtain ⟨hk, hf⟩ := current_eq_ok hcur
  rw [release_of_depth hk hf] at hs
  cases hs
  constructor
  · intro h i v hi hv
    refine h i v (Nat.le_trans hbase hi) ?_
    simp [hv, Nat.not_lt.2 hi]
  · intro h i v hi hv
    simp only [Array.getElem?_mapIdx, Option.map_eq_some_iff] at hv
    obtain ⟨w, hw, rfl⟩ := hv
    split
    · rfl
    · next hout => exact h i w (by omega) hw

/-! ## Operations that cut nothing -/

/-- There are no references behind the slots that the operation reserves. -/
def Operation.CutsNothing (s : FrameStack) : Operation → Prop
  | reserve _ slots => ∀ k f, s.current = .ok (k, f) → s.NullFrom (f.base + slots.toNat)
  | _ => True

/-- Whichever of some operations comes next, it cuts nothing. -/
def CutNothing (s : FrameStack) (ops : List Operation) : Prop :=
  ∀ done op rest, ops = done ++ op :: rest → op.CutsNothing (s.performAll done)

/-- Whenever a frame can be released between some operations, the references from its start on are
forgotten then. -/
def ReleasesForget (s : FrameStack) (ops : List Operation) : Prop :=
  ∀ done rest, ops = done ++ rest → ∀ k f s', (s.performAll done).current = .ok (k, f) →
    (s.performAll done).release = .ok s' → s'.NullFrom f.base

/-- No reference comes to lie behind the reserved slots as long as nothing is cut. -/
theorem Counted.nullFrom_perform (h : Counted s counts) (hnull : s.NullFrom s.top)
    (hwithin : op.StaysWithin s counts) (hwraps : op.DoesNotWrap s) (hcut : op.CutsNothing s) :
    (s.perform op).NullFrom (s.perform op).top := by
  cases hrun : op.run s with
  | error e =>
    rw [perform_of_error hrun]
    exact hnull
  | ok s' =>
    rw [perform_of_ok hrun]
    cases op with
    | enter =>
      cases hrun
      cases hf : s.frames[s.depth]? with
      | some f =>
        rw [enter_of_some hf]
        exact hnull
      | none =>
        rw [enter_of_none hf]
        exact hnull
    | reserve resumeIndex slots =>
      obtain ⟨⟨k, f⟩, hcur, -⟩ := bind_eq_ok.1 hrun
      obtain ⟨hk, hf⟩ := current_eq_ok hcur
      have hsmall : s.base + slots.toNat < UInt64.size := hwraps
      rw [h.wellFormed.current k f hk hf] at hsmall
      exact (nullFrom_reserve hcur hsmall hrun).2 (hcut k f hcur)
    | release =>
      obtain ⟨⟨k, f⟩, hcur, -⟩ := bind_eq_ok.1 hrun
      obtain ⟨hk, hf⟩ := current_eq_ok hcur
      have hbase := h.wellFormed.marks.below f (List.mem_of_getElem? hf)
      have hforgets := (nullFrom_release hcur hbase hrun).2 hnull
      have htop : s'.top = f.base := by
        cases (release_of_depth hk hf).symm.trans hrun
        rfl
      rwa [htop]
    | rewind =>
      cases hrun
      exact hnull
    | save kind slot v =>
      obtain ⟨k, n, hk, hn, hslot⟩ := hwithin
      obtain ⟨f, hf, hbase⟩ := h.wellFormed.exists_current hk
      have hbelow : s.base + slot.toNat < s.top := by
        have := h.spaced.le_top hf hn
        omega
      obtain ⟨hv, hlt⟩ := save_eq_ok hrun
      obtain ⟨-, -, -, htop, -⟩ := save_shape hv hlt hrun
      rw [htop]
      cases (save_of_lt hv hlt).symm.trans hrun
      intro i w hi hw
      refine hnull i w hi ?_
      split at hw
      · rwa [Array.getElem?_setIfInBounds_ne (by omega)] at hw
      · exact hw
    | restore kind slot =>
      obtain ⟨_, -, hsame⟩ := bind_eq_ok.1 hrun
      cases hsame
      exact hnull

theorem Counted.nullFrom_performAll {ops : List Operation} (h : Counted s counts)
    (hnull : s.NullFrom s.top) (hwithin : StayWithin s counts ops) (hwraps : s.NeverWraps ops)
    (hcut : s.CutNothing ops) :
    (s.performAll ops).NullFrom (s.performAll ops).top := by
  induction ops generalizing s counts with
  | nil => exact hnull
  | cons op ops ih =>
    obtain ⟨hop, hops⟩ := hwithin
    obtain ⟨hwrap, hwraps⟩ := hwraps
    refine ih (h.perform hwrap) (h.nullFrom_perform hnull hop hwrap (hcut [] op ops rfl)) hops hwraps ?_
    rintro done op' rest rfl
    exact hcut (op :: done) op' rest rfl

theorem StayWithin.append {ops more : List Operation} (h : StayWithin s counts (ops ++ more)) :
    StayWithin s counts ops := by
  induction ops generalizing s counts with
  | nil => trivial
  | cons op ops ih => exact ⟨h.1, ih h.2⟩

theorem CutNothing.append {ops more : List Operation} (h : s.CutNothing (ops ++ more)) :
    s.CutNothing ops := by
  rintro done op rest rfl
  exact h done op (rest ++ more) (by simp)

theorem IsFresh.counted (h : s.IsFresh) : Counted s [] := by
  refine ⟨h.wellFormed, ?_⟩
  obtain ⟨size, rfl⟩ := h.eq_ofSize
  exact .nil

theorem IsFresh.nullFrom (h : s.IsFresh) (b : Nat) : s.NullFrom b := by
  obtain ⟨size, rfl⟩ := h.eq_ofSize
  intro i v _ hv
  simp only [ofSize, Array.getElem?_replicate] at hv
  split at hv <;> cases hv
  rfl

/-- What is behind the slots just reserved is still there after a release at once: if that leaves no
reference, the frame has cut nothing. -/
theorem cutsNothing_of_release {resumeIndex : UInt32} {slots : UInt64} (hs : s.Sound)
    (hwraps : (Operation.reserve resumeIndex slots).DoesNotWrap s)
    (hforget : ∀ k f s', (s.perform (.reserve resumeIndex slots)).current = .ok (k, f) →
      (s.perform (.reserve resumeIndex slots)).release = .ok s' → s'.NullFrom f.base) :
    (Operation.reserve resumeIndex slots).CutsNothing s := by
  intro k f hcur
  obtain ⟨hk, hf⟩ := current_eq_ok hcur
  have hsmall : s.base + slots.toNat < UInt64.size := hwraps
  rw [hs.current k f hk hf] at hsmall
  by_cases hhold : s.CanHold (f.base + slots.toNat)
  · have hs₁ := reserve_of_depth hk hf resumeIndex slots
    rw [Nat.mod_eq_of_lt hsmall] at hs₁
    replace hs₁ := hs₁.trans (if_pos hhold)
    have hcurrent := current_of_reserved hs.sizes hk hf resumeIndex slots.toNat
    generalize s.reserved k resumeIndex f.base (f.base + slots.toNat) = s₁ at hs₁ hcurrent
    have hrun : (Operation.reserve resumeIndex slots).run s = .ok s₁ := hs₁
    rw [perform_of_ok hrun] at hforget
    have hcur₁ : s₁.current = .ok (k, ⟨resumeIndex, f.base⟩) :=
      current_of_depth hcurrent.ready.depth hcurrent.recorded.mark
    have hs₂ := release_of_depth hcurrent.ready.depth hcurrent.recorded.mark
    have hbase : f.base ≤ s₁.top :=
      Nat.le_trans (Nat.le_add_right _ slots.toNat) hcurrent.ready.above.top
    have hnull := (nullFrom_release hcur₁ hbase hs₂).1 (hforget k _ _ hcur₁ hs₂)
    exact (nullFrom_reserve hcur hsmall hs₁).1 hnull
  · -- There are not even that many slots.
    exact nullFrom_of_capacity_le hs.sizes (Nat.le_of_lt (Classical.not_imp.1 hhold).1)

/-- **What a stack forgets.** On a fresh stack, values are kept only in slots that their frames have
reserved last, and no reserved slots end behind 64 bits. Then a frame that is released leaves no
reference behind, wherever this could happen, if and only if frames never reserve so few slots that a
reference lies behind them. If they never do, a stack without frames holds no reference at all. -/
theorem release_forgets_iff (hs : s.IsFresh) {ops : List Operation} (hwithin : StayWithin s [] ops)
    (hwraps : s.NeverWraps ops) :
    (s.ReleasesForget ops ↔ s.CutNothing ops) ∧
      (s.CutNothing ops → (s.performAll ops).frames = [] → (s.performAll ops).NullFrom 0) := by
  have hbehind {done : List Operation} (hdone : StayWithin s [] done) (hwraps : s.NeverWraps done)
      (hcut : s.CutNothing done) : (s.performAll done).NullFrom (s.performAll done).top :=
    hs.counted.nullFrom_performAll (hs.nullFrom _) hdone hwraps hcut
  have hsound (done : List Operation) : (s.performAll done).Sound :=
    hs.wellFormed.toSound.performAll done
  refine ⟨⟨fun hforget => ?_, fun hcut => ?_⟩, fun hcut hempty => ?_⟩
  · rintro done op rest rfl
    cases op with
    | reserve resumeIndex slots =>
      refine cutsNothing_of_release (hsound done) hwraps.doesNotWrap fun k f s' hcur hs' => ?_
      have hafter : s.performAll (done ++ [.reserve resumeIndex slots]) =
          (s.performAll done).perform (.reserve resumeIndex slots) := performAll_append ..
      rw [← hafter] at hcur hs'
      exact hforget (done ++ [.reserve resumeIndex slots]) rest (by simp) k f s' hcur hs'
    | enter | release | rewind | save | restore => trivial
  · rintro done rest rfl k f s' hcur hs'
    obtain ⟨hk, hf⟩ := current_eq_ok hcur
    have hmarks := (hs.wellFormed.performAll hwraps.append).marks
    have hbase := hmarks.below f (List.mem_of_getElem? hf)
    exact (nullFrom_release hcur hbase hs').2 (hbehind hwithin.append hwraps.append hcut.append)
  · have hnull := hbehind hwithin hwraps hcut
    rwa [(hsound ops).empty hempty] at hnull

/-- A frame keeps a reference in its second slot at one point and reserves one slot at the next. -/
def shrinking : List Operation :=
  [.enter, .reserve 1 2, .save .ref 1 (.str "stale"), .reserve 2 1]

/-- When it is released, the reference stays, though there is no frame any more. -/
theorem release_forgets_shrinking : StayWithin (ofSize 4) [] shrinking ∧
    ¬ (ofSize 4).ReleasesForget shrinking ∧
    ∃ s, ((ofSize 4).performAll shrinking).release = .ok s ∧ s.frames = [] ∧
      s.refs[1]? = some (.str "stale") := by
  have hwithin : StayWithin (ofSize 4) [] shrinking :=
    ⟨trivial, trivial, ⟨0, 2, rfl, rfl, by decide⟩, trivial, trivial⟩
  refine ⟨hwithin, fun hforget => ?_, _, rfl, rfl, rfl⟩
  have hcut := (release_forgets_iff (.inl ⟨4, rfl⟩) hwithin (by decide)).1.1 hforget
  have hnull := hcut [.enter, .reserve 1 2, .save .ref 1 (.str "stale")] (.reserve 2 1) [] rfl 0 _ rfl
  cases hnull 1 (.str "stale") (by decide) rfl

end FrameStack

end Resumable
