import Resumable.Proofs.FrameStack.Nesting

/-!
# Chains of frames

A coroutine suspends with a chain of frames, each of which has recorded where its method goes on and
has kept values in its slots. `chain_resumes` says that nothing of it is lost: once the cursor is
rewound, the frames are entered again from the outermost one, each gives the resume index that its
method recorded last, and each slot gives back the value that it was given last.

What a method does with its frame is an `Activity`. It may reserve slots several times, keep values
in them, and call other methods that complete, which do the same with frames of their own. The other
side of the theorem is `Activity.record`, which follows a single frame and knows neither buffers nor
bases.

The theorem asks that the frames have room next to each other (`Activity.Fits`, `ChainFits`). Where the
slots of a frame end is a number of 64 bits, and once so many are reserved that it overflows, the next
frame starts in the middle of others (`wrapping_chain_overwrites`).
-/

namespace Resumable

/-- What the method of a frame does with the stack while the frame is the current one. -/
inductive Activity where
  | done
  | reserve (resumeIndex : UInt32) (slots : UInt64) (rest : Activity)
  | save (kind : SlotKind) (slot : UInt32) (v : Value) (rest : Activity)
  /-- A call that completes: the callee enters its frame, is active in it and releases it. -/
  | call (callee rest : Activity)

/-- What there is to know about one frame. -/
structure FrameRecord where
  resumeIndex : UInt32 := 0
  slots : Nat := 0
  /-- The value that a slot was given last, if it was given one of this kind. -/
  saved : SlotKind → UInt32 → Option Value := fun _ _ => none

/-- A slot is given a value. References have slots of their own; the primitives share theirs. -/
def FrameRecord.save (r : FrameRecord) (kind : SlotKind) (slot : UInt32) (v : Value) :
    FrameRecord :=
  { r with saved := fun kind' slot' =>
      if slot' = slot ∧ kind'.isReference = kind.isReference then
        if kind' = kind then some v else none
      else r.saved kind' slot' }

namespace Activity

/-- Carries the activity out. -/
def run : Activity → FrameStack → Except RunError FrameStack
  | done, s => .ok s
  | reserve resumeIndex slots rest, s => do rest.run (← s.reserve resumeIndex slots)
  | save kind slot v rest, s => do rest.run (← s.save kind slot v)
  | call callee rest, s => do rest.run (← (← callee.run s.enter.2).release)

/-- In a frame that starts at `base`, values go to slots that have been reserved and are of the kind
they are said to be, and the slots that are reserved can always be had. -/
def Fits (base : Nat) : (slots : Nat) → Activity → Prop
  | _, done => True
  | _, reserve _ slots rest =>
    base + slots.toNat ≤ FrameStack.safeCapacity ∧ rest.Fits base slots.toNat
  | slots, save kind slot v rest => slot.toNat < slots ∧ v.kind = kind ∧ rest.Fits base slots
  | slots, call callee rest => callee.Fits (base + slots) 0 ∧ rest.Fits base slots

/-- What is known about the frame afterwards. Reserving starts it anew, and calls do not touch it. -/
def record : Activity → FrameRecord → FrameRecord
  | done, r => r
  | reserve resumeIndex slots rest, _ => rest.record { resumeIndex, slots := slots.toNat }
  | save kind slot v rest, r => rest.record (r.save kind slot v)
  | call _ rest, r => rest.record r

end Activity

namespace FrameStack

/-- Methods call each other, outermost first, and none of them returns. -/
def runChain : List Activity → FrameStack → Except RunError FrameStack
  | [], s => .ok s
  | a :: rest, s => do runChain rest (← a.run s.enter.2)

/-- Each activity fits in its frame, which starts where the slots of the one before it end. -/
def ChainFits : (base : Nat) → List Activity → Prop
  | _, [] => True
  | base, a :: rest => a.Fits base 0 ∧ ChainFits (base + (a.record {}).slots) rest

/-- The stack once some more frames have been entered. -/
def reenter : (count : Nat) → FrameStack → FrameStack
  | 0, s => s
  | count + 1, s => (reenter count s).enter.2

variable {s s' : FrameStack} {b base k : Nat} {r : FrameRecord}

/-! ## Frames and their records -/

/-- Frame number `k`, which starts at `base`, is as recorded. -/
structure Recorded (k base : Nat) (r : FrameRecord) (s : FrameStack) : Prop where
  mark : s.frames[k]? = some ⟨r.resumeIndex, base⟩
  room : base + r.slots ≤ s.capacity
  bound : ∀ kind slot v, r.saved kind slot = some v → slot.toNat < r.slots
  holds : ∀ kind slot v, r.saved kind slot = some v → s.valueAt kind (base + slot.toNat) = v

/-- The next frame to be entered is number `k`. It is fresh and starts at `b`, where the slots that are
taken end. -/
structure Ready (k b : Nat) (s : FrameStack) : Prop where
  depth : s.depth = k
  above : Above k b s
  short : s.frames.length ≤ k + 1
  fresh : ∀ f, s.frames[k]? = some f → f = ⟨0, b⟩
  top_eq : s.top = b

/-- The current frame is number `k`, it starts at `base` and is as recorded. -/
structure Current (k base : Nat) (r : FrameRecord) (s : FrameStack) : Prop where
  ready : Ready (k + 1) (base + r.slots) s
  recorded : Recorded k base r s
  base_eq : s.base = base

/-- What inner frames do leaves a record valid. -/
theorem Recorded.keeps (h : Recorded k base r s) (hk : Keeps (k + 1) (base + r.slots) s s') :
    Recorded k base r s' := by
  refine ⟨(hk.getElem? (Nat.lt_succ_self k)).trans h.mark, Nat.le_trans h.room hk.room, h.bound,
    fun kind slot v hv => ?_⟩
  have hslot := h.bound kind slot v hv
  rw [hk.valueAt (by omega)]
  exact h.holds kind slot v hv

theorem Recorded.restore (h : Recorded k base r s) (hs : s.base = base) {kind : SlotKind}
    {slot : UInt32} {v : Value} (hv : r.saved kind slot = some v) :
    s.restore kind slot = .ok v := by
  have hroom := h.room
  have hbound := h.bound kind slot v hv
  rw [restore_of_lt (by omega), hs, h.holds kind slot v hv]

/-- The current frame is at work above its callers. -/
theorem Current.above (h : Current k base r s) (hb : b ≤ base) (h0 : k = 0 → b = 0) :
    Above k b s := by
  have hr := h.ready.above
  have htop := hr.top
  have hroom := hr.room
  have hdepth := h.ready.depth
  refine ⟨hr.sizes, by omega, hr.entered, fun f hf => ?_, by omega, by omega, fun f _ hf => ?_, h0⟩
  · have hlt : k < s.frames.length := (List.getElem?_eq_some_iff.1 h.recorded.mark).1
    rw [List.drop_eq_getElem_cons hlt] at hf
    rcases List.mem_cons.1 hf with rfl | hf
    · rw [(List.getElem?_eq_some_iff.1 h.recorded.mark).2]
      exact hb
    · have := hr.bases f hf
      omega
  · rw [h.ready.depth, Nat.add_sub_cancel, h.recorded.mark] at hf
    cases hf
    exact h.base_eq

/-- So what it does leaves its callers alone. -/
theorem Current.beyond (h : Current k base r s) : Beyond k base s :=
  ⟨h.ready.above.sizes, Nat.le_trans (Nat.le_add_right _ _) h.recorded.room, k, _, h.ready.depth,
    Nat.le_refl k, h.recorded.mark, h.base_eq, Nat.le_refl base⟩

theorem ready_ofSize (size : Nat) : Ready 0 0 (ofSize size) :=
  ⟨rfl, ⟨by simp [ofSize], Nat.le_refl _, Nat.le_refl _, by simp [ofSize], Nat.le_refl _,
    Nat.zero_le _, fun _ h => absurd h (Nat.lt_irrefl _), fun _ => rfl⟩, Nat.zero_le _,
    by simp [ofSize], rfl⟩

/-! ## One operation at a time -/

/-- A frame that is entered for the first time starts behind the slots that are taken, and its method
goes on at its start. -/
theorem Ready.enter (h : Ready k b s) :
    s.enter.1 = 0 ∧ Keeps k b s s.enter.2 ∧ Current k b {} s.enter.2 := by
  have hd := h.depth
  have hroom := h.above.room
  have hkeeps : Keeps k b s s.enter.2 :=
    keeps_enter (Nat.le_trans h.above.outer h.above.entered)
  cases hf : s.frames[s.depth]? with
  | some f =>
    have hlt : s.depth < s.frames.length := (List.getElem?_eq_some_iff.1 hf).1
    have hlen : s.frames.length = k + 1 := by have := h.short; omega
    obtain rfl : f = ⟨0, b⟩ := h.fresh f (by rwa [hd] at hf)
    rw [enter_of_some hf] at hkeeps ⊢
    refine ⟨rfl, hkeeps, ⟨⟨by simp [hd], ⟨h.above.sizes, ?_, ?_, ?_, Nat.le_of_eq h.top_eq.symm,
      hroom, ?_, nofun⟩, by simp [hlen], ?_, h.top_eq⟩, ⟨?_, hroom, nofun, nofun⟩, rfl⟩⟩
    · exact Nat.le_of_eq (by simp [hd])
    · exact Nat.le_of_eq (by simp [hd, hlen])
    · simp [← hlen]
    · exact fun _ hlt => absurd hlt (by simp [hd])
    · simp [← hlen]
    · rw [← hd, hf]
  | none =>
    have hlen : s.frames.length = k := by
      have := List.getElem?_eq_none_iff.1 hf
      have := h.above.entered
      omega
    have hbase : (if s.depth = 0 then 0 else s.top) = b := by
      split
      · next h0 => exact (h.above.bottom (by omega)).symm
      · exact h.top_eq
    rw [enter_of_none hf, hbase] at hkeeps ⊢
    refine ⟨rfl, hkeeps, ⟨⟨by simp [hd], ⟨h.above.sizes, ?_, ?_, ?_, Nat.le_of_eq h.top_eq.symm,
      hroom, ?_, nofun⟩, by simp [hlen], ?_, h.top_eq⟩, ⟨?_, hroom, nofun, nofun⟩, rfl⟩⟩
    · exact Nat.le_of_eq (by simp [hd])
    · exact Nat.le_of_eq (by simp [hd, hlen])
    · simp [← hlen]
    · exact fun _ hlt => absurd hlt (by simp [hd])
    · simp [← hlen]
    · simp [← hlen]

/-- If its slots end within 64 bits, reserving starts the record of the current frame, whatever lies
above it. -/
theorem current_of_reserved {f : FrameMark} (hsizes : s.refs.size = s.prims.size)
    (hdepth : s.depth = k + 1) (hmark : s.frames[k]? = some f) (resumeIndex : UInt32) (slots : Nat) :
    Current k f.base { resumeIndex, slots }
      (s.reserved k resumeIndex f.base (f.base + slots)) := by
  have hlt : k < s.frames.length := (List.getElem?_eq_some_iff.1 hmark).1
  have hlen : (s.frames.take k).length = k := by simp; omega
  have hroom : f.base + slots ≤ (s.grow (f.base + slots)).capacity := le_capacity_grow _
  refine ⟨⟨by simp [reserved, hdepth], ⟨grow_sizes _ hsizes, by simp [reserved, hdepth], ?_, ?_,
    Nat.le_refl _, hroom, ?_, nofun⟩, ?_, ?_, rfl⟩, ⟨?_, hroom, nofun, nofun⟩, rfl⟩
  · simp [reserved, hdepth]
    omega
  · intro g hg
    rw [reserved, List.drop_append, hlen, List.drop_eq_nil_of_le (by omega)] at hg
    simp only [Nat.add_sub_cancel_left, List.drop_succ_cons, List.drop_zero, List.nil_append,
      List.mem_singleton] at hg
    exact Nat.le_of_eq (congrArg FrameMark.base hg).symm
  · exact fun _ hlt => absurd hlt (by simp [reserved, hdepth])
  · simp [reserved]
  · intro g hg
    rw [reserved, List.getElem?_append_right (by omega), hlen] at hg
    simp only [Nat.add_sub_cancel_left, List.getElem?_cons_succ, List.getElem?_cons_zero,
      Option.some.injEq] at hg
    exact hg.symm
  · rw [reserved, List.getElem?_append_right (by omega), hlen]
    simp

theorem current_of_reserve {f : FrameMark} (hsizes : s.refs.size = s.prims.size)
    (hdepth : s.depth = k + 1) (hmark : s.frames[k]? = some f) (resumeIndex : UInt32)
    {slots : UInt64} (hle : f.base + slots.toNat ≤ safeCapacity) :
    ∃ s', s.reserve resumeIndex slots = .ok s' ∧
      Current k f.base { resumeIndex, slots := slots.toNat } s' :=
  ⟨_, reserve_of_le hdepth hmark _ hle, current_of_reserved hsizes hdepth hmark _ _⟩

theorem Current.reserve (h : Current k base r s) (resumeIndex : UInt32) {slots : UInt64}
    (hle : base + slots.toNat ≤ safeCapacity) : ∃ s', s.reserve resumeIndex slots = .ok s' ∧
      Current k base { resumeIndex, slots := slots.toNat } s' :=
  current_of_reserve h.ready.above.sizes h.ready.depth h.recorded.mark resumeIndex hle

/-- Saving writes one slot, and records it. -/
theorem Current.save (h : Current k base r s) {kind : SlotKind} {slot : UInt32} {v : Value}
    (hslot : slot.toNat < r.slots) (hv : v.kind = kind) :
    ∃ s', s.save kind slot v = .ok s' ∧ Current k base (r.save kind slot v) s' := by
  have hr := h.ready
  have hroom := h.recorded.room
  have hlt : s.base + slot.toNat < s.capacity := by rw [h.base_eq]; omega
  obtain ⟨s', hs⟩ : ∃ s', s.save kind slot v = .ok s' := ⟨_, save_of_lt hv hlt⟩
  obtain ⟨hframes, hdepth, hbase, htop, hprims, hrefs⟩ := save_shape hv hlt hs
  have hcap : s'.capacity = s.capacity := hprims
  refine ⟨s', hs, ⟨⟨by rw [hdepth, hr.depth], ⟨by rw [hprims, hrefs, hr.above.sizes],
    by rw [hdepth]; exact hr.above.outer, by rw [hdepth, hframes]; exact hr.above.entered,
    by rw [hframes]; exact hr.above.bases, by rw [htop]; exact hr.above.top,
    by rw [hcap]; exact hr.above.room, by rw [hdepth, hframes, hbase]; exact hr.above.current,
    nofun⟩, by rw [hframes]; exact hr.short, by rw [hframes]; exact hr.fresh,
    by rw [htop, hr.top_eq]; rfl⟩, ⟨by rw [hframes]; exact h.recorded.mark,
    by rw [hcap]; exact hroom, ?_, ?_⟩, by rw [hbase, h.base_eq]⟩⟩
  · intro kind' slot' v' hv'
    simp only [FrameRecord.save] at hv'
    split at hv'
    · next heq => rwa [heq.1]
    · exact h.recorded.bound kind' slot' v' hv'
  · intro kind' slot' v' hv'
    simp only [FrameRecord.save] at hv'
    split at hv'
    · next heq =>
      split at hv'
      · next hkind =>
        cases hv'
        rw [hkind, heq.1, ← h.base_eq, valueAt_save hv hlt hr.above.sizes hs]
      · cases hv'
    · next hne =>
      rw [valueAt_save_of_ne hv hlt _ hs]
      · exact h.recorded.holds kind' slot' v' hv'
      · rw [h.base_eq]
        by_cases hsl : slot' = slot
        · exact .inr fun hr => hne ⟨hsl, hr⟩
        · exact .inl fun heq => hsl (UInt32.toNat.inj (by omega))

/-- Releasing a callee's frame makes its caller's the current one again. -/
theorem Current.release {r' : FrameRecord} (h : Current (k + 1) (base + r.slots) r' s)
    (hr : Recorded k base r s) : ∃ s', s.release = .ok s' ∧ Current k base r s' := by
  have hmark := h.recorded.mark
  have hd : s.depth = k + 1 + 1 := h.ready.depth
  obtain ⟨s', hs⟩ : ∃ s', s.release = .ok s' := ⟨_, release_of_depth hd hmark⟩
  have habove := h.above (Nat.le_refl _) nofun
  have habove' := habove.release (by omega) hs
  have hr' := hr.keeps (h.beyond.release hs)
  refine ⟨s', hs, ⟨⟨?_, habove', ?_, ?_, ?_⟩, hr', ?_⟩⟩ <;>
    rw [release_of_depth hd hmark] at hs <;> cases hs
  · rfl
  · exact Nat.le_succ_of_le (List.length_take_le _ _)
  · intro f hf
    simp at hf
  · rfl
  · simp [hr.mark]

/-! ## Whole activities -/

/-- An activity succeeds, does to its frame what `Activity.record` says, and leaves outer frames
alone. -/
theorem Current.run {a : Activity} (h : Current k base r s) (ha : a.Fits base r.slots) :
    ∃ s', a.run s = .ok s' ∧ Current k base (a.record r) s' ∧ Keeps k base s s' := by
  induction a generalizing k base r s with
  | done => exact ⟨s, rfl, h, Keeps.refl _ _ _⟩
  | reserve resumeIndex slots rest ih =>
    obtain ⟨hle, hrest⟩ := ha
    obtain ⟨s₁, hs₁, h₁⟩ := h.reserve resumeIndex hle
    have hk₁ := h.beyond.reserve hs₁
    obtain ⟨s', hs', h', hk'⟩ := ih h₁ hrest
    exact ⟨s', by simp [Activity.run, hs₁, bind, Except.bind, hs'], h', hk₁.trans hk'⟩
  | save kind slot v rest ih =>
    obtain ⟨hslot, hv, hrest⟩ := ha
    obtain ⟨s₁, hs₁, h₁⟩ := h.save hslot hv
    have hk₁ := h.beyond.save hs₁
    obtain ⟨s', hs', h', hk'⟩ := ih h₁ hrest
    exact ⟨s', by simp [Activity.run, hs₁, bind, Except.bind, hs'], h', hk₁.trans hk'⟩
  | call callee rest ihCallee ihRest =>
    obtain ⟨hcallee, hrest⟩ := ha
    -- The callee owns a frame above this one, so all it does keeps this frame's record valid.
    obtain ⟨-, hk₁, h₁⟩ := h.ready.enter
    obtain ⟨s₂, hs₂, h₂, hk₂⟩ := ihCallee h₁ hcallee
    obtain ⟨s₃, hs₃, h₃⟩ := h₂.release (h.recorded.keeps (hk₁.trans hk₂))
    have hk₃ := h₂.beyond.release hs₃
    obtain ⟨s', hs', h', hk'⟩ := ihRest h₃ hrest
    have hk : Keeps k base s s₃ := ((hk₁.trans hk₂).trans hk₃).mono (by omega) (by omega)
    exact ⟨s', by simp [Activity.run, hs₂, hs₃, bind, Except.bind, hs'], h', hk.trans hk'⟩

/-- A chain of activities succeeds, and every frame of it is recorded. -/
theorem Ready.runChain {chain : List Activity} (h : Ready k b s) (ha : ChainFits b chain) :
    ∃ s', FrameStack.runChain chain s = .ok s' ∧ Keeps k b s s' ∧
      ∀ i (hi : i < chain.length), ∃ base, Recorded (k + i) base (chain[i].record {}) s' := by
  induction chain generalizing k b s with
  | nil => exact ⟨s, rfl, Keeps.refl _ _ _, nofun⟩
  | cons a rest ih =>
    obtain ⟨hfirst, hothers⟩ := ha
    obtain ⟨-, hk₁, h₁⟩ := h.enter
    obtain ⟨s₂, hs₂, h₂, hk₂⟩ := h₁.run hfirst
    obtain ⟨s', hs', hk', hrest⟩ := ih h₂.ready hothers
    refine ⟨s', by simp [FrameStack.runChain, hs₂, bind, Except.bind, hs'],
      (hk₁.trans hk₂).trans (hk'.mono (by omega) (by omega)), fun i hi => ?_⟩
    cases i with
    | zero => exact ⟨b, h₂.recorded.keeps hk'⟩
    | succ i =>
      obtain ⟨base', h'⟩ := hrest i (by simpa using hi)
      exact ⟨base', by simpa [Nat.add_right_comm, Nat.add_assoc] using h'⟩

/-! ## Entering again -/

/-- Entering frames that are there moves the cursor and changes nothing else. -/
theorem reenter_rewind {count : Nat} (h : count ≤ s.frames.length) :
    ∃ base, reenter count s.rewind = { s with depth := count, base } := by
  induction count with
  | zero => exact ⟨0, rfl⟩
  | succ count ih =>
    obtain ⟨base, hr⟩ := ih (by omega)
    have hf : s.frames[count]? = some s.frames[count] := List.getElem?_eq_getElem (by omega)
    refine ⟨s.frames[count].base, ?_⟩
    rw [reenter, hr, enter_of_some hf]

/-- A frame that is entered again gives its resume index and the values that it keeps. -/
theorem Recorded.reenter (h : Recorded k base r s) :
    (FrameStack.reenter k s.rewind).enter.1 = r.resumeIndex ∧
      ∀ kind slot v, r.saved kind slot = some v →
        (FrameStack.reenter k s.rewind).enter.2.restore kind slot = .ok v := by
  have hlt : k < s.frames.length := (List.getElem?_eq_some_iff.1 h.mark).1
  obtain ⟨base', hr⟩ := reenter_rewind (Nat.le_of_lt hlt)
  rw [hr, enter_of_some h.mark]
  refine ⟨rfl, fun kind slot v hv => ?_⟩
  have h' : Recorded k base r { s with depth := k + 1, base } := ⟨h.mark, h.room, h.bound, h.holds⟩
  exact h'.restore rfl hv

/-- **A chain of frames survives a suspension.** On a fresh stack of any size, methods call each
other, reserve, save and call others that complete, and have room for their slots next to each other.
Once the cursor is rewound, the frames are entered again in order, each gives the resume index that was
recorded last in it, and each of its slots gives back the value that it was given last since its frame
was last reserved. -/
theorem chain_resumes {size : Nat} {fresh : FrameStack} (hfresh : FrameStack.new size = .ok fresh)
    (chain : List Activity) (hfit : ChainFits 0 chain) :
    ∃ s, runChain chain fresh = .ok s ∧ ∀ i (hi : i < chain.length),
      (reenter i s.rewind).enter.1 = (chain[i].record {}).resumeIndex ∧
        ∀ kind slot v, (chain[i].record {}).saved kind slot = some v →
          (reenter i s.rewind).enter.2.restore kind slot = .ok v := by
  have hsize : fresh = ofSize size := by
    unfold FrameStack.new at hfresh
    split at hfresh <;> cases hfresh
    rfl
  subst hsize
  obtain ⟨s, hs, -, hall⟩ := (ready_ofSize size).runChain hfit
  refine ⟨s, hs, fun i hi => ?_⟩
  obtain ⟨base, hr⟩ := hall i hi
  rw [Nat.zero_add] at hr
  exact hr.reenter

/-- Two frames on a stack with one slot: the outer one keeps three values across a completed call
and the inner one is recorded at the start of a second point. -/
theorem chain_resumes_two : ∃ s, runChain
      [.reserve 4 2 (.save .int 0 (.int 7) (.call (.reserve 1 3 (.save .int 2 (.int 9) .done))
        (.save .ref 1 (.str "kept") (.save .long 1 (.long 8) .done)))),
      .reserve 1 1 (.save .double 0 (.double 5) (.reserve 2 0 .done))] (ofSize 1) = .ok s ∧
    (reenter 0 s.rewind).enter.1 = 4 ∧
    (reenter 0 s.rewind).enter.2.restore .int 0 = .ok (.int 7) ∧
    (reenter 0 s.rewind).enter.2.restore .ref 1 = .ok (.str "kept") ∧
    (reenter 1 s.rewind).enter.1 = 2 := by
  obtain ⟨s, hs, h⟩ := @chain_resumes 1 _ rfl
    [.reserve 4 2 (.save .int 0 (.int 7) (.call (.reserve 1 3 (.save .int 2 (.int 9) .done))
      (.save .ref 1 (.str "kept") (.save .long 1 (.long 8) .done)))),
    .reserve 1 1 (.save .double 0 (.double 5) (.reserve 2 0 .done))]
    (by simp [ChainFits, Activity.Fits, Activity.record, FrameRecord.save, Value.kind, safeCapacity])
  exact ⟨s, hs, (h 0 (by decide)).1, (h 0 (by decide)).2 .int 0 _ rfl,
    (h 0 (by decide)).2 .ref 1 _ rfl, (h 1 (by decide)).1⟩

/-- Three frames on a stack with four slots, of which the second reserves as many slots as a number of
64 bits can say. Its slots end at 1, where the third frame starts: what that keeps in its first slot is
what the first frame, which has kept 7 in its second one, gets back. -/
theorem wrapping_chain_overwrites : ∃ s, FrameStack.new 4 = .ok (ofSize 4) ∧
    runChain [.reserve 1 2 (.save .int 1 (.int 7) .done), .reserve 1 (2 ^ 64 - 1) .done,
      .reserve 1 1 (.save .int 0 (.int 9) .done)] (ofSize 4) = .ok s ∧
    (Activity.record (.reserve 1 2 (.save .int 1 (.int 7) .done)) {}).saved .int 1 =
      some (.int 7) ∧
    (reenter 0 s.rewind).enter.2.restore .int 1 = .ok (.int 9) := by
  refine ⟨⟨[⟨1, 0⟩, ⟨1, 2⟩, ⟨1, 1⟩, ⟨0, 2⟩], 3, 1, 2, #[0, 9, 0, 0], .replicate 4 .null⟩, rfl, ?_, rfl,
    rfl⟩
  decide +kernel

end FrameStack

end Resumable
