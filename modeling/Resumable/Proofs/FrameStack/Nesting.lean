import Resumable.Proofs.Outcome

/-!
# Frames inside frames

The frames of a coroutine share two flat buffers, and an operation of an inner frame must leave the
outer frames alone. `Above d b s` says that the stack `s` is at work above its `d` outermost frames,
which own the slots below `b`; `Keeps d b s s'` says that those frames and slots are in `s'` what
they are in `s`. Every operation of an inner frame establishes the second, and preserves the first
unless it reserves so many slots that they end near the start of the buffers (`Above.reserve`).
-/

namespace Resumable

/-! ## Primitives in slots -/

namespace Value

/-- A slot gives back the primitive that it keeps. -/
theorem ofSlot_toSlot {v : Value} (h : v.kind ≠ .ref) : ofSlot v.kind v.toSlot = v := by
  cases v with
  | int v =>
    show Value.int v.toInt64.toUInt64.toUInt32.toInt32 = .int v
    congr 1
    apply Int32.toBitVec.inj
    show (v.toBitVec.signExtend 64).setWidth 32 = v.toBitVec
    ext i hi
    rw [BitVec.getElem_setWidth, BitVec.getLsbD_signExtend]
    simp [hi, show i < 64 by omega]
  | long v => rfl
  | float bits =>
    show Value.float bits.toUInt64.toUInt32 = .float bits
    rw [UInt32.toUInt32_toUInt64]
  | double bits => rfl
  | null | str _ | object _ | array _ => exact absurd rfl h

end Value

namespace FrameStack

variable {s s' : FrameStack} {d b k : Nat} {f : FrameMark}

/-! ## What an operation does -/

/-- What stands at an index of the buffer for values of some kind. -/
def valueAt (s : FrameStack) (kind : SlotKind) (index : Nat) : Value :=
  if kind.isReference then s.refs[index]?.getD .null else .ofSlot kind (s.prims[index]?.getD 0)

theorem current_of_depth (hd : s.depth = k + 1) (hf : s.frames[k]? = some f) :
    s.current = .ok (k, f) := by
  simp [current, hd, hf]

theorem current_eq_ok (h : s.current = .ok (k, f)) : s.depth = k + 1 ∧ s.frames[k]? = some f := by
  unfold current at h
  split at h
  · cases h
  next index hd =>
    split at h
    · next frame hf =>
      cases h
      exact ⟨hd, hf⟩
    · cases h

theorem enter_of_some (hf : s.frames[s.depth]? = some f) :
    s.enter = (f.resumeIndex, { s with depth := s.depth + 1, base := f.base }) := by
  simp [enter, hf]

theorem enter_of_none (h : s.frames[s.depth]? = none) :
    s.enter = (0, { s with
      frames := s.frames ++ [⟨0, if s.depth = 0 then 0 else s.top⟩]
      depth := s.depth + 1
      base := if s.depth = 0 then 0 else s.top }) := by
  simp [enter, h]

/-- What the stack is after so many slots have been reserved, up to `top`, for frame number `k`. -/
def reserved (s : FrameStack) (k : Nat) (entry : UInt32) (base top : Nat) : FrameStack :=
  { s.grow top with
    frames := s.frames.take k ++ [⟨entry, base⟩, ⟨0, top⟩]
    base
    top }

theorem reserve_of_depth (hd : s.depth = k + 1) (hf : s.frames[k]? = some f) (entry : UInt32)
    (slots : UInt64) : s.reserve entry slots =
      let top := (f.base + slots.toNat) % UInt64.size
      if s.CanHold top then .ok (s.reserved k entry f.base top)
      else .error (.code (.tooManySlots top)) := by
  by_cases hhold : s.CanHold ((f.base + slots.toNat) % UInt64.size)
  · simp [reserve, reserved, current_of_depth hd hf, hhold, bind, Except.bind, pure, Except.pure]
  · simp [reserve, current_of_depth hd hf, hhold, bind, Except.bind, throw, throwThe,
      MonadExceptOf.throw]

/-- Slots are reserved for the frame that is entered, wherever they end. -/
theorem reserve_eq_ok {entry : UInt32} {slots : UInt64} (h : s.reserve entry slots = .ok s') :
    ∃ k f, s.depth = k + 1 ∧ s.frames[k]? = some f ∧
      s.CanHold ((f.base + slots.toNat) % UInt64.size) ∧
      s' = s.reserved k entry f.base ((f.base + slots.toNat) % UInt64.size) := by
  obtain ⟨⟨k, f⟩, hcurrent, -⟩ := bind_eq_ok.1 h
  obtain ⟨hd, hf⟩ := current_eq_ok hcurrent
  rw [reserve_of_depth hd hf] at h
  dsimp only at h
  split at h
  · cases h
    exact ⟨k, f, hd, hf, ‹_›, rfl⟩
  · cases h

theorem release_of_depth (hd : s.depth = k + 1) (hf : s.frames[k]? = some f) :
    s.release = .ok { s with
      frames := s.frames.take k
      depth := k
      base := if k = 0 then 0 else (s.frames[k - 1]?.map FrameMark.base).getD 0
      top := f.base
      refs := s.refs.mapIdx fun i v => if f.base ≤ i ∧ i < s.top then .null else v } := by
  simp [release, current_of_depth hd hf, bind, Except.bind, pure, Except.pure]

theorem save_of_lt {kind : SlotKind} {slot : UInt32} {v : Value} (hv : v.kind = kind)
    (h : s.base + slot.toNat < s.capacity) :
    s.save kind slot v = .ok (if kind.isReference then
        { s with refs := s.refs.setIfInBounds (s.base + slot.toNat) v }
      else { s with prims := s.prims.setIfInBounds (s.base + slot.toNat) v.toSlot }) := by
  simp [save, hv, slotIndex, h, bind, Except.bind, pure, Except.pure]

theorem save_eq_ok {kind : SlotKind} {slot : UInt32} {v : Value}
    (hs : s.save kind slot v = .ok s') : v.kind = kind ∧ s.base + slot.toNat < s.capacity := by
  by_cases hkind : v.kind = kind
  · refine ⟨hkind, Decidable.byContradiction fun hslot => ?_⟩
    simp [FrameStack.save, hkind, slotIndex, hslot, bind, Except.bind] at hs
  · simp [FrameStack.save, hkind, bind, Except.bind, throw, throwThe, MonadExceptOf.throw] at hs

/-- A slot holds what it was given last. -/
theorem valueAt_save {kind : SlotKind} {slot : UInt32} {v : Value} (hv : v.kind = kind)
    (h : s.base + slot.toNat < s.capacity) (hsizes : s.refs.size = s.prims.size)
    (hs : s.save kind slot v = .ok s') : s'.valueAt kind (s.base + slot.toNat) = v := by
  rw [save_of_lt hv h] at hs
  have hlt : s.base + slot.toNat < s.prims.size := h
  by_cases hr : kind.isReference
  · rw [if_pos hr] at hs
    cases hs
    simp [valueAt, hr, hsizes, hlt]
  · rw [if_neg hr] at hs
    cases hs
    have hk : v.kind ≠ .ref := fun h => hr (by rw [← hv, h]; rfl)
    simp only [valueAt, hr, Bool.false_eq_true, if_false,
      Array.getElem?_setIfInBounds_self_of_lt hlt, Option.getD_some]
    rw [← hv, Value.ofSlot_toSlot hk]

/-- Saving leaves other slots alone, and those of the other buffer. -/
theorem valueAt_save_of_ne {kind kind' : SlotKind} {slot : UInt32} {v : Value} {i : Nat}
    (hv : v.kind = kind) (h : s.base + slot.toNat < s.capacity)
    (hne : i ≠ s.base + slot.toNat ∨ kind'.isReference ≠ kind.isReference)
    (hs : s.save kind slot v = .ok s') : s'.valueAt kind' i = s.valueAt kind' i := by
  rw [save_of_lt hv h] at hs
  by_cases hr : kind.isReference
  · rw [if_pos hr] at hs
    cases hs
    by_cases hr' : kind'.isReference
    · have hi : s.base + slot.toNat ≠ i := by rcases hne with h | h <;> simp_all [Ne.symm]
      simp [valueAt, hr', Array.getElem?_setIfInBounds_ne hi]
    · simp [valueAt, hr']
  · rw [if_neg hr] at hs
    cases hs
    by_cases hr' : kind'.isReference
    · simp [valueAt, hr']
    · have hi : s.base + slot.toNat ≠ i := by rcases hne with h | h <;> simp_all [Ne.symm]
      simp [valueAt, hr', Array.getElem?_setIfInBounds_ne hi]

/-- Saving changes nothing but the buffers, and not their size. -/
theorem save_shape {kind : SlotKind} {slot : UInt32} {v : Value} (hv : v.kind = kind)
    (h : s.base + slot.toNat < s.capacity) (hs : s.save kind slot v = .ok s') :
    s'.frames = s.frames ∧ s'.depth = s.depth ∧ s'.base = s.base ∧ s'.top = s.top ∧
      s'.prims.size = s.prims.size ∧ s'.refs.size = s.refs.size := by
  rw [save_of_lt hv h] at hs
  split at hs <;> cases hs <;> simp

theorem restore_of_lt {kind : SlotKind} {slot : UInt32} (h : s.base + slot.toNat < s.capacity) :
    s.restore kind slot = .ok (s.valueAt kind (s.base + slot.toNat)) := by
  simp [restore, valueAt, slotIndex, h, bind, Except.bind, pure, Except.pure]

/-! ## Growing buffers -/

theorem le_doubled {size required : Nat} (h : 0 < size) : required ≤ doubled size required := by
  fun_induction doubled size required with
  | case1 size _ ih => exact ih (by omega)
  | case2 size hn => omega

/-- Doubling stops before twice the size that is wanted. -/
theorem doubled_le (size required : Nat) : doubled size required ≤ max size (2 * required - 1) := by
  fun_induction doubled size required with
  | case1 size h ih => omega
  | case2 size h => exact Nat.le_max_left ..

/-- As many slots can always be had. -/
def safeCapacity : Nat := 2 ^ 59

theorem canHold_of_le {n : Nat} (h : n ≤ safeCapacity) : s.CanHold n := by
  intro hlt
  have hdoubled := doubled_le (max s.capacity 1) n
  unfold safeCapacity at h
  unfold maxCapacity
  omega

theorem reserve_of_le (hd : s.depth = k + 1) (hf : s.frames[k]? = some f) (entry : UInt32)
    {slots : UInt64} (hle : f.base + slots.toNat ≤ safeCapacity) :
    s.reserve entry slots = .ok (s.reserved k entry f.base (f.base + slots.toNat)) := by
  have hsmall : f.base + slots.toNat < UInt64.size := by
    unfold safeCapacity at hle
    exact Nat.lt_of_le_of_lt hle (by decide)
  rw [reserve_of_depth hd hf, Nat.mod_eq_of_lt hsmall]
  exact if_pos (canHold_of_le hle)

@[simp] theorem grow_frames (n : Nat) : (s.grow n).frames = s.frames := by
  unfold grow
  split <;> rfl

@[simp] theorem grow_depth (n : Nat) : (s.grow n).depth = s.depth := by
  unfold grow
  split <;> rfl

@[simp] theorem grow_base (n : Nat) : (s.grow n).base = s.base := by
  unfold grow
  split <;> rfl

theorem capacity_le_grow (n : Nat) : s.capacity ≤ (s.grow n).capacity := by
  unfold grow
  split
  · simp [capacity]
  · exact Nat.le_refl _

theorem le_capacity_grow (n : Nat) : n ≤ (s.grow n).capacity := by
  unfold grow
  split
  · have : n ≤ doubled (max s.capacity 1) n := le_doubled (by omega)
    simp only [capacity, Array.size_append, Array.size_replicate] at *
    omega
  · next h => exact Nat.le_of_not_lt h

theorem grow_sizes (n : Nat) (h : s.refs.size = s.prims.size) :
    (s.grow n).refs.size = (s.grow n).prims.size := by
  unfold grow
  split
  · simp [h]
  · exact h

theorem grow_prims {i : Nat} (n : Nat) (h : i < s.capacity) :
    (s.grow n).prims[i]? = s.prims[i]? := by
  unfold grow
  split
  · exact Array.getElem?_append_left h
  · rfl

theorem grow_refs {i : Nat} (n : Nat) (h : i < s.refs.size) :
    (s.grow n).refs[i]? = s.refs[i]? := by
  unfold grow
  split
  · exact Array.getElem?_append_left h
  · rfl

/-! ## Inner and outer frames -/

/-- The stack is at work above its `d` outermost frames, which own the slots below `b`. -/
structure Above (d b : Nat) (s : FrameStack) : Prop where
  sizes : s.refs.size = s.prims.size
  outer : d ≤ s.depth
  entered : s.depth ≤ s.frames.length
  bases : ∀ f ∈ s.frames.drop d, b ≤ f.base
  top : b ≤ s.top
  room : b ≤ s.capacity
  current : ∀ f, d < s.depth → s.frames[s.depth - 1]? = some f → s.base = f.base
  bottom : d = 0 → b = 0

/-- The `d` outermost frames and the slots below `b` are what they were. -/
structure Keeps (d b : Nat) (s s' : FrameStack) : Prop where
  frames : s'.frames.take d = s.frames.take d
  prims : ∀ i < b, s'.prims[i]? = s.prims[i]?
  refs : ∀ i < b, s'.refs[i]? = s.refs[i]?
  room : s.capacity ≤ s'.capacity

namespace Keeps

variable {s'' : FrameStack} {d' b' : Nat}

theorem refl (d b : Nat) (s : FrameStack) : Keeps d b s s :=
  ⟨rfl, fun _ _ => rfl, fun _ _ => rfl, Nat.le_refl _⟩

theorem trans (h : Keeps d b s s') (h' : Keeps d b s' s'') : Keeps d b s s'' :=
  ⟨h'.frames.trans h.frames, fun i hi => (h'.prims i hi).trans (h.prims i hi),
    fun i hi => (h'.refs i hi).trans (h.refs i hi), Nat.le_trans h.room h'.room⟩

/-- Whoever leaves more frames alone leaves fewer alone. -/
theorem mono (h : Keeps d b s s') (hd : d' ≤ d) (hb : b' ≤ b) : Keeps d' b' s s' := by
  refine ⟨?_, fun i hi => h.prims i (by omega), fun i hi => h.refs i (by omega), h.room⟩
  have := congrArg (List.take d') h.frames
  simpa [List.take_take, Nat.min_eq_left hd] using this

/-- An outer frame is still there. -/
theorem getElem? (h : Keeps d b s s') (hk : k < d) : s'.frames[k]? = s.frames[k]? := by
  have := congrArg (·[k]?) h.frames
  simpa [List.getElem?_take, hk] using this

theorem valueAt (h : Keeps d b s s') {i : Nat} (hi : i < b) (kind : SlotKind) :
    s'.valueAt kind i = s.valueAt kind i := by
  simp only [FrameStack.valueAt, h.prims i hi, h.refs i hi]

end Keeps

/-! ### Operations of inner frames -/

/-- The current frame is none of the `d` outermost ones, and starts behind the slots below `b`. -/
structure Beyond (d b : Nat) (s : FrameStack) : Prop where
  sizes : s.refs.size = s.prims.size
  room : b ≤ s.capacity
  current : ∃ k f, s.depth = k + 1 ∧ d ≤ k ∧ s.frames[k]? = some f ∧ s.base = f.base ∧ b ≤ f.base

namespace Beyond

theorem le_base (h : Beyond d b s) (hd : s.depth = k + 1) (hf : s.frames[k]? = some f) :
    b ≤ f.base := by
  obtain ⟨k', f', hk', -, hf', -, hb⟩ := h.current
  obtain rfl : k' = k := by omega
  cases hf.symm.trans hf'
  exact hb

/-- Reserving leaves outer frames alone, wherever the slots end. -/
theorem reserve (h : Beyond d b s) {entry : UInt32} {slots : UInt64}
    (hs : s.reserve entry slots = .ok s') : Keeps d b s s' := by
  obtain ⟨k, f, hk, hdk, hf, -, -⟩ := h.current
  obtain ⟨k', f', hk', hf', -, rfl⟩ := reserve_eq_ok hs
  obtain rfl : k' = k := by omega
  cases hf.symm.trans hf'
  have hlt : k' < s.frames.length := (List.getElem?_eq_some_iff.1 hf).1
  have hroom := h.room
  refine ⟨?_, fun i hi => grow_prims _ (by omega), fun i hi => grow_refs _ ?_, capacity_le_grow _⟩
  · show (s.frames.take k' ++ _).take d = _
    rw [List.take_append_of_le_length (by simp; omega), List.take_take, Nat.min_eq_left hdk]
  · rw [h.sizes]
    exact Nat.lt_of_lt_of_le hi hroom

theorem release (h : Beyond d b s) (hs : s.release = .ok s') : Keeps d b s s' := by
  obtain ⟨k, f, hk, hdk, hf, -, hbf⟩ := h.current
  rw [release_of_depth hk hf] at hs
  cases hs
  refine ⟨?_, fun _ _ => rfl, fun i hi => ?_, Nat.le_refl _⟩
  · show (s.frames.take k).take d = _
    rw [List.take_take, Nat.min_eq_left hdk]
  · have hout : ¬ (f.base ≤ i ∧ i < s.top) := by omega
    simp [Array.getElem?_mapIdx, hout]

theorem save (h : Beyond d b s) {kind : SlotKind} {slot : UInt32} {v : Value}
    (hs : s.save kind slot v = .ok s') : Keeps d b s s' := by
  obtain ⟨k, f, hk, hdk, hf, hbase, hbf⟩ := h.current
  obtain ⟨hv, hi⟩ := save_eq_ok hs
  rw [save_of_lt hv hi] at hs
  cases hs
  -- The slot lies above the outer ones, whichever buffer it is in.
  have hslot : ∀ i < b, s.base + slot.toNat ≠ i := by omega
  split
  · exact ⟨rfl, fun _ _ => rfl, fun i hi => Array.getElem?_setIfInBounds_ne (hslot i hi),
      Nat.le_refl _⟩
  · exact ⟨rfl, fun i hi => Array.getElem?_setIfInBounds_ne (hslot i hi), fun _ _ => rfl,
      by simp [capacity]⟩

end Beyond

/-- Entering a frame leaves alone those that there are. -/
theorem keeps_enter (h : d ≤ s.frames.length) : Keeps d b s s.enter.2 := by
  cases hf : s.frames[s.depth]? with
  | some f =>
    rw [enter_of_some hf]
    exact ⟨rfl, fun _ _ => rfl, fun _ _ => rfl, Nat.le_refl _⟩
  | none =>
    rw [enter_of_none hf]
    exact ⟨List.take_append_of_le_length h, fun _ _ => rfl, fun _ _ => rfl, Nat.le_refl _⟩

/-- The current frame of a stack at work above others is one of its own. -/
theorem Above.beyond (h : Above d b s) (hd : d < s.depth) : Beyond d b s := by
  obtain ⟨k, hk⟩ : ∃ k, s.depth = k + 1 := ⟨s.depth - 1, by omega⟩
  have hlt : k < s.frames.length := by have := h.entered; omega
  have hf : s.frames[k]? = some s.frames[k] := List.getElem?_eq_getElem hlt
  refine ⟨h.sizes, h.room, k, s.frames[k], hk, by omega, hf,
    h.current _ hd (by rw [hk]; exact hf), ?_⟩
  apply h.bases
  rw [List.mem_drop_iff_getElem]
  exact ⟨k - d, by omega, by simp [show d + (k - d) = k by omega]⟩

theorem Above.enter (h : Above d b s) : Above d b s.enter.2 := by
  have hout := h.outer
  cases hf : s.frames[s.depth]? with
  | some f =>
    have hlt : s.depth < s.frames.length := (List.getElem?_eq_some_iff.1 hf).1
    rw [enter_of_some hf]
    refine ⟨h.sizes, Nat.le_succ_of_le hout, hlt, h.bases, h.top, h.room, ?_, h.bottom⟩
    intro g _ hg
    have : f = g := by simpa [hf] using hg
    rw [this]
  | none =>
    have hlen : s.frames.length = s.depth :=
      Nat.le_antisymm (List.getElem?_eq_none_iff.1 hf) h.entered
    have hbase : b ≤ if s.depth = 0 then 0 else s.top := by
      split
      · next h0 => exact Nat.le_of_eq (h.bottom (by omega))
      · exact h.top
    rw [enter_of_none hf]
    refine ⟨h.sizes, Nat.le_succ_of_le hout, ?_, ?_, h.top, h.room, ?_, h.bottom⟩
    · simp [hlen]
    · intro f hf
      rw [List.drop_append_of_le_length (by omega)] at hf
      rcases List.mem_append.1 hf with hf | hf
      · exact h.bases f hf
      · rw [List.mem_singleton.1 hf]
        exact hbase
    · intro g _ hg
      simp only [Nat.add_sub_cancel, ← hlen, List.getElem?_concat_length, Option.some.injEq] at hg
      rw [← hg, hlen]

/-- If the slots end within 64 bits, the stack goes on working above the outer frames. -/
theorem Above.reserve (h : Above d b s) (hd : d < s.depth) {entry : UInt32} {slots : UInt64}
    (hsmall : s.base + slots.toNat < UInt64.size) (hs : s.reserve entry slots = .ok s') :
    Above d b s' := by
  obtain ⟨k, f, hk, hdk, hf, hbase, hbf⟩ := (h.beyond hd).current
  obtain ⟨k', f', hk', hf', -, rfl⟩ := reserve_eq_ok hs
  obtain rfl : k' = k := by omega
  cases hf.symm.trans hf'
  have hlt : k' < s.frames.length := (List.getElem?_eq_some_iff.1 hf).1
  rw [hbase] at hsmall
  rw [Nat.mod_eq_of_lt hsmall]
  have hlen : (s.frames.take k').length = k' := by simp; omega
  refine ⟨grow_sizes _ h.sizes, ?_, ?_, ?_, ?_, ?_, ?_, h.bottom⟩
  · simpa [reserved] using h.outer
  · simp [reserved, hk]
    omega
  · intro g hg
    simp only [reserved] at hg
    rw [List.drop_append_of_le_length (by omega)] at hg
    rcases List.mem_append.1 hg with hg | hg
    · refine h.bases g (List.mem_of_mem_take (i := k' - d) ?_)
      rwa [List.drop_take] at hg
    · rcases List.mem_cons.1 hg with rfl | hg
      · exact hbf
      · rw [List.mem_singleton.1 hg]
        exact Nat.le_trans hbf (Nat.le_add_right _ _)
  · exact Nat.le_trans hbf (Nat.le_add_right _ _)
  · exact Nat.le_trans h.room (capacity_le_grow _)
  · intro g _ hg
    simp only [reserved, grow_depth, hk, Nat.add_sub_cancel] at hg
    rw [List.getElem?_append_right (by omega)] at hg
    simp only [hlen, Nat.sub_self, List.getElem?_cons_zero, Option.some.injEq] at hg
    rw [← hg]
    rfl

theorem Above.release (h : Above d b s) (hd : d < s.depth) (hs : s.release = .ok s') :
    Above d b s' := by
  obtain ⟨k, f, hk, hdk, hf, -, hbf⟩ := (h.beyond hd).current
  have hlt : k < s.frames.length := (List.getElem?_eq_some_iff.1 hf).1
  rw [release_of_depth hk hf] at hs
  cases hs
  refine ⟨by simpa using h.sizes, hdk, ?_, ?_, hbf, h.room, ?_, h.bottom⟩
  · simp
    omega
  · intro g hg
    refine h.bases g (List.mem_of_mem_take (i := k - d) ?_)
    rwa [List.drop_take] at hg
  · intro g hdk' hg
    have hpos : k ≠ 0 := by
      have : d < k := hdk'
      omega
    have hg' : s.frames[k - 1]? = some g := by
      simpa [List.getElem?_take, show k - 1 < k by omega] using hg
    simp [hpos, hg']

theorem Above.save (h : Above d b s) {kind : SlotKind} {slot : UInt32} {v : Value}
    (hs : s.save kind slot v = .ok s') : Above d b s' := by
  obtain ⟨hv, hlt⟩ := save_eq_ok hs
  obtain ⟨hframes, hdepth, hbase, htop, hprims, hrefs⟩ := save_shape hv hlt hs
  have hcapacity : s'.capacity = s.capacity := hprims
  refine ⟨by rw [hprims, hrefs, h.sizes], ?_, ?_, ?_, ?_, ?_, ?_, h.bottom⟩
  · rw [hdepth]
    exact h.outer
  · rw [hdepth, hframes]
    exact h.entered
  · rw [hframes]
    exact h.bases
  · rw [htop]
    exact h.top
  · rw [hcapacity]
    exact h.room
  · rw [hdepth, hframes, hbase]
    exact h.current

/-- The second stack comes from the first by operations further in than the `d` outermost frames.
None of them reserves slots that end behind 64 bits. -/
inductive Inside (d : Nat) : FrameStack → FrameStack → Prop where
  | refl (s : FrameStack) : Inside d s s
  | enter {s t : FrameStack} (h : Inside d s t) : Inside d s t.enter.2
  | reserve {s t u : FrameStack} {entry : UInt32} {slots : UInt64} (h : Inside d s t)
    (hd : d < t.depth) (hsmall : t.base + slots.toNat < UInt64.size)
    (ht : t.reserve entry slots = .ok u) : Inside d s u
  | save {s t u : FrameStack} {kind : SlotKind} {slot : UInt32} {v : Value} (h : Inside d s t)
    (hd : d < t.depth) (ht : t.save kind slot v = .ok u) : Inside d s u
  | release {s t u : FrameStack} (h : Inside d s t) (hd : d < t.depth) (ht : t.release = .ok u) :
    Inside d s u

/-- What happens further in leaves the outer frames and their slots alone. -/
theorem Inside.keeps (h : Inside d s s') (habove : Above d b s) : Above d b s' ∧ Keeps d b s s' := by
  induction h with
  | refl => exact ⟨habove, .refl d b _⟩
  | enter _ ih =>
    obtain ⟨hin, hkeeps⟩ := ih
    exact ⟨hin.enter, hkeeps.trans (keeps_enter (Nat.le_trans hin.outer hin.entered))⟩
  | reserve _ hd hsmall ht ih =>
    obtain ⟨hin, hkeeps⟩ := ih
    exact ⟨hin.reserve hd hsmall ht, hkeeps.trans ((hin.beyond hd).reserve ht)⟩
  | save _ hd ht ih =>
    obtain ⟨hin, hkeeps⟩ := ih
    exact ⟨hin.save ht, hkeeps.trans ((hin.beyond hd).save ht)⟩
  | release _ hd ht ih =>
    obtain ⟨hin, hkeeps⟩ := ih
    exact ⟨hin.release hd ht, hkeeps.trans ((hin.beyond hd).release ht)⟩

end FrameStack

end Resumable
