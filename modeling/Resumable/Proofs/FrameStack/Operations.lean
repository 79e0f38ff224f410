import Resumable.Proofs.FrameStack.Nesting

/-!
# Any operations in any order

A stack keeps four accounts of its frames: the marks, the cursor, the base of the current frame and
the end of the reserved slots. Operations change them one by one, and after a rewinding they drift
apart, since frames further in are still recorded. `Sound` says what holds of them nevertheless,
whatever operations have been carried out, in whatever order and whether or not they succeeded.
`WellFormed` adds that the frames stand in a row, which takes that no operation has reserved slots that
end behind 64 bits (`NeverWraps`, `wrapping_descends`).

The main result (`operations_keep`) adds that the current frame is always there, and that whatever is
done while it is the current one leaves the frames outside it alone, and their slots.
-/

namespace Resumable

namespace FrameStack

/-- An operation on a stack. -/
inductive Operation where
  | enter
  | reserve (resumeIndex : UInt32) (slots : UInt64)
  | release
  | rewind
  | save (kind : SlotKind) (slot : UInt32) (v : Value)
  | restore (kind : SlotKind) (slot : UInt32)

/-- The stack after the operation, if it succeeds. -/
def Operation.run : Operation → FrameStack → Except RunError FrameStack
  | enter, s => .ok s.enter.2
  | reserve resumeIndex slots, s => s.reserve resumeIndex slots
  | release, s => s.release
  | rewind, s => .ok s.rewind
  | save kind slot v, s => s.save kind slot v
  | restore kind slot, s => do
    let _ ← s.restore kind slot
    return s

/-- The stack after an operation. One that fails leaves it as it is. -/
def perform (s : FrameStack) (op : Operation) : FrameStack :=
  match op.run s with
  | .ok s' => s'
  | .error _ => s

/-- The stack after some operations. -/
def performAll (s : FrameStack) (ops : List Operation) : FrameStack := ops.foldl perform s

variable {s s' : FrameStack} {op : Operation} {f : FrameMark} {k n b : Nat}

theorem performAll_append (s : FrameStack) (ops more : List Operation) :
    s.performAll (ops ++ more) = (s.performAll ops).performAll more :=
  List.foldl_append

theorem perform_of_ok (h : op.run s = .ok s') : s.perform op = s' := by
  simp [perform, h]

theorem perform_of_error {e : RunError} (h : op.run s = .error e) : s.perform op = s := by
  simp [perform, h]

/-- Looking at a slot changes nothing. -/
theorem perform_restore (s : FrameStack) (kind : SlotKind) (slot : UInt32) :
    s.perform (.restore kind slot) = s := by
  cases h : s.restore kind slot with
  | error e => exact perform_of_error (bind_eq_error.2 (.inl h))
  | ok v => exact perform_of_ok (bind_eq_ok.2 ⟨v, h, rfl⟩)

/-- What an operation preserves when it succeeds, any operations preserve. -/
theorem performAll_induction {P : FrameStack → Prop}
    (hrun : ∀ (s : FrameStack) (op : Operation) (s' : FrameStack), P s → op.run s = .ok s' → P s')
    (hs : P s) (ops : List Operation) : P (s.performAll ops) := by
  induction ops generalizing s with
  | nil => exact hs
  | cons op ops ih =>
    refine ih ?_
    unfold perform
    split
    · next s' hop => exact hrun s op s' hs hop
    · exact hs

/-- The slots that the operation reserves, if it is one that does, end within 64 bits. -/
def Operation.DoesNotWrap (s : FrameStack) : Operation → Prop
  | reserve _ slots => s.base + slots.toNat < UInt64.size
  | _ => True

/-- So it is with all of some operations, one after the other. -/
def NeverWraps : FrameStack → List Operation → Prop
  | _, [] => True
  | s, op :: ops => op.DoesNotWrap s ∧ NeverWraps (s.perform op) ops

instance : (op : Operation) → Decidable (op.DoesNotWrap s)
  | .reserve _ slots => inferInstanceAs (Decidable (s.base + slots.toNat < UInt64.size))
  | .enter | .release | .rewind | .save .. | .restore .. => inferInstanceAs (Decidable True)

instance decidableNeverWraps : (s : FrameStack) → (ops : List Operation) → Decidable (s.NeverWraps ops)
  | _, [] => inferInstanceAs (Decidable True)
  | s, op :: ops =>
    have := decidableNeverWraps (s.perform op) ops
    inferInstanceAs (Decidable (op.DoesNotWrap s ∧ NeverWraps (s.perform op) ops))

theorem NeverWraps.append {ops more : List Operation} (h : s.NeverWraps (ops ++ more)) :
    s.NeverWraps ops := by
  induction ops generalizing s with
  | nil => trivial
  | cons op ops ih => exact ⟨h.1, ih h.2⟩

/-- It holds of each operation at its turn. -/
theorem NeverWraps.doesNotWrap {done rest : List Operation} (h : s.NeverWraps (done ++ op :: rest)) :
    op.DoesNotWrap (s.performAll done) := by
  induction done generalizing s with
  | nil => exact h.1
  | cons _ _ ih => exact ih h.2

/-! ## What always holds -/

/-- What holds of a stack whatever has been done with it. -/
structure Sound (s : FrameStack) : Prop where
  sizes : s.refs.size = s.prims.size
  first : ∀ f, s.frames[0]? = some f → f.base = 0
  inside : ∀ f ∈ s.frames, f.base ≤ s.capacity
  empty : s.frames = [] → s.top = 0
  full : s.top ≤ s.capacity
  entered : s.depth ≤ s.frames.length
  outside : s.depth = 0 → s.base = 0
  current : ∀ k f, s.depth = k + 1 → s.frames[k]? = some f → s.base = f.base

namespace Sound

theorem ofSize (size : Nat) : Sound (ofSize size) :=
  ⟨by simp [FrameStack.ofSize], nofun, nofun, fun _ => rfl, Nat.zero_le _, Nat.le_refl _,
    fun _ => rfl, nofun⟩

/-- The frame that has been entered last is there. -/
theorem exists_current (h : Sound s) (hk : s.depth = k + 1) :
    ∃ f, s.frames[k]? = some f ∧ s.base = f.base := by
  have hlt : k < s.frames.length := by have := h.entered; omega
  exact ⟨_, List.getElem?_eq_getElem hlt, h.current k _ hk (List.getElem?_eq_getElem hlt)⟩

/-! ### One operation at a time -/

theorem enter (h : Sound s) : Sound s.enter.2 := by
  cases hf : s.frames[s.depth]? with
  | some f =>
    have hlt : s.depth < s.frames.length := (List.getElem?_eq_some_iff.1 hf).1
    rw [enter_of_some hf]
    refine ⟨h.sizes, h.first, h.inside, h.empty, h.full, hlt, nofun, fun k g hk hg => ?_⟩
    cases hk
    cases hf.symm.trans hg
    rfl
  | none =>
    have hlen : s.frames.length = s.depth :=
      Nat.le_antisymm (List.getElem?_eq_none_iff.1 hf) h.entered
    rw [enter_of_none hf]
    refine ⟨h.sizes, fun f hfirst => ?_, fun f hmem => ?_, by simp, h.full, by simp [hlen], nofun,
      fun k g hk hg => ?_⟩
    · -- The first frame starts at 0, wherever slots have been reserved.
      rcases hnil : s.frames with _ | ⟨g, frames⟩
      · have h0 : s.depth = 0 := by rw [← hlen, hnil]; rfl
        rw [hnil, if_pos h0] at hfirst
        cases hfirst
        rfl
      · rw [hnil] at hfirst
        exact h.first f (by rw [hnil]; exact hfirst)
    · rcases List.mem_append.1 hmem with hmem | hmem
      · exact h.inside f hmem
      · rw [List.mem_singleton.1 hmem]
        dsimp only
        split
        · exact Nat.zero_le _
        · exact h.full
    · cases hk
      rw [← hlen, List.getElem?_concat_length] at hg
      cases hg
      rw [hlen]

theorem reserve (h : Sound s) {resumeIndex : UInt32} {slots : UInt64}
    (hs : s.reserve resumeIndex slots = .ok s') : Sound s' := by
  obtain ⟨k, f, hk, hf, -, rfl⟩ := reserve_eq_ok hs
  generalize (f.base + slots.toNat) % UInt64.size = top
  have hlt : k < s.frames.length := (List.getElem?_eq_some_iff.1 hf).1
  have hlen : (s.frames.take k).length = k := by simp; omega
  have hgrow : s.capacity ≤ (s.grow top).capacity := capacity_le_grow top
  have hown : (s.frames.take k ++ [(⟨resumeIndex, f.base⟩ : FrameMark), ⟨0, top⟩])[k]? =
      some ⟨resumeIndex, f.base⟩ := by
    rw [List.getElem?_append_right (by omega), hlen, Nat.sub_self]
    rfl
  refine ⟨grow_sizes _ h.sizes, fun g hg => ?_, fun g hg => ?_, by simp [reserved],
    le_capacity_grow top, ?_, ?_, fun j g hj hg => ?_⟩
  · -- Either the frame itself is the first one, or the first one has not been touched.
    change (s.frames.take k ++ _)[0]? = some g at hg
    rcases Nat.eq_zero_or_pos k with rfl | hpos
    · cases hown.symm.trans hg
      exact h.first f hf
    · rw [List.getElem?_append_left (by omega), List.getElem?_take_of_lt hpos] at hg
      exact h.first g hg
  · change g ∈ s.frames.take k ++ _ at hg
    rcases List.mem_append.1 hg with hg | hg
    · exact Nat.le_trans (h.inside g (List.mem_of_mem_take hg)) hgrow
    · rcases List.mem_cons.1 hg with rfl | hg
      · exact Nat.le_trans (h.inside f (List.mem_of_getElem? hf)) hgrow
      · rw [List.mem_singleton.1 hg]
        exact le_capacity_grow top
  · simp [reserved, hk]
    omega
  · intro h0
    simp [reserved, hk] at h0
  · simp only [reserved, grow_depth, hk, Nat.add_right_cancel_iff] at hj
    subst hj
    cases hown.symm.trans hg
    rfl

theorem release (h : Sound s) (hs : s.release = .ok s') : Sound s' := by
  obtain ⟨⟨k, f⟩, hcur, -⟩ := bind_eq_ok.1 hs
  obtain ⟨hk, hf⟩ := current_eq_ok hcur
  have hlt : k < s.frames.length := (List.getElem?_eq_some_iff.1 hf).1
  rw [release_of_depth hk hf] at hs
  cases hs
  refine ⟨by simpa using h.sizes, fun g hg => ?_,
    fun g hg => h.inside g (List.mem_of_mem_take hg), fun hnil => ?_,
    h.inside f (List.mem_of_getElem? hf), ?_, fun h0 => if_pos h0, fun j g hj hg => ?_⟩
  · rw [List.getElem?_take] at hg
    split at hg
    · exact h.first g hg
    · cases hg
  · have hlen := congrArg List.length hnil
    rw [List.length_take, List.length_nil] at hlen
    obtain rfl : k = 0 := by omega
    exact h.first f hf
  · show k ≤ (s.frames.take k).length
    rw [List.length_take]
    omega
  · dsimp only at hj hg
    subst hj
    rw [List.getElem?_take_of_lt (Nat.lt_succ_self j)] at hg
    simp [hg]

theorem rewind (h : Sound s) : Sound s.rewind :=
  ⟨h.sizes, h.first, h.inside, h.empty, h.full, Nat.zero_le _, fun _ => rfl, nofun⟩

theorem save (h : Sound s) {kind : SlotKind} {slot : UInt32} {v : Value}
    (hs : s.save kind slot v = .ok s') : Sound s' := by
  obtain ⟨hv, hlt⟩ := save_eq_ok hs
  obtain ⟨hframes, hdepth, hbase, htop, hprims, hrefs⟩ := save_shape hv hlt hs
  have hcapacity : s'.capacity = s.capacity := hprims
  exact ⟨by rw [hprims, hrefs, h.sizes], by rw [hframes]; exact h.first,
    by rw [hframes, hcapacity]; exact h.inside, by rw [hframes, htop]; exact h.empty,
    by rw [htop, hcapacity]; exact h.full, by rw [hframes, hdepth]; exact h.entered,
    by rw [hdepth, hbase]; exact h.outside, by rw [hframes, hdepth, hbase]; exact h.current⟩

theorem run (h : Sound s) (hs : op.run s = .ok s') : Sound s' := by
  cases op with
  | enter =>
    cases hs
    exact h.enter
  | reserve => exact h.reserve hs
  | release => exact h.release hs
  | rewind =>
    cases hs
    exact h.rewind
  | save => exact h.save hs
  | restore =>
    obtain ⟨_, -, hsame⟩ := bind_eq_ok.1 hs
    cases hsame
    exact h

theorem performAll (h : Sound s) (ops : List Operation) : Sound (s.performAll ops) :=
  performAll_induction (fun _ _ _ hs hop => hs.run hop) h ops

/-- What is done while a frame is the current one leaves the frames outside it alone. -/
theorem keeps (h : Sound s) (hk : s.depth = k + 1) (hf : s.frames[k]? = some f)
    (op : Operation) : Keeps k f.base s (s.perform op) := by
  have hlt : k < s.frames.length := (List.getElem?_eq_some_iff.1 hf).1
  have hbeyond : Beyond k f.base s := ⟨h.sizes, h.inside f (List.mem_of_getElem? hf), k, f, hk,
    Nat.le_refl k, hf, h.current k f hk hf, Nat.le_refl _⟩
  unfold perform
  split
  case h_2 => exact .refl k f.base s
  case h_1 s' hs =>
    cases op with
    | enter =>
      cases hs
      exact keeps_enter (Nat.le_of_lt hlt)
    | reserve => exact hbeyond.reserve hs
    | release => exact hbeyond.release hs
    | rewind =>
      cases hs
      exact ⟨rfl, fun _ _ => rfl, fun _ _ => rfl, Nat.le_refl _⟩
    | save => exact hbeyond.save hs
    | restore =>
      obtain ⟨_, -, hsame⟩ := bind_eq_ok.1 hs
      cases hsame
      exact .refl k f.base s

theorem slotIndex_ne_cursorOutOfRange (s : FrameStack) (slot : UInt32) :
    s.slotIndex slot ≠ .error (.invalidState .cursorOutOfRange) := by
  unfold slotIndex
  dsimp only
  split <;> simp

/-- The cursor never points behind the frames. -/
theorem run_ne_cursorOutOfRange (h : Sound s) (op : Operation) :
    op.run s ≠ .error (.invalidState .cursorOutOfRange) := by
  have hcur : s.current ≠ .error (.invalidState .cursorOutOfRange) := by
    rcases hk : s.depth with _ | k
    · simp [FrameStack.current, hk]
    · obtain ⟨f, hf, -⟩ := h.exists_current hk
      simp [current_of_depth hk hf]
  intro hop
  cases op with
  | enter | rewind => cases hop
  | reserve =>
    rcases bind_eq_error.1 hop with hop | ⟨⟨k, f⟩, hok, -⟩
    · exact hcur hop
    · obtain ⟨hk, hf⟩ := current_eq_ok hok
      simp only [Operation.run, reserve_of_depth hk hf] at hop
      split at hop <;> cases hop
  | release =>
    rcases bind_eq_error.1 hop with hop | ⟨⟨k, f⟩, -, hop⟩
    · exact hcur hop
    · cases hop
  | save kind slot v =>
    by_cases hv : v.kind = kind
    · simp only [Operation.run, FrameStack.save, hv, ne_eq, not_true_eq_false, if_false] at hop
      rcases bind_eq_error.1 hop with hop | ⟨index, -, hop⟩
      · exact slotIndex_ne_cursorOutOfRange s slot hop
      · cases hop
    · simp [Operation.run, FrameStack.save, hv, bind, Except.bind, throw, throwThe,
        MonadExceptOf.throw] at hop
  | restore kind slot =>
    rcases bind_eq_error.1 hop with hop | ⟨v, -, hop⟩
    · rcases bind_eq_error.1 hop with hop | ⟨index, -, hop⟩
      · exact slotIndex_ne_cursorOutOfRange s slot hop
      · cases hop
    · cases hop

end Sound

/-! ## Marks in a row -/

/-- Each frame starts no earlier than those outside it, and none behind `top`. -/
structure Ascends (frames : List FrameMark) (top : Nat) : Prop where
  ascending : frames.Pairwise (·.base ≤ ·.base)
  below : ∀ f ∈ frames, f.base ≤ top

namespace Ascends

variable {frames : List FrameMark} {top : Nat}

theorem nil : Ascends [] top := ⟨.nil, nofun⟩

theorem mono (h : Ascends frames top) {top' : Nat} (hle : top ≤ top') : Ascends frames top' :=
  ⟨h.ascending, fun f hf => Nat.le_trans (h.below f hf) hle⟩

/-- The frames outside a frame end where it starts. -/
theorem take (h : Ascends frames top) (hf : frames[k]? = some f) :
    Ascends (frames.take k) f.base := by
  refine ⟨h.ascending.sublist (List.take_sublist k frames), fun g hg => ?_⟩
  obtain ⟨i, hi, rfl⟩ := List.mem_take_iff_getElem.1 hg
  obtain ⟨hk, rfl⟩ := List.getElem?_eq_some_iff.1 hf
  exact List.pairwise_iff_getElem.1 h.ascending i k _ hk (by omega)

/-- One more frame starts where the others end. -/
theorem concat (h : Ascends frames b) (resumeIndex : UInt32) :
    Ascends (frames ++ [⟨resumeIndex, b⟩]) b := by
  refine ⟨?_, fun g hg => ?_⟩
  · refine List.pairwise_append.2 ⟨h.ascending, List.pairwise_singleton _ _, fun g hg g' hg' => ?_⟩
    rw [List.mem_singleton.1 hg']
    exact h.below g hg
  · rcases List.mem_append.1 hg with hg | hg
    · exact h.below g hg
    · rw [List.mem_singleton.1 hg]

end Ascends

/-- The stack is sound, and its frames stand in a row. -/
structure WellFormed (s : FrameStack) : Prop extends Sound s where
  marks : Ascends s.frames s.top

namespace WellFormed

theorem ofSize (size : Nat) : WellFormed (ofSize size) := ⟨.ofSize size, .nil⟩

theorem run (h : WellFormed s) (hop : op.DoesNotWrap s) (hs : op.run s = .ok s') :
    WellFormed s' := by
  refine ⟨h.toSound.run hs, ?_⟩
  cases op with
  | enter =>
    cases hs
    cases hf : s.frames[s.depth]? with
    | some f =>
      rw [enter_of_some hf]
      exact h.marks
    | none =>
      rw [enter_of_none hf]
      by_cases h0 : s.depth = 0
      · have hnil : s.frames = [] :=
          List.eq_nil_of_length_eq_zero (Nat.le_zero.1 (h0 ▸ List.getElem?_eq_none_iff.1 hf))
        simp only [h0, hnil, if_true]
        exact (Ascends.nil.concat 0).mono (Nat.zero_le _)
      · simp only [h0, if_false]
        exact h.marks.concat 0
  | reserve resumeIndex slots =>
    obtain ⟨k, f, hk, hf, -, rfl⟩ := reserve_eq_ok hs
    have hsmall : s.base + slots.toNat < UInt64.size := hop
    rw [h.current k f hk hf] at hsmall
    rw [Nat.mod_eq_of_lt hsmall]
    have hown := ((h.marks.take hf).concat resumeIndex).mono (Nat.le_add_right f.base slots.toNat)
    simpa [reserved] using hown.concat 0
  | release =>
    obtain ⟨⟨k, f⟩, hcur, -⟩ := bind_eq_ok.1 hs
    obtain ⟨hk, hf⟩ := current_eq_ok hcur
    cases (release_of_depth hk hf).symm.trans hs
    exact h.marks.take hf
  | rewind =>
    cases hs
    exact h.marks
  | save =>
    obtain ⟨hv, hlt⟩ := save_eq_ok hs
    obtain ⟨hframes, -, -, htop, -⟩ := save_shape hv hlt hs
    rw [hframes, htop]
    exact h.marks
  | restore =>
    obtain ⟨_, -, hsame⟩ := bind_eq_ok.1 hs
    cases hsame
    exact h.marks

theorem perform (h : WellFormed s) (hop : op.DoesNotWrap s) : WellFormed (s.perform op) := by
  unfold FrameStack.perform
  split
  · next s' hs => exact h.run hop hs
  · exact h

theorem performAll {ops : List Operation} (h : WellFormed s) (hops : s.NeverWraps ops) :
    WellFormed (s.performAll ops) := by
  induction ops generalizing s with
  | nil => exact h
  | cons op ops ih =>
    obtain ⟨hop, hops⟩ := hops
    exact ih (h.perform hop) hops

end WellFormed

/-- A stack that nothing has been done with yet. -/
def IsFresh (s : FrameStack) : Prop := (∃ size, FrameStack.new size = .ok s) ∨ s = standard

theorem IsFresh.eq_ofSize (h : IsFresh s) : ∃ size, s = ofSize size := by
  rcases h with ⟨size, hnew⟩ | rfl
  · unfold FrameStack.new at hnew
    split at hnew <;> cases hnew
    exact ⟨size, rfl⟩
  · exact ⟨standardSize, rfl⟩

theorem IsFresh.wellFormed (h : IsFresh s) : WellFormed s := by
  obtain ⟨size, rfl⟩ := h.eq_ofSize
  exact .ofSize size

/-- **Whatever is done with a stack, it stays sound and its frames stay apart.** After any operations on
a fresh stack, successful or not, both buffers have one size, the first frame starts at 0, the reserved
slots are there, and the base is that of the current frame, which is there. No operation finds the
cursor behind the frames, and none changes the frames outside the current one or a slot in front of it.
If no operation has reserved slots that end behind 64 bits, the frames start one after the other and
within the reserved slots. -/
theorem operations_keep (hs : s.IsFresh) (ops : List Operation) :
    (s.performAll ops).Sound ∧ (s.NeverWraps ops → (s.performAll ops).WellFormed) ∧ ∀ op,
      op.run (s.performAll ops) ≠ .error (.invalidState .cursorOutOfRange) ∧
      ∀ k f, (s.performAll ops).depth = k + 1 → (s.performAll ops).frames[k]? = some f →
        Keeps k f.base (s.performAll ops) ((s.performAll ops).perform op) := by
  have hsound := hs.wellFormed.toSound.performAll ops
  exact ⟨hsound, hs.wellFormed.performAll, fun op =>
    ⟨hsound.run_ne_cursorOutOfRange op, fun k f hk hf => hsound.keeps hk hf op⟩⟩

/-- Two frames that have reserved slots, a rewinding, a release without a frame, and both frames
entered again, the inner one with a value kept. -/
def drifting : List Operation :=
  [.enter, .reserve 4 2, .enter, .reserve 1 2, .rewind, .release, .enter, .save .ref 1 (.str "outer"),
    .enter, .save .ref 0 (.str "inner")]

/-- Releasing the inner frame leaves the outer one and both its slots alone. -/
theorem operations_keep_drifting : ((ofSize 4).performAll drifting).WellFormed ∧
    ((ofSize 4).performAll drifting).frames[1]? = some ⟨1, 2⟩ ∧
    (((ofSize 4).performAll drifting).perform .release).frames.take 1 = [⟨4, 0⟩] ∧
    (((ofSize 4).performAll drifting).perform .release).refs[1]? = some (.str "outer") := by
  obtain ⟨-, hwell, hkeep⟩ := operations_keep (s := ofSize 4) (.inl ⟨4, rfl⟩) drifting
  have hkeeps := (hkeep .release).2 1 ⟨1, 2⟩ rfl rfl
  exact ⟨hwell (by decide), rfl, hkeeps.frames, hkeeps.refs 1 (by decide)⟩

/-- A frame that reserves two slots, and one inside it that reserves as many as a number of 64 bits can
say. -/
def wrapping : List Operation := [.enter, .reserve 1 2, .enter, .reserve 1 (2 ^ 64 - 1)]

/-- The slots of the inner frame end at 1: the next frame starts there, in front of it, and once that is
released, the inner frame starts behind the reserved slots. -/
theorem wrapping_descends : FrameStack.new 4 = .ok (ofSize 4) ∧
    ((ofSize 4).performAll (wrapping ++ [.enter])).frames.map FrameMark.base = [0, 2, 1] ∧
    ((ofSize 4).performAll (wrapping ++ [.enter, .release])).frames.map FrameMark.base = [0, 2] ∧
    ((ofSize 4).performAll (wrapping ++ [.enter, .release])).top = 1 := by
  decide +kernel

end FrameStack

end Resumable
