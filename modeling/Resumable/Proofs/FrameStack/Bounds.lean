import Resumable.Proofs.FrameStack.Numbering
import Resumable.Proofs.FrameStack.Operations

/-!
# Stacks of unknown origin

A snapshot may come from outside, and the bases of its frames may stand in any order and overlap.
What is checked when it is rebuilt (`StackSnapshot.IsConsistent`) is that they lie within the slots.
That is enough: nothing that is done with the stack afterwards looks at a slot, a frame or an entry
of the table that is not there.

`Operation.access` performs an operation access by access, each of which fails if what it looks at
is not there. On a stack whose slots house its frames it comes to the same as the operation
(`Housed.access_eq`). The numbers that are formed on the way stay close to the number of slots that
there are, so 64 bits hold them.
-/

namespace Resumable

namespace FrameStack

/-! ## Operations, access by access -/

section Buffers

variable {α : Type} {buffer : Array α} {i : Nat}

/-- What a slot of a buffer keeps. -/
def slotAt (buffer : Array α) (i : Nat) : Except AccessFault α :=
  match buffer[i]? with
  | some a => .ok a
  | none => .error (.outside i buffer.size)

/-- Keeps something in a slot of a buffer. -/
def keepAt (buffer : Array α) (i : Nat) (a : α) : Except AccessFault (Array α) :=
  if i < buffer.size then .ok (buffer.setIfInBounds i a) else .error (.outside i buffer.size)

/-- Forgets the references in a range of slots. -/
def forgetBetween (refs : Array Value) (start stop : Nat) : Except AccessFault (Array Value) :=
  if start ≤ stop ∧ stop ≤ refs.size then
    .ok (refs.mapIdx fun i v => if start ≤ i ∧ i < stop then .null else v)
  else .error (.outside (max start stop) refs.size)

/-- Gives a buffer another size. -/
def resized (buffer : Array α) (size : Nat) (blank : α) : Array α :=
  buffer.extract 0 size ++ .replicate (size - buffer.size) blank

theorem slotAt_of_lt (h : i < buffer.size) (blank : α) :
    slotAt buffer i = .ok (buffer[i]?.getD blank) := by
  rw [slotAt, Array.getElem?_eq_getElem h]
  rfl

theorem keepAt_of_lt (h : i < buffer.size) (a : α) :
    keepAt buffer i a = .ok (buffer.setIfInBounds i a) := if_pos h

theorem resized_of_le {size : Nat} (h : buffer.size ≤ size) (blank : α) :
    resized buffer size blank = buffer ++ .replicate (size - buffer.size) blank := by
  rw [resized, Array.extract_eq_self_of_le h]

end Buffers

/-- The index of the current frame. -/
def currentIndex (s : FrameStack) : Except AccessFault Nat :=
  match s.depth with
  | 0 => .error (.refused (.invalidState .noFrameEntered))
  | index + 1 =>
    if s.frames.length < index + 1 then .error (.refused (.invalidState .cursorOutOfRange))
    else .ok index

/-- Makes room for `required` slots in both buffers, which then have one size. -/
def enlarge (s : FrameStack) (required : Nat) : FrameStack :=
  if s.prims.size < required then
    let size := doubled (max s.prims.size 1) required
    { s with prims := resized s.prims size 0, refs := resized s.refs size .null }
  else s

def reserveAccess (s : FrameStack) (resumeIndex : UInt32) (slots : UInt64) :
    Except AccessFault FrameStack := do
  let index ← s.currentIndex
  let frame ← itemAt s.frames index
  let frames ← replaceAt s.frames index { frame with resumeIndex }
  let top := (frame.base + slots.toNat) % UInt64.size
  if ¬ s.CanHold top then throw (.refused (.code (.tooManySlots top)))
  return { s.enlarge top with
    frames := frames.take (index + 1) ++ [⟨0, top⟩]
    base := frame.base
    top }

def releaseAccess (s : FrameStack) : Except AccessFault FrameStack := do
  let index ← s.currentIndex
  let frame ← itemAt s.frames index
  let refs ← forgetBetween s.refs frame.base (min (max s.top frame.base) s.refs.size)
  let frames := s.frames.take index
  let base ← if index = 0 then pure 0 else FrameMark.base <$> itemAt frames (index - 1)
  return { s with frames, depth := index, base, top := frame.base, refs }

def saveAccess (s : FrameStack) (kind : SlotKind) (slot : UInt32) (v : Value) :
    Except AccessFault FrameStack := do
  if v.kind ≠ kind then throw (.refused (.type (.cannotSave v.typeName kind)))
  let index ← (s.slotIndex slot).mapError .refused
  if kind.isReference then
    let refs ← keepAt s.refs index v
    return { s with refs }
  else
    let prims ← keepAt s.prims index v.toSlot
    return { s with prims }

def restoreAccess (s : FrameStack) (kind : SlotKind) (slot : UInt32) :
    Except AccessFault Value := do
  let index ← (s.slotIndex slot).mapError .refused
  if kind.isReference then slotAt s.refs index else .ofSlot kind <$> slotAt s.prims index

/-- The stack after the operation, each access of which has to be to something that is there. -/
def Operation.access : Operation → FrameStack → Except AccessFault FrameStack
  | enter, s => .ok s.enter.2
  | reserve resumeIndex slots, s => s.reserveAccess resumeIndex slots
  | release, s => s.releaseAccess
  | rewind, s => .ok s.rewind
  | save kind slot v, s => s.saveAccess kind slot v
  | restore kind slot, s => do
    let _ ← s.restoreAccess kind slot
    return s

/-! ## Nothing is missing -/

variable {s s' : FrameStack}

theorem currentIndex_of_ok {k : Nat} {f : FrameMark} (h : s.current = .ok (k, f)) :
    s.currentIndex = .ok k := by
  obtain ⟨hdepth, hf⟩ := current_eq_ok h
  have hlt : k < s.frames.length := (List.getElem?_eq_some_iff.1 hf).1
  rw [currentIndex, hdepth]
  exact if_neg (by omega)

theorem currentIndex_of_error {e : RunError} (h : s.current = .error e) :
    s.currentIndex = .error (.refused e) := by
  rw [current] at h
  rw [currentIndex]
  rcases hdepth : s.depth with _ | k
  · rw [hdepth] at h
    cases h
    rfl
  · rw [hdepth] at h
    rcases hframe : s.frames[k]? with _ | f
    · simp only [hframe] at h
      cases h
      exact if_pos (Nat.lt_succ_of_le (List.getElem?_eq_none_iff.1 hframe))
    · simp only [hframe] at h
      cases h

namespace Housed

theorem enlarge_eq (h : Housed s) (required : Nat) : s.enlarge required = s.grow required := by
  unfold enlarge grow capacity
  by_cases hlt : s.prims.size < required
  · have hroom : s.prims.size ≤ doubled (max s.prims.size 1) required :=
      Nat.le_trans (Nat.le_of_lt hlt) (le_doubled (by omega))
    rw [if_pos hlt, if_pos hlt]
    have hrefs : s.refs.size ≤ doubled (max s.prims.size 1) required := by rwa [h.sizes]
    simp only [resized_of_le hroom, resized_of_le hrefs, h.sizes]
  · rw [if_neg hlt, if_neg hlt]

theorem reserveAccess_eq (h : Housed s) (resumeIndex : UInt32) (slots : UInt64) :
    s.reserveAccess resumeIndex slots = (s.reserve resumeIndex slots).mapError .refused := by
  rcases hcurrent : s.current with e | ⟨k, f⟩
  · simp [reserveAccess, currentIndex_of_error hcurrent, FrameStack.reserve, hcurrent, bind,
      Except.bind, Except.mapError]
  · obtain ⟨hdepth, hf⟩ := current_eq_ok hcurrent
    obtain ⟨hlt, -⟩ := List.getElem?_eq_some_iff.1 hf
    have hframes (mark : FrameMark) :
        (s.frames.set k mark).take (k + 1) = s.frames.take k ++ [mark] := by
      rw [List.take_succ_eq_append_getElem (by simpa using hlt),
        List.take_set_of_le (Nat.le_refl k), List.getElem_set_self]
    rw [reserve_of_depth hdepth hf, reserveAccess, currentIndex_of_ok hcurrent]
    simp only [bind, Except.bind, itemAt_of_getElem? hf, replaceAt_of_lt hlt, h.enlarge_eq, hframes,
      List.append_assoc]
    by_cases hhold : s.CanHold ((f.base + slots.toNat) % UInt64.size)
    · simp only [hhold, not_true_eq_false, if_false, if_true]
      rfl
    · simp only [hhold, not_false_eq_true, if_true, if_false]
      rfl

theorem releaseAccess_eq (h : Housed s) : s.releaseAccess = s.release.mapError .refused := by
  rcases hcurrent : s.current with e | ⟨k, f⟩
  · simp [releaseAccess, currentIndex_of_error hcurrent, FrameStack.release, hcurrent, bind,
      Except.bind, Except.mapError]
  · obtain ⟨hdepth, hf⟩ := current_eq_ok hcurrent
    obtain ⟨hlt, -⟩ := List.getElem?_eq_some_iff.1 hf
    have hbase : f.base ≤ s.refs.size := h.sizes ▸ h.bases f (List.mem_of_getElem? hf)
    have htop : s.top ≤ s.refs.size := h.sizes ▸ h.top
    rw [release_of_depth hdepth hf, releaseAccess, currentIndex_of_ok hcurrent]
    -- What lies behind the top is left alone, also if the frame starts there.
    have hstop : min (max s.top f.base) s.refs.size = max s.top f.base := by omega
    have hrefs : forgetBetween s.refs f.base (max s.top f.base) =
        .ok (s.refs.mapIdx fun i v => if f.base ≤ i ∧ i < s.top then .null else v) := by
      rw [forgetBetween, if_pos (by omega)]
      congr 2
      funext i v
      exact if_congr (by omega) rfl rfl
    simp only [bind, Except.bind, itemAt_of_getElem? hf, hstop, hrefs]
    rcases Nat.eq_zero_or_pos k with rfl | hpos
    · rfl
    · have hinner : (s.frames.take k)[k - 1]? = some s.frames[k - 1] := by
        rw [List.getElem?_take_of_lt (by omega), List.getElem?_eq_getElem (by omega)]
      have houter : s.frames[k - 1]? = some s.frames[k - 1] := List.getElem?_eq_getElem (by omega)
      simp only [Nat.ne_of_gt hpos, if_false, itemAt_of_getElem? hinner, houter]
      rfl

theorem saveAccess_eq (h : Housed s) (kind : SlotKind) (slot : UInt32) (v : Value) :
    s.saveAccess kind slot v = (s.save kind slot v).mapError .refused := by
  rw [saveAccess, FrameStack.save, slotIndex]
  by_cases hkind : v.kind = kind
  · simp only [hkind, ne_eq, not_true_eq_false, if_false]
    by_cases hlt : s.base + slot.toNat < s.capacity
    · have hrefs : s.base + slot.toNat < s.refs.size := by rwa [h.sizes]
      have hprims : s.base + slot.toNat < s.prims.size := hlt
      simp only [hlt, if_true, bind, Except.bind, Except.mapError, keepAt_of_lt hrefs,
        keepAt_of_lt hprims]
      split <;> rfl
    · simp [hlt, bind, Except.bind, Except.mapError]
  · simp only [hkind, ne_eq, not_false_eq_true, if_true]
    rfl

theorem restoreAccess_eq (h : Housed s) (kind : SlotKind) (slot : UInt32) :
    s.restoreAccess kind slot = (s.restore kind slot).mapError .refused := by
  rw [restoreAccess, restore, slotIndex]
  by_cases hlt : s.base + slot.toNat < s.capacity
  · have hrefs : s.base + slot.toNat < s.refs.size := by rwa [h.sizes]
    have hprims : s.base + slot.toNat < s.prims.size := hlt
    simp only [hlt, if_true, bind, Except.bind, Except.mapError, slotAt_of_lt hrefs .null,
      slotAt_of_lt hprims 0]
    split <;> rfl
  · simp [hlt, bind, Except.bind, Except.mapError]

theorem access_eq (h : Housed s) (op : Operation) :
    op.access s = (op.run s).mapError .refused := by
  cases op with
  | enter | rewind => rfl
  | reserve resumeIndex slots => exact h.reserveAccess_eq resumeIndex slots
  | release => exact h.releaseAccess_eq
  | save kind slot v => exact h.saveAccess_eq kind slot v
  | restore kind slot =>
    rw [Operation.access, h.restoreAccess_eq, Operation.run]
    rcases s.restore kind slot with e | v <;> rfl

end Housed

/-! ## Numbers that are formed -/

theorem capacity_grow_le (s : FrameStack) (required : Nat) :
    (s.grow required).capacity ≤ max s.capacity (2 * required) := by
  have hle := doubled_le (max s.capacity 1) required
  unfold grow
  split
  · simp only [capacity, Array.size_append, Array.size_replicate] at hle ⊢
    omega
  · exact Nat.le_max_left ..

/-- The current frame starts within the slots, as the others do. -/
theorem Arises.base_le (h : Arises s) : s.base ≤ s.capacity := by
  induction h with
  | new hs =>
    unfold FrameStack.new at hs
    split at hs <;> cases hs
    exact Nat.zero_le _
  | standard => exact Nat.zero_le _
  | rebuilt hs =>
    obtain ⟨-, -, rfl⟩ := StackSnapshot.rebuild_eq_ok hs
    exact Nat.zero_le _
  | @enter s hs ih =>
    cases hf : s.frames[s.depth]? with
    | some f =>
      rw [enter_of_some hf]
      exact hs.housed.bases f (List.mem_of_getElem? hf)
    | none =>
      rw [enter_of_none hf]
      show (if s.depth = 0 then 0 else s.top) ≤ s.capacity
      split
      · exact Nat.zero_le _
      · exact hs.housed.top
  | @reserve s s' entry slots hs hreserve ih =>
    obtain ⟨k, f, hdepth, hf, -, rfl⟩ := reserve_eq_ok hreserve
    exact Nat.le_trans (hs.housed.bases f (List.mem_of_getElem? hf)) (capacity_le_grow _)
  | @release s s' hs hrelease ih =>
    obtain ⟨⟨k, f⟩, hcurrent, -⟩ := bind_eq_ok.1 hrelease
    obtain ⟨hdepth, hf⟩ := current_eq_ok hcurrent
    rw [release_of_depth hdepth hf] at hrelease
    cases hrelease
    show (if k = 0 then 0 else (s.frames[k - 1]?.map FrameMark.base).getD 0) ≤ s.capacity
    split
    · exact Nat.zero_le _
    · cases hg : s.frames[k - 1]? with
      | none => exact Nat.zero_le _
      | some g => exact hs.housed.bases g (List.mem_of_getElem? hg)
  | rewind _ ih => exact Nat.zero_le _
  | @save s s' kind slot v hs hsave ih =>
    obtain ⟨hkind, hslot⟩ := save_eq_ok hsave
    obtain ⟨-, -, hbase, -, hprims, -⟩ := save_shape hkind hslot hsave
    rw [hbase, capacity, hprims]
    exact ih

theorem Arises.performAll (h : Arises s) (ops : List Operation) : Arises (s.performAll ops) := by
  refine performAll_induction (fun s op s' hs hop => ?_) h ops
  cases op with
  | enter =>
    cases hop
    exact hs.enter
  | reserve => exact hs.reserve hop
  | release => exact hs.release hop
  | rewind =>
    cases hop
    exact hs.rewind
  | save => exact hs.save hop
  | restore =>
    obtain ⟨_, -, hsame⟩ := bind_eq_ok.1 hop
    cases hsame
    exact hs

end FrameStack

/-! ## What is checked -/

namespace StackSnapshot

/-- There are slots, as many of either sort, all frames lie within them, and every reference, in a
slot or in the table, is the number of an entry. -/
structure IsConsistent (snapshot : StackSnapshot) : Prop where
  slots : snapshot.prims ≠ []
  sizes : snapshot.refs.length = snapshot.prims.length
  top : snapshot.top ≤ snapshot.prims.length
  bases : ∀ f ∈ snapshot.frames, f.base ≤ snapshot.prims.length
  refs : ∀ index, .ref index ∈ snapshot.refs → index < snapshot.heap.length
  cells : ∀ cell ∈ snapshot.heap, ∀ index, .ref index ∈ cell.values → index < snapshot.heap.length

theorem mem_references_iff {snapshot : StackSnapshot} {index : Nat} :
    index ∈ snapshot.references ↔
      .ref index ∈ snapshot.refs ∨ ∃ cell ∈ snapshot.heap, .ref index ∈ cell.values := by
  have hreference (v : FlatValue) : v.reference? = some index ↔ v = .ref index := by
    cases v <;> simp [FlatValue.reference?]
  simp only [references, List.mem_filterMap, hreference, exists_eq_right, List.mem_append,
    List.mem_flatMap, or_comm]

theorem isConsistent_iff {snapshot : StackSnapshot} :
    snapshot.IsConsistent ↔ snapshot.fault? = none := by
  rw [fault?_eq_none_iff]
  constructor
  · intro h
    refine ⟨List.length_pos_iff.2 h.slots, h.sizes, h.top, h.bases, fun index hindex => ?_⟩
    rcases mem_references_iff.1 hindex with hslot | ⟨cell, hcell, hvalue⟩
    · exact h.refs index hslot
    · exact h.cells cell hcell index hvalue
  · rintro ⟨hslots, hsizes, htop, hbases, hreferences⟩
    exact ⟨List.length_pos_iff.1 hslots, hsizes, htop, hbases,
      fun index hslot => hreferences index (mem_references_iff.2 (.inl hslot)),
      fun cell hcell index hvalue =>
        hreferences index (mem_references_iff.2 (.inr ⟨cell, hcell, hvalue⟩))⟩

theorem exists_rebuild_iff (snapshot : StackSnapshot) (h : Heap) :
    (∃ h' s, snapshot.rebuild h = .ok (h', s)) ↔ snapshot.IsConsistent := by
  rw [isConsistent_iff]
  constructor
  · rintro ⟨h', s, hs⟩
    exact (rebuild_eq_ok hs).1
  · exact fun hfault => ⟨_, _, rebuild_of_fault_none hfault h⟩

end StackSnapshot

namespace FrameStack

/-- **A snapshot of unknown origin is rebuilt just if it is consistent, and is safe to use then.**
Whatever is done with the stack that it is rebuilt as, no operation looks at a slot or a frame that
is not there: access by access, it comes to what it comes to at once. Nor does capturing the stack
again look at an entry of the table that is not there, if no reference dangles. The numbers that are
formed from the base of a frame and a number of slots, and the size to which the buffers grow for
them, are at most twice as much as the slots that are there and 32 bits allow for; as long as that is
not more than a stack can always have, they are there. -/
theorem rebuilt_never_outside (snapshot : StackSnapshot) (h : Heap) :
    ((∃ h' s, snapshot.rebuild h = .ok (h', s)) ↔ snapshot.IsConsistent) ∧
    ∀ h' s, snapshot.rebuild h = .ok (h', s) → ∀ ops : List Operation,
      (∀ op : Operation,
        op.access (s.performAll ops) = (op.run (s.performAll ops)).mapError .refused) ∧
      (∀ g : Heap, (∀ c, g.Reaches (s.performAll ops).refs.toList c → c ∈ g.cells) →
        (s.performAll ops).capture g = .ok ((s.performAll ops).snapshot g)) ∧
      ∀ n : UInt32,
        (s.performAll ops).base + n.toNat < (s.performAll ops).capacity + UInt32.size ∧
        ∀ f ∈ (s.performAll ops).frames,
          f.base + n.toNat < (s.performAll ops).capacity + UInt32.size ∧
          ((s.performAll ops).grow (f.base + n.toNat)).capacity <
            2 * ((s.performAll ops).capacity + UInt32.size) ∧
          ((s.performAll ops).capacity + UInt32.size ≤ safeCapacity →
            (s.performAll ops).CanHold (f.base + n.toNat)) := by
  refine ⟨snapshot.exists_rebuild_iff h, fun h' s hs ops => ?_⟩
  have harises : Arises (s.performAll ops) := (Arises.rebuilt hs).performAll ops
  refine ⟨harises.housed.access_eq, fun g hwithin => capture_eq_snapshot hwithin, fun n => ?_⟩
  have hn := n.toNat_lt_size
  refine ⟨Nat.add_lt_add_of_le_of_lt harises.base_le hn, fun f hf => ?_⟩
  have hbase := harises.housed.bases f hf
  refine ⟨Nat.add_lt_add_of_le_of_lt hbase hn, ?_, fun hroom => canHold_of_le (by omega)⟩
  have hgrow := capacity_grow_le (s.performAll ops) (f.base + n.toNat)
  omega

/-- Frames that overlap and are out of order, with a reference to an array that holds itself. -/
def handmade : StackSnapshot where
  frames := [⟨3, 3⟩, ⟨2, 1⟩, ⟨1, 4⟩]
  top := 2
  prims := [1, 2, 3, 4]
  refs := [.null, .ref 0, .str "kept", .ref 0]
  heap := [.array [.ref 0, .int 7]]

/-- Enters all three frames, leaves the innermost one, and enters the outermost one again. -/
def handling : List Operation :=
  [.enter, .enter, .enter, .restore .long 4294967295, .release, .save .ref 0 (.array 0), .rewind,
    .enter, .reserve 9 1]

theorem rebuilt_never_outside_handmade : ∃ h s, handmade.rebuild ⟨#[], #[]⟩ = .ok (h, s) ∧
    handmade.IsConsistent ∧
    Operation.release.access (s.performAll handling) =
      (Operation.release.run (s.performAll handling)).mapError .refused ∧
    (s.performAll handling).capture h = .ok ((s.performAll handling).snapshot h) ∧
    ∀ n : UInt32, (s.performAll handling).base + n.toNat < 4 + UInt32.size := by
  have hrebuild : handmade.rebuild ⟨#[], #[]⟩ = .ok (⟨#[], #[#[.array 0, .int 7]]⟩,
      { frames := [⟨3, 3⟩, ⟨2, 1⟩, ⟨1, 4⟩], depth := 0, base := 0, top := 2, prims := #[1, 2, 3, 4]
        refs := #[.null, .array 0, .str "kept", .array 0] }) := by
    rfl
  obtain ⟨hconsistent, hsafe⟩ := rebuilt_never_outside handmade ⟨#[], #[]⟩
  obtain ⟨haccess, hcapture, hnumbers⟩ := hsafe _ _ hrebuild handling
  refine ⟨_, _, hrebuild, hconsistent.1 ⟨_, _, hrebuild⟩, haccess .release, hcapture _ ?_,
    fun n => (hnumbers n).1⟩
  exact (Heap.isSound_of_cells (by decide +kernel) (by decide +kernel) (by decide +kernel)).within

end FrameStack

end Resumable
