import Mathlib.Data.List.Nodup
import Resumable.Proofs.FrameStack.Nesting
import Resumable.Proofs.Value.Adopting

/-!
# Snapshots are copies

A snapshot of the frames and slots of a coroutine can always be rebuilt, and what is rebuilt is a
copy: the frames and primitives are the same, and the graph of objects and arrays that hangs on the
reference slots has been carried over to new identities, cell by cell, with everything that was
shared and every cycle (`rebuild_snapshot`). Numbers in the snapshot come from a walk, and a walk
cannot tell a graph from its copy. So the copy has the same snapshot.
-/

namespace Resumable

open List (Forall₂)

/-! ## What can be rebuilt -/

namespace StackSnapshot

variable {snapshot : StackSnapshot}

/-- A snapshot has no fault if there are slots, as many of either sort, all frames lie within them,
and every reference has a cell. -/
theorem fault?_eq_none_iff : snapshot.fault? = none ↔
    0 < snapshot.prims.length ∧ snapshot.refs.length = snapshot.prims.length ∧
      snapshot.top ≤ snapshot.prims.length ∧
      (∀ f ∈ snapshot.frames, f.base ≤ snapshot.prims.length) ∧
      ∀ index ∈ snapshot.references, index < snapshot.heap.length := by
  unfold fault?
  dsimp only
  split
  · next hbuffers =>
    simp only [reduceCtorEq, false_iff]
    rintro ⟨hpos, hsizes, -⟩
    rcases hbuffers with hzero | hne
    · omega
    · exact hne hsizes
  · next hbuffers =>
    obtain ⟨hne, hsizes⟩ := not_or.1 hbuffers
    have hsizes : snapshot.refs.length = snapshot.prims.length := Decidable.not_not.1 hsizes
    split
    · next htop =>
      simp only [reduceCtorEq, false_iff]
      exact fun hall => Nat.not_le_of_lt htop hall.2.2.1
    · next htop =>
      split
      · next f hf =>
        simp only [reduceCtorEq, false_iff]
        intro hall
        have hlt : snapshot.prims.length < f.base := by simpa using List.find?_some hf
        exact Nat.not_le_of_lt hlt (hall.2.2.2.1 f (List.mem_of_find?_eq_some hf))
      · next hbases =>
        simp only [Option.map_eq_none_iff, List.find?_eq_none, decide_eq_true_eq, Nat.not_lt,
          Nat.not_le] at hbases ⊢
        exact ⟨fun hrefs => ⟨Nat.pos_of_ne_zero hne, hsizes, Nat.le_of_not_lt htop, hbases, hrefs⟩,
          fun hall => hall.2.2.2.2⟩

theorem rebuild_eq_ok {h h' : Heap} {s : FrameStack} (hs : snapshot.rebuild h = .ok (h', s)) :
    snapshot.fault? = none ∧ h' = (h.adopt snapshot.heap).1 ∧
      s = { frames := snapshot.frames, depth := 0, base := 0, top := snapshot.top
            prims := snapshot.prims.toArray
            refs := (snapshot.refs.map (·.toValue (h.adopt snapshot.heap).2)).toArray } := by
  unfold rebuild at hs
  split at hs
  · cases hs
  · next hfault =>
    cases hs
    exact ⟨hfault, rfl, rfl⟩

theorem rebuild_of_fault_none (hfault : snapshot.fault? = none) (h : Heap) :
    snapshot.rebuild h = .ok ((h.adopt snapshot.heap).1,
      { frames := snapshot.frames, depth := 0, base := 0, top := snapshot.top
        prims := snapshot.prims.toArray
        refs := (snapshot.refs.map (·.toValue (h.adopt snapshot.heap).2)).toArray }) := by
  unfold rebuild
  rw [hfault]

end StackSnapshot

/-! ## Stacks that come about -/

namespace FrameStack

variable {s s' : FrameStack}

/-- The stacks of coroutines: new ones, rebuilt ones, and whatever the operations make of them. -/
inductive Arises : FrameStack → Prop where
  | new {size : Nat} {s : FrameStack} : FrameStack.new size = .ok s → Arises s
  | standard : Arises .standard
  | rebuilt {snapshot : StackSnapshot} {h h' : Heap} {s : FrameStack} :
      snapshot.rebuild h = .ok (h', s) → Arises s
  | enter {s : FrameStack} : Arises s → Arises s.enter.2
  | reserve {s s' : FrameStack} {entry : UInt32} {slots : UInt64} : Arises s →
      s.reserve entry slots = .ok s' → Arises s'
  | release {s s' : FrameStack} : Arises s → s.release = .ok s' → Arises s'
  | rewind {s : FrameStack} : Arises s → Arises s.rewind
  | save {s s' : FrameStack} {kind : SlotKind} {slot : UInt32} {v : Value} : Arises s →
      s.save kind slot v = .ok s' → Arises s'

/-- There are slots, as many of either sort, and all frames lie within them. -/
structure Housed (s : FrameStack) : Prop where
  slots : 0 < s.capacity
  sizes : s.refs.size = s.prims.size
  top : s.top ≤ s.capacity
  bases : ∀ f ∈ s.frames, f.base ≤ s.capacity

theorem housed_ofSize {size : Nat} (h : 0 < size) : Housed (ofSize size) :=
  ⟨by simpa [capacity, ofSize] using h, by simp [ofSize], Nat.zero_le _, by simp [ofSize]⟩

theorem housed_of_rebuild {snapshot : StackSnapshot} {h h' : Heap}
    (hs : snapshot.rebuild h = .ok (h', s)) : Housed s := by
  obtain ⟨hfault, -, rfl⟩ := StackSnapshot.rebuild_eq_ok hs
  obtain ⟨hslots, hsizes, htop, hbases, -⟩ := StackSnapshot.fault?_eq_none_iff.1 hfault
  exact ⟨hslots, by simpa using hsizes, htop, hbases⟩

theorem Housed.enter (h : Housed s) : Housed s.enter.2 := by
  cases hf : s.frames[s.depth]? with
  | some f =>
    rw [enter_of_some hf]
    exact ⟨h.slots, h.sizes, h.top, h.bases⟩
  | none =>
    rw [enter_of_none hf]
    refine ⟨h.slots, h.sizes, h.top, fun f hmem => ?_⟩
    rcases List.mem_append.1 hmem with hmem | hmem
    · exact h.bases f hmem
    · rw [List.mem_singleton.1 hmem]
      show (if s.depth = 0 then 0 else s.top) ≤ s.capacity
      split
      · exact Nat.zero_le _
      · exact h.top

theorem Housed.reserve {entry : UInt32} {slots : UInt64} (h : Housed s)
    (hs : s.reserve entry slots = .ok s') : Housed s' := by
  obtain ⟨k, f, hdepth, hf, -, rfl⟩ := reserve_eq_ok hs
  generalize (f.base + slots.toNat) % UInt64.size = top
  have hroom : s.capacity ≤ (s.grow top).capacity := capacity_le_grow _
  have htop : top ≤ (s.grow top).capacity := le_capacity_grow _
  refine ⟨Nat.lt_of_lt_of_le h.slots hroom, grow_sizes _ h.sizes, htop, fun f' hmem => ?_⟩
  rcases List.mem_append.1 hmem with hmem | hmem
  · exact Nat.le_trans (h.bases f' (List.mem_of_mem_take hmem)) hroom
  · rcases List.mem_cons.1 hmem with rfl | hmem
    · exact Nat.le_trans (h.bases f (List.mem_of_getElem? hf)) hroom
    · rw [List.mem_singleton.1 hmem]
      exact htop

theorem Housed.release (h : Housed s) (hs : s.release = .ok s') : Housed s' := by
  obtain ⟨⟨k, f⟩, hcurrent, -⟩ := bind_eq_ok.1 hs
  obtain ⟨hdepth, hf⟩ := current_eq_ok hcurrent
  rw [release_of_depth hdepth hf] at hs
  cases hs
  exact ⟨h.slots, by simpa using h.sizes, h.bases f (List.mem_of_getElem? hf),
    fun f' hmem => h.bases f' (List.mem_of_mem_take hmem)⟩

theorem Housed.save {kind : SlotKind} {slot : UInt32} {v : Value} (h : Housed s)
    (hs : s.save kind slot v = .ok s') : Housed s' := by
  obtain ⟨hkind, hslot⟩ := save_eq_ok hs
  obtain ⟨hframes, -, -, htop, hprims, hrefs⟩ := save_shape hkind hslot hs
  have hcapacity : s'.capacity = s.capacity := hprims
  refine ⟨hcapacity ▸ h.slots, ?_, ?_, ?_⟩
  · rw [hrefs, hprims, h.sizes]
  · rw [htop, hcapacity]
    exact h.top
  · rw [hframes, hcapacity]
    exact h.bases

theorem Arises.housed (h : Arises s) : Housed s := by
  induction h with
  | new hs =>
    unfold FrameStack.new at hs
    split at hs
    · cases hs
    · next hsize =>
      cases hs
      exact housed_ofSize (Nat.pos_of_ne_zero hsize)
  | standard => exact housed_ofSize (by decide)
  | rebuilt hs => exact housed_of_rebuild hs
  | enter _ ih => exact ih.enter
  | reserve _ hs ih => exact ih.reserve hs
  | release _ hs ih => exact ih.release hs
  | rewind _ ih => exact ⟨ih.slots, ih.sizes, ih.top, ih.bases⟩
  | save _ hs ih => exact ih.save hs

end FrameStack

/-! ## Graphs on reference slots -/

namespace Heap

variable {h : Heap} {roots : List Value}

/-- In what can be reached from the roots, no reference dangles, and fields are sorted. -/
structure IsSound (h : Heap) (roots : List Value) : Prop where
  within : ∀ c, h.Reaches roots c → c ∈ h.cells
  sorted : ∀ c o, h.Reaches roots c → h.content? c = some (.object o) → Object.IsSorted o.fields

/-- Nothing dangles anywhere in the heap, and all fields are sorted. -/
theorem isSound_of_cells (hroots : ∀ v ∈ roots, ∀ c ∈ v.cell?, c ∈ h.cells)
    (hcells : ∀ c ∈ h.cells, ∀ v ∈ h.contents c, ∀ d ∈ v.cell?, d ∈ h.cells)
    (hsorted : ∀ o ∈ h.objects, Object.IsSorted o.fields) : h.IsSound roots := by
  refine ⟨fun c hreach => ?_, fun c o _ ho => ?_⟩
  · induction hreach with
    | root hv hc => exact hroots _ hv _ hc
    | step _ hv hd ih => exact hcells _ ih _ hv _ hd
  · cases c with
    | object id =>
      obtain ⟨o', ho', heq⟩ := Option.map_eq_some_iff.1 ho
      cases heq
      exact hsorted o (Array.mem_of_getElem? ho')
    | array id =>
      obtain ⟨items, -, heq⟩ := Option.map_eq_some_iff.1 ho
      cases heq

end Heap

/-! ## Numbers for references -/

namespace FlatValue

variable {order made : List Cell} {cells : Array Value} {copy : Cell → Cell} {v : Value}

theorem reference?_ofValue (order : List Cell) (v : Value) :
    (ofValue order v).reference? = v.cell?.map order.idxOf := by
  cases v <;> rfl

/-- A value without a reference is kept as it is; a reference is the place of its cell. -/
theorem toValue_ofValue (hcells : cells.toList = order.map fun c => (copy c).toValue)
    (hv : ∀ c ∈ v.cell?, c ∈ order) : (ofValue order v).toValue cells = v.rename copy := by
  have hlookup {c : Cell} (hc : c ∈ order) :
      (cells[order.idxOf c]?).getD .null = (copy c).toValue := by
    have hlt : order.idxOf c < order.length := List.idxOf_lt_length_of_mem hc
    rw [← Array.getElem?_toList, hcells, List.getElem?_map, List.getElem?_eq_getElem hlt,
      List.getElem_idxOf]
    rfl
  cases v with
  | object id => exact hlookup (hv _ rfl)
  | array id => exact hlookup (hv _ rfl)
  | null | int _ | long _ | float _ | double _ | str _ => rfl

theorem idxOf_map {c : Cell} (hinjective : ∀ c ∈ order, ∀ d ∈ order, copy c = copy d → c = d)
    (hc : c ∈ order) : (order.map copy).idxOf (copy c) = order.idxOf c := by
  induction order with
  | nil => cases hc
  | cons d order ih =>
    rw [List.map_cons, List.idxOf_cons, List.idxOf_cons]
    by_cases heq : d = c
    · simp [heq]
    · have hcopy : copy d ≠ copy c := fun h => heq (hinjective d List.mem_cons_self c hc h)
      have hrest : (order.map copy).idxOf (copy c) = order.idxOf c := by
        refine ih (fun c hc d hd => ?_) (List.mem_of_ne_of_mem (Ne.symm heq) hc)
        exact hinjective c (List.mem_cons_of_mem _ hc) d (List.mem_cons_of_mem _ hd)
      rw [beq_false_of_ne hcopy, beq_false_of_ne heq, hrest]

/-- Among the copies, in the same order, the copy of a reference has the same number. -/
theorem ofValue_rename (hinjective : ∀ c ∈ order, ∀ d ∈ order, copy c = copy d → c = d)
    (hv : ∀ c ∈ v.cell?, c ∈ order) :
    ofValue (order.map copy) (v.rename copy) = ofValue order v := by
  have hnumber {c : Cell} (hc : c ∈ order) :
      ofValue (order.map copy) (copy c).toValue = .ref (order.idxOf c) := by
    rw [← idxOf_map hinjective hc]
    cases copy c <;> rfl
  cases v with
  | object id => exact hnumber (hv _ rfl)
  | array id => exact hnumber (hv _ rfl)
  | null | int _ | long _ | float _ | double _ | str _ => rfl

end FlatValue

namespace FlatCell

variable {h g : Heap} {order : List Cell} {cells : Array Value} {copy : Cell → Cell} {c : Cell}
  {k : Content}

/-- The entry for an object or array. -/
def ofContent (order : List Cell) : Content → FlatCell
  | .object o => .object o.type (o.fields.map fun f => (f.1, .ofValue order f.2))
  | .array items => .array (items.toList.map (.ofValue order))

theorem ofCell_of_content (hk : h.content? c = some k) : ofCell h order c = ofContent order k := by
  cases c with
  | object id =>
    obtain ⟨o, ho, rfl⟩ := Option.map_eq_some_iff.1 hk
    simp [ofCell, ofContent, Heap.object, ho]
  | array id =>
    obtain ⟨items, hitems, rfl⟩ := Option.map_eq_some_iff.1 hk
    simp [ofCell, ofContent, Heap.items, hitems]

theorem values_ofContent (order : List Cell) (k : Content) :
    (ofContent order k).values = k.values.map (.ofValue order) := by
  cases k with
  | object o => simp [ofContent, values, Content.values]
  | array items => rfl

/-- What the entry says, with numbers looked up among the copies, is the copy. -/
theorem content_ofContent (hcells : cells.toList = order.map fun c => (copy c).toValue)
    (hvalues : ∀ v ∈ k.values, ∀ d ∈ v.cell?, d ∈ order) :
    (ofContent order k).content cells = k.rename copy := by
  cases k with
  | object o =>
    simp only [ofContent, content, Content.rename, List.map_map]
    congr 2
    refine List.map_congr_left fun f hf => ?_
    have hv := hvalues f.2 (List.mem_map_of_mem hf)
    simp only [Function.comp_apply, FlatValue.toValue_ofValue hcells hv]
  | array items =>
    simp only [ofContent, content, Content.rename, List.map_map]
    congr 1
    apply Array.ext'
    rw [Array.toList_map]
    refine List.map_congr_left fun v hv => ?_
    simp only [Function.comp_apply, FlatValue.toValue_ofValue hcells (hvalues v hv)]

/-- The copy has the same entry, with numbers among the copies. -/
theorem ofContent_rename (hinjective : ∀ c ∈ order, ∀ d ∈ order, copy c = copy d → c = d)
    (hvalues : ∀ v ∈ k.values, ∀ d ∈ v.cell?, d ∈ order) :
    ofContent (order.map copy) (k.rename copy) = ofContent order k := by
  cases k with
  | object o =>
    simp only [ofContent, Content.rename, List.map_map]
    congr 1
    refine List.map_congr_left fun f hf => ?_
    have hv := hvalues f.2 (List.mem_map_of_mem hf)
    simp only [Function.comp_apply, FlatValue.ofValue_rename hinjective hv]
  | array items =>
    simp only [ofContent, Content.rename, Array.toList_map, List.map_map]
    congr 1
    refine List.map_congr_left fun v hv => ?_
    simp only [Function.comp_apply, FlatValue.ofValue_rename hinjective (hvalues v hv)]

end FlatCell

/-- A list of different items is carried over to any list of the same length. -/
theorem exists_map_eq {order made : List Cell} (hnodup : order.Nodup)
    (hlength : made.length = order.length) : ∃ copy : Cell → Cell, order.map copy = made := by
  refine ⟨fun c => (made[order.idxOf c]?).getD c, List.ext_getElem (by simpa using hlength.symm) ?_⟩
  intro i hi hi'
  rw [List.getElem_map, hnodup.idxOf_getElem, List.getElem?_eq_getElem hi']
  rfl

namespace Heap

variable {h : Heap} {roots : List Value} {c : Cell} {k : Content}

namespace IsSound

theorem exists_content (hh : h.IsSound roots) (hc : h.Reaches roots c) :
    ∃ k, h.content? c = some k :=
  Option.isSome_iff_exists.1 (mem_cells_iff.1 (hh.within c hc))

/-- What a listed cell refers to is listed. -/
theorem mem_reachable_of_values (hh : h.IsSound roots) (hc : h.Reaches roots c)
    (hk : h.content? c = some k) : ∀ v ∈ k.values, ∀ d ∈ v.cell?, d ∈ h.reachable roots := by
  intro v hv d hd
  rw [← contents_of_content hk] at hv
  exact (mem_reachable_iff hh.within).2 (hc.step hv hd)

theorem isSorted_ofCell (hh : h.IsSound roots) (hc : h.Reaches roots c) (order : List Cell) :
    (FlatCell.ofCell h order c).IsSorted := by
  obtain ⟨k, hk⟩ := hh.exists_content hc
  rw [FlatCell.ofCell_of_content hk]
  cases k with
  | object o =>
    have hsorted : Object.IsSorted o.fields := hh.sorted c o hc hk
    simpa [FlatCell.IsSorted, FlatCell.ofContent, Object.IsSorted, Function.comp_def]
      using hsorted
  | array items => trivial

/-- A heap that takes in the table of a graph holds a copy of the graph, all of it new. -/
theorem adopt (hh : h.IsSound roots) (g : Heap) :
    let order := h.reachable roots
    let adopted := g.adopt (order.map (FlatCell.ofCell h order))
    ∃ copy : Cell → Cell, h.Copies roots adopted.1 copy ∧
      adopted.2.toList = order.map (fun c => (copy c).toValue) ∧
      (∀ c, h.Reaches roots c → copy c ∉ g.cells) ∧
      ∀ d ∈ g.cells, adopted.1.content? d = g.content? d := by
  intro order adopted
  have hlisted (c : Cell) : c ∈ order ↔ h.Reaches roots c := mem_reachable_iff hh.within
  have hsorted : ∀ entry ∈ order.map (FlatCell.ofCell h order), entry.IsSorted := by
    intro entry hentry
    obtain ⟨c, hc, rfl⟩ := List.mem_map.1 hentry
    exact hh.isSorted_ofCell ((hlisted c).1 hc) order
  obtain ⟨made, hcells, hnodup, hfresh, hfilled, hold⟩ := adopt_spec g hsorted
  have hlength : made.length = order.length := by
    rw [← hfilled.length_eq, List.length_map]
  obtain ⟨copy, rfl⟩ := exists_map_eq (nodup_reachable h roots) hlength
  rw [List.map_map] at hcells
  rw [List.forall₂_map_left_iff, List.forall₂_map_right_iff, List.forall₂_same] at hfilled
  refine ⟨copy, ⟨fun {c k} hc hk => ?_, fun {c d} hc hd => ?_⟩, hcells, fun c hc => ?_, hold⟩
  · rw [hfilled c ((hlisted c).2 hc), FlatCell.ofCell_of_content hk,
      FlatCell.content_ofContent hcells (hh.mem_reachable_of_values hc hk)]
  · exact List.inj_on_of_nodup_map hnodup ((hlisted c).2 hc) ((hlisted d).2 hd)
  · exact hfresh _ (List.mem_map_of_mem ((hlisted c).2 hc))

end IsSound

end Heap

namespace FrameStack

variable {s : FrameStack} {h : Heap}

/-- The stack with its cursor in front of the outermost frame, and references to copies. -/
def copied (s : FrameStack) (copy : Cell → Cell) : FrameStack :=
  { s.rewind with refs := s.refs.map (Value.rename copy) }

/-- No value that is captured refers to a cell that is not. -/
theorem fault?_snapshot (hs : s.Housed) (hh : h.IsSound s.refs.toList) :
    (s.snapshot h).fault? = none := by
  have hlisted (c : Cell) : c ∈ h.reachable s.refs.toList ↔ h.Reaches s.refs.toList c :=
    Heap.mem_reachable_iff hh.within
  have hnumber {v : Value} {index : Nat} (hv : ∀ c ∈ v.cell?, c ∈ h.reachable s.refs.toList)
      (hindex : (FlatValue.ofValue (h.reachable s.refs.toList) v).reference? = some index) :
      index < (h.reachable s.refs.toList).length := by
    rw [FlatValue.reference?_ofValue] at hindex
    obtain ⟨c, hc, rfl⟩ := Option.map_eq_some_iff.1 hindex
    exact List.idxOf_lt_length_of_mem (hv c hc)
  refine StackSnapshot.fault?_eq_none_iff.2 ⟨hs.slots, ?_, hs.top, hs.bases, ?_⟩
  · simpa [snapshot] using hs.sizes
  · intro index hindex
    obtain ⟨flat, hflat, hindex⟩ := List.mem_filterMap.1 hindex
    simp only [snapshot, List.length_map]
    rcases List.mem_append.1 hflat with hflat | hflat
    · obtain ⟨entry, hentry, hflat⟩ := List.mem_flatMap.1 hflat
      obtain ⟨c, hc, rfl⟩ := List.mem_map.1 hentry
      obtain ⟨k, hk⟩ := hh.exists_content ((hlisted c).1 hc)
      rw [FlatCell.ofCell_of_content hk, FlatCell.values_ofContent] at hflat
      obtain ⟨v, hv, rfl⟩ := List.mem_map.1 hflat
      exact hnumber (hh.mem_reachable_of_values ((hlisted c).1 hc) hk v hv) hindex
    · obtain ⟨v, hv, rfl⟩ := List.mem_map.1 hflat
      exact hnumber (fun c hc => (hlisted c).2 (.root hv hc)) hindex

/-- A stack whose references go to a copy has the same snapshot. -/
theorem snapshot_copied {g : Heap} {copy : Cell → Cell} (hh : h.IsSound s.refs.toList)
    (hcopies : h.Copies s.refs.toList g copy) :
    (s.copied copy).snapshot g = s.snapshot h := by
  have hlisted (c : Cell) : c ∈ h.reachable s.refs.toList ↔ h.Reaches s.refs.toList c :=
    Heap.mem_reachable_iff hh.within
  have hinjective : ∀ c ∈ h.reachable s.refs.toList, ∀ d ∈ h.reachable s.refs.toList,
      copy c = copy d → c = d :=
    fun c hc d hd => hcopies.injective ((hlisted c).1 hc) ((hlisted d).1 hd)
  have hrefs : (s.copied copy).refs.toList = s.refs.toList.map (Value.rename copy) := by
    simp [copied]
  unfold snapshot
  rw [hrefs, hcopies.reachable hh.within]
  simp only [List.map_map, copied, rewind]
  congr 1
  · refine List.map_congr_left fun v hv => ?_
    exact FlatValue.ofValue_rename hinjective fun c hc => (hlisted c).2 (.root hv hc)
  · refine List.map_congr_left fun c hc => ?_
    obtain ⟨k, hk⟩ := hh.exists_content ((hlisted c).1 hc)
    rw [Function.comp_apply, FlatCell.ofCell_of_content hk,
      FlatCell.ofCell_of_content (hcopies.content ((hlisted c).1 hc) hk)]
    exact FlatCell.ofContent_rename hinjective (hh.mem_reachable_of_values ((hlisted c).1 hc) hk)

/-- **A snapshot is rebuilt as a copy.** -/
theorem rebuild_snapshot (hs : s.Arises) (hh : h.IsSound s.refs.toList) (g : Heap) :
    ∃ g' copy, (s.snapshot h).rebuild g = .ok (g', s.copied copy) ∧
      Set.BijOn copy { c | h.Reaches s.refs.toList c }
        { c | g'.Reaches (s.copied copy).refs.toList c } ∧
      (∀ c, h.Reaches s.refs.toList c →
        copy c ∉ g.cells ∧ g'.content? (copy c) = (h.content? c).map (Content.rename copy)) ∧
      (∀ c ∈ g.cells, g'.content? c = g.content? c) ∧
      (s.copied copy).snapshot g' = s.snapshot h := by
  obtain ⟨copy, hcopies, hcells, hfresh, hold⟩ := hh.adopt g
  have hrefs : (s.copied copy).refs.toList = s.refs.toList.map (Value.rename copy) := by
    simp [copied]
  refine ⟨_, copy, ?_, ?_, fun c hc => ⟨hfresh c hc, ?_⟩, hold, snapshot_copied hh hcopies⟩
  · rw [StackSnapshot.rebuild_of_fault_none (fault?_snapshot hs.housed hh)]
    have hvalues : ((s.snapshot h).refs.map (·.toValue (g.adopt (s.snapshot h).heap).2)).toArray =
        s.refs.map (Value.rename copy) := by
      apply Array.ext'
      simp only [snapshot, List.map_map, Array.toList_map]
      refine List.map_congr_left fun v hv => ?_
      exact FlatValue.toValue_ofValue hcells fun c hc =>
        (Heap.mem_reachable_iff hh.within).2 (.root hv hc)
    rw [hvalues]
    rfl
  · rw [hrefs]
    exact hcopies.bijOn hh.within
  · obtain ⟨k, hk⟩ := hh.exists_content hc
    rw [hcopies.content hc hk, hk, Option.map_some]

/-- A ring of an object and an array: the object refers to itself and to the array, and the array
to the object. -/
def ring : Heap where
  objects := #[{ type := Names.suspendExecution },
    { type := "app/Node", fields := [("items", .array 0), ("next", .object 1)] }]
  arrays := #[#[.object 1, .int (-7), .str "kept"]]

/-- A frame that has saved both cells of the ring, one of them twice. -/
def holdingRing : Except RunError FrameStack := do
  let s ← FrameStack.new 2
  let s ← s.enter.2.reserve 1 3
  let s ← s.save .ref 0 (.array 0)
  let s ← s.save .ref 1 (.object 1)
  s.save .ref 2 (.array 0)

theorem rebuild_snapshot_ring : ∃ s, holdingRing = .ok s ∧ s.Arises ∧
    ring.IsSound s.refs.toList ∧
    ∃ g' copy, (s.snapshot ring).rebuild ring = .ok (g', s.copied copy) ∧
      Set.BijOn copy { c | ring.Reaches s.refs.toList c }
        { c | g'.Reaches (s.copied copy).refs.toList c } ∧
      (∀ c, ring.Reaches s.refs.toList c →
        copy c ∉ ring.cells ∧ g'.content? (copy c) = (ring.content? c).map (Content.rename copy)) ∧
      (∀ c ∈ ring.cells, g'.content? c = ring.content? c) ∧
      (s.copied copy).snapshot g' = s.snapshot ring := by
  obtain ⟨s, hs⟩ : ∃ s, holdingRing = .ok s := ⟨_, by cbv⟩
  have harises : s.Arises := by
    obtain ⟨s₁, h₁, hrest⟩ := bind_eq_ok.1 hs
    obtain ⟨s₂, h₂, hrest⟩ := bind_eq_ok.1 hrest
    obtain ⟨s₃, h₃, hrest⟩ := bind_eq_ok.1 hrest
    obtain ⟨s₄, h₄, h₅⟩ := bind_eq_ok.1 hrest
    exact ((((Arises.new h₁).enter.reserve h₂).save h₃).save h₄).save h₅
  have hrefs : s.refs = #[.array 0, .object 1, .array 0, .null] := by
    have h : holdingRing.map FrameStack.refs = .ok #[.array 0, .object 1, .array 0, .null] := by
      cbv
    rw [hs] at h
    exact Except.ok.inj h
  have hsound : ring.IsSound s.refs.toList :=
    Heap.isSound_of_cells (by rw [hrefs]; decide) (by decide) (by decide +kernel)
  exact ⟨s, hs, harises, hsound, rebuild_snapshot harises hsound ring⟩

end FrameStack

end Resumable
