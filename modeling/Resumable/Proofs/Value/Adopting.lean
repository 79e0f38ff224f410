import Mathlib.Data.List.Forall2
import Resumable.Coroutine.Snapshot
import Resumable.Proofs.Outcome
import Resumable.Proofs.Value.Graph

/-!
# Adopting a table of cells

`Heap.adopt` makes an empty object or array for each entry of a table and fills them afterwards, so
that they can refer to each other. The cells that it makes are new and no two are the same, and in
the end each holds what its entry says (`adopt_spec`); whatever lived in the heap before still does.
-/

namespace Resumable

open List (Forall₂)

/-! ## Sorted fields -/

namespace Object

/-- No two fields have one name, and they stand in the order of their names. -/
def IsSorted {α : Type} (fields : List (String × α)) : Prop :=
  (fields.map Prod.fst).Pairwise (· < ·)

instance {α : Type} (fields : List (String × α)) : Decidable (IsSorted fields) :=
  inferInstanceAs (Decidable (List.Pairwise _ _))

/-- A field whose name comes after all others is put behind them. -/
theorem setField_of_lt {name : String} {fields : List (String × Value)}
    (h : ∀ f ∈ fields, f.1 < name) (v : Value) :
    setField name v fields = fields ++ [(name, v)] := by
  induction fields with
  | nil => rfl
  | cons f fields ih =>
    have hf : f.1 < name := h f List.mem_cons_self
    have hne : name ≠ f.1 := fun heq => String.lt_irrefl name (heq ▸ hf)
    rw [setField, if_neg hne, if_neg (String.lt_asymm hf),
      ih fun f' hf' => h f' (List.mem_cons_of_mem _ hf')]
    rfl

/-- Sorted fields that are put in one after the other stay as they are. -/
theorem foldl_setField {done fields : List (String × Value)} (h : IsSorted (done ++ fields)) :
    fields.foldl (fun fs f => setField f.1 f.2 fs) done = done ++ fields := by
  induction fields generalizing done with
  | nil => rw [List.append_nil, List.foldl_nil]
  | cons f fields ih =>
    have hlt : ∀ f' ∈ done, f'.1 < f.1 := by
      unfold IsSorted at h
      rw [List.map_append] at h
      intro f' hf'
      exact (List.pairwise_append.1 h).2.2 _ (List.mem_map_of_mem hf') _ List.mem_cons_self
    rw [List.foldl_cons, setField_of_lt hlt, ih (by simpa using h), List.append_assoc]
    rfl

theorem name_of_mem_setField {name : String} {v : Value} {fields : List (String × Value)}
    {f : String × Value} (h : f ∈ setField name v fields) : f.1 = name ∨ f ∈ fields := by
  induction fields with
  | nil => exact .inl (congrArg Prod.fst (List.mem_singleton.1 h))
  | cons f' fields ih =>
    rw [setField] at h
    split at h
    · rcases List.mem_cons.1 h with rfl | h
      · exact .inl rfl
      · exact .inr (List.mem_cons_of_mem _ h)
    · split at h
      · rcases List.mem_cons.1 h with rfl | h
        · exact .inl rfl
        · exact .inr h
      · rcases List.mem_cons.1 h with rfl | h
        · exact .inr List.mem_cons_self
        · exact (ih h).imp_right (List.mem_cons_of_mem _)

/-- Writing a field keeps the order. -/
theorem IsSorted.setField {fields : List (String × Value)} (h : IsSorted fields) (name : String)
    (v : Value) : IsSorted (setField name v fields) := by
  induction fields with
  | nil => exact List.pairwise_singleton _ _
  | cons f fields ih =>
    obtain ⟨hlt, hrest⟩ := List.pairwise_cons.1 h
    rw [Object.setField]
    split
    · next heq => exact List.pairwise_cons.2 ⟨fun n hn => heq ▸ hlt n hn, hrest⟩
    · next hne =>
      split
      · next hbefore =>
        refine List.pairwise_cons.2 ⟨fun n hn => ?_, h⟩
        rcases List.mem_cons.1 hn with rfl | hn
        · exact hbefore
        · exact String.lt_trans hbefore (hlt n hn)
      · next hnot =>
        have hafter : f.1 < name := Classical.byContradiction fun hnot' =>
          hne (String.le_antisymm (String.not_lt.1 hnot') (String.not_lt.1 hnot))
        refine List.pairwise_cons.2 ⟨fun n hn => ?_, ih hrest⟩
        obtain ⟨f', hf', rfl⟩ := List.mem_map.1 hn
        rcases name_of_mem_setField hf' with hname | hmem
        · exact hname ▸ hafter
        · exact hlt _ (List.mem_map_of_mem hmem)

end Object

/-! ## What an entry says -/

namespace FlatCell

/-- What is made for the entry at first. -/
def blank : FlatCell → Content
  | .object type _ => .object { type }
  | .array _ => .array #[]

/-- What the entry says, with references looked up among new cells. -/
def content (cells : Array Value) : FlatCell → Content
  | .object type fields =>
    .object { type, fields := fields.map fun f => (f.1, f.2.toValue cells) }
  | .array items => .array (items.map (·.toValue cells)).toArray

/-- The fields of an object are sorted. -/
def IsSorted : FlatCell → Prop
  | .object _ fields => Object.IsSorted fields
  | .array _ => True

end FlatCell

namespace Heap

variable {h : Heap} {c d : Cell} {cells : Array Value}

/-! ## Making -/

/-- One new cell, empty, under an identity that nothing had before. -/
theorem newCell_spec (h : Heap) (entry : FlatCell) : ∃ c, (h.newCell entry).2 = c.toValue ∧
    c ∉ h.cells ∧ (h.newCell entry).1.content? c = some entry.blank ∧
      ∀ d, d ≠ c → (h.newCell entry).1.content? d = h.content? d := by
  cases entry with
  | object type fields =>
    refine ⟨.object h.objects.size, rfl, by simp [cells], by simp [newCell, newObject, content?,
      FlatCell.blank], fun d hd => ?_⟩
    cases d with
    | object id =>
      have hne : id ≠ h.objects.size := fun heq => hd (congrArg Cell.object heq)
      simp [newCell, newObject, content?, Array.getElem?_push, hne]
    | array id => rfl
  | array items =>
    refine ⟨.array h.arrays.size, rfl, by simp [cells], by simp [newCell, newArray, content?,
      FlatCell.blank], fun d hd => ?_⟩
    cases d with
    | object id => rfl
    | array id =>
      have hne : id ≠ h.arrays.size := fun heq => hd (congrArg Cell.array heq)
      simp [newCell, newArray, content?, Array.getElem?_push, hne]

/-- From `h` on, one cell has been made for each entry of the table: all are new and empty, no two
are the same, and nothing else has changed. -/
structure Makes (h : Heap) (table : List FlatCell) (made : List Cell) (g : Heap) : Prop where
  nodup : made.Nodup
  fresh : ∀ c ∈ made, c ∉ h.cells
  blank : Forall₂ (fun entry c => g.content? c = some entry.blank) table made
  other : ∀ d, d ∉ made → g.content? d = h.content? d

theorem Makes.cons {entry : FlatCell} {table : List FlatCell} {made : List Cell} {g : Heap}
    (hc : c ∉ h.cells) (hblank : (h.newCell entry).1.content? c = some entry.blank)
    (hother : ∀ d, d ≠ c → (h.newCell entry).1.content? d = h.content? d)
    (hmakes : Makes (h.newCell entry).1 table made g) : Makes h (entry :: table) (c :: made) g := by
  have hcmade : c ∉ made := fun hmem =>
    hmakes.fresh c hmem (mem_cells_iff.2 (by rw [hblank]; rfl))
  refine ⟨List.nodup_cons.2 ⟨hcmade, hmakes.nodup⟩, fun d hd => ?_, ?_, fun d hd => ?_⟩
  · rcases List.mem_cons.1 hd with rfl | hd
    · exact hc
    · have hne : d ≠ c := fun heq => hcmade (heq ▸ hd)
      rw [mem_cells_iff, ← hother d hne, ← mem_cells_iff]
      exact hmakes.fresh d hd
  · exact .cons (by rw [hmakes.other c hcmade, hblank]) hmakes.blank
  · obtain ⟨hne, hd⟩ := not_or.1 (fun hor => hd (List.mem_cons.2 hor))
    rw [hmakes.other d hd, hother d hne]

/-- Empty cells for a table. -/
theorem newCells_spec (h : Heap) (table : List FlatCell) : ∃ made,
    (h.newCells table).2.toList = made.map Cell.toValue ∧
      Makes h table made (h.newCells table).1 := by
  -- The cells that have been made before stand in front.
  suffices hfold : ∀ (cells : Array Value) (r : Heap × Array Value),
      table.foldl (fun s entry => ((s.1.newCell entry).1, s.2.push (s.1.newCell entry).2))
        (h, cells) = r →
      ∃ made, r.2.toList = cells.toList ++ made.map Cell.toValue ∧ Makes h table made r.1 by
    have hnew := hfold #[] (h.newCells table) rfl
    simpa using hnew
  induction table generalizing h with
  | nil =>
    rintro cells r rfl
    exact ⟨[], by simp, .nil, by simp, .nil, fun _ _ => rfl⟩
  | cons entry table ih =>
    rintro cells r rfl
    obtain ⟨c, hvalue, hc, hblank, hother⟩ := newCell_spec h entry
    obtain ⟨made, hcells, hmakes⟩ := ih (h.newCell entry).1 _ _ rfl
    exact ⟨c :: made, by rw [List.foldl_cons, hcells]; simp [hvalue],
      .cons hc hblank hother hmakes⟩

/-! ## Filling -/

theorem content_setField (h : Heap) (id : Nat) (name : String) (v : Value) (c : Cell) :
    (h.setField id name v).content? c = if c = .object id then
      (h.objects[id]?).map fun o => .object (o.set name v) else h.content? c := by
  cases c with
  | object id' =>
    by_cases heq : id' = id
    · subst heq
      simp [content?, setField, Array.getElem?_modify, Function.comp_def]
    · have hne : ¬ id = id' := fun h => heq h.symm
      simp [content?, setField, heq, hne, Array.getElem?_modify]
  | array id' => simp [content?, setField]

/-- Fields that are written to an object one after the other. -/
theorem content_foldl_setField {id : Nat} {o : Object} {fields : List (String × Value)}
    (ho : h.content? (.object id) = some (.object o)) (d : Cell) :
    (fields.foldl (fun h f => h.setField id f.1 f.2) h).content? d =
      if d = .object id then some (.object { o with
        fields := fields.foldl (fun fs f => Object.setField f.1 f.2 fs) o.fields })
      else h.content? d := by
  induction fields generalizing h o with
  | nil =>
    split
    · next heq => rw [List.foldl_nil, heq, ho]; rfl
    · rfl
  | cons f fields ih =>
    have ho' : h.objects[id]? = some o := by simpa [content?] using ho
    have hset : (h.setField id f.1 f.2).content? (.object id) = some (.object (o.set f.1 f.2)) := by
      rw [content_setField, if_pos rfl, ho']
      rfl
    rw [List.foldl_cons, ih hset]
    split
    · rfl
    · next hne => rw [content_setField, if_neg hne]

/-- A cell that was empty holds what its entry says; no other has changed. -/
theorem content_fillCell {entry : FlatCell} (hsorted : entry.IsSorted)
    (hblank : h.content? c = some entry.blank) (d : Cell) :
    (h.fillCell cells (entry, c.toValue)).content? d =
      if d = c then some (entry.content cells) else h.content? d := by
  cases entry with
  | object type fields =>
    cases c with
    | object id =>
      let written := fields.map fun f => (f.1, f.2.toValue cells)
      have hwritten : Object.IsSorted ([] ++ written) := by
        have hfields : Object.IsSorted fields := hsorted
        simpa [Object.IsSorted, written, Function.comp_def] using hfields
      have hfill : h.fillCell cells (.object type fields, Cell.toValue (.object id)) =
          written.foldl (fun h f => h.setField id f.1 f.2) h := by
        rw [List.foldl_map]
        rfl
      rw [hfill, content_foldl_setField hblank, Object.foldl_setField hwritten]
      rfl
    | array id => simp [content?, FlatCell.blank] at hblank
  | array items =>
    cases c with
    | object id => simp [content?, FlatCell.blank] at hblank
    | array id =>
      obtain ⟨old, hold, -⟩ := Option.map_eq_some_iff.1 hblank
      obtain ⟨hid, -⟩ := Array.getElem?_eq_some_iff.1 hold
      cases d with
      | object id' => simp [Cell.toValue, fillCell, content?]
      | array id' =>
        by_cases heq : id' = id
        · subst heq
          simp [Cell.toValue, fillCell, content?, FlatCell.content, hid]
        · have hne : ¬ id = id' := fun h => heq h.symm
          simp [Cell.toValue, fillCell, content?, heq, hne]

/-- Filled one after the other, all cells hold what their entries say. -/
theorem content_foldl_fillCell (cells : Array Value) {table : List FlatCell} {made : List Cell}
    (hblank : Forall₂ (fun entry c => h.content? c = some entry.blank) table made)
    (hsorted : ∀ entry ∈ table, entry.IsSorted) (hnodup : made.Nodup) :
    let filled := (table.zip (made.map Cell.toValue)).foldl (·.fillCell cells ·) h
    Forall₂ (fun entry c => filled.content? c = some (entry.content cells)) table made ∧
      ∀ d, d ∉ made → filled.content? d = h.content? d := by
  induction table generalizing h made with
  | nil =>
    cases hblank
    exact ⟨.nil, fun _ _ => rfl⟩
  | cons entry table ih =>
    obtain _ | @⟨_, c, _, made, hc, hrest⟩ := hblank
    obtain ⟨hcmade, hnodup⟩ := List.nodup_cons.1 hnodup
    have hfill (d : Cell) : (h.fillCell cells (entry, c.toValue)).content? d =
        if d = c then some (entry.content cells) else h.content? d :=
      content_fillCell (hsorted entry List.mem_cons_self) hc d
    have hstill {d : Cell} (hd : d ∈ made) :
        (h.fillCell cells (entry, c.toValue)).content? d = h.content? d := by
      have hne : d ≠ c := fun heq => hcmade (heq ▸ hd)
      rw [hfill, if_neg hne]
    obtain ⟨hfilled, hother⟩ := ih
      (forall₂_imp_of_mem hrest fun e _ d hd hblank => (hstill hd).trans hblank)
      (fun e he => hsorted e (List.mem_cons_of_mem _ he)) hnodup
    refine ⟨.cons ?_ hfilled, fun d hd => ?_⟩
    · exact (hother c hcmade).trans ((hfill c).trans (if_pos rfl))
    · obtain ⟨hne, hd⟩ := not_or.1 (fun hor => hd (List.mem_cons.2 hor))
      exact (hother d hd).trans ((hfill d).trans (if_neg hne))

/-! ## Adopting -/

/-- **A table is adopted as it is written**: under identities that are new and all different. -/
theorem adopt_spec (h : Heap) {table : List FlatCell} (hsorted : ∀ entry ∈ table, entry.IsSorted) :
    ∃ made : List Cell, (h.adopt table).2.toList = made.map Cell.toValue ∧ made.Nodup ∧
      (∀ c ∈ made, c ∉ h.cells) ∧
      Forall₂ (fun entry c =>
        (h.adopt table).1.content? c = some (entry.content (h.adopt table).2)) table made ∧
      ∀ d ∈ h.cells, (h.adopt table).1.content? d = h.content? d := by
  obtain ⟨made, hcells, hmakes⟩ := newCells_spec h table
  obtain ⟨hfilled, hother⟩ :=
    content_foldl_fillCell (h.newCells table).2 hmakes.blank hsorted hmakes.nodup
  rw [← hcells] at hfilled hother
  refine ⟨made, hcells, hmakes.nodup, hmakes.fresh, hfilled, fun d hd => ?_⟩
  have hdmade : d ∉ made := fun hmem => hmakes.fresh d hmem hd
  exact (hother d hdmade).trans (hmakes.other d hdmade)

end Heap

end Resumable
