import Resumable.Proofs.FrameStack.Snapshot

/-!
# Numbering what is captured

A snapshot numbers the objects and arrays that it holds in the order in which a walk comes upon
them. They can be numbered as the walk goes along: a cell that is met for the first time gets the
next number and an empty entry in the table, and when all that it holds has been gone through, the
entry is filled in at that number (`Heap.write`). Filling in an entry would go wrong if the table had
none of that number.

It never does, and the table comes out as that of the snapshot (`Heap.write_eq`), if no reference
dangles.
-/

namespace Resumable

/-- Why an access has not been made. -/
inductive AccessFault where
  /-- The operation is refused before anything has been accessed. -/
  | refused (cause : RunError)
  /-- What is accessed lies outside the `size` items that are there. -/
  | outside (index size : Nat)
  /-- There is no object or array of this identity. -/
  | dangling (c : Cell)
  /-- There are more objects and arrays than steps. -/
  | unfinished
  deriving DecidableEq, Repr

section Accesses

variable {α : Type} {xs : List α} {i : Nat}

/-- The item at an index. -/
def itemAt (xs : List α) (i : Nat) : Except AccessFault α :=
  match xs[i]? with
  | some a => .ok a
  | none => .error (.outside i xs.length)

/-- Puts an item in the place of the one at an index. -/
def replaceAt (xs : List α) (i : Nat) (a : α) : Except AccessFault (List α) :=
  if i < xs.length then .ok (xs.set i a) else .error (.outside i xs.length)

theorem itemAt_of_getElem? {a : α} (h : xs[i]? = some a) : itemAt xs i = .ok a := by
  rw [itemAt, h]

theorem replaceAt_of_lt (h : i < xs.length) (a : α) : replaceAt xs i a = .ok (xs.set i a) :=
  if_pos h

end Accesses

/-! ## Writing -/

/-- A table of cells that is being written, and the numbers of those that have an entry. -/
structure HeapWriter where
  table : List FlatCell
  numbers : List (Cell × Nat)

/-- The entry for an object or array whose values have been gone through. -/
def Content.entry : Content → List FlatValue → FlatCell
  | .object o, flats => .object o.type ((o.fields.map (·.1)).zip flats)
  | .array _, flats => .array flats

/-- Goes through some values, and through all that they refer to before what is left. -/
def Heap.write (h : Heap) (steps : Nat) (w : HeapWriter) (work : List Value) :
    Except AccessFault (List FlatValue × HeapWriter) :=
  match work with
  | [] => .ok ([], w)
  | v :: rest =>
    match v.cell? with
    | none => do
      let (flats, w) ← h.write steps w rest
      return (.ofValue [] v :: flats, w)
    | some c =>
      match w.numbers.lookup c with
      | some number => do
        let (flats, w) ← h.write steps w rest
        return (.ref number :: flats, w)
      | none =>
        match steps, h.content? c with
        | 0, _ => .error .unfinished
        | _, none => .error (.dangling c)
        | steps + 1, some content => do
          let number := w.table.length
          let (items, w) ← h.write steps
            ⟨w.table ++ [.array []], w.numbers ++ [(c, number)]⟩ content.values
          let table ← replaceAt w.table number (content.entry items)
          let (flats, w) ← h.write (steps + 1) ⟨table, w.numbers⟩ rest
          return (.ref number :: flats, w)
termination_by (steps, work.length)

/-! ## Orders that grow -/

theorem lookup_zipIdx (order : List Cell) (c : Cell) (start : Nat) :
    (order.zipIdx start).lookup c = if c ∈ order then some (start + order.idxOf c) else none := by
  induction order generalizing start with
  | nil => rfl
  | cons d order ih =>
    rw [List.zipIdx_cons, List.lookup_cons, ih, List.idxOf_cons]
    by_cases hcd : c = d
    · simp [hcd]
    · rw [beq_false_of_ne hcd, beq_false_of_ne (Ne.symm hcd)]
      simp only [List.mem_cons, hcd, false_or, cond_false]
      split
      · rw [Nat.add_assoc, Nat.add_comm 1]
      · rfl

namespace Heap

variable {h : Heap} {roots : List Value} {c : Cell} {v : Value}

/-- Walking over some values and then over others is one walk. -/
theorem walk_append (unseen : List Cell) (work rest : List Value) :
    h.walk unseen (work ++ rest) =
      h.walk unseen work ++ h.walk (unseen.diff (h.walk unseen work)) rest := by
  induction unseen, work using walk.induct h with
  | case1 unseen => simp [walk]
  | case2 unseen v work hv ih =>
    rw [List.cons_append, walk_cons_of_not_mem (by simp [hv]), ih,
      walk_cons_of_not_mem (by simp [hv])]
  | case3 unseen v work c hv hc ih =>
    rw [List.cons_append, walk_cons_of_mem hv hc, walk_cons_of_mem hv hc, List.diff_cons,
      ← List.append_assoc, ih, List.cons_append]
  | case4 unseen v work c hv hc ih =>
    rw [List.cons_append, walk_cons_of_not_mem (by simpa [hv] using hc), ih,
      walk_cons_of_not_mem (by simpa [hv] using hc)]

end Heap

theorem FlatValue.ofValue_append {order : List Cell} {v : Value} (hv : ∀ c ∈ v.cell?, c ∈ order)
    (more : List Cell) : ofValue (order ++ more) v = ofValue order v := by
  cases v with
  | object id => exact congrArg FlatValue.ref (List.idxOf_append_of_mem (hv _ rfl))
  | array id => exact congrArg FlatValue.ref (List.idxOf_append_of_mem (hv _ rfl))
  | null | int _ | long _ | float _ | double _ | str _ => rfl

theorem FlatValue.ofValue_of_cell {v : Value} {c : Cell} (order : List Cell)
    (hv : v.cell? = some c) : ofValue order v = .ref (order.idxOf c) := by
  cases v <;> cases hv <;> rfl

theorem FlatCell.ofCell_append {h : Heap} {order : List Cell} {c : Cell}
    (hc : ∀ v ∈ h.contents c, ∀ d ∈ v.cell?, d ∈ order) (more : List Cell) :
    ofCell h (order ++ more) c = ofCell h order c := by
  cases c with
  | object id =>
    simp only [ofCell]
    congr 1
    refine List.map_congr_left fun f hf => ?_
    rw [FlatValue.ofValue_append (hc f.2 (List.mem_map_of_mem hf))]
  | array id =>
    simp only [ofCell]
    congr 1
    exact List.map_congr_left fun v hv => FlatValue.ofValue_append (hc v hv) more

/-- With its values numbered, an object or array has the entry of a snapshot. -/
theorem Content.entry_values {h : Heap} {c : Cell} {k : Content} (hk : h.content? c = some k)
    (order : List Cell) :
    k.entry (k.values.map (.ofValue order)) = FlatCell.ofCell h order c := by
  rw [FlatCell.ofCell_of_content hk]
  cases k with
  | object o => simp [entry, values, FlatCell.ofContent, List.zip_map']
  | array items => rfl

namespace Heap

/-- The cells of `order` have entries, or have been met, and of all others `unseen` are left. -/
structure Numbers (h : Heap) (w : HeapWriter) (order unseen : List Cell) : Prop where
  numbers : w.numbers = order.zipIdx
  length : w.table.length = order.length
  nodup : unseen.Nodup
  unseen : ∀ c, c ∈ unseen ↔ c ∈ h.cells ∧ c ∉ order

namespace Numbers

variable {h : Heap} {w : HeapWriter} {order unseen : List Cell} {c : Cell}

theorem lookup (hw : h.Numbers w order unseen) (c : Cell) :
    w.numbers.lookup c = if c ∈ order then some (order.idxOf c) else none := by
  rw [hw.numbers, lookup_zipIdx]
  simp only [Nat.zero_add]

/-- A cell that is met gets the next number. -/
theorem meet (hw : h.Numbers w order unseen) (c : Cell) :
    h.Numbers ⟨w.table ++ [.array []], w.numbers ++ [(c, w.table.length)]⟩ (order ++ [c])
      (unseen.erase c) := by
  refine ⟨?_, by simp [hw.length], hw.nodup.erase c, fun d => ?_⟩
  · rw [hw.numbers, hw.length, List.zipIdx_append, Nat.zero_add]
    rfl
  · rw [hw.nodup.mem_erase_iff, hw.unseen, List.mem_append, List.mem_singleton, not_or]
    tauto

/-- What has been listed is not unseen any more. -/
theorem list {table : List FlatCell} (hw : h.Numbers w order unseen) (new : List Cell)
    (hlength : table.length = (order ++ new).length) :
    h.Numbers ⟨table, (order ++ new).zipIdx⟩ (order ++ new) (unseen.diff new) := by
  refine ⟨rfl, hlength, hw.nodup.diff, fun d => ?_⟩
  rw [hw.nodup.mem_sdiff_iff, hw.unseen, List.mem_append, not_or, and_assoc]

end Numbers

variable {h : Heap} {roots : List Value} {w : HeapWriter} {order unseen : List Cell} {c : Cell}

/-- Behind a cell that has been met, and all that it refers to, nothing is left that they refer
to. -/
theorem Numbers.closed (hw : h.Numbers w order unseen)
    (hwithin : ∀ c, h.Reaches roots c → c ∈ h.cells) (hreach : h.Reaches roots c) :
    ∀ d ∈ c :: h.walk (unseen.erase c) (h.contents c), ∀ v ∈ h.contents d, ∀ e ∈ v.cell?,
      e ∈ order ++ [c] ++ h.walk (unseen.erase c) (h.contents c) := by
  obtain ⟨hroots, hlisted⟩ := h.walk_complete (unseen.erase c) (h.contents c)
  intro d hd v hv e he
  have hinside : h.Reaches roots d := by
    rcases List.mem_cons.1 hd with rfl | hd
    · exact hreach
    · exact reaches_of_mem_walk (fun u hu f hf => hreach.step hu hf) hd
  by_cases horder : e ∈ order ++ [c]
  · exact List.mem_append_left _ horder
  · have hunseen : e ∈ unseen.erase c :=
      ((hw.meet c).unseen e).2 ⟨hwithin e (hinside.step hv he), horder⟩
    refine List.mem_append_right _ ?_
    rcases List.mem_cons.1 hd with rfl | hd
    · exact hroots v hv e he hunseen
    · exact hlisted d hd v hv e he hunseen

theorem replaceAt_append (front : List FlatCell) (entry entry' : FlatCell) (back : List FlatCell) :
    replaceAt (front ++ [entry] ++ back) front.length entry' = .ok (front ++ entry' :: back) := by
  rw [replaceAt_of_lt (by simp), List.append_assoc, List.set_append_right _ _ (Nat.le_refl _),
    Nat.sub_self]
  rfl

/-- What is gone through is numbered in the order in which it is listed, and all that is listed has
its entry. -/
def Lists (h : Heap) (steps : Nat) (w : HeapWriter) (order unseen : List Cell)
    (work : List Value) : Prop :=
  h.write steps w work = .ok (work.map (.ofValue (order ++ h.walk unseen work)),
    ⟨w.table ++ (h.walk unseen work).map (FlatCell.ofCell h (order ++ h.walk unseen work)),
      (order ++ h.walk unseen work).zipIdx⟩)

section Steps

variable {steps : Nat} {v : Value} {rest : List Value} {k : Content}

theorem lists_nil (hw : h.Numbers w order unseen) : h.Lists steps w order unseen [] := by
  rw [Lists, write, walk, List.append_nil, ← hw.numbers]
  simp

theorem Lists.plain (hrest : h.Lists steps w order unseen rest) (hv : v.cell? = none) :
    h.Lists steps w order unseen (v :: rest) := by
  have hvalue (order : List Cell) : FlatValue.ofValue order v = .ofValue [] v := by
    cases v <;> first | rfl | cases hv
  rw [Lists, write, hv, walk_cons_of_not_mem (by simp [hv])]
  dsimp only
  rw [hrest, List.map_cons, hvalue (order ++ _)]
  rfl

/-- A cell that has been met before is known by its number. -/
theorem Lists.met (hrest : h.Lists steps w order unseen rest) (hw : h.Numbers w order unseen)
    (hv : v.cell? = some c) (hc : c ∈ order) : h.Lists steps w order unseen (v :: rest) := by
  have hunseen : c ∉ unseen := fun hmem => ((hw.unseen c).1 hmem).2 hc
  rw [Lists, write, hv, walk_cons_of_not_mem (by simpa [hv] using hunseen)]
  dsimp only
  rw [hw.lookup, if_pos hc]
  dsimp only
  rw [hrest, List.map_cons, FlatValue.ofValue_of_cell (order ++ _) hv, List.idxOf_append_of_mem hc]
  rfl

/-- The entry of a cell that is met for the first time is filled in behind what it refers to. -/
theorem lists_fresh (hw : h.Numbers w order unseen)
    (hwithin : ∀ c, h.Reaches roots c → c ∈ h.cells) (hreach : h.Reaches roots c)
    (hv : v.cell? = some c) (hc : c ∈ unseen) (hk : h.content? c = some k)
    (hcontents : h.Lists steps ⟨w.table ++ [.array []], w.numbers ++ [(c, w.table.length)]⟩
      (order ++ [c]) (unseen.erase c) (h.contents c))
    (hrest : ∀ w', h.Numbers w' (order ++ [c] ++ h.walk (unseen.erase c) (h.contents c))
        ((unseen.erase c).diff (h.walk (unseen.erase c) (h.contents c))) →
      h.Lists (steps + 1) w' (order ++ [c] ++ h.walk (unseen.erase c) (h.contents c))
        ((unseen.erase c).diff (h.walk (unseen.erase c) (h.contents c))) rest) :
    h.Lists (steps + 1) w order unseen (v :: rest) := by
  have horder : c ∉ order := ((hw.unseen c).1 hc).2
  have hclosed := hw.closed hwithin hreach
  have hwalk : h.walk unseen (v :: rest) = _ := walk_cons_of_mem hv hc
  rw [walk_append] at hwalk
  rw [Lists, write, hv]
  dsimp only
  rw [hw.lookup, if_neg horder, hk]
  dsimp only
  rw [← contents_of_content hk, hcontents]
  generalize h.walk (unseen.erase c) (h.contents c) = new at *
  dsimp only [bind, Except.bind]
  rw [replaceAt_append, contents_of_content hk, Content.entry_values hk]
  dsimp only
  have hlength : (w.table ++ FlatCell.ofCell h (order ++ [c] ++ new) c ::
      new.map (FlatCell.ofCell h (order ++ [c] ++ new))).length = (order ++ [c] ++ new).length := by
    simp [hw.length]
  rw [hrest _ ((hw.meet c).list new hlength)]
  generalize h.walk ((unseen.erase c).diff new) rest = more at *
  -- What is listed later changes neither the numbers nor the entries that are there.
  have hall : order ++ h.walk unseen (v :: rest) = order ++ [c] ++ new ++ more := by
    rw [hwalk]
    simp
  have hentries : (c :: new).map (FlatCell.ofCell h (order ++ [c] ++ new ++ more)) =
      (c :: new).map (FlatCell.ofCell h (order ++ [c] ++ new)) :=
    List.map_congr_left fun d hd => FlatCell.ofCell_append (hclosed d hd) more
  have hnumber : (order ++ [c] ++ new ++ more).idxOf c = w.table.length := by
    rw [List.append_assoc, List.append_assoc, List.idxOf_append_of_notMem horder, hw.length]
    simp
  rw [hall, hwalk, List.map_cons, FlatValue.ofValue_of_cell (_ ++ more) hv, hnumber,
    ← List.cons_append, List.map_append, hentries]
  simp only [pure, Except.pure, List.map_cons, List.append_assoc, List.cons_append]

end Steps

/-- The table is written as the walk goes along. -/
theorem lists_of_steps (hwithin : ∀ c, h.Reaches roots c → c ∈ h.cells) {steps : Nat}
    {work : List Value} (hw : h.Numbers w order unseen) (hsteps : unseen.length ≤ steps)
    (hwork : ∀ v ∈ work, ∀ c ∈ v.cell?, h.Reaches roots c) :
    h.Lists steps w order unseen work := by
  -- The contents of a cell are gone through with one step less, what is left with as many.
  induction steps using Nat.strongRecOn generalizing w order unseen work with
  | ind steps ihsteps =>
    induction work generalizing w order unseen with
    | nil => exact lists_nil hw
    | cons v rest ih =>
      have hrest : ∀ u ∈ rest, ∀ c ∈ u.cell?, h.Reaches roots c :=
        fun u hu => hwork u (List.mem_cons_of_mem _ hu)
      cases hv : v.cell? with
      | none => exact (ih hw hsteps hrest).plain hv
      | some c =>
        have hreach : h.Reaches roots c := hwork v List.mem_cons_self c hv
        by_cases hc : c ∈ order
        · exact (ih hw hsteps hrest).met hw hv hc
        · have hcells := hwithin c hreach
          have hunseen : c ∈ unseen := (hw.unseen c).2 ⟨hcells, hc⟩
          obtain ⟨k, hk⟩ := Option.isSome_iff_exists.1 (mem_cells_iff.1 hcells)
          have hpos := List.length_pos_of_mem hunseen
          obtain ⟨steps, rfl⟩ := Nat.exists_eq_succ_of_ne_zero (by omega : steps ≠ 0)
          have hshorter : (unseen.erase c).length ≤ steps := by
            rw [List.length_erase_of_mem hunseen]
            omega
          refine lists_fresh hw hwithin hreach hv hunseen hk ?_ fun w' hw' => ?_
          · exact ihsteps steps (Nat.lt_succ_self steps) (hw.meet c) hshorter
              fun u hu d hd => hreach.step hu hd
          · exact ih hw'
              ((List.diff_sublist _ _).length_le.trans (Nat.le_succ_of_le hshorter)) hrest

end Heap

namespace FrameStack

/-- Captures frames and slots, and numbers what the slots refer to as it goes along. -/
def capture (s : FrameStack) (h : Heap) : Except AccessFault StackSnapshot := do
  let (refs, w) ← h.write h.cells.length ⟨[], []⟩ s.refs.toList
  return { frames := s.frames, top := s.top, prims := s.prims.toList, refs, heap := w.table }

/-- **A snapshot is captured without any access that goes wrong**, if no reference dangles. -/
theorem capture_eq_snapshot {s : FrameStack} {h : Heap}
    (hwithin : ∀ c, h.Reaches s.refs.toList c → c ∈ h.cells) :
    s.capture h = .ok (s.snapshot h) := by
  have hstart : h.Numbers ⟨[], []⟩ [] h.cells := ⟨rfl, rfl, h.nodup_cells, by simp⟩
  have hlists := Heap.lists_of_steps hwithin hstart (Nat.le_refl _) fun v hv c hc => .root hv hc
  rw [capture, hlists]
  rfl

end FrameStack

end Resumable
