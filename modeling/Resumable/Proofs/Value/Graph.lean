import Mathlib.Data.Set.Function
import Resumable.Value.Graph

/-!
# Graphs and their copies

What can be reached from some values is a graph whose nodes are objects and arrays (`Heap.Reaches`).
`Heap.reachable` lists just these nodes, each once, if no reference of the graph dangles.

    c ∈ h.reachable roots ↔ h.Reaches roots c

A graph and its copy under other identities (`Heap.Copies`) cannot be told apart by a walk: the walk
over the copy comes upon the copies of the nodes in the same order.
-/

namespace Resumable

/-! ## What lives in the heap -/

/-- An object or an array. -/
inductive Content where
  | object (object : Object)
  | array (items : Array Value)

/-- The value that refers to an object or array. -/
def Cell.toValue : Cell → Value
  | .object id => .object id
  | .array id => .array id

@[simp] theorem Cell.cell?_toValue (c : Cell) : c.toValue.cell? = some c := by
  cases c <;> rfl

/-- The value with its reference carried over to another identity. -/
def Value.rename (copy : Cell → Cell) (v : Value) : Value :=
  (v.cell?.map fun c => (copy c).toValue).getD v

theorem Value.rename_of_cell {copy : Cell → Cell} {v : Value} {c : Cell} (h : v.cell? = some c) :
    v.rename copy = (copy c).toValue := by
  simp [rename, h]

theorem Value.rename_of_none {copy : Cell → Cell} {v : Value} (h : v.cell? = none) :
    v.rename copy = v := by
  simp [rename, h]

@[simp] theorem Value.cell?_rename (copy : Cell → Cell) (v : Value) :
    (v.rename copy).cell? = v.cell?.map copy := by
  cases hcell : v.cell? with
  | none => rw [rename_of_none hcell, hcell, Option.map_none]
  | some c => rw [rename_of_cell hcell, Cell.cell?_toValue, Option.map_some]

namespace Content

/-- The values that it holds: fields in the order of their names, elements in order. -/
def values : Content → List Value
  | .object o => o.fields.map Prod.snd
  | .array items => items.toList

/-- The same class and fields, or the same elements, with references carried over. -/
def rename (copy : Cell → Cell) : Content → Content
  | .object o => .object { o with fields := o.fields.map fun f => (f.1, f.2.rename copy) }
  | .array items => .array (items.map (Value.rename copy))

theorem values_rename (copy : Cell → Cell) (k : Content) :
    (k.rename copy).values = k.values.map (Value.rename copy) := by
  cases k with
  | object o => simp [rename, values]
  | array items => simp [rename, values]

end Content

namespace Heap

variable {h g : Heap} {c d : Cell} {k : Content} {v : Value} {roots : List Value}

/-- The object or array with this identity. -/
def content? (h : Heap) : Cell → Option Content
  | .object id => h.objects[id]?.map .object
  | .array id => h.arrays[id]?.map .array

theorem mem_cells_iff : c ∈ h.cells ↔ (h.content? c).isSome := by
  cases c with
  | object id => simp [cells, content?]
  | array id => simp [cells, content?]

theorem nodup_cells (h : Heap) : h.cells.Nodup := by
  refine List.nodup_append.2 ⟨?_, ?_, ?_⟩
  · exact List.Pairwise.map _ (fun _ _ hne heq => hne (Cell.object.inj heq)) List.nodup_range
  · exact List.Pairwise.map _ (fun _ _ hne heq => hne (Cell.array.inj heq)) List.nodup_range
  · rintro _ hobject _ harray rfl
    obtain ⟨_, -, rfl⟩ := List.mem_map.1 hobject
    obtain ⟨_, -, heq⟩ := List.mem_map.1 harray
    cases heq

theorem contents_of_content (hk : h.content? c = some k) : h.contents c = k.values := by
  cases c with
  | object id =>
    obtain ⟨o, ho, rfl⟩ := Option.map_eq_some_iff.1 hk
    simp [contents, object, ho, Content.values]
  | array id =>
    obtain ⟨items, hitems, rfl⟩ := Option.map_eq_some_iff.1 hk
    simp [contents, Heap.items, hitems, Content.values]

/-! ## Reachability -/

/-- The cell can be reached from the values, through fields and elements. -/
inductive Reaches (h : Heap) (roots : List Value) : Cell → Prop where
  | root {v : Value} {c : Cell} : v ∈ roots → v.cell? = some c → Reaches h roots c
  | step {v : Value} {c d : Cell} : Reaches h roots c → v ∈ h.contents c → v.cell? = some d →
      Reaches h roots d

/-- The cell of a walked value, if it is still unseen, comes next, and then its contents. -/
theorem walk_cons_of_mem {unseen : List Cell} {rest : List Value} (hv : v.cell? = some c)
    (hc : c ∈ unseen) : h.walk unseen (v :: rest) =
      c :: h.walk (unseen.erase c) (h.contents c ++ rest) := by
  rw [walk]
  simp only [hv, if_pos hc]

theorem walk_cons_of_not_mem {unseen : List Cell} {rest : List Value}
    (hv : ∀ c ∈ v.cell?, c ∉ unseen) : h.walk unseen (v :: rest) = h.walk unseen rest := by
  rw [walk]
  cases hcell : v.cell? with
  | none => rfl
  | some c => simp only [if_neg (hv c hcell)]

/-- A walk lists unseen cells, each once. -/
theorem walk_sublist_unseen {unseen : List Cell} (hnodup : unseen.Nodup) (work : List Value) :
    (h.walk unseen work).Nodup ∧ ∀ c ∈ h.walk unseen work, c ∈ unseen := by
  induction unseen, work using walk.induct h with
  | case1 unseen => simp [walk]
  | case2 unseen v rest hv ih =>
    rw [walk_cons_of_not_mem (by simp [hv])]
    exact ih hnodup
  | case3 unseen v rest c hv hc ih =>
    obtain ⟨hnodup', hsub⟩ := ih (hnodup.erase c)
    have herase {d : Cell} (hd : d ∈ unseen.erase c) : d ≠ c ∧ d ∈ unseen :=
      hnodup.mem_erase_iff.1 hd
    rw [walk_cons_of_mem hv hc]
    refine ⟨List.nodup_cons.2 ⟨fun hmem => (herase (hsub c hmem)).1 rfl, hnodup'⟩, ?_⟩
    intro d hd
    rcases List.mem_cons.1 hd with rfl | hd
    · exact hc
    · exact (herase (hsub d hd)).2
  | case4 unseen v rest c hv hc ih =>
    rw [walk_cons_of_not_mem (by simpa [hv] using hc)]
    exact ih hnodup

/-- A walk from what can be reached stays within what can be reached. -/
theorem reaches_of_mem_walk {unseen : List Cell} {work : List Value}
    (hwork : ∀ v ∈ work, ∀ c ∈ v.cell?, h.Reaches roots c) (hc : c ∈ h.walk unseen work) :
    h.Reaches roots c := by
  induction unseen, work using walk.induct h with
  | case1 unseen => simp [walk] at hc
  | case2 unseen v rest hv ih =>
    rw [walk_cons_of_not_mem (by simp [hv])] at hc
    exact ih (fun w hw => hwork w (List.mem_cons_of_mem _ hw)) hc
  | case3 unseen v rest d hv hd ih =>
    have hreach : h.Reaches roots d := hwork v List.mem_cons_self d hv
    rw [walk_cons_of_mem hv hd] at hc
    rcases List.mem_cons.1 hc with rfl | hc
    · exact hreach
    · refine ih (fun w hw e he => ?_) hc
      rcases List.mem_append.1 hw with hw | hw
      · exact hreach.step hw he
      · exact hwork w (List.mem_cons_of_mem _ hw) e he
  | case4 unseen v rest d hv hd ih =>
    rw [walk_cons_of_not_mem (by simpa [hv] using hd)] at hc
    exact ih (fun w hw => hwork w (List.mem_cons_of_mem _ hw)) hc

/-- A walk leaves no unseen cell out: neither one that it starts from, nor one that a listed cell
refers to. -/
theorem walk_complete (unseen : List Cell) (work : List Value) :
    (∀ v ∈ work, ∀ c ∈ v.cell?, c ∈ unseen → c ∈ h.walk unseen work) ∧
      ∀ d ∈ h.walk unseen work, ∀ v ∈ h.contents d, ∀ c ∈ v.cell?, c ∈ unseen →
        c ∈ h.walk unseen work := by
  induction unseen, work using walk.induct h with
  | case1 unseen => simp [walk]
  | case2 unseen v rest hv ih =>
    rw [walk_cons_of_not_mem (by simp [hv])]
    refine ⟨fun w hw c hc => ?_, ih.2⟩
    rcases List.mem_cons.1 hw with rfl | hw
    · simp [hv] at hc
    · exact ih.1 w hw c hc
  | case3 unseen v rest d hv hd ih =>
    obtain ⟨hwork, hlisted⟩ := ih
    rw [walk_cons_of_mem hv hd]
    -- Once it is listed, the cell is not unseen any more; of any other nothing has changed.
    have hstill {c : Cell} (hc : c ∈ unseen) (hin : c ≠ d → c ∈ unseen.erase d →
        c ∈ h.walk (unseen.erase d) (h.contents d ++ rest)) :
        c ∈ d :: h.walk (unseen.erase d) (h.contents d ++ rest) := by
      by_cases heq : c = d
      · exact heq ▸ List.mem_cons_self
      · exact List.mem_cons_of_mem _ (hin heq ((List.mem_erase_of_ne heq).2 hc))
    refine ⟨fun w hw c hc hunseen => hstill hunseen fun hne herase => ?_,
      fun e he w hw c hc hunseen => hstill hunseen fun _ herase => ?_⟩
    · rcases List.mem_cons.1 hw with rfl | hw
      · exact absurd (Option.some.inj (hc.symm.trans hv)) hne
      · exact hwork w (List.mem_append_right _ hw) c hc herase
    · rcases List.mem_cons.1 he with rfl | he
      · exact hwork w (List.mem_append_left _ hw) c hc herase
      · exact hlisted e he w hw c hc herase
  | case4 unseen v rest d hv hd ih =>
    rw [walk_cons_of_not_mem (by simpa [hv] using hd)]
    refine ⟨fun w hw c hc hunseen => ?_, ih.2⟩
    rcases List.mem_cons.1 hw with rfl | hw
    · exact absurd (Option.some.inj (hv.symm.trans hc) ▸ hunseen) hd
    · exact ih.1 w hw c hc hunseen

/-- **A walk lists what can be reached**, if everything that can be reached is there. -/
theorem mem_reachable_iff (hwithin : ∀ c, h.Reaches roots c → c ∈ h.cells) :
    c ∈ h.reachable roots ↔ h.Reaches roots c := by
  refine ⟨reaches_of_mem_walk fun v hv c hc => .root hv hc, fun hreach => ?_⟩
  obtain ⟨hroots, hlisted⟩ := h.walk_complete h.cells roots
  induction hreach with
  | root hv hc => exact hroots _ hv _ hc (hwithin _ (.root hv hc))
  | step hreach hv hc ih => exact hlisted _ ih _ hv _ hc (hwithin _ (.step hreach hv hc))

theorem nodup_reachable (h : Heap) (roots : List Value) : (h.reachable roots).Nodup :=
  (walk_sublist_unseen h.nodup_cells roots).1

/-! ## Copies -/

/-- What can be reached from the roots has a copy: `copy` gives each cell an identity of its own,
under which the same lives in the other heap, with references to copies. -/
structure Copies (h : Heap) (roots : List Value) (g : Heap) (copy : Cell → Cell) : Prop where
  content : ∀ {c k}, h.Reaches roots c → h.content? c = some k →
    g.content? (copy c) = some (k.rename copy)
  injective : ∀ {c d}, h.Reaches roots c → h.Reaches roots d → copy c = copy d → c = d

namespace Copies

variable {copy : Cell → Cell}

theorem contents (hcopies : h.Copies roots g copy) (hreach : h.Reaches roots c)
    (hc : c ∈ h.cells) : g.contents (copy c) = (h.contents c).map (Value.rename copy) := by
  obtain ⟨k, hk⟩ := Option.isSome_iff_exists.1 (mem_cells_iff.1 hc)
  rw [contents_of_content (hcopies.content hreach hk), contents_of_content hk,
    Content.values_rename]

theorem mem_cells (hcopies : h.Copies roots g copy) (hreach : h.Reaches roots c)
    (hc : c ∈ h.cells) : copy c ∈ g.cells := by
  obtain ⟨k, hk⟩ := Option.isSome_iff_exists.1 (mem_cells_iff.1 hc)
  exact mem_cells_iff.2 (by rw [hcopies.content hreach hk]; rfl)

/-- The walk over a copy meets the copies, in the same order. What is unseen in either heap may
differ in cells that are not reached. -/
theorem walk (hcopies : h.Copies roots g copy) (hwithin : ∀ c, h.Reaches roots c → c ∈ h.cells)
    {unseen unseen' : List Cell} {work : List Value} (hnodup : unseen.Nodup)
    (hnodup' : unseen'.Nodup) (hwork : ∀ v ∈ work, ∀ c ∈ v.cell?, h.Reaches roots c)
    (hunseen : ∀ c, h.Reaches roots c → (copy c ∈ unseen' ↔ c ∈ unseen)) :
    g.walk unseen' (work.map (Value.rename copy)) = (h.walk unseen work).map copy := by
  induction unseen, work using walk.induct h generalizing unseen' with
  | case1 unseen => simp [Heap.walk]
  | case2 unseen v rest hv ih =>
    rw [List.map_cons, walk_cons_of_not_mem (by simp [hv]), walk_cons_of_not_mem (by simp [hv])]
    exact ih hnodup hnodup' (fun w hw => hwork w (List.mem_cons_of_mem _ hw)) hunseen
  | case3 unseen v rest d hv hd ih =>
    have hreach : h.Reaches roots d := hwork v List.mem_cons_self d hv
    rw [List.map_cons, walk_cons_of_mem hv hd, List.map_cons,
      walk_cons_of_mem (by rw [Value.cell?_rename, hv, Option.map_some])
        ((hunseen d hreach).2 hd),
      hcopies.contents hreach (hwithin d hreach), ← List.map_append]
    refine congrArg _ (ih (hnodup.erase d) (hnodup'.erase _) ?_ fun c hc => ?_)
    · intro w hw c hc
      rcases List.mem_append.1 hw with hw | hw
      · exact hreach.step hw hc
      · exact hwork w (List.mem_cons_of_mem _ hw) c hc
    · have hne : copy c ≠ copy d ↔ c ≠ d :=
        not_congr ⟨hcopies.injective hc hreach, congrArg copy⟩
      rw [hnodup'.mem_erase_iff, hnodup.mem_erase_iff, hne, hunseen c hc]
  | case4 unseen v rest d hv hd ih =>
    have hreach : h.Reaches roots d := hwork v List.mem_cons_self d hv
    have hd' : copy d ∉ unseen' := fun hmem => hd ((hunseen d hreach).1 hmem)
    rw [List.map_cons, walk_cons_of_not_mem (by simpa [hv] using hd'),
      walk_cons_of_not_mem (by simpa [hv] using hd)]
    exact ih hnodup hnodup' (fun w hw => hwork w (List.mem_cons_of_mem _ hw)) hunseen

theorem reachable (hcopies : h.Copies roots g copy)
    (hwithin : ∀ c, h.Reaches roots c → c ∈ h.cells) :
    g.reachable (roots.map (Value.rename copy)) = (h.reachable roots).map copy :=
  hcopies.walk hwithin h.nodup_cells g.nodup_cells (fun _ hv _ hc => .root hv hc) fun c hreach =>
    iff_of_true (hcopies.mem_cells hreach (hwithin c hreach)) (hwithin c hreach)

/-- The graphs correspond to each other cell by cell. -/
theorem bijOn (hcopies : h.Copies roots g copy)
    (hwithin : ∀ c, h.Reaches roots c → c ∈ h.cells) :
    Set.BijOn copy { c | h.Reaches roots c }
      { c | g.Reaches (roots.map (Value.rename copy)) c } := by
  refine ⟨fun c hreach => ?_, fun c hc d hd => hcopies.injective hc hd, fun c hreach => ?_⟩
  · show g.Reaches (roots.map (Value.rename copy)) (copy c)
    induction hreach with
    | root hv hc =>
      exact .root (List.mem_map_of_mem hv) (by rw [Value.cell?_rename, hc, Option.map_some])
    | step hreach hv hd ih =>
      refine ih.step ?_ (by rw [Value.cell?_rename, hd, Option.map_some])
      rw [hcopies.contents hreach (hwithin _ hreach)]
      exact List.mem_map_of_mem hv
  · induction hreach with
    | root hv hc =>
      obtain ⟨w, hw, rfl⟩ := List.mem_map.1 hv
      rw [Value.cell?_rename] at hc
      obtain ⟨d, hd, rfl⟩ := Option.map_eq_some_iff.1 hc
      exact ⟨d, .root hw hd, rfl⟩
    | step _ hv hd ih =>
      obtain ⟨c, hreach, rfl⟩ := ih
      replace hreach : h.Reaches roots c := hreach
      rw [hcopies.contents hreach (hwithin c hreach)] at hv
      obtain ⟨w, hw, rfl⟩ := List.mem_map.1 hv
      rw [Value.cell?_rename] at hd
      obtain ⟨e, he, rfl⟩ := Option.map_eq_some_iff.1 hd
      exact ⟨e, hreach.step hw he, rfl⟩

end Copies

end Heap

end Resumable
