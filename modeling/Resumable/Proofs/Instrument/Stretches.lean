import Resumable.Proofs.Instrument.Positions
import Resumable.Proofs.Instrument.Ranges

/-!
# Where the stretches lie

The stretch of a point lies in the chunk of its call, in front of the call if that is repeated
(`Arranged.stretch_at`). So stretches follow one another, no instruction of the method stands in one,
and no range of the method ends in one. That is what cutting needs: around the instructions that are
kept, the handlers that are cut cover what the handlers of the method covered
(`Arranged.covers_pieces`), and they cover nothing of any stretch (`Arranged.clear`).
-/

namespace Resumable

open List (Forall₂)

namespace Analysed

variable {a : Analysed} {plan : MethodPlan} {m : Method} {chunks : List (List Instr)} {i j k : Nat}
  {p : SuspensionPoint} {l l' : Label}

/-- The ranges from the label in front of each point to the one behind it. -/
def stretches (a : Analysed) (plan : MethodPlan) : List (Label × Label) :=
  (List.range plan.points.length).map fun k =>
    (a.method.freshLabel (4 + plan.points.length + k),
      a.method.freshLabel (4 + plan.points.length + plan.points.length + k))

theorem zip_eq_stretches (a : Analysed) (plan : MethodPlan) :
    (BodyLabels.forMethod a.method plan.points.length).before.zip
      (BodyLabels.forMethod a.method plan.points.length).after = a.stretches plan := by
  rw [Method.forMethod_eq]
  show ((List.range _).map _).zip ((List.range _).map _) = _
  rw [List.zip_map', stretches]

/-- A method that has been transformed, and all that is needed to find one's way in it. -/
structure Arranged (a : Analysed) (plan : MethodPlan) (m : Method) (chunks : List (List Instr)) :
    Prop where
  layout : a.Layout plan m chunks
  sorted : plan.points.Pairwise (·.index < ·.index)
  planned : ∀ p ∈ plan.points, a.Planned p
  labels : a.method.HasLabels (4 + 3 * plan.points.length)
  keeps : ∀ {i x}, a.method.code[i]? = some x → (∀ type, x ≠ .type .new type) →
    x ≠ .simple .dup → (∀ callee, x ≠ .invoke .invokestatic callee) → a.Keeps plan i

namespace Arranged

open Layout (startOf placeOf stop)

theorem keeps_label (h : a.Arranged plan m chunks) (hi : a.method.code[i]? = some (.label l)) :
    a.Keeps plan i :=
  h.keeps hi nofun nofun nofun

theorem index_lt (h : a.Arranged plan m chunks) (hp : p ∈ plan.points) :
    p.index < a.method.code.length := by
  obtain ⟨op, callee, f, hcode, -⟩ := h.planned p hp
  exact (List.getElem?_eq_some_iff.1 hcode).1

theorem placeOf_lt_stop (h : a.Arranged plan m chunks) (hi : i < a.method.code.length) :
    placeOf chunks i < stop chunks := by
  have hlen : chunks.length = a.method.code.length := by
    rw [← h.layout.chunk.length_eq, List.length_zipIdx]
  have := Layout.startOf_mono chunks (Nat.succ_le_of_lt (hlen ▸ hi))
  rw [Nat.succ_eq_add_one, Layout.startOf_succ, Layout.startOf_length] at this
  omega

/-- No label stands where a point is. -/
theorem not_label_at_point (h : a.Arranged plan m chunks) (hp : p ∈ plan.points) :
    a.method.code[p.index]? ≠ some (.label l) := by
  obtain ⟨op, callee, f, hcode, -⟩ := h.planned p hp
  rw [hcode]
  nofun

/-- Labels of the method are found where the instructions that place them have gone. -/
theorem position_label (h : a.Arranged plan m chunks) (hl : l ∈ a.method.labels) :
    labelPosition? m.code l = (labelPosition? a.method.code l).map (placeOf chunks) :=
  h.layout.labelPosition?_eq h.labels (fun _ _ hi => h.keeps_label hi) hl

/-- Where a label of the method is found, there it was in the method. -/
theorem exists_position (h : a.Arranged plan m chunks) (hl : l ∈ a.method.labels) {q : Nat}
    (hq : labelPosition? m.code l = some q) :
    ∃ i, labelPosition? a.method.code l = some i ∧ q = placeOf chunks i ∧ a.Keeps plan i := by
  rw [h.position_label hl] at hq
  obtain ⟨i, hi, rfl⟩ := Option.map_eq_some_iff.1 hq
  exact ⟨i, hi, rfl, h.keeps_label (getElem?_of_labelPosition? hi)⟩

/-- A stretch fills the chunk of its call up to the call, if the call is repeated, and up to the end
otherwise. -/
theorem stretch_at (h : a.Arranged plan m chunks) (hp : plan.points[k]? = some p) :
    ∃ last, labelPosition? m.code (a.method.freshLabel (4 + plan.points.length + k)) =
        some (startOf chunks p.index) ∧
      labelPosition? m.code
          (a.method.freshLabel (4 + plan.points.length + plan.points.length + k)) = some last ∧
      startOf chunks p.index < last ∧ last ≤ placeOf chunks p.index ∧
      (a.Keeps plan p.index → last < placeOf chunks p.index) := by
  have hmem := List.mem_of_getElem? hp
  obtain ⟨-, hbefore, -, hafter⟩ :=
    h.layout.positions_of_point h.sorted h.labels hp (h.index_lt hmem)
  obtain ⟨op, callee, f, hcode, -⟩ := h.planned p hmem
  obtain ⟨c, hc, hchunk, -⟩ := h.layout.exists_chunk hcode
  have hlen : (a.stretch plan k p).length =
      (Layout.saving a plan k p).length + p.restoreCode.length + 2 := by
    rw [Layout.stretch_eq, List.length_append, Layout.resuming]
    simp only [List.length_cons, List.length_append, List.length_nil]
    omega
  have hreach := Layout.startOf_add hc
  refine ⟨_, hbefore, hafter, by omega, ?_, fun hkeeps => ?_⟩
  · obtain ⟨body, rfl, -⟩ := Layout.chunk_of_point h.sorted hp rfl hchunk
    rw [List.length_append] at hreach
    omega
  · -- The call itself comes behind the stretch.
    obtain ⟨before, lead, rfl, -, hfront⟩ := Layout.chunk_of_keeps hkeeps hchunk
    rw [List.length_append, List.length_append, List.length_singleton] at hreach
    rcases hfront with ⟨hnot, -⟩ | ⟨k', p', hp', hindex, -, rfl⟩
    · exact absurd rfl (hnot p hmem)
    · obtain ⟨rfl, rfl⟩ := Layout.number_unique h.sorted hp hp' hindex
      omega

theorem exists_of_mem_stretches {s : Label × Label} (hs : s ∈ a.stretches plan) :
    ∃ k p, plan.points[k]? = some p ∧ s = (a.method.freshLabel (4 + plan.points.length + k),
      a.method.freshLabel (4 + plan.points.length + plan.points.length + k)) := by
  obtain ⟨k, hk, rfl⟩ := List.mem_map.1 hs
  exact ⟨k, _, List.getElem?_eq_getElem (List.mem_range.1 hk), rfl⟩

theorem upright_stretch (h : a.Arranged plan m chunks) {s : Label × Label}
    (hs : s ∈ a.stretches plan) : Upright m.code s := by
  obtain ⟨k, p, hp, rfl⟩ := exists_of_mem_stretches hs
  obtain ⟨last, hbefore, hafter, hlt, -⟩ := h.stretch_at hp
  exact ⟨_, last, hbefore, hafter, Nat.le_of_lt hlt⟩

/-- No label of the method has gone into a stretch. -/
theorem outside_label (h : a.Arranged plan m chunks) (hl : l ∈ a.method.labels)
    {s : Label × Label} (hs : s ∈ a.stretches plan) : Outside m.code s l := by
  obtain ⟨k, p, hp, rfl⟩ := exists_of_mem_stretches hs
  obtain ⟨last, hbefore, hafter, hlt, hle, -⟩ := h.stretch_at hp
  intro q first last' hq hfirst hlast
  cases hbefore.symm.trans hfirst
  cases hafter.symm.trans hlast
  obtain ⟨i, hi, rfl, hkeeps⟩ := h.exists_position hl hq
  rcases Nat.lt_trichotomy i p.index with hip | rfl | hip
  · left
    have := Layout.startOf_mono chunks (Nat.succ_le_of_lt hip)
    rw [Nat.succ_eq_add_one, Layout.startOf_succ] at this
    omega
  · exact absurd (getElem?_of_labelPosition? hi) (h.not_label_at_point (List.mem_of_getElem? hp))
  · right
    have := h.layout.placeOf_lt hkeeps hip
    omega

/-- A stretch lies in front of all later ones. -/
theorem pairwise_stretches (h : a.Arranged plan m chunks) :
    (a.stretches plan).Pairwise fun s t => Outside m.code t s.1 ∧ Outside m.code t s.2 := by
  refine List.pairwise_map.2 (List.pairwise_lt_range.imp_of_mem ?_)
  intro k k' hk hk' hlt
  have hp := List.getElem?_eq_getElem (List.mem_range.1 hk)
  have hp' := List.getElem?_eq_getElem (List.mem_range.1 hk')
  obtain ⟨last, hbefore, hafter, hbetween, hle, -⟩ := h.stretch_at hp
  obtain ⟨last', hbefore', hafter', -⟩ := h.stretch_at hp'
  have hindex := List.pairwise_iff_getElem.1 h.sorted k k' (List.mem_range.1 hk)
    (List.mem_range.1 hk') hlt
  have hstart := Layout.startOf_mono chunks (Nat.succ_le_of_lt hindex)
  rw [Nat.succ_eq_add_one, Layout.startOf_succ] at hstart
  constructor
  · intro q first last'' hq hfirst hlast
    cases hbefore.symm.trans hq
    cases hbefore'.symm.trans hfirst
    omega
  · intro q first last'' hq hfirst hlast
    cases hafter.symm.trans hq
    cases hbefore'.symm.trans hfirst
    omega

/-- No instruction of the method has gone into a stretch. -/
theorem not_covers_placeOf (h : a.Arranged plan m chunks) (hkeeps : a.Keeps plan i)
    {s : Label × Label} (hs : s ∈ a.stretches plan) : ¬ Covers m.code s (placeOf chunks i) := by
  obtain ⟨k, p, hp, rfl⟩ := exists_of_mem_stretches hs
  obtain ⟨last, hbefore, hafter, hlt, hle, hcall⟩ := h.stretch_at hp
  rintro ⟨first, last', hfirst, hlast, hlow, hhigh⟩
  cases hbefore.symm.trans hfirst
  cases hafter.symm.trans hlast
  rcases Nat.lt_trichotomy i p.index with hip | rfl | hip
  · have := Layout.startOf_mono chunks (Nat.succ_le_of_lt hip)
    rw [Nat.succ_eq_add_one, Layout.startOf_succ] at this
    omega
  · have := hcall hkeeps
    omega
  · have := h.layout.placeOf_lt hkeeps hip
    omega

/-! ## Ranges of the method -/

/-- A range of the method covers an instruction wherever it has gone. -/
theorem covers_placeOf (h : a.Arranged plan m chunks) (hl : l ∈ a.method.labels)
    (hl' : l' ∈ a.method.labels) :
    Covers m.code (l, l') (placeOf chunks i) ↔ Covers a.method.code (l, l') i := by
  have hlt {j : Nat} (hj : a.Keeps plan j) : placeOf chunks i < placeOf chunks j ↔ i < j := by
    constructor
    · intro hij
      refine Nat.lt_of_not_le fun hle => ?_
      have := Layout.placeOf_mono chunks hle
      omega
    · exact h.layout.placeOf_lt hj
  constructor
  · rintro ⟨q, q', hq, hq', hlow, hhigh⟩
    obtain ⟨j, hj, rfl, hkeepsj⟩ := h.exists_position hl hq
    obtain ⟨j', hj', rfl, hkeepsj'⟩ := h.exists_position hl' hq'
    refine ⟨j, j', hj, hj', ?_, (hlt hkeepsj').1 hhigh⟩
    exact Nat.le_of_not_lt fun hij => Nat.not_lt.2 hlow ((hlt hkeepsj).2 hij)
  · rintro ⟨j, j', hj, hj', hlow, hhigh⟩
    refine ⟨placeOf chunks j, placeOf chunks j', ?_, ?_, Layout.placeOf_mono chunks hlow, ?_⟩
    · rw [h.position_label hl, hj]
      rfl
    · rw [h.position_label hl', hj']
      rfl
    · exact (hlt (h.keeps_label (getElem?_of_labelPosition? hj'))).2 hhigh

variable {ranges : List (Label × Label)}

/-- What is left of a range of the method covers the same instructions. -/
theorem covers_pieces (h : a.Arranged plan m chunks)
    (hcuts : Cuts m.code (a.stretches plan) [(l, l')] ranges) (hl : l ∈ a.method.labels)
    (hl' : l' ∈ a.method.labels) (hkeeps : a.Keeps plan i) :
    (∃ range ∈ ranges, Covers m.code range (placeOf chunks i)) ↔
      Covers a.method.code (l, l') i := by
  rw [← h.covers_placeOf hl hl']
  constructor
  · rintro ⟨range, hrange, hcovers⟩
    obtain ⟨whole, hwhole, hcovers⟩ := hcuts.shrinks range hrange _ hcovers
    rwa [List.mem_singleton.1 hwhole] at hcovers
  · intro hcovers
    exact hcuts.keeps _ List.mem_cons_self _ hcovers fun s hs => h.not_covers_placeOf hkeeps hs

/-- What is left of a range of the method covers nothing of any stretch. -/
theorem clear (h : a.Arranged plan m chunks)
    (hcuts : Cuts m.code (a.stretches plan) [(l, l')] ranges) (hl : l ∈ a.method.labels)
    (hl' : l' ∈ a.method.labels) {s : Label × Label} (hs : s ∈ a.stretches plan) {q : Nat}
    (hq : Covers m.code s q) {range : Label × Label} (hrange : range ∈ ranges) :
    ¬ Covers m.code range q := by
  refine hcuts.clear (fun t ht whole hwhole => ?_) h.pairwise_stretches s hs q hq range hrange
  rw [List.mem_singleton.1 hwhole]
  exact ⟨h.outside_label hl ht, h.outside_label hl' ht⟩

end Arranged

end Analysed

namespace Transforms

variable {owner : String} {m m' : Method} {a : Analysed} {plan : MethodPlan}

theorem arranged (h : Transforms owner m a plan m') (hpoints : plan.points ≠ [])
    (hlabels : m.HasLabels (4 + 3 * plan.points.length)) :
    ∃ chunks, a.Arranged plan m' chunks := by
  obtain ⟨chunks, hlayout⟩ := h.layout hpoints
  obtain ⟨-, hmethod, -⟩ := h.analyzed
  exact ⟨chunks, hlayout, h.sorted, fun p hp => (h.point hp).1, hmethod ▸ hlabels, h.keeps⟩

/-- The handlers of a method with points: one for the signal, the pieces of each handler of the
method, and one for everything else. -/
theorem exists_pieces (h : Transforms owner m a plan m') (hpoints : plan.points ≠ [])
    (hlabels : m.HasLabels (4 + 3 * plan.points.length)) :
    ∃ pieces, m'.handlers = a.signalHandler :: pieces.flatten ++ [a.otherHandler] ∧
      Forall₂ (fun old new => ∃ ranges,
        Cuts m'.code (a.stretches plan) [(old.start, old.stop)] ranges ∧
        new = ranges.map fun range => { old with start := range.1, stop := range.2 })
        a.method.handlers pieces := by
  obtain ⟨chunks, harranged⟩ := h.arranged hpoints hlabels
  obtain ⟨first, rest, -, _, _, hwrites⟩ := h.exists_transformed hpoints
  obtain ⟨_, _, cut, _, _, _, _, -, -, hcut, -, hm⟩ := Analysed.transformed_cases hwrites
  obtain ⟨pieces, hpieces, hall⟩ := Analysed.pieces_of_cutHandlers hcut.writes fun s hs => by
    rw [Analysed.zip_eq_stretches] at hs
    exact harranged.upright_stretch hs
  rw [Analysed.zip_eq_stretches] at hall
  refine ⟨pieces, ?_, hall⟩
  rw [← hpieces]
  exact congrArg Method.handlers hm

end Transforms

end Resumable
