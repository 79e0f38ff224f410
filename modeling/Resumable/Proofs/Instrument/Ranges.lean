import Resumable.Proofs.Instrument.Layout

/-!
# Cutting ranges

A range of instructions runs from one label to another. To cut it around a stretch is to take the
stretch out of what it covers and nothing else; `Cuts` says so of many ranges and many stretches at
once. As long as no range ends within a stretch, nothing covers any part of a stretch afterwards
(`Cuts.clear`).
-/

namespace Resumable

open List (Forall₂)

/-- The label does not stand in the stretch or at one of its ends. -/
def Outside (code : List Instr) (stretch : Label × Label) (l : Label) : Prop :=
  ∀ q first last, labelPosition? code l = some q → labelPosition? code stretch.1 = some first →
    labelPosition? code stretch.2 = some last → q < first ∨ last < q

/-- The pieces are what is left of the ranges when the stretches have been taken out of them. -/
structure Cuts (code : List Instr) (stretches ranges pieces : List (Label × Label)) : Prop where
  shrinks : ∀ piece ∈ pieces, ∀ q, Covers code piece q → ∃ range ∈ ranges, Covers code range q
  keeps : ∀ range ∈ ranges, ∀ q, Covers code range q → (∀ s ∈ stretches, ¬ Covers code s q) →
    ∃ piece ∈ pieces, Covers code piece q
  upright : (∀ range ∈ ranges, Upright code range) → ∀ piece ∈ pieces, Upright code piece
  starts : ∀ piece ∈ pieces, (∃ range ∈ ranges, piece.1 = range.1) ∨ ∃ s ∈ stretches, piece.1 = s.2
  stops : ∀ piece ∈ pieces, (∃ range ∈ ranges, piece.2 = range.2) ∨ ∃ s ∈ stretches, piece.2 = s.1
  clear : (∀ s ∈ stretches, ∀ range ∈ ranges, Outside code s range.1 ∧ Outside code s range.2) →
    stretches.Pairwise (fun s t => Outside code t s.1 ∧ Outside code t s.2) →
    ∀ s ∈ stretches, ∀ q, Covers code s q → ∀ piece ∈ pieces, ¬ Covers code piece q

namespace Cuts

variable {code : List Instr} {stretches stretches' ranges pieces pieces' : List (Label × Label)}

theorem nil (code : List Instr) (ranges : List (Label × Label)) : Cuts code [] ranges ranges where
  shrinks piece hpiece _ hq := ⟨piece, hpiece, hq⟩
  keeps range hrange _ hq _ := ⟨range, hrange, hq⟩
  upright h := h
  starts piece hpiece := .inl ⟨piece, hpiece, rfl⟩
  stops piece hpiece := .inl ⟨piece, hpiece, rfl⟩
  clear _ _ _ hs := by cases hs

/-- First some stretches are taken out, and then others. -/
theorem append (h : Cuts code stretches ranges pieces) (h' : Cuts code stretches' pieces pieces') :
    Cuts code (stretches ++ stretches') ranges pieces' where
  shrinks piece hpiece q hq := by
    obtain ⟨mid, hmid, hq⟩ := h'.shrinks piece hpiece q hq
    exact h.shrinks mid hmid q hq
  keeps range hrange q hq hout := by
    obtain ⟨mid, hmid, hq⟩ := h.keeps range hrange q hq fun s hs =>
      hout s (List.mem_append_left _ hs)
    exact h'.keeps mid hmid q hq fun s hs => hout s (List.mem_append_right _ hs)
  upright hup := h'.upright (h.upright hup)
  starts piece hpiece := by
    rcases h'.starts piece hpiece with ⟨mid, hmid, heq⟩ | ⟨s, hs, heq⟩
    · rcases h.starts mid hmid with ⟨range, hrange, heq'⟩ | ⟨s, hs, heq'⟩
      · exact .inl ⟨range, hrange, heq.trans heq'⟩
      · exact .inr ⟨s, List.mem_append_left _ hs, heq.trans heq'⟩
    · exact .inr ⟨s, List.mem_append_right _ hs, heq⟩
  stops piece hpiece := by
    rcases h'.stops piece hpiece with ⟨mid, hmid, heq⟩ | ⟨s, hs, heq⟩
    · rcases h.stops mid hmid with ⟨range, hrange, heq'⟩ | ⟨s, hs, heq'⟩
      · exact .inl ⟨range, hrange, heq.trans heq'⟩
      · exact .inr ⟨s, List.mem_append_left _ hs, heq.trans heq'⟩
    · exact .inr ⟨s, List.mem_append_right _ hs, heq⟩
  clear hends hpair := by
    obtain ⟨hpair, hpair', hcross⟩ := List.pairwise_append.1 hpair
    have hfirst := h.clear (fun s hs => hends s (List.mem_append_left _ hs)) hpair
    -- The new ends are ends of stretches, and those lie outside all later stretches.
    have hmid : ∀ s ∈ stretches', ∀ mid ∈ pieces, Outside code s mid.1 ∧ Outside code s mid.2 := by
      intro s hs mid hmid
      constructor
      · rcases h.starts mid hmid with ⟨range, hrange, heq⟩ | ⟨t, ht, heq⟩
        · rw [heq]
          exact (hends s (List.mem_append_right _ hs) range hrange).1
        · rw [heq]
          exact (hcross t ht s hs).2
      · rcases h.stops mid hmid with ⟨range, hrange, heq⟩ | ⟨t, ht, heq⟩
        · rw [heq]
          exact (hends s (List.mem_append_right _ hs) range hrange).2
        · rw [heq]
          exact (hcross t ht s hs).1
    intro s hs q hq piece hpiece hcovers
    rcases List.mem_append.1 hs with hs | hs
    · obtain ⟨mid, hmid, hcovers⟩ := h'.shrinks piece hpiece q hcovers
      exact hfirst s hs q hq mid hmid hcovers
    · exact h'.clear hmid hpair' s hs q hq piece hpiece hcovers

/-- Each range is cut for itself. -/
theorem flatten {cut : List (List (Label × Label))}
    (h : Forall₂ (fun range pieces => Cuts code stretches [range] pieces) ranges cut) :
    Cuts code stretches ranges cut.flatten := by
  have hof {piece : Label × Label} (hpiece : piece ∈ cut.flatten) :
      ∃ range ∈ ranges, ∃ pieces, piece ∈ pieces ∧ Cuts code stretches [range] pieces := by
    obtain ⟨pieces, hpieces, hpiece⟩ := List.mem_flatten.1 hpiece
    obtain ⟨range, hrange, hcuts⟩ := exists_left_of_mem h hpieces
    exact ⟨range, hrange, pieces, hpiece, hcuts⟩
  refine ⟨?_, ?_, ?_, ?_, ?_, ?_⟩
  · intro piece hpiece q hq
    obtain ⟨range, hrange, pieces, hpiece, hcuts⟩ := hof hpiece
    obtain ⟨range', hrange', hq⟩ := hcuts.shrinks piece hpiece q hq
    rw [List.mem_singleton.1 hrange'] at hq
    exact ⟨range, hrange, hq⟩
  · intro range hrange q hq hout
    obtain ⟨pieces, hpieces, hcuts⟩ := exists_right_of_mem h hrange
    obtain ⟨piece, hpiece, hq⟩ := hcuts.keeps range List.mem_cons_self q hq hout
    exact ⟨piece, List.mem_flatten.2 ⟨pieces, hpieces, hpiece⟩, hq⟩
  · intro hup piece hpiece
    obtain ⟨range, hrange, pieces, hpiece, hcuts⟩ := hof hpiece
    exact hcuts.upright (by simpa using hup range hrange) piece hpiece
  · intro piece hpiece
    obtain ⟨range, hrange, pieces, hpiece, hcuts⟩ := hof hpiece
    rcases hcuts.starts piece hpiece with ⟨range', hrange', heq⟩ | hs
    · rw [List.mem_singleton.1 hrange'] at heq
      exact .inl ⟨range, hrange, heq⟩
    · exact .inr hs
  · intro piece hpiece
    obtain ⟨range, hrange, pieces, hpiece, hcuts⟩ := hof hpiece
    rcases hcuts.stops piece hpiece with ⟨range', hrange', heq⟩ | hs
    · rw [List.mem_singleton.1 hrange'] at heq
      exact .inl ⟨range, hrange, heq⟩
    · exact .inr hs
  · intro hends hpair s hs q hq piece hpiece
    obtain ⟨range, hrange, pieces, hpiece, hcuts⟩ := hof hpiece
    exact hcuts.clear (fun t ht => by simpa using hends t ht range hrange) hpair s hs q hq piece
      hpiece

end Cuts

namespace Analysed

variable {a : Analysed} {code : List Instr} {before after : Label} {range : Label × Label}
  {stretches ranges pieces : List (Label × Label)}

/-- A range is cut in two if the stretch lies inside it, and stays as it is otherwise. -/
theorem cutRange_cases (h : Writes (a.cutRange code before after range) pieces) :
    ∃ first last start, labelPosition? code before = some first ∧
      labelPosition? code after = some last ∧ labelPosition? code range.1 = some start ∧
      (first ≤ start ∧ pieces = [range] ∨
        start < first ∧ ∃ stop, labelPosition? code range.2 = some stop ∧
          (stop ≤ last ∧ pieces = [range] ∨
            last < stop ∧ pieces = [(range.1, before), (after, range.2)])) := by
  have hposition {l : Label} {q : Nat} (h : Writes (a.cutPlace code l) q) :
      labelPosition? code l = some q := by
    unfold cutPlace at h
    split at h
    · rw [h.pure]
      assumption
    · exact (Writes.not_throw h).elim
  unfold cutRange at h
  obtain ⟨first, hfirst, h⟩ := h.bind
  obtain ⟨last, hlast, h⟩ := h.bind
  dsimp only at h
  obtain ⟨start, hstart, h⟩ := h.bind
  refine ⟨first, last, start, hposition hfirst, hposition hlast, hposition hstart, ?_⟩
  split at h
  · rename_i hlt
    obtain ⟨stop, hstop, h⟩ := h.bind
    refine .inr ⟨hlt, stop, hposition hstop, ?_⟩
    split at h
    · rename_i hlt'
      obtain ⟨_, -, h⟩ := h.bind
      exact .inr ⟨hlt', h.pure⟩
    · rename_i hge
      exact .inl ⟨Nat.le_of_not_lt hge, h.pure⟩
  · rename_i hge
    exact .inl ⟨Nat.le_of_not_lt hge, h.pure⟩

/-- A stretch has been taken out of a range. -/
theorem cuts_of_cutRange (h : Writes (a.cutRange code before after range) pieces)
    (hstretch : Upright code (before, after)) : Cuts code [(before, after)] [range] pieces := by
  obtain ⟨first, last, hfirst, hlast, hle⟩ := hstretch
  obtain ⟨first', last', start, hfirst', hlast', hstart, hcases⟩ := cutRange_cases h
  cases hfirst.symm.trans hfirst'
  cases hlast.symm.trans hlast'
  -- A range that stays whole covers nothing of a stretch in which it does not end.
  have hwhole (hpieces : pieces = [range]) (hside : first ≤ start ∨
      ∃ stop, labelPosition? code range.2 = some stop ∧ stop ≤ last) :
      Cuts code [(before, after)] [range] pieces := by
    rw [hpieces]
    refine ⟨fun piece hpiece q hq => ⟨piece, hpiece, hq⟩, fun r hr q hq _ => ⟨r, hr, hq⟩, id,
      fun piece hpiece => .inl ⟨piece, hpiece, rfl⟩, fun piece hpiece => .inl ⟨piece, hpiece, rfl⟩,
      ?_⟩
    intro hends _ s hs q hq piece hpiece hcovers
    obtain ⟨hout, hout'⟩ := hends s hs range List.mem_cons_self
    rw [List.mem_singleton.1 hs] at hq hout hout'
    rw [List.mem_singleton.1 hpiece] at hcovers
    obtain ⟨f, l, hf, hl, hfq, hql⟩ := hq
    obtain ⟨s', e', hs', he', hsq, hqe⟩ := hcovers
    cases hf.symm.trans hfirst
    cases hl.symm.trans hlast
    cases hs'.symm.trans hstart
    have hside' := hout start first last hstart hfirst hlast
    rcases hside with hside | ⟨stop, hstop, hside⟩
    · omega
    · rw [he', Option.some.injEq] at hstop
      have := hout' e' first last he' hfirst hlast
      omega
  rcases hcases with ⟨hside, hpieces⟩ | ⟨hlt, stop, hstop, ⟨hside, hpieces⟩ | ⟨hlt', hpieces⟩⟩
  · exact hwhole hpieces (.inl hside)
  · exact hwhole hpieces (.inr ⟨stop, hstop, hside⟩)
  · -- The two pieces cover what lies in front of the stretch and what lies behind it.
    have hfront {q : Nat} : Covers code (range.1, before) q ↔ start ≤ q ∧ q < first := by
      constructor
      · rintro ⟨s, e, hs, he, hq⟩
        cases hs.symm.trans hstart
        cases he.symm.trans hfirst
        exact hq
      · exact fun hq => ⟨start, first, hstart, hfirst, hq⟩
    have hback {q : Nat} : Covers code (after, range.2) q ↔ last ≤ q ∧ q < stop := by
      constructor
      · rintro ⟨s, e, hs, he, hq⟩
        cases hs.symm.trans hlast
        cases he.symm.trans hstop
        exact hq
      · exact fun hq => ⟨last, stop, hlast, hstop, hq⟩
    have hrange {q : Nat} : Covers code range q ↔ start ≤ q ∧ q < stop := by
      constructor
      · rintro ⟨s, e, hs, he, hq⟩
        cases hs.symm.trans hstart
        cases he.symm.trans hstop
        exact hq
      · exact fun hq => ⟨start, stop, hstart, hstop, hq⟩
    have hgap {q : Nat} : Covers code (before, after) q ↔ first ≤ q ∧ q < last := by
      constructor
      · rintro ⟨s, e, hs, he, hq⟩
        cases hs.symm.trans hfirst
        cases he.symm.trans hlast
        exact hq
      · exact fun hq => ⟨first, last, hfirst, hlast, hq⟩
    rw [hpieces]
    refine ⟨?_, ?_, ?_, ?_, ?_, ?_⟩
    · simp only [List.mem_cons, List.not_mem_nil, or_false, forall_eq_or_imp, forall_eq, hfront,
        hback, exists_eq_left, hrange]
      constructor <;> intros <;> omega
    · simp only [List.mem_cons, List.not_mem_nil, or_false, forall_eq, hrange, hgap,
        exists_eq_or_imp, hfront, exists_eq_left, hback]
      intros
      omega
    · intro _ piece hpiece
      simp only [List.mem_cons, List.not_mem_nil, or_false] at hpiece
      rcases hpiece with rfl | rfl
      · exact ⟨start, first, hstart, hfirst, Nat.le_of_lt hlt⟩
      · exact ⟨last, stop, hlast, hstop, Nat.le_of_lt hlt'⟩
    · simp
    · simp
    · simp only [List.mem_cons, List.not_mem_nil, or_false, forall_eq, hgap, forall_eq_or_imp,
        hfront, hback]
      intros
      omega

/-- All stretches have been taken out of some ranges. -/
theorem cuts_of_cutRanges (h : Writes (a.cutRanges code stretches ranges) pieces)
    (hstretches : ∀ s ∈ stretches, Upright code s) : Cuts code stretches ranges pieces := by
  induction stretches generalizing ranges with
  | nil =>
    rw [cutRanges] at h
    rw [h.pure]
    exact .nil code ranges
  | cons s stretches ih =>
    obtain ⟨before, after⟩ := s
    rw [cutRanges] at h
    obtain ⟨cut, hcut, h⟩ := h.bind
    have hfirst : Cuts code [(before, after)] ranges cut.flatten :=
      .flatten (hcut.mapM.imp fun _ _ hone =>
        cuts_of_cutRange hone (hstretches _ List.mem_cons_self))
    exact hfirst.append (ih h fun s hs => hstretches s (List.mem_cons_of_mem _ hs))

/-- Every handler of the method has been cut for itself. -/
theorem pieces_of_cutHandlers {labels : BodyLabels} {cut : List Handler}
    (h : Writes (a.cutHandlers code labels) cut)
    (hstretches : ∀ s ∈ labels.before.zip labels.after, Upright code s) :
    ∃ pieces, cut = pieces.flatten ∧ Forall₂ (fun old new => ∃ ranges,
      Cuts code (labels.before.zip labels.after) [(old.start, old.stop)] ranges ∧
      new = ranges.map fun range => { old with start := range.1, stop := range.2 })
      a.method.handlers pieces := by
  unfold cutHandlers at h
  obtain ⟨pieces, hpieces, h⟩ := h.bind
  refine ⟨pieces, h.pure, hpieces.mapM.imp fun old new hnew => ?_⟩
  obtain ⟨ranges, hranges, hnew⟩ := hnew.bind
  exact ⟨ranges, cuts_of_cutRanges hranges hstretches, hnew.pure⟩

end Analysed

end Resumable
