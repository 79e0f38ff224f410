import Mathlib

/-!
# Ways without a cycle

Names that lead to names: a class to its ancestor, to what it implements. If no name leads back to
itself, every step leaves fewer names ahead (`ahead_lt`), so a search that makes as many steps as there
are names comes to the end of every way. Two names that lead to each other are the same
(`eq_of_ways`).
-/

namespace Resumable

open Relation (ReflTransGen TransGen)

variable {leads : String → String → Prop} {names : List String} {x y : String}

open Classical in
/-- How many of the names are still ahead of a place, the place itself among them. -/
noncomputable def ahead (leads : String → String → Prop) (names : List String) (x : String) : Nat :=
  names.countP fun y => ReflTransGen leads x y

theorem ahead_le_length (leads : String → String → Prop) (names : List String) (x : String) :
    ahead leads names x ≤ names.length := List.countP_le_length

/-- A place that is among the names is ahead of itself. -/
theorem ahead_pos (hx : x ∈ names) : 0 < ahead leads names x :=
  List.countP_pos_iff.2 ⟨x, hx, by simp [ReflTransGen.refl]⟩

/-- If there is no way back, a step leaves fewer names ahead. -/
theorem ahead_lt (hback : ¬ TransGen leads x x) (hx : x ∈ names) (hstep : leads x y) :
    ahead leads names y < ahead leads names x := by
  obtain ⟨front, rest, rfl⟩ := List.append_of_mem hx
  have hmono (l : List String) : ahead leads l y ≤ ahead leads l x := by
    apply List.countP_mono_left
    intro z _ hz
    simp only [decide_eq_true_eq] at hz ⊢
    exact .head hstep hz
  -- The place itself is not ahead any more.
  have hself : ¬ ReflTransGen leads y x := fun h => hback (.head' hstep h)
  have hfront := hmono front
  have hrest := hmono rest
  unfold ahead at hfront hrest ⊢
  simp only [List.countP_append, List.countP_cons, decide_eq_true_eq, hself, if_false,
    ReflTransGen.refl, if_true]
  omega

theorem eq_of_ways (hback : ∀ x, ¬ TransGen leads x x) (hxy : ReflTransGen leads x y)
    (hyx : ReflTransGen leads y x) : x = y := by
  rcases Relation.reflTransGen_iff_eq_or_transGen.1 hxy with heq | hway
  · exact heq.symm
  · exact absurd (hway.trans_left hyx) (hback x)

/-- If every step leads to a lower place, there is no way back. -/
theorem no_way_back (height : String → Nat) (h : ∀ x y, leads x y → height y < height x)
    (x : String) : ¬ TransGen leads x x := by
  have hlower {x y : String} (hway : TransGen leads x y) : height y < height x := by
    induction hway with
    | single hstep => exact h _ _ hstep
    | tail _ hstep ih => exact (h _ _ hstep).trans ih
  intro hway
  exact Nat.lt_irrefl _ (hlower hway)

end Resumable
