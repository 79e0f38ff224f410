import Mathlib.Data.List.Induction
import Resumable.Machine.Classes

/-!
# Where labels stand

`labelPosition?` finds a place where its label stands (`getElem?_of_labelPosition?`), and of several
such places the last one. These two facts say all there is to say about it
(`labelPosition?_eq_some_iff`).
-/

namespace Resumable

/-- Behind the last item of a kind there is no other of the kind. -/
theorem find?_reverse_zipIdx_eq_some_iff {α : Type} {kind : α → Bool} {as : List α} {a : α} {p : Nat} :
    (as.zipIdx.reverse.find? fun x => kind x.1) = some (a, p) ↔
      as[p]? = some a ∧ kind a = true ∧ ∀ q b, p < q → as[q]? = some b → kind b = false := by
  induction as using List.reverseRecOn with
  | nil => simp
  | append_singleton as last ih =>
    have hitem {q : Nat} {b : α} :
        (as ++ [last])[q]? = some b ↔ as[q]? = some b ∨ q = as.length ∧ b = last := by
      rcases Nat.lt_trichotomy q as.length with hlt | rfl | hlt
      · rw [List.getElem?_append_left hlt]
        simp [Nat.ne_of_lt hlt]
      · simp [eq_comm]
      · rw [List.getElem?_eq_none (by simp; omega), List.getElem?_eq_none (Nat.le_of_lt hlt)]
        simp [Nat.ne_of_gt hlt]
    have hlt {q : Nat} {b : α} (hq : as[q]? = some b) : q < as.length :=
      (List.getElem?_eq_some_iff.1 hq).1
    rw [List.zipIdx_append, List.reverse_append, List.zipIdx_singleton, List.reverse_singleton,
      List.singleton_append, Nat.zero_add, List.find?_cons]
    simp only [hitem]
    cases hkind : kind last with
    | true =>
      rw [Option.some.injEq, Prod.mk.injEq]
      constructor
      · rintro ⟨rfl, rfl⟩
        refine ⟨.inr ⟨rfl, rfl⟩, hkind, fun q b hbehind hq => ?_⟩
        rcases hq with hq | ⟨rfl, -⟩
        · exact absurd (hlt hq) (by omega)
        · exact absurd hbehind (Nat.lt_irrefl _)
      · rintro ⟨hp | ⟨rfl, rfl⟩, -, hrest⟩
        · rw [hrest _ _ (hlt hp) (.inr ⟨rfl, rfl⟩)] at hkind
          cases hkind
        · exact ⟨rfl, rfl⟩
    | false =>
      rw [ih]
      constructor
      · rintro ⟨hp, ha, hrest⟩
        refine ⟨.inl hp, ha, fun q b hbehind hq => ?_⟩
        rcases hq with hq | ⟨-, rfl⟩
        · exact hrest q b hbehind hq
        · exact hkind
      · rintro ⟨hp | ⟨-, rfl⟩, ha, hrest⟩
        · exact ⟨hp, ha, fun q b hbehind hq => hrest q b hbehind (.inl hq)⟩
        · rw [hkind] at ha
          cases ha

variable {code before after : List Instr} {l : Label} {p : Nat}

theorem labelPosition?_eq_some_iff : labelPosition? code l = some p ↔
    code[p]? = some (.label l) ∧ ∀ q, code[q]? = some (.label l) → q ≤ p := by
  have hlast (i : Instr) := @find?_reverse_zipIdx_eq_some_iff _ (· == .label l) code i p
  unfold labelPosition?
  rw [Option.map_eq_some_iff]
  constructor
  · rintro ⟨⟨i, p⟩, hfind, rfl⟩
    obtain ⟨hp, hi, hrest⟩ := (hlast i).1 hfind
    obtain rfl := eq_of_beq hi
    refine ⟨hp, fun q hq => Nat.le_of_not_lt fun hlt => ?_⟩
    exact absurd rfl (beq_eq_false_iff_ne.1 (hrest q _ hlt hq))
  · rintro ⟨hp, hmax⟩
    refine ⟨(.label l, p), (hlast _).2 ⟨hp, beq_self_eq_true _, fun q i hlt hq => ?_⟩, rfl⟩
    refine beq_eq_false_iff_ne.2 fun heq => Nat.not_le_of_lt hlt (hmax q (heq ▸ hq))

theorem getElem?_of_labelPosition? (h : labelPosition? code l = some p) :
    code[p]? = some (.label l) :=
  (labelPosition?_eq_some_iff.1 h).1

theorem lt_of_labelPosition? (h : labelPosition? code l = some p) : p < code.length :=
  (List.getElem?_eq_some_iff.1 (getElem?_of_labelPosition? h)).1

/-- Behind its last place, the label does not stand any more. -/
theorem labelPosition?_append_cons (h : .label l ∉ after) :
    labelPosition? (before ++ .label l :: after) l = some before.length := by
  refine labelPosition?_eq_some_iff.2 ⟨by simp, fun q hq => Nat.le_of_not_lt fun hlt => h ?_⟩
  obtain ⟨k, rfl⟩ := Nat.exists_eq_add_of_lt hlt
  rw [List.getElem?_append_right (by omega), show before.length + k + 1 - before.length = k + 1 by omega,
    List.getElem?_cons_succ] at hq
  exact List.mem_of_getElem? hq

/-- A label that stands somewhere is found there or further behind. -/
theorem le_labelPosition? (h : code[p]? = some (.label l)) :
    ∃ q, labelPosition? code l = some q ∧ p ≤ q := by
  have hsome : (code.zipIdx.reverse.find? fun x => x.1 == .label l).isSome = true :=
    List.find?_isSome.2 ⟨(.label l, p),
      List.mem_reverse.2 (List.mk_mem_zipIdx_iff_getElem?.2 h), beq_self_eq_true _⟩
  obtain ⟨x, hx⟩ := Option.isSome_iff_exists.1 hsome
  have hposition : labelPosition? code l = some x.2 := Option.map_eq_some_iff.2 ⟨x, hx, rfl⟩
  exact ⟨x.2, hposition, (labelPosition?_eq_some_iff.1 hposition).2 p h⟩

theorem exists_labelPosition? (h : .label l ∈ code) : ∃ p, labelPosition? code l = some p := by
  obtain ⟨i, hi⟩ := List.mem_iff_getElem?.1 h
  obtain ⟨p, hp, -⟩ := le_labelPosition? hi
  exact ⟨p, hp⟩

theorem labelPosition?_eq_none_iff : labelPosition? code l = none ↔ .label l ∉ code := by
  constructor
  · intro h hmem
    obtain ⟨p, hp⟩ := exists_labelPosition? hmem
    rw [h] at hp
    cases hp
  · intro h
    refine Option.eq_none_iff_forall_ne_some.2 fun p hp => h ?_
    exact List.mem_of_getElem? (getElem?_of_labelPosition? hp)

/-! ## Ranges -/

/-- The instruction at `q` lies in the range. -/
def Covers (code : List Instr) (range : Label × Label) (q : Nat) : Prop :=
  ∃ start stop, labelPosition? code range.1 = some start ∧
    labelPosition? code range.2 = some stop ∧ start ≤ q ∧ q < stop

/-- The range does not end in front of its start. -/
def Upright (code : List Instr) (range : Label × Label) : Prop :=
  ∃ start stop, labelPosition? code range.1 = some start ∧
    labelPosition? code range.2 = some stop ∧ start ≤ stop

/-- A handler is loaded with the places of its labels. -/
theorem Handler.load?_eq_some_iff {h : Handler} {r : LoadedHandler} : h.load? code = some r ↔
    labelPosition? code h.start = some r.start ∧ labelPosition? code h.stop = some r.stop ∧
      labelPosition? code h.target = some r.target ∧ r.catchType = h.catchType := by
  obtain ⟨start, stop, target, type⟩ := r
  simp only [load?, bind, Option.bind_eq_some_iff, pure, Option.some.injEq,
    LoadedHandler.mk.injEq]
  constructor
  · rintro ⟨s, hs, e, he, t, ht, rfl, rfl, rfl, rfl⟩
    exact ⟨hs, he, ht, rfl⟩
  · rintro ⟨hs, he, ht, rfl⟩
    exact ⟨start, hs, stop, he, target, ht, rfl, rfl, rfl, rfl⟩

end Resumable
