import Mathlib.Logic.Function.Basic
import Resumable.Coroutine.Locals

/-!
# What is stored for variables

The value of a variable is what has been stored for it and not been taken away since, or else what
its initializer comes to, which is then stored. `Initializer.recollect` says so with a memory that
forgets nothing. The values that a coroutine keeps are purged now and then, but only of variables
that nobody can ask for any more (`Initializer.closed_alive`), so for all others they agree with
such a memory (`Variables.Agrees`), whatever is put, taken away, dropped or asked for.
-/

namespace Resumable

/-- What has been stored for each variable of a coroutine and not been taken away since. -/
abbrev Recollection := Nat → Option Int

/-! ## Initializers -/

/-- A value is found in the same way from two states, if those that it asks for are. -/
theorem Reading.run_related {captured : List Nat} {σ τ : Type} {R : σ → τ → Prop}
    {get : Nat → σ → Int × σ} {get' : Nat → τ → Int × τ}
    (h : ∀ key ∈ captured, ∀ s t, R s t →
      (get key s).1 = (get' key t).1 ∧ R (get key s).2 (get' key t).2)
    (r : Reading captured) {s : σ} {t : τ} (hst : R s t) :
    (r.run get s).1 = (r.run get' t).1 ∧ R (r.run get s).2 (r.run get' t).2 := by
  induction r generalizing s t with
  | result value => exact ⟨rfl, hst⟩
  | ask key known next ih =>
    obtain ⟨hvalue, hstate⟩ := h key known s t hst
    simp only [run, hvalue]
    exact ih _ hstate

namespace Initializer

variable {earlier is : List Initializer} {last : Initializer} {dropped needed : List Nat}
  {key : Nat}

/-- The value of a variable by a memory that forgets nothing: what is stored, or else what the
initializer comes to, which is then stored. The latest initializer is in front. -/
def recollect : List Initializer → (key : Nat) → Recollection → Int × Recollection
  | [], _, memory => (0, memory)
  | last :: earlier, key, memory =>
    if key = earlier.length then
      match memory key with
      | some value => (value, memory)
      | none =>
        let (value, memory) := last.reading.run (recollect earlier) memory
        (value, Function.update memory key (some value))
    else recollect earlier key memory

theorem recollect_append (later earlier : List Initializer) (last : Initializer)
    (memory : Recollection) :
    recollect (later ++ last :: earlier) earlier.length memory =
      recollect (last :: earlier) earlier.length memory := by
  induction later with
  | nil => rfl
  | cons latest later ih =>
    have hne : earlier.length ≠ (later ++ last :: earlier).length := by
      simp only [List.length_append, List.length_cons]
      omega
    rw [List.cons_append, recollect, if_neg hne, ih]

/-- What a variable with some initializer is remembered to be. -/
theorem recollect_of_getElem? {initializer : Initializer} (h : is[key]? = some initializer)
    (memory : Recollection) : recollect is.reverse key memory =
      let initial := initializer.reading.run (recollect (is.take key).reverse) memory
      ((memory key).getD initial.1, if (memory key).isSome then memory
        else Function.update initial.2 key (some initial.1)) := by
  obtain ⟨hlt, hinitializer⟩ := List.getElem?_eq_some_iff.1 h
  have hlength : (is.take key).reverse.length = key := by
    simpa using Nat.min_eq_left (Nat.le_of_lt hlt)
  have hsplit : is.reverse =
      (is.drop (key + 1)).reverse ++ initializer :: (is.take key).reverse := calc
    is.reverse = (is.take key ++ is.drop key).reverse := by rw [List.take_append_drop]
    _ = _ := by
      rw [List.drop_eq_getElem_cons hlt, hinitializer]
      simp
  have hvalue := recollect_append (is.drop (key + 1)).reverse (is.take key).reverse initializer
    memory
  rw [hlength, ← hsplit, recollect, if_pos hlength.symm] at hvalue
  rw [hvalue]
  cases memory key <;> rfl

/-- Whatever the initializers of those in question ask for is in question too. -/
def Closed (P : Nat → Prop) : List Initializer → Prop
  | [] => True
  | last :: earlier =>
    (P earlier.length → ∀ key ∈ last.captured, key < earlier.length → P key) ∧ Closed P earlier

theorem Closed.congr {P Q : Nat → Prop} (h : Closed P is)
    (hsame : ∀ key < is.length, P key ↔ Q key) : Closed Q is := by
  induction is with
  | nil => trivial
  | cons last earlier ih =>
    refine ⟨fun hlast key hkey hlt => ?_, ih h.2 fun key hlt => hsame key (Nat.lt_succ_of_lt hlt)⟩
    have hasked := h.1 ((hsame _ (Nat.lt_succ_self _)).2 hlast) key hkey hlt
    exact (hsame key (Nat.lt_succ_of_lt hlt)).1 hasked

theorem alive_of_gone (h : ¬(earlier.length ∈ needed ∨ earlier.length ∉ dropped)) :
    alive dropped (last :: earlier) needed = alive dropped earlier needed := by
  rw [alive, if_pos]
  simpa [not_or, and_comm] using h

theorem alive_of_wanted (h : earlier.length ∈ needed ∨ earlier.length ∉ dropped) :
    alive dropped (last :: earlier) needed =
      earlier.length :: alive dropped earlier (last.captured ++ needed) := by
  rw [alive, if_neg]
  simpa [or_iff_not_imp_left, imp_not_comm] using h

theorem lt_of_mem_alive (h : key ∈ alive dropped is needed) : key < is.length := by
  induction is generalizing needed with
  | nil => cases h
  | cons last earlier ih =>
    by_cases hwanted : earlier.length ∈ needed ∨ earlier.length ∉ dropped
    · rw [alive_of_wanted hwanted] at h
      rcases List.mem_cons.1 h with rfl | h
      · exact Nat.lt_succ_self _
      · exact Nat.lt_succ_of_lt (ih h)
    · rw [alive_of_gone hwanted] at h
      exact Nat.lt_succ_of_lt (ih h)

/-- A variable lives if it is needed or has not been dropped. -/
theorem mem_alive (hlt : key < is.length) (h : key ∈ needed ∨ key ∉ dropped) :
    key ∈ alive dropped is needed := by
  induction is generalizing needed with
  | nil => cases hlt
  | cons last earlier ih =>
    rcases Nat.lt_succ_iff_lt_or_eq.1 hlt with hlt | rfl
    · by_cases hwanted : earlier.length ∈ needed ∨ earlier.length ∉ dropped
      · rw [alive_of_wanted hwanted]
        exact List.mem_cons_of_mem _ (ih hlt (h.imp_left (List.mem_append_right _)))
      · rw [alive_of_gone hwanted]
        exact ih hlt h
    · rw [alive_of_wanted h]
      exact List.mem_cons_self

/-- Variables that live ask only for variables that live. -/
theorem closed_alive (is : List Initializer) (dropped needed : List Nat) :
    Closed (· ∈ alive dropped is needed) is := by
  induction is generalizing needed with
  | nil => trivial
  | cons last earlier ih =>
    by_cases hwanted : earlier.length ∈ needed ∨ earlier.length ∉ dropped
    · rw [alive_of_wanted hwanted]
      refine ⟨fun _ key hkey hlt => ?_, (ih (last.captured ++ needed)).congr fun key hlt => ?_⟩
      · exact List.mem_cons_of_mem _ (mem_alive hlt (.inl (List.mem_append_left _ hkey)))
      · simp [Nat.ne_of_lt hlt]
    · rw [alive_of_gone hwanted]
      exact ⟨fun hlast => absurd (lt_of_mem_alive hlast) (Nat.lt_irrefl _), ih needed⟩

/-- Dropping a variable makes none live. -/
theorem alive_mono {dropped' needed' : List Nat} (hdropped : dropped ⊆ dropped')
    (hneeded : needed' ⊆ needed) : alive dropped' is needed' ⊆ alive dropped is needed := by
  intro key hkey
  induction is generalizing needed needed' with
  | nil => cases hkey
  | cons last earlier ih =>
    by_cases hwanted' : earlier.length ∈ needed' ∨ earlier.length ∉ dropped'
    · have hwanted : earlier.length ∈ needed ∨ earlier.length ∉ dropped :=
        hwanted'.imp (@hneeded _) (mt (@hdropped _))
      rw [alive_of_wanted hwanted'] at hkey
      rw [alive_of_wanted hwanted]
      rcases List.mem_cons.1 hkey with rfl | hkey
      · exact List.mem_cons_self
      · have hmore : last.captured ++ needed' ⊆ last.captured ++ needed :=
          List.append_subset.2 ⟨List.subset_append_left _ _,
            List.Subset.trans hneeded (List.subset_append_right _ _)⟩
        exact List.mem_cons_of_mem _ (ih hmore hkey)
    · rw [alive_of_gone hwanted'] at hkey
      by_cases hwanted : earlier.length ∈ needed ∨ earlier.length ∉ dropped
      · rw [alive_of_wanted hwanted]
        have hmore : needed' ⊆ last.captured ++ needed :=
          List.Subset.trans hneeded (List.subset_append_right _ _)
        exact List.mem_cons_of_mem _ (ih hmore hkey)
      · rw [alive_of_gone hwanted]
        exact ih hneeded hkey

end Initializer

/-! ## Values -/

namespace Variables

variable {vs : Variables} {l : LocalValues} {memory : Recollection} {key : Nat}

theorem lookup_filter (p : Nat → Bool) (l : LocalValues) (key : Nat) :
    (l.filter fun (k, _) => p k).lookup key = if p key then l.lookup key else none := by
  induction l with
  | nil => simp
  | cons entry l ih =>
    obtain ⟨k, value⟩ := entry
    simp only [List.filter_cons]
    by_cases hkey : key = k
    · subst hkey
      cases hp : p key <;> simp [hp, ih]
    · have hne : (key == k) = false := beq_eq_false_iff_ne.2 hkey
      cases hp : p k <;> simp [List.lookup_cons, hne, ih]

theorem isGone_eq_false_iff :
    vs.isGone key = false ↔ key ∈ Initializer.alive vs.dropped vs.initializers.reverse [] := by
  simp [isGone]

/-- A variable that can be asked for directly is not gone. -/
theorem isGone_of_isLive (h : vs.isLive key = true) : vs.isGone key = false := by
  simp only [isLive, Bool.and_eq_true, decide_eq_true_eq, Bool.not_eq_true',
    List.contains_eq_mem, decide_eq_false_iff_not] at h
  exact isGone_eq_false_iff.2 (Initializer.mem_alive (by simpa using h.1) (.inr h.2))

/-- To drop a variable drops no other. -/
theorem isLive_drop {other : Nat} (h : other ≠ key) :
    (vs.drop key).isLive other = vs.isLive other := by
  rw [isLive, isLive, drop, List.contains_cons, beq_eq_false_iff_ne.2 h, Bool.false_or]

/-- Variables that somebody can ask for stay so when another one is dropped, unless this was the
only reason. -/
theorem isGone_of_drop {other : Nat} (h : (vs.drop key).isGone other = false) :
    vs.isGone other = false := by
  rw [isGone_eq_false_iff] at h ⊢
  exact Initializer.alive_mono (List.subset_cons_self _ _) (List.Subset.refl _) h

/-- What a coroutine keeps is what is remembered, for all variables that somebody can ask for. -/
def Agrees (vs : Variables) (l : LocalValues) (memory : Recollection) : Prop :=
  ∀ key, vs.isGone key = false → l.lookup key = memory key

namespace Agrees

theorem put (h : vs.Agrees l memory) (key : Nat) (value : Int) :
    vs.Agrees (vs.put key value l) (Function.update memory key (some value)) := by
  intro other hother
  rw [Variables.put, List.lookup_cons, Function.update_apply]
  by_cases heq : other = key
  · simp [heq]
  · rw [lookup_filter (fun k => k != key && !vs.isGone k)]
    simpa [beq_eq_false_iff_ne.2 heq, heq, hother] using h other hother

theorem remove (h : vs.Agrees l memory) (key : Nat) :
    vs.Agrees (Variables.remove key l).2 (Function.update memory key none) := by
  intro other hother
  rw [Variables.remove, lookup_filter (fun k => k != key), Function.update_apply]
  by_cases heq : other = key
  · simp [heq]
  · simpa [heq] using h other hother

/-- Dropping a variable takes no value from those that somebody can ask for afterwards. -/
theorem drop (h : vs.Agrees l memory) (key : Nat) : (vs.drop key).Agrees l memory :=
  fun other hother => h other (isGone_of_drop hother)

theorem valueOf {is : List Initializer} (h : vs.Agrees l memory)
    (hclosed : Initializer.Closed (vs.isGone · = false) is)
    (hkey : key < is.length → vs.isGone key = false) :
    (Initializer.valueOf vs.put is key l).1 = (Initializer.recollect is key memory).1 ∧
      vs.Agrees (Initializer.valueOf vs.put is key l).2 (Initializer.recollect is key memory).2 := by
  induction is generalizing key l memory with
  | nil => exact ⟨rfl, h⟩
  | cons last earlier ih =>
    rw [Initializer.valueOf, Initializer.recollect]
    by_cases heq : key = earlier.length
    · have hlast : vs.isGone earlier.length = false := heq ▸ hkey (heq ▸ Nat.lt_succ_self _)
      simp only [heq, if_true, h _ hlast]
      cases memory earlier.length with
      | some value => exact ⟨rfl, h⟩
      | none =>
        have hasked (asked : Nat) (hknown : asked ∈ last.captured) (l : LocalValues)
            (memory : Recollection) (h : vs.Agrees l memory) :
            (Initializer.valueOf vs.put earlier asked l).1 =
                (Initializer.recollect earlier asked memory).1 ∧
              vs.Agrees (Initializer.valueOf vs.put earlier asked l).2
                (Initializer.recollect earlier asked memory).2 :=
          ih h hclosed.2 (hclosed.1 hlast asked hknown)
        obtain ⟨hvalue, hagrees⟩ := Reading.run_related hasked last.reading h
        exact ⟨hvalue, hvalue ▸ hagrees.put _ _⟩
    · simp only [heq, if_false]
      exact ih h hclosed.2 fun hlt => hkey (Nat.lt_succ_of_lt hlt)

/-- The value of a variable is what is remembered or what its initializer comes to. -/
theorem get (h : vs.Agrees l memory) (hkey : vs.isGone key = false) :
    (vs.get key l).1 = (Initializer.recollect vs.initializers.reverse key memory).1 ∧
      vs.Agrees (vs.get key l).2 (Initializer.recollect vs.initializers.reverse key memory).2 := by
  refine h.valueOf ?_ fun _ => hkey
  exact (Initializer.closed_alive _ _ _).congr fun key _ => isGone_eq_false_iff.symm

end Agrees

end Variables

end Resumable
