import Mathlib
import Resumable.Flow.Analysis
import Resumable.Machine.Activation

/-!
# Taking computations apart

A computation that has succeeded is taken apart into its steps, each of which has succeeded: where
failure is all there is (`bind_eq_ok`), where the database is asked on the way (`Gives`), and where
an activation works on its memory (`Exec.Does`).

`Gives` leaves out what the database knew and has learnt. Whatever holds of all results of a
computation so holds for every database.
-/

namespace Resumable

open List (Forall₂)

variable {ε α β γ : Type}

/-! ## Lists in pairs -/

/-- An item of the first of two lists in pairs has a partner in the second. -/
theorem exists_right_of_mem {R : α → β → Prop} {as : List α} {bs : List β} (h : Forall₂ R as bs)
    {a : α} (ha : a ∈ as) : ∃ b ∈ bs, R a b := by
  induction h with
  | nil => cases ha
  | @cons a' b' as bs hab _ ih =>
    rcases List.mem_cons.1 ha with rfl | ha
    · exact ⟨b', List.mem_cons_self, hab⟩
    · obtain ⟨b, hb, hR⟩ := ih ha
      exact ⟨b, List.mem_cons_of_mem _ hb, hR⟩

theorem exists_left_of_mem {R : α → β → Prop} {as : List α} {bs : List β} (h : Forall₂ R as bs)
    {b : β} (hb : b ∈ bs) : ∃ a ∈ as, R a b :=
  exists_right_of_mem (R := flip R) (Forall₂.flip h) hb

theorem forall₂_getElem? {R : α → β → Prop} {as : List α} {bs : List β} (h : Forall₂ R as bs)
    {i : Nat} {a : α} {b : β} (ha : as[i]? = some a) (hb : bs[i]? = some b) : R a b := by
  induction h generalizing i with
  | nil => cases ha
  | cons hab _ ih =>
    cases i with
    | zero =>
      cases ha
      cases hb
      exact hab
    | succ i => exact ih ha hb

theorem forall₂_replicate {R : α → β → Prop} {a : α} {b : β} (h : R a b) (count : Nat) :
    Forall₂ R (List.replicate count a) (List.replicate count b) := by
  induction count with
  | zero => exact .nil
  | succ count ih => exact .cons h ih

theorem forall₂_set {R : α → β → Prop} {as : List α} {bs : List β} (h : Forall₂ R as bs)
    {a : α} {b : β} (hab : R a b) (i : Nat) : Forall₂ R (as.set i a) (bs.set i b) := by
  induction h generalizing i with
  | nil => exact .nil
  | cons hab' hrest ih =>
    cases i with
    | zero => exact .cons hab hrest
    | succ i => exact .cons hab' (ih i)

/-- Partners of the same items are partners of each other. -/
theorem forall₂_join {R : α → β → Prop} {S : α → γ → Prop} {as : List α} {bs : List β}
    {cs : List γ} (h : Forall₂ R as bs) (h' : Forall₂ S as cs) :
    Forall₂ (fun b c => ∃ a, R a b ∧ S a c) bs cs := by
  induction h generalizing cs with
  | nil =>
    cases h'
    exact .nil
  | @cons a b as bs hab _ ih =>
    cases h' with
    | cons hac hrest => exact .cons ⟨a, hab, hac⟩ (ih hrest)

/-- What follows for partners, given where they come from. -/
theorem forall₂_imp_of_mem {R S : α → β → Prop} {as : List α} {bs : List β} (h : Forall₂ R as bs)
    (himp : ∀ a ∈ as, ∀ b ∈ bs, R a b → S a b) : Forall₂ S as bs := by
  induction h with
  | nil => exact .nil
  | cons hab _ ih =>
    refine .cons (himp _ List.mem_cons_self _ List.mem_cons_self hab) (ih fun a ha b hb => ?_)
    exact himp a (List.mem_cons_of_mem _ ha) b (List.mem_cons_of_mem _ hb)

/-- If every item has a partner, there is a list of partners. -/
theorem exists_forall₂ {R : α → β → Prop} {as : List α} (h : ∀ a ∈ as, ∃ b, R a b) :
    ∃ bs, Forall₂ R as bs := by
  induction as with
  | nil => exact ⟨[], .nil⟩
  | cons a as ih =>
    obtain ⟨b, hab⟩ := h a List.mem_cons_self
    obtain ⟨bs, hbs⟩ := ih fun a' ha' => h a' (List.mem_cons_of_mem _ ha')
    exact ⟨b :: bs, .cons hab hbs⟩

/-! ## Failure -/

theorem bind_eq_ok {x : Except ε α} {k : α → Except ε β} {b : β} :
    x >>= k = .ok b ↔ ∃ a, x = .ok a ∧ k a = .ok b := by
  cases x with
  | error e => simp [bind, Except.bind]
  | ok a => simp [bind, Except.bind]

theorem bind_eq_error {x : Except ε α} {k : α → Except ε β} {e : ε} :
    x >>= k = .error e ↔ x = .error e ∨ ∃ a, x = .ok a ∧ k a = .error e := by
  cases x with
  | error e' => simp [bind, Except.bind]
  | ok a => simp [bind, Except.bind]

theorem mapError_eq_ok {ε' : Type} {x : Except ε α} {f : ε → ε'} {a : α} :
    x.mapError f = .ok a ↔ x = .ok a := by
  cases x <;> simp [Except.mapError]

/-- A list is worked off if each item comes to its result. -/
theorem mapM_eq_ok {f : α → Except ε β} {as : List α} {bs : List β} :
    as.mapM f = .ok bs ↔ Forall₂ (fun a b => f a = .ok b) as bs := by
  induction as generalizing bs with
  | nil =>
    rw [List.mapM_nil, List.forall₂_nil_left_iff]
    exact ⟨fun h => (Except.ok.inj h).symm, fun h => congrArg Except.ok h.symm⟩
  | cons a as ih =>
    rw [List.mapM_cons, bind_eq_ok]
    constructor
    · rintro ⟨b, hb, h⟩
      obtain ⟨rest, hrest, h⟩ := bind_eq_ok.1 h
      cases h
      exact .cons hb (ih.1 hrest)
    · rintro (_ | ⟨hb, hrest⟩)
      exact ⟨_, hb, bind_eq_ok.2 ⟨_, ih.2 hrest, rfl⟩⟩

/-! ## Questions to the database -/

/-- With some database, the computation comes to the result. -/
def Gives (x : ExceptT ε Inquiry α) (a : α) : Prop :=
  ∃ db db', x.run.run db = (.ok a, db')

namespace Gives

theorem pure {a b : α} (h : Gives (Pure.pure a : ExceptT ε Inquiry α) b) : b = a := by
  obtain ⟨db, db', h⟩ := h
  cases h
  rfl

theorem not_throw {e : ε} {a : α} : ¬ Gives (throw e : ExceptT ε Inquiry α) a := by
  rintro ⟨db, db', h⟩
  cases h

/-- Both parts of a computation have come to a result. -/
theorem bind {x : ExceptT ε Inquiry α} {k : α → ExceptT ε Inquiry β} {b : β}
    (h : Gives (x >>= k) b) : ∃ a, Gives x a ∧ Gives (k a) b := by
  obtain ⟨db, db', h⟩ := h
  rcases hx : x.run.run db with ⟨r | a, db₁⟩
  · have hr : (x >>= k).run.run db = (.error r, db₁) := by
      simp only [ExceptT.run_bind, StateT.run_bind, hx]
      rfl
    rw [hr] at h
    cases h
  · have hr : (x >>= k).run.run db = (k a).run.run db₁ := by
      simp only [ExceptT.run_bind, StateT.run_bind, hx]
      rfl
    exact ⟨a, ⟨db, db₁, hx⟩, db₁, db', hr ▸ h⟩

/-- A question has been answered before the rest came to a result. -/
theorem lift {x : Inquiry α} {k : α → ExceptT ε Inquiry β} {b : β}
    (h : Gives ((liftM x : ExceptT ε Inquiry α) >>= k) b) :
    ∃ db, Gives (k (x.run db).1) b := by
  obtain ⟨db, db', h⟩ := h
  exact ⟨db, (x.run db).2, db', h⟩

/-- Every item has come to its result. -/
theorem mapM {f : α → ExceptT ε Inquiry β} {as : List α} {bs : List β}
    (h : Gives (as.mapM f) bs) : Forall₂ (fun a b => Gives (f a) b) as bs := by
  induction as generalizing bs with
  | nil =>
    rw [List.mapM_nil] at h
    rw [h.pure]
    exact .nil
  | cons a as ih =>
    rw [List.mapM_cons] at h
    obtain ⟨b, hb, h⟩ := h.bind
    obtain ⟨bs', hbs, h⟩ := h.bind
    rw [h.pure]
    exact .cons hb (ih hbs)

end Gives

theorem gives_attempt {owner : String} {m : Method} {index : Nat} {x : Except FlowError α} {a : α}
    (h : Gives (Flow.attempt owner m index x) a) : x = .ok a := by
  obtain ⟨db, db', h⟩ := h
  cases x with
  | error e => cases h
  | ok b => cases h; rfl

/-! ## Activations -/

namespace Exec

variable {a a' : Activation} {m m' : Memory}

theorem run_bind_of_error {x : Exec α} {k : α → Exec β} {e : RunError}
    (hx : (x.run a).run m = (.error e, m')) : ((x >>= k).run a).run m = (.error e, m') := by
  show (ExceptT.run (StateT.run (x >>= k) a)).run m = _
  rw [StateT.run_bind, ExceptT.run_bind, StateT.run_bind,
    show (ExceptT.run (StateT.run x a)).run m = _ from hx]
  rfl

theorem run_bind_of_ok {x : Exec α} {k : α → Exec β} {r : α}
    (hx : (x.run a).run m = (.ok (r, a'), m')) :
    ((x >>= k).run a).run m = ((k r).run a').run m' := by
  show (ExceptT.run (StateT.run (x >>= k) a)).run m = _
  rw [StateT.run_bind, ExceptT.run_bind, StateT.run_bind,
    show (ExceptT.run (StateT.run x a)).run m = _ from hx]
  rfl

/-- The computation succeeds and leaves the activation and the memory so. -/
def Does (x : Exec α) (a : Activation) (m : Memory) (r : α) (a' : Activation)
    (m' : Memory) : Prop :=
  (x.run a).run m = (.ok (r, a'), m')

namespace Does

theorem pure {r r' : α} (h : Does (Pure.pure r) a m r' a' m') : r' = r ∧ a' = a ∧ m' = m := by
  cases h
  exact ⟨rfl, rfl, rfl⟩

theorem not_throw {e : RunError} {r : α} : ¬ Does (throw e : Exec α) a m r a' m' := by
  intro h
  cases h

/-- Both parts of a computation have succeeded. -/
theorem bind {x : Exec α} {k : α → Exec β} {r : β} (h : Does (x >>= k) a m r a' m') :
    ∃ r₁ a₁ m₁, Does x a m r₁ a₁ m₁ ∧ Does (k r₁) a₁ m₁ r a' m' := by
  unfold Does at h
  rcases hx : (x.run a).run m with ⟨e | ⟨r₁, a₁⟩, m₁⟩
  · rw [run_bind_of_error hx] at h
    cases h
  · rw [run_bind_of_ok hx] at h
    exact ⟨r₁, a₁, m₁, hx, h⟩

end Does

end Exec

end Resumable
