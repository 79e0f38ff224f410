import Resumable.Proofs.Machine.Effects

/-!
# What is thrown

An exception that an instruction throws is a reference: a new object, the signal, or what `athrow`
has made sure is one (`Exec.fair_instr`). It ends up alone on the operand stack of a handler, if
there is one (`raise_eq_going`).
-/

namespace Resumable

/-- If the error carries an exception, that is a reference. -/
def RunError.IsFair (e : RunError) : Prop :=
  ∀ v, e = .thrown v → v.isReference = true

theorem RunError.isFair_of_ordinary {e : RunError} (h : e.isOrdinary = true) : e.IsFair := by
  rintro v rfl
  cases h

/-- All errors of the computation that carry an exception carry a reference. -/
def Exec.Fair {α : Type} (x : Exec α) : Prop :=
  ∀ a m e m', (x.run a).run m = (.error e, m') → e.IsFair

/-- An exception that an instruction throws is a reference. -/
theorem Exec.fair_instr (classes : ClassTable) (i : Instr) : Fair (instr classes i) := by
  have hl : Laws (fun _ _ => True) fun e _ => e.IsFair :=
    { stack := fun _ => id
      heap := fun _ => id
      statics := fun _ => id
      fails := fun he _ => RunError.isFair_of_ordinary he
      throws := fun hv _ w hw => RunError.thrown.inj hw ▸ hv }
  have hi : i.Laws (fun _ _ => True) fun e _ => e.IsFair :=
    { reads := fun _ _ _ => nofun
      writes := fun _ _ => id
      labels := fun _ _ _ => nofun
      frames := fun _ _ => id }
  exact fun a m e m' h => (keeps_instr hl hi classes).of_error h trivial

/-! ## Handlers -/

/-- The error that looks for a handler brings a reference. -/
theorem isReference_of_exception? {e : RunError} {h h' : Heap} {v : Value} (he : e.IsFair)
    (hv : e.exception? h = some (h', v)) : v.isReference = true := by
  unfold RunError.exception? at hv
  split at hv
  · cases hv
    exact he _ rfl
  · cases hv
    rfl
  · cases hv
    rfl
  · cases hv

/-- An activation goes on after an error at a handler, with nothing but the exception. -/
theorem raise_eq_going {classes : ClassTable} {a b : Activation} {e : RunError} {m m' : Memory}
    (h : a.raise classes e m = (.going b, m')) :
    ∃ heap exception handler, e.exception? m.heap = some (heap, exception) ∧
      handler ∈ a.method.handlers ∧ handler.covers a.pc = true ∧
      b = { a with stack := [exception], pc := handler.target } := by
  unfold Activation.raise at h
  split at h
  · cases h
  · rename_i heap exception hexception
    dsimp only at h
    split at h
    · rename_i handler hhandler
      cases h
      have hcovers := List.find?_some hhandler
      rw [Bool.and_eq_true] at hcovers
      exact ⟨heap, exception, handler, hexception, List.mem_of_find?_eq_some hhandler, hcovers.1,
        rfl⟩
    · cases h

/-- An activation that ends after an error ends with it, or with the exception for it. -/
theorem raise_eq_done {classes : ClassTable} {a : Activation} {e : RunError} {m m' : Memory}
    {outcome : Except RunError (Option Value)} (h : a.raise classes e m = (.done outcome, m')) :
    outcome = .error e ∨ ∃ v, outcome = .error (.thrown v) := by
  unfold Activation.raise at h
  split at h
  · cases h
    exact .inl rfl
  · dsimp only at h
    split at h
    · cases h
    · cases h
      exact .inr ⟨_, rfl⟩

theorem raise_ne_calling {classes : ClassTable} {a w : Activation} {e : RunError} {request : Call}
    {m m' : Memory} : a.raise classes e m ≠ (.calling w request, m') := by
  unfold Activation.raise
  split
  · exact nofun
  · dsimp only
    split <;> exact nofun

end Resumable
