import Resumable.Proofs.Machine.Steps

/-!
# Which instructions write locals

Only stores and increments write locals, and each of them writes the one that it names. All other
instructions leave the locals of an activation as they are, and so do handlers and the answers to
calls (`Activation.locals_of_step`, `Activation.locals_of_resume`).
-/

namespace Resumable

/-- An instruction leaves a local alone that it does not write. -/
theorem Exec.Does.locals_instr {classes : ClassTable} {i : Instr} {a a' : Activation}
    {m m' : Memory} {index : Nat} {move : Move} (h : Does (instr classes i) a m move a' m')
    (hi : ¬ i.Assigns index) : a'.locals[index]? = a.locals[index]? := by
  have hl : Laws (fun b _ => b.locals[index]? = a.locals[index]?) fun _ _ => True :=
    { stack := fun _ => id
      heap := fun _ => id
      statics := fun _ => id
      fails := fun _ _ => trivial
      throws := fun _ _ => trivial }
  have hi : i.Laws (fun b _ => b.locals[index]? = a.locals[index]?) fun _ _ => True :=
    { reads := fun _ _ _ => trivial
      writes := by
        intro b _ slot v hassigns hsame
        have hslot : slot ≠ index := fun heq => hi (heq ▸ hassigns)
        exact (List.getElem?_set_ne hslot).trans hsame
      labels := fun _ _ _ => trivial
      frames := fun _ _ => id }
  exact (keeps_instr hl hi classes).of_ok h rfl

namespace Activation

variable {classes : ClassTable} {a b w : Activation} {m m' : Memory} {e : RunError} {index : Nat}
  {progress : Progress} {request : Call}

theorem locals_of_raise (h : a.raise classes e m = (.going b, m')) : b.locals = a.locals := by
  unfold raise at h
  split at h
  · cases h
  · dsimp only at h
    split at h
    · cases h
      rfl
    · cases h

/-- A step leaves a local alone that the instruction does not write. -/
theorem locals_of_step (h : a.step classes m = (progress, m'))
    (hi : ∀ i, a.method.method.code[a.pc]? = some i → ¬ i.Assigns index) :
    (∀ b, progress = .going b → b.locals[index]? = a.locals[index]?) ∧
      ∀ w request, progress = .calling w request → w.locals[index]? = a.locals[index]? := by
  rcases hcode : a.method.method.code[a.pc]? with _ | i
  · rw [step_of_none hcode] at h
    cases h
    exact ⟨fun b hb => (by cases hb), fun w request hw => (by cases hw)⟩
  rcases step_cases hcode h with ⟨e, m₁, -, hraise⟩ | ⟨move, a', hdoes, rfl⟩
  · refine ⟨fun b hb => ?_, fun w request hw => ?_⟩
    · rw [hb] at hraise
      rw [locals_of_raise hraise]
    · rw [hw] at hraise
      exact absurd hraise raise_ne_calling
  · have hsame := hdoes.locals_instr (hi i hcode)
    refine ⟨fun b hb => ?_, fun w request hw => ?_⟩
    · cases move <;> cases hb <;> exact hsame
    · cases move <;> cases hw
      exact hsame

theorem locals_of_resume {answer : Except RunError (Option Value)}
    (h : w.resume classes request answer m = (.going b, m')) : b.locals = w.locals := by
  rcases resume_cases h with ⟨e, -, hraise⟩ | ⟨-, -, stack, hgoing⟩
  · exact locals_of_raise hraise
  · cases hgoing
    rfl

end Activation

end Resumable
