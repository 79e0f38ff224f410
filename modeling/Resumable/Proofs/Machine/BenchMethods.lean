import Resumable.Machine.BenchHost
import Resumable.Proofs.Machine.HostCalls

/-!
# The methods of a workbench

What is assumed of hosts is true of a workbench: its methods do not work on frames
(`Execution.spares_of_atHost`), and hand on what they have asked for
(`Execution.handsOn_of_native`). Most of them have nothing to do with coroutines
(`BenchMethod.detached_of_isDetached`).
-/

namespace Resumable

namespace BenchMethod

variable {c : Nat} {s s' : HostState BenchState} {result : Option Value}

/-! ## Coroutines -/

/-- The methods that do not work on coroutines, and ask for nothing. -/
def isDetached : BenchMethod → Bool
  | callback | runCoroutine | coroutineState | currentCoroutine | getVariable | setVariable
  | removeVariable => false
  | _ => true

theorem detached_of_isDetached {n : BenchMethod} (h : n.isDetached = true) : benchHost.Detached n := by
  intro args s
  cases n with
  | callback | runCoroutine | coroutineState | currentCoroutine | getVariable | setVariable
  | removeVariable => cases h
  | valueOf =>
    exact ⟨do return some (.str (s.memory.heap.display (← arg args 0))), s, fun _ => rfl⟩
  | raise =>
    let raised := s.memory.heap.newException Names.illegalState "raised"
    exact ⟨.error (.thrown raised.2), { s with memory.heap := raised.1 }, fun _ => rfl⟩
  | record =>
    show ∃ outcome s', ∀ coroutines, apply .record args (s.withCoroutines coroutines) = _
    unfold apply change
    dsimp only
    rcases arg args 0 with error | v
    · exact ⟨.error error, s, fun _ => rfl⟩
    · exact ⟨.ok none, { s with own.trace := s.own.trace.push (s.memory.heap.display v) }, fun _ => rfl⟩
  | offer =>
    have hsame (coroutines : Coroutines) : (s.withCoroutines coroutines).own = s.own := rfl
    show ∃ outcome s', ∀ coroutines, apply .offer args (s.withCoroutines coroutines) = _
    unfold apply change
    dsimp only
    rcases arg args 0 with error | v
    · exact ⟨.error error, s, fun _ => rfl⟩
    simp only [hsame, bind, Except.bind]
    rcases s.own.iterators[s.own.iterators.size - 1]? with _ | slot
    · exact ⟨.error (.invalidState .noCoroutine), s, fun _ => rfl⟩
    dsimp only
    rcases Resumable.offer slot.pending v with error | pending
    · exact ⟨.error error, s, fun _ => rfl⟩
    · let iterators :=
        s.own.iterators.setIfInBounds (s.own.iterators.size - 1) { slot with pending := pending }
      exact ⟨.ok none, { s with own.iterators := iterators }, fun _ => rfl⟩
  | _ => exact ⟨_, s, fun _ => rfl⟩

/-! ## Frames -/

/-- The value of a variable belongs to the coroutine, but not to its frames. -/
theorem spares_onVariable {key : Int} {f : Nat → LocalValues → Option Value × LocalValues}
    (h : onVariable s key f = .ok (result, s')) : s.memory.Spares c s'.memory := by
  unfold onVariable at h
  split at h
  · cases h
  · obtain ⟨⟨result, coroutines⟩, hactive, hs⟩ := bind_eq_ok.1 h
    cases hs
    obtain ⟨hsame, hrunning⟩ := Coroutines.onActive_spares hactive fun _ co co' x hx => by
      cases hx
      exact ⟨rfl, rfl⟩
    exact ⟨hsame, hrunning, .refl _⟩

/-- No method works on frames. -/
theorem spares_apply (n : BenchMethod) (args : List Value) (s : HostState BenchState) (c : Nat) :
    s.memory.Spares c (n.apply args s).2.memory := by
  rcases n.apply_cases args s with hsame | ⟨type, message, hmade⟩ | ⟨key, f, result, s', hvariable, hs'⟩
  · rw [hsame]
    exact .refl c _
  · rw [hmade]
    exact .of_heap c (s.memory.heap.extends_newException type message)
  · rw [hs']
    exact spares_onVariable hvariable

end BenchMethod

/-- A step of a workbench does not work on frames. -/
theorem Execution.spares_of_atHost {e : Execution benchHost} (h : e.AtHost) (c : Nat) :
    e.machine.memory.Spares c e.step.machine.memory := by
  rcases h with ⟨call, n, hcall, htarget⟩ | ⟨outcome, next, rest, hfocus, hwaiting⟩
  · have hspares := n.spares_apply call.args e.machine.host c
    rcases happly : n.apply call.args e.machine.host with ⟨response, host⟩
    rw [happly] at hspares
    rw [step_of_call? hcall, call_of_native htarget happly, respond_machine]
    exact hspares
  · rw [step_of_native hfocus hwaiting
      (show benchHost.resume next outcome _ = (.answer outcome, _) from rfl)]
    exact .refl c _

/-- What a method of the workbench has asked for is all that it comes to. -/
theorem Execution.handsOn_of_native {e : Execution benchHost} {outcome : Except RunError (Option Value)}
    {next : Unit} {rest : List (Waiting Unit)} (hfocus : e.focus = .answer outcome)
    (hwaiting : e.waiting = .native next :: rest) : e.HandsOn := by
  have hstep := step_of_native hfocus hwaiting
    (show benchHost.resume next outcome _ = (.answer outcome, _) from rfl)
  exact ⟨by rw [hstep, hfocus]; rfl, by rw [hstep, hwaiting]; rfl, by rw [hstep]; rfl⟩

end Resumable
