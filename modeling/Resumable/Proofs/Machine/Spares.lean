import Resumable.Machine.Basic
import Resumable.Proofs.Machine.Effects
import Resumable.Proofs.Machine.Runs

/-!
# What is spared

The frames of a running coroutine are worked on only by frame operations, and only while the
coroutine is the active one. All other instructions, and all methods of the host, spare it
(`Memory.Spares`): they also leave the active coroutine active, and every object keeps its class.
-/

namespace Resumable

namespace Coroutines

/-- The frames of a coroutine that is running. -/
def running? (cs : Coroutines) (c : Nat) : Option FrameStack :=
  cs.all[c]?.bind fun co => if co.state = .running then some co.stack else none

variable {cs : Coroutines} {c k : Nat} {s : FrameStack}

theorem running?_eq_some : cs.running? c = some s ↔
    ∃ co, cs.all[c]? = some co ∧ co.state = .running ∧ co.stack = s := by
  simp [running?, Option.bind_eq_some_iff]

/-- A coroutine is left alone if another one is put in its place. -/
theorem running?_of_ne {all : Array Coroutine} (h : all[c]? = cs.all[c]?) (active : Option Nat) :
    Coroutines.running? ⟨all, active⟩ c = cs.running? c := by
  simp [running?, h]

end Coroutines

namespace Memory

/-- The coroutine `c` keeps its frames, and the active coroutine stays active. -/
structure Spares (c : Nat) (m m' : Memory) : Prop where
  active : m'.coroutines.active = m.coroutines.active
  running : m'.coroutines.running? c = m.coroutines.running? c
  heap : m.heap.Extends m'.heap

variable {c : Nat} {m m' m'' : Memory} {s s' : FrameStack}

theorem Spares.refl (c : Nat) (m : Memory) : m.Spares c m := ⟨rfl, rfl, .refl _⟩

theorem Spares.trans (h : m.Spares c m') (h' : m'.Spares c m'') : m.Spares c m'' :=
  ⟨h'.active.trans h.active, h'.running.trans h.running, h.heap.trans h'.heap⟩

theorem Spares.of_heap (c : Nat) {heap : Heap} (h : m.heap.Extends heap) :
    m.Spares c { m with heap } := ⟨rfl, rfl, h⟩

/-! ## The frames of the active coroutine -/

theorem stack?_of_running? (hactive : m.coroutines.active = some c)
    (hs : m.coroutines.running? c = some s) : m.stack? = some s := by
  obtain ⟨co, hall, -, rfl⟩ := Coroutines.running?_eq_some.1 hs
  simp [stack?, hactive, hall]

theorem active_withStack : (m.withStack s).coroutines.active = m.coroutines.active := by
  unfold withStack
  split
  · rfl
  · split <;> rfl

theorem running?_withStack (hactive : m.coroutines.active = some c)
    (hs : m.coroutines.running? c = some s) : (m.withStack s').coroutines.running? c = some s' := by
  obtain ⟨co, hall, hrunning, rfl⟩ := Coroutines.running?_eq_some.1 hs
  rw [withStack_eq hactive hall]
  exact Coroutines.running?_eq_some.2 ⟨_, getElem?_withStack hall, hrunning, rfl⟩

end Memory

/-! ## Coroutines -/

namespace Coroutines

variable {cs cs' : Coroutines} {c k : Nat} {s : FrameStack}

/-- Work on the active coroutine leaves all others alone. -/
theorem onActive_spares {α : Type} {x : α} {f : Coroutine → Except RunError (α × Coroutine)}
    (h : cs.onActive f = .ok (x, cs'))
    (hf : cs.active = some c → ∀ co co' x, f co = .ok (x, co') →
      co'.state = co.state ∧ co'.stack = co.stack) :
    cs'.active = cs.active ∧ cs'.running? c = cs.running? c := by
  unfold onActive at h
  split at h
  · cases h
  · rename_i k hactive
    split at h
    · cases h
    · rename_i co hco
      obtain ⟨⟨x, co'⟩, hx, hcs⟩ := bind_eq_ok.1 h
      cases hcs
      refine ⟨rfl, ?_⟩
      have hlt := (Array.getElem?_eq_some_iff.1 hco).1
      by_cases hkc : k = c
      · subst hkc
        obtain ⟨hstate, hstack⟩ := hf hactive co co' x hx
        unfold running?
        rw [Array.getElem?_setIfInBounds_self_of_lt hlt, hco, Option.bind_some, Option.bind_some,
          hstate, hstack]
      · exact running?_of_ne (Array.getElem?_setIfInBounds_ne hkc) _

theorem exists_not_active (cs : Coroutines) : ∃ c, cs.active ≠ some c := by
  rcases cs.active with _ | k
  · exact ⟨0, nofun⟩
  · exact ⟨k + 1, by simp⟩

/-- Only the active coroutine can lose its frames to an operation. -/
theorem onStack_spares {α : Type} {x : α} {f : FrameStack → Except RunError (α × FrameStack)}
    (h : cs.onStack f = .ok (x, cs')) (hc : cs.active ≠ some c) :
    cs'.active = cs.active ∧ cs'.running? c = cs.running? c :=
  onActive_spares h fun hactive => absurd hactive hc

/-- A coroutine that is running cannot be run again, and is not touched when another one is. -/
theorem begin_spares (h : cs.begin k = .ok cs') (hs : cs.running? c = some s) :
    k ≠ c ∧ cs'.active = some k ∧ cs'.running? c = some s := by
  obtain ⟨co, hco, hrunning, rfl⟩ := running?_eq_some.1 hs
  unfold begin at h
  split at h
  · cases h
  · rename_i co' hco'
    split at h
    · rename_i hpause
      cases h
      have hkc : k ≠ c := by
        rintro rfl
        rw [hco] at hco'
        cases hco'
        rw [Coroutine.pause?, hrunning] at hpause
        cases hpause
      refine ⟨hkc, rfl, running?_eq_some.2 ⟨co, ?_, hrunning, rfl⟩⟩
      show (cs.all.modify k _)[c]? = some co
      rw [Array.getElem?_modify, if_neg hkc, hco]
    · cases h

/-- The end of a run does not touch other coroutines. -/
theorem conclude_spares (cs : Coroutines) (previous : Option Nat) (outcome : Except RunError Unit)
    (hkc : k ≠ c) :
    (cs.conclude k previous outcome).1.active = previous ∧
      (cs.conclude k previous outcome).1.running? c = cs.running? c := by
  have hsame (f : Coroutine → Coroutine) : (cs.all.modify k f)[c]? = cs.all[c]? := by
    rw [Array.getElem?_modify, if_neg hkc]
  unfold conclude
  dsimp only
  split <;> exact ⟨rfl, running?_of_ne (hsame _) _⟩

end Coroutines

/-! ## Computations of an activation -/

/-- Wherever the active coroutine is such as `P` says, the computation spares the coroutine `c`, and
the activation stays in its method and at its place. -/
def Exec.Spares {α : Type} (c : Nat) (P : Option Nat → Prop) (x : Exec α) : Prop :=
  ∀ a m, P m.coroutines.active → m.Spares c ((x.run a).run m).2 ∧
    ∀ r a', ((x.run a).run m).1 = .ok (r, a') → a'.method = a.method ∧ a'.pc = a.pc

/-- An instruction spares a coroutine unless it works on frames and the coroutine is active. -/
theorem Exec.spares_instr {c : Nat} {P : Option Nat → Prop} (classes : ClassTable) {i : Instr}
    (hi : (∀ op, i ≠ .frame op) ∨ ∀ k, P k → k ≠ some c) : Spares c P (instr classes i) := by
  intro a m hP
  -- Whatever an instruction does keeps method and place, and spares the coroutine.
  let S (a' : Activation) (m' : Memory) : Prop :=
    (a'.method = a.method ∧ a'.pc = a.pc) ∧ m.Spares c m'
  have hl : Laws S fun _ m' => m.Spares c m' :=
    { stack := fun _ => id
      heap := fun hheap hS => ⟨hS.1, hS.2.trans (.of_heap c hheap)⟩
      statics := fun _ hS => ⟨hS.1, hS.2.trans ⟨rfl, rfl, .refl _⟩⟩
      fails := fun _ => And.right
      throws := fun _ => And.right }
  have hi : i.Laws S fun _ m' => m.Spares c m' :=
    { reads := fun _ _ => And.right
      writes := fun _ _ => id
      labels := fun _ _ => And.right
      frames := fun hframe hwork hS => by
        have hne := hi.resolve_left (fun hnot => hnot _ hframe) _ (hS.2.active ▸ hP)
        obtain ⟨hactive, hrunning⟩ := Coroutines.onStack_spares hwork hne
        exact ⟨hS.1, hS.2.trans ⟨hactive, hrunning, .refl _⟩⟩ }
  have hkeeps := keeps_instr hl hi classes a m ⟨⟨rfl, rfl⟩, .refl c m⟩
  rcases hrun : ((instr classes i).run a).run m with ⟨e | ⟨r, a'⟩, m'⟩
  all_goals rw [hrun] at hkeeps
  · refine ⟨hkeeps, fun r' a'' h => ?_⟩
    cases h
  · refine ⟨hkeeps.2, fun r' a'' h => ?_⟩
    cases h
    exact hkeeps.1

/-! ## Where an instruction leads -/

/-- Where an instruction may lead: a jump to one of its labels, a return out of the method and nowhere
else, and a call to a method. -/
def Instr.Leads (i : Instr) (code : List Instr) : Move → Prop
  | .next => ∀ op, i = .simple op → op.isReturn = false
  | .goto pc => ∃ l ∈ i.branchTargets, labelPosition? code l = some pc
  | .leave _ => ∃ op, i = .simple op ∧ op.isReturn = true
  | .call _ => ∃ op member, i = .invoke op member

namespace Exec

variable {α β : Type}

/-- Whatever the computation succeeds with is such. -/
def Yields (Q : α → Prop) (x : Exec α) : Prop := ∀ a m r a' m', Does x a m r a' m' → Q r

namespace Yields

variable {Q : α → Prop}

theorem pure {r : α} (hr : Q r) : Yields Q (Pure.pure r : Exec α) := by
  intro a m r' a' m' h
  cases h
  exact hr

theorem throw (e : RunError) : Yields Q (MonadExcept.throw e : Exec α) :=
  fun _ _ _ _ _ h => (Does.not_throw h).elim

theorem bind {x : Exec β} {k : β → Exec α} (hk : ∀ r, Yields Q (k r)) : Yields Q (x >>= k) := by
  intro a m r a' m' h
  obtain ⟨r₁, a₁, m₁, -, h⟩ := h.bind
  exact hk r₁ a₁ m₁ r a' m' h

end Yields

theorem yields_simple (op : Opcode) (code : List Instr) :
    Yields ((Instr.simple op).Leads code) (simple op) := by
  have hnext {op : Opcode} (h : op.isReturn = false) : (Instr.simple op).Leads code .next := by
    rintro _ ⟨⟩
    exact h
  cases op
  case nop => exact .pure (hnext rfl)
  case ret => exact .pure ⟨_, rfl, rfl⟩
  case ireturn | lreturn | freturn | dreturn | areturn =>
    exact .bind fun _ => .pure ⟨_, rfl, rfl⟩
  case athrow | monitorenter | monitorexit =>
    refine .bind fun v => ?_
    dsimp only
    split
    · exact .bind fun _ => by first | exact .throw _ | exact .pure (hnext rfl)
    · first | exact .throw _ | exact .pure (hnext rfl)
  case aconstNull | pop | arraylength | aaload | iaload | aastore | iastore =>
    exact .bind fun _ => .pure (hnext rfl)
  case dup => exact .bind fun _ => .bind fun _ => .pure (hnext rfl)
  case dupX1 =>
    exact .bind fun _ => .bind fun _ => .bind fun _ => .bind fun _ => .bind fun _ => .pure (hnext rfl)
  case swap => exact .bind fun _ => .bind fun _ => .bind fun _ => .bind fun _ => .pure (hnext rfl)
  all_goals
    unfold simple
    dsimp only
    split
    · exact .bind fun _ => .bind fun _ => .pure (hnext rfl)
    · refine .bind fun _ => .bind fun _ => ?_
      split
      · exact .bind fun _ => .pure (hnext rfl)
      · exact .throw _
    · exact .throw _

/-- An instruction leads where its kind allows. -/
theorem leads_instr {classes : ClassTable} {i : Instr} {a a' : Activation} {m m' : Memory}
    {move : Move} (h : Does (instr classes i) a m move a' m') :
    i.Leads a.method.method.code move := by
  cases i with
  | label l =>
    cases h
    nofun
  | simple op => exact yields_simple op _ _ _ _ _ _ h
  | jump op l =>
    obtain ⟨taken, a₁, m₁, hcondition, h⟩ := h.bind
    obtain ⟨rfl, -⟩ := hcondition.condition
    split at h
    · obtain ⟨pc, rfl, hpc, -⟩ := h.jumpTo
      exact ⟨l, List.mem_singleton_self l, hpc⟩
    · cases h
      nofun
  | switch low default targets =>
    obtain ⟨n, a₁, m₁, hpop, h⟩ := h.bind
    obtain ⟨rest, -, rfl, -⟩ := hpop.popInt
    obtain ⟨pc, rfl, hpc, -⟩ := h.jumpTo
    refine ⟨_, ?_, hpc⟩
    split
    · exact List.mem_cons_self
    · rcases htarget : targets[(n.toInt - low.toInt).toNat]? with _ | l
      · exact List.mem_cons_self
      · exact List.mem_cons_of_mem _ (List.mem_of_getElem? htarget)
  | invoke op member =>
    obtain ⟨request, a₁, m₁, -, h⟩ := h.bind
    cases h
    exact ⟨op, member, rfl⟩
  | _ =>
    obtain ⟨_, a₁, m₁, -, h⟩ := h.bind
    cases h
    nofun

end Exec

end Resumable
