import Mathlib.Data.List.Perm.Subperm
import Resumable.Coroutine.Script
import Resumable.Proofs.Outcome

/-!
# Runs inside runs

Bodies of coroutines run other coroutines, and those run others again. At any time the runs that are
going on form a chain. `Scene.Nested chain s` says that just the coroutines of the chain are running
in the scene, and that the innermost of them is active. A run keeps to this whatever its body does:
it puts its coroutine in front of the chain, and takes it off again when it ends, by whatever way
(`nested_runWithin`).

So no coroutine is twice in a chain, and a chain is never longer than there are coroutines. This is
why the bound on the depth of runs is never met, and a run inside a body is a run like any other
(`run_of_pause`).
-/

namespace Resumable

/-! ## Coroutines -/

namespace Coroutines

variable {cs cs' cs'' : Coroutines} {k : Nat} {c : Coroutine}

/-- The same coroutines are there, in the same states, and the same one is active. -/
structure Alike (cs cs' : Coroutines) : Prop where
  size : cs'.all.size = cs.all.size
  state : ∀ k, cs'.state? k = cs.state? k
  active : cs'.active = cs.active

theorem Alike.refl (cs : Coroutines) : cs.Alike cs := ⟨rfl, fun _ => rfl, rfl⟩

/-- All that work on the active coroutine can do, if it does not fail. -/
theorem onActive_eq_ok {α : Type} {x : α} {f : Coroutine → Except RunError (α × Coroutine)}
    (h : cs.onActive f = .ok (x, cs')) :
    ∃ k c c', cs.active = some k ∧ cs.all[k]? = some c ∧ f c = .ok (x, c') ∧
      cs' = { cs with all := cs.all.setIfInBounds k c' } := by
  unfold onActive at h
  split at h
  · cases h
  · next k hactive =>
    split at h
    · cases h
    · next c hc =>
      obtain ⟨⟨x, c'⟩, hx, hcs⟩ := bind_eq_ok.1 h
      cases hcs
      exact ⟨k, c, c', hactive, hc, hx, rfl⟩

theorem getElem?_set {c' : Coroutine} (hc : cs.all[k]? = some c) (j : Nat) :
    (cs.all.setIfInBounds k c')[j]? = if j = k then some c' else cs.all[j]? := by
  have hlt := (Array.getElem?_eq_some_iff.1 hc).1
  rw [Array.getElem?_setIfInBounds]
  by_cases heq : j = k
  · simp [heq, hlt]
  · simp [heq, Ne.symm heq]

theorem alike_set {c' : Coroutine} (hc : cs.all[k]? = some c) (hstate : c'.state = c.state) :
    cs.Alike { cs with all := cs.all.setIfInBounds k c' } := by
  refine ⟨by simp, fun j => ?_, rfl⟩
  simp only [state?, getElem?_set hc]
  split
  · next heq => simp [heq, hc, hstate]
  · rfl

/-- Work on the active coroutine that leaves its state alone. -/
theorem onActive_alike {α : Type} {x : α} {f : Coroutine → Except RunError (α × Coroutine)}
    (h : cs.onActive f = .ok (x, cs')) (hf : ∀ c c' x, f c = .ok (x, c') → c'.state = c.state) :
    cs.Alike cs' := by
  obtain ⟨k, c, c', -, hc, hx, rfl⟩ := onActive_eq_ok h
  exact alike_set hc (hf c c' x hx)

theorem onStack_alike {α : Type} {x : α} {f : FrameStack → Except RunError (α × FrameStack)}
    (h : cs.onStack f = .ok (x, cs')) : cs.Alike cs' := by
  refine onActive_alike h fun c c' x hx => ?_
  obtain ⟨⟨x, stack⟩, -, hc⟩ := bind_eq_ok.1 hx
  cases hc
  rfl

theorem state?_modify (cs : Coroutines) (k j : Nat) (f : Coroutine → Coroutine) :
    (cs.modify k f).state? j =
      if j = k then cs.all[k]?.map fun c => (f c).state else cs.state? j := by
  simp only [state?, modify, Array.getElem?_modify]
  by_cases heq : k = j
  · simp [heq, Function.comp_def]
  · simp [heq, Ne.symm heq]

theorem begin_of_pause (hc : cs.all[k]? = some c) (hpause : c.pause?.isSome) :
    cs.begin k = .ok { cs.modify k ({ · with state := .running }) with active := some k } := by
  obtain ⟨p, hp⟩ := Option.isSome_iff_exists.1 hpause
  simp [begin, hc, hp]

theorem begin_of_not_pause (hc : cs.all[k]? = some c) (hpause : c.pause? = none) :
    cs.begin k = .error (.invalidState .notRunnable) := by
  simp [begin, hc, hpause]

theorem begin_of_none (hc : cs.all[k]? = none) : cs.begin k = .error (.noSuchClass (toString k)) := by
  simp [begin, hc]

end Coroutines

namespace Coroutine

variable {c : Coroutine}

theorem pause?_eq_none_iff : c.pause? = none ↔ c.state = .running ∨ c.state = .finished := by
  unfold pause?
  cases c.state <;> simp

theorem pause?_isSome_iff : c.pause?.isSome ↔ c.state = .new ∨ c.state = .suspended := by
  unfold pause?
  cases c.state <;> simp

end Coroutine

/-- The coroutine that a step runs. -/
def BodyStep.runs? : BodyStep → Option Nat
  | .run k | .runOrFail k => some k
  | _ => none

namespace Scene

variable {s s' : Scene} {k key : Nat} {c : Coroutine} {chain : List Nat} {step : BodyStep}
  {steps : List BodyStep} {run run' : Nat → Scene → Scene × Except RunError Unit}
  {f : LocalValues → Reply × LocalValues}

/-! ## Steps -/

/-- The scene with other values of a coroutine for variables. -/
def withLocals (s : Scene) (k : Nat) (c : Coroutine) (l : LocalValues) : Scene :=
  { s with coroutines :=
      { s.coroutines with all := s.coroutines.all.setIfInBounds k { c with locals := l } } }

/-- Work on the values for a variable that can be asked for is done on those of the active
coroutine. -/
theorem onVariable_of_live (hlive : s.vars.isLive key = true)
    (hactive : s.coroutines.active = some k) (hc : s.coroutines.all[k]? = some c) :
    s.onVariable key f = (s.withLocals k c (f c.locals).2, .ok (f c.locals).1) := by
  simp [onVariable, hlive, Coroutines.onActive, hactive, hc, pure, Except.pure, bind, Except.bind,
    withLocals]

/-- It fails and changes nothing if there is no such variable or no active coroutine. -/
theorem onVariable_cases (s : Scene) (key : Nat) (f : LocalValues → Reply × LocalValues) :
    (∃ e, s.onVariable key f = (s, .error e)) ∨
      ∃ k c, s.vars.isLive key = true ∧ s.coroutines.active = some k ∧
        s.coroutines.all[k]? = some c := by
  unfold onVariable
  cases hlive : s.vars.isLive key with
  | false => exact .inl ⟨_, rfl⟩
  | true =>
    simp only [Bool.not_true, Bool.false_eq_true, if_false]
    split
    · next hresult =>
      obtain ⟨k, c, -, hactive, hc, -⟩ := Coroutines.onActive_eq_ok hresult
      exact .inr ⟨k, c, trivial, hactive, hc⟩
    · exact .inl ⟨_, rfl⟩

/-- All that a step that runs no coroutine can do to a scene. -/
inductive Effect (s : Scene) : BodyStep → Scene → Prop where
  | nothing {step : BodyStep} : Effect s step s
  | stack {step : StackStep} {reply : Reply} {heap : Heap} {bindings : Bindings}
      {coroutines : Coroutines} :
      s.coroutines.onStack (step.perform s.heap s.bindings) =
        .ok ((reply, heap, bindings), coroutines) →
      Effect s (.stack step) { s with heap, bindings, coroutines }
  | heap {heap : Heap} : Effect s .counterfeit { s with heap }
  /-- Work on the values of the active coroutine. -/
  | locals {step : BodyStep} {k : Nat} {c : Coroutine} {l : LocalValues} :
      s.coroutines.active = some k → s.coroutines.all[k]? = some c →
      Effect s step (s.withLocals k c l)
  | drop {key : Nat} : Effect s (.drop key) { s with vars := s.vars.drop key }
  | produce {element : Int} {k : Nat} {pending : Option Int} :
      Effect s (.produce element) (s.modifyBody k ({ · with pending }))

theorem effect_perform (hstep : step.runs? = none) : s.Effect step (s.perform run step).1 := by
  have hvariable (key : Nat) (f : LocalValues → Reply × LocalValues) (step : BodyStep) :
      s.Effect step (s.onVariable key f).1 := by
    obtain ⟨e, h⟩ | ⟨k, c, hlive, hactive, hc⟩ := onVariable_cases s key f
    · rw [h]
      exact .nothing
    · rw [onVariable_of_live hlive hactive hc]
      exact .locals hactive hc
  cases step with
  | run k | runOrFail k => cases hstep
  | stack step =>
    rw [perform]
    split
    · next hresult => exact .stack hresult
    · exact .nothing
  | get key | set key value | remove key => exact hvariable key _ _
  | produce element =>
    rw [perform]
    split
    · exact .nothing
    · split
      · exact .nothing
      · exact .produce
  | counterfeit => exact .heap
  | drop key => exact .drop
  | suspend | fail _ | state _ | capture _ | current => exact .nothing

namespace Effect

/-- No step notes anything itself. -/
theorem events (h : s.Effect step s') : s'.events = s.events := by
  cases h <;> rfl

/-- No coroutine's state changes. -/
theorem alike (h : s.Effect step s') : s.coroutines.Alike s'.coroutines := by
  cases h with
  | stack hresult => exact Coroutines.onStack_alike hresult
  | locals _ hc => exact Coroutines.alike_set hc rfl
  | nothing | heap | drop | produce => exact .refl _

end Effect

theorem runNumber_cases (run : Nat → Scene → Scene × Except RunError Unit) (s : Scene) (k : Nat)
    (settle : RunError → Except RunError Reply) :
    (s.runNumber run k settle).1 = (run k s).1 ∨ (s.runNumber run k settle).1 = s := by
  unfold runNumber
  split
  · exact .inr rfl
  · refine .inl ?_
    split <;> simp_all

/-- A step runs a coroutine, or it changes no coroutine's state. -/
theorem perform_cases (run : Nat → Scene → Scene × Except RunError Unit) (s : Scene)
    (step : BodyStep) : (∃ j, (s.perform run step).1 = (run j s).1) ∨
      s.coroutines.Alike (s.perform run step).1.coroutines := by
  have hrun (k : Nat) (settle : RunError → Except RunError Reply) :
      (∃ j, (s.runNumber run k settle).1 = (run j s).1) ∨
        s.coroutines.Alike (s.runNumber run k settle).1.coroutines := by
    rcases runNumber_cases run s k settle with h | h
    · exact .inl ⟨k, h⟩
    · exact .inr (by rw [h]; exact .refl _)
  cases step with
  | run k | runOrFail k =>
    rw [perform]
    exact hrun k _
  | _ => exact .inr (effect_perform rfl).alike

/-- What holds because of the coroutines' states holds after a step, if it does after every run. -/
theorem perform_induct {P : Scene → Prop}
    (halike : ∀ s s' : Scene, s.coroutines.Alike s'.coroutines → P s → P s')
    (hrun : ∀ k s, P s → P (run k s).1) (hs : P s) : P (s.perform run step).1 := by
  rcases perform_cases run s step with ⟨k, h⟩ | h
  · exact h ▸ hrun k s hs
  · exact halike s _ h hs

theorem performAll_induct {P : Scene → Prop}
    (halike : ∀ s s' : Scene, s.coroutines.Alike s'.coroutines → P s → P s')
    (hrun : ∀ k s, P s → P (run k s).1) (hs : P s) : P (performAll run steps s).1 := by
  induction steps generalizing s with
  | nil => exact hs
  | cons step steps ih =>
    have hnext : P (s.perform run step).1 := perform_induct halike hrun hs
    rw [performAll]
    split
    · next s' reply hperform =>
      rw [hperform] at hnext
      exact ih (halike s' (s'.note step (.ok reply)) (.refl _) hnext)
    · next s' e hperform =>
      rw [hperform] at hnext
      exact halike s' (s'.note step (.error e)) (.refl _) hnext

theorem perform_congr (h : ∀ k, run k s = run' k s) (step : BodyStep) :
    s.perform run step = s.perform run' step := by
  cases step <;> simp [perform, runNumber, h]

/-- Steps come to the same with another way of running that agrees in every scene they can lead
to. -/
theorem performAll_congr {P : Scene → Prop}
    (halike : ∀ s s' : Scene, s.coroutines.Alike s'.coroutines → P s → P s')
    (hrun : ∀ k s, P s → P (run k s).1) (hsame : ∀ k s, P s → run k s = run' k s) (hs : P s) :
    performAll run steps s = performAll run' steps s := by
  induction steps generalizing s with
  | nil => rfl
  | cons step steps ih =>
    have hnext : P (s.perform run step).1 := perform_induct halike hrun hs
    rw [performAll, performAll, ← perform_congr (fun k => hsame k s hs) step]
    rcases hperform : s.perform run step with ⟨s', e | reply⟩
    · rfl
    · rw [hperform] at hnext
      exact ih (halike s' (s'.note step (.ok reply)) (.refl _) hnext)

/-! ## The chain of runs -/

/-- The runs that are going on are those of `chain`, the innermost first. -/
structure Nested (chain : List Nat) (s : Scene) : Prop where
  /-- No coroutine is run inside itself. -/
  nodup : chain.Nodup
  running : ∀ k, s.coroutines.state? k = some .running ↔ k ∈ chain
  active : s.coroutines.active = chain.head?

/-- The scene when the body of a coroutine starts. -/
def starting (s : Scene) (k : Nat) : Scene :=
  { s with coroutines :=
      { s.coroutines.modify k ({ · with state := .running }) with active := some k } }.modifyBody k
    fun b => { b with count := b.count + 1 }

/-- The scene when the body of a coroutine has come to `outcome`, and what its run comes to. -/
def ending (s : Scene) (k : Nat) (previous : Option Nat) (outcome : Except RunError Unit) :
    Scene × Except RunError Unit :=
  ({ s with coroutines := (s.coroutines.conclude k previous outcome).1 },
    (s.coroutines.conclude k previous outcome).2)

theorem Nested.of_alike (h : s.Nested chain) (halike : s.coroutines.Alike s'.coroutines) :
    s'.Nested chain where
  nodup := h.nodup
  running k := by rw [halike.state, h.running]
  active := halike.active.trans h.active

/-- A scene in which no run is going on. -/
theorem nested_nil_iff :
    s.Nested [] ↔ s.coroutines.active = none ∧ ∀ c ∈ s.coroutines.all, c.state ≠ .running := by
  constructor
  · intro h
    refine ⟨h.active, fun c hc hstate => ?_⟩
    obtain ⟨k, hk⟩ := Array.mem_iff_getElem?.1 hc
    have := (h.running k).1 (by simp [Coroutines.state?, hk, hstate])
    cases this
  · rintro ⟨hactive, hidle⟩
    refine ⟨List.nodup_nil, fun k => ⟨fun hk => ?_, fun hk => by cases hk⟩, hactive⟩
    obtain ⟨c, hc, hstate⟩ := Option.map_eq_some_iff.1 hk
    exact absurd hstate (hidle c (Array.mem_of_getElem? hc))

theorem state?_eq_some (hc : s.coroutines.all[k]? = some c) :
    s.coroutines.state? k = some c.state := by
  simp [Coroutines.state?, hc]

theorem Nested.lt_size (h : s.Nested chain) (hk : k ∈ chain) : k < s.coroutines.all.size := by
  have hstate := (h.running k).2 hk
  by_contra hout
  simp [Coroutines.state?, Array.getElem?_eq_none (Nat.le_of_not_lt hout)] at hstate

/-- A chain as long as there are coroutines has all of them. -/
theorem Nested.mem_of_size_le (h : s.Nested chain) (hsize : s.coroutines.all.size ≤ chain.length)
    (hk : k < s.coroutines.all.size) : k ∈ chain := by
  have hsub : chain ⊆ List.range s.coroutines.all.size := fun j hj =>
    List.mem_range.2 (h.lt_size hj)
  have hperm : chain.Perm (List.range s.coroutines.all.size) :=
    (List.subperm_of_subset h.nodup hsub).perm_of_length_le (by simpa using hsize)
  exact hperm.mem_iff.2 (List.mem_range.2 hk)

theorem nested_starting (h : s.Nested chain) (hc : s.coroutines.all[k]? = some c)
    (hpause : c.pause?.isSome) : (s.starting k).Nested (k :: chain) where
  nodup := by
    refine List.nodup_cons.2 ⟨fun hk => ?_, h.nodup⟩
    have hrunning := (h.running k).2 hk
    rw [state?_eq_some hc, Option.some.injEq] at hrunning
    simp [Coroutine.pause?, hrunning] at hpause
  running j := by
    show (s.coroutines.modify k _).state? j = _ ↔ _
    rw [Coroutines.state?_modify]
    by_cases heq : j = k
    · simp [heq, hc]
    · simp [heq, h.running]
  active := rfl

/-- The end of a run takes its coroutine off the chain. -/
theorem nested_ending (h : s.Nested (k :: chain)) (outcome : Except RunError Unit) :
    (s.ending k chain.head? outcome).1.Nested chain := by
  have hleft (f : Coroutine → Coroutine) (hf : ∀ c, (f c).state ≠ .running) (j : Nat) :
      (s.coroutines.modify k f).state? j = some .running ↔ j ∈ chain := by
    rw [Coroutines.state?_modify]
    by_cases heq : j = k
    · simp [heq, hf, (List.nodup_cons.1 h.nodup).1]
    · simp [heq, h.running]
  refine ⟨(List.nodup_cons.1 h.nodup).2, fun j => ?_, ?_⟩ <;>
    simp only [ending, Coroutines.conclude] <;> split
  · exact hleft _ (fun c => by simp) j
  · exact hleft _ (fun c => by simp) j
  · rfl
  · rfl

/-! ## Runs -/

theorem runWithin_of_not_pause (hc : s.coroutines.all[k]? = some c) (hpause : c.pause? = none)
    (depth : Nat) : runWithin depth k s = (s, .error (.invalidState .notRunnable)) := by
  cases depth <;> simp [runWithin, Coroutines.begin_of_not_pause hc hpause]

theorem runWithin_of_none (hc : s.coroutines.all[k]? = none) (depth : Nat) :
    runWithin depth k s = (s, .error (.noSuchClass (toString k))) := by
  cases depth <;> simp [runWithin, Coroutines.begin_of_none hc]

theorem runWithin_succ (hc : s.coroutines.all[k]? = some c) (hpause : c.pause?.isSome)
    (depth : Nat) : runWithin (depth + 1) k s =
      let (ended, outcome) := performAll (runWithin depth) (s.nextRun k) (s.starting k)
      ended.ending k s.coroutines.active outcome := by
  rw [runWithin, Coroutines.begin_of_pause hc hpause]
  rfl

/-- While the runs of `chain` are going on, the scene `s` can become `s'`. -/
structure Later (chain : List Nat) (s s' : Scene) : Prop where
  nested : s'.Nested chain
  /-- No coroutine is lost or made. -/
  size : s'.coroutines.all.size = s.coroutines.all.size

theorem Later.of_alike {t : Scene} (h : s.Later chain s') (halike : s'.coroutines.Alike t.coroutines) :
    s.Later chain t :=
  ⟨h.nested.of_alike halike, halike.size.trans h.size⟩

theorem Later.trans {t : Scene} (h : s.Later chain s') (h' : s'.Later chain t) : s.Later chain t :=
  ⟨h'.nested, h'.size.trans h.size⟩

theorem later_starting (h : s.Nested chain) (hc : s.coroutines.all[k]? = some c)
    (hpause : c.pause?.isSome) : s.Later (k :: chain) (s.starting k) :=
  ⟨nested_starting h hc hpause, by simp [starting, modifyBody, Coroutines.modify]⟩

theorem size_ending (s : Scene) (k : Nat) (previous : Option Nat) (outcome : Except RunError Unit) :
    (s.ending k previous outcome).1.coroutines.all.size = s.coroutines.all.size := by
  simp only [ending, Coroutines.conclude]
  split <;> simp [Coroutines.modify]

/-- The steps of a body keep to the chain, if the runs in them do. -/
theorem later_performAll (hs : s.Later chain s')
    (hrun : ∀ k (t : Scene), t.Nested chain → t.Later chain (run k t).1) :
    s.Later chain (performAll run steps s').1 :=
  performAll_induct (fun _ _ halike ht => ht.of_alike halike)
    (fun k t ht => ht.trans (hrun k t ht.nested)) hs

/-- A run keeps to the chain, whatever its body does. -/
theorem later_runWithin (depth : Nat) (h : s.Nested chain) :
    s.Later chain (runWithin depth k s).1 := by
  induction depth generalizing s k chain with
  | zero =>
    rw [runWithin]
    split <;> exact ⟨h, rfl⟩
  | succ depth ih =>
    rcases hc : s.coroutines.all[k]? with - | c
    · rw [runWithin_of_none hc]
      exact ⟨h, rfl⟩
    by_cases hpause : c.pause?.isSome
    · rw [runWithin_succ hc hpause]
      have hended : s.Later (k :: chain)
          (performAll (runWithin depth) (s.nextRun k) (s.starting k)).1 :=
        later_performAll (later_starting h hc hpause) fun k t ht => ih (k := k) ht
      exact ⟨h.active ▸ nested_ending hended.nested _, (size_ending ..).trans hended.size⟩
    · rw [runWithin_of_not_pause hc (by simpa using hpause)]
      exact ⟨h, rfl⟩

/-- A body does not notice another way of running that agrees wherever the body can come to. -/
theorem body_congr (h : s.Nested chain) (hc : s.coroutines.all[k]? = some c)
    (hpause : c.pause?.isSome) {depth : Nat}
    (hsame : ∀ j (t : Scene), s.Later (k :: chain) t → runWithin depth j t = run' j t) :
    performAll (runWithin depth) (s.nextRun k) (s.starting k) =
      performAll run' (s.nextRun k) (s.starting k) :=
  performAll_congr (fun _ _ halike ht => ht.of_alike halike)
    (fun _ _ ht => ht.trans (later_runWithin _ ht.nested)) hsame (later_starting h hc hpause)

/-- More depth than there are coroutines outside of the chain changes nothing. -/
theorem runWithin_stable {depth : Nat} (h : s.Nested chain)
    (hdepth : s.coroutines.all.size ≤ depth + chain.length) :
    runWithin (depth + 1) k s = runWithin depth k s := by
  induction depth generalizing s k chain with
  | zero =>
    rcases hc : s.coroutines.all[k]? with - | c
    · simp only [runWithin_of_none hc]
    · have hk : k ∈ chain := h.mem_of_size_le (by simpa using hdepth)
        (Array.getElem?_eq_some_iff.1 hc).1
      have hrunning := (h.running k).2 hk
      rw [state?_eq_some hc, Option.some.injEq] at hrunning
      have hpause : c.pause? = none := Coroutine.pause?_eq_none_iff.2 (.inl hrunning)
      simp only [runWithin_of_not_pause hc hpause]
  | succ depth ih =>
    rcases hc : s.coroutines.all[k]? with - | c
    · simp only [runWithin_of_none hc]
    by_cases hpause : c.pause?.isSome
    · rw [runWithin_succ hc hpause, runWithin_succ hc hpause]
      have hsame := body_congr h hc hpause fun j t (ht : s.Later (k :: chain) t) =>
        ih (k := j) ht.nested (by rw [ht.size, List.length_cons]; omega)
      rw [hsame]
    · have hrefused : c.pause? = none := by simpa using hpause
      simp only [runWithin_of_not_pause hc hrefused]

/-- The bound on the depth of runs is never met. -/
theorem runWithin_eq_run {depth : Nat} (h : s.Nested chain)
    (hdepth : s.coroutines.all.size ≤ depth + chain.length) : runWithin depth k s = s.run k := by
  have hdeeper {d : Nat} (hd : s.coroutines.all.size ≤ d + chain.length) (extra : Nat) :
      runWithin (d + extra) k s = runWithin d k s := by
    induction extra with
    | zero => rfl
    | succ extra ih =>
      have hmore : s.coroutines.all.size ≤ d + extra + chain.length := by omega
      rw [← Nat.add_assoc, runWithin_stable h hmore, ih]
  have hsize : s.coroutines.all.size ≤ s.coroutines.all.size + chain.length := by omega
  rw [run, ← hdeeper hdepth s.coroutines.all.size, ← hdeeper hsize depth, Nat.add_comm]

theorem later_run (h : s.Nested chain) : s.Later chain (s.run k).1 := later_runWithin _ h

/-- A run that is not refused makes the steps of the body, in which other runs are runs like this
one. -/
theorem run_of_pause (h : s.Nested chain) (hc : s.coroutines.all[k]? = some c)
    (hpause : c.pause?.isSome) : s.run k =
      let (ended, outcome) := performAll (fun k s => s.run k) (s.nextRun k) (s.starting k)
      ended.ending k s.coroutines.active outcome := by
  have hmore : s.coroutines.all.size ≤ s.coroutines.all.size + 1 + chain.length := by omega
  rw [← runWithin_eq_run h hmore, runWithin_succ hc hpause]
  have hrun (j : Nat) (t : Scene) (ht : s.Later (k :: chain) t) :
      runWithin s.coroutines.all.size j t = t.run j :=
    runWithin_eq_run ht.nested (by rw [ht.size]; omega)
  rw [body_congr h hc hpause hrun]

/-! ## Programs -/

/-- The points that a program comes to, made of steps from outside: which runs are going on there,
the innermost first, what the innermost body or else the program has still to do, and the scene. -/
inductive Reaches (program : List BodyStep) (s₀ : Scene) :
    List Nat → List BodyStep → Scene → Prop where
  | start : Reaches program s₀ [] program { s₀ with events := [] }
  /-- The program goes on after a step, even if it failed. -/
  | outside {step : BodyStep} {steps : List BodyStep} {s : Scene} :
      Reaches program s₀ [] (step :: steps) s →
      Reaches program s₀ [] steps { (s.execute (.step step)).1 with events := [] }
  /-- A body goes on after a step that did not fail. -/
  | inside {k : Nat} {chain : List Nat} {step : BodyStep} {steps : List BodyStep} {s s' : Scene}
      {reply : Reply} : Reaches program s₀ (k :: chain) (step :: steps) s →
      s.perform (fun k s => s.run k) step = (s', .ok reply) →
      Reaches program s₀ (k :: chain) steps (s'.note step (.ok reply))
  /-- A step starts a run. -/
  | enter {k : Nat} {chain : List Nat} {step : BodyStep} {steps : List BodyStep} {s : Scene}
      {c : Coroutine} : Reaches program s₀ chain (step :: steps) s →
      step.runs? = some k → s.coroutine k = .ok c → c.pause?.isSome →
      Reaches program s₀ (k :: chain) (s.nextRun k) (s.starting k)

theorem coroutine_eq_ok (h : s.coroutine k = .ok c) : s.coroutines.all[k]? = some c := by
  unfold coroutine at h
  split at h
  · next hc =>
    cases h
    obtain ⟨j, hj, hc⟩ := Option.bind_eq_some_iff.1 hc
    unfold number? at hj
    split at hj <;> cases hj
    exact hc
  · cases h

theorem Nested.perform (h : s.Nested chain) (step : BodyStep) :
    (s.perform (fun k s => s.run k) step).1.Nested chain :=
  perform_induct (P := Nested chain) (fun _ _ halike ht => ht.of_alike halike)
    (fun _ _ ht => (later_run ht).nested) h

theorem Reaches.nested {program : List BodyStep} {s₀ : Scene} (h₀ : s₀.Nested [])
    (h : Reaches program s₀ chain steps s) : s.Nested chain := by
  induction h with
  | start => exact h₀.of_alike (.refl _)
  | outside _ ih => exact (ih.perform _).of_alike (.refl _)
  | @inside _ _ step _ _ _ _ _ hperform ih =>
    have hnext := ih.perform step
    rw [hperform] at hnext
    exact hnext.of_alike (.refl _)
  | enter _ _ hc hpause ih => exact nested_starting ih (coroutine_eq_ok hc) hpause

/-- What a run of a coroutine that pauses comes to, if its body comes to `outcome` and leaves the
coroutine as `c`. -/
structure Settles (s : Scene) (k : Nat) (outcome : Except RunError Unit) (c : Coroutine) : Prop where
  /-- The signal suspends the coroutine, and does not leave the run. -/
  suspended : outcome = .error .suspension → (s.run k).2 = .ok () ∧
    (s.run k).1.coroutines.all[k]? =
      some { c with state := .suspended, stack := c.stack.rewind }
  finished : outcome ≠ .error .suspension → (s.run k).2 = outcome ∧
    (s.run k).1.coroutines.all[k]? = some { c with state := .finished }

theorem isSuspension_iff {outcome : Except RunError Unit} :
    Coroutines.isSuspension outcome = true ↔ outcome = .error .suspension := by
  cases outcome <;> simp [Coroutines.isSuspension]

theorem run_settles (h : s.Nested chain) (hc : s.coroutines.all[k]? = some c)
    (hpause : c.pause?.isSome) {outcome : Except RunError Unit}
    (hbody : performAll (fun k s => s.run k) (s.nextRun k) (s.starting k) = (s', outcome)) :
    ∃ c', s'.coroutines.all[k]? = some c' ∧ c'.state = .running ∧ s.Settles k outcome c' := by
  have hended : s.Later (k :: chain) s' := by
    have hlater : s.Later (k :: chain)
        (performAll (fun k s => s.run k) (s.nextRun k) (s.starting k)).1 :=
      later_performAll (later_starting h hc hpause) fun j t ht => later_run (k := j) ht
    rwa [hbody] at hlater
  obtain ⟨c', hc', hstate⟩ := Option.map_eq_some_iff.1 ((hended.nested.running k).2 (by simp))
  refine ⟨c', hc', hstate, fun hsignal => ?_, fun hother => ?_⟩ <;>
    simp only [run_of_pause h hc hpause, hbody, ending, Coroutines.conclude]
  · simp [isSuspension_iff.2 hsignal, Coroutines.modify, Array.getElem?_modify, hc']
  · simp [mt isSuspension_iff.1 hother, Coroutines.modify, Array.getElem?_modify, hc']

theorem run_ne_suspension (h : s.Nested chain) (hc : s.coroutines.all[k]? = some c) :
    (s.run k).2 ≠ .error .suspension := by
  by_cases hpause : c.pause?.isSome
  · obtain ⟨c', -, -, hsettles⟩ := run_settles h hc hpause (Prod.eta _).symm
    by_cases hsignal : (performAll (fun k s => s.run k) (s.nextRun k) (s.starting k)).2 =
        .error .suspension
    · rw [(hsettles.suspended hsignal).1]
      simp
    · rw [(hsettles.finished hsignal).1]
      exact hsignal
  · rw [run, runWithin_of_not_pause hc (by simpa using hpause)]
    exact fun h => nomatch h

/-- Wherever a program comes to, the coroutines that run are those of the chain of runs, and the
innermost of them is active; and a run from there is refused if its coroutine is running or
finished, and else starts it, settles what its body comes to, and makes the coroutine active again
that was so before. -/
theorem reaches_nested {program : List BodyStep} {s₀ : Scene} (h₀ : s₀.Nested [])
    (h : Reaches program s₀ chain steps s) :
    s.Nested chain ∧ ∀ k c, s.coroutines.all[k]? = some c →
      ((c.state = .running ∨ c.state = .finished) →
        s.run k = (s, .error (.invalidState .notRunnable))) ∧
      ((c.state = .new ∨ c.state = .suspended) →
        (s.starting k).coroutines.state? k = some .running ∧
        ∃ ended outcome c',
          performAll (fun k s => s.run k) (s.nextRun k) (s.starting k) = (ended, outcome) ∧
          ended.coroutines.all[k]? = some c' ∧ s.Settles k outcome c') ∧
      (s.run k).2 ≠ .error .suspension ∧
      (s.run k).1.coroutines.active = s.coroutines.active := by
  have hs : s.Nested chain := h.nested h₀
  refine ⟨hs, fun k c hc => ⟨fun hstate => ?_, fun hstate => ?_, run_ne_suspension hs hc,
    (later_run hs).nested.active.trans hs.active.symm⟩⟩
  · exact runWithin_of_not_pause hc (Coroutine.pause?_eq_none_iff.2 hstate) _
  · have hpause : c.pause?.isSome := Coroutine.pause?_isSome_iff.2 hstate
    obtain ⟨c', hc', -, hsettles⟩ := run_settles hs hc hpause (Prod.eta _).symm
    exact ⟨((nested_starting hs hc hpause).running k).2 (by simp), _, _, c', (Prod.eta _).symm, hc',
      hsettles⟩

/-- Two coroutines that run each other, and a third that fails. -/
def crossed : Scene where
  vars := .standard
  coroutines := { all := .replicate 3 { stack := .standard } }
  bodies := #[{ runs := [[.run 1, .suspend], [.runOrFail 2]] },
    { runs := [[.run 0, .run 2, .suspend]] }, { runs := [[.counterfeit]] }]

theorem reaches_nested_crossed : crossed.Nested [] ∧
    ∃ s, Reaches [.run 0] crossed [1, 0] [.run 0, .run 2, .suspend] s ∧ s.Nested [1, 0] ∧
      s.run 0 = (s, .error (.invalidState .notRunnable)) ∧
      (s.run 2).1.coroutines.active = some 1 := by
  have h₀ : crossed.Nested [] := nested_nil_iff.2 ⟨rfl, by decide⟩
  have houter : Reaches [.run 0] crossed [0] [.run 1, .suspend] (crossed.starting 0) :=
    .enter .start rfl rfl rfl
  have hinner : Reaches [.run 0] crossed [1, 0] [.run 0, .run 2, .suspend]
      ((crossed.starting 0).starting 1) := .enter houter rfl rfl rfl
  have hnested := reaches_nested h₀ hinner
  exact ⟨h₀, _, hinner, hnested.1, (hnested.2 0 _ rfl).1 (.inl rfl), (hnested.2 2 _ rfl).2.2.2⟩

end Scene

end Resumable
