import Resumable.Proofs.ClassDef.Verify
import Resumable.Proofs.Machine.Activity

/-!
# Verified bodies at work

What verification means for the activations of a body.

No label and no local is ever missing (`Method.complete_of_verify`), and loading keeps every handler
(`ClassTable.load_complete`).

Control does not get past the last instruction. Labels may stand behind it all the same, and
verification does not look at them: an activation that comes to one of them runs off the end of the
body, and there is no other way to do so (`Method.runs_off_iff`).
-/

namespace Resumable

open List (Forall₂)

open Activation (Arises Fits)

/-! ## Labels and locals -/

/-- Where every item has an image, nothing is left out. -/
theorem forall₂_filterMap {α β : Type} {f : α → Option β} {R : α → β → Prop} {as : List α}
    (h : ∀ a ∈ as, ∃ b, f a = some b ∧ R a b) :
    Forall₂ (fun a b => f a = some b ∧ R a b) as (as.filterMap f) := by
  induction as with
  | nil => exact .nil
  | cons a as ih =>
    obtain ⟨b, hb, hR⟩ := h a List.mem_cons_self
    rw [List.filterMap_cons_some hb]
    exact .cons ⟨hb, hR⟩ (ih fun a' ha' => h a' (List.mem_cons_of_mem _ ha'))

/-- The error says that a label or a local is missing. -/
def RunError.Lacks (e : RunError) : Prop :=
  (∃ l, e = .code (.undefinedLabel l)) ∨ ∃ index, e = .code (.localOutOfRange index)

namespace RunError

variable {e : RunError}

theorem not_lacks_of_ordinary (h : e.isOrdinary = true) : ¬ e.Lacks := by
  rintro (⟨l, rfl⟩ | ⟨index, rfl⟩) <;> cases h

theorem not_lacks_thrown (v : Value) : ¬ (RunError.thrown v).Lacks := by
  rintro (⟨l, h⟩ | ⟨index, h⟩) <;> cases h

end RunError

/-- No activation of the method fails for want of a label or a local. One that waits may pass on such
an error if it is the answer. -/
structure LoadedMethod.Complete (method : LoadedMethod) : Prop where
  enter : ∀ args e, Activation.enter method args = .error e → ¬ e.Lacks
  step : ∀ a, Arises method a → ∀ classes m e m', a.step classes m = (.done (.error e), m') →
    ¬ e.Lacks
  resume : ∀ a, Arises method a → ∀ classes m w request m',
    a.step classes m = (.calling w request, m') → ∀ classes' answer m₁ e m₂,
      w.resume classes' request answer m₁ = (.done (.error e), m₂) → e.Lacks → answer = .error e

theorem LoadedMethod.Complete.of_laws {method : LoadedMethod}
    (h : ∀ i ∈ method.method.code, i.Laws (fun a _ => a.Fits method) fun e _ => ¬ e.Lacks) :
    method.Complete where
  enter := by
    intro args e henter
    unfold Activation.enter at henter
    dsimp only at henter
    split at henter
    · cases henter
      exact RunError.not_lacks_of_ordinary rfl
    · cases henter
  step := by
    intro a ha classes m e m' hstep
    rcases Activation.step_eq_failure hstep with ⟨-, rfl⟩ | ⟨i, e₀, m₁, hi, hrun, rfl | ⟨v, rfl⟩⟩
    · rintro (⟨l, heq⟩ | ⟨index, heq⟩) <;> cases heq
    · rw [ha.fits.method_eq] at hi
      have hl : Exec.Laws (fun a _ => a.Fits method) fun e _ => ¬ e.Lacks :=
        Fits.laws (fun _ _ => RunError.not_lacks_of_ordinary) fun _ => RunError.not_lacks_thrown
      exact (Exec.keeps_instr hl (h i (List.mem_of_getElem? hi)) classes).of_error hrun ha.fits
    · exact RunError.not_lacks_thrown v
  resume := by
    intro a ha classes m w request m' hcall classes' answer m₁ e m₂ hresume hlacks
    rcases Activation.resume_cases hresume with ⟨e₀, he₀, hraise⟩ | ⟨-, -, stack, hgoing⟩
    · rcases raise_eq_done hraise with heq | ⟨v, heq⟩ <;> cases heq
      · exact he₀.resolve_right fun hother => RunError.not_lacks_of_ordinary hother.2 hlacks
      · exact absurd hlacks (RunError.not_lacks_thrown v)
    · cases hgoing

namespace Method

variable {m : Method} {owner : String} {a : Activation} {i : Instr}

/-- The instructions of a sound body find their labels and locals. -/
theorem Sound.laws (h : m.Sound) (hi : i ∈ m.code) :
    i.Laws (fun a _ => a.Fits (.load owner m)) fun e _ => ¬ e.Lacks where
  reads := by
    intro a mem slot hslot hnone hfits
    have hlt : slot.toNat < a.locals.length := hfits.length_locals ▸ h.locals i hi slot hslot
    rw [List.getElem?_eq_getElem hlt] at hnone
    cases hnone
  writes _ _ hfits := ⟨hfits.method_eq, List.length_set.trans hfits.length_locals⟩
  labels := by
    intro a mem l hl hnone hfits
    rw [hfits.method_eq] at hnone
    exact absurd (h.targets i hi l hl) (labelPosition?_eq_none_iff.1 hnone)
  frames _ _ hfits := hfits

/-- **Nothing is missing** in a body that has passed verification, whatever it comes to. -/
theorem complete_of_verify (h : m.verify = .ok ()) (owner : String) :
    (LoadedMethod.load owner m).Complete := by
  refine .of_laws fun i (hi : i ∈ m.code) => ?_
  obtain ⟨type, -, hcode | ⟨-, -, hsound⟩⟩ := verify_eq_ok_iff.1 h
  · rw [hcode] at hi
    cases hi
  · exact hsound.laws hi

/-- The handlers of a sound body are all loaded, and none ends in front of its start. -/
theorem Sound.handlers_loaded (h : m.Sound) (owner : String) :
    Forall₂ (fun (handler : Handler) r => handler.load? m.code = some r ∧ r.start ≤ r.stop)
      m.handlers (LoadedMethod.load owner m).handlers := by
  refine forall₂_filterMap fun handler hmem => ?_
  obtain ⟨⟨start, stop, hstart, hstop, hle⟩, htarget⟩ := h.handlers handler hmem
  obtain ⟨target, htarget⟩ := exists_labelPosition? htarget
  exact ⟨⟨start, stop, target, handler.catchType⟩,
    Handler.load?_eq_some_iff.2 ⟨hstart, hstop, htarget, rfl⟩, hle⟩

end Method

namespace ClassTable

variable {t t' : ClassTable} {c : ClassDef}

theorem load_eq_ok (h : t.load c = .ok t') : c.verify = .ok () ∧ t' = t.insert c := by
  unfold load at h
  split at h
  · rename_i hverify
    cases h
    exact ⟨hverify, rfl⟩
  · cases h

theorem find?_insert_self : (t.insert c).find? c.name = some (.load c) := by
  unfold insert find?
  exact List.lookup_cons_self

/-- **A class that is loaded is complete.** The table has all its methods, a body with all its
handlers, none of which ends in front of its start, and no activation of a method ever fails for want
of a label or a local. -/
theorem load_complete (h : t.load c = .ok t') :
    ∃ loaded, t'.find? c.name = some loaded ∧ loaded.methods = c.methods.map (.load c.name) ∧
      ∀ m ∈ c.methods,
        (m.code ≠ [] →
          Forall₂ (fun (handler : Handler) r => handler.load? m.code = some r ∧ r.start ≤ r.stop)
            m.handlers (LoadedMethod.load c.name m).handlers) ∧
        (LoadedMethod.load c.name m).Complete := by
  obtain ⟨hverify, rfl⟩ := load_eq_ok h
  refine ⟨_, find?_insert_self, rfl, fun m hm => ?_⟩
  have hm := (ClassDef.verify_eq_ok_iff.1 hverify).2 m hm
  refine ⟨fun hcode => ?_, Method.complete_of_verify hm c.name⟩
  obtain ⟨type, -, hbody⟩ := Method.verify_eq_ok_iff.1 hm
  exact (hbody.resolve_left hcode).2.2.handlers_loaded c.name

/-- A class whose method counts down, under a handler. -/
def counting : ClassDef :=
  { name := "app/Count", superName := some Names.object
    methods := [{
      name := "down", desc := "(I)V", access := .static, maxLocals := 1
      code := [.label ⟨0⟩, .local .iload 0, .jump .ifeq ⟨1⟩, .inc 0 (-1), .jump .goto ⟨0⟩,
        .label ⟨1⟩, .simple .ret, .label ⟨2⟩, .simple .athrow]
      handlers := [⟨⟨0⟩, ⟨1⟩, ⟨2⟩, none⟩] }] }

theorem load_complete_counting :
    Platform.table.load counting = .ok (Platform.table.insert counting) ∧
      ∃ loaded, (Platform.table.insert counting).find? "app/Count" = some loaded ∧
        loaded.methods.map (·.handlers) = [[⟨0, 5, 7, none⟩]] ∧
        ∀ method ∈ loaded.methods, method.Complete := by
  have hload : Platform.table.load counting = .ok (Platform.table.insert counting) := by
    decide +kernel
  obtain ⟨loaded, hfind, hmethods, hall⟩ := load_complete hload
  refine ⟨hload, loaded, hfind, ?_, fun method hmem => ?_⟩
  · rw [hmethods]
    decide +kernel
  · rw [hmethods] at hmem
    obtain ⟨m, hm, rfl⟩ := List.mem_map.1 hmem
    exact (hall m hm).2

end ClassTable

/-! ## The end of the body -/

namespace Method

/-- At this place and behind it there are only labels. -/
def Trails (m : Method) (p : Nat) : Prop :=
  p < m.code.length ∧ ∀ q i, p ≤ q → m.code[q]? = some i → i.isLabel = true

/-- The label is one to which an instruction or a handler leads. -/
def LeadsTo (m : Method) (l : Label) : Prop :=
  (∃ i ∈ m.code, l ∈ i.branchTargets) ∨ ∃ h ∈ m.handlers, h.target = l

variable {m : Method} {owner : String} {a b : Activation} {i : Instr} {p : Nat}

/-- Whatever lets control pass in a sound body is a label among the last, or has an instruction
behind it. -/
theorem Sound.trails_of_passes (h : m.Sound) (hi : m.code[p]? = some i)
    (hpasses : i.opcode.isTerminator = false)
    (hbehind : ∀ q j, p < q → m.code[q]? = some j → j.isLabel = true) : m.Trails p := by
  obtain ⟨last, offset, hlast, hends⟩ := h.ends
  obtain ⟨hget, hnot, hrest⟩ := lastInstr?_eq_some_iff.1 hlast
  -- The last instruction stands in front of `p`: it is neither behind `p` nor lets control pass.
  have hlabel : i.isLabel = true := by
    rcases Nat.lt_trichotomy p offset with hlt | rfl | hlt
    · rw [hbehind _ _ hlt hget] at hnot
      cases hnot
    · rw [hget, Option.some.injEq] at hi
      rw [hi, hpasses] at hends
      cases hends
    · exact hrest p i hlt hi
  refine ⟨(List.getElem?_eq_some_iff.1 hi).1, fun q j hle hj => ?_⟩
  rcases Nat.eq_or_lt_of_le hle with rfl | hlt
  · rw [hi, Option.some.injEq] at hj
    exact hj ▸ hlabel
  · exact hbehind q j hlt hj

/-- A body does not begin with the labels at its end. -/
theorem Sound.not_trails_zero (h : m.Sound) : ¬ m.Trails 0 := by
  rintro ⟨-, hall⟩
  obtain ⟨last, offset, hlast, -⟩ := h.ends
  obtain ⟨hget, hnot, -⟩ := lastInstr?_eq_some_iff.1 hlast
  rw [hall offset last (Nat.zero_le _) hget] at hnot
  cases hnot

/-- Control comes to a place along a label, or from the instruction in front. -/
theorem pc_cases (ha : Arises (.load owner m) a) : a.pc = 0 ∨
    (∃ l, m.LeadsTo l ∧ labelPosition? m.code l = some a.pc) ∨
    ∃ b i, Arises (.load owner m) b ∧ m.code[b.pc]? = some i ∧ i.opcode.isTerminator = false ∧
      a.pc = b.pc + 1 := by
  rcases ha.pc_cases with hzero | ⟨b, hb, i, hi, ⟨hpasses, hpc⟩ | ⟨l, hl, hpc⟩ | ⟨r, hr, hpc⟩⟩
  · exact .inl hzero
  all_goals rw [hb.fits.method_eq] at hi
  · exact .inr (.inr ⟨b, i, hb, hi, hpasses, hpc⟩)
  · rw [hb.fits.method_eq] at hpc
    exact .inr (.inl ⟨l, .inl ⟨i, List.mem_of_getElem? hi, hl⟩, hpc⟩)
  · rw [hb.fits.method_eq] at hr
    obtain ⟨handler, hmem, hload⟩ := List.mem_filterMap.1 hr
    refine .inr (.inl ⟨handler.target, .inr ⟨handler, hmem, rfl⟩, ?_⟩)
    rw [← hpc]
    exact (Handler.load?_eq_some_iff.1 hload).2.2.1

theorem pc_le (ha : Arises (.load owner m) a) : a.pc ≤ m.code.length := by
  rcases pc_cases ha with hzero | ⟨l, -, hl⟩ | ⟨b, i, -, hi, -, hpc⟩
  · omega
  · exact Nat.le_of_lt (lt_of_labelPosition? hl)
  · have := (List.getElem?_eq_some_iff.1 hi).1
    omega

/-- Only a step from behind the code tells that the end has been passed. -/
theorem fellOff_iff (ha : Arises (.load owner m) a) (classes : ClassTable) (mem : Memory) :
    (a.step classes mem).1 = .done (.error (.code (.fellOff ⟨owner, m.name, m.desc⟩))) ↔
      m.code.length ≤ a.pc := by
  have hmethod := ha.fits.method_eq
  constructor
  · intro h
    rcases Activation.step_eq_failure (Prod.ext h rfl) with
      ⟨hnone, -⟩ | ⟨i, e₀, mem₁, -, hrun, heq | ⟨v, heq⟩⟩
    · rw [hmethod] at hnone
      exact List.getElem?_eq_none_iff.1 hnone
    · have hl : Exec.Laws (fun a _ => a.Fits (.load owner m)) fun e _ => ∀ f, e ≠ .code (.fellOff f) :=
        Fits.laws (fun _ e he f heq => by subst heq; cases he) fun _ v f => nofun
      have hi : i.Laws (fun a _ => a.Fits (.load owner m)) fun e _ => ∀ f, e ≠ .code (.fellOff f) :=
        { reads := fun _ _ _ _ => nofun
          writes := fun _ _ hfits => ⟨hfits.method_eq, List.length_set.trans hfits.length_locals⟩
          labels := fun _ _ _ _ => nofun
          frames := fun _ _ => id }
      exact absurd heq.symm ((Exec.keeps_instr hl hi classes).of_error hrun ha.fits _)
    · cases heq
  · intro hle
    have hnone : a.method.method.code[a.pc]? = none := by
      rw [hmethod]
      exact List.getElem?_eq_none hle
    rw [Activation.step_of_none hnone, hmethod]
    rfl

/-- At the end an activation has come past the labels there. -/
theorem Sound.exists_trails (h : m.Sound) (ha : Arises (.load owner m) a)
    (hpc : a.pc = m.code.length) : ∃ b, Arises (.load owner m) b ∧ m.Trails b.pc := by
  obtain ⟨last, offset, hlast, -⟩ := h.ends
  have hlt := (List.getElem?_eq_some_iff.1 (lastInstr?_eq_some_iff.1 hlast).1).1
  rcases pc_cases ha with hzero | ⟨l, -, hl⟩ | ⟨b, i, hb, hi, hpasses, hnext⟩
  · omega
  · exact absurd (lt_of_labelPosition? hl) (by omega)
  · refine ⟨b, hb, h.trails_of_passes hi hpasses fun q j hlt hj => ?_⟩
    exact absurd (List.getElem?_eq_some_iff.1 hj).1 (by omega)

/-- The first of the labels at the end to which control comes is one that something leads to. -/
theorem Sound.exists_target (h : m.Sound) (ha : Arises (.load owner m) a) (htrails : m.Trails a.pc) :
    ∃ l p, m.LeadsTo l ∧ labelPosition? m.code l = some p ∧ m.Trails p := by
  -- Going back from label to label, we come to the one that has been led to, at the latest at the
  -- entry, which is none of these labels.
  induction hn : a.pc generalizing a with
  | zero => exact absurd (hn ▸ htrails) h.not_trails_zero
  | succ n ih =>
    rcases pc_cases ha with hzero | ⟨l, hl, hpc⟩ | ⟨b, i, hb, hi, hpasses, hnext⟩
    · omega
    · exact ⟨l, a.pc, hl, hpc, htrails⟩
    · refine ih hb (h.trails_of_passes hi hpasses fun q j hlt => ?_) (by omega)
      exact htrails.2 q j (by omega)

/-- From the labels at the end, control runs on past them. -/
theorem runs_off (ha : Arises (.load owner m) a) (htrails : m.Trails a.pc) (classes : ClassTable)
    (mem : Memory) : ∃ b, Arises (.load owner m) b ∧ Activation.Runs classes a mem b mem ∧
      b.pc = m.code.length := by
  -- One step goes past one label.
  induction hn : m.code.length - a.pc generalizing a with
  | zero => exact absurd htrails.1 (by omega)
  | succ n ih =>
    obtain ⟨hlt, hall⟩ := htrails
    have hget : a.method.method.code[a.pc]? = some m.code[a.pc] := by
      rw [ha.fits.method_eq]
      exact List.getElem?_eq_getElem hlt
    have hlabel := hall _ _ (Nat.le_refl _) (List.getElem?_eq_getElem hlt)
    have hstep : a.step classes mem = (.going { a with pc := a.pc + 1 }, mem) := by
      rcases hi : m.code[a.pc] with l | _ <;> rw [hi] at hlabel hget
      · unfold Activation.step
        rw [hget]
        rfl
      all_goals cases hlabel
    have hnext : Arises (.load owner m) { a with pc := a.pc + 1 } := .step ha hstep
    rcases Nat.eq_or_lt_of_le (Nat.succ_le_of_lt hlt) with heq | hlt'
    · exact ⟨_, hnext, .step hstep (.refl _ _), heq⟩
    · obtain ⟨b, hb, hruns, hpc⟩ := ih hnext ⟨hlt', fun q i hle => hall q i (by
        have : a.pc + 1 ≤ q := hle
        omega)⟩ (by show _ - (a.pc + 1) = n; omega)
      exact ⟨b, hb, .step hstep hruns, hpc⟩

/-- **Running off the end.** Control in a verified body does not get further than its end, and an
activation that stands there tells that it has passed it, which no other does. It comes to the end if
and only if it comes to a label behind the last instruction, and from such a label it does so on any
memory. A body in which nothing leads to such a label is never run off. -/
theorem runs_off_iff (hverify : m.verify = .ok ()) (hcode : m.code ≠ []) :
    (∀ a, Arises (.load owner m) a → a.pc ≤ m.code.length ∧ ∀ classes mem,
      (a.step classes mem).1 = .done (.error (.code (.fellOff ⟨owner, m.name, m.desc⟩))) ↔
        a.pc = m.code.length) ∧
    ((∃ a, Arises (.load owner m) a ∧ a.pc = m.code.length) ↔
      ∃ a, Arises (.load owner m) a ∧ m.Trails a.pc) ∧
    (∀ a, Arises (.load owner m) a → m.Trails a.pc → ∀ classes mem, ∃ b,
      Arises (.load owner m) b ∧ Activation.Runs classes a mem b mem ∧ b.pc = m.code.length) ∧
    ((∀ l p, m.LeadsTo l → labelPosition? m.code l = some p → ¬ m.Trails p) →
      ∀ a, Arises (.load owner m) a → a.pc < m.code.length) := by
  obtain ⟨type, -, hbody⟩ := verify_eq_ok_iff.1 hverify
  have hsound := (hbody.resolve_left hcode).2.2
  refine ⟨fun a ha => ?_, ⟨?_, ?_⟩, fun a ha htrails => runs_off ha htrails, fun hnone a ha => ?_⟩
  · have hle := pc_le ha
    refine ⟨hle, fun classes mem => (fellOff_iff ha classes mem).trans ?_⟩
    omega
  · rintro ⟨a, ha, hpc⟩
    exact hsound.exists_trails ha hpc
  · rintro ⟨a, ha, htrails⟩
    obtain ⟨b, hb, -, hpc⟩ := runs_off ha htrails {} {}
    exact ⟨b, hb, hpc⟩
  · refine Nat.lt_of_le_of_ne (pc_le ha) fun hpc => ?_
    obtain ⟨b, hb, htrails⟩ := hsound.exists_trails ha hpc
    obtain ⟨l, p, hl, hp, htrails'⟩ := hsound.exists_target hb htrails
    exact hnone l p hl hp htrails'

/-- A body that goes on to a label behind its last instruction. -/
def overshooting : Method :=
  { name := "m", desc := "()V", access := .static, code := [.jump .goto ⟨0⟩, .label ⟨0⟩] }

/-- A machine that has loaded nothing but the body. -/
def overshootingMachine : Machine .empty where
  host := { own := () }
  classes := .insert {} { name := "app/A", methods := [overshooting] }

/-- A call of it ends at the end of the body. -/
theorem runs_off_iff_overshooting : overshooting.verify = .ok () ∧ overshooting.code ≠ [] ∧
    (∃ a, Arises (.load "app/A" overshooting) a ∧ a.pc = 2 ∧
      (a.step {} {}).1 = .done (.error (.code (.fellOff ⟨"app/A", "m", "()V"⟩)))) ∧
    (overshootingMachine.perform? 5 (.call ⟨.invokestatic, ⟨"app/A", "m", "()V"⟩, []⟩)).map (·.2) =
      some (.error (.code (.fellOff ⟨"app/A", "m", "()V"⟩))) := by
  have hverify : overshooting.verify = .ok () := by decide +kernel
  have hcode : overshooting.code ≠ [] := List.cons_ne_nil _ _
  obtain ⟨hend, -, hruns, -⟩ := @runs_off_iff overshooting "app/A" hverify hcode
  refine ⟨hverify, hcode, ?_, by decide +kernel⟩
  -- The jump leads from the entry to the label.
  have hentry : Arises (.load "app/A" overshooting)
      { method := .load "app/A" overshooting, locals := [] } :=
    .enter (show Activation.enter _ [] = .ok _ from rfl)
  have hlabel : Arises (.load "app/A" overshooting)
      { method := .load "app/A" overshooting, locals := [], pc := 1 } :=
    .step hentry (show Activation.step {} _ {} = (.going _, {}) from rfl)
  have htrails : overshooting.Trails 1 := by
    refine ⟨by decide, fun q i hle hi => ?_⟩
    match q, hle, hi with
    | 1, _, rfl => rfl
  obtain ⟨b, hb, -, hpc⟩ := hruns _ hlabel htrails {} {}
  exact ⟨b, hb, hpc, ((hend b hb).2 {} {}).2 hpc⟩

end Method

end Resumable
