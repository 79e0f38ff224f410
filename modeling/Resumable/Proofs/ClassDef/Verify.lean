import Resumable.Proofs.Outcome
import Resumable.Proofs.Labels

/-!
# What verification checks

The checks of a method come one after the other, and each of them says what it is about in its own
way. `Method.Sound` says at once what a body has that passes them all (`Method.verify_eq_ok_iff`).
-/

namespace Resumable

open List (Forall₂)

/-! ## Checks in a row -/

section Checks

variable {ε α β : Type}

/-- A loop of checks passes if and only if each check does. -/
theorem forIn_eq_ok_iff {f : α → Except ε β} {as : List α} :
    (forIn as PUnit.unit fun a _ => do
      let _ ← f a
      pure (ForInStep.yield PUnit.unit) : Except ε PUnit) = .ok ⟨⟩ ↔
      ∀ a ∈ as, ∃ b, f a = .ok b := by
  induction as with
  | nil => simp [pure, Except.pure]
  | cons a as ih =>
    rw [List.forIn_cons, List.forall_mem_cons, ← ih]
    cases h : f a with
    | error e => simp [bind, Except.bind]
    | ok b => simp [bind, Except.bind, pure, Except.pure]

theorem firstRepeated?_eq_none_iff [BEq α] [LawfulBEq α] {seen as : List α} :
    firstRepeated? seen as = none ↔ as.Nodup ∧ ∀ a ∈ as, a ∉ seen := by
  induction as generalizing seen with
  | nil => simp [firstRepeated?]
  | cons a as ih =>
    rw [firstRepeated?]
    by_cases hseen : a ∈ seen
    · rw [if_pos (by simpa using hseen)]
      simp [hseen]
    · rw [if_neg (by simpa using hseen), ih, List.nodup_cons]
      constructor
      · rintro ⟨hnodup, hall⟩
        refine ⟨⟨fun hmem => hall a hmem List.mem_cons_self, hnodup⟩, ?_⟩
        intro b hb
        rcases List.mem_cons.1 hb with rfl | hb
        · exact hseen
        · exact fun hmem => hall b hb (List.mem_cons_of_mem _ hmem)
      · rintro ⟨⟨hnot, hnodup⟩, hall⟩
        refine ⟨hnodup, fun b hb hmem => ?_⟩
        rcases List.mem_cons.1 hmem with rfl | hmem
        · exact hnot hb
        · exact hall b (List.mem_cons_of_mem _ hb) hmem

end Checks

/-! ## Labels -/

section Labels

variable {code : List Instr} {l : Label} {i j : Nat}

theorem mem_placedLabels : l ∈ placedLabels code ↔ .label l ∈ code := by
  unfold placedLabels
  rw [List.mem_filterMap]
  constructor
  · rintro ⟨i, hi, heq⟩
    split at heq
    · cases heq
      exact hi
    · cases heq
  · intro h
    exact ⟨_, h, rfl⟩

/-- Labels that are placed once stand in one place. -/
theorem eq_of_nodup_placedLabels (h : (placedLabels code).Nodup)
    (hi : code[i]? = some (.label l)) (hj : code[j]? = some (.label l)) : i = j := by
  obtain ⟨hilt, higet⟩ := List.getElem?_eq_some_iff.1 hi
  obtain ⟨hjlt, hjget⟩ := List.getElem?_eq_some_iff.1 hj
  have hpair := List.pairwise_iff_getElem.1 (List.pairwise_filterMap.1 h)
  rcases Nat.lt_trichotomy i j with hlt | heq | hlt
  · exact absurd rfl (hpair i j hilt hjlt hlt l (by rw [higet]) l (by rw [hjget]))
  · exact heq
  · exact absurd rfl (hpair j i hjlt hilt hlt l (by rw [hjget]) l (by rw [higet]))

end Labels

/-! ## Methods -/

namespace Method

variable {m : Method}

theorem exists_resolve_iff {l : Label} : (∃ q, m.resolve l = .ok q) ↔ .label l ∈ m.code := by
  unfold resolve
  constructor
  · rintro ⟨q, hq⟩
    split at hq
    · rename_i hposition
      exact List.mem_of_getElem? (getElem?_of_labelPosition? hposition)
    · cases hq
  · intro h
    obtain ⟨q, hq⟩ := exists_labelPosition? h
    exact ⟨q, by rw [hq]⟩

theorem resolve_eq_ok_iff {l : Label} {q : Nat} :
    m.resolve l = .ok q ↔ labelPosition? m.code l = some q := by
  unfold resolve
  split <;> rename_i h <;> simp [h]

/-- What a body has that passes all checks. -/
structure Sound (m : Method) : Prop where
  /-- Each label is placed once. -/
  nodup : (placedLabels m.code).Nodup
  /-- Each label that an instruction refers to is placed. -/
  targets : ∀ i ∈ m.code, ∀ l ∈ i.branchTargets, .label l ∈ m.code
  /-- Each local that an instruction names exists. -/
  locals : ∀ i ∈ m.code, ∀ index, i.localIndex? = some index → index.toNat < m.maxLocals.toNat
  /-- No handler ends in front of its start, and all are placed. -/
  handlers : ∀ h ∈ m.handlers, Upright m.code (h.start, h.stop) ∧ .label h.target ∈ m.code
  /-- Control does not pass the last instruction. -/
  ends : ∃ i offset, m.lastInstr? = some (i, offset) ∧ i.opcode.isTerminator = true

/-- The check of the local that an instruction names. -/
def verifyLocal (m : Method) (offset : Nat) (i : Instr) : Except VerifyError Unit :=
  match i.localIndex? with
  | some index =>
    if m.maxLocals ≤ index then
      throw (.localOutOfRange m.signature index m.maxLocals offset)
    else pure ()
  | none => pure ()

theorem verifyLocal_eq_ok_iff {offset : Nat} {i : Instr} : m.verifyLocal offset i = .ok () ↔
    ∀ index, i.localIndex? = some index → index.toNat < m.maxLocals.toNat := by
  unfold verifyLocal
  rcases i.localIndex? with _ | index
  · simp [pure, Except.pure]
  · simp only [Option.some.injEq, forall_eq']
    rw [← UInt16.lt_iff_toNat_lt, ← UInt16.not_le]
    by_cases hle : m.maxLocals ≤ index
    · simp [hle, throw, throwThe, MonadExceptOf.throw]
    · simp [hle, pure, Except.pure]

theorem verifyInstr_eq_ok_iff {offset : Nat} {i : Instr} : m.verifyInstr offset i = .ok () ↔
    (∀ l ∈ i.branchTargets, .label l ∈ m.code) ∧
      ∀ index, i.localIndex? = some index → index.toNat < m.maxLocals.toNat := by
  unfold verifyInstr
  simp only [bind_eq_ok]
  constructor
  · rintro ⟨_, htargets, hrest⟩
    refine ⟨fun l hl => ?_, verifyLocal_eq_ok_iff.1 hrest⟩
    exact exists_resolve_iff.1 (forIn_eq_ok_iff.1 htargets l hl)
  · rintro ⟨htargets, hrest⟩
    refine ⟨⟨⟩, forIn_eq_ok_iff.2 fun l hl => ?_, verifyLocal_eq_ok_iff.2 hrest⟩
    exact exists_resolve_iff.2 (htargets l hl)

theorem verifyHandler_eq_ok_iff {h : Handler} : m.verifyHandler h = .ok () ↔
    Upright m.code (h.start, h.stop) ∧ .label h.target ∈ m.code := by
  unfold verifyHandler
  simp only [bind_eq_ok, resolve_eq_ok_iff]
  constructor
  · rintro ⟨start, hstart, stop, hstop, target, htarget, hcheck⟩
    refine ⟨⟨start, stop, hstart, hstop, ?_⟩,
      List.mem_of_getElem? (getElem?_of_labelPosition? htarget)⟩
    split at hcheck
    · cases hcheck
    · omega
  · rintro ⟨⟨start, stop, hstart, hstop, hle⟩, htarget⟩
    obtain ⟨target, htarget⟩ := exists_labelPosition? htarget
    refine ⟨start, hstart, stop, hstop, target, htarget, ?_⟩
    rw [if_neg (by omega)]
    rfl

theorem lastInstr?_eq_some_iff {i : Instr} {offset : Nat} : m.lastInstr? = some (i, offset) ↔
    m.code[offset]? = some i ∧ i.isLabel = false ∧
      ∀ q j, offset < q → m.code[q]? = some j → j.isLabel = true := by
  refine (@find?_reverse_zipIdx_eq_some_iff _ (fun i => !i.isLabel) m.code i offset).trans ?_
  simp only [Bool.not_eq_true', Bool.not_eq_false']

theorem verifyEnd_eq_ok_iff : m.verifyEnd = .ok () ↔
    ∃ i offset, m.lastInstr? = some (i, offset) ∧ i.opcode.isTerminator = true := by
  unfold verifyEnd
  rcases m.lastInstr? with _ | ⟨i, offset⟩
  · simp
  · simp only [Option.some.injEq, Prod.mk.injEq]
    constructor
    · intro h
      split at h
      · exact ⟨i, offset, ⟨rfl, rfl⟩, ‹_›⟩
      · cases h
    · rintro ⟨i', offset', ⟨rfl, rfl⟩, hterm⟩
      rw [if_pos hterm]

/-- The checks of what a body consists of. -/
def verifyBody (m : Method) : Except VerifyError Unit := do
  for (i, offset) in m.code.zipIdx do
    m.verifyInstr offset i
  for h in m.handlers do
    m.verifyHandler h
  m.verifyEnd

theorem verifyBody_eq_ok_iff : m.verifyBody = .ok () ↔
    (∀ i ∈ m.code, (∀ l ∈ i.branchTargets, .label l ∈ m.code) ∧
      ∀ index, i.localIndex? = some index → index.toNat < m.maxLocals.toNat) ∧
    (∀ h ∈ m.handlers, Upright m.code (h.start, h.stop) ∧ .label h.target ∈ m.code) ∧
    ∃ i offset, m.lastInstr? = some (i, offset) ∧ i.opcode.isTerminator = true := by
  unfold verifyBody
  simp only [bind_eq_ok]
  constructor
  · rintro ⟨_, hinstrs, _, hhandlers, hend⟩
    refine ⟨fun i hi => ?_, fun h hh => ?_, verifyEnd_eq_ok_iff.1 hend⟩
    · obtain ⟨offset, hoffset⟩ := List.mem_iff_getElem?.1 hi
      obtain ⟨_, hone⟩ := forIn_eq_ok_iff.1 hinstrs (i, offset)
        (List.mk_mem_zipIdx_iff_getElem?.2 hoffset)
      exact verifyInstr_eq_ok_iff.1 hone
    · obtain ⟨_, hone⟩ := forIn_eq_ok_iff.1 hhandlers h hh
      exact verifyHandler_eq_ok_iff.1 hone
  · rintro ⟨hinstrs, hhandlers, hend⟩
    refine ⟨⟨⟩, forIn_eq_ok_iff.2 fun x hx => ⟨⟨⟩, ?_⟩, ⟨⟩, forIn_eq_ok_iff.2 fun h hh => ⟨⟨⟩, ?_⟩,
      verifyEnd_eq_ok_iff.2 hend⟩
    · exact verifyInstr_eq_ok_iff.2 (hinstrs x.1 (List.fst_mem_of_mem_zipIdx hx))
    · exact verifyHandler_eq_ok_iff.2 (hhandlers h hh)

/-- **Verification** accepts a method if and only if its descriptor can be read and it has no body
or a sound one with room for its arguments. -/
theorem verify_eq_ok_iff : m.verify = .ok () ↔ ∃ type, MethodType.parse m.desc = .ok type ∧
    (m.code = [] ∨ m.isBodyless = false ∧ m.entryLocals type ≤ m.maxLocals.toNat ∧ m.Sound) := by
  unfold verify
  rw [bind_eq_ok]
  refine exists_congr fun type => and_congr mapError_eq_ok ?_
  by_cases hempty : m.code = []
  · simp [hempty, pure, Except.pure]
  by_cases hbody : m.isBodyless = true
  · simp [hempty, hbody, throw, throwThe, MonadExceptOf.throw, bind, Except.bind]
  simp only [hempty, hbody, false_or, List.isEmpty_iff, if_false, Bool.false_eq_true, true_and]
  by_cases hroom : m.maxLocals.toNat < m.entryLocals type
  · simp [hroom, Nat.not_le.2 hroom, throw, throwThe, MonadExceptOf.throw, bind, Except.bind]
  rw [if_neg hroom]
  rcases hrepeated : firstRepeated? [] (placedLabels m.code) with _ | label
  · have hnodup := (firstRepeated?_eq_none_iff.1 hrepeated).1
    refine verifyBody_eq_ok_iff.trans ⟨fun ⟨hinstrs, hhandlers, hend⟩ => ⟨by omega, hnodup,
      fun i hi => (hinstrs i hi).1, fun i hi => (hinstrs i hi).2, hhandlers, hend⟩, ?_⟩
    rintro ⟨-, hsound⟩
    exact ⟨fun i hi => ⟨hsound.targets i hi, hsound.locals i hi⟩, hsound.handlers, hsound.ends⟩
  · simp only [throw, throwThe, MonadExceptOf.throw, bind, Except.bind, reduceCtorEq, false_iff,
      not_and]
    intro _ hsound
    have hnone := firstRepeated?_eq_none_iff.2 ⟨hsound.nodup, fun l _ => List.not_mem_nil (a := l)⟩
    rw [hrepeated] at hnone
    cases hnone

end Method

/-! ## Classes -/

/-- Methods pass if each of them does, and none has name and descriptor of one before it. -/
theorem verifyMethods_eq_ok_iff {seen : List (String × String)} {ms : List Method} :
    verifyMethods seen ms = .ok () ↔ (ms.map fun m => (m.name, m.desc)).Nodup ∧
      ∀ m ∈ ms, (m.name, m.desc) ∉ seen ∧ m.verify = .ok () := by
  induction ms generalizing seen with
  | nil => simp [verifyMethods]
  | cons m ms ih =>
    rw [verifyMethods, List.map_cons, List.nodup_cons, List.forall_mem_cons]
    by_cases hseen : (m.name, m.desc) ∈ seen
    · rw [if_pos (by simpa using hseen)]
      simp [hseen, throw, throwThe, MonadExceptOf.throw, bind, Except.bind]
    rw [if_neg (by simpa using hseen)]
    refine bind_eq_ok.trans ?_
    constructor
    · rintro ⟨⟨⟩, hone, hrest⟩
      obtain ⟨hnodup, hall⟩ := ih.1 hrest
      refine ⟨⟨fun hmem => ?_, hnodup⟩, ⟨hseen, hone⟩, fun m' hm' => ?_⟩
      · obtain ⟨m', hm', heq⟩ := List.mem_map.1 hmem
        exact (hall m' hm').1 (heq ▸ List.mem_cons_self)
      · exact ⟨fun hmem => (hall m' hm').1 (List.mem_cons_of_mem _ hmem), (hall m' hm').2⟩
    · rintro ⟨⟨hnot, hnodup⟩, ⟨-, hone⟩, hall⟩
      refine ⟨⟨⟩, hone, ih.2 ⟨hnodup, fun m' hm' => ⟨fun hmem => ?_, (hall m' hm').2⟩⟩⟩
      rcases List.mem_cons.1 hmem with heq | hmem
      · exact hnot (List.mem_map.2 ⟨m', hm', heq⟩)
      · exact (hall m' hm').1 hmem

/-- A class passes if all its methods do and no two share name and descriptor. -/
theorem ClassDef.verify_eq_ok_iff {c : ClassDef} : c.verify = .ok () ↔
    (c.methods.map fun m => (m.name, m.desc)).Nodup ∧ ∀ m ∈ c.methods, m.verify = .ok () := by
  unfold ClassDef.verify
  rw [verifyMethods_eq_ok_iff]
  simp only [List.not_mem_nil, not_false_eq_true, true_and]

/-- Verification looks at the methods' names and descriptors, and at the methods themselves. -/
theorem ClassDef.verify_of_forall₂ {c c' : ClassDef}
    (h : Forall₂ (fun m m' : Method => m'.name = m.name ∧ m'.desc = m.desc ∧
      (m.verify = .ok () → m'.verify = .ok ())) c.methods c'.methods)
    (hverify : c.verify = .ok ()) : c'.verify = .ok () := by
  obtain ⟨hnodup, hall⟩ := verify_eq_ok_iff.1 hverify
  have hnames : Forall₂ Eq (c.methods.map fun m => (m.name, m.desc))
      (c'.methods.map fun m => (m.name, m.desc)) :=
    List.forall₂_map_left_iff.2 (List.forall₂_map_right_iff.2
      (h.imp fun m m' hm => Prod.ext hm.1.symm hm.2.1.symm))
  rw [List.forall₂_eq_eq_eq] at hnames
  refine verify_eq_ok_iff.2 ⟨hnames ▸ hnodup, fun m' hm' => ?_⟩
  obtain ⟨m, hm, -, -, hone⟩ := exists_left_of_mem h hm'
  exact hone (hall m hm)

end Resumable
