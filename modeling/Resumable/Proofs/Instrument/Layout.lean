import Resumable.Instrument.Body
import Resumable.Proofs.Flow.Fixpoint
import Resumable.Proofs.Instrument.Plan
import Resumable.Proofs.Labels

/-!
# The layout of a transformed body

A transformed body consists of a head that finds the way to the point to go on from, of one chunk for
each instruction of the method, and of a tail that releases the frame (`Analysed.Layout`). The chunk
of an instruction is the instruction itself with its lead-in; if the instruction is a suspension
point, the code that saves and restores goes in front of it.

The labels that are added are numbered from above those of the method on (`Method.freshLabel`). As
long as the numbers suffice, each of them is placed once (`Layout.position`).
-/

namespace Resumable

open List (Forall₂)

/-! ## Writing -/

/-- Starting from one account, this is written, and another account is left. -/
def Accounts {α : Type} (x : Analysed.Writing α) (account : Analysed.Account) (r : α)
    (account' : Analysed.Account) : Prop :=
  ∃ db db', (x.run.run account).run db = ((.ok r, account'), db')

/-- With some account and some database, what is written is this. -/
def Writes {α : Type} (x : Analysed.Writing α) (r : α) : Prop :=
  ∃ account account', Accounts x account r account'

section Writing

variable {α β : Type} {x : Analysed.Writing α} {k : α → Analysed.Writing β} {r r' : α} {b : β}
  {account account' : Analysed.Account}

namespace Accounts

theorem writes (h : Accounts x account r account') : Writes x r := ⟨account, account', h⟩

theorem pure (h : Accounts (Pure.pure r) account r' account') : r' = r ∧ account' = account := by
  obtain ⟨db, db', h⟩ := h
  cases h
  exact ⟨rfl, rfl⟩

theorem not_throw {e : InstrumentError} :
    ¬ Accounts (throw e : Analysed.Writing α) account r account' := by
  rintro ⟨db, db', h⟩
  cases h

/-- Both parts have been written, the second with the account that the first left. -/
theorem bind (h : Accounts (x >>= k) account b account') :
    ∃ r account₁, Accounts x account r account₁ ∧ Accounts (k r) account₁ b account' := by
  obtain ⟨db, db', h⟩ := h
  rcases hx : (x.run.run account).run db with ⟨⟨e | r, account₁⟩, db₁⟩
  · have hr : ((x >>= k).run.run account).run db = ((.error e, account₁), db₁) := by
      rw [ExceptT.run_bind, StateT.run_bind, StateT.run_bind, hx]
      rfl
    rw [hr] at h
    cases h
  · have hr : ((x >>= k).run.run account).run db = ((k r).run.run account₁).run db₁ := by
      rw [ExceptT.run_bind, StateT.run_bind, StateT.run_bind, hx]
      rfl
    exact ⟨r, account₁, ⟨db, db₁, hx⟩, db₁, db', hr ▸ h⟩

/-- The account has been looked at. -/
theorem get {account₀ : Analysed.Account}
    (h : Accounts (getThe Analysed.Account : Analysed.Writing Analysed.Account) account account₀
      account') : account₀ = account ∧ account' = account := by
  obtain ⟨db, db', h⟩ := h
  cases h
  exact ⟨rfl, rfl⟩

/-- The account has been changed. -/
theorem modify {f : Analysed.Account → Analysed.Account} {u : Unit}
    (h : Accounts (modifyThe Analysed.Account f : Analysed.Writing Unit) account u account') :
    account' = f account := by
  obtain ⟨db, db', h⟩ := h
  cases h
  rfl

/-- Writing a notice leaves the account as it is. -/
theorem notice {level : Level} {n : Notice} {u : Unit}
    (h : Accounts (Analysed.notice level n) account u account') : account' = account := by
  obtain ⟨db, db', h⟩ := h
  cases h
  rfl

end Accounts

namespace Writes

theorem pure (h : Writes (Pure.pure r) r') : r' = r := by
  obtain ⟨account, account', h⟩ := h
  exact h.pure.1

theorem not_throw {e : InstrumentError} : ¬ Writes (throw e : Analysed.Writing α) r := by
  rintro ⟨account, account', h⟩
  exact h.not_throw

/-- Both parts have been written. -/
theorem bind (h : Writes (x >>= k) b) : ∃ r, Writes x r ∧ Writes (k r) b := by
  obtain ⟨account, account', h⟩ := h
  obtain ⟨r, account₁, hx, hk⟩ := h.bind
  exact ⟨r, hx.writes, hk.writes⟩

/-- Everything has been written, one after the other. -/
theorem mapM {f : α → Analysed.Writing β} {as : List α} {bs : List β}
    (h : Writes (as.mapM f) bs) : Forall₂ (fun a b => Writes (f a) b) as bs := by
  induction as generalizing bs with
  | nil =>
    rw [List.mapM_nil] at h
    rw [h.pure]
    exact .nil
  | cons a as ih =>
    rw [List.mapM_cons] at h
    obtain ⟨b, hb, h⟩ := h.bind
    obtain ⟨bs', hbs, h⟩ := h.bind
    rw [h.pure]
    exact .cons hb (ih hbs)

end Writes

end Writing

/-! ## Labels -/

namespace Method

variable {m : Method} {count i j : Nat} {l : Label}

/-- The first number above the labels of the method. -/
def firstFree (m : Method) : Nat := m.maxLabel?.elim 0 (·.toNat + 1)

/-- There are numbers for so many more labels. -/
def HasLabels (m : Method) (count : Nat) : Prop := m.firstFree + count ≤ 4294967296

instance : Decidable (m.HasLabels count) := inferInstanceAs (Decidable (_ ≤ _))

/-- The label number `i` of those that are added to the method. -/
def freshLabel (m : Method) (i : Nat) : Label := ⟨UInt32.ofNat (m.firstFree + i)⟩

theorem freshLabel_toNat (h : m.HasLabels count) (hi : i < count) :
    (m.freshLabel i).id.toNat = m.firstFree + i :=
  UInt32.toNat_ofNat_of_lt' (by unfold HasLabels at h; show _ < 4294967296; omega)

theorem freshLabel_inj (h : m.HasLabels count) (hi : i < count) (hj : j < count)
    (hij : m.freshLabel i = m.freshLabel j) : i = j := by
  have hi' := freshLabel_toNat h hi
  have hj' := freshLabel_toNat h hj
  rw [hij] at hi'
  omega

theorem mem_labels_of_getElem? (h : m.code[i]? = some (.label l)) : l ∈ m.labels := by
  refine List.mem_append_left _ (List.mem_flatMap.2 ⟨.label l, List.mem_of_getElem? h, ?_⟩)
  exact List.mem_singleton_self l

theorem mem_labels_of_handler {handler : Handler} (h : handler ∈ m.handlers)
    (hl : l ∈ [handler.start, handler.stop, handler.target]) : l ∈ m.labels :=
  List.mem_append_right _ (List.mem_flatMap.2 ⟨handler, h, hl⟩)

/-- No label of the method is among those that are added. -/
theorem freshLabel_ne (h : m.HasLabels count) (hi : i < count) (hl : l ∈ m.labels) :
    l ≠ m.freshLabel i := by
  rintro rfl
  have hi' := freshLabel_toNat h hi
  unfold firstFree at hi'
  rcases hmax : m.maxLabel? with _ | largest
  · rw [maxLabel?, List.max?_eq_none_iff, List.map_eq_nil_iff] at hmax
    rw [hmax] at hl
    cases hl
  · rw [hmax] at hi'
    have : Std.LawfulOrderSup UInt32 :=
      ⟨fun a b c => by simp only [UInt32.le_iff_toNat_le, toNat_max]; omega⟩
    have hle := (List.max?_le_iff hmax).1 (UInt32.le_refl _) _ (List.mem_map_of_mem hl)
    rw [UInt32.le_iff_toNat_le] at hle
    simp only [Option.elim_some] at hi'
    omega

/-- The labels of a transformed body are those added to the method. -/
theorem forMethod_eq (m : Method) (n : Nat) : BodyLabels.forMethod m n =
    { start := m.freshLabel 0, stop := m.freshLabel 1, catchSignal := m.freshLabel 2
      catchAll := m.freshLabel 3
      resume := (List.range n).map fun k => m.freshLabel (4 + k)
      before := (List.range n).map fun k => m.freshLabel (4 + n + k)
      after := (List.range n).map fun k => m.freshLabel (4 + n + n + k) } := by
  have hfive (x : UInt32) : 5 + x = 1 + (4 + x) := (UInt32.add_assoc 1 4 x).symm ▸ rfl
  rcases hmax : m.maxLabel? with _ | largest <;>
    simp [BodyLabels.forMethod, freshLabel, firstFree, labelsFrom, hmax, UInt32.add_assoc, hfive]

end Method

/-! ## Chunks -/

namespace Analysed

variable {a : Analysed} {plan : MethodPlan} {omitted : List Nat}

/-- What is written for an instruction, unless it is left out. -/
inductive Writ (a : Analysed) (omitted : List Nat) : Instr × Nat → List Instr → Prop where
  | kept {i : Instr} {index : Nat} {front : List Instr} (h : omitted.contains index = false)
    (hfront : Writes (a.leadIn omitted index i) front) : Writ a omitted (i, index) (front ++ [i])
  | leftOut {i : Instr} {index : Nat} (h : omitted.contains index = true) :
    Writ a omitted (i, index) []

/-- The code of point number `k`, from the label in front of it to the one behind it. -/
def stretch (a : Analysed) (plan : MethodPlan) (k : Nat) (p : SuspensionPoint) : List Instr :=
  let n := plan.points.length
  p.stretch (UInt32.ofNat (k + 1)) (a.method.freshLabel (4 + n + k)) (a.method.freshLabel (4 + k))
    (a.method.freshLabel (4 + n + n + k))

/-- What a transformed body has for an instruction. The suspend call itself is not repeated. -/
inductive Chunk (a : Analysed) (plan : MethodPlan) : Instr × Nat → List Instr → Prop where
  | plain {x : Instr × Nat} {c : List Instr} (h : ∀ p ∈ plan.points, p.index ≠ x.2)
    (hw : Writ a plan.omitted x c) : Chunk a plan x c
  | point {x : Instr × Nat} {k : Nat} {p : SuspensionPoint} {c : List Instr}
    (hp : plan.points[k]? = some p) (hx : p.index = x.2) (h : p.isYield = false)
    (hw : Writ a plan.omitted x c) : Chunk a plan x (a.stretch plan k p ++ c)
  | yield {x : Instr × Nat} {k : Nat} {p : SuspensionPoint} (hp : plan.points[k]? = some p)
    (hx : p.index = x.2) (h : p.isYield = true) : Chunk a plan x (a.stretch plan k p)

/-- A segment consists of what is written for its instructions. -/
theorem segment_spec {xs : List (Instr × Nat)} {out : List Instr}
    (h : Writes (a.segment omitted xs) out) :
    ∃ cs, Forall₂ (a.Writ omitted) xs cs ∧ out = cs.flatten := by
  induction xs generalizing out with
  | nil =>
    rw [segment] at h
    rw [h.pure]
    exact ⟨[], .nil, rfl⟩
  | cons x xs ih =>
    obtain ⟨i, index⟩ := x
    rw [segment] at h
    split at h
    · rename_i hout
      obtain ⟨cs, hcs, rfl⟩ := ih h
      exact ⟨[] :: cs, .cons (.leftOut hout) hcs, rfl⟩
    · rename_i hin
      obtain ⟨front, hfront, h⟩ := h.bind
      obtain ⟨rest, hrest, h⟩ := h.bind
      obtain ⟨cs, hcs, rfl⟩ := ih hrest
      rw [h.pure]
      refine ⟨(front ++ [i]) :: cs, .cons (.kept (Bool.eq_false_iff.2 hin) hfront) hcs, ?_⟩
      simp

/-- Where there are no points, instructions stand for themselves. -/
theorem chunks_of_writ {xs : List (Instr × Nat)} {cs : List (List Instr)}
    (h : Forall₂ (a.Writ plan.omitted) xs cs)
    (hxs : ∀ x ∈ xs, ∀ p ∈ plan.points, p.index ≠ x.2) : Forall₂ (a.Chunk plan) xs cs := by
  induction h with
  | nil => exact .nil
  | cons hw _ ih =>
    exact .cons (.plain (hxs _ List.mem_cons_self) hw) (ih fun x hx =>
      hxs x (List.mem_cons_of_mem _ hx))

theorem mem_slice {start stop : Nat} {x : Instr × Nat} (h : x ∈ a.slice start stop) :
    a.method.code[x.2]? = some x.1 ∧ start ≤ x.2 ∧ x.2 < stop := by
  obtain ⟨i, hi, rfl⟩ := List.mem_drop_iff_getElem.1 h
  simp only [List.length_take, List.length_zipIdx] at hi
  simp only [List.getElem_take, List.getElem_zipIdx, Nat.zero_add]
  exact ⟨List.getElem?_eq_getElem (by omega), by omega, by omega⟩

theorem mem_slice_of {start stop : Nat} {x : Instr × Nat} (hx : a.method.code[x.2]? = some x.1)
    (hlow : start ≤ x.2) (hhigh : x.2 < stop) : x ∈ a.slice start stop := by
  have hlt := (List.getElem?_eq_some_iff.1 hx).1
  refine List.mem_iff_getElem?.2 ⟨x.2 - start, ?_⟩
  rw [slice, List.getElem?_drop, Nat.add_sub_cancel' hlow, List.getElem?_take_of_lt hhigh,
    List.getElem?_zipIdx, hx]
  simp

/-- The instructions from `start` on are those in front of `stop` and those from there on. -/
theorem drop_eq_slice {start stop : Nat} (h : start ≤ stop) :
    a.method.code.zipIdx.drop start = a.slice start stop ++ a.method.code.zipIdx.drop stop := by
  unfold slice
  rcases Nat.le_total stop a.method.code.zipIdx.length with hlen | hlen
  · conv_lhs => rw [← List.take_append_drop stop a.method.code.zipIdx]
    rw [List.drop_append_of_le_length (by rw [List.length_take]; omega)]
  · rw [List.take_of_length_le hlen, List.drop_eq_nil_of_le hlen, List.append_nil]

/-- The index at which the next point stands, or the end of the code. -/
def nextIndex (a : Analysed) (points : List SuspensionPoint) : Nat :=
  points.head?.elim a.method.code.length SuspensionPoint.index

/-- Between a point and the next one there are no others. -/
theorem no_point_between (a : Analysed) {before after : List SuspensionPoint} {p q : SuspensionPoint}
    (hpoints : plan.points = before ++ p :: after)
    (hsorted : plan.points.Pairwise (·.index < ·.index)) (hq : q ∈ plan.points) :
    q.index ≤ p.index ∨ a.nextIndex after ≤ q.index := by
  rw [hpoints] at hq hsorted
  obtain ⟨-, hafter, hbefore⟩ := List.pairwise_append.1 hsorted
  rcases List.mem_append.1 hq with hq | hq
  · exact .inl (Nat.le_of_lt (hbefore q hq p List.mem_cons_self))
  · rcases List.mem_cons.1 hq with rfl | hq
    · exact .inl (Nat.le_refl _)
    · cases after with
      | nil => cases hq
      | cons next after =>
        right
        rcases List.mem_cons.1 hq with rfl | hq
        · exact Nat.le_refl _
        · exact Nat.le_of_lt (List.rel_of_pairwise_cons (List.Pairwise.of_cons hafter) hq)

theorem drop_map_range {β : Type} (f : Nat → β) {k n : Nat} (h : k < n) :
    ((List.range n).map f).drop k = f k :: ((List.range n).map f).drop (k + 1) := by
  rw [List.drop_eq_getElem_cons (by simpa using h)]
  simp

/-- From the first of some points on, a body consists of chunks. -/
theorem pointsCode_spec {before points : List SuspensionPoint} {out : List Instr}
    (hpoints : plan.points = before ++ points)
    (hsorted : plan.points.Pairwise (·.index < ·.index))
    (hlt : ∀ p ∈ plan.points, p.index < a.method.code.length)
    (h : Writes (a.pointsCode plan.omitted (before.length + 1) points
      ((BodyLabels.forMethod a.method plan.points.length).resume.drop before.length)
      ((BodyLabels.forMethod a.method plan.points.length).before.drop before.length)
      ((BodyLabels.forMethod a.method plan.points.length).after.drop before.length)) out) :
    ∃ cs, Forall₂ (a.Chunk plan) (a.method.code.zipIdx.drop (a.nextIndex points)) cs ∧
      out = cs.flatten := by
  induction points generalizing before out with
  | nil =>
    rw [pointsCode] at h
    · rw [h.pure]
      refine ⟨[], ?_, rfl⟩
      rw [List.drop_eq_nil_of_le (by simp [nextIndex])]
      exact .nil
    · simp
  | cons p after ih =>
    have hk : before.length < plan.points.length := by rw [hpoints]; simp
    have hp : plan.points[before.length]? = some p := by rw [hpoints]; simp
    have hmem : p ∈ plan.points := List.mem_of_getElem? hp
    have hplt := hlt p hmem
    have hnext : p.index + 1 ≤ a.nextIndex after := by
      cases after with
      | nil => exact hplt
      | cons next after =>
        rw [hpoints] at hsorted
        exact List.rel_of_pairwise_cons (List.pairwise_append.1 hsorted).2.1 List.mem_cons_self
    rw [Method.forMethod_eq, drop_map_range _ hk, drop_map_range _ hk, drop_map_range _ hk] at h
    unfold pointsCode at h
    dsimp only at h
    obtain ⟨tail, htail, h⟩ := h.bind
    obtain ⟨more, hmore, h⟩ := h.bind
    rw [h.pure]
    obtain ⟨cs, hcs, rfl⟩ := @ih (before ++ [p]) more (by simp [hpoints])
      (by simpa only [List.length_append, List.length_singleton, Method.forMethod_eq] using hmore)
    obtain ⟨ts, hts, rfl⟩ := segment_spec htail
    -- Behind the call there is no other point up to the next one.
    have hplain : ∀ x ∈ a.slice (p.index + 1) (a.nextIndex after),
        ∀ q ∈ plan.points, q.index ≠ x.2 := by
      intro x hx q hq
      obtain ⟨-, hlow, hhigh⟩ := mem_slice hx
      rcases no_point_between a hpoints hsorted hq with h | h <;> omega
    replace hts : Forall₂ (a.Writ plan.omitted)
        (a.slice (p.index + if p.isYield then 1 else 0) (a.nextIndex after)) ts := by
      cases after <;> exact hts
    have hdrop : a.method.code.zipIdx.drop (a.nextIndex (p :: after)) =
        (a.method.code[p.index], p.index) ::
          (a.slice (p.index + 1) (a.nextIndex after) ++
            a.method.code.zipIdx.drop (a.nextIndex after)) := by
      rw [← drop_eq_slice hnext]
      show a.method.code.zipIdx.drop p.index = _
      rw [List.drop_eq_getElem_cons (by simpa using hplt)]
      simp
    rw [hdrop]
    cases hyield : p.isYield with
    | true =>
      rw [hyield] at hts
      have hrest := List.rel_append (chunks_of_writ hts hplain) hcs
      exact ⟨_, .cons (.yield hp rfl hyield) hrest, by simp [stretch]⟩
    | false =>
      rw [hyield] at hts
      have hslice : a.slice p.index (a.nextIndex after) =
          (a.method.code[p.index], p.index) :: a.slice (p.index + 1) (a.nextIndex after) := by
        unfold slice
        rw [List.drop_eq_getElem_cons (by simp; omega)]
        simp
      rw [show p.index + (if false then 1 else 0) = p.index from rfl, hslice] at hts
      obtain ⟨w, ws, hw, hws, rfl⟩ := List.forall₂_cons_left_iff.1 hts
      have hrest := List.rel_append (chunks_of_writ hws hplain) hcs
      exact ⟨_, .cons (.point hp rfl hyield hw) hrest, by simp [stretch]⟩

/-! ## Labels of chunks -/

variable {l : Label} {x : Instr × Nat} {c : List Instr}

/-- An allocation is made up for where the object and its duplicate are the first of some operands and
the instruction that made one of them, at least, is left out. -/
def rebuilds (omitted : List Nat) : List FlowValue → Bool
  | .fresh _ _ dupInsn true :: .fresh _ _ allocInsn false :: _ =>
    omitted.contains allocInsn || omitted.contains dupInsn
  | _ => false

/-- The locals in which an allocation sets the arguments aside, each with its kind. -/
def temps (base : UInt16) (kinds : List SlotKind) : List (SlotKind × UInt16) :=
  kinds.zipIdx.map fun x => (x.1, base + UInt16.ofNat x.2)

theorem length_temps (base : UInt16) (kinds : List SlotKind) :
    (temps base kinds).length = kinds.length := by
  rw [temps, List.length_map, List.length_zipIdx]

/-- They follow each other from `base` on. -/
theorem map_temps {base : UInt16} {kinds : List SlotKind}
    (hfit : base.toNat + kinds.length ≤ 65536) :
    (temps base kinds).map (·.2.toNat) = List.range' base.toNat kinds.length := by
  have hnumber : ∀ x ∈ kinds.zipIdx, (base + UInt16.ofNat x.2).toNat = base.toNat + x.2 := by
    intro x hx
    have hk : x.2 < kinds.length :=
      (List.getElem?_eq_some_iff.1 (List.mk_mem_zipIdx_iff_getElem?.1 hx)).1
    rw [UInt16.toNat_add, UInt16.toNat_ofNat_of_lt' (by show x.2 < 65536; omega)]
    exact Nat.mod_eq_of_lt (by show base.toNat + x.2 < 65536; omega)
  calc (temps base kinds).map (·.2.toNat)
      = kinds.zipIdx.map fun x => base.toNat + x.2 := by
        rw [temps, List.map_map]
        exact List.map_congr_left hnumber
    _ = (kinds.zipIdx.map Prod.snd).map (base.toNat + ·) := (List.map_map ..).symm
    _ = List.range' base.toNat kinds.length := by
        rw [List.zipIdx_map_snd, List.map_add_range', Nat.add_zero]

theorem mem_temps {base : UInt16} {kinds : List SlotKind} {temp : SlotKind × UInt16}
    (hfit : base.toNat + kinds.length ≤ 65536) (h : temp ∈ temps base kinds) :
    base.toNat ≤ temp.2.toNat ∧ temp.2.toNat < base.toNat + kinds.length := by
  have hmem : temp.2.toNat ∈ (temps base kinds).map (·.2.toNat) := List.mem_map_of_mem h
  rw [map_temps hfit, List.mem_range'_1] at hmem
  exact hmem

/-- The arguments go to locals and come back from them. -/
theorem allocationCode_eq (type : String) (base : UInt16) (kinds : List SlotKind) :
    allocationCode type base kinds =
      (temps base kinds).reverse.map (fun temp => Instr.local temp.1.storeOpcode temp.2) ++
        [Instr.type .new type, .simple .dup] ++
        (temps base kinds).map fun temp => Instr.local temp.1.loadOpcode temp.2 := rfl

theorem mem_allocationCode {type : String} {base : UInt16} {kinds : List SlotKind} {i : Instr}
    (h : i ∈ allocationCode type base kinds) :
    (∃ temp ∈ temps base kinds,
      i = .local temp.1.storeOpcode temp.2 ∨ i = .local temp.1.loadOpcode temp.2) ∨
      i = .type .new type ∨ i = .simple .dup := by
  rw [allocationCode_eq] at h
  simp only [List.mem_append, List.mem_map, List.mem_reverse, List.mem_cons, List.not_mem_nil,
    or_false] at h
  rcases h with (⟨temp, hmem, rfl⟩ | hnew) | ⟨temp, hmem, rfl⟩
  · exact .inl ⟨temp, hmem, .inl rfl⟩
  · exact .inr hnew
  · exact .inl ⟨temp, hmem, .inr rfl⟩

/-- It names no locals but those. -/
theorem localIndex?_allocationCode {type : String} {base : UInt16} {kinds : List SlotKind}
    {i : Instr} {index : UInt16} (hfit : base.toNat + kinds.length ≤ 65536)
    (hi : i ∈ allocationCode type base kinds) (hindex : i.localIndex? = some index) :
    base.toNat ≤ index.toNat ∧ index.toNat < base.toNat + kinds.length := by
  rcases mem_allocationCode hi with ⟨temp, hmem, rfl | rfl⟩ | rfl | rfl <;> cases hindex
  · exact mem_temps hfit hmem
  · exact mem_temps hfit hmem

/-- The kinds of the arguments of a call, the first of them first. -/
def argumentKinds (f : Frame) (argc : Nat) : List SlotKind :=
  (f.stack.take argc).reverse.map fun v => v.slotKind?.getD .ref

/-- A constructor call makes up for an allocation if one has been put off to it. Then the arguments
go to locals behind those of the method, and the account is raised to what they need. -/
theorem deferredAllocation_cases {index : Nat} {desc : String} {front : List Instr}
    {account account' : Account}
    (h : Accounts (a.deferredAllocation omitted index desc) account front account') :
    (front = [] ∧ account' = account ∧ ∀ f type, a.frame? index = some f →
      MethodType.parse desc = .ok type → rebuilds omitted (f.stack.drop type.arity) = false) ∨
    ∃ f type copy name alloc insn rest, a.frame? index = some f ∧ MethodType.parse desc = .ok type ∧
      f.stack.drop type.arity = copy :: .fresh name alloc insn false :: rest ∧
      rebuilds omitted (f.stack.drop type.arity) = true ∧
      a.method.maxLocals.toNat + type.arity ≤ 65536 ∧
      front = allocationCode name a.method.maxLocals (argumentKinds f type.arity) ∧
      account' = { account with extraLocals := max account.extraLocals type.arity } := by
  unfold deferredAllocation at h
  split at h
  · rename_i hf
    obtain ⟨rfl, rfl⟩ := h.pure
    exact .inl ⟨rfl, rfl, fun f _ hf' => nomatch hf.symm.trans hf'⟩
  rename_i f hf
  rcases hparse : MethodType.parse desc with cause | type
  · rw [hparse] at h
    obtain ⟨_, _, hthrow, -⟩ := h.bind
    exact (Accounts.not_throw hthrow).elim
  rw [hparse] at h
  obtain ⟨argc, account₁, hargc, h₁⟩ := h.bind
  obtain ⟨rfl, rfl⟩ := hargc.pure
  dsimp only at h₁
  have hnone (hnot : rebuilds omitted (f.stack.drop type.arity) = false) : ∀ f' type',
      a.frame? index = some f' → (.ok type : Except DescriptorError MethodType) = .ok type' →
        rebuilds omitted (f'.stack.drop type'.arity) = false := by
    intro f' type' hf' htype'
    cases hf.symm.trans hf'
    cases htype'
    exact hnot
  split at h₁
  · rename_i receiver below rest hdrop
    split at h₁
    · -- The two copies are there: their instructions are left out together or not at all.
      split at h₁
      · rename_i hneither
        obtain ⟨rfl, rfl⟩ := h₁.pure
        refine .inl ⟨rfl, rfl, hnone ?_⟩
        rw [hdrop]
        simpa [rebuilds, and_comm] using hneither
      · rename_i heither
        split at h₁
        · obtain ⟨_, _, hthrow, -⟩ := h₁.bind
          exact (Accounts.not_throw hthrow).elim
        · rename_i hroom
          obtain ⟨_, account₂, hraise, h₂⟩ := h₁.bind
          obtain ⟨rfl, rfl⟩ := h₂.pure
          refine .inr ⟨f, type, _, _, _, _, rest, hf, rfl, hdrop, ?_, by omega, rfl, hraise.modify⟩
          rw [hdrop]
          simpa [rebuilds, Decidable.or_iff_not_imp_left] using heither
    · -- Otherwise the call is only noticed.
      rename_i hnot
      obtain ⟨_, account₂, hnotice, h₂⟩ := h₁.bind
      obtain ⟨rfl, rfl⟩ := h₂.pure
      refine .inl ⟨rfl, hnotice.notice, hnone ?_⟩
      rw [hdrop]
      unfold rebuilds
      split
      · rename_i heq
        cases heq
        exact (hnot _ _ _ _ _ _ rfl rfl).elim
      · rfl
  · rename_i hnot
    obtain ⟨_, account₂, hnotice, h₂⟩ := h₁.bind
    obtain ⟨rfl, rfl⟩ := h₂.pure
    refine .inl ⟨rfl, hnotice.notice, hnone ?_⟩
    unfold rebuilds
    split
    · rename_i hdrop
      exact (hnot _ _ _ hdrop).elim
    · rfl

/-- There are as many of them as the call has arguments if something lies below these. -/
theorem length_argumentKinds {f : Frame} {argc : Nat} {v : FlowValue} {rest : List FlowValue}
    (h : f.stack.drop argc = v :: rest) : (argumentKinds f argc).length = argc := by
  have hlen := congrArg List.length h
  rw [List.length_drop, List.length_cons] at hlen
  rw [argumentKinds, List.length_map, List.length_reverse, List.length_take]
  omega

/-- What is written for a constructor call, whatever stands on the account. -/
theorem deferredAllocation_spec {index : Nat} {desc : String} {front : List Instr}
    (h : Writes (a.deferredAllocation omitted index desc) front) :
    (front = [] ∧ ∀ f type, a.frame? index = some f → MethodType.parse desc = .ok type →
      rebuilds omitted (f.stack.drop type.arity) = false) ∨
    ∃ f type, a.frame? index = some f ∧ MethodType.parse desc = .ok type ∧
      rebuilds omitted (f.stack.drop type.arity) = true ∧
      ∃ name base kinds, kinds.length = type.arity ∧ front = allocationCode name base kinds := by
  obtain ⟨account, account', h⟩ := h
  rcases deferredAllocation_cases h with ⟨hfront, -, hnot⟩ |
    ⟨f, type, copy, name, alloc, insn, rest, hf, htype, hdrop, hrebuilds, -, hfront, -⟩
  · exact .inl ⟨hfront, hnot⟩
  · exact .inr ⟨f, type, hf, htype, hrebuilds, name, _, _, length_argumentKinds hdrop, hfront⟩

/-- A constructor call may have to make up for an allocation. -/
theorem leadIn_invoke {index : Nat} {op : Opcode} {callee : MemberRef} {front : List Instr}
    (h : Writes (a.leadIn omitted index (.invoke op callee)) front) :
    (op = .invokespecial ∧ callee.name = Names.constructor) ∧
        Writes (a.deferredAllocation omitted index callee.desc) front ∨
      ¬ (op = .invokespecial ∧ callee.name = Names.constructor) ∧ front = [] := by
  unfold leadIn at h
  split at h
  · rename_i heq
    cases heq
  · rename_i heq
    cases heq
    split at h
    · rename_i hname
      exact .inl ⟨⟨rfl, hname⟩, h⟩
    · rename_i hname
      exact .inr ⟨fun hctor => hname hctor.2, h.pure⟩
  · rename_i hspecial
    refine .inr ⟨fun hctor => ?_, h.pure⟩
    exact hspecial callee (by rw [hctor.1])

/-- Only returns have something in front of them among the operations without operands. -/
theorem leadIn_simple {index : Nat} {op : Opcode} {front : List Instr}
    (h : Writes (a.leadIn omitted index (.simple op)) front) :
    front = if op.isReturn then [.frame .release] else [] := by
  unfold leadIn at h
  dsimp only at h
  split at h
  · rename_i hreturn
    rw [if_pos hreturn]
    exact h.pure
  · rename_i hreturn
    rw [if_neg hreturn]
    split at h
    · obtain ⟨_, -, h⟩ := h.bind
      split at h
      · obtain ⟨_, hthrow, -⟩ := h.bind
        exact (Writes.not_throw hthrow).elim
      · obtain ⟨_, -, h⟩ := h.bind
        split at h
        · obtain ⟨_, -, h⟩ := h.bind
          obtain ⟨_, -, h⟩ := h.bind
          exact h.pure
        · exact h.pure
    · exact h.pure

/-- What leads to an instruction: a return releases the frame, a constructor call may have to make
up for an allocation, and nothing leads to any other instruction. -/
theorem leadIn_cases {index : Nat} {i : Instr} {front : List Instr}
    (h : Writes (a.leadIn omitted index i) front) :
    (∃ op, i = .simple op ∧ op.isReturn = true ∧ front = [.frame .release]) ∨
      (front = [] ∧ ∀ op, i = .simple op → op.isReturn = false) ∨
      ∃ callee type base kinds, i = .invoke .invokespecial callee ∧
        callee.name = Names.constructor ∧ front = allocationCode type base kinds := by
  cases i with
  | simple op =>
    have hfront := leadIn_simple h
    cases hreturn : op.isReturn with
    | true =>
      rw [hreturn] at hfront
      exact .inl ⟨op, rfl, hreturn, hfront⟩
    | false =>
      rw [hreturn] at hfront
      refine .inr (.inl ⟨hfront, fun op' heq => ?_⟩)
      cases heq
      exact hreturn
  | invoke op callee =>
    right
    rcases leadIn_invoke h with ⟨⟨rfl, hname⟩, hfront⟩ | ⟨-, rfl⟩
    · rcases deferredAllocation_spec hfront with ⟨rfl, -⟩ | ⟨_, _, -, -, -, type, base, kinds, -, rfl⟩
      · exact .inl ⟨rfl, nofun⟩
      · exact .inr ⟨callee, type, base, kinds, rfl, hname, rfl⟩
    · exact .inl ⟨rfl, nofun⟩
  | _ => exact .inr (.inl ⟨Writes.pure h, nofun⟩)

/-- Nothing that leads to an instruction is a label. -/
theorem not_label_of_leadIn {index : Nat} {i : Instr} {front : List Instr}
    (h : Writes (a.leadIn omitted index i) front) : .label l ∉ front := by
  rcases leadIn_cases h with ⟨op, -, -, rfl⟩ | ⟨rfl, -⟩ | ⟨callee, type, base, kinds, -, -, rfl⟩
  · simp
  · exact List.not_mem_nil
  · intro hl
    rcases mem_allocationCode hl with ⟨temp, -, heq | heq⟩ | heq | heq <;> cases heq

theorem eq_of_label_writ (h : Writ a omitted x c) (hl : .label l ∈ c) : x.1 = .label l := by
  cases h with
  | kept _ hfront =>
    rcases List.mem_append.1 hl with hl | hl
    · exact absurd hl (not_label_of_leadIn hfront)
    · exact (List.mem_singleton.1 hl).symm
  | leftOut _ => cases hl

theorem not_label_of_saveCode {p : SuspensionPoint} {entry : UInt32} :
    .label l ∉ p.saveCode entry := by
  intro hl
  unfold SuspensionPoint.saveCode at hl
  simp only [List.mem_cons, List.mem_append, List.mem_flatMap, reduceCtorEq, false_or] at hl
  rcases hl with ⟨action, -, hl⟩ | ⟨⟨index, action⟩, -, hl⟩ <;> cases action <;> simp at hl

theorem not_label_of_restoreCode {p : SuspensionPoint} : .label l ∉ p.restoreCode := by
  intro hl
  unfold SuspensionPoint.restoreCode at hl
  simp only [List.mem_append, List.mem_flatMap] at hl
  rcases hl with ⟨⟨index, action⟩, -, hl⟩ | ⟨action, -, hl⟩ <;> cases action <;> simp at hl

theorem label_of_mem_stretch {p : SuspensionPoint} {entry : UInt32} {before resume after : Label}
    (h : .label l ∈ p.stretch entry before resume after) :
    l = before ∨ l = resume ∨ l = after := by
  unfold SuspensionPoint.stretch at h
  cases hyield : p.isYield <;>
    simpa [hyield, not_label_of_saveCode, not_label_of_restoreCode] using h

/-- The numbers of the labels that are added at point number `k` of `n`. -/
def pointLabels (n k : Nat) : List Nat := [4 + n + k, 4 + k, 4 + n + n + k]

theorem le_of_mem_pointLabels {n k number : Nat} (h : number ∈ pointLabels n k) : 4 ≤ number := by
  simp only [pointLabels, List.mem_cons, List.not_mem_nil, or_false] at h
  omega

theorem lt_of_mem_pointLabels {n k number : Nat} (h : number ∈ pointLabels n k) (hk : k < n) :
    number < 4 + 3 * n := by
  simp only [pointLabels, List.mem_cons, List.not_mem_nil, or_false] at h
  omega

/-- No label is added at two points. -/
theorem eq_of_mem_pointLabels {n k k' number : Nat} (hk : k < n) (hk' : k' < n)
    (h : number ∈ pointLabels n k) (h' : number ∈ pointLabels n k') : k' = k := by
  simp only [pointLabels, List.mem_cons, List.not_mem_nil, or_false] at h h'
  omega

/-- A label in the chunk of an instruction is that instruction or was added at the point there. -/
theorem label_of_mem_chunk (h : a.Chunk plan x c) (hl : .label l ∈ c) : x.1 = .label l ∨
    ∃ k p, plan.points[k]? = some p ∧ p.index = x.2 ∧
      ∃ number ∈ pointLabels plan.points.length k, l = a.method.freshLabel number := by
  have hstretch {k : Nat} {p : SuspensionPoint} (hl : .label l ∈ a.stretch plan k p) :
      ∃ number ∈ pointLabels plan.points.length k, l = a.method.freshLabel number := by
    rcases label_of_mem_stretch hl with rfl | rfl | rfl <;> simp [pointLabels]
  cases h with
  | plain _ hw => exact .inl (eq_of_label_writ hw hl)
  | point hp hx _ hw =>
    rcases List.mem_append.1 hl with hl | hl
    · exact .inr ⟨_, _, hp, hx, hstretch hl⟩
    · exact .inl (eq_of_label_writ hw hl)
  | yield hp hx _ => exact .inr ⟨_, _, hp, hx, hstretch hl⟩

/-! ## Handlers -/

/-- The place of a label that is to be cut at. -/
def cutPlace (a : Analysed) (code : List Instr) (l : Label) : Writing Nat :=
  match labelPosition? code l with
  | some position => return position
  | none => throw (Flow.failure a.owner a.method 0 (.undefinedLabel l))

/-- A range stays as it is, or is cut in two around a stretch. -/
theorem cutRange_spec {code : List Instr} {before after : Label} {range : Label × Label}
    {pieces : List (Label × Label)} (h : Writes (a.cutRange code before after range) pieces) :
    pieces = [range] ∨ pieces = [(range.1, before), (after, range.2)] := by
  unfold cutRange at h
  obtain ⟨first, -, h⟩ := h.bind
  obtain ⟨last, -, h⟩ := h.bind
  dsimp only at h
  obtain ⟨start, -, h⟩ := h.bind
  split at h
  · obtain ⟨stop, -, h⟩ := h.bind
    split at h
    · obtain ⟨_, -, h⟩ := h.bind
      exact .inr h.pure
    · exact .inl h.pure
  · exact .inl h.pure

/-- Cutting makes no new ends but those in front of stretches. -/
theorem cutRanges_spec {code : List Instr} {stretches ranges pieces : List (Label × Label)}
    (h : Writes (a.cutRanges code stretches ranges) pieces) {piece : Label × Label}
    (hpiece : piece ∈ pieces) :
    (∃ range ∈ ranges, piece.2 = range.2) ∨ ∃ stretch ∈ stretches, piece.2 = stretch.1 := by
  induction stretches generalizing ranges with
  | nil =>
    rw [cutRanges] at h
    rw [h.pure] at hpiece
    exact .inl ⟨piece, hpiece, rfl⟩
  | cons stretch stretches ih =>
    obtain ⟨before, after⟩ := stretch
    rw [cutRanges] at h
    obtain ⟨cut, hcut, h⟩ := h.bind
    rcases ih h with ⟨range, hrange, heq⟩ | ⟨stretch, hstretch, heq⟩
    · obtain ⟨ranges', hranges', hmem⟩ := List.mem_flatten.1 hrange
      obtain ⟨old, hold, hwrites⟩ := exists_left_of_mem hcut.mapM hranges'
      rcases cutRange_spec hwrites with rfl | rfl
      · rw [List.mem_singleton.1 hmem] at heq
        exact .inl ⟨old, hold, heq⟩
      · rcases List.mem_cons.1 hmem with rfl | hmem
        · exact .inr ⟨_, List.mem_cons_self, heq⟩
        · rw [List.mem_singleton.1 hmem] at heq
          exact .inl ⟨old, hold, heq⟩
    · exact .inr ⟨stretch, List.mem_cons_of_mem _ hstretch, heq⟩

/-- A handler that has been cut ends where it ended before or in front of a point. -/
theorem cutHandlers_spec {code : List Instr} {labels : BodyLabels} {cut : List Handler}
    (h : Writes (a.cutHandlers code labels) cut) {handler : Handler} (hmem : handler ∈ cut) :
    (∃ old ∈ a.method.handlers, handler.stop = old.stop) ∨ handler.stop ∈ labels.before := by
  unfold cutHandlers at h
  obtain ⟨pieces, hpieces, h⟩ := h.bind
  rw [h.pure] at hmem
  obtain ⟨piece, hpiece, hmem⟩ := List.mem_flatten.1 hmem
  obtain ⟨old, hold, hwrites⟩ := exists_left_of_mem hpieces.mapM hpiece
  obtain ⟨ranges, hranges, hwrites⟩ := hwrites.bind
  rw [hwrites.pure] at hmem
  obtain ⟨range, hrange, rfl⟩ := List.mem_map.1 hmem
  rcases cutRanges_spec hranges hrange with ⟨whole, hwhole, heq⟩ | ⟨stretch, hstretch, heq⟩
  · rw [List.mem_singleton.1 hwhole] at heq
    exact .inl ⟨old, hold, heq⟩
  · refine .inr ?_
    show range.2 ∈ labels.before
    rw [heq]
    exact (List.of_mem_zip hstretch).1

/-! ## Whole bodies -/

/-- What a transformed body begins with. -/
def head (a : Analysed) (plan : MethodPlan) : List Instr :=
  [.frame .entry, .switch 1 (a.method.freshLabel 0)
    ((List.range plan.points.length).map fun k => a.method.freshLabel (4 + k)),
    .label (a.method.freshLabel 0)]

/-- What a transformed body ends with. -/
def tail (a : Analysed) : List Instr :=
  [.label (a.method.freshLabel 1), .label (a.method.freshLabel 3), .frame .release,
    .label (a.method.freshLabel 2), .simple .athrow]

/-- The handler that lets the signal through. -/
def signalHandler (a : Analysed) : Handler :=
  ⟨a.method.freshLabel 0, a.method.freshLabel 1, a.method.freshLabel 2,
    some Names.suspendExecution⟩

/-- The handler that releases the frame for everything else. -/
def otherHandler (a : Analysed) : Handler :=
  ⟨a.method.freshLabel 0, a.method.freshLabel 1, a.method.freshLabel 3, none⟩

/-- The method has been transformed into chunks. -/
structure Layout (a : Analysed) (plan : MethodPlan) (m : Method) (chunks : List (List Instr)) :
    Prop where
  chunk : Forall₂ (a.Chunk plan) a.method.code.zipIdx chunks
  code : m.code = a.head plan ++ chunks.flatten ++ a.tail
  maxLocals : a.method.maxLocals.toNat ≤ m.maxLocals.toNat
  handlers : ∃ cut, m.handlers = a.signalHandler :: cut ++ [a.otherHandler] ∧
    ∀ handler ∈ cut, handler.stop ∈ a.method.labels ∨
      ∃ k < plan.points.length, handler.stop = a.method.freshLabel (4 + plan.points.length + k)

/-- The parts of a transformed method, and with which account they have been written. -/
theorem transformed_cases {first : SuspensionPoint} {m : Method} {account account' : Account}
    (h : Accounts (a.transformed plan first) account m account') :
    ∃ front points cut account₀ account₁ account₂ account₃,
      Accounts (a.segment plan.omitted (a.slice 0 first.index)) account₀ front account₁ ∧
      Accounts (a.pointsCode plan.omitted 1 plan.points
        (BodyLabels.forMethod a.method plan.points.length).resume
        (BodyLabels.forMethod a.method plan.points.length).before
        (BodyLabels.forMethod a.method plan.points.length).after) account₁ points account₂ ∧
      Accounts (a.cutHandlers m.code (BodyLabels.forMethod a.method plan.points.length)) account₂ cut
        account₃ ∧
      a.method.maxLocals.toNat + account₃.extraLocals < 65536 ∧
      m = { a.method with
        maxLocals := UInt16.ofNat (a.method.maxLocals.toNat + account₃.extraLocals)
        code := a.head plan ++ front ++ points ++ a.tail
        handlers := a.signalHandler :: cut ++ [a.otherHandler] } := by
  unfold transformed at h
  obtain ⟨_, account₀, -, h⟩ := h.bind
  dsimp only at h
  split at h
  · obtain ⟨_, _, hthrow, -⟩ := h.bind
    exact (Accounts.not_throw hthrow).elim
  obtain ⟨front, account₁, hfront, h⟩ := h.bind
  obtain ⟨points, account₂, hpoints, h⟩ := h.bind
  obtain ⟨cut, account₃, hcut, h⟩ := h.bind
  obtain ⟨account₄, account₅, hget, hlast⟩ := h.bind
  obtain ⟨rfl, -⟩ := hget.get
  split at hlast
  · obtain ⟨_, _, hthrow, -⟩ := hlast.bind
    exact (Accounts.not_throw hthrow).elim
  rename_i hmax
  obtain ⟨rfl, -⟩ := hlast.pure
  rw [Method.forMethod_eq] at hcut ⊢
  exact ⟨front, points, cut, account₀, account₁, account₂, _, hfront,
    by rwa [Method.forMethod_eq] at hpoints, hcut, by omega,
    by simp [head, tail, signalHandler, otherHandler]⟩

/-- What is written for a method with points is laid out in chunks. -/
theorem transformed_spec {first : SuspensionPoint} {rest : List SuspensionPoint} {m : Method}
    (hpoints : plan.points = first :: rest)
    (hsorted : plan.points.Pairwise (·.index < ·.index))
    (hlt : ∀ p ∈ plan.points, p.index < a.method.code.length)
    (h : Writes (a.transformed plan first) m) : ∃ chunks, a.Layout plan m chunks := by
  obtain ⟨_, _, h⟩ := h
  obtain ⟨front, points, cut, _, _, _, account, hfront, hpointsCode, hcut, hmax, hm⟩ :=
    transformed_cases h
  replace hcut := hcut.writes
  obtain ⟨fs, hfs, rfl⟩ := segment_spec hfront.writes
  obtain ⟨cs, hcs, rfl⟩ := @pointsCode_spec a plan [] plan.points _ rfl hsorted hlt
    hpointsCode.writes
  have hall : ∀ x ∈ a.slice 0 first.index, ∀ p ∈ plan.points, p.index ≠ x.2 := by
    intro x hx p hp
    obtain ⟨-, -, hhigh⟩ := mem_slice hx
    rw [hpoints] at hp hsorted
    rcases List.mem_cons.1 hp with rfl | hp
    · omega
    · have := List.rel_of_pairwise_cons hsorted hp
      omega
  have hchunks : Forall₂ (a.Chunk plan) (_ ++ _) (fs ++ cs) :=
    List.rel_append (chunks_of_writ hfs hall) hcs
  have hnext : a.nextIndex plan.points = first.index := by rw [hpoints]; rfl
  rw [hnext, ← drop_eq_slice (Nat.zero_le _), List.drop_zero] at hchunks
  refine ⟨fs ++ cs, hchunks, ?_, ?_, cut, ?_, fun handler hmem => ?_⟩
  · rw [hm]
    simp
  · rw [hm]
    show _ ≤ (UInt16.ofNat (a.method.maxLocals.toNat + account.extraLocals)).toNat
    rw [UInt16.toNat_ofNat_of_lt' hmax]
    exact Nat.le_add_right _ _
  · rw [hm]
  · rcases cutHandlers_spec hcut hmem with ⟨old, hold, heq⟩ | hbefore
    · left
      rw [heq]
      exact Method.mem_labels_of_handler hold (by simp)
    · right
      rw [Method.forMethod_eq] at hbefore
      obtain ⟨k, hk, heq⟩ := List.mem_map.1 hbefore
      exact ⟨k, List.mem_range.1 hk, heq.symm⟩

namespace Layout

variable {m : Method} {chunks : List (List Instr)} {k : Nat} {p : SuspensionPoint}

/-- The labels that the head and the tail place. -/
theorem number_of_mem_tail (h : .label l ∈ a.tail) :
    ∃ number ∈ [1, 3, 2], l = a.method.freshLabel number := by
  simpa [tail] using h

/-- A point is known by its index. -/
theorem number_unique (hsorted : plan.points.Pairwise (·.index < ·.index)) {k' : Nat}
    {p' : SuspensionPoint} (hp : plan.points[k]? = some p) (hp' : plan.points[k']? = some p')
    (h : p'.index = p.index) : k' = k ∧ p' = p := by
  obtain ⟨hk, rfl⟩ := List.getElem?_eq_some_iff.1 hp
  obtain ⟨hk', rfl⟩ := List.getElem?_eq_some_iff.1 hp'
  have hkk : k' = k := by
    rcases Nat.lt_trichotomy k' k with hlt | heq | hlt
    · have := List.pairwise_iff_getElem.1 hsorted k' k hk' hk hlt
      omega
    · exact heq
    · have := List.pairwise_iff_getElem.1 hsorted k k' hk hk' hlt
      omega
  subst hkk
  exact ⟨rfl, rfl⟩

/-- The chunk of a point begins with the code that saves and restores there. -/
theorem chunk_of_point (hsorted : plan.points.Pairwise (·.index < ·.index))
    (hp : plan.points[k]? = some p) (hx : p.index = x.2) (h : a.Chunk plan x c) :
    ∃ body, c = a.stretch plan k p ++ body ∧
      (if p.isYield then body = [] else Writ a plan.omitted x body) := by
  cases h with
  | plain hnot _ => exact absurd hx (hnot p (List.mem_of_getElem? hp))
  | point hp' hx' hyield hw =>
    obtain ⟨rfl, rfl⟩ := number_unique hsorted hp hp' (hx'.trans hx.symm)
    exact ⟨_, rfl, by rw [hyield]; exact hw⟩
  | yield hp' hx' hyield =>
    obtain ⟨rfl, rfl⟩ := number_unique hsorted hp hp' (hx'.trans hx.symm)
    exact ⟨[], (List.append_nil _).symm, by rw [hyield]; rfl⟩

/-- Where the chunk of an instruction begins. -/
def startOf (chunks : List (List Instr)) (i : Nat) : Nat := 3 + (chunks.take i).flatten.length

/-- The code around the stretch of a point. What comes behind it has none of its labels. -/
theorem exists_stretch (h : a.Layout plan m chunks)
    (hsorted : plan.points.Pairwise (·.index < ·.index))
    (hlabels : a.method.HasLabels (4 + 3 * plan.points.length)) (hp : plan.points[k]? = some p)
    (hlt : p.index < a.method.code.length) :
    ∃ before after, before.length = startOf chunks p.index ∧
      m.code = before ++ a.stretch plan k p ++ after ∧
      ∀ number ∈ pointLabels plan.points.length k,
        .label (a.method.freshLabel number) ∉ after := by
  have hlen : chunks.length = a.method.code.length := by
    rw [← h.chunk.length_eq, List.length_zipIdx]
  obtain ⟨c, hc⟩ : ∃ c, chunks[p.index]? = some c := ⟨_, List.getElem?_eq_getElem (by omega)⟩
  have hx : a.method.code.zipIdx[p.index]? = some (a.method.code[p.index], p.index) := by
    rw [List.getElem?_zipIdx, List.getElem?_eq_getElem hlt]
    simp
  have hk := (List.getElem?_eq_some_iff.1 hp).1
  obtain ⟨body, rfl, hbody⟩ := chunk_of_point hsorted hp rfl (forall₂_getElem? h.chunk hx hc)
  refine ⟨a.head plan ++ (chunks.take p.index).flatten,
    body ++ (chunks.drop (p.index + 1)).flatten ++ a.tail, ?_, ?_, ?_⟩
  · simp [head, startOf]
    omega
  · rw [h.code]
    conv_lhs => rw [← List.take_append_drop p.index chunks, List.drop_eq_getElem?_toList_append, hc]
    simp
  · intro number hnumber hmem
    have hown {i : Nat} {i' : Instr} (hi : a.method.code[i]? = some i')
        (heq : i' = .label (a.method.freshLabel number)) : False := by
      rw [heq] at hi
      exact Method.freshLabel_ne hlabels (lt_of_mem_pointLabels hnumber hk)
        (Method.mem_labels_of_getElem? hi) rfl
    rcases List.mem_append.1 hmem with hmem | hmem
    · rcases List.mem_append.1 hmem with hmem | hmem
      · -- What is left of the chunk itself comes from the method, whose labels are others.
        cases hyield : p.isYield with
        | true =>
          rw [hyield] at hbody
          rw [show body = [] from hbody] at hmem
          cases hmem
        | false =>
          rw [hyield] at hbody
          exact hown (List.getElem?_eq_getElem hlt) (eq_of_label_writ hbody hmem)
      · -- The chunks behind it belong to other instructions, and so to other points.
        obtain ⟨c', hc', hmem⟩ := List.mem_flatten.1 hmem
        obtain ⟨i, hi, rfl⟩ := List.mem_drop_iff_getElem.1 hc'
        have hx' : a.method.code.zipIdx[p.index + 1 + i]? =
            some (a.method.code[p.index + 1 + i], p.index + 1 + i) := by
          rw [List.getElem?_zipIdx, List.getElem?_eq_getElem (by omega)]
          simp
        have hchunk := forall₂_getElem? h.chunk hx' (List.getElem?_eq_getElem (by omega))
        rcases label_of_mem_chunk hchunk hmem with heq | ⟨k', p', hp', hindex, number', hnumber', heq⟩
        · exact hown (List.getElem?_eq_getElem (by omega)) heq
        · have hk' := (List.getElem?_eq_some_iff.1 hp').1
          have hsame := Method.freshLabel_inj hlabels (lt_of_mem_pointLabels hnumber hk)
            (lt_of_mem_pointLabels hnumber' hk') heq
          obtain rfl := eq_of_mem_pointLabels hk hk' hnumber (hsame ▸ hnumber')
          rw [hp] at hp'
          cases hp'
          simp only at hindex
          omega
    · -- The tail has none but the labels with the lowest numbers.
      obtain ⟨number', hnumber', heq⟩ := number_of_mem_tail hmem
      have hlow := le_of_mem_pointLabels hnumber
      have hthree : number' ≤ 3 := by
        simp only [List.mem_cons, List.not_mem_nil, or_false] at hnumber'
        omega
      have := Method.freshLabel_inj hlabels (lt_of_mem_pointLabels hnumber hk) (by omega) heq
      omega

/-- The code of a point up to the label where the method goes on. -/
def saving (a : Analysed) (plan : MethodPlan) (k : Nat) (p : SuspensionPoint) : List Instr :=
  .label (a.method.freshLabel (4 + plan.points.length + k)) ::
    p.saveCode (UInt32.ofNat (k + 1)) ++ if p.isYield then [.frame .suspend] else []

/-- The code of a point from that label on. -/
def resuming (a : Analysed) (plan : MethodPlan) (k : Nat) (p : SuspensionPoint) : List Instr :=
  .label (a.method.freshLabel (4 + k)) :: (p.restoreCode ++
    [.label (a.method.freshLabel (4 + plan.points.length + plan.points.length + k))])

theorem stretch_eq (a : Analysed) (plan : MethodPlan) (k : Nat) (p : SuspensionPoint) :
    a.stretch plan k p = saving a plan k p ++ resuming a plan k p := by
  simp [stretch, SuspensionPoint.stretch, saving, resuming]

/-- Where the code of a point stands, and its labels with it. -/
theorem positions_of_point (h : a.Layout plan m chunks)
    (hsorted : plan.points.Pairwise (·.index < ·.index))
    (hlabels : a.method.HasLabels (4 + 3 * plan.points.length)) (hp : plan.points[k]? = some p)
    (hlt : p.index < a.method.code.length) :
    a.stretch plan k p <+: m.code.drop (startOf chunks p.index) ∧
      labelPosition? m.code (a.method.freshLabel (4 + plan.points.length + k)) =
        some (startOf chunks p.index) ∧
      labelPosition? m.code (a.method.freshLabel (4 + k)) =
        some (startOf chunks p.index + (saving a plan k p).length) ∧
      labelPosition? m.code
          (a.method.freshLabel (4 + plan.points.length + plan.points.length + k)) =
        some (startOf chunks p.index + (saving a plan k p).length + 1 + p.restoreCode.length) := by
  obtain ⟨before, after, hstart, hcode, hafter⟩ := h.exists_stretch hsorted hlabels hp hlt
  rw [← hstart]
  have hk := (List.getElem?_eq_some_iff.1 hp).1
  have hdistinct {i j : Nat} (hi : i < 4 + 3 * plan.points.length)
      (hj : j < 4 + 3 * plan.points.length) (hij : i ≠ j) :
      a.method.freshLabel i ≠ a.method.freshLabel j := fun heq =>
    hij (Method.freshLabel_inj hlabels hi hj heq)
  have hbefore := hafter (4 + plan.points.length + k) (by simp [pointLabels])
  have hresume := hafter (4 + k) (by simp [pointLabels])
  have hbehind := hafter (4 + plan.points.length + plan.points.length + k) (by simp [pointLabels])
  have hbr := hdistinct (i := 4 + plan.points.length + k) (j := 4 + k) (by omega) (by omega)
    (by omega)
  have hba := hdistinct (i := 4 + plan.points.length + k)
    (j := 4 + plan.points.length + plan.points.length + k) (by omega) (by omega) (by omega)
  have hra := hdistinct (i := 4 + k) (j := 4 + plan.points.length + plan.points.length + k)
    (by omega) (by omega) (by omega)
  rw [stretch_eq, resuming] at hcode ⊢
  refine ⟨?_, ?_, ?_, ?_⟩
  · rw [hcode]
    simp
  · rw [hcode]
    unfold saving
    rw [List.append_assoc, List.append_assoc, List.cons_append, List.cons_append]
    apply labelPosition?_append_cons
    cases hyield : p.isYield <;>
      simp [not_label_of_saveCode, not_label_of_restoreCode, hbr, hba, hbefore]
  · rw [hcode, List.append_assoc, List.append_assoc, ← List.append_assoc before, List.cons_append,
      labelPosition?_append_cons, List.length_append]
    simp [not_label_of_restoreCode, hra, hresume]
  · have hsplit : before ++ (saving a plan k p ++ Instr.label (a.method.freshLabel (4 + k)) ::
        (p.restoreCode ++ [.label (a.method.freshLabel
          (4 + plan.points.length + plan.points.length + k))])) ++ after =
        (before ++ saving a plan k p ++ Instr.label (a.method.freshLabel (4 + k)) ::
          p.restoreCode) ++ .label (a.method.freshLabel
            (4 + plan.points.length + plan.points.length + k)) :: after := by
      simp
    rw [hcode, hsplit, labelPosition?_append_cons hbehind]
    simp
    omega

theorem exists_position (h : a.Layout plan m chunks)
    (hsorted : plan.points.Pairwise (·.index < ·.index))
    (hlabels : a.method.HasLabels (4 + 3 * plan.points.length)) (hp : plan.points[k]? = some p)
    (hlt : p.index < a.method.code.length) :
    ∃ start, a.stretch plan k p <+: m.code.drop start ∧
      labelPosition? m.code (a.method.freshLabel (4 + plan.points.length + k)) = some start ∧
      labelPosition? m.code (a.method.freshLabel (4 + k)) =
        some (start + (saving a plan k p).length) ∧
      labelPosition? m.code
          (a.method.freshLabel (4 + plan.points.length + plan.points.length + k)) =
        some (start + (saving a plan k p).length + 1 + p.restoreCode.length) :=
  ⟨startOf chunks p.index, h.positions_of_point hsorted hlabels hp hlt⟩

end Layout

end Analysed

/-! ## Transformed methods -/

/-- The method `m` of a class has been analysed, planned and written as `m'`. -/
structure Transforms (owner : String) (m : Method) (a : Analysed) (plan : MethodPlan)
    (m' : Method) : Prop where
  analysed : Gives (Analysed.of owner m) a
  planned : ∃ db db', a.plan.run db = ((plan, .ok ()), db')
  written : Gives (a.body plan) m'

/-- The three stages, one after the other on the same database. -/
theorem Transforms.of_database {owner : String} {m m' : Method} {a : Analysed} {plan : MethodPlan}
    (db : Database) (hanalysed : ((Analysed.of owner m).run.run db).1 = .ok a)
    (hplan : (a.plan.run db).1 = (plan, .ok ()))
    (hwritten : ((a.body plan).run.run db).1 = .ok m') : Transforms owner m a plan m' where
  analysed := ⟨_, _, Prod.ext hanalysed rfl⟩
  planned := ⟨_, _, Prod.ext hplan rfl⟩
  written := ⟨_, _, Prod.ext hwritten rfl⟩

/-- Every method that comes out of the transformation has gone through its three stages. -/
theorem exists_transforms {owner : String} {m m' : Method} (h : Gives (instrumentMethod owner m) m') :
    ∃ a plan, Transforms owner m a plan m' := by
  unfold instrumentMethod at h
  obtain ⟨a, ha, h⟩ := h.bind
  obtain ⟨db, h⟩ := h.lift
  rcases hplan : a.plan.run db with ⟨⟨plan, outcome⟩, db'⟩
  rw [hplan] at h
  cases outcome with
  | error e => exact (Gives.not_throw h).elim
  | ok _ => exact ⟨a, plan, ha, ⟨db, db', hplan⟩, h⟩

namespace Transforms

variable {owner : String} {m m' : Method} {a : Analysed} {plan : MethodPlan} {k : Nat}
  {p : SuspensionPoint} {f : Frame}

theorem analyzed (h : Transforms owner m a plan m') :
    a.owner = owner ∧ a.method = m ∧ Flow.Analyzed owner m a.frames := by
  obtain ⟨frames, hframes, ha⟩ := h.analysed.bind
  rw [ha.pure]
  exact ⟨rfl, rfl, Flow.analyzed_of_analyze hframes⟩

theorem sorted (h : Transforms owner m a plan m') : plan.points.Pairwise (·.index < ·.index) := by
  obtain ⟨db, db', hplan⟩ := h.planned
  exact (Analysed.plan_points hplan).2.1

theorem point (h : Transforms owner m a plan m') (hp : p ∈ plan.points) :
    a.Planned p ∧ p.index < a.method.code.length := by
  obtain ⟨db, db', hplan⟩ := h.planned
  exact ((Analysed.plan_points hplan).1 p hp).1

/-- A method with points has been transformed. -/
theorem exists_transformed (h : Transforms owner m a plan m') (hpoints : plan.points ≠ []) :
    ∃ first rest, plan.points = first :: rest ∧ Writes (a.transformed plan first) m' := by
  rcases hlist : plan.points with _ | ⟨first, rest⟩
  · exact absurd hlist hpoints
  · have hwritten := h.written
    unfold Analysed.body at hwritten
    rw [hlist] at hwritten
    obtain ⟨db, hwritten⟩ := hwritten.lift
    rcases hrun : ((a.transformed plan first).run.run {}).run db with ⟨⟨outcome, account⟩, db'⟩
    rw [hrun] at hwritten
    cases outcome with
    | error e => exact (Gives.not_throw hwritten).elim
    | ok written =>
      rw [hwritten.pure]
      exact ⟨first, rest, rfl, _, _, _, _, hrun⟩

/-- A method with points is laid out in chunks. -/
theorem layout (h : Transforms owner m a plan m') (hpoints : plan.points ≠ []) :
    ∃ chunks, a.Layout plan m' chunks := by
  obtain ⟨first, rest, hlist, hwrites⟩ := h.exists_transformed hpoints
  exact Analysed.transformed_spec hlist h.sorted (fun p hp => (h.point hp).2) hwrites

/-! ### A method that has the last label number -/

/-- Pauses unless its argument is 0, and throws null if it is. The label at its end has the last
number there is, so the numbers of the labels that are added start again at 0. -/
def colliding : Method :=
  { name := "main", desc := "(I)V", access := .static, throws := [Names.suspendExecution]
    maxLocals := 1
    code := [.label ⟨7⟩, .local .iload 0, .jump .ifeq ⟨8⟩,
      .invoke .invokestatic ⟨Names.coroutine, Names.yieldName, Names.yieldDesc⟩, .simple .ret,
      .label ⟨8⟩, .simple .aconstNull, .simple .athrow, .label ⟨0⟩, .jump .goto ⟨7⟩, .label ⟨4⟩,
      .simple .ret, .label ⟨4294967295⟩, .simple .ret] }

/-- What the analysis finds in it. Nothing leads to what stands behind the throw. -/
def collidingAnalysed : Analysed :=
  ⟨"app/A", colliding, #[some ⟨[.int], []⟩, some ⟨[.int], []⟩, some ⟨[.int], [.int]⟩,
    some ⟨[.int], []⟩, some ⟨[.int], []⟩, some ⟨[.int], []⟩, some ⟨[.int], []⟩,
    some ⟨[.int], [.null]⟩, none, none, none, none, none, none]⟩

/-- Its point. -/
def collidingPoint : SuspensionPoint :=
  { index := 3, isYield := true, stack := [], locals := [(0, .saved .int 0)], slots := 1 }

/-- What becomes of it. The label 0, where the code of the method should begin, and the label 4,
where it should go on, are its own. -/
def collidingBody : Method :=
  { colliding with
    code := [.frame .entry, .switch 1 ⟨0⟩ [⟨4⟩], .label ⟨0⟩, .label ⟨7⟩, .local .iload 0,
      .jump .ifeq ⟨8⟩, .label ⟨5⟩, .frame (.reserve 1 1), .local .iload 0, .frame (.save .int 0),
      .frame .suspend, .label ⟨4⟩, .frame (.restore .int 0), .local .istore 0, .label ⟨6⟩,
      .frame .release, .simple .ret, .label ⟨8⟩, .simple .aconstNull, .simple .athrow,
      .label ⟨0⟩, .jump .goto ⟨7⟩, .label ⟨4⟩, .frame .release, .simple .ret,
      .label ⟨4294967295⟩, .frame .release, .simple .ret, .label ⟨1⟩, .label ⟨3⟩,
      .frame .release, .label ⟨2⟩, .simple .athrow]
    handlers := [⟨⟨0⟩, ⟨1⟩, ⟨2⟩, some Names.suspendExecution⟩, ⟨⟨0⟩, ⟨1⟩, ⟨3⟩, none⟩] }

theorem transforms_colliding :
    Transforms "app/A" colliding collidingAnalysed ⟨[collidingPoint], []⟩ collidingBody :=
  .of_database (.new {} .empty) (by cbv) rfl (by decide +kernel)

end Transforms

end Resumable
