import Resumable.Proofs.Instrument.Balance
import Resumable.Proofs.Instrument.Discipline
import Resumable.Proofs.Instrument.Revisions

/-!
# Methods that are careful

A method is careful (`Revision.Careful`) if it builds nothing across a suspension point, reads no
local of which nothing is known, and keeps its receiver. No allocation of such a method is put off, so
its re-entrant form has the same number of locals (`Careful.maxLocals_eq`), and it has every
instruction of the method in its place, behind the stretch of its point if there is one and behind the
release of the frame if it returns (`Careful.chunk_at`). An exception is caught where the method
caught it, or where the frame is released (`Careful.handlerFor?_after`).
-/

namespace Resumable

open List (Forall₂)

/-! ## Writing without leaving out -/

namespace Analysed

variable {a : Analysed} {plan : MethodPlan}

/-- No locals are put on the account. -/
def Frugal {α : Type} (x : Writing α) : Prop :=
  ∀ account r account', Accounts x account r account' →
    account'.extraLocals = account.extraLocals

namespace Frugal

variable {α β : Type}

theorem bind {x : Writing α} {k : α → Writing β} (hx : Frugal x) (hk : ∀ r, Frugal (k r)) :
    Frugal (x >>= k) := by
  intro account r account' h
  obtain ⟨_, account₁, hfirst, hrest⟩ := h.bind
  rw [hk _ _ _ _ hrest, hx _ _ _ hfirst]

theorem of_still {x : Writing α} (h : Still x) : Frugal x :=
  fun account r account' hx => by rw [h account r account' hx]

theorem pure (r : α) : Frugal (Pure.pure r : Writing α) := .of_still (.pure r)

theorem throw (e : InstrumentError) : Frugal (throw e : Writing α) :=
  fun _ _ _ h => (Accounts.not_throw h).elim

end Frugal

theorem frugal_database : Frugal (getThe Database : Writing Database) := by
  rintro account r account' ⟨db, db', h⟩
  cases h
  rfl

theorem frugal_account : Frugal (getThe Account : Writing Account) :=
  fun _ _ _ h => by rw [h.get.2]

/-- If nothing is left out, no allocation has to be made up for. -/
theorem frugal_deferredAllocation (index : Nat) (desc : String) :
    Frugal (a.deferredAllocation [] index desc) := by
  intro account front account' h
  rcases deferredAllocation_cases h with ⟨-, rfl, -⟩ | ⟨f, type, copy, name, alloc, insn, rest, -, -,
    hdrop, hrebuilds, -⟩
  · rfl
  · rw [hdrop] at hrebuilds
    unfold rebuilds at hrebuilds
    split at hrebuilds <;> cases hrebuilds

theorem frugal_leadIn (index : Nat) (i : Instr) : Frugal (a.leadIn [] index i) := by
  unfold leadIn
  split
  · split
    · exact .pure _
    · split
      · refine frugal_database.bind fun db => ?_
        have hwarned : Frugal (modify fun account : Account =>
            { account with warnedMonitors := true } : Writing Unit) :=
          fun account u account' h => by rw [h.modify]
        have hrest : Frugal (do
            if !(← getThe Account).warnedMonitors then
              modify fun account => { account with warnedMonitors := true }
              notice .warning (.monitors a.owner a.method.name a.method.desc)
            return [] : Writing (List Instr)) := by
          refine frugal_account.bind fun account => ?_
          split
          · exact hwarned.bind fun _ => Frugal.bind (fun _ _ _ h => by rw [h.notice]) fun _ => .pure _
          · exact .pure _
        split
        · exact (Frugal.throw (α := Unit) _).bind fun _ => hrest
        · exact hrest
      · exact .pure _
  · split
    · exact frugal_deferredAllocation index _
    · exact .pure _
  · exact .pure _

theorem frugal_segment (xs : List (Instr × Nat)) : Frugal (a.segment [] xs) := by
  induction xs with
  | nil =>
    rw [segment]
    exact .pure _
  | cons x xs ih =>
    obtain ⟨i, index⟩ := x
    rw [segment]
    split
    · exact ih
    · exact (frugal_leadIn index i).bind fun _ => ih.bind fun _ => .pure _

theorem frugal_pointsCode (entry : Nat) (points : List SuspensionPoint)
    (resumes befores afters : List Label) :
    Frugal (a.pointsCode [] entry points resumes befores afters) := by
  induction points generalizing entry resumes befores afters with
  | nil =>
    rw [pointsCode]
    · exact .pure _
    · simp
  | cons p points ih =>
    rcases resumes with _ | ⟨resume, resumes⟩
    · exact .pure _
    rcases befores with _ | ⟨before, befores⟩
    · exact .pure _
    rcases afters with _ | ⟨after, afters⟩
    · exact .pure _
    unfold pointsCode
    exact (frugal_segment _).bind fun _ => Frugal.bind (ih _ _ _ _) fun _ => .pure _

/-- A method of which nothing is left out has as many locals as before. -/
theorem maxLocals_of_transformed {first : SuspensionPoint} {m : Method} {account' : Account}
    (homitted : plan.omitted = []) (h : Accounts (a.transformed plan first) {} m account') :
    m.maxLocals = a.method.maxLocals := by
  unfold transformed at h
  rw [homitted] at h
  obtain ⟨_, account, hnotice, h⟩ := h.bind
  obtain rfl := hnotice.notice
  dsimp only at h
  split at h
  · obtain ⟨_, _, hthrow, -⟩ := h.bind
    exact (Accounts.not_throw hthrow).elim
  obtain ⟨front, account₁, hfront, h⟩ := h.bind
  obtain ⟨points, account₂, hpoints, h⟩ := h.bind
  obtain ⟨cut, account₃, hcut, h⟩ := h.bind
  obtain ⟨account₄, account₅, hget, hlast⟩ := h.bind
  obtain ⟨rfl, -⟩ := hget.get
  have hnone : account₄.extraLocals = 0 := by
    rw [still_cutHandlers _ _ _ hcut, frugal_pointsCode _ _ _ _ _ _ _ _ hpoints,
      frugal_segment _ _ _ _ hfront]
  split at hlast
  · obtain ⟨_, _, hthrow, -⟩ := hlast.bind
    exact (Accounts.not_throw hthrow).elim
  obtain ⟨rfl, -⟩ := hlast.pure
  show UInt16.ofNat (a.method.maxLocals.toNat + account₄.extraLocals) = _
  rw [hnone, Nat.add_zero, UInt16.ofNat_toNat]

end Analysed

/-- A method with points is written on an empty account. -/
theorem Transforms.exists_accounts {owner : String} {m m' : Method} {a : Analysed} {plan : MethodPlan}
    (h : Transforms owner m a plan m') (hpoints : plan.points ≠ []) :
    ∃ first account', Accounts (a.transformed plan first) {} m' account' := by
  rcases hlist : plan.points with _ | ⟨first, rest⟩
  · exact absurd hlist hpoints
  · have hwritten := h.written
    unfold Analysed.body at hwritten
    rw [hlist] at hwritten
    obtain ⟨db, hwritten⟩ := hwritten.lift
    rcases hrun : ((a.transformed plan first).run.run {}).run db with ⟨⟨outcome, account⟩, db'⟩
    rw [hrun] at hwritten
    cases outcome with
    | error e => exact (Gives.not_throw hwritten).elim
    | ok written =>
      rw [hwritten.pure]
      exact ⟨first, account, db, db', hrun⟩

/-! ## Careful methods -/

/-- What an instruction has in front of it if no allocation is put off to it. -/
def Instr.departure : Instr → List Instr
  | .simple op => if op.isReturn then [.frame .release] else []
  | _ => []

/-- The handler that the machine finds is where its label is. -/
theorem LoadedMethod.Catches.position {owner : String} {m : Method} {classes : ClassTable}
    {heap : Heap} {pc : Nat} {v : Value} {l : Label}
    (h : (LoadedMethod.load owner m).Catches classes heap pc v l) :
    ∃ r, classes.handlerFor? heap (.load owner m) pc v = some r ∧
      labelPosition? m.code l = some r.target := by
  obtain ⟨r, hfind, hlabel⟩ := h
  refine ⟨r, hfind, ?_⟩
  obtain ⟨handler, -, hload⟩ := List.mem_filterMap.1 (List.mem_of_find?_eq_some hfind)
  obtain ⟨-, -, htarget, -⟩ := Handler.load?_eq_some_iff.1 hload
  have hsame := (getElem?_of_labelPosition? htarget).symm.trans hlabel
  cases hsame
  exact htarget

namespace Revision

open Analysed.Layout (startOf placeOf stop)

variable {w : Revision} {i : Nat} {x : Instr}

/-- The method reads no local of which nothing is known, and keeps its receiver. -/
structure Disciplined (w : Revision) : Prop where
  reads : ∀ i x f slot, w.source.code[i]? = some x → w.analysed.frame? i = some f → x.Reads slot →
    f.locals[slot]? ≠ some .unknown
  receiver : w.source.isStatic = false → ∀ x ∈ w.source.code, ¬ x.Assigns 0

/-- Besides, it builds no object across one of its points, whether these are reached or not. -/
structure Careful (w : Revision) : Prop extends w.Disciplined where
  built : ∀ p ∈ w.plan.points, ∀ f, w.analysed.frame? p.index = some f →
    ∀ t ∈ f.stack, t.isFresh = false

theorem exists_chunks (w : Revision) : ∃ chunks, w.analysed.Arranged w.plan w.target chunks :=
  w.transforms.arranged w.points w.labels

noncomputable def chunks (w : Revision) : List (List Instr) := w.exists_chunks.choose

theorem arranged (w : Revision) : w.analysed.Arranged w.plan w.target w.chunks :=
  w.exists_chunks.choose_spec

/-- Where the re-entrant form begins with what it has for an instruction. -/
noncomputable def start (w : Revision) (i : Nat) : Nat := startOf w.chunks i

/-- Where the re-entrant form has the instruction itself. -/
noncomputable def place (w : Revision) (i : Nat) : Nat := placeOf w.chunks i

theorem start_succ (w : Revision) (i : Nat) : w.start (i + 1) = w.place i + 1 :=
  Analysed.Layout.startOf_succ w.chunks i

/-- What follows the code of the method, where the frame is released. -/
noncomputable def ending (w : Revision) : Nat := stop w.chunks

/-- No call of the suspend call itself stands there. -/
def GoesOn (w : Revision) (i : Nat) : Prop := ∀ p ∈ w.plan.points, p.index = i → p.isYield = false

namespace Careful

variable (h : w.Careful)
include h

theorem omitted_eq : w.plan.omitted = [] := by
  obtain ⟨db, db', hplan⟩ := w.transforms.planned
  obtain ⟨-, -, homitted⟩ := Analysed.plan_points hplan
  rw [homitted, List.flatMap_eq_nil_iff]
  intro p hp
  unfold Analysed.omittedAt
  rcases hf : w.analysed.frame? p.index with _ | f
  · rfl
  · refine List.eq_nil_iff_forall_not_mem.2 fun i hi => ?_
    obtain ⟨type, alloc, dupped, hfresh⟩ := Analysed.exists_fresh_of_omittedInstrs hi
    cases h.built p hp f hf _ (List.mem_reverse.1 hfresh)

theorem maxLocals_eq : w.target.maxLocals = w.source.maxLocals := by
  obtain ⟨first, account, haccounts⟩ := w.transforms.exists_accounts w.points
  exact Analysed.maxLocals_of_transformed h.omitted_eq haccounts

/-- Both forms are entered alike. -/
theorem enter_after (args : List Value) : Activation.enter w.after args =
    (Activation.enter w.before args).map fun a => { a with method := w.after } := by
  obtain ⟨hname, hdesc, -⟩ := w.transforms.same_head w.points
  unfold Activation.enter
  rw [show w.after.method.maxLocals = w.before.method.maxLocals from h.maxLocals_eq]
  have href : w.after.ref = w.before.ref := by
    unfold LoadedMethod.ref
    rw [show w.after.method.name = w.before.method.name from hname,
      show w.after.method.desc = w.before.method.desc from hdesc]
    rfl
  dsimp only
  split
  · rw [href]
    rfl
  · rfl

theorem keeps (hi : i < w.source.code.length) (hgoes : w.GoesOn i) : w.analysed.Keeps w.plan i :=
  ⟨hi, by rw [h.omitted_eq]; exact List.not_mem_nil, hgoes⟩

theorem lead_eq {front : List Instr} (hfront : Writes (w.analysed.leadIn w.plan.omitted i x) front) :
    front = x.departure := by
  cases x with
  | simple op => exact Analysed.leadIn_simple hfront
  | invoke op callee =>
    rcases Analysed.leadIn_invoke hfront with ⟨-, halloc⟩ | ⟨-, rfl⟩
    · rcases Analysed.deferredAllocation_spec halloc with ⟨rfl, -⟩ | ⟨f, type, -, -, hrebuilds, -⟩
      · rfl
      · rw [h.omitted_eq] at hrebuilds
        unfold Analysed.rebuilds at hrebuilds
        split at hrebuilds <;> cases hrebuilds
    · rfl
  | _ =>
    rcases Analysed.leadIn_cases hfront with ⟨op, hop, -⟩ | ⟨rfl, -⟩ | ⟨callee, _, _, _, hcallee, -⟩
    · cases hop
    · rfl
    · cases hcallee

/-- In its place, an instruction has in front of it what leads to it, and the stretch of its point if
it is one. -/
theorem chunk_at (hi : w.source.code[i]? = some x) (hgoes : w.GoesOn i) :
    ∃ before, before ++ x.departure ++ [x] <+: w.target.code.drop (w.start i) ∧
      w.start i + before.length + x.departure.length = w.place i ∧
      ((∀ p ∈ w.plan.points, p.index ≠ i) ∧ before = [] ∨ ∃ k p, w.plan.points[k]? = some p ∧
        p.index = i ∧ p.isYield = false ∧ before = w.analysed.stretch w.plan k p) := by
  obtain ⟨c, hc, hchunk, hat⟩ := w.arranged.layout.exists_chunk hi
  obtain ⟨before, lead, rfl, hlead, hbefore⟩ := Analysed.Layout.chunk_of_keeps
    (h.keeps (List.getElem?_eq_some_iff.1 hi).1 hgoes) hchunk
  obtain rfl := h.lead_eq hlead
  refine ⟨before, hat, ?_, hbefore⟩
  have hlast := Analysed.Layout.startOf_add hc
  simp only [List.length_append, List.length_singleton] at hlast
  unfold start place
  omega

theorem getElem?_place (hi : w.source.code[i]? = some x) (hgoes : w.GoesOn i) :
    w.target.code[w.place i]? = some x := by
  obtain ⟨before, ⟨rest, hat⟩, hlen, -⟩ := h.chunk_at hi hgoes
  rw [← hlen, Nat.add_assoc, ← List.getElem?_drop, ← hat, ← List.length_append, List.append_assoc,
    List.getElem?_append_right (Nat.le_refl _), Nat.sub_self]
  rfl

/-- **An exception is caught where the method caught it**, or else where the frame is released. -/
theorem handlerFor?_after (hi : i < w.source.code.length) (hgoes : w.GoesOn i)
    {classes : ClassTable} {heap : Heap} {v : Value}
    (hsignal : classes.isInstance heap v Names.suspendExecution = false) :
    (∃ r r', classes.handlerFor? heap w.before i v = some r ∧
      classes.handlerFor? heap w.after (w.place i) v = some r' ∧ r'.target = w.start r.target) ∨
    classes.handlerFor? heap w.before i v = none ∧ ∃ r',
      classes.handlerFor? heap w.after (w.place i) v = some r' ∧ r'.target = w.ending + 1 := by
  obtain ⟨pieces, hhandlers, hpieces⟩ := w.transforms.exists_pieces w.points w.labels
  obtain ⟨r', hr', htarget'⟩ :=
    (w.arranged.catches hhandlers hpieces hsignal (h.keeps hi hgoes)).position
  unfold before
  rw [Handler.handlerFor?_eq]
  rcases hfind : w.source.handlers.find? (Handler.takes classes heap w.source.code i v) with _ | old
  · rw [hfind] at htarget'
    have hcatchAll := w.arranged.layout.position_catchAll w.labels
    refine .inr ⟨rfl, r', hr', ?_⟩
    exact Option.some.inj (htarget'.symm.trans hcatchAll)
  · rw [hfind] at htarget'
    have htakes : Handler.takes classes heap w.source.code i v old = true := List.find?_some hfind
    obtain ⟨r, hr, -⟩ := (Option.any_eq_true _ _).1 htakes
    obtain ⟨-, -, htarget, -⟩ := Handler.load?_eq_some_iff.1 hr
    refine .inl ⟨r, r', hr, hr', ?_⟩
    have hlabel : old.target ∈ w.source.labels :=
      Method.mem_labels_of_handler (List.mem_of_find?_eq_some hfind) (by simp)
    have hmoved : labelPosition? w.target.code old.target = some r'.target := htarget'
    rw [w.arranged.position_label hlabel, htarget, Option.map_some, Option.some.injEq] at hmoved
    rw [← hmoved]
    exact (Transforms.startOf_of_label w.arranged (getElem?_of_labelPosition? htarget)).symm

end Careful

end Revision

end Resumable
