import Resumable.Proofs.Flow.Fixpoint

/-!
# What an analysis can come to

`Gives` speaks of an analysis that succeeds. Here it may fail as well: `Meets` says of a computation
with which result it may succeed and with which error it may fail, and what the database is like
before and after.

The rules for the parts of the analysis leave one question to whoever uses them: what becomes of the
invariant when control comes from one instruction to one place (`Brings`). `visit_meets` is the rule
for one look at an instruction, `settle_meets` the one for the loop and `analyze_meets` the one for
the whole.
-/

namespace Resumable

variable {ε α β : Type}

/-! ## Success and failure -/

/-- From a database with `P` the computation comes to a result and a database with `Q`, or it fails
with an error that has `E`. -/
def Meets (P : Database → Prop) (x : ExceptT ε Inquiry α) (Q : α → Database → Prop)
    (E : ε → Prop) : Prop :=
  ∀ db, P db → match x.run.run db with
    | (.ok a, db') => Q a db'
    | (.error e, _) => E e

namespace Meets

variable {P P' : Database → Prop} {Q Q' : α → Database → Prop} {R : β → Database → Prop}
  {E : ε → Prop}

theorem pure {a : α} (h : ∀ db, P db → Q a db) :
    Meets P (Pure.pure a : ExceptT ε Inquiry α) Q E := h

/-- What is known apart from the database. -/
theorem assume {p : Prop} {x : ExceptT ε Inquiry α} (h : p → Meets P x Q E) :
    Meets (fun db => P db ∧ p) x Q E :=
  fun db hdb => h hdb.2 db hdb.1

theorem throw {e : ε} (h : E e) : Meets P (throw e : ExceptT ε Inquiry α) Q E :=
  fun _ _ => h

/-- The second part goes on from what the first part has come to. -/
theorem bind {x : ExceptT ε Inquiry α} {k : α → ExceptT ε Inquiry β} (hx : Meets P x Q E)
    (hk : ∀ a, Meets (Q a) (k a) R E) : Meets P (x >>= k) R E := by
  intro db hdb
  have hfirst := hx db hdb
  rw [ExceptT.run_bind, StateT.run_bind]
  rcases hrun : x.run.run db with ⟨e | a, db'⟩
  · rw [hrun] at hfirst
    exact hfirst
  · rw [hrun] at hfirst
    exact hk a db' hfirst

theorem mono {x : ExceptT ε Inquiry α} (h : Meets P x Q E) (hP : ∀ db, P' db → P db)
    (hQ : ∀ a db, Q a db → Q' a db) : Meets P' x Q' E := by
  intro db hdb
  have := h db (hP db hdb)
  split
  · rename_i hrun
    rw [hrun] at this
    exact hQ _ _ this
  · rename_i hrun
    rw [hrun] at this
    exact this

/-- What holds of the result whatever the database was. -/
theorem of_gives {x : ExceptT ε Inquiry α} (h : Meets (fun _ => True) x Q E) {a : α}
    (ha : Gives x a) : ∃ db, Q a db := by
  obtain ⟨db, db', hrun⟩ := ha
  have := h db trivial
  rw [hrun] at this
  exact ⟨db', this⟩

/-- One after the other, every item comes to a result that fits it. -/
theorem mapM {f : α → ExceptT ε Inquiry β} {S : α → β → Prop} {as : List α}
    (h : ∀ a ∈ as, Meets P (f a) (fun b db => P db ∧ S a b) E) :
    Meets P (as.mapM f) (fun bs db => P db ∧ List.Forall₂ S as bs) E := by
  induction as with
  | nil =>
    rw [List.mapM_nil]
    exact pure fun db hdb => ⟨hdb, .nil⟩
  | cons a as ih =>
    rw [List.mapM_cons]
    refine (h a List.mem_cons_self).bind fun b => assume fun hab => ?_
    refine (ih fun a' ha' => h a' (List.mem_cons_of_mem _ ha')).bind fun bs => ?_
    exact pure fun db ⟨hdb, hrest⟩ => ⟨hdb, .cons hab hrest⟩

end Meets

/-! ## The parts of the analysis -/

namespace Flow

variable {owner : String} {m : Method} {ranges : List HandlerRange} {index : Nat} {i : Instr}
  {before after : Frame} {P : Database → Prop} {E : InstrumentError → Prop}

theorem attempt_meets {x : Except FlowError α} {Q : α → Database → Prop}
    (hok : ∀ a, x = .ok a → ∀ db, P db → Q a db)
    (herror : ∀ cause, x = .error cause → E (failure owner m index cause)) :
    Meets P (attempt owner m index x) Q E := by
  cases x with
  | error cause => exact Meets.throw (herror cause rfl)
  | ok a => exact Meets.pure (hok a rfl)

theorem position_meets {l : Label}
    (h : labelPosition? m.code l = none → E (failure owner m index (.undefinedLabel l))) :
    Meets P (position owner m index l) (fun q db => P db ∧ labelPosition? m.code l = some q) E := by
  refine attempt_meets (fun q hq db hdb => ⟨hdb, ?_⟩) fun cause hcause => ?_
  · split at hq
    · cases hq
      assumption
    · cases hq
  · split at hcause
    · cases hcause
    · cases hcause
      exact h ‹_›

/-- The frame takes its place, and the instruction there is looked at. -/
def State.put (s : State) (target : Nat) (f : Frame) : State :=
  { frames := s.frames.setIfInBounds target (some f)
    pending := if s.pending.contains target then s.pending else target :: s.pending }

namespace State

theorem mem_pending_put (s : State) (target : Nat) (f : Frame) : target ∈ (s.put target f).pending := by
  unfold put
  dsimp only
  split
  · rename_i hmem
    simpa using hmem
  · exact List.mem_cons_self

theorem mem_pending_put_of_mem {s : State} {j : Nat} (h : j ∈ s.pending) (target : Nat) (f : Frame) :
    j ∈ (s.put target f).pending := by
  unfold put
  dsimp only
  split
  · exact h
  · exact List.mem_cons_of_mem _ h

theorem frames_put_ne (s : State) {target j : Nat} (f : Frame) (h : target ≠ j) :
    (s.put target f).frames[j]? = s.frames[j]? :=
  Array.getElem?_setIfInBounds_ne h

theorem frames_put_self {s : State} {target : Nat} (h : target < s.frames.size) (f : Frame) :
    (s.put target f).frames[target]?.join = some f := by
  unfold put
  rw [Array.getElem?_setIfInBounds_self_of_lt h]
  rfl

end State

theorem lt_size_of_join {frames : Array (Option Frame)} {j : Nat} {f : Frame}
    (h : frames[j]?.join = some f) : j < frames.size := by
  by_contra hge
  rw [Array.getElem?_eq_none (Nat.not_lt.1 hge)] at h
  cases h

/-- Control comes to a place for the first time, or is joined with what came there before; only if
that changes the frame, the instruction there is looked at again. -/
theorem flowInto_run (s : State) (source target : Nat) (f : Frame) (db : Database) :
    (flowInto owner m source target f s).run.run db = match s.frames[target]?.join with
      | none => (.ok (s.put target f), db)
      | some old => match (old.merge f).run db with
        | ((.ok changed, g), db') => (.ok (if changed then s.put target g else s), db')
        | ((.error cause, _), db') => (.error (failure owner m source cause), db') := by
  have hput (g : Frame) : (if s.pending.contains target then
      ({ s with frames := s.frames.setIfInBounds target (some g) } : State)
      else { frames := s.frames.setIfInBounds target (some g)
             pending := target :: s.pending }) = s.put target g := by
    unfold State.put
    split <;> rfl
  unfold flowInto
  rcases hold : s.frames[target]?.join with _ | old
  · dsimp only
    rw [hput]
    rfl
  · dsimp only
    rcases hrun : (old.merge f).run db with ⟨⟨answer, g⟩, db'⟩
    have hlift : (liftM (old.merge f) : Attempt (Except FlowError Bool × Frame)).run.run db =
        (.ok (answer, g), db') := by
      show (Except.ok ((old.merge f).run db).1, ((old.merge f).run db).2) = _
      rw [hrun]
    rw [ExceptT.run_bind, StateT.run_bind, hlift]
    rcases answer with cause | changed
    · rfl
    · show (Except.ok (if changed then _ else s), db') = _
      rw [hput]

/-- So whatever this leads to has to hold of a frame that is new and of one that is joined. -/
theorem flowInto_meets {s : State} {source target : Nat} {f : Frame}
    {Q : State → Database → Prop}
    (hfirst : s.frames[target]?.join = none → ∀ db, P db → Q (s.put target f) db)
    (hjoin : ∀ old, s.frames[target]?.join = some old → Meets P (old.merged f)
      (fun g db => (g = old → Q s db) ∧ (g ≠ old → Q (s.put target g) db))
      (fun cause => E (failure owner m source cause))) :
    Meets P (flowInto owner m source target f s) Q E := by
  intro db hdb
  rw [flowInto_run]
  rcases hold : s.frames[target]?.join with _ | old
  · exact hfirst hold db hdb
  · have hmerge := hjoin old hold db hdb
    rw [Frame.merged_run] at hmerge
    dsimp only
    rcases hrun : (old.merge f).run db with ⟨⟨cause | changed, g⟩, db'⟩
    all_goals rw [hrun] at hmerge
    · exact hmerge
    · have hchanged := Frame.merge_changed_iff hrun
      dsimp only
      split
      · exact hmerge.2 (hchanged.1 ‹_›)
      · exact hmerge.1 (not_not.1 (mt hchanged.2 ‹_›))

/-- Control may come to a place from the instruction at `index`, with a frame. -/
inductive Brings (m : Method) (ranges : List HandlerRange) (index : Nat) (i : Instr)
    (before after : Frame) : Nat → Frame → Prop where
  | jump {l : Label} {target : Nat} (hl : l ∈ i.branchTargets)
    (htarget : labelPosition? m.code l = some target) :
    Brings m ranges index i before after target after
  | fall (hfalls : i.fallsThrough = true) (hlt : index + 1 < m.code.length) :
    Brings m ranges index i before after (index + 1) after
  | caught {r : HandlerRange} {locals : List FlowValue} (hr : r ∈ ranges)
    (hcovers : r.covers index = true) (hlocals : locals = before.locals ∨ locals = after.locals) :
    Brings m ranges index i before after r.target ⟨locals, [.reference r.type]⟩

/-- Control only comes to places in the code. -/
theorem Brings.lt {target : Nat} {f : Frame} (h : Brings m ranges index i before after target f)
    (hranges : Placed m ranges) : target < m.code.length := by
  cases h with
  | jump _ htarget => exact lt_of_labelPosition? htarget
  | fall _ hlt => exact hlt
  | caught hr =>
    obtain ⟨h, -, -, -, htarget⟩ := exists_left_of_mem hranges hr
    exact lt_of_labelPosition? htarget

/-- A frame comes from its instruction or is that of a handler. -/
theorem Brings.cases_frame {target : Nat} {f : Frame}
    (h : Brings m ranges index i before after target f) :
    f = after ∨ ∃ locals type, (locals = before.locals ∨ locals = after.locals) ∧
      f = ⟨locals, [.reference type]⟩ := by
  cases h with
  | jump => exact .inl rfl
  | fall => exact .inl rfl
  | caught _ _ hlocals => exact .inr ⟨_, _, hlocals, rfl⟩

/-- All that control brings from the instruction at `index`, and to places in the code only. -/
structure Delivery (m : Method) (ranges : List HandlerRange) (index : Nat) (i : Instr)
    (before after : Frame) (brought : List (Nat × Frame)) : Prop where
  targets : ∀ l ∈ i.branchTargets, ∃ target, labelPosition? m.code l = some target
  inside : i.fallsThrough = true → index + 1 < m.code.length
  mem_iff : ∀ {target f}, (target, f) ∈ brought ↔ Brings m ranges index i before after target f

theorem mem_caught {target : Nat} {f : Frame} :
    (target, f) ∈ ((ranges.filter (·.covers index)).flatMap fun r =>
      [before.locals, after.locals].map fun locals => (r.target, ⟨locals, [.reference r.type]⟩)) ↔
    ∃ r ∈ ranges, r.covers index = true ∧ r.target = target ∧
      ∃ locals, (locals = before.locals ∨ locals = after.locals) ∧
        f = ⟨locals, [.reference r.type]⟩ := by
  simp only [List.mem_flatMap, List.mem_filter, List.mem_map, List.mem_cons, List.not_mem_nil,
    or_false, Prod.mk.injEq]
  constructor
  · rintro ⟨r, ⟨hr, hcovers⟩, locals, hlocals, htarget, rfl⟩
    exact ⟨r, hr, hcovers, htarget, locals, hlocals, rfl⟩
  · rintro ⟨r, hr, hcovers, htarget, locals, hlocals, rfl⟩
    exact ⟨r, ⟨hr, hcovers⟩, locals, hlocals, htarget, rfl⟩

section Looking

variable {I : State → Database → Prop}

/-- Control comes to each place in turn. -/
theorem flowIntoAll_meets {brought : List (Nat × Frame)}
    (h : ∀ b ∈ brought, ∀ s, Meets (I s) (flowInto owner m index b.1 b.2 s) I E) (s : State) :
    Meets (I s) (flowIntoAll owner m index brought s) I E := by
  induction brought generalizing s with
  | nil => exact Meets.pure fun _ => id
  | cons b rest ih =>
    exact (h b List.mem_cons_self s).bind fun s' =>
      ih (fun b' hb' => h b' (List.mem_cons_of_mem _ hb')) s'

theorem flowIntoAll_append (brought brought' : List (Nat × Frame)) (s : State) :
    flowIntoAll owner m index (brought ++ brought') s =
      flowIntoAll owner m index brought s >>= flowIntoAll owner m index brought' := by
  induction brought generalizing s with
  | nil => exact (pure_bind s _).symm
  | cons b rest ih =>
    simp only [List.cons_append, flowIntoAll, bind_assoc]
    exact bind_congr fun s' => ih s'

/-- One look at an instruction lets control come to all the places where it goes, one after the
other. -/
theorem visit_meets_of_delivery {Q : State → Database → Prop} {s : State}
    (hstep : ∀ cause, before.step index i = .error cause → E (failure owner m index cause))
    (htargets : ∀ l ∈ i.branchTargets, labelPosition? m.code l = none →
      E (failure owner m index (.undefinedLabel l)))
    (hend : i.fallsThrough = true → m.code.length ≤ index + 1 →
      E (failure owner m index .fallsOffEnd))
    (hpart : ∀ after brought, before.step index i = .ok after →
      (∀ b ∈ brought, Brings m ranges index i before after b.1 b.2) →
        Meets P (flowIntoAll owner m index brought s) (fun _ _ => True) E)
    (hflow : ∀ after brought, before.step index i = .ok after →
      Delivery m ranges index i before after brought →
        Meets P (flowIntoAll owner m index brought s) Q E) :
    Meets P (visit owner m ranges index i before s) Q E := by
  unfold visit
  refine (attempt_meets (Q := fun after db => P db ∧ before.step index i = .ok after)
    (fun after hafter db hdb => ⟨hdb, hafter⟩) hstep).bind fun after => Meets.assume fun hafter => ?_
  refine (Meets.mapM fun l hl => position_meets (htargets l hl)).bind
    fun targets => Meets.assume fun htargets => ?_
  have hplaced : ∀ l ∈ i.branchTargets, ∃ target, labelPosition? m.code l = some target :=
    fun l hl => (exists_right_of_mem htargets hl).imp fun _ h => h.2
  have hjumps {target : Nat} {f : Frame} : (target, f) ∈ targets.map (·, after) ↔
      f = after ∧ ∃ l ∈ i.branchTargets, labelPosition? m.code l = some target := by
    simp only [List.mem_map, Prod.mk.injEq]
    constructor
    · rintro ⟨target', htarget, rfl, rfl⟩
      exact ⟨rfl, exists_left_of_mem htargets htarget⟩
    · rintro ⟨rfl, l, hl, hpos⟩
      obtain ⟨target', htarget, hpos'⟩ := exists_right_of_mem htargets hl
      cases hpos.symm.trans hpos'
      exact ⟨target, htarget, rfl, rfl⟩
  -- All that is brought, in the order in which it comes.
  have hdelivery (hinside : i.fallsThrough = true → index + 1 < m.code.length) :
      Delivery m ranges index i before after (targets.map (·, after) ++
        ((if i.fallsThrough then [(index + 1, after)] else []) ++
          (ranges.filter (·.covers index)).flatMap fun r => [before.locals, after.locals].map
            fun locals => (r.target, ⟨locals, [.reference r.type]⟩))) := by
    refine ⟨hplaced, hinside, fun {target f} => ?_⟩
    rw [List.mem_append, List.mem_append, hjumps, mem_caught, List.mem_ite_nil_right,
      List.mem_singleton, Prod.mk.injEq]
    constructor
    · rintro (⟨rfl, l, hl, hpos⟩ | ⟨hfalls, rfl, rfl⟩ |
        ⟨r, hr, hcovers, rfl, locals, hlocals, rfl⟩)
      exacts [.jump hl hpos, .fall hfalls (hinside hfalls), .caught hr hcovers hlocals]
    · rintro (⟨hl, hpos⟩ | ⟨hfalls, -⟩ | ⟨hr, hcovers, hlocals⟩)
      exacts [.inl ⟨rfl, _, hl, hpos⟩, .inr (.inl ⟨hfalls, rfl, rfl⟩),
        .inr (.inr ⟨_, hr, hcovers, rfl, _, hlocals, rfl⟩)]
  by_cases hfalls : i.fallsThrough = true
  · simp only [if_pos hfalls]
    by_cases hinside : m.code.length ≤ index + 1
    · simp only [if_pos hinside]
      refine (hpart after _ hafter fun b hb => ?_).bind fun s₁ =>
        (Meets.throw (Q := fun _ _ => False) (hend hfalls hinside)).bind fun _ _ => False.elim
      obtain ⟨heq, l, hl, hpos⟩ := hjumps.1 hb
      exact heq ▸ .jump hl hpos
    · simp only [if_neg hinside]
      have hmeets := hflow after _ hafter (hdelivery fun _ => Nat.lt_of_not_le hinside)
      rw [if_pos hfalls, flowIntoAll_append] at hmeets
      exact hmeets
  · simp only [if_neg hfalls, pure_bind]
    have hmeets := hflow after _ hafter (hdelivery fun h => absurd h hfalls)
    rw [if_neg hfalls, flowIntoAll_append] at hmeets
    exact hmeets

/-- One look at an instruction keeps what is kept whenever control comes from there to one place. -/
theorem visit_meets
    (hstep : ∀ cause, before.step index i = .error cause → E (failure owner m index cause))
    (htargets : ∀ l ∈ i.branchTargets, labelPosition? m.code l = none →
      E (failure owner m index (.undefinedLabel l)))
    (hend : i.fallsThrough = true → m.code.length ≤ index + 1 →
      E (failure owner m index .fallsOffEnd))
    (hflow : ∀ after, before.step index i = .ok after →
      ∀ target f, Brings m ranges index i before after target f →
        ∀ s, Meets (I s) (flowInto owner m index target f s) I E) (s : State) :
    Meets (I s) (visit owner m ranges index i before s) I E :=
  visit_meets_of_delivery hstep htargets hend
    (fun after _ hafter hbrings =>
      (flowIntoAll_meets (fun b hb => hflow after hafter b.1 b.2 (hbrings b hb)) s).mono
        (fun _ => id) fun _ _ _ => trivial)
    fun after _ hafter hdelivery =>
      flowIntoAll_meets (fun b hb => hflow after hafter b.1 b.2 (hdelivery.mem_iff.1 hb)) s

end Looking

/-- What the loop keeps as steps are spent holds of what it comes to. -/
theorem settle_meets {I : Nat → State → Database → Prop}
    {Q : Array (Option Frame) → Database → Prop}
    (hdone : ∀ n frames db, I n ⟨frames, []⟩ db → Q frames db)
    (hspent : ∀ frames index pending db, I 0 ⟨frames, index :: pending⟩ db →
      E (failure owner m 0 .unsettled))
    (hskip : ∀ n frames index pending db,
      (∀ i before, m.code[index]? = some i → frames[index]?.join ≠ some before) →
        I (n + 1) ⟨frames, index :: pending⟩ db → I n ⟨frames, pending⟩ db)
    (hvisit : ∀ n frames index pending i before, m.code[index]? = some i →
      frames[index]?.join = some before → Meets (I (n + 1) ⟨frames, index :: pending⟩)
        (visit owner m ranges index i before ⟨frames, pending⟩) (I n) E)
    (n : Nat) (s : State) :
    Meets (I n s) (settle owner m ranges m.code.toArray n s) Q E := by
  induction n generalizing s with
  | zero =>
    obtain ⟨frames, pending⟩ := s
    cases pending with
    | nil => exact Meets.pure (hdone 0 frames)
    | cons index pending => exact fun db hdb => hspent frames index pending db hdb
  | succ n ih =>
    obtain ⟨frames, pending⟩ := s
    cases pending with
    | nil => exact Meets.pure (hdone (n + 1) frames)
    | cons index pending =>
      rw [settle]
      split
      · rename_i i before hi hbefore
        rw [List.getElem?_toArray] at hi
        exact (hvisit n frames index pending i before hi hbefore).bind ih
      · rename_i hnone
        refine (ih ⟨frames, pending⟩).mono (fun db => hskip n frames index pending db ?_)
          fun _ _ => id
        exact fun i before hi => hnone i before (by rw [List.getElem?_toArray, hi])

/-- Parameters are placed if there are locals for them. -/
theorem placeParams_meets {types : List FieldType} {first : Nat} {f : Frame}
    (hfew : f.locals.length < first + types.length → E (failure owner m 0 .tooFewLocals)) :
    Meets P (placeParams owner m first types f) (fun g db => P db ∧
      g.locals.length = f.locals.length ∧ g.stack = f.stack) E := by
  induction types generalizing first f with
  | nil => exact Meets.pure fun db hdb => ⟨hdb, rfl, rfl⟩
  | cons type rest ih =>
    rw [placeParams]
    rw [List.length_cons] at hfew
    split
    · refine (ih fun h => hfew ?_).mono (fun _ => id) fun g db hg => ?_
      · rw [List.length_set] at h
        omega
      · exact ⟨hg.1, hg.2.1.trans List.length_set, hg.2.2⟩
    · exact Meets.throw (hfew (by omega))

/-- On entry all locals are there, and the operand stack is empty. -/
theorem entryFrame_meets
    (hdesc : ∀ cause, MethodType.parse m.desc = .error cause → E (.descriptor cause))
    (hfew : ∀ type, MethodType.parse m.desc = .ok type → m.maxLocals.toNat < m.entryLocals type →
      E (failure owner m 0 .noReceiverLocal) ∧ E (failure owner m 0 .tooFewLocals)) :
    Meets P (entryFrame owner m) (fun f db => P db ∧ f.locals.length = m.maxLocals.toNat ∧
      f.stack = []) E := by
  have hblank : (Frame.blank m.maxLocals.toNat).locals.length = m.maxLocals.toNat := by
    simp [Frame.blank]
  unfold entryFrame
  rcases htype : MethodType.parse m.desc with cause | type
  · exact fun _ _ => hdesc cause htype
  have hroom := hfew type htype
  unfold Method.entryLocals MethodType.arity at hroom
  dsimp only
  rw [pure_bind]
  split
  · rename_i hstatic
    rw [if_pos hstatic] at hroom
    refine (placeParams_meets fun h => (hroom ?_).2).mono (fun _ => id)
      fun f db ⟨hdb, hlen, hstack⟩ => ⟨hdb, hlen.trans hblank, hstack⟩
    omega
  · rename_i hstatic
    rw [if_neg hstatic] at hroom
    split
    · rename_i hempty
      have hzero : m.maxLocals.toNat = 0 := by
        rw [← hblank, List.isEmpty_iff.1 hempty]
        rfl
      exact Meets.throw (hroom (by omega)).1
    · refine (placeParams_meets fun h => (hroom ?_).2).mono (fun _ => id)
        fun f db ⟨hdb, hlen, hstack⟩ =>
          ⟨hdb, hlen.trans (List.length_set.trans hblank), hstack⟩
      rw [List.length_set, hblank] at h
      omega

/-- The state in which the loop starts. -/
def start (m : Method) (entry : Frame) : State :=
  ⟨(Array.replicate m.code.length none).setIfInBounds 0 (some entry), [0]⟩

/-- The ranges are those of the handlers, with the types that the handlers catch. -/
def Ranged (m : Method) (ranges : List HandlerRange) : Prop :=
  List.Forall₂ (fun h r => (labelPosition? m.code h.start = some r.start ∧
    labelPosition? m.code h.stop = some r.stop ∧
    labelPosition? m.code h.target = some r.target) ∧
    r.type = h.catchType.getD Names.throwable) m.handlers ranges

theorem Ranged.placed (h : Ranged m ranges) : Placed m ranges := h.imp fun _ _ => And.left

theorem handlerRange_meets {h : Handler}
    (hlabels : ∀ l ∈ [h.start, h.stop, h.target], labelPosition? m.code l = none →
      E (failure owner m 0 (.undefinedLabel l))) :
    Meets P (handlerRange owner m h) (fun r db => P db ∧
      (labelPosition? m.code h.start = some r.start ∧ labelPosition? m.code h.stop = some r.stop ∧
        labelPosition? m.code h.target = some r.target) ∧
      r.type = h.catchType.getD Names.throwable) E := by
  unfold handlerRange
  refine (position_meets (hlabels h.start (by simp))).bind
    fun start => Meets.assume fun hstart => ?_
  refine (position_meets (hlabels h.stop (by simp))).bind fun stop => Meets.assume fun hstop => ?_
  refine (position_meets (hlabels h.target (by simp))).bind fun target => ?_
  exact Meets.pure fun db ⟨hdb, htarget⟩ => ⟨hdb, ⟨hstart, hstop, htarget⟩, rfl⟩

/-- The analysis comes to what the loop comes to from the frame on entry. -/
theorem analyze_meets {Q : Array (Option Frame) → Database → Prop} {T : Frame → Prop}
    (hhandlers : ∀ h ∈ m.handlers, ∀ l ∈ [h.start, h.stop, h.target],
      labelPosition? m.code l = none → E (failure owner m 0 (.undefinedLabel l)))
    (hempty : m.code = [] → ∀ db, P db → Q #[] db)
    (hentry : Meets P (entryFrame owner m) (fun f db => P db ∧ T f) E)
    (hsettle : ∀ ranges entry db, P db → Ranged m ranges → 0 < m.code.length → T entry →
      Meets (· = db) (settle owner m ranges m.code.toArray (stepBound m db.reach) (start m entry))
        Q E) :
    Meets P (analyze owner m) Q E := by
  unfold analyze
  refine (Meets.mapM fun h hh => handlerRange_meets (hhandlers h hh)).bind
    fun ranges => Meets.assume fun hranges => ?_
  by_cases hnil : m.code = []
  · rw [if_pos (by simpa using hnil)]
    exact Meets.pure (hempty hnil)
  · rw [if_neg (by simpa using hnil)]
    have hpos : 0 < m.code.length := List.length_pos_iff.2 hnil
    refine hentry.bind fun entry => Meets.assume fun hT db hdb => ?_
    exact hsettle ranges entry db hdb hranges hpos hT db rfl

end Flow

end Resumable
