import Mathlib
import Resumable.Proofs.Instrument.Idempotence

/-!
# What instrumenting does not let through

Some constructs cannot go together with suspension. They are looked for in different places: a
synchronized method by the heads of the class (`Inquiry.enroll`), a call that blocks and a suspend
call that is not static among the calls that the analysis reaches (`Analysed.planCall`), a special
method once it is known to have points (`Inquiry.instrumentCandidate`), a handler for the signal
before the body is written and monitors while it is (`Analysed.transformed`, `Analysed.leadIn`).

None of them comes through (`Inquiry.instrument_clean`). For a call this rests on the order of the
questions: a call that blocks is looked up among those that may suspend first, and does not suspend
since the platform owns it, while the suspend call does as long as its class has not been redefined
(`Database.KnowsYield`). For monitors it rests on the body being written from segments that leave
out nothing but suspend calls and allocations (`Analysed.exists_segment`).
-/

namespace Resumable

/-! ## The suspend call -/

/-- The class records the suspend call as one that may suspend. -/
def ClassFacts.HasYield (facts : ClassFacts) : Prop :=
  facts.check? Names.yieldName Names.yieldDesc = some true

namespace Database

/-- The suspend call is known to suspend. It is so from the start, unless its class is redefined. -/
def KnowsYield (db : Database) : Prop :=
  ∃ facts : ClassFacts, db.fact? Names.coroutine = some (.known facts) ∧ facts.HasYield

variable {db db' : Database}

theorem knowsYield_new (options : Options) (resolver : Resolver) :
    (new options resolver).KnowsYield :=
  ⟨{ superName := some Names.object, flags := [(methodKey Names.yieldName Names.yieldDesc, true)] },
    rfl, rfl⟩

theorem Learns.knowsYield (h : db.Learns db') (hyield : db.KnowsYield) : db'.KnowsYield := by
  obtain ⟨facts, hfact, hflag⟩ := hyield
  exact ⟨facts, h.fact? hfact, hflag⟩

/-- A class that is taken in leaves the suspend call alone unless it is the one that has it. -/
theorem KnowsYield.record {name : String} {facts : ClassFacts} (h : db.KnowsYield)
    (hname : name = Names.coroutine → facts.HasYield) :
    (db.record name (.known facts)).KnowsYield := by
  obtain ⟨known, hfact, hflag⟩ := h
  unfold KnowsYield
  rw [fact?_record]
  split
  · next heq => exact ⟨facts, rfl, hname heq.symm⟩
  · exact ⟨known, hfact, hflag⟩

end Database

namespace Inquiry

variable {db db' : Database} {owner method desc : String} {searchSuper : Bool}

theorem learns_of_run {α : Type} {x : Inquiry α} {a : α} (hlearns : Asking.Learns x)
    (h : x.run db = (a, db')) : db.Learns db' := by
  have := hlearns db
  rwa [h] at this

/-- A method of the platform does not suspend, whatever is known. -/
theorem run_isSuspendable_of_platform (h : Names.isPlatform owner = true) :
    (isSuspendable owner method desc searchSuper).run db = (false, db) := by
  unfold isSuspendable
  rw [h, Bool.or_true]
  rfl

/-- The suspend call suspends. -/
theorem run_isSuspendable_yield (h : db.KnowsYield) :
    (isSuspendable Names.coroutine Names.yieldName Names.yieldDesc searchSuper).run db =
      (true, db) := by
  obtain ⟨facts, hfact, hflag⟩ := h
  have hknown : (factOf Names.coroutine).run db = (.known facts, db) := by
    unfold factOf
    rw [run_bind_of_eq (show (get : Inquiry Database).run db = (db, db) from rfl), hfact]
    rfl
  have hfound (steps : Nat) : (findFlag Names.yieldName Names.yieldDesc searchSuper (steps + 1)
      Names.coroutine).run db = (some true, db) := by
    unfold findFlag
    rw [if_neg (by decide), run_bind_of_eq hknown]
    dsimp only
    rw [show facts.check? Names.yieldName Names.yieldDesc = some true from hflag]
    rfl
  unfold isSuspendable
  rw [if_neg (by decide), run_bind_of_eq (show (get : Inquiry Database).run db = (db, db) from rfl),
    show db.reach = _ + 1 from rfl, run_bind_of_eq (hfound _)]
  rfl

end Inquiry

/-! ## Calls -/

theorem isPlatform_of_mem_blockingMethods :
    ∀ callee ∈ blockingMethods, Names.isPlatform callee.owner = true := by
  decide

theorem blockingIndex?_eq_none_iff {callee : MemberRef} :
    blockingIndex? callee = none ↔ callee ∉ blockingMethods := by
  unfold blockingIndex?
  rw [List.findIdx?_eq_none_iff]
  simp only [beq_eq_false_iff_ne]
  exact ⟨fun h hmem => h callee hmem rfl, fun h m hm heq => h (heq ▸ hm)⟩

theorem Names.isYield_iff {owner name desc : String} : Names.isYield owner name desc = true ↔
    owner = Names.coroutine ∧ name = Names.yieldName ∧ desc = Names.yieldDesc := by
  simp [Names.isYield, and_assoc]

namespace Analysed

variable {a : Analysed} {db db' : Database} {progress progress' : Progress} {index : Nat}
  {op : Opcode} {callee : MemberRef} {f : Frame}

/-- A call that blocks is not passed over unless that is allowed. -/
theorem not_blocking_of_planCall (hblocking : db.options.allowBlocking = false)
    (h : ((a.planCall index op callee f).run progress).run db = ((.ok (), progress'), db')) :
    callee ∉ blockingMethods := by
  intro hmem
  unfold planCall at h
  dsimp only at h
  -- The platform owns it, so it is not taken for a suspension point before it is looked up.
  rw [run_lift_bind, Inquiry.run_isSuspendable_of_platform
    (isPlatform_of_mem_blockingMethods callee hmem), if_neg (by simp)] at h
  split at h
  · next hnone => exact blockingIndex?_eq_none_iff.1 hnone hmem
  · rw [run_getThe_bind, hblocking] at h
    cases h

/-- A suspend call that is not static is not passed over. -/
theorem static_of_planCall (hknown : db.KnowsYield)
    (hyield : Names.isYield callee.owner callee.name callee.desc = true)
    (h : ((a.planCall index op callee f).run progress).run db = ((.ok (), progress'), db')) :
    op = .invokestatic := by
  obtain ⟨howner, hname, hdesc⟩ := Names.isYield_iff.1 hyield
  unfold planCall at h
  dsimp only at h
  rw [hyield, run_lift_bind, howner, hname, hdesc, Inquiry.run_isSuspendable_yield hknown,
    if_pos rfl, run_lift_bind] at h
  split at h
  · cases h
  · next hvalid => simpa using hvalid

/-- Each call that the analysis reaches has been looked at, with a database that had only been added
to. -/
theorem exists_planCall {is : List (Instr × Nat)}
    (h : ((a.planCalls is).run progress).run db = ((.ok (), progress'), db'))
    (hmem : (.invoke op callee, index) ∈ is) (hf : a.frame? index = some f) :
    ∃ progress₁ progress₂ db₁ db₂, db.Learns db₁ ∧
      ((a.planCall index op callee f).run progress₁).run db₁ = ((.ok (), progress₂), db₂) := by
  induction is generalizing progress db with
  | nil => cases hmem
  | cons first is ih =>
    obtain ⟨x, j⟩ := first
    unfold planCalls at h
    split at h
    · rename_i op' callee' f' hf'
      rw [run_bind] at h
      rcases hcall : ((a.planCall j op' callee' f').run progress).run db with
        ⟨⟨_ | _, progress₁⟩, db₁⟩
      · rw [hcall] at h
        cases h
      · rw [hcall] at h
        have hlearns : db.Learns db₁ :=
          Inquiry.learns_of_run (a.learns_planCall j op' callee' f' progress) hcall
        rcases List.mem_cons.1 hmem with heq | hmem
        · cases heq
          cases hf.symm.trans hf'
          exact ⟨progress, progress₁, db, db₁, .refl db, hcall⟩
        · obtain ⟨p, p', db₂, db₃, hlater, hturn⟩ := ih h hmem
          exact ⟨p, p', db₂, db₃, hlearns.trans hlater, hturn⟩
    · rename_i hother
      rcases List.mem_cons.1 hmem with heq | hmem
      · cases heq
        exact (hother op callee f rfl hf).elim
      · exact ih h hmem

theorem learns_of (owner : String) (m : Method) : Asking.Learns (Analysed.of owner m) :=
  (Flow.learns_analyze owner m).bind fun _ => .pure _

end Analysed

/-! ## Writing with some options -/

/-- With these options, and with some account and some database, what is written is this. -/
def WritesUnder {α : Type} (options : Options) (x : Analysed.Writing α) (r : α) : Prop :=
  ∃ (account account' : Analysed.Account) (db db' : Database), db.options = options ∧
    (x.run.run account).run db = ((.ok r, account'), db')

namespace WritesUnder

variable {α β : Type} {options : Options} {x : Analysed.Writing α} {k : α → Analysed.Writing β}
  {r : α} {b : β}

theorem writes (h : WritesUnder options x r) : Writes x r := by
  obtain ⟨account, account', db, db', -, h⟩ := h
  exact ⟨account, account', db, db', h⟩

theorem not_throw {e : InstrumentError} : ¬ WritesUnder options (throw e : Analysed.Writing α) r :=
  fun h => h.writes.not_throw

/-- The options are those of the database that is looked at. -/
theorem look {db : Database}
    (h : WritesUnder options (getThe Database : Analysed.Writing Database) db) :
    db.options = options := by
  obtain ⟨account, account', db₀, db', hoptions, h⟩ := h
  cases h
  exact hoptions

/-- Both parts have been written with the same options, as the first only adds to the database. -/
theorem bind (h : WritesUnder options (x >>= k) b) (hlearns : Asking.Learns x) :
    ∃ r, WritesUnder options x r ∧ WritesUnder options (k r) b := by
  obtain ⟨account, account', db, db', hoptions, h⟩ := h
  rcases hx : (x.run.run account).run db with ⟨⟨e | r, account₁⟩, db₁⟩
  · have hr : ((x >>= k).run.run account).run db = ((.error e, account₁), db₁) := by
      rw [ExceptT.run_bind, StateT.run_bind, StateT.run_bind, hx]
      rfl
    rw [hr] at h
    cases h
  · have hr : ((x >>= k).run.run account).run db = ((k r).run.run account₁).run db₁ := by
      rw [ExceptT.run_bind, StateT.run_bind, StateT.run_bind, hx]
      rfl
    have hsame : db.Learns db₁ := Inquiry.learns_of_run (hlearns account) hx
    exact ⟨r, ⟨account, account₁, db, db₁, hoptions, hx⟩,
      account₁, account', db₁, db', hsame.options.trans hoptions, hr ▸ h⟩

end WritesUnder

/-! ## Segments -/

/-- The instruction takes or gives back a monitor. -/
def Instr.IsMonitor (x : Instr) : Prop := x = .simple .monitorenter ∨ x = .simple .monitorexit

namespace Analysed

variable {a : Analysed} {plan : MethodPlan} {db db' : Database} {i index : Nat} {x : Instr}
  {options : Options} {omitted : List Nat} {code : List Instr}

/-- Nothing leads to a monitor unless monitors are allowed. -/
theorem not_monitor_of_leadIn (hmonitors : options.allowMonitors = false)
    (h : WritesUnder options (a.leadIn omitted index x) code) : ¬ x.IsMonitor := by
  have hrefused {op : Opcode} (hreturn : op.isReturn = false)
      (hop : op = .monitorenter ∨ op = .monitorexit) : x ≠ .simple op := by
    rintro rfl
    unfold leadIn at h
    dsimp only at h
    rw [hreturn, if_neg Bool.false_ne_true, if_pos hop] at h
    obtain ⟨db, hdb, h⟩ := h.bind (Asking.Learns.liftTry (Asking.Learns.liftState .look))
    rw [hdb.look, hmonitors] at h
    obtain ⟨_, hthrow, -⟩ := h.bind (.throw _)
    exact hthrow.not_throw
  rintro (heq | heq)
  · exact hrefused rfl (.inl rfl) heq
  · exact hrefused rfl (.inr rfl) heq

/-- A segment that has been written is free of monitors, apart from what is left out. -/
theorem not_monitor_of_segment {xs : List (Instr × Nat)} (hmonitors : options.allowMonitors = false)
    (h : WritesUnder options (a.segment omitted xs) code) (hmem : (x, i) ∈ xs)
    (hkept : i ∉ omitted) : ¬ x.IsMonitor := by
  induction xs generalizing code with
  | nil => cases hmem
  | cons y xs ih =>
    obtain ⟨y, j⟩ := y
    unfold segment at h
    split at h
    · next hout =>
      rcases List.mem_cons.1 hmem with heq | hmem
      · cases heq
        exact absurd (by simpa using hout) hkept
      · exact ih h hmem
    · obtain ⟨front, hfront, h⟩ := h.bind (learns_leadIn _ _ _)
      obtain ⟨rest, hrest, -⟩ := h.bind (learns_segment _ _)
      rcases List.mem_cons.1 hmem with heq | hmem
      · cases heq
        exact not_monitor_of_leadIn hmonitors hfront
      · exact ih hrest hmem

theorem mem_slice_of_getElem? {start stop : Nat} (hx : a.method.code[i]? = some x)
    (hlow : start ≤ i) (hhigh : i < stop) : (x, i) ∈ a.slice start stop := by
  obtain ⟨hi, rfl⟩ := List.getElem?_eq_some_iff.1 hx
  refine List.mem_drop_iff_getElem.2 ⟨i - start, ?_, ?_⟩
  · simp only [List.length_take, List.length_zipIdx]
    omega
  · simp [Nat.add_sub_cancel' hlow]

/-- From the first of some points on, each instruction but a suspend call is part of a segment. -/
theorem exists_segment {points : List SuspensionPoint} {entry : Nat}
    {resume before after : List Label}
    (h : WritesUnder options (a.pointsCode omitted entry points resume before after) code)
    (hresume : resume.length = points.length) (hbefore : before.length = points.length)
    (hafter : after.length = points.length) (hx : a.method.code[i]? = some x)
    (hi : a.nextIndex points ≤ i) :
    (∃ p ∈ points, p.isYield = true ∧ p.index = i) ∨
      ∃ xs written, WritesUnder options (a.segment omitted xs) written ∧ (x, i) ∈ xs := by
  induction points generalizing entry resume before after code with
  | nil =>
    have hlen := (List.getElem?_eq_some_iff.1 hx).1
    exact absurd hi (Nat.not_le.2 hlen)
  | cons p points ih =>
    obtain ⟨r, resume, rfl⟩ := List.exists_cons_of_length_eq_add_one hresume
    obtain ⟨b, before, rfl⟩ := List.exists_cons_of_length_eq_add_one hbefore
    obtain ⟨l, after, rfl⟩ := List.exists_cons_of_length_eq_add_one hafter
    unfold pointsCode at h
    dsimp only at h
    obtain ⟨tail, htail, h⟩ := h.bind (learns_segment _ _)
    obtain ⟨more, hmore, -⟩ := h.bind (learns_pointsCode _ _ _ _ _ _)
    replace htail : WritesUnder options (a.segment omitted
        (a.slice (p.index + if p.isYield then 1 else 0) (a.nextIndex points))) tail := by
      cases points <;> exact htail
    change p.index ≤ i at hi
    -- The segment behind this point ends where the next point begins.
    rcases Nat.lt_or_ge i (a.nextIndex points) with hlt | hge
    · by_cases hskipped : p.isYield = true ∧ p.index = i
      · exact .inl ⟨p, List.mem_cons_self, hskipped⟩
      · refine .inr ⟨_, tail, htail, mem_slice_of_getElem? hx ?_ hlt⟩
        split
        · next hyield => exact Nat.lt_of_le_of_ne hi fun heq => hskipped ⟨hyield, heq⟩
        · exact hi
    · rcases ih hmore (Nat.succ.inj hresume) (Nat.succ.inj hbefore) (Nat.succ.inj hafter) hge with
        ⟨q, hq, hskipped⟩ | hsegment
      · exact .inl ⟨q, List.mem_cons_of_mem _ hq, hskipped⟩
      · exact .inr hsegment

/-! ## Candidates -/

/-- What is asked of a candidate: of the calls that the analysis reaches in any case, and of the
method as a whole where it has suspension points. -/
structure Clean (a : Analysed) (plan : MethodPlan) : Prop where
  /-- No call blocks. -/
  unblocked : ∀ {index : Nat} {op : Opcode} {callee : MemberRef} {f : Frame},
    a.method.code[index]? = some (.invoke op callee) → a.frame? index = some f →
      callee ∉ blockingMethods
  /-- The suspend call is called as what it is. -/
  static : ∀ {index : Nat} {op : Opcode} {callee : MemberRef} {f : Frame},
    a.method.code[index]? = some (.invoke op callee) → a.frame? index = some f →
      Names.isYield callee.owner callee.name callee.desc = true → op = .invokestatic
  /-- The method is neither a constructor nor an initializer. -/
  plain : plan.points ≠ [] → Names.isSpecial a.method.name = false
  /-- No handler is there to catch the signal. -/
  uncaught : plan.points ≠ [] →
    ∀ handler ∈ a.method.handlers, handler.catchType ≠ some Names.suspendExecution
  /-- No monitor is taken or given back. -/
  unlocked : plan.points ≠ [] → ∀ x ∈ a.method.code, ¬ x.IsMonitor

/-- What has been planned is in order as far as calls go. -/
theorem calls_of_plan (hblocking : db.options.allowBlocking = false) (hknown : db.KnowsYield)
    (h : a.plan.run db = ((plan, .ok ()), db')) {index : Nat} {op : Opcode} {callee : MemberRef}
    {f : Frame} (hx : a.method.code[index]? = some (.invoke op callee))
    (hf : a.frame? index = some f) : callee ∉ blockingMethods ∧
      (Names.isYield callee.owner callee.name callee.desc = true → op = .invokestatic) := by
  unfold Analysed.plan at h
  rw [StateT.run_bind] at h
  rcases hcalls : ((a.planCalls a.method.code.zipIdx).run {}).run db with ⟨⟨outcome, progress⟩, db₁⟩
  rw [hcalls] at h
  cases h
  obtain ⟨_, _, db₁, _, hlearns, hturn⟩ :=
    exists_planCall hcalls (List.mk_mem_zipIdx_iff_getElem?.2 hx) hf
  exact ⟨not_blocking_of_planCall (hlearns.options.symm ▸ hblocking) hturn,
    fun hyield => static_of_planCall (hlearns.knowsYield hknown) hyield hturn⟩

/-- A body that has been written has come from a method without handlers for the signal. The code in
front of the first point and that from there on have been written one after the other. -/
theorem transformed_stages {first : SuspensionPoint} {m : Method}
    (h : WritesUnder options (a.transformed plan first) m) :
    (∀ handler ∈ a.method.handlers, handler.catchType ≠ some Names.suspendExecution) ∧
      ∃ front points,
        WritesUnder options (a.segment plan.omitted (a.slice 0 first.index)) front ∧
        WritesUnder options (a.pointsCode plan.omitted 1 plan.points
          (BodyLabels.forMethod a.method plan.points.length).resume
          (BodyLabels.forMethod a.method plan.points.length).before
          (BodyLabels.forMethod a.method plan.points.length).after) points := by
  unfold transformed at h
  obtain ⟨_, -, h⟩ := h.bind (learns_notice _ _)
  dsimp only at h
  split at h
  · obtain ⟨_, hthrow, -⟩ := h.bind (.throw _)
    exact hthrow.not_throw.elim
  next hnone =>
  obtain ⟨front, hfront, h⟩ := h.bind (learns_segment _ _)
  obtain ⟨points, hpoints, -⟩ := h.bind (learns_pointsCode _ _ _ _ _ _)
  refine ⟨fun handler hmem heq => ?_, front, points, hfront, hpoints⟩
  exact hnone (List.any_eq_true.2 ⟨handler, hmem, by simpa using heq⟩)

/-- Each instruction but a suspend call is part of a segment of the body. -/
theorem exists_segment_of_transformed {first : SuspensionPoint} {rest : List SuspensionPoint}
    {m : Method} (h : WritesUnder options (a.transformed plan first) m)
    (hpoints : plan.points = first :: rest) (hx : a.method.code[i]? = some x) :
    (∃ p ∈ plan.points, p.isYield = true ∧ p.index = i) ∨
      ∃ xs written, WritesUnder options (a.segment plan.omitted xs) written ∧ (x, i) ∈ xs := by
  obtain ⟨-, front, points, hfront, hcode⟩ := transformed_stages h
  rcases Nat.lt_or_ge i first.index with hlt | hge
  · exact .inr ⟨_, front, hfront, mem_slice_of_getElem? hx (Nat.zero_le _) hlt⟩
  · rw [Method.forMethod_eq] at hcode
    exact exists_segment hcode (by simp) (by simp) (by simp) hx (by rw [hpoints]; exact hge)

end Analysed

/-- A method that has been written while monitors were not allowed has none: what its body leaves
out is no monitor either. -/
theorem Transforms.unlocked {owner : String} {m m' : Method} {a : Analysed} {plan : MethodPlan}
    {first : SuspensionPoint} {rest : List SuspensionPoint} {options : Options}
    (h : Transforms owner m a plan m') (hpoints : plan.points = first :: rest)
    (hmonitors : options.allowMonitors = false)
    (hwrites : WritesUnder options (a.transformed plan first) m') :
    ∀ x ∈ a.method.code, ¬ x.IsMonitor := by
  intro x hmem
  obtain ⟨i, hi⟩ := List.getElem?_of_mem hmem
  by_cases hout : i ∈ plan.omitted
  · rcases h.of_mem_omitted hout with ⟨type, hx⟩ | hx
    all_goals
      cases hi.symm.trans hx
      rintro (heq | heq) <;> cases heq
  -- What is in no segment is a suspend call, and no segment has a monitor in it.
  rcases Analysed.exists_segment_of_transformed hwrites hpoints hi with
    ⟨p, hp, -, rfl⟩ | ⟨xs, written, hsegment, hmem⟩
  · obtain ⟨⟨op, callee, _, hx, -⟩, -⟩ := h.point hp
    cases hi.symm.trans hx
    rintro (heq | heq) <;> cases heq
  · exact Analysed.not_monitor_of_segment hmonitors hsegment hmem hout

namespace Inquiry

variable {owner : String} {m m' : Method} {c out : ClassDef} {db db' : Database}

/-- What the analysis finds in a method, and what is planned for it. -/
def survey (owner : String) (m : Method) : Flow.Attempt (Analysed × MethodPlan) := do
  let a ← Analysed.of owner m
  let (plan, outcome) ← (a.plan : Inquiry _)
  match outcome with
  | .error e => throw e
  | .ok () => return (a, plan)

/-- The survey of method number `index` of a class when it is its turn to be instrumented: the class
has been enrolled and the methods in front of this one have been instrumented. -/
def surveyAt (c : ClassDef) (index : Nat) : Flow.Attempt (Option (Analysed × MethodPlan)) := do
  enroll c
  let _ ← (c.methods.take index).mapM (instrumentMember c.name)
  match c.methods[index]? with
  | none => return none
  | some m =>
    if (← getThe Database).options.debug then log .info (.instrumentingMember c.name m.name)
    return some (← survey c.name m)

theorem run_lift {ε α : Type} {x : Inquiry α} {a : α} (h : x.run db = (a, db')) :
    (liftM x : ExceptT ε Inquiry α).run.run db = (.ok a, db') := by
  show (Except.ok (x.run db).1, (x.run db).2) = _
  rw [h]

theorem run_look (db : Database) :
    (getThe Database : Flow.Attempt Database).run.run db = (.ok db, db) := rfl

/-- A body has been written with the options of the database. -/
theorem writesUnder_of_body {a : Analysed} {plan : MethodPlan} {first : SuspensionPoint}
    {rest : List SuspensionPoint} (hpoints : plan.points = first :: rest)
    (h : (a.body plan).run.run db = (.ok m', db')) :
    WritesUnder db.options (a.transformed plan first) m' := by
  unfold Analysed.body at h
  rw [hpoints] at h
  dsimp only at h
  rcases hrun : ((a.transformed plan first).run.run {}).run db with ⟨⟨outcome, account⟩, db₁⟩
  rw [run_bind_of_ok (run_lift hrun)] at h
  cases outcome with
  | error e => cases h
  | ok written =>
    cases h
    exact ⟨{}, account, db, _, rfl, hrun⟩

/-- A candidate that has come out has been analysed and planned, and if there are points, it is not
a special method and its body has been written. -/
theorem candidate_stages (h : (instrumentCandidate owner m).run.run db = (.ok m', db')) :
    ∃ a plan db₁ db₂, ((survey owner m).run.run db).1 = .ok (a, plan) ∧
      (Analysed.of owner m).run.run db = (.ok a, db₁) ∧
      a.plan.run db₁ = ((plan, .ok ()), db₂) ∧
      (plan.points ≠ [] →
        Names.isSpecial m.name = false ∧ (a.body plan).run.run db₂ = (.ok m', db')) := by
  unfold instrumentCandidate at h
  unfold survey
  obtain ⟨a, db₁, hanalysed, h⟩ := exists_of_run_bind h
  rcases hplanned : a.plan.run db₁ with ⟨⟨plan, outcome⟩, db₂⟩
  rw [run_bind_of_ok (run_lift hplanned)] at h
  rw [run_bind_of_ok hanalysed, run_bind_of_ok (run_lift hplanned)]
  rcases outcome with e | ⟨⟨⟩⟩
  · cases h
  refine ⟨a, plan, db₁, db₂, rfl, hanalysed, hplanned, fun hpoints => ?_⟩
  dsimp only at h
  rw [if_neg (by simpa using hpoints)] at h
  split at h
  · obtain ⟨_, _, hthrow, -⟩ := exists_of_run_bind h
    cases hthrow
  · next hplain => exact ⟨by simpa using hplain, h⟩

/-- A candidate that has come out is clean, whether it has been changed or not. -/
theorem clean_of_candidate (hblocking : db.options.allowBlocking = false)
    (hmonitors : db.options.allowMonitors = false) (hknown : db.KnowsYield)
    (h : (instrumentCandidate owner m).run.run db = (.ok m', db')) :
    ∃ a plan, ((survey owner m).run.run db).1 = .ok (a, plan) ∧ a.owner = owner ∧ a.method = m ∧
      a.Clean plan := by
  obtain ⟨a, plan, db₁, db₂, hsurvey, hanalysed, hplanned, hbody⟩ := candidate_stages h
  have hgives : Gives (Analysed.of owner m) a := ⟨db, db₁, hanalysed⟩
  obtain ⟨frames, -, ha⟩ := hgives.bind
  have hmethod : a.method = m := by rw [ha.pure]
  have hfirst : db.Learns db₁ := learns_of_run (Analysed.learns_of owner m) hanalysed
  have hsecond : db₁.Learns db₂ := learns_of_run Analysed.learns_plan hplanned
  refine ⟨a, plan, hsurvey, by rw [ha.pure], hmethod, fun hx hf => ?_, fun hx hf => ?_,
    fun hpoints => ?_, fun hpoints => ?_, fun hpoints => ?_⟩
  · exact (Analysed.calls_of_plan (hfirst.options.symm ▸ hblocking) (hfirst.knowsYield hknown)
      hplanned hx hf).1
  · exact (Analysed.calls_of_plan (hfirst.options.symm ▸ hblocking) (hfirst.knowsYield hknown)
      hplanned hx hf).2
  · exact hmethod ▸ (hbody hpoints).1
  all_goals
    obtain ⟨first, rest, hlist⟩ := List.exists_cons_of_ne_nil hpoints
    have hwrites := writesUnder_of_body hlist (hbody hpoints).2
  · exact (Analysed.transformed_stages hwrites).1
  · have htransforms : Transforms owner m a plan m' :=
      ⟨hgives, ⟨db₁, db₂, hplanned⟩, db₂, db', (hbody hpoints).2⟩
    rw [(hfirst.trans hsecond).options] at hwrites
    exact htransforms.unlocked hlist hmonitors hwrites

/-! ## Classes -/

/-- The methods of a class that is not skipped all have their turn. -/
theorem members_of_instrument (hcandidate : hasCandidate c = true)
    (hdue : c.isMarked = false ∨ db.options.force = true)
    (h : (instrument c).run.run db = (.ok out, db')) :
    ∃ methods, (c.methods.mapM (instrumentMember c.name)).run.run
      (db.record c.name (.known (.ofClass c))) = (.ok methods, db') := by
  have hforce : (db.record c.name (.known (.ofClass c))).options.force = db.options.force := by
    rw [Database.options_record]
  unfold instrument at h
  rw [run_bind_of_ok (run_enroll (instrument_ways h).1 db)] at h
  generalize db.record c.name (.known (.ofClass c)) = enrolled at hforce h ⊢
  split at h
  · next hnone =>
    unfold hasCandidate at hcandidate
    rw [hcandidate] at hnone
    cases hnone
  have hnotskipped : ¬ (c.isMarked && !db.options.force) = true := by
    rcases hdue with hunmarked | hforced
    · simp [hunmarked]
    · simp [hforced]
  rw [run_bind_of_ok (run_look enrolled), hforce, if_neg hnotskipped] at h
  obtain ⟨methods, _, hmethods, h⟩ := exists_of_run_bind h
  cases h
  exact ⟨methods, hmethods⟩

/-- A candidate whose turn has come is surveyed with the database that it is instrumented with. Only
the notice about its turn may come in between. -/
theorem surveyAt_of_turn {i : Nat} {methods : List Method} {db₁ db₂ : Database}
    (hheads : c.checkHeads = .ok ()) (hm : c.methods[i]? = some m)
    (hcandidate : m.isCandidate c.name = true)
    (hbefore : ((c.methods.take i).mapM (instrumentMember c.name)).run.run
      (db.record c.name (.known (.ofClass c))) = (.ok methods, db₁))
    (hturn : (instrumentMember c.name m).run.run db₁ = (.ok m', db₂)) :
    ∃ db₃, db₁.Learns db₃ ∧ (instrumentCandidate c.name m).run.run db₃ = (.ok m', db₂) ∧
      ∀ found, ((survey c.name m).run.run db₃).1 = .ok found →
        ((surveyAt c i).run.run db).1 = .ok (some found) := by
  have hreturn {db₃ : Database} {found : Analysed × MethodPlan}
      (h : ((survey c.name m).run.run db₃).1 = .ok found) :
      ((do return some (← survey c.name m) : Flow.Attempt _).run.run db₃).1 = .ok (some found) := by
    rw [run_bind_of_ok (Prod.ext h rfl)]
    rfl
  unfold instrumentMember at hturn
  unfold surveyAt
  rw [hcandidate] at hturn
  rw [run_bind_of_ok (run_enroll hheads db), run_bind_of_ok hbefore, hm]
  obtain ⟨_, _, hlook, hturn⟩ := exists_of_run_bind hturn
  cases hlook
  dsimp only
  rw [run_bind_of_ok (run_look db₁)]
  split at hturn
  · obtain ⟨_, db₃, hlog, hturn⟩ := exists_of_run_bind hturn
    rw [if_pos ‹_›, run_bind_of_ok hlog]
    exact ⟨db₃, learns_of_run (Asking.Learns.liftTry (.log _ _)) hlog, hturn, fun _ => hreturn⟩
  · rw [if_neg ‹_›]
    exact ⟨db₁, .refl db₁, hturn, fun _ => hreturn⟩

/-- **No forbidden construct gets through.** Blocking calls and monitors are not allowed, and the
suspend call is not redefined, neither in the database nor by the class. If the class is not skipped
as one that has been instrumented, and comes out, then none of its methods that may suspend is
synchronized, and each of its candidates is clean by the survey that was made of it. -/
theorem instrument_clean (hblocking : db.options.allowBlocking = false)
    (hmonitors : db.options.allowMonitors = false) (hknown : db.KnowsYield)
    (hclass : c.name = Names.coroutine → (ClassFacts.ofClass c).HasYield)
    (hcandidate : hasCandidate c = true) (hdue : c.isMarked = false ∨ db.options.force = true)
    (h : (instrument c).run.run db = (.ok out, db')) :
    (∀ m ∈ c.methods, m.isSuspendable = true → m.isSynchronized = false) ∧
      ∀ i m, c.methods[i]? = some m → m.isCandidate c.name = true →
        ∃ a plan, ((surveyAt c i).run.run db).1 = .ok (some (a, plan)) ∧ a.owner = c.name ∧
          a.method = m ∧ a.Clean plan := by
  have hheads : c.checkHeads = .ok () := (instrument_ways h).1
  constructor
  · have hnone := List.any_eq_false.1 (checkHeads_eq_ok_iff.1 hheads)
    intro m hm hsuspendable
    simpa [hsuspendable] using hnone m hm
  · intro i m hm hcandidate'
    obtain ⟨methods, hmethods⟩ := members_of_instrument hcandidate hdue h
    obtain ⟨m', db₁, db₂, hbefore, hturn, -⟩ := exists_of_run_mapM hmethods hm
    obtain ⟨db₃, hcalled, hrun, hsurvey⟩ := surveyAt_of_turn hheads hm hcandidate' hbefore hturn
    have hlearns : (db.record c.name (.known (.ofClass c))).Learns db₃ :=
      (learns_of_run (Asking.Learns.mapM (learns_instrumentMember c.name) _) hbefore).trans hcalled
    have hoptions : db₃.options = db.options := by
      rw [hlearns.options, Database.options_record]
    obtain ⟨a, plan, hfound, hclean⟩ := clean_of_candidate (hoptions.symm ▸ hblocking)
      (hoptions.symm ▸ hmonitors) (hlearns.knowsYield (hknown.record hclass)) hrun
    exact ⟨a, plan, hsurvey _ hfound, hclean⟩

theorem instrument_clean_worker :
    (∀ m ∈ worker.methods, m.isSuspendable = true → m.isSynchronized = false) ∧
      ∃ a plan, ((surveyAt worker 0).run.run (.new {} .empty)).1 = .ok (some (a, plan)) ∧
        plan.points = [Transforms.pausingPoint] ∧ a.Clean plan := by
  have hrun : ((instrument worker).run.run (.new {} .empty)).1 = .ok workerDone := by decide +kernel
  obtain ⟨hheads, hclean⟩ := instrument_clean rfl rfl (Database.knowsYield_new _ _)
    (fun hname => absurd hname (by decide)) (by decide) (.inl (by decide)) (Prod.ext hrun rfl)
  obtain ⟨a, plan, hsurvey, -, -, hclean⟩ := hclean 0 _ rfl (by decide)
  have hpoints : ((surveyAt worker 0).run.run (.new {} .empty)).1.map
      (Option.map fun found => found.2.points) = .ok (some [Transforms.pausingPoint]) := by
    decide +kernel
  rw [hsurvey] at hpoints
  exact ⟨hheads, a, plan, hsurvey, Option.some.inj (Except.ok.inj hpoints), hclean⟩

end Inquiry

end Resumable
