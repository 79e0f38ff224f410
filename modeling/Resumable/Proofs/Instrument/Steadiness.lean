import Mathlib
import Resumable.Instrument.Class
import Resumable.Proofs.Flow.Steadiness
import Resumable.Proofs.Instrument.Layout

/-!
# Instrumenting does not depend on history

Planning asks whether calls may suspend and keeps account of what it has warned of; writing a body
asks for the options alone and keeps an account too. From any account, both come to the same with any
database that knows the sources (`Sources.Minds`, `Sources.Writes`).

What instrumenting a class adds to the database is what the check of the batch has put there already.
So it, too, comes to the same (`Sources.tries_instrument`).
-/

namespace Resumable

namespace Sources

variable {src : Sources} {α β σ : Type}

/-! ## Keeping account -/

/-- From any account, the computation comes to the same with any two databases that know the
sources. -/
def Minds (src : Sources) (x : StateT σ Inquiry α) : Prop := ∀ account, src.Steady (x.run account)

namespace Minds

variable {x : StateT σ Inquiry α}

theorem pure (a : α) : src.Minds (Pure.pure a : StateT σ Inquiry α) := fun _ => .pure _

theorem bind {k : α → StateT σ Inquiry β} (h : src.Minds x) (hk : ∀ a, src.Minds (k a)) :
    src.Minds (x >>= k) :=
  fun account => (h account).bind fun r => hk r.1 r.2

theorem lift {q : Inquiry α} (h : src.Steady q) : src.Minds (liftM q : StateT σ Inquiry α) :=
  fun account => show src.Steady (q >>= fun a => Pure.pure (a, account)) from h.bind fun _ => .pure _

theorem modify (f : σ → σ) : src.Minds (modify f : StateT σ Inquiry PUnit) := fun _ => .pure _

theorem get : src.Minds (get : StateT σ Inquiry σ) := fun _ => .pure _

/-- All that is looked at in the database is the same in all that know the sources. -/
theorem ask {k : Database → StateT σ Inquiry α} (hk : ∀ db, src.Knows db → k db = x)
    (hx : src.Minds x) : src.Minds (getThe Database >>= k) := by
  intro account
  obtain ⟨a, ha⟩ := hx account
  refine ⟨a, show src.Answers (MonadState.get >>= fun db => (k db).run account) a from
    .get fun db hdb => ?_⟩
  rwa [hk db hdb]

end Minds

/-! ## Plans -/

section Planning

variable {a : Analysed}

theorem steady_isSuspendable (hacyclic : src.IsAcyclic) (owner method desc : String)
    (searchSuper : Bool) : src.Steady (Inquiry.isSuspendable owner method desc searchSuper) :=
  .of_knows fun _ hdb =>
    have ⟨_, hanswer⟩ := exists_suspends hacyclic hdb owner method desc searchSuper
    (answers_isSuspendable hacyclic owner method desc searchSuper hanswer).steady

theorem minds_planCall (hacyclic : src.IsAcyclic) (index : Nat) (op : Opcode) (callee : MemberRef)
    (f : Frame) : src.Minds (a.planCall index op callee f) := by
  unfold Analysed.planCall
  refine (Minds.lift (steady_isSuspendable hacyclic _ _ _ _)).bind fun suspendable => ?_
  split
  · refine (Minds.lift (.log _ (n := .suspendableCall index callee.owner callee.name callee.desc)
      trivial)).bind fun _ => ?_
    dsimp only
    split
    · exact .pure _
    refine (Minds.modify _).bind fun _ => ?_
    split
    · exact .pure _
    · exact (Minds.modify _).bind fun _ => .pure _
  · split
    · exact .pure _
    refine .ask (fun db hdb => by rw [hdb.options]) ?_
    split
    · exact .pure _
    refine Minds.get.bind fun progress => ?_
    split
    · exact (Minds.modify _).bind fun _ => (Minds.lift (.log _ (n := .blocking a.owner a.method.name
        a.method.desc callee.owner callee.name callee.desc) trivial)).bind fun _ => .pure _
    · exact .pure _

theorem minds_planCalls (hacyclic : src.IsAcyclic) (is : List (Instr × Nat)) :
    src.Minds (a.planCalls is) := by
  induction is with
  | nil => exact .pure _
  | cons i is ih =>
    obtain ⟨i, index⟩ := i
    unfold Analysed.planCalls
    split
    · refine (minds_planCall hacyclic _ _ _ _).bind fun outcome => ?_
      split
      · exact .pure _
      · exact ih
    · exact ih

theorem steady_plan (hacyclic : src.IsAcyclic) : src.Steady a.plan :=
  (minds_planCalls hacyclic _ {}).bind fun _ => .pure _

end Planning

/-! ## Bodies -/

section Bodies

open Analysed (Writing)

variable {a : Analysed}

/-- From any account, writing comes to the same with any two databases that know the sources. -/
def Writes (src : Sources) (x : Writing α) : Prop := src.Minds x.run

namespace Writes

variable {x : Writing α}

theorem pure (r : α) : src.Writes (Pure.pure r : Writing α) := Minds.pure _

theorem throw (e : InstrumentError) : src.Writes (throw e : Writing α) := Minds.pure (Except.error e)

theorem bind {k : α → Writing β} (h : src.Writes x) (hk : ∀ r, src.Writes (k r)) :
    src.Writes (x >>= k) := by
  unfold Writes
  rw [ExceptT.run_bind]
  refine Minds.bind h fun r => ?_
  rcases r with e | r
  · exact .pure _
  · exact hk r

theorem lift {y : StateT Analysed.Account Inquiry α} (h : src.Minds y) :
    src.Writes (liftM y : Writing α) :=
  h.bind fun _ => .pure _

theorem mapM {f : α → Writing β} (hf : ∀ r, src.Writes (f r)) (rs : List α) :
    src.Writes (rs.mapM f) := by
  induction rs with
  | nil =>
    rw [List.mapM_nil]
    exact .pure _
  | cons r rs ih =>
    rw [List.mapM_cons]
    exact (hf r).bind fun _ => ih.bind fun _ => .pure _

theorem notice (level : Level) {n : Notice} (hn : n.IsOther) :
    src.Writes (Analysed.notice level n) :=
  .lift (.lift (.log level hn))

theorem ask {k : Database → Writing α} (hk : ∀ db, src.Knows db → k db = x)
    (hx : src.Writes x) : src.Writes (getThe Database >>= k) :=
  Minds.ask (k := fun db => (k db).run) (fun db hdb => congrArg ExceptT.run (hk db hdb)) hx

end Writes

theorem writes_deferredAllocation (omitted : List Nat) (index : Nat) (desc : String) :
    src.Writes (a.deferredAllocation omitted index desc) := by
  unfold Analysed.deferredAllocation
  split
  · exact .pure _
  rcases MethodType.parse desc with cause | type
  · exact (Writes.throw (.descriptor cause))
  dsimp only
  rw [pure_bind]
  split
  · split
    · split
      · exact .pure _
      split
      · exact .throw _
      · exact (Writes.lift (.modify _)).bind fun _ => .pure _
    · exact (Writes.notice _ (n := .noObjectAt _ _) trivial).bind fun _ => .pure _
  · exact (Writes.notice _ (n := .noReceiverBelow _ _) trivial).bind fun _ => .pure _

theorem writes_leadIn (omitted : List Nat) (index : Nat) (i : Instr) :
    src.Writes (a.leadIn omitted index i) := by
  unfold Analysed.leadIn
  split
  · split
    · exact .pure _
    split
    · refine .ask (fun db hdb => by rw [hdb.options]) ?_
      split
      · exact .throw _
      refine (Writes.lift .get).bind fun account => ?_
      split
      · exact (Writes.lift (.modify _)).bind fun _ =>
          (Writes.notice _ (n := .monitors _ _ _) trivial).bind fun _ => .pure _
      · exact .pure _
    · exact .pure _
  · split
    · exact writes_deferredAllocation _ _ _
    · exact .pure _
  · exact .pure _

theorem writes_segment (omitted : List Nat) (is : List (Instr × Nat)) :
    src.Writes (a.segment omitted is) := by
  induction is with
  | nil => exact .pure _
  | cons i is ih =>
    obtain ⟨i, index⟩ := i
    unfold Analysed.segment
    split
    · exact ih
    · exact (writes_leadIn _ _ _).bind fun _ => ih.bind fun _ => .pure _

theorem writes_pointsCode (omitted : List Nat) (entry : Nat) (points : List SuspensionPoint)
    (resume before after : List Label) :
    src.Writes (a.pointsCode omitted entry points resume before after) := by
  induction points generalizing entry resume before after with
  | nil => exact .pure _
  | cons p points ih =>
    rcases resume with - | ⟨_, resume⟩
    · exact .pure _
    rcases before with - | ⟨_, before⟩
    · exact .pure _
    rcases after with - | ⟨_, after⟩
    · exact .pure _
    · exact (writes_segment _ _).bind fun _ => (ih _ _ _ _).bind fun _ => .pure _

theorem writes_cutRange (code : List Instr) (before after : Label) (range : Label × Label) :
    src.Writes (a.cutRange code before after range) := by
  have hplace (l : Label) : src.Writes (a.cutPlace code l) := by
    unfold Analysed.cutPlace
    split
    · exact .pure _
    · exact .throw _
  refine (hplace _).bind fun _ => (hplace _).bind fun _ => (hplace _).bind fun _ => ?_
  split
  · refine (hplace _).bind fun _ => ?_
    split
    · exact (Writes.notice _ (n := .splitting _ _ _ _) trivial).bind fun _ => .pure _
    · exact .pure _
  · exact .pure _

theorem writes_cutRanges (code : List Instr) (stretches ranges : List (Label × Label)) :
    src.Writes (a.cutRanges code stretches ranges) := by
  induction stretches generalizing ranges with
  | nil => exact .pure _
  | cons stretch stretches ih =>
    obtain ⟨before, after⟩ := stretch
    exact (Writes.mapM (writes_cutRange code before after) _).bind fun _ => ih _

theorem writes_cutHandlers (code : List Instr) (labels : BodyLabels) :
    src.Writes (a.cutHandlers code labels) :=
  (Writes.mapM (fun _ => (writes_cutRanges _ _ _).bind fun _ => .pure _) _).bind fun _ => .pure _

theorem writes_transformed (plan : MethodPlan) (first : SuspensionPoint) :
    src.Writes (a.transformed plan first) := by
  unfold Analysed.transformed
  refine (Writes.notice _ (n := .instrumenting _ _ _) trivial).bind fun _ => ?_
  dsimp only
  split
  · exact .throw _
  refine (writes_segment _ _).bind fun _ => (writes_pointsCode _ _ _ _ _ _).bind fun _ =>
    (writes_cutHandlers _ _).bind fun _ => (Writes.lift .get).bind fun _ => ?_
  split
  · exact .throw _
  · exact .pure _

theorem tries_body (plan : MethodPlan) : src.Tries (a.body plan) := by
  unfold Analysed.body
  split
  · exact .pure _
  · next first _ _ =>
    have hwrites : src.Steady ((a.transformed plan first).run.run {}) := writes_transformed plan first {}
    refine (Tries.lift hwrites).bind fun r => ?_
    obtain ⟨outcome, account⟩ := r
    rcases outcome with e | m
    · exact .throw _
    · exact .pure _

end Bodies

/-! ## Classes -/

section Classes

/-- A class whose facts the database may take in again. -/
theorem Knows.record {db : Database} {c : ClassDef} (h : src.Knows db)
    (henrolled : src.enrolled? c.name = some c) :
    src.Knows (db.record c.name (.known (.ofClass c))) := by
  obtain ⟨fact, hfact⟩ := Option.isSome_iff_exists.1 (h.enrolled c.name (by simp [henrolled]))
  have hknown : db.fact? c.name = some (.known (.ofClass c)) := by
    rw [hfact, h.fact _ _ hfact, fact_of_class (class?_of_enrolled henrolled)]
  refine h.of_same (Database.resolver_record ..) (Database.options_record ..)
    (funext fun name => ?_) (Database.supers_record ..) (Database.misses_record ..)
  rw [Database.fact?_record]
  split
  · next heq => rw [heq, hknown]
  · rfl

theorem tries_enroll {c : ClassDef} (henrolled : src.enrolled? c.name = some c) :
    src.Tries (Inquiry.enroll c) := by
  unfold Inquiry.enroll
  split
  · exact .throw _
  · exact ⟨.ok ⟨⟩, fun db hdb => ⟨rfl, hdb.record henrolled⟩⟩

theorem tries_instrumentCandidate (hacyclic : src.IsAcyclic) (owner : String) (m : Method) :
    src.Tries (Inquiry.instrumentCandidate owner m) := by
  unfold Inquiry.instrumentCandidate
  refine Tries.bind ((tries_analyze hacyclic owner m).bind fun _ => .pure _) fun a => ?_
  refine (Tries.lift (steady_plan hacyclic)).bind fun planned => ?_
  obtain ⟨plan, outcome⟩ := planned
  rcases outcome with e | ⟨⟨⟩⟩
  · exact .throw _
  dsimp only
  split
  · exact .pure _
  split
  · exact .throw _
  · exact tries_body plan

theorem tries_instrumentMember (hacyclic : src.IsAcyclic) (owner : String) (m : Method) :
    src.Tries (Inquiry.instrumentMember owner m) := by
  unfold Inquiry.instrumentMember
  split
  · exact .pure _
  refine .ask (fun db hdb => by rw [hdb.options]) ?_
  split
  · exact (Tries.lift (.log _ (n := .instrumentingMember _ _) trivial)).bind fun _ =>
      tries_instrumentCandidate hacyclic owner m
  · exact tries_instrumentCandidate hacyclic owner m

/-- **What instrumenting a class comes to does not depend on what has been asked before.** -/
theorem tries_instrument (hacyclic : src.IsAcyclic) {c : ClassDef}
    (henrolled : src.enrolled? c.name = some c) : src.Tries (Inquiry.instrument c) := by
  unfold Inquiry.instrument
  refine (tries_enroll henrolled).bind fun _ => ?_
  have hmembers : src.Tries (do
      let methods ← c.methods.mapM (Inquiry.instrumentMember c.name)
      let markers := if c.isMarked then c.markers else c.markers ++ [Names.instrumented]
      return { c with methods, markers }) :=
    (Tries.mapM (tries_instrumentMember hacyclic c.name) _).bind fun _ => .pure _
  split
  · exact .pure _
  refine .ask (fun db hdb => by rw [hdb.options]) ?_
  split
  · exact (Tries.lift (.log _ (n := .skipped _) trivial)).bind fun _ => .pure _
  · exact hmembers

end Classes

end Sources

end Resumable
