import Mathlib
import Resumable.Proofs.Flow.Settling
import Resumable.Proofs.Suspendable.Answers

/-!
# The analysis does not depend on history

All that the analysis asks the database is where two classes meet, so it comes to the same from any
database that knows the sources (`Sources.tries_analyze`). One thing is different from database to
database: the number of steps that are allowed, for it is counted by what has been learnt. But the
analysis is always done before they are spent, and more steps change nothing then
(`Sources.answers_settle`).
-/

namespace Resumable

namespace Sources

variable {src : Sources} {ε α β : Type}

/-! ## Putting questions together -/

namespace Steady

variable {x : Inquiry α}

theorem pure (a : α) : src.Steady (Pure.pure a) := (Answers.pure a).steady

theorem bind {k : α → Inquiry β} (h : src.Steady x) (hk : ∀ a, src.Steady (k a)) :
    src.Steady (x >>= k) := by
  obtain ⟨a, h⟩ := h
  obtain ⟨b, hk⟩ := hk a
  exact (h.bind hk).steady

theorem log (level : Level) {n : Notice} (hn : n.IsOther) : src.Steady (Inquiry.log level n) :=
  (Answers.log level hn).steady

end Steady

/-- A question that may fail comes to the same from any two databases that know the sources. -/
def Tries (src : Sources) (x : ExceptT ε Inquiry α) : Prop := src.Steady x.run

namespace Tries

variable {x : ExceptT ε Inquiry α}

theorem pure (a : α) : src.Tries (Pure.pure a : ExceptT ε Inquiry α) := Steady.pure _

theorem throw (e : ε) : src.Tries (throw e : ExceptT ε Inquiry α) := Steady.pure (Except.error e)

theorem bind {k : α → ExceptT ε Inquiry β} (h : src.Tries x) (hk : ∀ a, src.Tries (k a)) :
    src.Tries (x >>= k) := by
  unfold Tries
  rw [ExceptT.run_bind]
  refine Steady.bind h fun r => ?_
  rcases r with e | a
  · exact .pure _
  · exact hk a

theorem lift {q : Inquiry α} (h : src.Steady q) : src.Tries (liftM q : ExceptT ε Inquiry α) :=
  h.bind fun _ => .pure _

/-- All that is looked at in the database is the same in all that know the sources. -/
theorem ask {k : Database → ExceptT ε Inquiry α} (hk : ∀ db, src.Knows db → k db = x)
    (hx : src.Tries x) : src.Tries (getThe Database >>= k) := by
  obtain ⟨r, hr⟩ := hx
  refine ⟨r, show src.Answers (MonadState.get >>= fun db => (k db).run) r from
    .get fun db hdb => ?_⟩
  rwa [hk db hdb]

theorem mapM {f : α → ExceptT ε Inquiry β} (hf : ∀ a, src.Tries (f a)) (as : List α) :
    src.Tries (as.mapM f) := by
  induction as with
  | nil =>
    rw [List.mapM_nil]
    exact .pure _
  | cons a as ih =>
    rw [List.mapM_cons]
    exact (hf a).bind fun _ => ih.bind fun _ => .pure _

end Tries

/-! ## Frames -/

theorem steady_merge (hacyclic : src.IsAcyclic) (a b : FlowValue) : src.Steady (a.merge b) := by
  unfold FlowValue.merge
  split
  · exact .pure _
  split
  · exact .pure _
  · exact .pure _
  · split
    · exact .pure _
    · exact (steady_commonSuper hacyclic _ _).bind fun _ => .pure _
  · exact .pure _

theorem steady_mergeValues (hacyclic : src.IsAcyclic) (as bs : List FlowValue) :
    src.Steady (Frame.mergeValues as bs) := by
  induction as generalizing bs with
  | nil => exact .pure _
  | cons a as ih =>
    cases bs with
    | nil => exact .pure _
    | cons b bs =>
      rw [Frame.mergeValues]
      exact (steady_merge hacyclic a b).bind fun _ => (ih bs).bind fun _ => .pure _

theorem steady_mergeFrame (hacyclic : src.IsAcyclic) (f g : Frame) : src.Steady (f.merge g) := by
  unfold Frame.merge
  split
  · exact .pure _
  · exact (steady_mergeValues hacyclic _ _).bind fun _ =>
      (steady_mergeValues hacyclic _ _).bind fun _ => .pure _

/-! ## The course of control -/

section Control

variable {owner : String} {m : Method} {ranges : List HandlerRange}

theorem tries_attempt (index : Nat) (x : Except FlowError α) :
    src.Tries (Flow.attempt owner m index x) := by
  rcases x with e | a
  · exact .throw _
  · exact .pure _

theorem tries_flowInto (hacyclic : src.IsAcyclic) (source target : Nat) (f : Frame)
    (s : Flow.State) : src.Tries (Flow.flowInto owner m source target f s) := by
  unfold Flow.flowInto
  split
  · exact .pure _
  · exact (Tries.lift (steady_mergeFrame hacyclic _ f)).bind fun _ =>
      (tries_attempt _ _).bind fun _ => .pure _

theorem tries_flowIntoAll (hacyclic : src.IsAcyclic) (source : Nat)
    (brought : List (Nat × Frame)) (s : Flow.State) :
    src.Tries (Flow.flowIntoAll owner m source brought s) := by
  induction brought generalizing s with
  | nil => exact .pure _
  | cons b brought ih => exact (tries_flowInto hacyclic source b.1 b.2 s).bind ih

theorem tries_visit (hacyclic : src.IsAcyclic) (index : Nat) (i : Instr) (before : Frame)
    (s : Flow.State) : src.Tries (Flow.visit owner m ranges index i before s) := by
  unfold Flow.visit
  refine (tries_attempt _ _).bind fun after => ?_
  refine (Tries.mapM (fun l => tries_attempt _ _) _).bind fun targets => ?_
  refine (tries_flowIntoAll hacyclic _ _ _).bind fun s => ?_
  have hcaught (s : Flow.State) : src.Tries (Flow.flowIntoAll owner m index
      ((ranges.filter (·.covers index)).flatMap fun r =>
        [before.locals, after.locals].map fun locals => (r.target, ⟨locals, [.reference r.type]⟩)) s) :=
    tries_flowIntoAll hacyclic _ _ s
  split
  · split
    · exact (Tries.throw _).bind hcaught
    · exact (tries_flowInto hacyclic _ _ _ _).bind hcaught
  · exact hcaught s

end Control

end Sources

/-! ## The loop -/

namespace Sources

variable {src : Sources} {db : Database} {ε α β : Type}

namespace Answers

theorem unique {question : Inquiry α} {a b : α} (hdb : src.Knows db) (ha : src.Answers question a)
    (hb : src.Answers question b) : b = a :=
  (hb db hdb).1.symm.trans (ha db hdb).1

variable {x : ExceptT ε Inquiry α} {k : α → ExceptT ε Inquiry β}

theorem bind_ok {a : α} {r : Except ε β} (h : src.Answers x.run (.ok a))
    (hk : src.Answers (k a).run r) : src.Answers (x >>= k).run r := by
  rw [ExceptT.run_bind]
  exact h.bind hk

theorem bind_error {e : ε} (h : src.Answers x.run (.error e)) :
    src.Answers (x >>= k).run (.error e) := by
  rw [ExceptT.run_bind]
  exact h.bind (.pure _)

end Answers

section Looping

variable {owner : String} {m : Method} {ranges : List HandlerRange}

theorem settle_nil (code : Array Instr) (n : Nat) (frames : Array (Option Frame)) :
    Flow.settle owner m ranges code n ⟨frames, []⟩ = pure frames := by
  cases n <;> rfl

/-- What the loop comes to does not depend on what has been learnt, nor on the number of steps, if
they are enough. -/
theorem answers_settle (hacyclic : src.IsAcyclic) (code : Array Instr) (n : Nat) (s : Flow.State) :
    ∃ r, src.Answers (Flow.settle owner m ranges code n s).run r ∧
      (r ≠ .error (Flow.failure owner m 0 .unsettled) →
        ∀ k, src.Answers (Flow.settle owner m ranges code (n + k) s).run r) := by
  induction n generalizing s with
  | zero =>
    obtain ⟨frames, pending⟩ := s
    cases pending with
    | nil =>
      refine ⟨.ok frames, ?_, fun _ k => ?_⟩ <;> rw [settle_nil] <;> exact .pure _
    | cons index pending => exact ⟨.error _, .pure _, fun h => absurd rfl h⟩
  | succ n ih =>
    obtain ⟨frames, pending⟩ := s
    cases pending with
    | nil =>
      refine ⟨.ok frames, ?_, fun _ k => ?_⟩ <;> rw [settle_nil] <;> exact .pure _
    | cons index pending =>
      have hmore (k : Nat) : n + 1 + k = n + k + 1 := by omega
      simp only [hmore, Flow.settle]
      split
      · next i before _ _ =>
        obtain ⟨r, hvisit⟩ : src.Tries (Flow.visit owner m ranges index i before ⟨frames, pending⟩) :=
          tries_visit hacyclic index i before _
        rcases r with e | s
        · exact ⟨.error e, hvisit.bind_error, fun _ k => hvisit.bind_error⟩
        · obtain ⟨r, hr, hrest⟩ := ih s
          exact ⟨r, hvisit.bind_ok hr, fun h k => hvisit.bind_ok (hrest h k)⟩
      · exact ih _

end Looping

end Sources

/-! ## The whole analysis -/

/-- The computation does not look at the database. -/
def Plain {ε α : Type} (x : ExceptT ε Inquiry α) : Prop := ∃ r, ∀ db, x.run.run db = (r, db)

namespace Plain

variable {ε α β : Type} {x : ExceptT ε Inquiry α}

theorem pure (a : α) : Plain (Pure.pure a : ExceptT ε Inquiry α) := ⟨.ok a, fun _ => rfl⟩

theorem throw (e : ε) : Plain (throw e : ExceptT ε Inquiry α) := ⟨.error e, fun _ => rfl⟩

theorem bind {k : α → ExceptT ε Inquiry β} (h : Plain x) (hk : ∀ a, Plain (k a)) :
    Plain (x >>= k) := by
  obtain ⟨r, h⟩ := h
  rcases r with e | a
  · refine ⟨.error e, fun db => ?_⟩
    rw [ExceptT.run_bind, Inquiry.run_bind_of_eq (h db)]
    rfl
  · obtain ⟨r, hk⟩ := hk a
    refine ⟨r, fun db => ?_⟩
    rw [ExceptT.run_bind, Inquiry.run_bind_of_eq (h db)]
    exact hk db

theorem mapM {f : α → ExceptT ε Inquiry β} (hf : ∀ a, Plain (f a)) (as : List α) :
    Plain (as.mapM f) := by
  induction as with
  | nil =>
    rw [List.mapM_nil]
    exact .pure _
  | cons a as ih =>
    rw [List.mapM_cons]
    exact (hf a).bind fun _ => ih.bind fun _ => .pure _

end Plain

section Analyzing

variable {owner : String} {m : Method}

theorem plain_attempt {α : Type} (index : Nat) (x : Except FlowError α) :
    Plain (Flow.attempt owner m index x) := by
  rcases x with e | a
  · exact .throw _
  · exact .pure _

theorem plain_placeParams (first : Nat) (types : List FieldType) (f : Frame) :
    Plain (Flow.placeParams owner m first types f) := by
  induction types generalizing first f with
  | nil => exact .pure _
  | cons type types ih =>
    rw [Flow.placeParams]
    split
    · exact ih _ _
    · exact .throw _

theorem plain_entryFrame : Plain (Flow.entryFrame owner m) := by
  unfold Flow.entryFrame
  rcases MethodType.parse m.desc with cause | type
  · exact ⟨.error (.descriptor cause), fun _ => rfl⟩
  · dsimp only
    rw [pure_bind]
    split
    · exact plain_placeParams _ _ _
    split
    · exact .throw _
    · exact plain_placeParams _ _ _

theorem plain_handlerRange (h : Handler) : Plain (Flow.handlerRange owner m h) :=
  (plain_attempt _ _).bind fun _ => (plain_attempt _ _).bind fun _ =>
    (plain_attempt _ _).bind fun _ => .pure _

/-- Either the analysis does not look at the database, or all that it has to do is to run the loop. -/
theorem analyze_cases (owner : String) (m : Method) :
    (∃ r, ∀ db, (analyze owner m).run.run db = (r, db)) ∨
      ∃ ranges entry, ∀ db, (analyze owner m).run.run db =
        (Flow.settle owner m ranges m.code.toArray (Flow.stepBound m db.reach)
          (Flow.start m entry)).run.run db := by
  unfold analyze
  obtain ⟨ranges, hranges⟩ : Plain (m.handlers.mapM (Flow.handlerRange owner m)) :=
    .mapM plain_handlerRange _
  rcases ranges with e | ranges
  · refine .inl ⟨.error e, fun db => ?_⟩
    rw [ExceptT.run_bind, Inquiry.run_bind_of_eq (hranges db)]
    rfl
  have hrest {α : Type} {k : List HandlerRange → Flow.Attempt α} (db : Database) :
      (m.handlers.mapM (Flow.handlerRange owner m) >>= k).run.run db = (k ranges).run.run db := by
    rw [ExceptT.run_bind, Inquiry.run_bind_of_eq (hranges db)]
  simp only [hrest]
  split
  · exact .inl ⟨_, fun db => rfl⟩
  obtain ⟨entry, hentry⟩ : Plain (Flow.entryFrame owner m) := plain_entryFrame
  rcases entry with e | entry
  · refine .inl ⟨.error e, fun db => ?_⟩
    rw [ExceptT.run_bind, Inquiry.run_bind_of_eq (hentry db)]
    rfl
  · refine .inr ⟨ranges, entry, fun db => ?_⟩
    rw [ExceptT.run_bind, Inquiry.run_bind_of_eq (hentry db)]
    rfl

end Analyzing

namespace Sources

variable {src : Sources} {owner : String} {m : Method}

/-- If it is steady for those who know that there is a database that knows the sources, it is. -/
theorem Steady.of_knows {α : Type} {question : Inquiry α}
    (h : ∀ db, src.Knows db → src.Steady question) : src.Steady question := by
  by_cases hknown : ∃ db, src.Knows db
  · obtain ⟨db, hdb⟩ := hknown
    exact h db hdb
  · exact ⟨(question.run (.new {} .empty)).1, fun db hdb => absurd ⟨db, hdb⟩ hknown⟩

/-- **The analysis does not depend on what has been asked before.** -/
theorem tries_analyze (hacyclic : src.IsAcyclic) (owner : String) (m : Method) :
    src.Tries (analyze owner m) := by
  rcases analyze_cases owner m with ⟨r, hr⟩ | ⟨ranges, entry, hsettle⟩
  · refine ⟨r, fun db hdb => ?_⟩
    rw [hr db]
    exact ⟨rfl, hdb⟩
  refine .of_knows fun db₀ hdb₀ => ?_
  have hloop (n : Nat) :
      ∃ r, src.Answers (Flow.settle owner m ranges m.code.toArray n (Flow.start m entry)).run r ∧
        (r ≠ .error (Flow.failure owner m 0 .unsettled) → ∀ k,
          src.Answers (Flow.settle owner m ranges m.code.toArray (n + k) (Flow.start m entry)).run r) :=
    answers_settle hacyclic m.code.toArray n (Flow.start m entry)
  -- The loop is done in either database, so it is done in the same way whoever allows more steps.
  have hdone (db : Database) {r : Except InstrumentError (Array (Option Frame))}
      (hdb : src.Knows db) (hr : src.Answers (Flow.settle owner m ranges m.code.toArray
        (Flow.stepBound m db.reach) (Flow.start m entry)).run r) :
      r ≠ .error (Flow.failure owner m 0 .unsettled) := by
    rw [← (hr db hdb).1, ← hsettle db]
    exact Flow.analyze_settles owner m db
  obtain ⟨r₀, hr₀, hmore₀⟩ := hloop (Flow.stepBound m db₀.reach)
  refine ⟨r₀, fun db hdb => ?_⟩
  obtain ⟨r, hr, hmore⟩ := hloop (Flow.stepBound m db.reach)
  have heq : r = r₀ := by
    rcases Nat.le_total (Flow.stepBound m db₀.reach) (Flow.stepBound m db.reach) with hle | hle
    · have hsame := hmore₀ (hdone db₀ hdb₀ hr₀) (Flow.stepBound m db.reach - Flow.stepBound m db₀.reach)
      rw [Nat.add_sub_cancel' hle] at hsame
      exact hsame.unique hdb₀ hr
    · have hsame := hmore (hdone db hdb hr) (Flow.stepBound m db₀.reach - Flow.stepBound m db.reach)
      rw [Nat.add_sub_cancel' hle] at hsame
      exact hr₀.unique hdb₀ hsame
  rw [hsettle db, ← heq]
  exact hr db hdb

end Sources

end Resumable
