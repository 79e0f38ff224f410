import Mathlib
import Resumable.Proofs.Suspendable.Knowledge

/-!
# Answers that do not depend on history

`src.Answers question answer` says that any database that knows the sources gives this answer, and
still knows the sources afterwards; `src.Steady question` says that there is such an answer. Both are
kept when questions are put together, so it is enough to look at the questions that read or write the
database themselves: what is known of a class (`answers_factOf`), and what its ancestor is
(`answers_superOf`).

From there the walks along ancestors are followed up to the four questions that are put to a
database from outside.
-/

namespace Resumable

/-! ## Notices -/

namespace Notice

/-- The notice does not say that there is no such class, and its text is known. -/
def IsOther : Notice → Prop
  | .classNotFound _ | .other _ => False
  | _ => True

theorem text_classNotFound_inj {a b : String}
    (h : (Notice.classNotFound a).text = (Notice.classNotFound b).text) : a = b := by
  unfold text at h
  rwa [String.append_right_inj] at h

theorem append_ne_of_start {a b s t : String} (h : a.toList.take 2 ≠ b.toList.take 2)
    (ha : 2 ≤ a.toList.length) (hb : 2 ≤ b.toList.length) : a ++ s ≠ b ++ t := by
  intro heq
  have hstart := congrArg (fun s => s.toList.take 2) heq
  simp only [String.toList_append] at hstart
  rw [List.take_append_of_le_length ha, List.take_append_of_le_length hb] at hstart
  exact h hstart

/-- Two letters are enough to tell it from other notices. -/
theorem IsOther.text_ne {n : Notice} (h : n.IsOther) (name : String) :
    n.text ≠ (Notice.classNotFound name).text := by
  cases n
  case classNotFound | other => exact h.elim
  all_goals
    unfold text
    dsimp only
    try simp only [String.append_assoc]
    exact append_ne_of_start (by decide) (by decide) (by decide)

end Notice

namespace Database

variable {db : Database} {level : Level} {n : Notice}

theorem misses_append (db : Database) (notices : List (Level × String)) (name : String) :
    ({ db with notices := db.notices ++ notices } : Database).misses name =
      db.misses name + notices.count (.warning, (Notice.classNotFound name).text) :=
  List.count_append

theorem misses_log (h : n.IsOther) : (db.log level n).misses = db.misses := by
  funext name
  unfold log
  split
  · have hne : (level, n.text) ≠ (.warning, (Notice.classNotFound name).text) := fun heq =>
      h.text_ne name (Prod.mk.inj heq).2
    rw [misses_append, List.count_eq_zero_of_not_mem (by simpa using hne.symm), Nat.add_zero]
  · rfl

theorem fact?_log (level : Level) (n : Notice) : (db.log level n).fact? = db.fact? := by
  unfold log
  split <;> rfl

theorem supers_log (level : Level) (n : Notice) : (db.log level n).supers = db.supers := by
  unfold log
  split <;> rfl

theorem resolver_log (level : Level) (n : Notice) : (db.log level n).resolver = db.resolver := by
  unfold log
  split <;> rfl

theorem options_log (level : Level) (n : Notice) : (db.log level n).options = db.options := by
  unfold log
  split <;> rfl

theorem log_warning (db : Database) (n : Notice) :
    db.log .warning n = { db with notices := db.notices ++ [(.warning, n.text)] } := if_pos rfl

/-- A fact is taken in, perhaps with a warning. -/
theorem record_cases (db : Database) (name : String) (fact : Fact) :
    db.record name fact = { db with facts := (name, fact) :: db.facts } ∨
      db.record name fact =
        ({ db with facts := (name, fact) :: db.facts } : Database).log .warning
          (.contradiction name) := by
  unfold record
  split
  · split
    · exact .inl rfl
    · exact .inr rfl
  · exact .inl rfl

/-- A fact that is taken in counts from then on. -/
theorem fact?_record (db : Database) (name : String) (fact : Fact) (other : String) :
    (db.record name fact).fact? other = if other = name then some fact else db.fact? other := by
  have hfirst : ({ db with facts := (name, fact) :: db.facts } : Database).fact? other =
      if other = name then some fact else db.fact? other := by
    rw [fact?, List.lookup_cons]
    by_cases heq : other = name
    · rw [if_pos heq, heq, beq_self_eq_true]
    · rw [if_neg heq, beq_eq_false_iff_ne.2 heq]
      rfl
  rcases db.record_cases name fact with h | h
  · rw [h, hfirst]
  · rw [h, fact?_log, hfirst]

theorem supers_record (db : Database) (name : String) (fact : Fact) :
    (db.record name fact).supers = db.supers := by
  rcases db.record_cases name fact with h | h
  · rw [h]
  · rw [h, supers_log]

theorem resolver_record (db : Database) (name : String) (fact : Fact) :
    (db.record name fact).resolver = db.resolver := by
  rcases db.record_cases name fact with h | h
  · rw [h]
  · rw [h, resolver_log]

theorem options_record (db : Database) (name : String) (fact : Fact) :
    (db.record name fact).options = db.options := by
  rcases db.record_cases name fact with h | h
  · rw [h]
  · rw [h, options_log]

theorem misses_record (db : Database) (name : String) (fact : Fact) :
    (db.record name fact).misses = db.misses := by
  rcases db.record_cases name fact with h | h
  · rw [h]
    rfl
  · rw [h, misses_log (n := .contradiction name) trivial]
    rfl

theorem record_of_none {name : String} (h : db.fact? name = none) (fact : Fact) :
    db.record name fact = { db with facts := (name, fact) :: db.facts } := by
  unfold record
  rw [h]

end Database

namespace Sources

variable {src : Sources} {db : Database} {name : String} {c : ClassDef} {α β : Type}

theorem Knows.log {level : Level} {n : Notice} (h : src.Knows db) (hn : n.IsOther) :
    src.Knows (db.log level n) :=
  h.of_same (Database.resolver_log level n) (Database.options_log level n)
    (Database.fact?_log level n) (Database.supers_log level n) (Database.misses_log hn)

/-! ## Answers -/

/-- Any database that knows the sources gives this answer, and still knows the sources. -/
def Answers (src : Sources) (question : Inquiry α) (answer : α) : Prop :=
  ∀ db, src.Knows db → (question.run db).1 = answer ∧ src.Knows (question.run db).2

/-- Any two databases that know the sources give the same answer. -/
def Steady (src : Sources) (question : Inquiry α) : Prop := ∃ answer, src.Answers question answer

namespace Answers

variable {question : Inquiry α} {a : α} {b : β}

theorem steady (h : src.Answers question a) : src.Steady question := ⟨a, h⟩

theorem pure (a : α) : src.Answers (Pure.pure a) a := fun _ h => ⟨rfl, h⟩

theorem bind {k : α → Inquiry β} (h : src.Answers question a) (hk : src.Answers (k a) b) :
    src.Answers (question >>= k) b := by
  intro db hdb
  obtain ⟨hanswer, hknows⟩ := h db hdb
  rcases hrun : question.run db with ⟨answer, db'⟩
  rw [hrun] at hanswer hknows
  rw [Inquiry.run_bind_of_eq hrun, show answer = a from hanswer]
  exact hk db' hknows

/-- A question that looks at the database first. -/
theorem get {k : Database → Inquiry α} (h : ∀ db, src.Knows db → src.Answers (k db) a) :
    src.Answers (MonadState.get >>= k) a :=
  fun db hdb => h db hdb db hdb

theorem log (level : Level) {n : Notice} (hn : n.IsOther) : src.Answers (Inquiry.log level n) ⟨⟩ :=
  fun _ hdb => ⟨rfl, hdb.log hn⟩

end Answers

/-! ## What is known of a class -/

/-- What is known of a class that the platform does not own. -/
theorem answers_factOf (hplatform : Names.isPlatform name = false) :
    src.Answers (Inquiry.factOf name) (src.fact name) := by
  intro db hdb
  unfold Inquiry.factOf
  rw [Inquiry.run_bind_of_eq (show (get : Inquiry Database).run db = (db, db) from rfl)]
  split
  · next fact hfact => exact ⟨hdb.fact name fact hfact, hdb⟩
  · next hnone =>
    have henrolled : src.enrolled? name = none := by
      by_contra h
      have := hdb.enrolled name (Option.isSome_iff_ne_none.2 h)
      rw [hnone] at this
      cases this
    have hreading : src.Knows (db.log .info (.readingClass name)) := hdb.log trivial
    have hunknown : (db.log .info (.readingClass name)).fact? name = none := by
      rw [Database.fact?_log, hnone]
    have hclass : src.class? name = (db.log .info (.readingClass name)).resolver.find name := by
      rw [class?_of_not_enrolled henrolled, hreading.resolver]
    rw [Inquiry.run_bind_of_eq
      (show (Inquiry.log .info (.readingClass name)).run db = (⟨⟩, db.log .info (.readingClass name))
        from rfl)]
    rw [Inquiry.run_bind_of_eq (show (get : Inquiry Database).run (db.log .info (.readingClass name)) =
      (db.log .info (.readingClass name), db.log .info (.readingClass name)) from rfl)]
    generalize db.log .info (.readingClass name) = db₁ at *
    split
    · next c hfind =>
      have hfact : src.fact name = .known (.ofClass c) := fact_of_class (hclass.trans hfind)
      refine ⟨hfact.symm, ?_⟩
      have hlearnt := hreading.learn hunknown hplatform [] (by simp)
      rw [hfact, List.append_nil] at hlearnt
      show src.Knows (db₁.record name _)
      rwa [Database.record_of_none hunknown]
    · next hfind =>
      have hfact : src.fact name = .notFound := fact_of_none (hclass.trans hfind)
      refine ⟨hfact.symm, ?_⟩
      have hlearnt := hreading.learn hunknown hplatform
        [(.warning, (Notice.classNotFound name).text)] fun other => by
          rw [List.count_singleton]
          by_cases heq : other = name
          · simp [heq]
          · have hne : (Notice.classNotFound name).text ≠ (Notice.classNotFound other).text :=
              fun h => heq (Notice.text_classNotFound_inj h).symm
            simp [heq, hne]
      rw [hfact] at hlearnt
      show src.Knows ((db₁.log .warning (.classNotFound name)).record name _)
      rw [Database.record_of_none (by rw [Database.fact?_log, hunknown]), Database.log_warning]
      exact hlearnt

/-! ## Whether a call may suspend -/

/-- The walk of the database tells what the walk over the sources tells, if enough steps are left. -/
theorem answers_findFlag (hacyclic : src.IsAcyclic) (hdb : src.Knows db) (method desc : String)
    (searchSuper : Bool) {steps : Nat} (hsteps : src.rank name < steps) :
    ∃ flag, src.Answers (Inquiry.findFlag method desc searchSuper steps name) flag ∧
      src.Verdict (method ++ desc) searchSuper name (flag.getD true) := by
  induction steps generalizing name with
  | zero => omega
  | succ steps ih =>
    unfold Inquiry.findFlag
    by_cases hplatform : Names.isPlatform name = true
    · rw [if_pos hplatform]
      exact ⟨some false, .pure _, .platform hplatform⟩
    rw [if_neg hplatform]
    replace hplatform : Names.isPlatform name = false := by simpa using hplatform
    have hfactOf : src.Answers (Inquiry.factOf name) (src.fact name) := answers_factOf hplatform
    rcases hclass : src.class? name with - | c
    · rw [fact_of_none hclass] at hfactOf
      exact ⟨some true, hfactOf.bind (.pure _), .missing hplatform hclass⟩
    rw [fact_of_class hclass] at hfactOf
    rcases hflag : c.flagOf? (method ++ desc) with - | flag
    · rcases hsearch : searchSuper with - | -
      · refine ⟨none, hfactOf.bind ?_, .exhausted hplatform hclass hflag (.inl rfl)⟩
        dsimp only
        rw [ClassFacts.check?_ofClass, hflag]
        exact .pure _
      rcases hsuper : c.superName with - | above
      · refine ⟨none, hfactOf.bind ?_, .exhausted hplatform hclass hflag (.inr hsuper)⟩
        dsimp only
        rw [ClassFacts.check?_ofClass, hflag, ClassFacts.superName_ofClass, hsuper]
        exact .pure _
      · have hlt := hdb.rank_lt hacyclic ((parent?_of_class hplatform hclass).trans hsuper)
        have hless : src.rank above < steps := by omega
        obtain ⟨flag, hrest, hverdict⟩ := ih hless
        rw [hsearch] at hrest hverdict
        refine ⟨flag, hfactOf.bind ?_, .inherited hplatform hclass hflag rfl hsuper hverdict⟩
        dsimp only
        rw [ClassFacts.check?_ofClass, hflag, ClassFacts.superName_ofClass, hsuper]
        exact hrest
    · refine ⟨some flag, hfactOf.bind ?_, .declared hplatform hclass hflag⟩
      dsimp only
      rw [ClassFacts.check?_ofClass, hflag]
      exact .pure _

/-- **Whether a call may suspend does not depend on what has been asked before.** -/
theorem answers_isSuspendable (hacyclic : src.IsAcyclic) (owner method desc : String)
    (searchSuper : Bool) {answer : Bool} (h : src.Suspends owner method desc searchSuper answer) :
    src.Answers (Inquiry.isSuspendable owner method desc searchSuper) answer := by
  unfold Inquiry.isSuspendable
  unfold Suspends at h
  split at h
  · next hnever =>
    rw [if_pos hnever, h]
    exact .pure _
  · next hwalk =>
    rw [if_neg hwalk]
    refine .get fun db hdb => ?_
    obtain ⟨flag, hflag, hverdict⟩ :=
      answers_findFlag hacyclic hdb method desc searchSuper (hdb.rank_lt_reach owner)
    refine hflag.bind ?_
    rw [hverdict.unique h]
    rcases flag with - | flag
    · exact (Answers.log .warning (n := .methodNotFound owner method desc) trivial).bind (.pure _)
    · exact .pure _

/-- The walk over the sources always tells something. -/
theorem exists_suspends (hacyclic : src.IsAcyclic) (hdb : src.Knows db)
    (owner method desc : String) (searchSuper : Bool) :
    ∃ answer, src.Suspends owner method desc searchSuper answer := by
  unfold Suspends
  split
  · exact ⟨false, rfl⟩
  · obtain ⟨flag, -, hverdict⟩ :=
      answers_findFlag hacyclic hdb method desc searchSuper (hdb.rank_lt_reach owner)
    exact ⟨_, hverdict⟩

/-! ## Ancestors -/

theorem answers_superOf (name : String) : src.Answers (Inquiry.superOf name) (src.parent? name) := by
  intro db hdb
  refine ⟨(Inquiry.superOf_spec db name).1.trans (congrFun hdb.parent name), ?_⟩
  unfold Inquiry.superOf
  rw [Inquiry.run_bind_of_eq (show (get : Inquiry Database).run db = (db, db) from rfl)]
  split
  · exact hdb
  · split
    · exact hdb
    · next hnone =>
      split
      · next habove => exact hdb.learnSuper hnone habove
      · exact hdb

theorem answers_ancestors (steps : Nat) (name : String) :
    src.Answers (Inquiry.ancestors steps name) (lineage src.parent? steps name) := by
  induction steps generalizing name with
  | zero => exact .pure _
  | succ steps ih =>
    unfold Inquiry.ancestors lineage
    by_cases hroot : name = Names.object
    · rw [if_pos hroot, if_pos hroot]
      exact .pure _
    · rw [if_neg hroot, if_neg hroot]
      have hsuper : src.Answers _ _ := answers_superOf name
      rcases hparent : src.parent? name with - | above
      · rw [hparent] at hsuper
        exact hsuper.bind ((Answers.log .warning (n := .noAncestor name) trivial).bind (.pure _))
      · rw [hparent] at hsuper
        exact hsuper.bind ((ih above).bind (.pure _))

/-- The line of a class is the same with any number of steps above its rank. -/
theorem lineage_eq_of_rank_lt (hacyclic : src.IsAcyclic) (hdb : src.Knows db) {n k : Nat}
    (hn : src.rank name < n) (hk : src.rank name < k) :
    lineage src.parent? n name = lineage src.parent? k name := by
  induction n generalizing name k with
  | zero => omega
  | succ n ih =>
    obtain ⟨k, rfl⟩ : ∃ k', k = k' + 1 := ⟨k - 1, by omega⟩
    unfold lineage
    split
    · rfl
    · rcases hparent : src.parent? name with - | above
      · rfl
      · have hlt := hdb.rank_lt hacyclic hparent
        have hrest : lineage src.parent? n above = lineage src.parent? k above :=
          ih (by omega) (by omega)
        rw [Option.bind_some, Option.bind_some, hrest]

theorem steady_commonSuper (hacyclic : src.IsAcyclic) (a b : String) :
    src.Steady (Inquiry.commonSuper a b) := by
  let line (name : String) : Option (List String) := lineage src.parent? (src.rank name + 1) name
  have hline (db : Database) (hdb : src.Knows db) (name : String) :
      src.Answers (Inquiry.ancestors db.reach name) (line name) := by
    have hanswer : src.Answers _ _ := answers_ancestors db.reach name
    rwa [lineage_eq_of_rank_lt hacyclic hdb (hdb.rank_lt_reach name) (Nat.lt_succ_self _)] at hanswer
  rcases ha : line a with - | as
  · exact ⟨none, .get fun db hdb => (ha ▸ hline db hdb a).bind (.pure _)⟩
  rcases hb : line b with - | bs
  · exact ⟨none, .get fun db hdb => (ha ▸ hline db hdb a).bind
      (.get fun db' hdb' => (hb ▸ hline db' hdb' b).bind (.pure _))⟩
  · exact ⟨_, .get fun db hdb => (ha ▸ hline db hdb a).bind
      (.get fun db' hdb' => (hb ▸ hline db' hdb' b).bind (.pure _))⟩

/-- Whether the way up from a class meets the root of what can be thrown. -/
def isThrown (parent : String → Option String) : Nat → String → Bool
  | 0, _ => false
  | n + 1, name =>
    if name = Names.throwable then true
    else if name = Names.object then false
    else ((parent name).map (isThrown parent n)).getD false

theorem answers_descendsFromThrowable (steps : Nat) (name : String) :
    src.Answers (Inquiry.descendsFromThrowable steps name) (isThrown src.parent? steps name) := by
  induction steps generalizing name with
  | zero => exact .pure _
  | succ steps ih =>
    unfold Inquiry.descendsFromThrowable isThrown
    by_cases hthrown : name = Names.throwable
    · rw [if_pos hthrown, if_pos hthrown]
      exact .pure _
    by_cases hroot : name = Names.object
    · rw [if_neg hthrown, if_neg hthrown, if_pos hroot, if_pos hroot]
      exact .pure _
    rw [if_neg hthrown, if_neg hthrown, if_neg hroot, if_neg hroot]
    have hsuper : src.Answers _ _ := answers_superOf name
    rcases hparent : src.parent? name with - | above
    · rw [hparent] at hsuper
      exact hsuper.bind ((Answers.log .warning (n := .noAncestor name) trivial).bind (.pure _))
    · rw [hparent] at hsuper
      exact hsuper.bind (ih above)

theorem isThrown_eq_of_rank_lt (hacyclic : src.IsAcyclic) (hdb : src.Knows db) {n k : Nat}
    (hn : src.rank name < n) (hk : src.rank name < k) :
    isThrown src.parent? n name = isThrown src.parent? k name := by
  induction n generalizing name k with
  | zero => omega
  | succ n ih =>
    obtain ⟨k, rfl⟩ : ∃ k', k = k' + 1 := ⟨k - 1, by omega⟩
    unfold isThrown
    split
    · rfl
    split
    · rfl
    · rcases hparent : src.parent? name with - | above
      · rfl
      · have hlt := hdb.rank_lt hacyclic hparent
        have hrest : isThrown src.parent? n above = isThrown src.parent? k above :=
          ih (by omega) (by omega)
        rw [Option.map_some, Option.map_some, hrest]

theorem steady_isException (hacyclic : src.IsAcyclic) (name : String) :
    src.Steady (Inquiry.isException name) := by
  refine ⟨isThrown src.parent? (src.rank name + 1) name, ?_⟩
  unfold Inquiry.isException
  refine .get fun db hdb => ?_
  rw [← isThrown_eq_of_rank_lt hacyclic hdb (hdb.rank_lt_reach name) (Nat.lt_succ_self _)]
  exact answers_descendsFromThrowable db.reach name

end Sources

end Resumable
