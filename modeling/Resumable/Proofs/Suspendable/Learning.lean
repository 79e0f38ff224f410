import Mathlib
import Resumable.Proofs.Suspendable.Answers

/-!
# Questions only add to the database

Whatever is asked of the database, it keeps its resolver, its options and its work list, and forgets
no fact and no notice (`Database.Learns`). Every question keeps to this, and so does every
computation that is put together from questions, whether it may fail or keeps an account besides:
the rules are given once, for each layer that a computation may have (`Asking`).
-/

namespace Resumable

namespace Database

/-- The second database is the first after it has learnt something. -/
structure Learns (db db' : Database) : Prop where
  resolver : db'.resolver = db.resolver
  options : db'.options = db.options
  workList : db'.workList = db.workList
  notices : db.notices <+: db'.notices
  fact? : ∀ {name : String} {fact : Fact}, db.fact? name = some fact → db'.fact? name = some fact
  super? : ∀ {name parent : String}, db.supers.lookup name = some parent →
    db'.supers.lookup name = some parent

theorem workList_log (db : Database) (level : Level) (n : Notice) :
    (db.log level n).workList = db.workList := by
  unfold log
  split <;> rfl

theorem notices_log (db : Database) (level : Level) (n : Notice) :
    db.notices <+: (db.log level n).notices := by
  unfold log
  split
  · exact List.prefix_append _ _
  · exact List.prefix_rfl

namespace Learns

variable {db db' db'' : Database} {name : String}

theorem refl (db : Database) : db.Learns db := ⟨rfl, rfl, rfl, List.prefix_rfl, id, id⟩

theorem trans (h : db.Learns db') (h' : db'.Learns db'') : db.Learns db'' where
  resolver := h'.resolver.trans h.resolver
  options := h'.options.trans h.options
  workList := h'.workList.trans h.workList
  notices := h.notices.trans h'.notices
  fact? hfact := h'.fact? (h.fact? hfact)
  super? hsuper := h'.super? (h.super? hsuper)

theorem log (db : Database) (level : Level) (n : Notice) : db.Learns (db.log level n) where
  resolver := resolver_log level n
  options := options_log level n
  workList := workList_log db level n
  notices := notices_log db level n
  fact? hfact := (congrFun (fact?_log level n) _).trans hfact
  super? hsuper := (supers_log level n).symm ▸ hsuper

/-- A fact about a name of which nothing was known. -/
theorem record (hunknown : db.fact? name = none) (fact : Fact) :
    db.Learns (db.record name fact) where
  resolver := resolver_record db name fact
  options := options_record db name fact
  workList := by rw [record_of_none hunknown]
  notices := by rw [record_of_none hunknown]
  fact? {other old} hfact := by
    rw [fact?_record, if_neg, hfact]
    rintro rfl
    rw [hunknown] at hfact
    cases hfact
  super? hsuper := (supers_record db name fact).symm ▸ hsuper

/-- An ancestor of a name of which none was known. -/
theorem super (hunknown : db.supers.lookup name = none) (parent : String) :
    db.Learns { db with supers := (name, parent) :: db.supers } where
  resolver := rfl
  options := rfl
  workList := rfl
  notices := List.prefix_rfl
  fact? := id
  super? {other above} hsuper := by
    rw [List.lookup_cons]
    have hne : (other == name) = false := by
      rw [beq_eq_false_iff_ne]
      rintro rfl
      rw [hunknown] at hsuper
      cases hsuper
    rw [hne]
    exact hsuper

end Learns

end Database

/-! ## Computations that ask -/

/-- Computations of which it can be said that they only add to the database. -/
class Asking (m : Type → Type) [Monad m] where
  Learns : {α : Type} → m α → Prop
  learns_pure : ∀ {α : Type} (a : α), Learns (pure a)
  learns_bind : ∀ {α β : Type} {x : m α} {k : α → m β},
    Learns x → (∀ a, Learns (k a)) → Learns (x >>= k)

namespace Asking

/-- A question only adds to the database it is put to. -/
instance : Asking Inquiry where
  Learns x := ∀ db : Database, db.Learns (x.run db).2
  learns_pure _ db := .refl db
  learns_bind {_ _ x k} h hk db := by
    rcases hrun : x.run db with ⟨a, db'⟩
    have hfirst : db.Learns (x.run db).2 := h db
    rw [Inquiry.run_bind_of_eq hrun]
    rw [hrun] at hfirst
    exact hfirst.trans (hk a db')

variable {m : Type → Type} [Monad m] [Asking m] {ε σ α β : Type}

/-- What may fail only adds to the database, whether it fails or not. -/
instance : Asking (ExceptT ε m) where
  Learns x := Learns x.run
  learns_pure a := learns_pure (Except.ok a)
  learns_bind {_ _ x k} h hk := by
    rw [ExceptT.run_bind]
    refine learns_bind h fun r => ?_
    rcases r with e | a
    · exact learns_pure _
    · exact hk a

/-- What keeps an account only adds to the database, whatever the account is. -/
instance : Asking (StateT σ m) where
  Learns x := ∀ s, Learns (x.run s)
  learns_pure a s := learns_pure (a, s)
  learns_bind {_ _ x k} h hk s := by
    rw [StateT.run_bind]
    exact learns_bind (h s) fun r => hk r.1 r.2

namespace Learns

variable {x : m α}

theorem pure (a : α) : Learns (Pure.pure a : m α) := learns_pure a

theorem bind {k : α → m β} (h : Learns x) (hk : ∀ a, Learns (k a)) : Learns (x >>= k) :=
  learns_bind h hk

theorem mapM [LawfulMonad m] {f : α → m β} (hf : ∀ a, Learns (f a)) (as : List α) :
    Learns (as.mapM f) := by
  induction as with
  | nil =>
    rw [List.mapM_nil]
    exact .pure _
  | cons a as ih =>
    rw [List.mapM_cons]
    exact (hf a).bind fun _ => ih.bind fun _ => .pure _

theorem throw (e : ε) : Learns (throw e : ExceptT ε m α) := pure (m := m) (Except.error e)

theorem modify (f : σ → σ) : Learns (modify f : StateT σ m PUnit) := fun _ => .pure _

theorem get : Learns (get : StateT σ m σ) := fun _ => .pure _

theorem liftTry [LawfulMonad m] (h : Learns x) : Learns (liftM x : ExceptT ε m α) := by
  show Learns (Except.ok <$> x)
  rw [map_eq_pure_bind]
  exact h.bind fun _ => .pure _

theorem liftState (h : Learns x) : Learns (liftM x : StateT σ m α) :=
  fun _ => h.bind fun _ => .pure _

theorem log (level : Level) (n : Notice) : Learns (Inquiry.log level n) :=
  fun db => .log db level n

/-- To look at the database is not to change it. -/
theorem look : Learns (MonadState.get : Inquiry Database) := fun db => .refl db

end Learns

end Asking

/-! ## The questions -/

namespace Inquiry

open Asking

theorem learns_factOf (name : String) : Learns (factOf name) := by
  intro db
  unfold factOf
  rw [run_bind_of_eq (show (get : Inquiry Database).run db = (db, db) from rfl)]
  split
  · exact .refl db
  next hunknown =>
  rw [run_bind_of_eq (show (log .info (.readingClass name)).run db =
    (⟨⟩, db.log .info (.readingClass name)) from rfl)]
  generalize hread : db.log .info (.readingClass name) = db₁
  have hreading : db.Learns db₁ := hread ▸ .log db .info (.readingClass name)
  have hunread : db₁.fact? name = none := by rw [← hread, Database.fact?_log, hunknown]
  rw [run_bind_of_eq (show (get : Inquiry Database).run db₁ = (db₁, db₁) from rfl)]
  split
  · exact hreading.trans (.record hunread _)
  · refine hreading.trans ((Database.Learns.log db₁ .warning (.classNotFound name)).trans
      (.record ?_ _))
    rw [Database.fact?_log, hunread]

theorem learns_findFlag (method desc : String) (searchSuper : Bool) (steps : Nat) (name : String) :
    Learns (findFlag method desc searchSuper steps name) := by
  induction steps generalizing name with
  | zero => exact .pure _
  | succ steps ih =>
    unfold findFlag
    split
    · exact .pure _
    refine (learns_factOf name).bind fun fact => ?_
    rcases fact with facts | -
    · dsimp only
      split
      · exact .pure _
      split
      · exact ih _
      · exact .pure _
    · exact .pure _

theorem learns_isSuspendable (owner method desc : String) (searchSuper : Bool) :
    Learns (isSuspendable owner method desc searchSuper) := by
  unfold isSuspendable
  split
  · exact .pure _
  refine Learns.look.bind fun db => (learns_findFlag _ _ _ _ _).bind fun flag => ?_
  rcases flag with - | flag
  · exact (Learns.log _ _).bind fun _ => .pure _
  · exact .pure _

theorem learns_superOf (name : String) : Learns (superOf name) := by
  intro db
  unfold superOf
  rw [run_bind_of_eq (show (get : Inquiry Database).run db = (db, db) from rfl)]
  split
  · exact .refl db
  split
  · exact .refl db
  next hunknown =>
  split
  · exact .super hunknown _
  · exact .refl db

theorem learns_ancestors (steps : Nat) (name : String) : Learns (ancestors steps name) := by
  induction steps generalizing name with
  | zero => exact .pure _
  | succ steps ih =>
    unfold ancestors
    split
    · exact .pure _
    refine (learns_superOf name).bind fun parent => ?_
    rcases parent with - | parent
    · exact (Learns.log _ _).bind fun _ => .pure _
    · exact (ih parent).bind fun _ => .pure _

theorem learns_commonSuper (a b : String) : Learns (commonSuper a b) := by
  unfold commonSuper
  refine Learns.look.bind fun db => (learns_ancestors _ a).bind fun as => ?_
  rcases as with - | as
  · exact .pure _
  refine Learns.look.bind fun db => (learns_ancestors _ b).bind fun bs => ?_
  rcases bs with - | bs
  · exact .pure _
  · exact .pure _

end Inquiry

end Resumable
