import Resumable.Proofs.Suspendable.Knowledge
import Resumable.Proofs.Ways

/-!
# Common ancestors

The database is asked for the ancestor of a class, for that of the ancestor, and so on. Where a class
gets to in this way lies above it (`Database.Descends`). The walk up from a class that gets to the root
lists exactly what lies above the class and not above the root (`Database.mem_or_descends`), so two
such classes meet in the lowest class above both (`Inquiry.commonSuper_lowest`).

Whether a class can be thrown is found out by a walk of its own. It agrees, because what can be thrown
is what meets `sys/Throwable` in `sys/Throwable`.
-/

namespace Resumable

open Relation (ReflTransGen TransGen)

/-! ## What lies above a class -/

namespace Database

variable {db db' : Database} {name above : String} {l : List String}

/-- The database is told this class when it is asked for the ancestor of another. -/
def Extends (db : Database) (name above : String) : Prop :=
  ((Inquiry.superOf name).run db).1 = some above

/-- No class is its own ancestor. -/
def IsAcyclic (db : Database) : Prop := ∀ name, ¬ TransGen db.Extends name name

/-- A class lies above another, or is that class. -/
def Descends (db : Database) (name above : String) : Prop := ReflTransGen db.Extends name above

theorem extends_iff : db.Extends name above ↔ db.parent? name = some above := by
  rw [Extends, (Inquiry.superOf_spec db name).1]

/-- If every ancestor is lower, no class is its own ancestor. -/
theorem isAcyclic_of_height (height : String → Nat)
    (h : ∀ name ∈ db.counted, ∀ above ∈ db.parent? name, height above < height name) :
    db.IsAcyclic := by
  apply no_way_back height
  intro name above hup
  have hparent := extends_iff.1 hup
  exact h name (mem_of_parent? hparent) above hparent

/-- A class that gets to the root has a line. -/
theorem exists_ancestry (h : db.Descends name Names.object) : ∃ l, db.ancestry name = some l := by
  suffices hline : ∃ n l, lineage db.parent? n name = some l by
    obtain ⟨n, l, hl⟩ := hline
    exact ⟨l, lineage_of_length_le hl (length_lineage_le hl)⟩
  induction h using ReflTransGen.head_induction_on with
  | refl => exact ⟨1, _, lineage_succ_eq_some.2 (.inl ⟨rfl, rfl⟩)⟩
  | @head below next hstep hway ih =>
    obtain ⟨n, l, hl⟩ := ih
    by_cases hroot : below = Names.object
    · exact ⟨1, _, lineage_succ_eq_some.2 (.inl ⟨hroot, rfl⟩)⟩
    · exact ⟨n + 1, _, lineage_succ_eq_some.2
        (.inr ⟨hroot, next, l, extends_iff.1 hstep, hl, rfl⟩)⟩

/-- What is on the line of a class lies above it. -/
theorem descends_of_mem {n : Nat} (h : lineage db.parent? n name = some l) (hmem : above ∈ l) :
    db.Descends name above := by
  induction n generalizing name l with
  | zero => cases h
  | succ n ih =>
    rcases lineage_succ_eq_some.1 h with ⟨-, rfl⟩ | ⟨-, next, rest, hnext, hrest, rfl⟩
    · obtain rfl := List.mem_singleton.1 hmem
      exact .refl
    · rcases List.mem_cons.1 hmem with rfl | hmem
      · exact .refl
      · exact .head (extends_iff.2 hnext) (ih hrest hmem)

/-- A class that has a line gets to the root. -/
theorem descends_object (h : db.ancestry name = some l) : db.Descends name Names.object :=
  descends_of_mem h (object_mem_of_lineage h)

/-- The line of a class on a line is the rest of that line. -/
theorem ancestry_of_append {pre post : List String}
    (h : (db.ancestry name).getD [] = pre ++ above :: post) :
    (db.ancestry above).getD [] = above :: post := by
  rcases hline : db.ancestry name with - | l
  · rw [hline] at h
    simp at h
  · rw [hline, Option.getD_some] at h
    subst h
    obtain ⟨k, hk⟩ := lineage_of_append hline
    have habove : db.ancestry above = some (above :: post) :=
      lineage_of_length_le hk (length_lineage_le hk)
    rw [habove, Option.getD_some]

/-- What lies above a class is on its line, or lies above the root. -/
theorem mem_or_descends (h : db.ancestry name = some l) (hway : db.Descends name above) :
    above ∈ l ∨ db.Descends Names.object above := by
  induction hway with
  | refl =>
    obtain ⟨rest, rfl⟩ := exists_cons_of_lineage h
    exact .inl List.mem_cons_self
  | @tail x next hway hstep ih =>
    rcases ih with hmem | hbeyond
    · by_cases hroot : x = Names.object
      · subst hroot
        exact .inr (.single hstep)
      · -- The line goes on behind a class that is not the root.
        obtain ⟨pre, post, rfl⟩ := List.append_of_mem hmem
        obtain ⟨k, hk⟩ := lineage_of_append h
        cases k with
        | zero => cases hk
        | succ k =>
          rcases lineage_succ_eq_some.1 hk with ⟨heq, -⟩ | ⟨-, next', rest, hnext, hrest, heq⟩
          · exact absurd heq hroot
          · cases hnext.symm.trans (extends_iff.1 hstep)
            obtain ⟨tail, rfl⟩ := exists_cons_of_lineage hrest
            cases heq
            exact .inl (by simp)
    · exact .inr (.tail hbeyond hstep)

end Database

namespace Inquiry

variable {db : Database} {a b c name : String}

/-! ## Where two classes meet -/

/-- Two lines end with the root, so they meet. -/
theorem exists_meeting {as bs : List String} (ha : db.ancestry a = some as)
    (hb : db.ancestry b = some bs) :
    ∃ c, (commonStart as.reverse bs.reverse).getLast? = some c := by
  have hroot {name : String} {l : List String} (h : db.ancestry name = some l) :
      [Names.object] <+: l.reverse := by
    obtain ⟨pre, post, rfl⟩ := List.append_of_mem (object_mem_of_lineage h)
    obtain ⟨k, hk⟩ := lineage_of_append h
    have hself : lineage db.parent? 1 Names.object = some [Names.object] :=
      lineage_succ_eq_some.2 (.inl ⟨rfl, rfl⟩)
    cases lineage_unique hself hk
    simp
  have hcommon := prefix_commonStart (hroot ha) (hroot hb)
  exact ⟨_, List.getLast?_eq_some_getLast (List.ne_nil_of_mem (hcommon.subset List.mem_cons_self))⟩

/-- Two classes that get to the root meet in a class, in which what lies above both has its start. -/
theorem exists_commonSuper (ha : db.Descends a Names.object) (hb : db.Descends b Names.object) :
    ∃ c, ((commonSuper a b).run db).1 = some c ∧ db.Descends a c ∧ db.Descends b c ∧
      ∀ x, db.Descends a x → db.Descends b x → db.Descends c x := by
  obtain ⟨as, has⟩ := Database.exists_ancestry ha
  obtain ⟨bs, hbs⟩ := Database.exists_ancestry hb
  obtain ⟨c, hc⟩ := exists_meeting has hbs
  have hanswer : ((commonSuper a b).run db).1 = some c := by
    rw [(commonSuper_answer db a b).1, has, hbs]
    exact hc
  have hcommon (x : String) : x ∈ (db.ancestry c).getD [] ↔ x ∈ as ∧ x ∈ bs := by
    have hmem := mem_of_meeting (fun name => (db.ancestry name).getD [])
      (a := a) (b := b) Database.ancestry_of_append (by rw [has, hbs]; exact hc) x
    rwa [has, hbs, Option.getD_some, Option.getD_some] at hmem
  obtain ⟨pre, rest, heq, -⟩ := append_of_meeting hc
  have hfront : (db.ancestry a).getD [] = pre ++ c :: rest := by rw [has, Option.getD_some, heq]
  have hline : (db.ancestry c).getD [] = c :: rest := Database.ancestry_of_append hfront
  obtain ⟨hca, hcb⟩ := (hcommon c).1 (by rw [hline]; exact List.mem_cons_self)
  refine ⟨c, hanswer, Database.descends_of_mem has hca, Database.descends_of_mem hbs hcb, ?_⟩
  intro x hx hx'
  rcases hcline : db.ancestry c with - | l
  · rw [hcline] at hline
    cases hline
  -- What lies above the root lies above `c` too.
  have hbeyond (h : db.Descends Names.object x) : db.Descends c x :=
    (Database.descends_object hcline).trans h
  rcases Database.mem_or_descends has hx with hxa | h
  · rcases Database.mem_or_descends hbs hx' with hxb | h
    · have hxc := (hcommon x).2 ⟨hxa, hxb⟩
      rw [hcline, Option.getD_some] at hxc
      exact Database.descends_of_mem hcline hxc
    · exact hbeyond h
  · exact hbeyond h

/-- A class that does not get to the root meets none. -/
theorem commonSuper_eq_none (h : ¬ (db.Descends a Names.object ∧ db.Descends b Names.object)) :
    ((commonSuper a b).run db).1 = none := by
  rw [(commonSuper_answer db a b).1]
  rcases ha : db.ancestry a with - | as
  · rfl
  rcases hb : db.ancestry b with - | bs
  · rfl
  · exact absurd ⟨Database.descends_object ha, Database.descends_object hb⟩ h

/-! ## What can be thrown -/

/-- The walk up from a class finds out whether what can be thrown is on its line. -/
theorem descendsFromThrowable_spec {n : Nat} {l : List String}
    (h : lineage db.parent? n name = some l) :
    ((descendsFromThrowable n name).run db).1 = true ↔ Names.throwable ∈ l := by
  induction n generalizing name l db with
  | zero => cases h
  | succ n ih =>
    have hne : Names.throwable ≠ Names.object := by decide
    rw [descendsFromThrowable]
    rcases lineage_succ_eq_some.1 h with ⟨rfl, rfl⟩ | ⟨hroot, above, rest, habove, hrest, rfl⟩
    · rw [if_neg hne.symm, if_pos rfl, List.mem_singleton]
      exact iff_of_false Bool.false_ne_true hne
    by_cases hthrown : name = Names.throwable
    · rw [if_pos hthrown, hthrown]
      exact ⟨fun _ => List.mem_cons_self, fun _ => rfl⟩
    · rw [if_neg hthrown, if_neg hroot, List.mem_cons, or_iff_right (Ne.symm hthrown)]
      obtain ⟨hparent, hkeeps⟩ := superOf_spec db name
      rcases hrun : (superOf name).run db with ⟨answer, db₁⟩
      rw [hrun] at hparent hkeeps
      rw [run_bind_of_eq hrun, show answer = some above from hparent.trans habove]
      exact ih (by rw [hkeeps.parent]; exact hrest)

theorem isException_iff {l : List String} (h : db.ancestry name = some l) :
    ((isException name).run db).1 = true ↔ Names.throwable ∈ l := by
  unfold isException
  rw [run_bind_of_eq (show (get : Inquiry Database).run db = (db, db) from rfl)]
  exact descendsFromThrowable_spec h

/-- A class can be thrown if and only if it meets `sys/Throwable` there. -/
theorem isException_iff_commonSuper (hacyclic : db.IsAcyclic) (ha : db.Descends a Names.object)
    (hthrowable : db.Descends Names.throwable Names.object) :
    ((isException a).run db).1 = true ↔
      ((commonSuper a Names.throwable).run db).1 = some Names.throwable := by
  obtain ⟨as, has⟩ := Database.exists_ancestry ha
  obtain ⟨c, hc, hac, htc, hlowest⟩ := exists_commonSuper ha hthrowable
  rw [isException_iff has, hc, Option.some.injEq]
  constructor
  · intro hmem
    have hct := hlowest Names.throwable (Database.descends_of_mem has hmem) .refl
    exact eq_of_ways hacyclic hct htc
  · rintro rfl
    rcases Database.mem_or_descends has hac with hmem | hbeyond
    · exact hmem
    · -- Otherwise the root would lie above itself.
      have hroot := eq_of_ways hacyclic hbeyond hthrowable
      exact absurd hroot (by decide)

/-- **The class in which two classes meet is their lowest common ancestor**, whichever of them is named
first, and also if it is asked for again. There is none if one of the classes does not get to the root.
A class that gets there can be thrown if and only if it meets `sys/Throwable` there. -/
theorem commonSuper_lowest (hacyclic : db.IsAcyclic) (a b : String) :
    (db.Descends a Names.object → db.Descends b Names.object → ∃ c,
      ((commonSuper a b).run db).1 = some c ∧ db.Descends a c ∧ db.Descends b c ∧
        (∀ x, db.Descends a x → db.Descends b x → db.Descends c x) ∧
        ((commonSuper b a).run db).1 = some c ∧
        ((commonSuper b a).run ((commonSuper a b).run db).2).1 = some c) ∧
    (¬ (db.Descends a Names.object ∧ db.Descends b Names.object) →
      ((commonSuper a b).run db).1 = none) ∧
    (db.Descends a Names.object → db.Descends Names.throwable Names.object →
      (((isException a).run db).1 = true ↔
        ((commonSuper a Names.throwable).run db).1 = some Names.throwable)) := by
  refine ⟨fun ha hb => ?_, commonSuper_eq_none, isException_iff_commonSuper hacyclic⟩
  obtain ⟨c, hc, hac, hbc, hlowest⟩ := exists_commonSuper ha hb
  obtain ⟨d, hd, hbd, had, hlowest'⟩ := exists_commonSuper hb ha
  obtain rfl : c = d := eq_of_ways hacyclic (hlowest d had hbd) (hlowest' c hbc hac)
  refine ⟨c, hc, hac, hbc, hlowest, hd, ?_⟩
  -- What has been learnt from the first answer has changed no line.
  have hsame := ((commonSuper_answer db a b).2).ancestry
  rw [(commonSuper_answer _ b a).1, hsame, ← (commonSuper_answer db b a).1]
  exact hd

/-- A kind of error whose ancestor has to be resolved, and a class whose ancestor cannot be had. -/
def mixed : Database :=
  let resolver : Resolver :=
    .ofList [("lib/Fault", { name := "lib/Fault", superName := some Names.error })]
  (Database.new {} resolver).record "app/Fault" (.known { superName := some "lib/Fault" })
    |>.record "app/Stray" (.known { superName := some "lib/Gone" })

theorem isAcyclic_mixed : mixed.IsAcyclic := by
  apply Database.isAcyclic_of_height fun name => ([(Names.object, 0), (Names.string, 1),
    (Names.thread, 1), (Names.throwable, 1), (Names.coroutine, 1), (Names.error, 2),
    (Names.exception, 2), (Names.runtimeException, 3), (Names.suspendExecution, 3), ("lib/Gone", 0),
    ("lib/Fault", 3), ("app/Stray", 1)].lookup name).getD 4
  decide +kernel

theorem commonSuper_lowest_mixed : mixed.IsAcyclic ∧
    mixed.Descends "app/Fault" Names.object ∧ mixed.Descends Names.arithmetic Names.object ∧
    ((commonSuper Names.arithmetic "app/Fault").run mixed).1 = some Names.throwable ∧
    (∀ x, mixed.Descends "app/Fault" x → mixed.Descends Names.arithmetic x →
      mixed.Descends Names.throwable x) ∧
    ¬ mixed.Descends "app/Stray" Names.object ∧
    ((commonSuper "app/Stray" "app/Fault").run mixed).1 = none ∧
    ((isException "app/Fault").run mixed).1 = true := by
  have hfault : mixed.Descends "app/Fault" Names.object := Database.descends_object
    (l := ["app/Fault", "lib/Fault", Names.error, Names.throwable, Names.object]) (by decide +kernel)
  have harithmetic : mixed.Descends Names.arithmetic Names.object := Database.descends_object
    (l := [Names.arithmetic, Names.runtimeException, Names.exception, Names.throwable, Names.object])
    (by decide +kernel)
  have hthrowable : mixed.Descends Names.throwable Names.object := Database.descends_object
    (l := [Names.throwable, Names.object]) (by decide +kernel)
  have hstray : ¬ mixed.Descends "app/Stray" Names.object := fun h => by
    obtain ⟨l, hl⟩ := Database.exists_ancestry h
    have hnone : mixed.ancestry "app/Stray" = none := by decide +kernel
    cases hnone.symm.trans hl
  obtain ⟨hmeet, -, hthrown⟩ := commonSuper_lowest isAcyclic_mixed "app/Fault" Names.arithmetic
  obtain ⟨-, hnone, -⟩ := commonSuper_lowest isAcyclic_mixed "app/Stray" "app/Fault"
  obtain ⟨c, hc, -, -, hlowest, hc', -⟩ := hmeet hfault harithmetic
  have hmeeting : ((commonSuper "app/Fault" Names.arithmetic).run mixed).1 = some Names.throwable := by
    decide +kernel
  cases hc.symm.trans hmeeting
  refine ⟨isAcyclic_mixed, hfault, harithmetic, hc', hlowest, hstray, hnone fun h => hstray h.1, ?_⟩
  exact (hthrown hfault hthrowable).2 (by decide +kernel)

end Inquiry

end Resumable
