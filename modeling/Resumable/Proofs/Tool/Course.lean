import Resumable.Proofs.Outcome
import Resumable.Proofs.Suspendable.Hierarchy
import Resumable.Tool.Batch

/-!
# What becomes of the units of a batch

Each unit of a batch is rejected by the first pass, or it is settled by the second one: it is copied,
transformed, or its transformation fails. All this is between the unit and the database
(`Batch.course`). A run of the batch follows it, reports it (`BatchReport.ofCourse`) and writes on the
way what there is to write (`BatchM.run_forM_check`, `BatchM.run_process`).

The passes keep the units apart by their names. If names are distinct, every unit so has just one fate
(`Batch.course_spec`), and the report tells of it once (`BatchReport.names_ofCourse`).
-/

namespace Resumable

/-- What becomes of a unit. -/
inductive Fate where
  | transformed (c : ClassDef)
  | copied
  | failed (e : InstrumentError)

namespace BatchUnit

/-- The class that is written for a unit, if it has this fate. -/
def emitted? (u : BatchUnit) : Fate → Option ClassDef
  | .transformed c => some c
  | .copied => some u.content
  | .failed _ => none

end BatchUnit

namespace Batch

/-- The classes that are written, in this order. -/
def emitted (course : List (BatchUnit × Fate)) : List (BatchUnit × ClassDef) :=
  course.filterMap fun (u, fate) => (u.emitted? fate).map (u, ·)

theorem emitted_append (course rest : List (BatchUnit × Fate)) :
    emitted (course ++ rest) = emitted course ++ emitted rest := List.filterMap_append

theorem emitted_cons (p : BatchUnit × Fate) (course : List (BatchUnit × Fate)) :
    emitted (p :: course) = emitted [p] ++ emitted course := emitted_append [p] course

end Batch

/-! ## The report -/

namespace BatchReport

/-- The report tells the fate of one more unit. -/
def add (r : BatchReport) : BatchUnit × Fate → BatchReport
  | (u, .transformed _) => { r with transformed := r.transformed ++ [u.content.name] }
  | (u, .copied) => { r with copied := r.copied ++ [u.content.name] }
  | (u, .failed e) => { r with failed := r.failed ++ [(u.content.name, e)] }

/-- The report on what became of some units. -/
def ofCourse (course : List (BatchUnit × Fate)) : BatchReport := course.foldl add {}

/-- The names of the units that are reported as written. -/
def written (r : BatchReport) : List String := r.transformed ++ r.copied

/-- All names that a report tells, each as often as it is told. -/
def names (r : BatchReport) : List String := r.written ++ r.failed.map Prod.fst

theorem written_add (r : BatchReport) (p : BatchUnit × Fate) :
    (r.add p).written.Perm ((Batch.emitted [p]).map (·.1.content.name) ++ r.written) := by
  obtain ⟨u, fate⟩ := p
  cases fate with
  | transformed c =>
    show (r.transformed ++ [u.content.name] ++ r.copied).Perm (u.content.name :: r.written)
    rw [List.append_assoc]
    exact List.perm_middle
  | copied =>
    show (r.transformed ++ (r.copied ++ [u.content.name])).Perm (u.content.name :: r.written)
    rw [← List.append_assoc]
    exact List.perm_append_singleton _ _
  | failed e => exact .refl _

theorem names_add (r : BatchReport) (p : BatchUnit × Fate) :
    (r.add p).names.Perm (p.1.content.name :: r.names) := by
  have hwritten := written_add r p
  obtain ⟨u, fate⟩ := p
  cases fate with
  | transformed c => exact hwritten.append_right _
  | copied => exact hwritten.append_right _
  | failed e =>
    show (r.written ++ (r.failed ++ [(u.content.name, e)]).map Prod.fst).Perm (u.content.name :: r.names)
    rw [List.map_append, ← List.append_assoc]
    exact List.perm_append_singleton _ _

/-- Those units are reported as written that are. -/
theorem written_ofCourse (course : List (BatchUnit × Fate)) :
    (ofCourse course).written.Perm ((Batch.emitted course).map (·.1.content.name)) := by
  have hfold (r : BatchReport) : (course.foldl add r).written.Perm
      ((Batch.emitted course).map (·.1.content.name) ++ r.written) := by
    induction course generalizing r with
    | nil => exact .refl _
    | cons p course ih =>
      have hrest := ih (r.add p)
      have hfirst := (written_add r p).append_left ((Batch.emitted course).map (·.1.content.name))
      rw [Batch.emitted_cons, List.map_append, List.append_assoc]
      exact (hrest.trans hfirst).trans (List.perm_append_comm_assoc _ _ _)
  simpa [written, ofCourse] using hfold {}

/-- A report tells of every unit once. -/
theorem names_ofCourse (course : List (BatchUnit × Fate)) :
    (ofCourse course).names.Perm (course.map (·.1.content.name)) := by
  have hfold (r : BatchReport) :
      (course.foldl add r).names.Perm (course.map (·.1.content.name) ++ r.names) := by
    induction course generalizing r with
    | nil => exact .refl _
    | cons p course ih =>
      exact (ih (r.add p)).trans (((names_add r p).append_left _).trans List.perm_middle)
  simpa [names, written, ofCourse] using hfold {}

end BatchReport

/-! ## The course of a batch -/

namespace Batch

/-- The first pass over a unit, without the report: why it is rejected, if it is. -/
def examine (u : BatchUnit) : Inquiry (Option InstrumentError) := do
  match ← (Inquiry.check u.content).run with
  | .ok _ => return none
  | .error e =>
    modify fun db => db.logFailure s!"Failed to check {u.path.text}" e.message
    return some e

/-- The second pass over a unit, without disk and report: what becomes of it. -/
def settle (workList : List String) (u : BatchUnit) : Inquiry Fate := do
  if workList.contains u.content.name then
    match ← (Inquiry.instrument u.content).run with
    | .ok c => return .transformed c
    | .error e =>
      modify fun db => db.logFailure s!"Failed to instrument {u.path.text}" e.message
      return .failed e
  else return .copied

/-- A pass over all units: each one with what comes of it. -/
def inTurn {α : Type} (question : BatchUnit → Inquiry α) : List BatchUnit → Inquiry (List (BatchUnit × α))
  | [] => return []
  | u :: units => do
    let answer ← question u
    return (u, answer) :: (← inTurn question units)

/-- The units that are rejected. -/
def rejected (verdicts : List (BatchUnit × Option InstrumentError)) : List (BatchUnit × Fate) :=
  verdicts.filterMap fun (u, verdict) => verdict.map fun e => (u, .failed e)

/-- The units that pass. -/
def passed (verdicts : List (BatchUnit × Option InstrumentError)) : List BatchUnit :=
  (verdicts.filter fun (_, verdict) => verdict.isNone).map (·.1)

/-- What becomes of all units, in the order in which it is reported. -/
def fates (units : List BatchUnit) : Inquiry (List (BatchUnit × Fate)) := do
  let verdicts ← inTurn examine units
  let workList := (← get).workList
  return rejected verdicts ++ (← inTurn (settle workList) (passed verdicts))

/-- What becomes of the units of a batch. -/
def course (b : Batch) (t : FileTree) (units : List BatchUnit) : List (BatchUnit × Fate) :=
  ((fates units).run (.new b.options (t.resolver b.classpath))).1

variable {units : List BatchUnit} {b : Batch}

theorem inTurn_cons {α : Type} {question : BatchUnit → Inquiry α} {u : BatchUnit} {db db' : Database}
    {answers : List (BatchUnit × α)} (h : (inTurn question (u :: units)).run db = (answers, db')) :
    ∃ a db₁ rest, (question u).run db = (a, db₁) ∧ (inTurn question units).run db₁ = (rest, db') ∧
      answers = (u, a) :: rest := by
  rcases hu : (question u).run db with ⟨a, db₁⟩
  rcases hrest : (inTurn question units).run db₁ with ⟨rest, db₂⟩
  rw [inTurn, Inquiry.run_bind_of_eq hu, Inquiry.run_bind_of_eq hrest] at h
  cases h
  exact ⟨a, db₁, rest, rfl, hrest, rfl⟩

/-- Every unit has its turn, with some database. -/
theorem inTurn_spec {α : Type} {question : BatchUnit → Inquiry α} {db db' : Database}
    {answers : List (BatchUnit × α)} (h : (inTurn question units).run db = (answers, db')) :
    answers.map Prod.fst = units ∧
      ∀ p ∈ answers, ∃ db₁ db₂, (question p.1).run db₁ = (p.2, db₂) := by
  induction units generalizing db answers with
  | nil =>
    cases h
    simp
  | cons u units ih =>
    obtain ⟨a, db₁, rest, hu, hrest, rfl⟩ := inTurn_cons h
    obtain ⟨hfst, hall⟩ := ih hrest
    exact ⟨by rw [List.map_cons, hfst], List.forall_mem_cons.2 ⟨⟨db, db₁, hu⟩, hall⟩⟩

/-- A unit that has been transformed is what the instrumenter gives. -/
theorem gives_of_settle {workList : List String} {u : BatchUnit} {db db' : Database} {c : ClassDef}
    (h : (settle workList u).run db = (.transformed c, db')) :
    Gives (Inquiry.instrument u.content) c := by
  unfold settle at h
  split at h
  · rcases hrun : (Inquiry.instrument u.content).run.run db with ⟨e | out, db₁⟩
    · rw [Inquiry.run_bind_of_eq hrun] at h
      cases h
    · rw [Inquiry.run_bind_of_eq hrun] at h
      cases h
      exact ⟨_, _, hrun⟩
  · cases h

/-- What is written for a unit is the unit itself or what the instrumenter gives. -/
theorem emitted?_cases {workList : List String} {u : BatchUnit} {db db' : Database} {fate : Fate}
    {c : ClassDef} (h : (settle workList u).run db = (fate, db')) (hc : u.emitted? fate = some c) :
    fate = .copied ∧ c = u.content ∨
      fate = .transformed c ∧ Gives (Inquiry.instrument u.content) c := by
  cases fate with
  | transformed out =>
    cases hc
    exact .inr ⟨rfl, gives_of_settle h⟩
  | copied =>
    cases hc
    exact .inl ⟨rfl, rfl⟩
  | failed e => cases hc

/-- Every unit either passes or is rejected. -/
theorem perm_passed (verdicts : List (BatchUnit × Option InstrumentError)) :
    ((rejected verdicts).map Prod.fst ++ passed verdicts).Perm (verdicts.map Prod.fst) := by
  induction verdicts with
  | nil => exact .nil
  | cons p verdicts ih =>
    obtain ⟨u, _ | e⟩ := p
    · simpa [rejected, passed] using List.perm_middle.trans (ih.cons u)
    · simpa [rejected, passed] using ih.cons u

/-- Nothing is written for a unit that is rejected. -/
theorem emitted_rejected (verdicts : List (BatchUnit × Option InstrumentError)) :
    emitted (rejected verdicts) = [] := by
  apply List.filterMap_eq_nil_iff.2
  intro p hp
  obtain ⟨⟨u, _ | e⟩, -, heq⟩ := List.mem_filterMap.1 hp <;> cases heq
  rfl

/-- The units that the report names as failed are those that are rejected. -/
theorem failed_rejected (verdicts : List (BatchUnit × Option InstrumentError)) (r : BatchReport) :
    ((rejected verdicts).foldl .add r).failed = r.failed ++ verdicts.filterMap fun (u, verdict) =>
      verdict.map fun e => (u.content.name, e) := by
  induction verdicts generalizing r with
  | nil => simp [rejected]
  | cons p verdicts ih =>
    obtain ⟨u, _ | e⟩ := p
    · simpa [rejected] using ih r
    · simpa [rejected, BatchReport.add] using ih (r.add (u, .failed e))

/-- As names are distinct, the units whose names are not among those rejected are those that pass. -/
theorem filter_rejects {verdicts : List (BatchUnit × Option InstrumentError)}
    (hdistinct : ((verdicts.map Prod.fst).map (·.content.name)).Nodup) :
    ((verdicts.map Prod.fst).filter fun u =>
      !(BatchReport.ofCourse (rejected verdicts)).rejects u.content.name) = passed verdicts := by
  have hfailed (name : String) : (BatchReport.ofCourse (rejected verdicts)).rejects name = true ↔
      ∃ u e, (u, some e) ∈ verdicts ∧ u.content.name = name := by
    unfold BatchReport.rejects BatchReport.ofCourse
    rw [failed_rejected]
    simp only [List.nil_append, List.any_eq_true, List.mem_filterMap, beq_iff_eq]
    constructor
    · rintro ⟨p, ⟨⟨u, _ | e⟩, hmem, hp⟩, rfl⟩ <;> cases hp
      exact ⟨u, e, hmem, rfl⟩
    · rintro ⟨u, e, hmem, rfl⟩
      exact ⟨(u.content.name, e), ⟨(u, some e), hmem, rfl⟩, rfl⟩
  rw [List.filter_map, passed]
  congr 1
  apply List.filter_congr
  rintro ⟨u, verdict⟩ hmem
  cases verdict with
  | some e =>
    have hrejects := (hfailed u.content.name).2 ⟨u, e, hmem, rfl⟩
    simp [hrejects]
  | none =>
    have hpasses : ¬ (BatchReport.ofCourse (rejected verdicts)).rejects u.content.name = true := by
      rw [hfailed]
      rintro ⟨v, e, hv, hname⟩
      rw [List.map_map] at hdistinct
      cases List.inj_on_of_nodup_map hdistinct hmem hv hname.symm
    simp [hpasses]

/-- The two passes that make up the course of a batch. -/
theorem course_eq (b : Batch) (t : FileTree) (units : List BatchUnit) : ∃ verdicts db₁ fates db₂,
    (inTurn examine units).run (.new b.options (t.resolver b.classpath)) = (verdicts, db₁) ∧
      (inTurn (settle db₁.workList) (passed verdicts)).run db₁ = (fates, db₂) ∧
      b.course t units = rejected verdicts ++ fates := by
  rcases hverdicts : (inTurn examine units).run (.new b.options (t.resolver b.classpath)) with
    ⟨verdicts, db₁⟩
  rcases hfates : (inTurn (settle db₁.workList) (passed verdicts)).run db₁ with ⟨fates, db₂⟩
  refine ⟨verdicts, db₁, fates, db₂, rfl, hfates, ?_⟩
  rw [course, Batch.fates, Inquiry.run_bind_of_eq hverdicts,
    Inquiry.run_bind_of_eq (show (get : Inquiry Database).run db₁ = (db₁, db₁) from rfl),
    Inquiry.run_bind_of_eq hfates]
  rfl

/-- Every unit has one fate. What is written for it is the unit itself or what the instrumenter gives. -/
theorem course_spec (b : Batch) (t : FileTree) (units : List BatchUnit) :
    ((b.course t units).map Prod.fst).Perm units ∧
      ∀ u fate, (u, fate) ∈ b.course t units → ∀ c, u.emitted? fate = some c →
        fate = .copied ∧ c = u.content ∨
          fate = .transformed c ∧ Gives (Inquiry.instrument u.content) c := by
  obtain ⟨verdicts, db₁, fates, db₂, hverdicts, hfates, hcourse⟩ := course_eq b t units
  obtain ⟨hfst, hsettled⟩ := inTurn_spec hfates
  rw [hcourse]
  constructor
  · rw [List.map_append, hfst, ← (inTurn_spec hverdicts).1]
    exact perm_passed verdicts
  · intro u fate hmem c hc
    rcases List.mem_append.1 hmem with hmem | hmem
    · obtain ⟨⟨v, _ | e⟩, -, heq⟩ := List.mem_filterMap.1 hmem <;> cases heq
      cases hc
    · obtain ⟨db, db', hsettle⟩ := hsettled _ hmem
      exact emitted?_cases hsettle hc

theorem perm_names_course (b : Batch) (t : FileTree) (units : List BatchUnit) :
    ((b.course t units).map (·.1.content.name)).Perm (units.map (·.content.name)) := by
  have hnames := ((course_spec b t units).1).map (·.content.name)
  rwa [List.map_map] at hnames

theorem sublist_names_emitted (course : List (BatchUnit × Fate)) :
    ((emitted course).map (·.1.content.name)).Sublist (course.map (·.1.content.name)) := by
  induction course with
  | nil => exact .slnil
  | cons p course ih =>
    obtain ⟨u, fate⟩ := p
    rcases hc : u.emitted? fate with - | c
    · simpa [emitted, hc] using ih.cons u.content.name
    · simpa [emitted, hc] using ih.cons_cons u.content.name

/-- Of units with different names, no two that are written have one name. -/
theorem name_ne_of_emitted {t : FileTree} (hdistinct : (units.map (·.content.name)).Nodup)
    {before after : List (BatchUnit × ClassDef)} {u v : BatchUnit} {c d : ClassDef}
    (hsplit : emitted (b.course t units) = before ++ (u, c) :: after) (hv : (v, d) ∈ after) :
    u.content.name ≠ v.content.name := by
  have hnodup : ((emitted (b.course t units)).map (·.1.content.name)).Nodup :=
    ((perm_names_course b t units).nodup_iff.2 hdistinct).sublist (sublist_names_emitted _)
  rw [hsplit, List.map_append, List.map_cons] at hnodup
  have hnot := (List.nodup_cons.1 hnodup.of_append_right).1
  exact fun heq => hnot (heq ▸ List.mem_map_of_mem (f := (·.1.content.name)) hv)

end Batch

/-! ## The passes -/

namespace BatchM

variable {b : Batch} {u : BatchUnit} {s : BatchState}

/-- Asking reads and changes the database alone. -/
theorem run_ask {α : Type} {question : Flow.Attempt α} {answer : Except InstrumentError α}
    {db : Database}
    (h : question.run.run s.database = (answer, db)) :
    (ask question).run.run s = (.ok answer, { s with database := db }) := by
  have hrun : (ask question).run.run s = (.ok (question.run.run s.database).1,
      { s with database := (question.run.run s.database).2 }) := rfl
  rw [hrun, h]

theorem run_bind_of_ok {α β : Type} {x : BatchM α} {k : α → BatchM β} {a : α} {s' : BatchState}
    (h : x.run.run s = (.ok a, s')) : (x >>= k).run.run s = (k a).run.run s' := by
  rw [ExceptT.run_bind, StateT.run_bind, h]
  rfl

theorem run_check (u : BatchUnit) (s : BatchState) : (check u).run.run s =
    (.ok (), { s with
      database := ((Batch.examine u).run s.database).2
      report := match ((Batch.examine u).run s.database).1 with
        | none => s.report
        | some e => s.report.add (u, .failed e) }) := by
  rcases hcheck : (Inquiry.check u.content).run.run s.database with ⟨e | queued, db⟩
  · have hexamine : (Batch.examine u).run s.database =
        (some e, db.logFailure s!"Failed to check {u.path.text}" e.message) := by
      rw [Batch.examine, Inquiry.run_bind_of_eq hcheck]
      rfl
    rw [hexamine, check, run_bind_of_ok (run_ask hcheck)]
    rfl
  · have hexamine : (Batch.examine u).run s.database = (none, db) := by
      rw [Batch.examine, Inquiry.run_bind_of_eq hcheck]
      rfl
    rw [hexamine, check, run_bind_of_ok (run_ask hcheck)]
    rfl

/-- The first pass leaves the disk as it is. -/
theorem run_forM_check {units : List BatchUnit} {verdicts : List (BatchUnit × Option InstrumentError)}
    {db : Database} (h : (Batch.inTurn Batch.examine units).run s.database = (verdicts, db)) :
    (units.forM check).run.run s = (.ok (), { s with
      database := db
      report := (Batch.rejected verdicts).foldl .add s.report }) := by
  induction units generalizing s verdicts with
  | nil =>
    cases h
    rfl
  | cons u units ih =>
    obtain ⟨verdict, db₁, rest, hu, hrest, rfl⟩ := Batch.inTurn_cons h
    have hcheck := run_check u s
    rw [hu] at hcheck
    rw [List.forM, run_bind_of_ok hcheck, ih hrest]
    cases verdict <;> rfl

theorem run_write {c : ClassDef} {tree : FileTree}
    (h : s.tree.writeUnit b.target c u.format = (tree, .ok ())) :
    (write b u c).run.run s = (.ok (), { s with tree }) := by
  rcases s with ⟨old, db, report⟩
  unfold write
  rw [run_bind_of_ok (show (get : BatchM BatchState).run.run ⟨old, db, report⟩ = (.ok _, _) from rfl)]
  dsimp only at h ⊢
  rw [h]
  rfl

/-- A unit that passed is written if it has a class to write. -/
theorem run_process {workList : List String} {fate : Fate} {db : Database} {tree : FileTree}
    (h : (Batch.settle workList u).run s.database = (fate, db))
    (hwrite : match u.emitted? fate with
      | some c => s.tree.writeUnit b.target c u.format = (tree, .ok ())
      | none => tree = s.tree) :
    (process b workList u).run.run s = (.ok (), ⟨tree, db, s.report.add (u, fate)⟩) := by
  unfold Batch.settle at h
  unfold process
  dsimp only
  by_cases hqueued : workList.contains u.content.name = true
  · rw [if_pos hqueued] at h ⊢
    rcases hrun : (Inquiry.instrument u.content).run.run s.database with ⟨e | c, db₁⟩
    · rw [Inquiry.run_bind_of_eq hrun] at h
      cases h
      rw [run_bind_of_ok (run_ask hrun)]
      cases hwrite
      rfl
    · rw [Inquiry.run_bind_of_eq hrun] at h
      cases h
      rw [run_bind_of_ok (run_ask hrun)]
      have hwritten : (write b u c).run.run { s with database := db } = (.ok (), ⟨tree, db, s.report⟩) :=
        run_write hwrite
      dsimp only
      rw [run_bind_of_ok hwritten]
      rfl
  · rw [if_neg hqueued] at h ⊢
    cases h
    rw [run_bind_of_ok (run_write hwrite)]
    rfl

end BatchM

end Resumable
