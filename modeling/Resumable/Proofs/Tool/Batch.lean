import Resumable.Proofs.Disk.Writing
import Resumable.Proofs.Tool.Course
import Resumable.Proofs.Tool.Emission

/-!
# What is left of a batch

A run of a batch comes to its end if all classes that it writes can be placed (`Batch.Placeable`): then
below the target there are their files, and nothing else (`Batch.run_eq`). A class that has been written
can be read back unless another one with the same file has been written later
(`Batch.readUnit_iff`). Two units have the same file if their names differ in nothing but what follows
the last dot (`BatchUnit.SharesFile`); the names of the units being distinct does not keep them apart.
-/

namespace Resumable

open List (Forall₂)

namespace BatchUnit

/-- Where the unit is written. -/
def place (u : BatchUnit) : Place := unitPlace u.content.name u.format

/-- Two units have the same file: their formats and directories are the same, and their names differ in
nothing but what follows the last dot. -/
def SharesFile (u v : BatchUnit) : Prop :=
  u.format = v.format ∧ unitDirs u.content.name = unitDirs v.content.name ∧
    unitStem u.content.name = unitStem v.content.name

instance (u v : BatchUnit) : Decidable (u.SharesFile v) :=
  inferInstanceAs (Decidable (_ ∧ _ ∧ _))

/-- Units whose names differ, and have no dots in their last parts, have different files. -/
theorem not_sharesFile {u v : BatchUnit} (hu : PlainName u.content.name) (hv : PlainName v.content.name)
    (hundotted : Undotted u.content.name) (hundotted' : Undotted v.content.name)
    (hne : u.content.name ≠ v.content.name) : ¬ u.SharesFile v := fun hshares =>
  hne (eq_of_unitPlace_eq hu hv hundotted hundotted' ((unitPlace_eq_iff hu hv).2 hshares))

end BatchUnit

namespace Batch

variable {units : List BatchUnit} {b : Batch}

/-! ## Files -/

/-- The files of some classes, the last one first. -/
def files (classes : List (BatchUnit × ClassDef)) : List (Place × List UInt8) :=
  (classes.map fun (u, c) => (u.place, u.format.encode c)).reverse

theorem files_append (classes : List (BatchUnit × ClassDef)) (u : BatchUnit) (c : ClassDef) :
    files (classes ++ [(u, c)]) = (u.place, u.format.encode c) :: files classes := by simp [files]

/-- What is found at a place is some class with this place, if there is one. -/
theorem lookup_files (classes : List (BatchUnit × ClassDef)) (place : Place) :
    (files classes).lookup place = none ∧ (∀ p ∈ classes, p.1.place ≠ place) ∨
      ∃ p ∈ classes, p.1.place = place ∧
        (files classes).lookup place = some (p.1.format.encode p.2) := by
  rcases hlookup : (files classes).lookup place with - | bytes
  · refine .inl ⟨rfl, fun p hp heq => ?_⟩
    have hmem : (p.1.place, p.1.format.encode p.2) ∈ files classes :=
      List.mem_reverse.2 (List.mem_map_of_mem hp)
    have hne := List.lookup_eq_none_iff.1 hlookup _ hmem
    simp [heq] at hne
  · obtain ⟨front, rest, heq, -⟩ := List.lookup_eq_some_iff.1 hlookup
    have hmem : (place, bytes) ∈ files classes := by simp [heq]
    obtain ⟨p, hp, hfile⟩ := List.mem_map.1 (List.mem_reverse.1 hmem)
    cases hfile
    exact .inr ⟨p, hp, rfl, rfl⟩

/-- What is found at the place of a class is the class, or one that has been written later. -/
theorem lookup_files_split (before after : List (BatchUnit × ClassDef)) (u : BatchUnit) (c : ClassDef) :
    (∀ p ∈ after, p.1.place ≠ u.place) ∧
        (files (before ++ (u, c) :: after)).lookup u.place = some (u.format.encode c) ∨
      ∃ p ∈ after, p.1.place = u.place ∧
        (files (before ++ (u, c) :: after)).lookup u.place = some (p.1.format.encode p.2) := by
  have hsplit : files (before ++ (u, c) :: after) =
      files after ++ (u.place, u.format.encode c) :: files before := by simp [files]
  rw [hsplit, List.lookup_append]
  rcases lookup_files after u.place with ⟨hnone, hne⟩ | ⟨p, hp, hplace, hsome⟩
  · exact .inl ⟨hne, by simp [hnone]⟩
  · exact .inr ⟨p, hp, hplace, by simp [hsome]⟩

/-! ## Writing -/

/-- All classes can be written: their names make names of files, and no file would have to be where
another one needs a directory. -/
structure Placeable (classes : List (BatchUnit × ClassDef)) : Prop where
  plain : ∀ p ∈ classes, PlainName p.1.content.name
  valid : ∀ p ∈ classes, ∀ s ∈ p.1.place, isFileName s = true
  apart : ∀ p ∈ classes, ∀ q ∈ classes, p.1.place <+: q.1.place → p.1.place = q.1.place

/-- One more class is written for a unit. -/
theorem Placeable.writeUnit {target : Path} {root : Place} {t : FileTree} {u : BatchUnit} {c : ClassDef}
    {written : List (BatchUnit × ClassDef)} (h : Placeable (written ++ [(u, c)]))
    (hholds : t.Holds target root (files written)) (hname : c.name = u.content.name) :
    ∃ t', t.writeUnit target c u.format = (t', .ok ()) ∧
      t'.Holds target root (files (written ++ [(u, c)])) := by
  have hplace : unitPlace c.name u.format = u.place := by rw [hname, BatchUnit.place]
  have hnew : (u, c) ∈ written ++ [(u, c)] := by simp
  have hplain : PlainName c.name := by
    rw [hname]
    exact h.plain (u, c) hnew
  have hvalid : ∀ s ∈ unitPlace c.name u.format, isFileName s = true := by
    rw [hplace]
    exact h.valid (u, c) hnew
  rw [files_append, ← hplace]
  refine hholds.writeUnit hplain hvalid fun other hother => ?_
  obtain ⟨p, hp, rfl⟩ : ∃ p ∈ written, p.1.place = other := by
    simpa [files] using hother
  have hold : p ∈ written ++ [(u, c)] := List.mem_append_left _ hp
  rw [hplace]
  rintro (hbelow | habove)
  · exact h.apart p hold (u, c) hnew hbelow
  · exact (h.apart (u, c) hnew p hold habove).symm

theorem Placeable.left {written rest : List (BatchUnit × ClassDef)} (h : Placeable (written ++ rest)) :
    Placeable written where
  plain p hp := h.plain p (List.mem_append_left _ hp)
  valid p hp := h.valid p (List.mem_append_left _ hp)
  apart p hp q hq := h.apart p (List.mem_append_left _ hp) q (List.mem_append_left _ hq)

/-- What the second pass does with one unit: it writes the unit unless it fails. -/
theorem run_process {root : Place} {workList : List String} {s : BatchState} {u : BatchUnit}
    {fate : Fate}
    {db : Database} {written : List (BatchUnit × ClassDef)}
    (hplaceable : Placeable (written ++ emitted [(u, fate)]))
    (hholds : s.tree.Holds b.target root (files written))
    (hsettle : (settle workList u).run s.database = (fate, db)) :
    ∃ tree, (BatchM.process b workList u).run.run s = (.ok (), ⟨tree, db, s.report.add (u, fate)⟩) ∧
      tree.Holds b.target root (files (written ++ emitted [(u, fate)])) := by
  rcases hemitted : u.emitted? fate with - | c
  · have hnone : emitted [(u, fate)] = [] := by simp [emitted, hemitted]
    rw [hnone, List.append_nil]
    exact ⟨s.tree, BatchM.run_process hsettle (by rw [hemitted]), hholds⟩
  · have hone : emitted [(u, fate)] = [(u, c)] := by simp [emitted, hemitted]
    have hname : c.name = u.content.name := by
      rcases emitted?_cases hsettle hemitted with ⟨-, rfl⟩ | ⟨-, hgives⟩
      · rfl
      · rw [Inquiry.head_of_instrument hgives]
    rw [hone] at hplaceable ⊢
    obtain ⟨tree, hwrite, htree⟩ := hplaceable.writeUnit hholds hname
    exact ⟨tree, BatchM.run_process hsettle (by rw [hemitted]; exact hwrite), htree⟩

/-- The second pass writes all units that passed and did not fail. -/
theorem run_forM_process {root : Place} {workList : List String} {s : BatchState}
    {fates : List (BatchUnit × Fate)} {db : Database} {written : List (BatchUnit × ClassDef)}
    (hplaceable : Placeable (written ++ emitted fates))
    (hholds : s.tree.Holds b.target root (files written))
    (hsettle : (inTurn (settle workList) units).run s.database = (fates, db)) :
    ∃ tree, (units.forM (BatchM.process b workList)).run.run s =
        (.ok (), ⟨tree, db, fates.foldl .add s.report⟩) ∧
      tree.Holds b.target root (files (written ++ emitted fates)) := by
  induction units generalizing s fates written with
  | nil =>
    cases hsettle
    exact ⟨s.tree, rfl, by simpa [emitted] using hholds⟩
  | cons u units ih =>
    obtain ⟨fate, db₁, rest, hu, hrest, rfl⟩ := inTurn_cons hsettle
    rw [emitted_cons, ← List.append_assoc] at hplaceable ⊢
    obtain ⟨t₁, hprocess, ht₁⟩ := run_process hplaceable.left hholds hu
    obtain ⟨tree, hrun, htree⟩ := ih (s := ⟨t₁, db₁, s.report.add (u, fate)⟩) hplaceable ht₁ hrest
    refine ⟨tree, ?_, htree⟩
    rw [List.forM, BatchM.run_bind_of_ok hprocess, hrun]
    rfl

/-- A batch whose files can all be written comes to its end. Its report tells what became of the units,
and below the target there is what they have been written to. -/
theorem run_eq {t : FileTree} {root : Place} (hread : b.units t = .ok units)
    (hdistinct : (units.map (·.content.name)).Nodup)
    (hplaceable : Placeable (emitted (b.course t units)))
    (hleads : t.Leads b.target root) (hempty : ∀ rel ≠ [], t.node? (root ++ rel) = none) :
    ∃ tree db, b.run t = (.ok (), ⟨tree, db, .ofCourse (b.course t units)⟩) ∧
      tree.Holds b.target root (files (emitted (b.course t units))) := by
  obtain ⟨verdicts, db₁, fates, db₂, hverdicts, hfates, hcourse⟩ := course_eq b t units
  have hunits : verdicts.map Prod.fst = units := (inTurn_spec hverdicts).1
  have hemitted : emitted (b.course t units) = emitted fates := by
    rw [hcourse, emitted_append, emitted_rejected, List.nil_append]
  have hnil : t.Holds b.target root (files []) := .nil hleads hempty
  rw [hemitted] at hplaceable ⊢
  obtain ⟨tree, hrun, htree⟩ := run_forM_process (s := ⟨t, db₁, .ofCourse (rejected verdicts)⟩)
    hplaceable hnil hfates
  refine ⟨tree, db₂, ?_, htree⟩
  have hcheck := BatchM.run_forM_check (s := ⟨t, .new b.options (t.resolver b.classpath), {}⟩) hverdicts
  have hfilter : (units.filter fun u =>
      !(BatchReport.ofCourse (rejected verdicts)).rejects u.content.name) = passed verdicts := by
    rw [← hunits]
    exact filter_rejects (hunits ▸ hdistinct)
  rw [run, hread]
  dsimp only
  rw [BatchM.passes, BatchM.run_bind_of_ok hcheck,
    BatchM.run_bind_of_ok (show (get : BatchM BatchState).run.run _ = (.ok _, _) from rfl)]
  dsimp only
  rw [← BatchReport.ofCourse, hfilter, hrun, hcourse]
  simp [BatchReport.ofCourse]

/-! ## Reading back -/

/-- The units of a batch are what has been read from its files. -/
theorem units_eq_ok {t : FileTree} : b.units t = .ok units ↔ ∃ paths, t.collect b.inputs = .ok paths ∧
    paths ≠ [] ∧ Forall₂ (fun path u => u.path = path ∧ t.readUnit path = .ok (u.content, u.format))
      paths units := by
  have hmake (path : Path) (u : BatchUnit) :
      (do
        let read ← (t.readUnit path).mapError BatchError.file
        return { path, content := read.1, format := read.2 }) = Except.ok u ↔
      u.path = path ∧ t.readUnit path = .ok (u.content, u.format) := by
    rw [bind_eq_ok]
    constructor
    · rintro ⟨⟨c, f⟩, hread, hunit⟩
      cases hunit
      exact ⟨rfl, mapError_eq_ok.1 hread⟩
    · rintro ⟨rfl, hread⟩
      exact ⟨_, mapError_eq_ok.2 hread, rfl⟩
  unfold Batch.units
  rw [bind_eq_ok]
  refine exists_congr fun paths => and_congr mapError_eq_ok ?_
  rcases paths with - | ⟨path, paths⟩
  · refine iff_of_false (fun h => ?_) fun h => h.1 rfl
    cases h
  · rw [and_iff_right (List.cons_ne_nil path paths), if_neg (by simp)]
    simp only [← hmake]
    exact mapM_eq_ok

/-- All units of a batch have been read. -/
theorem decode_of_units {t : FileTree} (h : b.units t = .ok units) :
    ∀ u ∈ units, ∃ bytes, u.format.decode bytes = .ok u.content := by
  obtain ⟨paths, -, -, hall⟩ := units_eq_ok.1 h
  intro u hu
  obtain ⟨path, -, -, hread⟩ := exists_left_of_mem hall hu
  obtain ⟨-, bytes, -, hdecode⟩ := FileTree.readUnit_eq_ok.1 hread
  exact ⟨bytes, hdecode⟩

/-- The classes that are written for units. -/
theorem emitted_spec {t : FileTree} (hread : b.units t = .ok units)
    (hexact : ∀ u ∈ units, u.format = .json → u.content.IsExact)
    (hshort : ∀ u c, (u, .transformed c) ∈ b.course t units → u.format = .binary →
      Binary.Fits (Binary.ofClass c).length) {u : BatchUnit} {c : ClassDef}
    (h : (u, c) ∈ emitted (b.course t units)) :
    u ∈ units ∧ c.name = u.content.name ∧ u.format.Keeps c := by
  obtain ⟨hperm, hspec⟩ := course_spec b t units
  obtain ⟨⟨v, fate⟩, hmem, heq⟩ := List.mem_filterMap.1 h
  obtain ⟨c', hc, heq⟩ := Option.map_eq_some_iff.1 heq
  cases heq
  have hu : u ∈ units := hperm.subset (List.mem_map_of_mem hmem)
  obtain ⟨bytes, hdecode⟩ := decode_of_units hread u hu
  have hkeeps : u.format.Keeps u.content := UnitFormat.keeps_of_decode hdecode (hexact u hu)
  rcases hspec u fate hmem c hc with ⟨-, rfl⟩ | ⟨rfl, hgives⟩
  · exact ⟨hu, rfl, hkeeps⟩
  · exact ⟨hu, by rw [Inquiry.head_of_instrument hgives], hkeeps.instrument hgives (hshort u c hmem)⟩

/-- What is read for a class that has been written is the class, if no class that is written later has the
same file. -/
theorem readUnit_iff {t tree : FileTree} {root : Place} (hread : b.units t = .ok units)
    (hdistinct : (units.map (·.content.name)).Nodup)
    (hplaceable : Placeable (emitted (b.course t units)))
    (hexact : ∀ u ∈ units, u.format = .json → u.content.IsExact)
    (hshort : ∀ u c, (u, .transformed c) ∈ b.course t units → u.format = .binary →
      Binary.Fits (Binary.ofClass c).length)
    (hholds : tree.Holds b.target root (files (emitted (b.course t units))))
    {before after : List (BatchUnit × ClassDef)} {u : BatchUnit} {c : ClassDef}
    (hsplit : emitted (b.course t units) = before ++ (u, c) :: after) :
    tree.readUnit (unitPath b.target u.content.name u.format) = .ok (c, u.format) ↔
      ∀ p ∈ after, ¬ u.SharesFile p.1 := by
  have hmem : ∀ p ∈ (u, c) :: after, p ∈ emitted (b.course t units) := fun p hp =>
    hsplit ▸ List.mem_append_right _ hp
  have hu : (u, c) ∈ emitted (b.course t units) := hmem _ List.mem_cons_self
  have hplain : PlainName u.content.name := hplaceable.plain _ hu
  have hshares {p : BatchUnit × ClassDef} (hp : p ∈ after) : u.SharesFile p.1 ↔ u.place = p.1.place :=
    (unitPlace_eq_iff hplain (hplaceable.plain p (hmem p (List.mem_cons_of_mem _ hp)))).symm
  obtain ⟨-, hname, hkeeps⟩ := emitted_spec hread hexact hshort hu
  rcases lookup_files_split before after u c with ⟨hne, hlookup⟩ | ⟨⟨v, d⟩, hv, hplace, hlookup⟩
  · -- No class with the file has been written later.
    rw [← hsplit] at hlookup
    have hback := hholds.readUnit hplain hlookup (UnitFormat.decode_encode hkeeps)
    exact iff_of_true hback fun p hp h => hne p hp ((hshares hp).1 h).symm
  · -- The last one with the file is read, and it has another name.
    rw [← hsplit] at hlookup
    have hformat : v.format = u.format := ((hshares hv).2 hplace.symm).1.symm
    obtain ⟨-, hname', hkeeps'⟩ :=
      emitted_spec hread hexact hshort (hmem (v, d) (List.mem_cons_of_mem _ hv))
    rw [hformat] at hlookup hkeeps'
    have hback := hholds.readUnit hplain hlookup (UnitFormat.decode_encode hkeeps')
    refine iff_of_false (fun heq => ?_) fun hnone => hnone _ hv ((hshares hv).2 hplace.symm)
    rw [hback] at heq
    cases heq
    exact name_ne_of_emitted hdistinct hsplit hv (hname.symm.trans hname')

/-- **A batch loses a unit only to one with the same file.** Units with distinct names, below an empty
target where all that is written can be placed: the run comes to its end and reports every unit once. It
has written just the units that it reports as transformed or copied, in the form in which the instrumenter
has given them or as they were. Of these, a unit can be read back from its path if and only if no unit
with the same file has been written after it. If names have no dots in their last parts, that is every
unit.

Units in JSON must have no floating-point constants, and nothing that the instrumenter gives may be too
long for the binary form. -/
theorem kept_unless_overwritten {t : FileTree} {root : Place} (hread : b.units t = .ok units)
    (hdistinct : (units.map (·.content.name)).Nodup)
    (hplaceable : Placeable (emitted (b.course t units)))
    (hexact : ∀ u ∈ units, u.format = .json → u.content.IsExact)
    (htarget : t.place? b.target = some root) (hdir : t.node? root = some .dir)
    (hempty : ∀ rel ≠ [], t.node? (root ++ rel) = none)
    (hshort : ∀ u c, (u, .transformed c) ∈ b.course t units → u.format = .binary →
      (Binary.ofClass c).length < UInt32.size) :
    (b.run t).1 = .ok () ∧ (b.run t).2.report = .ofCourse (b.course t units) ∧
      (b.run t).2.report.names.Perm (units.map (·.content.name)) ∧
      (b.run t).2.report.written.Perm ((emitted (b.course t units)).map (·.1.content.name)) ∧
      (∀ u fate c, (u, fate) ∈ b.course t units → u.emitted? fate = some c →
        fate = .copied ∧ c = u.content ∨
          fate = .transformed c ∧ Gives (Inquiry.instrument u.content) c) ∧
      (∀ before u c after, emitted (b.course t units) = before ++ (u, c) :: after →
        ((b.run t).2.tree.readUnit (unitPath b.target u.content.name u.format) = .ok (c, u.format) ↔
          ∀ p ∈ after, ¬ u.SharesFile p.1)) ∧
      ((∀ p ∈ emitted (b.course t units), Undotted p.1.content.name) →
        ∀ u c, (u, c) ∈ emitted (b.course t units) →
          (b.run t).2.tree.readUnit (unitPath b.target u.content.name u.format) = .ok (c, u.format)) := by
  have hleads : t.Leads b.target root := .of_place? htarget hdir
  obtain ⟨tree, db, hrun, htree⟩ := run_eq hread hdistinct hplaceable hleads hempty
  rw [hrun]
  have hback {before after : List (BatchUnit × ClassDef)} {u : BatchUnit} {c : ClassDef}
      (hsplit : emitted (b.course t units) = before ++ (u, c) :: after) :=
    readUnit_iff hread hdistinct hplaceable hexact hshort htree hsplit
  refine ⟨rfl, rfl, (BatchReport.names_ofCourse _).trans (perm_names_course b t units),
    BatchReport.written_ofCourse _, fun u fate c hmem => (course_spec b t units).2 u fate hmem c,
    fun before u c after => hback, fun hundotted u c hu => ?_⟩
  obtain ⟨before, after, hsplit⟩ := List.append_of_mem hu
  refine (hback hsplit).2 fun p hp => ?_
  have hp' : p ∈ emitted (b.course t units) := by simp [hsplit, hp]
  exact BatchUnit.not_sharesFile (hplaceable.plain (u, c) hu) (hplaceable.plain p hp')
    (hundotted (u, c) hu)
    (hundotted p hp') (name_ne_of_emitted hdistinct hsplit hp)

/-! ### Two units with one file -/

/-- The files of two units, the names of which differ behind the dot only, and an empty directory. -/
def versionTree : FileTree where
  nodes := [(["in"], .dir), (["in", "A.json"], .file (UnitFormat.json.encode { name := "app/v1.A" })),
    (["in", "B.json"], .file (UnitFormat.json.encode { name := "app/v1.B" })), (["out"], .dir)]

def versionBatch : Batch where
  inputs := [.ofText "in/A.json", .ofText "in/B.json"]
  target := .ofText "out"

def versionA : BatchUnit := ⟨.ofText "in/A.json", { name := "app/v1.A" }, .json⟩

def versionB : BatchUnit := ⟨.ofText "in/B.json", { name := "app/v1.B" }, .json⟩

theorem units_versionBatch : versionBatch.units versionTree = .ok [versionA, versionB] := by
  have hcollect : versionTree.collect versionBatch.inputs = .ok [versionA.path, versionB.path] := by cbv
  have hreadA : versionTree.readUnit versionA.path = .ok (versionA.content, versionA.format) :=
    FileTree.readUnit_eq_ok.2 ⟨by decide, _, rfl,
      UnitFormat.decode_encode (by simp [UnitFormat.Keeps, ClassDef.IsExact, versionA])⟩
  have hreadB : versionTree.readUnit versionB.path = .ok (versionB.content, versionB.format) :=
    FileTree.readUnit_eq_ok.2 ⟨by decide, _, rfl,
      UnitFormat.decode_encode (by simp [UnitFormat.Keeps, ClassDef.IsExact, versionB])⟩
  exact units_eq_ok.2 ⟨_, hcollect, by simp, .cons ⟨rfl, hreadA⟩ (.cons ⟨rfl, hreadB⟩ .nil)⟩

theorem course_versionBatch : versionBatch.course versionTree [versionA, versionB] =
    [(versionA, .copied), (versionB, .copied)] := rfl

theorem kept_unless_overwritten_versions :
    (versionBatch.run versionTree).2.report.copied = ["app/v1.A", "app/v1.B"] ∧
      (versionBatch.run versionTree).2.tree.readUnit (unitPath (.ofText "out") "app/v1.A" .json) ≠
        .ok ({ name := "app/v1.A" }, .json) ∧
      (versionBatch.run versionTree).2.tree.readUnit (unitPath (.ofText "out") "app/v1.B" .json) =
        .ok ({ name := "app/v1.B" }, .json) := by
  have hemitted : emitted (versionBatch.course versionTree [versionA, versionB]) =
      [(versionA, versionA.content), (versionB, versionB.content)] := rfl
  have hplaceable : Placeable (emitted (versionBatch.course versionTree [versionA, versionB])) := by
    rw [hemitted]
    constructor <;> decide +kernel
  have hexact : ∀ u ∈ [versionA, versionB], u.format = .json → u.content.IsExact := by
    simp [ClassDef.IsExact, versionA, versionB]
  have htarget : versionTree.place? versionBatch.target = some ["out"] := rfl
  have hdir : versionTree.node? ["out"] = some .dir := rfl
  have hempty : ∀ rel ≠ [], versionTree.node? (["out"] ++ rel) = none := by
    rintro (_ | ⟨name, rest⟩) hrel
    · exact absurd rfl hrel
    · simp [versionTree, FileTree.node?, List.lookup]
  have hshort : ∀ u c, (u, .transformed c) ∈ versionBatch.course versionTree [versionA, versionB] →
      u.format = .binary → (Binary.ofClass c).length < UInt32.size := by
    rw [course_versionBatch]
    simp
  obtain ⟨-, hreport, -, -, -, hback, -⟩ := kept_unless_overwritten units_versionBatch (by decide)
    hplaceable hexact htarget hdir hempty hshort
  refine ⟨by rw [hreport]; rfl, fun hkept => ?_, ?_⟩
  · have hshares : versionA.SharesFile versionB := by decide +kernel
    exact (hback [] versionA _ [(versionB, versionB.content)] hemitted).1 hkept _
      List.mem_cons_self hshares
  · exact (hback [(versionA, versionA.content)] versionB _ [] hemitted).2 (by simp)

end Batch

end Resumable
