import Resumable.Proofs.Disk.Paths

/-!
# Writing below a directory

A path may lead to a directory by empty segments and dots; what is put behind its open end leads on from
there (`FileTree.Leads`). Writing a class makes the directories above its file and the file, and leaves all
else as it is, unless a file is where a directory has to be or the other way round
(`FileTree.writeUnit_spec`).

What has been written into an empty directory is the list of these files, the last one first
(`FileTree.Holds`). A further class can be written if its file is neither above nor below another one, and
what is read for a class is what has been written last at its place.
-/

namespace Resumable

namespace Path

variable {p : Path} {segments rest : List String} {s : String}

/-! ## Behind an open end -/

theorem opened_ne_nil (h : p.isEmpty = false) : p.opened ≠ [] := by
  obtain ⟨_ | ⟨first, _ | ⟨next, rest⟩⟩⟩ := p
  · cases h
  · have hne : first ≠ "" := by simpa [isEmpty] using h
    simp [opened, hne]
  · unfold opened
    split <;> simp

/-- A path starts where it did after something has been put behind its open end. -/
theorem isAbsolute_opened (h : p.isEmpty = false) (hrest : rest ≠ []) :
    isAbsolute ⟨p.opened ++ rest⟩ = p.isAbsolute := by
  have hpos : 0 < rest.length := List.length_pos_of_ne_nil hrest
  obtain ⟨_ | ⟨first, _ | ⟨next, segments⟩⟩⟩ := p
  · cases h
  · have hne : first ≠ "" := by simpa [isEmpty] using h
    simp [opened, isAbsolute, hne]
  · have hlength : 2 ≤ segments.length + 2 + rest.length := by omega
    unfold opened isAbsolute
    split
    · simp
      omega
    · simp

theorem isEmpty_cons (h : s :: rest ≠ [""]) : isEmpty ⟨s :: rest⟩ = false := by
  rcases rest with - | ⟨next, rest⟩
  · simpa [isEmpty] using h
  · simp [isEmpty]

/-- A path of more than an empty segment is absolute if its first segment is empty. -/
theorem isAbsolute_cons (h : s :: rest ≠ [""]) : isAbsolute ⟨s :: rest⟩ = (s == "") := by
  rcases rest with - | ⟨next, rest⟩
  · have hne : s ≠ "" := by simpa using h
    simp [isAbsolute, hne]
  · simp [isAbsolute]

theorem isEmpty_of_name (h : IsName s) : isEmpty ⟨segments ++ [s]⟩ = false := by
  simp [isEmpty, h.ne_empty]

/-! ## Parents -/

/-- What is left of a path after idle segments at its end have been cut off. -/
theorem trim_spec {first : String} {rest : List String} : ∃ kept idle,
    trim ⟨first :: rest⟩ = ⟨first :: kept⟩ ∧ rest = kept ++ idle ∧ ∀ s ∈ idle, isIdle s = true := by
  refine ⟨(rest.reverse.dropWhile isIdle).reverse, (rest.reverse.takeWhile isIdle).reverse, rfl, ?_, ?_⟩
  · rw [← List.reverse_append, List.takeWhile_append_dropWhile, List.reverse_reverse]
  · intro s hs
    exact List.mem_takeWhile_imp (List.mem_reverse.1 hs)

theorem parent?_of_name (h : IsName s) {first : String} {rest : List String} :
    parent? ⟨first :: rest ++ [s]⟩ = some (if (trim ⟨first :: rest⟩).segments = [""] then ofText "/"
      else trim ⟨first :: rest⟩) := by
  have hdrop : (first :: rest ++ [s]).dropLast = first :: rest := List.dropLast_concat
  unfold parent?
  rw [trim_of_name h]
  rcases rest with - | ⟨next, rest⟩
  · rfl
  · simp only [List.cons_append] at hdrop ⊢
    rw [hdrop]

end Path

namespace FileTree

variable {t t' : FileTree} {place root : Place} {segments rest : List String} {p : Path}
  {s : String}

/-! ## Walking -/

theorem step?_eq_some {next : Place} (h : t.step? place s = some next) :
    t.node? place = some .dir ∧ next = if Path.isIdle s then place
      else if s = ".." then place.dropLast else place ++ [s] := by
  unfold step? at h
  split at h
  · next hdir =>
    cases h
    exact ⟨hdir, rfl⟩
  · cases h

theorem step?_of_name (hdir : t.node? place = some .dir) (h : Path.IsName s) :
    t.step? place s = some (place ++ [s]) := by
  simp [step?, hdir, h.1, h.2]

/-- A walk goes the same way in a tree that has all the directories. -/
theorem foldlM_step?_mono (hkept : ∀ q, t.node? q = some .dir → t'.node? q = some .dir)
    (h : segments.foldlM t.step? place = some root) :
    segments.foldlM t'.step? place = some root := by
  induction segments generalizing place with
  | nil => exact h
  | cons s segments ih =>
    rw [List.foldlM_cons] at h ⊢
    obtain ⟨next, hstep, hrest⟩ := Option.bind_eq_some_iff.1 h
    obtain ⟨hdir, -⟩ := step?_eq_some hstep
    have hstep' : t'.step? place s = some next := by
      rw [← hstep, step?, step?, hdir, hkept place hdir]
    rw [hstep']
    exact ih hrest

/-- No directory has to be made along a walk over directories. -/
theorem enterAll_of_walk (h : segments.foldlM t.step? place = some root)
    (hroot : t.node? root = some .dir) (rest : List String) :
    t.enterAll place (segments ++ rest) = t.enterAll root rest := by
  induction segments generalizing place with
  | nil =>
    cases h
    rfl
  | cons s segments ih =>
    rw [List.foldlM_cons] at h
    obtain ⟨next, hstep, hrest⟩ := Option.bind_eq_some_iff.1 h
    have hnext : t.node? next = some .dir := by
      rcases segments with - | ⟨s', segments⟩
      · cases hrest
        exact hroot
      · rw [List.foldlM_cons] at hrest
        obtain ⟨_, hstep', -⟩ := Option.bind_eq_some_iff.1 hrest
        exact (step?_eq_some hstep').1
    have henter : t.enter? place s = some (t, next) := by
      simp [enter?, hstep, hnext]
    rw [List.cons_append, enterAll, henter]
    exact ih hrest

/-- Names lead down through directories. -/
theorem foldlM_step?_names (h : ∀ s ∈ segments, Path.IsName s)
    (hdirs : ∀ pre, pre <+: segments → pre ≠ segments → t.node? (place ++ pre) = some .dir) :
    segments.foldlM t.step? place = some (place ++ segments) := by
  induction segments generalizing place with
  | nil => simp
  | cons first segments ih =>
    rw [List.forall_mem_cons] at h
    have hdir : t.node? place = some .dir := by simpa using hdirs [] List.nil_prefix
    have hrest : segments.foldlM t.step? (place ++ [first]) = some (place ++ [first] ++ segments) := by
      refine ih h.2 fun pre hpre hne => ?_
      rw [List.append_assoc]
      exact hdirs (first :: pre) ((List.prefix_cons_inj first).2 hpre) (by simpa using hne)
    rw [List.foldlM_cons, step?_of_name hdir h.1]
    simpa using hrest

/-- A directory is made if it is not there. -/
theorem enter?_name (hname : Path.IsName s) (hvalid : isFileName s = true)
    (hdir : t.node? place = some .dir)
    (hfree : ∀ bytes, t.node? (place ++ [s]) ≠ some (.file bytes)) :
    ∃ t', t.enter? place s = some (t', place ++ [s]) ∧ t'.start = t.start ∧
      t'.node? (place ++ [s]) = some .dir ∧ ∀ q ≠ place ++ [s], t'.node? q = t.node? q := by
  have hstep : t.step? place s = some (place ++ [s]) := step?_of_name hdir hname
  rcases hnode : t.node? (place ++ [s]) with - | - | bytes
  · refine ⟨t.put (place ++ [s]) .dir, ?_, rfl, node?_put_self _ _ (by simp), fun q hq =>
      node?_put_of_ne _ _ hq⟩
    simp [enter?, hstep, hnode, hvalid]
  · refine ⟨t, ?_, rfl, hnode, fun _ _ => rfl⟩
    simp [enter?, hstep, hnode]
  · exact absurd hnode (hfree bytes)

/-- Directories are made where nothing is, and nothing else changes. -/
theorem enterAll_names (h : ∀ s ∈ segments, Path.IsName s ∧ isFileName s = true)
    (hdir : t.node? place = some .dir)
    (hfree : ∀ pre, pre <+: segments → ∀ bytes, t.node? (place ++ pre) ≠ some (.file bytes)) :
    ∃ t', t.enterAll place segments = (t', true) ∧ t'.start = t.start ∧
      (∀ pre, pre <+: segments → t'.node? (place ++ pre) = some .dir) ∧
      ∀ q, (∀ pre, pre <+: segments → q ≠ place ++ pre) → t'.node? q = t.node? q := by
  induction segments generalizing t place with
  | nil =>
    refine ⟨t, rfl, rfl, fun pre hpre => ?_, fun _ _ => rfl⟩
    rw [List.prefix_nil.1 hpre, List.append_nil, hdir]
  | cons s segments ih =>
    rw [List.forall_mem_cons] at h
    have hcons {pre : List String} (hpre : pre <+: segments) : s :: pre <+: s :: segments :=
      (List.prefix_cons_inj s).2 hpre
    obtain ⟨t₁, henter, hstart₁, hdir₁, hsame₁⟩ :=
      enter?_name h.1.1 h.1.2 hdir (hfree [s] (hcons List.nil_prefix))
    have hfree₁ : ∀ pre, pre <+: segments → ∀ bytes,
        t₁.node? (place ++ [s] ++ pre) ≠ some (.file bytes) := by
      intro pre hpre bytes
      rcases eq_or_ne pre [] with rfl | hne
      · simp [hdir₁]
      · rw [hsame₁ _ (by simpa using hne), List.append_assoc]
        exact hfree (s :: pre) (hcons hpre) bytes
    obtain ⟨t', hmade, hstart, hdirs, hsame⟩ := ih h.2 hdir₁ hfree₁
    refine ⟨t', ?_, hstart.trans hstart₁, fun pre hpre => ?_, fun q hq => ?_⟩
    · rw [enterAll, henter]
      exact hmade
    · rcases pre with - | ⟨first, pre⟩
      · have hplace : t'.node? place = t₁.node? place := by
          apply hsame
          intro pre _ heq
          simpa using congrArg List.length heq
        rw [List.append_nil, hplace, hsame₁ _ (by simp), hdir]
      · obtain ⟨rfl, hrest⟩ := List.cons_prefix_cons.1 hpre
        have hmade := hdirs pre hrest
        rwa [List.append_assoc] at hmade
    · have hq₁ : t'.node? q = t₁.node? q := by
        apply hsame
        intro pre hpre
        rw [List.append_assoc]
        exact hq (s :: pre) (hcons hpre)
      rw [hq₁, hsame₁ _ (hq [s] (hcons List.nil_prefix))]

/-- Idle segments lead nowhere else. -/
theorem eq_of_walk_idle (hidle : ∀ s ∈ segments, Path.isIdle s = true)
    (h : segments.foldlM t.step? place = some root) : place = root := by
  induction segments with
  | nil => exact Option.some.inj h
  | cons s segments ih =>
    rw [List.forall_mem_cons] at hidle
    rw [List.foldlM_cons] at h
    obtain ⟨next, hstep, hrest⟩ := Option.bind_eq_some_iff.1 h
    obtain ⟨-, rfl⟩ := step?_eq_some hstep
    rw [if_pos hidle.1] at hrest
    exact ih hidle.2 hrest

/-! ## Paths below a directory -/

/-- A path that is not empty leads, from where it starts, to a directory. -/
structure Leads (t : FileTree) (target : Path) (root : Place) : Prop where
  nonempty : target.isEmpty = false
  walk : target.opened.foldlM t.step? (t.origin target) = some root
  dir : t.node? root = some .dir

namespace Leads

variable {target : Path} {dirs : List String}

theorem of_place? (h : t.place? target = some root) (hdir : t.node? root = some .dir) :
    t.Leads target root := by
  unfold place? at h
  split at h
  · cases h
  · next hne =>
    refine ⟨by simpa using hne, ?_, hdir⟩
    unfold Path.opened
    split
    · next hlast =>
      -- The empty segment at the end leads nowhere else.
      obtain ⟨front, heq⟩ := List.getLast?_eq_some_iff.1 (beq_iff_eq.1 hlast)
      rw [heq, List.foldlM_append] at h
      obtain ⟨place, hwalk, hstep⟩ := Option.bind_eq_some_iff.1 h
      rw [heq, List.dropLast_concat, hwalk, eq_of_walk_idle (by decide) hstep]
    · exact h

/-- The way to a directory stays if all directories stay. -/
theorem mono (h : t.Leads target root) (hstart : t'.start = t.start)
    (hkept : ∀ q, t.node? q = some .dir → t'.node? q = some .dir) : t'.Leads target root where
  nonempty := h.nonempty
  walk := by
    rw [origin, hstart]
    exact foldlM_step?_mono hkept h.walk
  dir := hkept root h.dir

theorem origin_opened (h : t.Leads target root) (hrest : rest ≠ []) :
    t.origin ⟨target.opened ++ rest⟩ = t.origin target := by
  rw [origin, origin, Path.isAbsolute_opened h.nonempty hrest]

/-- Names behind the open end of the path lead below the directory. -/
theorem place?_opened (h : t.Leads target root) (hnames : ∀ x ∈ dirs ++ [s], Path.IsName x)
    (hdirs : ∀ pre, pre <+: dirs → t.node? (root ++ pre) = some .dir) :
    t.place? ⟨target.opened ++ (dirs ++ [s])⟩ = some (root ++ (dirs ++ [s])) := by
  have hnonempty : Path.isEmpty ⟨target.opened ++ (dirs ++ [s])⟩ = false := by
    rw [← List.append_assoc]
    exact Path.isEmpty_of_name (hnames s (by simp))
  rw [place?, hnonempty, if_neg (by simp), h.origin_opened (by simp), List.foldlM_append, h.walk]
  refine foldlM_step?_names hnames fun pre hpre hne => hdirs pre ?_
  exact (List.prefix_concat_iff.1 hpre).resolve_left hne

/-- The directories above a file are made below the directory. -/
theorem makeDirs_parent (h : t.Leads target root) (hdirs : ∀ s ∈ dirs, Path.IsName s)
    (hs : Path.IsName s) :
    ∃ above, Path.parent? ⟨target.opened ++ (dirs ++ [s])⟩ = some above ∧
      t.makeDirs above = t.enterAll root dirs := by
  obtain ⟨first, rest, hopened⟩ := List.exists_cons_of_ne_nil (Path.opened_ne_nil h.nonempty)
  rw [← List.append_assoc, hopened, List.cons_append]
  refine ⟨_, Path.parent?_of_name hs, ?_⟩
  rcases List.eq_nil_or_concat dirs with rfl | ⟨front, last, rfl⟩
  · -- There is nothing to make: the path of the directory is walked once more.
    obtain ⟨kept, idle, htrim, hkept, hidle⟩ := @Path.trim_spec first rest
    rw [List.append_nil, htrim]
    split
    · rfl
    · next hne =>
      have hwalk : (first :: kept).foldlM t.step? (t.origin target) = some root := by
        have hwhole := h.walk
        rw [hopened, hkept, ← List.cons_append, List.foldlM_append] at hwhole
        obtain ⟨place, hwalk, hrest⟩ := Option.bind_eq_some_iff.1 hwhole
        rw [hwalk, eq_of_walk_idle hidle hrest]
      have horigin : t.origin ⟨first :: kept⟩ = t.origin target := by
        rw [← h.origin_opened (List.cons_ne_nil s []), hopened, List.cons_append, origin, origin,
          Path.isAbsolute_cons hne, Path.isAbsolute_cons (by simp)]
      have hnonempty : Path.isEmpty ⟨first :: kept⟩ = false := Path.isEmpty_cons hne
      have henter := enterAll_of_walk hwalk h.dir []
      rw [List.append_nil] at henter
      rw [makeDirs, hnonempty, if_neg (by simp), horigin, henter]
  · have hlast : Path.IsName last := hdirs last (by simp)
    have hsegments : first :: (rest ++ front.concat last) = first :: (rest ++ front) ++ [last] := by simp
    have hnonempty : Path.isEmpty ⟨first :: (rest ++ front) ++ [last]⟩ = false :=
      Path.isEmpty_of_name hlast
    have horigin : t.origin ⟨first :: (rest ++ front) ++ [last]⟩ = t.origin target := by
      rw [← h.origin_opened (List.append_ne_nil_of_right_ne_nil front (List.cons_ne_nil last [])),
        hopened]
      simp
    rw [hsegments, Path.trim_of_name hlast, if_neg (by simp), makeDirs, hnonempty, if_neg (by simp),
      horigin]
    have henter := enterAll_of_walk h.walk h.dir (front ++ [last])
    rw [hopened] at henter
    simpa using henter

end Leads

/-! ## Files below a directory -/

theorem write?_of_place? {bytes : List UInt8} (hplace : t.place? p = some place)
    (hnotDir : t.node? place ≠ some .dir) (hlast : place.getLast? = some s)
    (hvalid : isFileName s = true) : t.write? p bytes = some (t.put place (.file bytes)) := by
  unfold write?
  rw [hplace, Option.bind_eq_bind, Option.bind_some]
  split
  · next hdir => exact absurd hdir hnotDir
  · rfl
  · rw [hlast, if_pos (by simpa using hvalid)]
    rfl

section

variable {target : Path} {c : ClassDef} {f : UnitFormat} {name : String} {pre : Place}

theorem prefix_unitDirs (h : pre <+: unitPlace name f) (hne : pre ≠ unitPlace name f) :
    pre <+: unitDirs name := (List.prefix_concat_iff.1 h).resolve_left hne

theorem prefix_unitPlace (h : pre <+: unitDirs name) :
    pre <+: unitPlace name f ∧ pre ≠ unitPlace name f := by
  refine ⟨h.trans (List.prefix_append _ _), ?_⟩
  rintro rfl
  have hlength := h.length_le
  simp [unitPlace] at hlength

/-- A class is written below a directory if no file is in the way: its file and the directories above it
are there, and all else is as before. -/
theorem writeUnit_spec (hleads : t.Leads target root) (hname : PlainName c.name)
    (hvalid : ∀ s ∈ unitPlace c.name f, isFileName s = true)
    (hfree : ∀ pre, pre <+: unitDirs c.name → ∀ bytes, t.node? (root ++ pre) ≠ some (.file bytes))
    (hnotDir : t.node? (root ++ unitPlace c.name f) ≠ some .dir) :
    ∃ t', t.writeUnit target c f = (t', .ok ()) ∧ t'.Leads target root ∧
      (∀ q, t.node? q = some .dir → t'.node? q = some .dir) ∧
      t'.node? (root ++ unitPlace c.name f) = some (.file (f.encode c)) ∧
      (∀ pre, pre <+: unitDirs c.name → t'.node? (root ++ pre) = some .dir) ∧
      ∀ q ≠ root ++ unitPlace c.name f, (∀ pre, pre <+: unitDirs c.name → q ≠ root ++ pre) →
        t'.node? q = t.node? q := by
  have hfile : Path.IsName (unitStem c.name ++ "." ++ f.ending) := isName_unitFile f
  have hdirNames : ∀ s ∈ unitDirs c.name, Path.IsName s ∧ isFileName s = true := fun s hs =>
    ⟨isName_of_mem_unitDirs hname hs, hvalid s (List.mem_append_left _ hs)⟩
  -- The directories above the file are made.
  obtain ⟨above, hparent, hmake⟩ := hleads.makeDirs_parent (fun s hs => (hdirNames s hs).1) hfile
  obtain ⟨t₁, henter, hstart, hdirs, hsame⟩ := enterAll_names hdirNames hleads.dir hfree
  have hkept : ∀ q, t.node? q = some .dir → t₁.node? q = some .dir := by
    intro q hq
    by_cases hmade : ∃ pre, pre <+: unitDirs c.name ∧ q = root ++ pre
    · obtain ⟨pre, hpre, rfl⟩ := hmade
      exact hdirs pre hpre
    · push Not at hmade
      rw [hsame q hmade, hq]
  have hleads₁ : t₁.Leads target root := hleads.mono hstart hkept
  -- The file is written.
  have hlies : ∀ pre, pre <+: unitDirs c.name → root ++ unitPlace c.name f ≠ root ++ pre :=
    fun pre hpre heq => (prefix_unitPlace (f := f) hpre).2 (List.append_cancel_left heq).symm
  have hplace : t₁.place? (unitPath target c.name f) = some (root ++ unitPlace c.name f) := by
    rw [unitPath_eq hname]
    exact hleads₁.place?_opened (fun s => isName_of_mem_unitPlace hname f) hdirs
  have hnotDir₁ : t₁.node? (root ++ unitPlace c.name f) ≠ some .dir := by rwa [hsame _ hlies]
  have hlast : (root ++ unitPlace c.name f).getLast? = some (unitStem c.name ++ "." ++ f.ending) := by
    simp [unitPlace]
  have hwrite : t₁.write? (unitPath target c.name f) (f.encode c) =
      some (t₁.put (root ++ unitPlace c.name f) (.file (f.encode c))) :=
    write?_of_place? hplace hnotDir₁ hlast (hvalid _ (by simp [unitPlace]))
  have hput (q : Place) (hq : t₁.node? q = some .dir) :
      (t₁.put (root ++ unitPlace c.name f) (.file (f.encode c))).node? q = some .dir := by
    have hne : q ≠ root ++ unitPlace c.name f := by
      rintro rfl
      exact hnotDir₁ hq
    rw [node?_put_of_ne _ _ hne, hq]
  refine ⟨t₁.put (root ++ unitPlace c.name f) (.file (f.encode c)), ?_, hleads₁.mono rfl hput,
    fun q hq => hput q (hkept q hq), node?_put_self _ _ (by simp [unitPlace]),
    fun pre hpre => hput _ (hdirs pre hpre), fun q hq hpre => ?_⟩
  · rw [unitPath_eq hname] at hwrite
    rw [writeUnit, unitPath_eq hname]
    unfold unitPlace at hwrite ⊢
    simp only [hparent, hmake, henter, hwrite]
    rfl
  · rw [node?_put_of_ne _ _ hq, hsame q hpre]

end

/-- A class is read if the bytes of the file are the class in the format that the path tells. -/
theorem readUnit_eq_ok {c : ClassDef} {f : UnitFormat} : t.readUnit p = .ok (c, f) ↔
    UnitFormat.ofPath? p = some f ∧ ∃ bytes, t.read? p = some bytes ∧ f.decode bytes = .ok c := by
  constructor
  · intro h
    unfold readUnit at h
    split at h
    · cases h
    next g hformat =>
    split at h
    · cases h
    next bytes hread =>
    split at h
    · next hdecode =>
      cases h
      exact ⟨hformat, bytes, hread, hdecode⟩
    · cases h
  · rintro ⟨hformat, bytes, hread, hdecode⟩
    unfold readUnit
    simp only [hformat, hread, hdecode]

/-- Files have been written below a directory that was empty, the last one first. Nothing else is there
but the directories above them. -/
structure Holds (t : FileTree) (target : Path) (root : Place) (files : List (Place × List UInt8)) :
    Prop where
  leads : t.Leads target root
  /-- Of several files with one place the last one counts. -/
  file : ∀ rel bytes, files.lookup rel = some bytes → t.node? (root ++ rel) = some (.file bytes)
  mem_of_file : ∀ rel bytes, t.node? (root ++ rel) = some (.file bytes) → rel ∈ files.map Prod.fst
  above : ∀ rel ∈ files.map Prod.fst, ∀ pre, pre <+: rel → pre ≠ rel → t.node? (root ++ pre) = some .dir
  of_dir : ∀ rel, t.node? (root ++ rel) = some .dir →
    rel = [] ∨ ∃ other ∈ files.map Prod.fst, rel <+: other ∧ rel ≠ other

namespace Holds

variable {target : Path} {files : List (Place × List UInt8)} {c : ClassDef} {f : UnitFormat}

/-- Nothing has been written yet. -/
theorem nil (h : t.Leads target root) (hempty : ∀ rel ≠ [], t.node? (root ++ rel) = none) :
    t.Holds target root [] where
  leads := h
  file rel bytes hlookup := by cases hlookup
  mem_of_file rel bytes hfile := by
    rcases eq_or_ne rel [] with rfl | hne
    · rw [List.append_nil, h.dir] at hfile
      cases hfile
    · rw [hempty rel hne] at hfile
      cases hfile
  above rel hrel := by cases hrel
  of_dir rel hdir := by
    rcases eq_or_ne rel [] with rfl | hne
    · exact .inl rfl
    · rw [hempty rel hne] at hdir
      cases hdir

/-- One more class is written, if no other file is above or below its file. -/
theorem writeUnit (h : t.Holds target root files) (hname : PlainName c.name)
    (hvalid : ∀ s ∈ unitPlace c.name f, isFileName s = true)
    (hapart : ∀ other ∈ files.map Prod.fst,
      other <+: unitPlace c.name f ∨ unitPlace c.name f <+: other → other = unitPlace c.name f) :
    ∃ t', t.writeUnit target c f = (t', .ok ()) ∧
      t'.Holds target root ((unitPlace c.name f, f.encode c) :: files) := by
  have hfree : ∀ pre, pre <+: unitDirs c.name → ∀ bytes, t.node? (root ++ pre) ≠ some (.file bytes) := by
    intro pre hpre bytes hfile
    obtain ⟨habove, hne⟩ := prefix_unitPlace (f := f) hpre
    exact hne (hapart pre (h.mem_of_file pre bytes hfile) (.inl habove))
  have hnotDir : t.node? (root ++ unitPlace c.name f) ≠ some .dir := by
    intro hdir
    rcases h.of_dir _ hdir with hnil | ⟨other, hmem, habove, hne⟩
    · simp [unitPlace] at hnil
    · exact hne (hapart other hmem (.inr habove)).symm
  obtain ⟨t', hwrite, hleads, hkept, hfile, hdirs, hsame⟩ :=
    writeUnit_spec h.leads hname hvalid hfree hnotDir
  -- What is at a place: the new file, a directory above it, or what was there.
  have hcases (rel : Place) : rel = unitPlace c.name f ∨ rel <+: unitDirs c.name ∨
      t'.node? (root ++ rel) = t.node? (root ++ rel) := by
    by_cases hrel : rel = unitPlace c.name f
    · exact .inl hrel
    · by_cases hpre : rel <+: unitDirs c.name
      · exact .inr (.inl hpre)
      · refine .inr (.inr (hsame _ (by simpa using hrel) fun pre hpre' heq => ?_))
        rw [List.append_cancel_left heq] at hpre
        exact hpre hpre'
  refine ⟨t', hwrite, hleads, fun rel bytes hlookup => ?_, fun rel bytes hrel => ?_,
    fun rel hrel pre hpre hne => ?_, fun rel hdir => ?_⟩
  · rw [List.lookup_cons] at hlookup
    split at hlookup
    · next heq =>
      cases hlookup
      rw [beq_iff_eq.1 heq, hfile]
    · next hne =>
      have hold := h.file rel bytes hlookup
      rcases hcases rel with rfl | hpre | hsame
      · simp at hne
      · exact absurd hold (hfree rel hpre bytes)
      · rw [hsame, hold]
  · rcases hcases rel with rfl | hpre | hsame
    · simp
    · rw [hdirs rel hpre] at hrel
      cases hrel
    · rw [hsame] at hrel
      exact List.mem_cons_of_mem _ (h.mem_of_file rel bytes hrel)
  · rcases List.mem_cons.1 hrel with rfl | hold
    · exact hdirs pre (prefix_unitDirs hpre hne)
    · exact hkept _ (h.above rel hold pre hpre hne)
  · rcases hcases rel with rfl | hpre | hsame
    · rw [hfile] at hdir
      cases hdir
    · exact .inr ⟨unitPlace c.name f, by simp, prefix_unitPlace hpre⟩
    · rw [hsame] at hdir
      rcases h.of_dir rel hdir with hnil | ⟨other, hmem, habove⟩
      · exact .inl hnil
      · exact .inr ⟨other, List.mem_cons_of_mem _ hmem, habove⟩

/-- What is read for a class is what was written at its place last. -/
theorem readUnit (h : t.Holds target root files) {name : String} (hname : PlainName name)
    {bytes : List UInt8} (hlookup : files.lookup (unitPlace name f) = some bytes)
    (hdecode : f.decode bytes = .ok c) : t.readUnit (unitPath target name f) = .ok (c, f) := by
  have hmem : unitPlace name f ∈ files.map Prod.fst := by
    obtain ⟨front, rest, heq, -⟩ := List.lookup_eq_some_iff.1 hlookup
    simp [heq]
  have hplace : t.place? (unitPath target name f) = some (root ++ unitPlace name f) := by
    rw [unitPath_eq hname]
    exact h.leads.place?_opened (fun s => isName_of_mem_unitPlace hname f) fun pre hpre =>
      h.above _ hmem pre (prefix_unitPlace hpre).1 (prefix_unitPlace hpre).2
  have hread : t.read? (unitPath target name f) = some bytes := by
    rw [read?, find?, hplace, Option.bind_some, h.file _ _ hlookup]
  exact readUnit_eq_ok.2 ⟨ofPath?_unitPath hname f target, bytes, hread, hdecode⟩

end Holds

end FileTree

end Resumable
