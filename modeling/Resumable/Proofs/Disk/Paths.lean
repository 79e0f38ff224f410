import Mathlib
import Resumable.Disk.UnitFile

/-!
# Where units are kept

The file of a class stands below a root at the place that the class's name spells (`unitPlace`): all
parts of the name but the last are directories, and the last gives way to a name with the extension
of the format. What the last part has behind a dot gives way too (`Path.splitName`), so classes with
different names can have one place. It does not happen to names whose last part has no dot behind its
first letter (`unitPlace_inj`).
-/

namespace Resumable

namespace Path

variable {segment : String} {front : List String} {p : Path}

/-- The segment is a name: it neither stays where it is nor goes up. -/
def IsName (segment : String) : Prop := isIdle segment = false ∧ segment ≠ ".."

instance : DecidablePred IsName := fun segment =>
  inferInstanceAs (Decidable (isIdle segment = false ∧ segment ≠ ".."))

theorem IsName.ne_empty (h : IsName segment) : segment ≠ "" := by
  rintro rfl
  exact absurd h.1 (by decide)

/-! ## Ends of paths -/

/-- The segments of a path, open at the end: something can be put behind them. -/
def opened (p : Path) : List String :=
  if p.segments.getLast? == some "" then p.segments.dropLast else p.segments

theorem segments_push (p : Path) (segment : String) :
    (p.push segment).segments = p.opened ++ [segment] := by
  unfold push append opened
  split <;> rfl

theorem opened_of_name (h : IsName segment) : opened ⟨front ++ [segment]⟩ = front ++ [segment] := by
  unfold opened
  rw [if_neg]
  simpa using h.ne_empty

theorem opened_push (p : Path) (h : IsName segment) :
    (p.push segment).opened = p.opened ++ [segment] := by
  rw [show p.push segment = ⟨p.opened ++ [segment]⟩ from congrArg mk (segments_push p segment)]
  exact opened_of_name h

theorem segments_foldl_push {segments : List String} (h : ∀ s ∈ segments, IsName s)
    (hne : segments ≠ []) (p : Path) :
    (segments.foldl push p).segments = p.opened ++ segments := by
  induction segments generalizing p with
  | nil => exact absurd rfl hne
  | cons segment rest ih =>
    rw [List.forall_mem_cons] at h
    rw [List.foldl_cons]
    rcases rest with - | ⟨next, rest⟩
    · exact segments_push p segment
    · rw [ih h.2 (List.cons_ne_nil _ _), opened_push p h.1, List.append_assoc, List.singleton_append]

/-- Nothing is cut off behind a name. -/
theorem trim_of_name (h : IsName segment) : trim ⟨front ++ [segment]⟩ = ⟨front ++ [segment]⟩ := by
  rcases front with - | ⟨first, rest⟩
  · rfl
  · simp [trim, h.1]

theorem fileName?_of_name (h : IsName segment) : fileName? ⟨front ++ [segment]⟩ = some segment := by
  unfold fileName?
  rw [trim_of_name h]
  simp [h.1, h.2]

theorem withExtension_of_name (h : IsName segment) (ending : String) :
    withExtension ⟨front ++ [segment]⟩ ending =
      ⟨front ++ [(splitName segment).1 ++ "." ++ ending]⟩ := by
  unfold withExtension
  rw [fileName?_of_name h, trim_of_name h]
  simp

/-! ## Extensions -/

/-- Dropping as many letters as are taken in front of a dot leaves what comes from the dot on. -/
theorem drop_length_takeWhile (p : Char → Bool) (cs : List Char) :
    cs.drop (cs.takeWhile p).length = cs.dropWhile p := by
  induction cs with
  | nil => rfl
  | cons c cs ih =>
    by_cases h : p c = true
    · simp [h, ih]
    · simp [h]

/-- A name is cut in front of what follows its last dot, unless nothing would be left. -/
theorem splitName_eq (name : String) : splitName name =
    match name.toList.reverse.dropWhile (· != '.') with
    | _ :: c :: stem => (String.ofList (c :: stem).reverse,
        some (String.ofList (name.toList.reverse.takeWhile (· != '.')).reverse))
    | _ => (name, none) := by
  calc splitName name
    _ = match name.toList.reverse.drop (name.toList.reverse.takeWhile (· != '.')).length with
        | _ :: c :: stem => (String.ofList (c :: stem).reverse,
            some (String.ofList (name.toList.reverse.takeWhile (· != '.')).reverse))
        | _ => (name, none) := rfl
    _ = _ := by rw [drop_length_takeWhile]

/-- A name without a dot behind its first letter is all stem. -/
theorem splitName_of_undotted {name : String} (h : '.' ∉ name.toList.tail) :
    splitName name = (name, none) := by
  rw [splitName_eq]
  split
  · next dot c stem heq =>
    have hdot : dot = '.' := by
      have hhead := List.head_dropWhile_not (· != '.') (by rw [heq]; simp)
      simpa [heq] using hhead
    have hback := List.takeWhile_append_dropWhile (p := (· != '.')) (l := name.toList.reverse)
    rw [heq, hdot] at hback
    have hname := congrArg List.reverse hback
    rw [List.reverse_reverse] at hname
    rw [← hname] at h
    rcases hstem : stem.reverse with - | ⟨x, xs⟩ <;> simp [hstem] at h
  · rfl

theorem splitName_ne_empty {name : String} (h : name ≠ "") : (splitName name).1 ≠ "" := by
  rw [splitName_eq]
  split
  · simp
  · exact h

theorem splitName_append {stem ending : String} (hstem : stem ≠ "") (hending : '.' ∉ ending.toList) :
    splitName (stem ++ "." ++ ending) = (stem, some ending) := by
  have hback : (stem ++ "." ++ ending).toList.reverse =
      ending.toList.reverse ++ '.' :: stem.toList.reverse := by simp
  have hletters : ∀ c ∈ ending.toList.reverse, (c != '.') = true := by
    intro c hc
    simpa using ne_of_mem_of_not_mem (List.mem_reverse.1 hc) hending
  rw [splitName_eq, hback, List.takeWhile_append_of_pos hletters, List.dropWhile_append_of_pos hletters]
  rcases hrev : stem.toList.reverse with - | ⟨c, rest⟩
  · exact absurd (by simpa using hrev) hstem
  · have hlist : (c :: rest).reverse = stem.toList := by rw [← hrev, List.reverse_reverse]
    simp [hlist]

end Path

/-! ## The place of a class -/

/-- All parts of the class's name are names. -/
def PlainName (name : String) : Prop := ∀ s ∈ (Path.ofText name).segments, Path.IsName s

instance : DecidablePred PlainName := fun name =>
  inferInstanceAs (Decidable (∀ s ∈ (Path.ofText name).segments, Path.IsName s))

/-- The directories in which the file of a class stands. -/
def unitDirs (name : String) : List String := (Path.ofText name).segments.dropLast

/-- The name of the file of a class, without the extension. -/
def unitStem (name : String) : String := (Path.splitName ((Path.ofText name).segments.getLastD "")).1

/-- Where the file of a class stands below a root. -/
def unitPlace (name : String) (f : UnitFormat) : Place :=
  unitDirs name ++ [unitStem name ++ "." ++ f.ending]

theorem splitSlashes_ne_nil (cs : List Char) : splitSlashes cs ≠ [] := by
  cases cs with
  | nil => simp [splitSlashes]
  | cons c cs =>
    rw [splitSlashes]
    split
    · simp
    · split <;> simp

theorem segments_ofText_ne_nil (name : String) : (Path.ofText name).segments ≠ [] := by
  simp [Path.ofText, splitSlashes_ne_nil]

/-- The directories of a class and the last part of its name. -/
theorem segments_ofText (name : String) : (Path.ofText name).segments =
    unitDirs name ++ [(Path.ofText name).segments.getLastD ""] := by
  rw [unitDirs, List.getLastD_eq_getLast?,
    List.getLast?_eq_getLast_of_ne_nil (segments_ofText_ne_nil name)]
  exact (List.dropLast_append_getLast _).symm

variable {name : String} (h : PlainName name) (f : UnitFormat)

include h

theorem isName_of_mem_unitDirs {s : String} (hs : s ∈ unitDirs name) : Path.IsName s :=
  h s (List.dropLast_subset _ hs)

theorem isName_getLastD : Path.IsName ((Path.ofText name).segments.getLastD "") := by
  apply h
  rw [segments_ofText]
  simp

theorem unitStem_ne_empty : unitStem name ≠ "" :=
  Path.splitName_ne_empty (isName_getLastD h).ne_empty

/-- The path of a class leads from the root to the place of the class. -/
theorem unitPath_eq (root : Path) : unitPath root name f = ⟨root.opened ++ unitPlace name f⟩ := by
  have hfold : (Path.ofText name).segments.foldl Path.push root =
      ⟨(root.opened ++ unitDirs name) ++ [(Path.ofText name).segments.getLastD ""]⟩ := by
    rw [List.append_assoc, ← segments_ofText]
    exact congrArg Path.mk (Path.segments_foldl_push h (segments_ofText_ne_nil name) root)
  rw [unitPath, hfold, Path.withExtension_of_name (isName_getLastD h), unitPlace, unitStem,
    List.append_assoc]

omit h in
/-- A name with an extension is a name. -/
theorem isName_unitFile : Path.IsName (unitStem name ++ "." ++ f.ending) := by
  have hlength : 2 < (unitStem name ++ "." ++ f.ending).toList.length := by
    cases f <;> simp [UnitFormat.ending]
  have hne {s : String} (hs : s.toList.length ≤ 2) : unitStem name ++ "." ++ f.ending ≠ s := by
    rintro rfl
    omega
  refine ⟨?_, hne (by decide)⟩
  simp only [Path.isIdle, Bool.or_eq_false_iff, beq_eq_false_iff_ne]
  exact ⟨hne (by decide), hne (by decide)⟩

/-- All that leads to the file of a class are names. -/
theorem isName_of_mem_unitPlace {s : String} (hs : s ∈ unitPlace name f) : Path.IsName s := by
  rcases List.mem_append.1 hs with hs | hs
  · exact isName_of_mem_unitDirs h hs
  · rw [List.mem_singleton.1 hs]
    exact isName_unitFile f

theorem splitName_unitFile :
    Path.splitName (unitStem name ++ "." ++ f.ending) = (unitStem name, some f.ending) :=
  Path.splitName_append (unitStem_ne_empty h) (by cases f <;> decide)

/-- The format of a file is known by its path. -/
theorem ofPath?_unitPath (root : Path) : UnitFormat.ofPath? (unitPath root name f) = some f := by
  have hextension : (unitPath root name f).extension? = some f.ending := by
    rw [unitPath_eq h, unitPlace, ← List.append_assoc, Path.extension?,
      Path.fileName?_of_name (isName_unitFile f), Option.bind_some, splitName_unitFile h]
  rw [UnitFormat.ofPath?, hextension]
  cases f <;> decide

omit h

/-! ## Classes with one place -/

variable {a b : String} {g : UnitFormat}

/-- Two files have one place if they differ in nothing but what follows the last dots of the names. -/
theorem unitPlace_eq_iff {f : UnitFormat} (ha : PlainName a) (hb : PlainName b) :
    unitPlace a f = unitPlace b g ↔
      f = g ∧ unitDirs a = unitDirs b ∧ unitStem a = unitStem b := by
  constructor
  · intro h
    unfold unitPlace at h
    obtain ⟨hdirs, hfile⟩ := List.append_inj' h (by simp)
    have hsplit := congrArg Path.splitName (List.singleton_inj.1 hfile)
    rw [splitName_unitFile ha, splitName_unitFile hb, Prod.mk.injEq, Option.some.injEq] at hsplit
    refine ⟨?_, hdirs, hsplit.1⟩
    cases f <;> cases g <;> first | rfl | exact absurd hsplit.2 (by decide)
  · rintro ⟨rfl, hdirs, hstem⟩
    rw [unitPlace, unitPlace, hdirs, hstem]

/-- The pieces between slashes make up the text. -/
theorem intercalate_splitSlashes (cs : List Char) : ['/'].intercalate (splitSlashes cs) = cs := by
  induction cs with
  | nil => rfl
  | cons c cs ih =>
    obtain ⟨piece, rest, hpieces⟩ := List.exists_cons_of_ne_nil (splitSlashes_ne_nil cs)
    rw [hpieces] at ih
    rw [splitSlashes, hpieces]
    split
    · next hc => rw [List.intercalate_cons_cons, ih, hc]; rfl
    · rcases rest with - | ⟨next, rest⟩
      · rw [List.intercalate_singleton] at ih ⊢
        rw [ih]
      · rw [List.intercalate_cons_cons] at ih ⊢
        rw [List.cons_append, List.cons_append, ih]

/-- Names are told apart by their parts. -/
theorem ofText_inj (h : Path.ofText a = Path.ofText b) : a = b := by
  have hpieces := List.map_injective_iff.2 (fun _ _ => String.ofList_injective) (Path.mk.inj h)
  rw [← String.toList_inj, ← intercalate_splitSlashes a.toList, hpieces, intercalate_splitSlashes]

/-- The last part of the name has no dot behind its first letter. -/
def Undotted (name : String) : Prop := '.' ∉ ((Path.ofText name).segments.getLastD "").toList.tail

/-- Classes without dots in their names are kept apart. -/
theorem eq_of_unitPlace_eq {f : UnitFormat} (ha : PlainName a) (hb : PlainName b)
    (hundotted : Undotted a)
    (hundotted' : Undotted b) (h : unitPlace a f = unitPlace b g) : a = b := by
  obtain ⟨-, hdirs, hstem⟩ := (unitPlace_eq_iff ha hb).1 h
  rw [unitStem, Path.splitName_of_undotted hundotted, unitStem,
    Path.splitName_of_undotted hundotted'] at hstem
  have hsegments : (Path.ofText a).segments = (Path.ofText b).segments := by
    rw [segments_ofText a, segments_ofText b, hdirs]
    exact congrArg (unitDirs b ++ [·]) hstem
  exact ofText_inj (congrArg Path.mk hsegments)

end Resumable
