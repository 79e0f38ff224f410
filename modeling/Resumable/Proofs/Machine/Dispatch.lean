import Resumable.Proofs.Descriptor.Grammar
import Resumable.Proofs.Machine.Subtypes
import Resumable.Proofs.Machine.Verified
import Resumable.Proofs.Suspendable.Answers

/-!
# Dispatch and classification

Two walks along the ancestors of a class look for a method. The machine looks for what it can execute:
methods of the host come first, and declarations without a body are passed over
(`Machine.Dispatches`). The database looks for what is declared: the first declaration counts, with a
body or without, and the platform is not looked into.

If the database says that a call does not suspend, the machine finds no code that announces a
suspension (`Machine.dispatch_as_classified`). The walks could only part at a declaration without a
body that does not announce what the inherited method does (`AnnouncesInherited`).
-/

namespace Resumable

open Relation (TransGen)

/-! ## The walk of the machine -/

namespace Machine

variable {H : Host} {m : Machine H} {name desc type : String} {callable : Callable H.Native}
  {steps : Nat}

/-- The method to which a call on a class leads: the first of the host or with a body, from the class on
upwards. -/
inductive Dispatches (m : Machine H) (name desc : String) : String → Callable H.Native → Prop where
  | native {type : String} {n : H.Native} :
      m.natives.lookup ⟨type, name, desc⟩ = some n → Dispatches m name desc type (.native n)
  | code {type : String} {c : LoadedClass} {body : LoadedMethod} :
      m.natives.lookup ⟨type, name, desc⟩ = none → m.classes.find? type = some c →
      c.findBody? name desc = some body → Dispatches m name desc type (.code body)
  | inherited {type parent : String} {c : LoadedClass} {callable : Callable H.Native} :
      m.natives.lookup ⟨type, name, desc⟩ = none → m.classes.find? type = some c →
      c.findBody? name desc = none → c.superName = some parent →
      Dispatches m name desc parent callable → Dispatches m name desc type callable

/-- One step of the search. -/
theorem findCallable?_eq_some_iff : m.findCallable? name desc steps type = some callable ↔
    (∃ n, m.natives.lookup ⟨type, name, desc⟩ = some n ∧ callable = .native n) ∨
    m.natives.lookup ⟨type, name, desc⟩ = none ∧ ∃ c, m.classes.find? type = some c ∧
      ((∃ body, c.findBody? name desc = some body ∧ callable = .code body) ∨
        c.findBody? name desc = none ∧ ∃ rest parent, steps = rest + 1 ∧
          c.superName = some parent ∧ m.findCallable? name desc rest parent = some callable) := by
  conv_lhs => unfold findCallable?
  rcases hnative : m.natives.lookup ⟨type, name, desc⟩ with - | n
  · rcases hc : m.classes.find? type with - | c
    · simp only [hnative]
      simp
    rcases hbody : c.findBody? name desc with - | body
    · cases steps with
      | zero =>
        simp only [hnative, hbody]
        simp [hbody]
      | succ rest =>
        rcases hsuper : c.superName with - | parent <;> simp only [hnative, hbody, hsuper] <;>
          simp [hbody, hsuper]
    · simp only [hnative, hbody]
      simp [hbody, eq_comm]
  · simp only [hnative]
    simp [eq_comm]

theorem dispatches_of_findCallable? (h : m.findCallable? name desc steps type = some callable) :
    m.Dispatches name desc type callable := by
  induction steps generalizing type with
  | zero =>
    rcases findCallable?_eq_some_iff.1 h with ⟨n, hn, rfl⟩ | ⟨hnative, c, hc, hrest⟩
    · exact .native hn
    · rcases hrest with ⟨body, hbody, rfl⟩ | ⟨-, rest, parent, hsteps, -⟩
      · exact .code hnative hc hbody
      · cases hsteps
  | succ steps ih =>
    rcases findCallable?_eq_some_iff.1 h with ⟨n, hn, rfl⟩ | ⟨hnative, c, hc, hrest⟩
    · exact .native hn
    · rcases hrest with ⟨body, hbody, rfl⟩ | ⟨hbody, rest, parent, hsteps, hsuper, hfound⟩
      · exact .code hnative hc hbody
      · cases hsteps
        exact .inherited hnative hc hbody hsuper (ih hfound)

/-- A loaded class extends another. -/
def Extends (m : Machine H) (type parent : String) : Prop :=
  ∃ c, m.classes.find? type = some c ∧ c.superName = some parent

/-- The search finds the method to which the call leads, if its steps are enough for all ancestors that
are ahead. -/
theorem findCallable?_of_dispatches (hacyclic : ∀ type, ¬ TransGen m.Extends type type)
    (h : m.Dispatches name desc type callable)
    (hsteps : ahead m.Extends m.classes.names type ≤ steps) :
    m.findCallable? name desc steps type = some callable := by
  induction h generalizing steps with
  | native hn => exact findCallable?_eq_some_iff.2 (.inl ⟨_, hn, rfl⟩)
  | code hnative hc hbody =>
    exact findCallable?_eq_some_iff.2 (.inr ⟨hnative, _, hc, .inl ⟨_, hbody, rfl⟩⟩)
  | @inherited type parent c callable hnative hc hbody hsuper _ ih =>
    have hmem : type ∈ m.classes.names := ClassTable.mem_names_of_find? hc
    have hlt := ahead_lt (hacyclic type) hmem ⟨c, hc, hsuper⟩
    obtain ⟨rest, rfl⟩ : ∃ rest, steps = rest + 1 := ⟨steps - 1, by omega⟩
    have hfound : m.findCallable? name desc rest parent = some callable := ih (by omega)
    exact findCallable?_eq_some_iff.2
      (.inr ⟨hnative, c, hc, .inr ⟨hbody, rest, parent, rfl, hsuper, hfound⟩⟩)

/-- Without a cycle, a call is resolved to the method to which it leads. -/
theorem resolve_eq_ok_iff (hacyclic : ∀ type, ¬ TransGen m.Extends type type) :
    m.resolve type name desc = .ok callable ↔ m.Dispatches name desc type callable := by
  have hfound : m.findCallable? name desc m.classes.entries.length type = some callable ↔
      m.Dispatches name desc type callable := by
    refine ⟨dispatches_of_findCallable?, fun h => findCallable?_of_dispatches hacyclic h ?_⟩
    have hle := ahead_le_length m.Extends m.classes.names type
    rwa [ClassTable.names, List.length_map] at hle
  rw [← hfound, resolve]
  split
  · next found heq => rw [heq, Except.ok.injEq, Option.some.injEq]
  · next heq => simp [heq]

end Machine

/-! ## The classes of a machine -/

namespace ClassTable

variable {t t' : ClassTable} {units : List ClassDef} {c : ClassDef} {name : String}

theorem find?_insert_of_ne (h : name ≠ c.name) : (t.insert c).find? name = t.find? name := by
  unfold insert find?
  rw [List.lookup_cons, beq_eq_false_iff_ne.2 h]
  dsimp only
  induction t.entries with
  | nil => rfl
  | cons entry entries ih =>
    by_cases hentry : entry.1 = c.name
    · rw [List.filter_cons_of_neg (by simpa using hentry), ih, List.lookup_cons,
        beq_eq_false_iff_ne.2 (hentry ▸ h)]
    · rw [List.filter_cons_of_pos (by simpa using hentry), List.lookup_cons, List.lookup_cons, ih]

/-- Units that pass verification can be loaded. -/
theorem foldlM_load_of_verify (h : ∀ c ∈ units, c.verify = .ok ()) :
    units.foldlM load t = .ok (units.foldl insert t) := by
  induction units generalizing t with
  | nil => rfl
  | cons c units ih =>
    have hload : t.load c = .ok (t.insert c) := by rw [load, h c List.mem_cons_self]
    rw [List.foldlM_cons, hload]
    exact ih fun c' hc' => h c' (List.mem_cons_of_mem _ hc')

/-- After units have been loaded, each of them is in the table, and all else is as before. -/
theorem find?_of_loaded (hnames : (units.map (·.name)).Nodup)
    (h : units.foldlM load t = .ok t') :
    (∀ c ∈ units, c.verify = .ok () ∧ t'.find? c.name = some (.load c)) ∧
      ∀ name ∉ units.map (·.name), t'.find? name = t.find? name := by
  induction units generalizing t with
  | nil =>
    cases h
    simp
  | cons c units ih =>
    rw [List.foldlM_cons] at h
    obtain ⟨t₁, hload, hrest⟩ := bind_eq_ok.1 h
    obtain ⟨hverify, rfl⟩ := load_eq_ok hload
    rw [List.map_cons, List.nodup_cons] at hnames
    obtain ⟨hthere, hother⟩ := ih hnames.2 hrest
    constructor
    · intro c' hc'
      rcases List.mem_cons.1 hc' with rfl | hc'
      · exact ⟨hverify, (hother _ hnames.1).trans find?_insert_self⟩
      · exact hthere c' hc'
    · intro name hname
      rw [List.map_cons, List.mem_cons, not_or] at hname
      rw [hother name hname.2, find?_insert_of_ne hname.1]

end ClassTable

/-! ## The methods of a loaded class -/

theorem MethodType.Describes.head?_eq {text : List Char} {type : MethodType}
    (h : Describes text type) : text.head? = some '(' := by
  cases h
  rfl

namespace LoadedClass

variable {c : ClassDef} {name desc : String} {body : LoadedMethod}

theorem findBody?_eq_some {c : LoadedClass} (h : c.findBody? name desc = some body) :
    body ∈ c.methods ∧ body.method.name = name ∧ body.method.desc = desc ∧
      body.method.isBodyless = false := by
  unfold findBody? at h
  split at h
  · next found hfind =>
    split at h
    · cases h
    · next hbody =>
      cases h
      have hsame := List.find?_some hfind
      simp only [Bool.and_eq_true, beq_iff_eq] at hsame
      exact ⟨List.mem_of_find?_eq_some hfind, hsame.1, hsame.2, by simpa using hbody⟩
  · cases h

theorem findBody?_load_eq_some (h : (load c).findBody? name desc = some body) :
    body.method ∈ c.methods ∧ body.method.name = name ∧ body.method.desc = desc ∧
      body.method.isBodyless = false := by
  obtain ⟨hmem, hsame⟩ := findBody?_eq_some h
  obtain ⟨d, hd, rfl⟩ := List.mem_map.1 hmem
  exact ⟨hd, hsame⟩

/-- If no two methods share name and descriptor, a method is passed over only for want of a body. -/
theorem isBodyless_of_findBody?_load (hdistinct : (c.methods.map fun d => (d.name, d.desc)).Nodup)
    (h : (load c).findBody? name desc = none) {d : Method} (hd : d ∈ c.methods) (hname : d.name = name)
    (hdesc : d.desc = desc) : d.isBodyless = true := by
  unfold findBody? at h
  split at h
  · next found hfind =>
    split at h
    · next hbody =>
      obtain ⟨d', hd', rfl⟩ := List.mem_map.1 (List.mem_of_find?_eq_some hfind)
      have hsame := List.find?_some hfind
      simp only [Bool.and_eq_true, beq_iff_eq] at hsame
      have heq : d = d' := by
        apply List.inj_on_of_nodup_map hdistinct hd hd'
        exact Prod.ext (hname.trans hsame.1.symm) (hdesc.trans hsame.2.symm)
      rw [heq]
      exact hbody
    · cases h
  · next hfind =>
    have hnone := List.find?_eq_none.1 hfind (.load c.name d) (List.mem_map_of_mem hd)
    simp [LoadedMethod.load, hname, hdesc] at hnone

end LoadedClass

/-! ## The platform -/

namespace Platform

/-- No code of the platform announces a suspension; the suspend call itself has no body. -/
theorem quiet {name : String} {c : LoadedClass} (hc : table.find? name = some c) {d : LoadedMethod}
    (hd : d ∈ c.methods) (hbody : d.method.isBodyless = false) :
    d.method.declares Names.suspendExecution = false := by
  have hall : ∀ entry ∈ table.entries, ∀ d ∈ entry.2.methods, d.method.isBodyless = false →
      d.method.declares Names.suspendExecution = false := by decide +kernel
  obtain ⟨front, rest, heq, -⟩ := List.lookup_eq_some_iff.1 hc
  exact hall (name, c) (by rw [heq]; simp) d hd hbody

/-- The platform's classes extend classes that the platform owns, and that are listed earlier. -/
theorem extends_earlier {name parent : String} {c : LoadedClass} (hc : table.find? name = some c)
    (hsuper : c.superName = some parent) : Names.isPlatform parent = true ∧
      (classes.map (·.name)).idxOf parent < (classes.map (·.name)).idxOf name := by
  have hall : ∀ entry ∈ table.entries, ∀ parent ∈ entry.2.superName,
      Names.isPlatform parent = true ∧
        (classes.map (·.name)).idxOf parent < (classes.map (·.name)).idxOf entry.1 := by
    decide +kernel
  obtain ⟨front, rest, heq, -⟩ := List.lookup_eq_some_iff.1 hc
  exact hall (name, c) (by rw [heq]; simp) parent hsuper

end Platform

/-! ## Units that are loaded and known -/

/-- The database after it has been told of the units, one after the other. -/
def Database.recordAll (db : Database) (units : List ClassDef) : Database :=
  units.foldl (fun db c => db.record c.name (.known (.ofClass c))) db

/-- A database that has been told of the units knows each of them, and of others what it knew. -/
theorem Database.fact?_recordAll {units : List ClassDef} (hnames : (units.map (·.name)).Nodup)
    (db : Database) :
    (∀ c ∈ units, (db.recordAll units).fact? c.name = some (.known (.ofClass c))) ∧
      ∀ name ∉ units.map (·.name), (db.recordAll units).fact? name = db.fact? name := by
  induction units generalizing db with
  | nil => exact ⟨by simp, fun _ _ => rfl⟩
  | cons c units ih =>
    rw [List.map_cons, List.nodup_cons] at hnames
    obtain ⟨hthere, hother⟩ := ih hnames.2 (db.record c.name (.known (.ofClass c)))
    constructor
    · intro c' hc'
      rcases List.mem_cons.1 hc' with rfl | hc'
      · exact (hother _ hnames.1).trans ((db.fact?_record _ _ _).trans (if_pos rfl))
      · exact hthere c' hc'
    · intro name hname
      rw [List.map_cons, List.mem_cons, not_or] at hname
      exact (hother name hname.2).trans ((db.fact?_record _ _ _).trans (if_neg hname.1))

/-- The ancestors of a class are followed through the units up to the first body of a method. -/
inductive Inherits (units : List ClassDef) (name desc : String) : String → Method → Prop where
  | own {c : ClassDef} {d : Method} : c ∈ units → d ∈ c.methods → d.name = name → d.desc = desc →
      d.isBodyless = false → Inherits units name desc c.name d
  | above {c : ClassDef} {d : Method} {parent : String} : c ∈ units →
      (∀ d ∈ c.methods, d.name = name → d.desc = desc → d.isBodyless = true) →
      c.superName = some parent → Inherits units name desc parent d →
      Inherits units name desc c.name d

/-- A declaration without a body announces the suspension that the inherited method announces. -/
def AnnouncesInherited (units : List ClassDef) : Prop :=
  ∀ c ∈ units, ∀ d ∈ c.methods, d.isBodyless = true → ∀ parent ∈ c.superName, ∀ body,
    Inherits units d.name d.desc parent body → body.declares Names.suspendExecution = true →
      d.declares Names.suspendExecution = true

/-- A unit extends a class. -/
def UnitExtends (units : List ClassDef) (name parent : String) : Prop :=
  ∃ c ∈ units, c.name = name ∧ c.superName = some parent

variable {H : Host}

/-- Units that a machine has loaded on top of the platform, and that a database knows. -/
structure Deployment (units : List ClassDef) (m : Machine H) (db : Database) : Prop where
  distinct : (units.map (·.name)).Nodup
  foreign : ∀ c ∈ units, Names.isPlatform c.name = false
  /-- It can be told from a signature where the name ends. -/
  plain : ∀ c ∈ units, ∀ d ∈ c.methods, '(' ∉ d.name.toList
  acyclic : ∀ name, ¬ TransGen (UnitExtends units) name name
  announced : AnnouncesInherited units
  loaded : units.foldlM ClassTable.load Platform.table = .ok m.classes
  recorded : ∀ c ∈ units, db.fact? c.name = some (.known (.ofClass c))

namespace Deployment

variable {units : List ClassDef} {m : Machine H} {db : Database} {c : ClassDef}
  {name desc type : String} {callable : Callable H.Native} {body : LoadedMethod}

theorem find?_unit (h : Deployment units m db) (hc : c ∈ units) :
    m.classes.find? c.name = some (.load c) :=
  ((ClassTable.find?_of_loaded h.distinct h.loaded).1 c hc).2

theorem find?_other (h : Deployment units m db) (htype : type ∉ units.map (·.name)) :
    m.classes.find? type = Platform.table.find? type :=
  (ClassTable.find?_of_loaded h.distinct h.loaded).2 type htype

/-- The methods of a unit can be told apart, and their descriptors are well-formed. -/
theorem verified (h : Deployment units m db) (hc : c ∈ units) :
    (c.methods.map fun d => (d.name, d.desc)).Nodup ∧ ∀ d ∈ c.methods, ClassDef.OpensDesc d.desc := by
  have hverify := ((ClassTable.find?_of_loaded h.distinct h.loaded).1 c hc).1
  obtain ⟨hdistinct, hmethods⟩ := ClassDef.verify_eq_ok_iff.1 hverify
  refine ⟨hdistinct, fun d hd => ?_⟩
  obtain ⟨type, hparse, -⟩ := Method.verify_eq_ok_iff.1 (hmethods d hd)
  exact (MethodType.parse_eq_ok_iff.1 hparse).head?_eq

theorem not_unit_of_isPlatform (h : Deployment units m db) (htype : Names.isPlatform type = true) :
    type ∉ units.map (·.name) := by
  intro hmem
  obtain ⟨c, hc, rfl⟩ := List.mem_map.1 hmem
  rw [h.foreign c hc] at htype
  cases htype

/-- Who is not a unit extends nobody who is one. -/
theorem not_unit_of_extends (h : Deployment units m db) {parent : String}
    (htype : type ∉ units.map (·.name)) (hextends : m.Extends type parent) :
    parent ∉ units.map (·.name) ∧
      (Platform.classes.map (·.name)).idxOf parent < (Platform.classes.map (·.name)).idxOf type := by
  obtain ⟨c, hc, hsuper⟩ := hextends
  rw [h.find?_other htype] at hc
  obtain ⟨hplatform, hearlier⟩ := Platform.extends_earlier hc hsuper
  exact ⟨h.not_unit_of_isPlatform hplatform, hearlier⟩

/-- With the platform below them, the units are still without a cycle. -/
theorem machine_acyclic (h : Deployment units m db) (type : String) :
    ¬ TransGen m.Extends type type := by
  intro hcycle
  by_cases htype : type ∈ units.map (·.name)
  · -- A way that ends at a unit never leaves the units.
    have hunits {x y : String} (hway : TransGen m.Extends x y) :
        y ∈ units.map (·.name) → TransGen (UnitExtends units) x y := by
      have hstep {x y : String} (hextends : m.Extends x y) (hy : y ∈ units.map (·.name)) :
          x ∈ units.map (·.name) ∧ UnitExtends units x y := by
        have hx : x ∈ units.map (·.name) := by
          by_contra hx
          exact (h.not_unit_of_extends hx hextends).1 hy
        obtain ⟨c, hc, rfl⟩ := List.mem_map.1 hx
        obtain ⟨loaded, hloaded, hsuper⟩ := hextends
        cases (h.find?_unit hc).symm.trans hloaded
        exact ⟨hx, c, hc, rfl, hsuper⟩
      induction hway with
      | single hextends => exact fun hy => .single (hstep hextends hy).2
      | tail _ hextends ih =>
        intro hy
        obtain ⟨hx, hunit⟩ := hstep hextends hy
        exact (ih hx).tail hunit
    exact h.acyclic type (hunits hcycle htype)
  · -- A way that starts outside of the units goes down the list of the platform's classes.
    have hlower {y : String} (hway : TransGen m.Extends type y) : y ∉ units.map (·.name) ∧
        (Platform.classes.map (·.name)).idxOf y < (Platform.classes.map (·.name)).idxOf type := by
      induction hway with
      | single hextends => exact h.not_unit_of_extends htype hextends
      | tail _ hextends ih =>
        obtain ⟨hy, hlt⟩ := h.not_unit_of_extends ih.1 hextends
        exact ⟨hy, hlt.trans ih.2⟩
    exact Nat.lt_irrefl _ (hlower hcycle).2

/-- From a class that is not a unit, no call leads to code that announces a suspension. -/
theorem quiet_of_dispatches (h : Deployment units m db) (htype : type ∉ units.map (·.name))
    (hdispatches : m.Dispatches name desc type (.code body)) :
    body.method.declares Names.suspendExecution = false := by
  generalize hcallable : Callable.code body = callable at hdispatches
  induction hdispatches with
  | native => cases hcallable
  | code _ hc hbody =>
    cases hcallable
    rw [h.find?_other htype] at hc
    obtain ⟨hmem, -, -, hbodied⟩ := LoadedClass.findBody?_eq_some hbody
    exact Platform.quiet hc hmem hbodied
  | inherited _ hc _ hsuper _ ih =>
    exact ih (h.not_unit_of_extends htype ⟨_, hc, hsuper⟩).1 hcallable

/-- Code that announces a suspension is inherited through units only. -/
theorem inherits_of_dispatches (h : Deployment units m db)
    (hdispatches : m.Dispatches name desc type (.code body))
    (hsignal : body.method.declares Names.suspendExecution = true) :
    Inherits units name desc type body.method := by
  have hunit {type : String} (hdispatches : m.Dispatches name desc type (.code body)) :
      ∃ c ∈ units, c.name = type := by
    by_contra hnone
    have hquiet := h.quiet_of_dispatches (by simpa using hnone) hdispatches
    rw [hsignal] at hquiet
    cases hquiet
  generalize hcallable : Callable.code body = callable at hdispatches
  induction hdispatches with
  | native => cases hcallable
  | code hnative hfound hbody =>
    cases hcallable
    obtain ⟨c, hc, rfl⟩ := hunit (.code hnative hfound hbody)
    cases (h.find?_unit hc).symm.trans hfound
    obtain ⟨hmem, hname, hdesc, hbodied⟩ := LoadedClass.findBody?_load_eq_some hbody
    exact .own hc hmem hname hdesc hbodied
  | inherited hnative hfound hbody hsuper hrest ih =>
    cases hcallable
    obtain ⟨c, hc, rfl⟩ := hunit (.inherited hnative hfound hbody hsuper hrest)
    cases (h.find?_unit hc).symm.trans hfound
    refine .above hc (fun d hd hname hdesc => ?_) hsuper (ih rfl)
    exact LoadedClass.isBodyless_of_findBody?_load (h.verified hc).1 hbody hd hname hdesc

/-- Only well-formed signatures are inherited. -/
theorem wellFormed_of_inherits (h : Deployment units m db) {d : Method}
    (hinherits : Inherits units name desc type d) :
    '(' ∉ name.toList ∧ ClassDef.OpensDesc desc := by
  induction hinherits with
  | own hc hd hname hdesc _ =>
    rw [← hname, ← hdesc]
    exact ⟨h.plain _ hc _ hd, (h.verified hc).2 _ hd⟩
  | above _ _ _ _ ih => exact ih

/-- Asking about a unit teaches nothing new. -/
theorem run_factOf (h : Deployment units m db) (hc : c ∈ units) :
    (Inquiry.factOf c.name).run db = (.known (.ofClass c), db) := by
  unfold Inquiry.factOf
  rw [Inquiry.run_bind_of_eq (show (get : Inquiry Database).run db = (db, db) from rfl),
    h.recorded c hc]
  rfl

/-- The search for a declaration that starts at a unit. -/
theorem run_findFlag (h : Deployment units m db) (hc : c ∈ units) (steps : Nat) :
    ((Inquiry.findFlag name desc true (steps + 1) c.name).run db).1 =
      match c.flagOf? (name ++ desc), c.superName with
      | some flag, _ => some flag
      | none, some parent => ((Inquiry.findFlag name desc true steps parent).run db).1
      | none, none => none := by
  have hforeign : ¬ Names.isPlatform c.name = true := by simp [h.foreign c hc]
  rw [Inquiry.findFlag, if_neg hforeign, Inquiry.run_bind_of_eq (h.run_factOf hc)]
  dsimp only
  rw [ClassFacts.check?_ofClass, ClassFacts.superName_ofClass]
  rcases c.flagOf? (name ++ desc) with - | flag <;> rcases c.superName with - | parent <;> rfl

/-- A unit has the method itself, or what it declares has no body and its ancestor leads to the method. -/
theorem inherits_unit (h : Deployment units m db) (hc : c ∈ units) {d : Method}
    (hinherits : Inherits units name desc c.name d) :
    (d ∈ c.methods ∧ d.name = name ∧ d.desc = desc) ∨
      (∀ d ∈ c.methods, d.name = name → d.desc = desc → d.isBodyless = true) ∧
        ∃ parent, c.superName = some parent ∧ Inherits units name desc parent d := by
  generalize htype : c.name = type at hinherits
  cases hinherits with
  | own hc' hd hname hdesc _ =>
    cases List.inj_on_of_nodup_map h.distinct hc hc' htype
    exact .inl ⟨hd, hname, hdesc⟩
  | above hc' hbodyless hsuper hrest =>
    cases List.inj_on_of_nodup_map h.distinct hc hc' htype
    exact .inr ⟨hbodyless, _, hsuper, hrest⟩

/-- A unit on the way to a method that announces a suspension does not deny it: what it declares itself
announces the suspension as well. -/
theorem flagOf?_ne_false (h : Deployment units m db) (hc : c ∈ units) {d : Method}
    (hinherits : Inherits units name desc c.name d)
    (hsignal : d.declares Names.suspendExecution = true) :
    c.flagOf? (name ++ desc) ≠ some false := by
  obtain ⟨hname, hdesc⟩ := h.wellFormed_of_inherits hinherits
  obtain ⟨hdistinct, hdescs⟩ := h.verified hc
  rw [ne_eq, ClassDef.flagOf?_eq_some_iff hdistinct (h.plain c hc) hdescs hname hdesc]
  rintro ⟨declared, hdeclared, rfl, rfl, hflag⟩
  have hannounces : declared.declares Names.suspendExecution = true := by
    rcases h.inherits_unit hc hinherits with ⟨hd, hdname, hddesc⟩ | ⟨hbodyless, parent, hsuper, hrest⟩
    · rwa [← List.inj_on_of_nodup_map hdistinct hd hdeclared (Prod.ext hdname hddesc)]
    · have hdeclaration := hbodyless declared hdeclared rfl rfl
      exact h.announced c hc declared hdeclared hdeclaration parent hsuper d hrest hsignal
  rw [hflag] at hannounces
  cases hannounces

/-- The database does not deny a suspension that the inherited method announces. -/
theorem findFlag_ne_false (h : Deployment units m db) {d : Method}
    (hinherits : Inherits units name desc type d)
    (hsignal : d.declares Names.suspendExecution = true) (steps : Nat) :
    ((Inquiry.findFlag name desc true steps type).run db).1 ≠ some false := by
  induction steps generalizing type with
  | zero => exact (Option.some_ne_none false).symm
  | succ steps ih =>
    obtain ⟨c, hc, rfl⟩ : ∃ c ∈ units, c.name = type := by
      cases hinherits with
      | own hc | above hc => exact ⟨_, hc, rfl⟩
    have hflag := h.flagOf?_ne_false hc hinherits hsignal
    rw [h.run_findFlag hc]
    split
    · next heq => rwa [← heq]
    · next parent hnone hsuper =>
      rcases h.inherits_unit hc hinherits with ⟨hd, rfl, rfl⟩ | ⟨-, parent', hsuper', hrest⟩
      · -- The unit declares the method, so there is a flag.
        obtain ⟨hname, hdesc⟩ := h.wellFormed_of_inherits hinherits
        obtain ⟨hdistinct, hdescs⟩ := h.verified hc
        have hdeclared := (ClassDef.flagOf?_eq_some_iff hdistinct (h.plain c hc) hdescs hname hdesc).2
          ⟨d, hd, rfl, rfl, rfl⟩
        rw [hnone] at hdeclared
        cases hdeclared
      · cases hsuper.symm.trans hsuper'
        exact ih hrest
    · exact (Option.some_ne_none false).symm

/-- If the database says that a call does not suspend, no code to which the call leads announces a
suspension. -/
theorem quiet_of_not_isSuspendable (h : Deployment units m db) (hspecial : Names.isSpecial name = false)
    (hquiet : ((Inquiry.isSuspendable type name desc true).run db).1 = false)
    (hdispatches : m.Dispatches name desc type (.code body)) :
    body.method.declares Names.suspendExecution = false := by
  by_cases hplatform : Names.isPlatform type = true
  · exact h.quiet_of_dispatches (h.not_unit_of_isPlatform hplatform) hdispatches
  by_contra hsignal
  have hinherits := h.inherits_of_dispatches hdispatches (by simpa using hsignal)
  have hfound := h.findFlag_ne_false hinherits (by simpa using hsignal) db.reach
  have hask : ¬ (Names.isSpecial name || Names.isPlatform type) = true := by simp [hspecial, hplatform]
  rcases hrun : (Inquiry.findFlag name desc true db.reach type).run db with ⟨answer, db'⟩
  rw [hrun] at hfound
  rw [Inquiry.isSuspendable, if_neg hask,
    Inquiry.run_bind_of_eq (show (get : Inquiry Database).run db = (db, db) from rfl),
    Inquiry.run_bind_of_eq hrun] at hquiet
  rcases answer with - | (- | -)
  · cases hquiet
  · exact hfound rfl
  · cases hquiet

end Deployment

/-- **A call that is said not to suspend leads to no code that suspends.** For units that a machine has
loaded and a database knows, the machine resolves any call to the method to which it leads; and if the
database says that the call does not suspend, the method is one of the host or does not announce a
suspension. -/
theorem Machine.dispatch_as_classified {units : List ClassDef} {m : Machine H} {db : Database}
    (h : Deployment units m db) (owner name desc : String)
    (hname : Names.isSpecial name = false) :
    (∀ callable, m.resolve owner name desc = .ok callable ↔
      m.Dispatches name desc owner callable) ∧
    (((Inquiry.isSuspendable owner name desc true).run db).1 = false →
      ∀ body, m.resolve owner name desc = .ok (.code body) →
        body.method.declares Names.suspendExecution = false) := by
  have hresolve (callable : Callable H.Native) : m.resolve owner name desc = .ok callable ↔
      m.Dispatches name desc owner callable := Machine.resolve_eq_ok_iff h.machine_acyclic
  exact ⟨hresolve, fun hquiet body hbody =>
    h.quiet_of_not_isSuspendable hname hquiet ((hresolve _).1 hbody)⟩

namespace Machine

/-- A task whose ancestor declares `run` again, without a body. -/
def tasks : List ClassDef :=
  let method (name : String) (throws : List String) : Method :=
    { name, desc := "()V", throws, maxLocals := 1, code := [.simple .ret] }
  [{ ClassDef.new "app/Base" with
      methods := [method "run" [Names.suspendExecution], method "rest" []] },
    { ClassDef.new "app/Task" with
      superName := some "app/Base"
      methods :=
        [{ method "run" [Names.suspendExecution] with access := .abstract, code := [] }] },
    { ClassDef.new "app/Copy" with superName := some "app/Task" }]

/-- The machine that has loaded the tasks. -/
def tasked : Machine .empty := { host := { own := () }, classes := tasks.foldl .insert Platform.table }

/-- The database that knows the tasks. -/
def informed : Database := (Database.new {} .empty).recordAll tasks

theorem deployment_tasks : Deployment tasks tasked informed where
  distinct := by decide
  foreign := by decide
  plain := by decide
  acyclic := by
    apply no_way_back fun name => [Names.object, "app/Base", "app/Task", "app/Copy"].idxOf name
    have hall : ∀ c ∈ tasks, ∀ parent ∈ c.superName,
        [Names.object, "app/Base", "app/Task", "app/Copy"].idxOf parent <
          [Names.object, "app/Base", "app/Task", "app/Copy"].idxOf c.name := by decide
    rintro name parent ⟨c, hc, rfl, hsuper⟩
    exact hall c hc parent hsuper
  announced := by
    have hall : ∀ c ∈ tasks, ∀ d ∈ c.methods, d.isBodyless = true →
        d.declares Names.suspendExecution = true := by decide
    intro c hc d hd hbodyless parent hsuper body hinherits hsignal
    exact hall c hc d hd hbodyless
  loaded := ClassTable.foldlM_load_of_verify (by decide +kernel)
  recorded := (Database.fact?_recordAll (by decide) _).1

theorem dispatch_as_classified_tasks : Deployment tasks tasked informed ∧
    (((Inquiry.isSuspendable "app/Copy" "run" "()V" true).run informed).1 = true) ∧
    ∃ body, tasked.Dispatches "rest" "()V" "app/Copy" (.code body) ∧
      body.owner = "app/Base" ∧ body.method.declares Names.suspendExecution = false := by
  obtain ⟨hresolve, hquiet⟩ :=
    dispatch_as_classified deployment_tasks "app/Copy" "rest" "()V" (by decide)
  obtain ⟨body, hbody, howner⟩ : ∃ body, tasked.resolve "app/Copy" "rest" "()V" = .ok (.code body) ∧
      body.owner = "app/Base" := ⟨_, rfl, rfl⟩
  have hrest : ((Inquiry.isSuspendable "app/Copy" "rest" "()V" true).run informed).1 = false := by
    decide +kernel
  exact ⟨deployment_tasks, by decide +kernel, body, (hresolve _).1 hbody, howner,
    hquiet hrest body hbody⟩

end Machine

end Resumable
