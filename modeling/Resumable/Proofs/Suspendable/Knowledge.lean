import Mathlib
import Resumable.Proofs.Suspendable.Hierarchy

/-!
# What there is to know

The database learns on demand and keeps what it has learnt. Here is what there is to know at all: the
classes of a batch, those that support coroutines, and whatever the resolver has (`Sources`). A
database knows the sources if all that it has learnt is so (`Sources.Knows`).

Any such database gives the same answer to a question, and still knows the sources afterwards
(`Sources.Answers`). So the order in which questions are asked does not matter, nor how often. Whether
a call may suspend is told by a walk over the sources that remembers nothing (`Sources.Verdict`).

Walks end because no class is its own ancestor. Every class that has an ancestor is counted by the
database, so the steps that it allows are enough (`Sources.rank_lt_reach`).
-/

namespace Resumable

/-! ## Signatures -/

namespace ClassDef

/-- Whether the method with a signature may suspend, if the class declares one. Of several with the
same signature the last counts. -/
def flagOf? (c : ClassDef) (signature : String) : Option Bool :=
  (c.methods.reverse.find? (·.signature == signature)).map (·.declares Names.suspendExecution)

/-- The class declares a method, and this is whether it may suspend. -/
def Declares (c : ClassDef) (name desc : String) (flag : Bool) : Prop :=
  ∃ m ∈ c.methods, m.name = name ∧ m.desc = desc ∧ m.declares Names.suspendExecution = flag

/-- The text starts a descriptor. -/
def OpensDesc (desc : String) : Prop := desc.toList.head? = some '('

/-- Where a name ends and a descriptor starts can be told from the signature. -/
theorem signature_inj {name desc name' desc' : String} (hname : '(' ∉ name.toList)
    (hname' : '(' ∉ name'.toList) (hdesc : OpensDesc desc) (hdesc' : OpensDesc desc')
    (h : name ++ desc = name' ++ desc') : name = name' ∧ desc = desc' := by
  have hstart {name desc : String} (hname : '(' ∉ name.toList) (hdesc : OpensDesc desc) :
      (name ++ desc).toList.takeWhile (· != '(') = name.toList := by
    obtain ⟨rest, hrest⟩ : ∃ rest, desc.toList = '(' :: rest := List.head?_eq_some_iff.1 hdesc
    rw [String.toList_append, List.takeWhile_append_of_pos, hrest]
    · simp
    · intro a ha
      simpa using ne_of_mem_of_not_mem ha hname
  have heq : name = name' := by
    rw [← String.toList_inj, ← hstart hname hdesc, ← hstart hname' hdesc', h]
  subst heq
  exact ⟨rfl, String.append_right_inj _ |>.1 h⟩

/-- If signatures are distinct, the flag of a method is that of its declaration. -/
theorem flagOf?_eq_some_iff {c : ClassDef} (hdistinct : (c.methods.map fun m => (m.name, m.desc)).Nodup)
    (hnames : ∀ m ∈ c.methods, '(' ∉ m.name.toList) (hdescs : ∀ m ∈ c.methods, OpensDesc m.desc)
    {name desc : String} (hname : '(' ∉ name.toList) (hdesc : OpensDesc desc) {flag : Bool} :
    c.flagOf? (name ++ desc) = some flag ↔ c.Declares name desc flag := by
  have hsame {m : Method} (hm : m ∈ c.methods) (h : m.signature = name ++ desc) :
      m.name = name ∧ m.desc = desc :=
    signature_inj (hnames m hm) hname (hdescs m hm) hdesc h
  constructor
  · intro h
    obtain ⟨m, hfind, hflag⟩ := Option.map_eq_some_iff.1 h
    have hm : m ∈ c.methods := List.mem_reverse.1 (List.mem_of_find?_eq_some hfind)
    obtain ⟨hmname, hmdesc⟩ := hsame hm (by simpa using List.find?_some hfind)
    exact ⟨m, hm, hmname, hmdesc, hflag⟩
  · rintro ⟨m, hm, rfl, rfl, hflag⟩
    obtain ⟨m', hfind⟩ : ∃ m', c.methods.reverse.find? (·.signature == m.name ++ m.desc) = some m' :=
      Option.isSome_iff_exists.1
        (List.find?_isSome.2 ⟨m, List.mem_reverse.2 hm, by simp [Method.signature]⟩)
    have hm' : m' ∈ c.methods := List.mem_reverse.1 (List.mem_of_find?_eq_some hfind)
    obtain ⟨hmname, hmdesc⟩ := hsame hm' (by simpa using List.find?_some hfind)
    have heq : m' = m := List.inj_on_of_nodup_map hdistinct hm' hm (Prod.ext hmname hmdesc)
    unfold flagOf?
    rw [hfind, heq, Option.map_some, hflag]

end ClassDef

/-- What is found in a list of pairs is found where the pairs come from. -/
theorem lookup_map {α β : Type} (key : α → String) (f : α → β) (as : List α) (name : String) :
    (as.map fun a => (key a, f a)).lookup name = (as.find? (key · == name)).map f := by
  induction as with
  | nil => rfl
  | cons a as ih =>
    by_cases heq : key a = name
    · simp [heq]
    · have hne : (name == key a) = false := by simpa using Ne.symm heq
      simp [List.lookup_cons, hne, heq, ih]

namespace ClassFacts

theorem superName_ofClass (c : ClassDef) : (ofClass c).superName = c.superName := by
  have hset (methods : List Method) (f : ClassFacts) : (methods.foldl (fun f m =>
      f.set m.name m.desc (m.declares Names.suspendExecution)) f).superName = f.superName := by
    induction methods generalizing f with
    | nil => rfl
    | cons m methods ih => exact ih _
  exact hset c.methods _

theorem flags_ofClass (c : ClassDef) : (ofClass c).flags =
    c.methods.reverse.map fun m => (m.signature, m.declares Names.suspendExecution) := by
  have hset (methods : List Method) (f : ClassFacts) : (methods.foldl (fun f m =>
      f.set m.name m.desc (m.declares Names.suspendExecution)) f).flags =
        methods.reverse.map (fun m => (m.signature, m.declares Names.suspendExecution)) ++
          f.flags := by
    induction methods generalizing f with
    | nil => rfl
    | cons m methods ih =>
      rw [List.foldl_cons, ih]
      simp [set, methodKey, Method.signature]
  exact (hset c.methods _).trans (List.append_nil _)

/-- The flags of a class are those of its declarations. -/
theorem check?_ofClass (c : ClassDef) (name desc : String) :
    (ofClass c).check? name desc = c.flagOf? (name ++ desc) := by
  unfold check? flag? ClassDef.flagOf?
  rw [flags_ofClass]
  exact lookup_map Method.signature _ _ _

end ClassFacts

/-! ## Sources -/

/-- The types that support coroutines, as classes. -/
def supportClasses : List ClassDef :=
  [{ name := Names.coroutine
     superName := some Names.object
     methods := [{ name := Names.yieldName, desc := Names.yieldDesc,
                   throws := [Names.suspendExecution] }] },
    { name := Names.suspendExecution, superName := some Names.exception }]

/-- Where classes come from: a batch, and a resolver for all others. -/
structure Sources where
  batch : List ClassDef
  resolver : Resolver
  options : Options

namespace Sources

variable {src : Sources} {db : Database} {name : String} {c : ClassDef}

/-- A class of the batch or one that supports coroutines. -/
def enrolled? (src : Sources) (name : String) : Option ClassDef :=
  (src.batch ++ supportClasses).find? (·.name == name)

/-- The class with a name, if it can be had. -/
def class? (src : Sources) (name : String) : Option ClassDef :=
  (src.enrolled? name).or (src.resolver.find name)

/-- The direct ancestor of a class. -/
def parent? (src : Sources) (name : String) : Option String :=
  match src.enrolled? name with
  | some c => c.superName
  | none => (platformSupers.lookup name).or ((src.resolver.find name).bind (·.superName))

/-- No class is its own ancestor. -/
def IsAcyclic (src : Sources) : Prop :=
  ∀ name, ¬ Relation.TransGen (fun x y => src.parent? x = some y) name name

/-- What a database can find out about a class. -/
def fact (src : Sources) (name : String) : Fact :=
  match src.class? name with
  | some c => .known (.ofClass c)
  | none => .notFound

theorem fact_of_class (h : src.class? name = some c) : src.fact name = .known (.ofClass c) := by
  rw [fact, h]

theorem fact_of_none (h : src.class? name = none) : src.fact name = .notFound := by
  rw [fact, h]

theorem class?_of_enrolled (h : src.enrolled? name = some c) : src.class? name = some c := by
  rw [class?, h, Option.some_or]

theorem class?_of_not_enrolled (h : src.enrolled? name = none) :
    src.class? name = src.resolver.find name := by
  rw [class?, h, Option.none_or]

/-- The platform's ancestors are those of the platform's classes. -/
theorem lookup_platformSupers (h : Names.isPlatform name = false) :
    platformSupers.lookup name = none := by
  have hall : ∀ entry ∈ platformSupers, Names.isPlatform entry.1 = true := by decide
  rw [List.lookup_eq_none_iff]
  intro entry hentry
  simp only [bne_iff_ne, ne_eq]
  rintro rfl
  rw [hall entry hentry] at h
  cases h

/-- A class that is not the platform's has the ancestor that it declares. -/
theorem parent?_of_class (hplatform : Names.isPlatform name = false)
    (h : src.class? name = some c) : src.parent? name = c.superName := by
  unfold parent?
  rcases henrolled : src.enrolled? name with - | c'
  · rw [class?_of_not_enrolled henrolled] at h
    rw [lookup_platformSupers hplatform, Option.none_or, h, Option.bind_some]
  · cases (class?_of_enrolled henrolled).symm.trans h
    rfl

/-! ## The walk that remembers nothing -/

/-- Whether a call may suspend, told by a walk from a class on upwards: the first declaration that is
met counts, the platform never suspends, and what cannot be found is taken to suspend. Ancestors are
looked at only with `searchSuper`. -/
inductive Verdict (src : Sources) (signature : String) (searchSuper : Bool) :
    String → Bool → Prop where
  | platform {name : String} : Names.isPlatform name = true →
      Verdict src signature searchSuper name false
  /-- There is no such class. -/
  | missing {name : String} : Names.isPlatform name = false → src.class? name = none →
      Verdict src signature searchSuper name true
  | declared {name : String} {c : ClassDef} {flag : Bool} : Names.isPlatform name = false →
      src.class? name = some c → c.flagOf? signature = some flag →
      Verdict src signature searchSuper name flag
  /-- There is nowhere else to look. -/
  | exhausted {name : String} {c : ClassDef} : Names.isPlatform name = false →
      src.class? name = some c → c.flagOf? signature = none →
      searchSuper = false ∨ c.superName = none → Verdict src signature searchSuper name true
  | inherited {name : String} {c : ClassDef} {above : String} {answer : Bool} :
      Names.isPlatform name = false → src.class? name = some c → c.flagOf? signature = none →
      searchSuper = true → c.superName = some above →
      Verdict src signature searchSuper above answer →
      Verdict src signature searchSuper name answer

/-- The walk tells one thing. -/
theorem Verdict.unique {signature : String} {searchSuper : Bool} {answer answer' : Bool}
    (h : src.Verdict signature searchSuper name answer)
    (h' : src.Verdict signature searchSuper name answer') : answer' = answer := by
  induction h with
  | platform hplatform => cases h' <;> simp_all
  | missing hplatform hnone => cases h' <;> simp_all
  | declared hplatform hclass hflag => cases h' <;> simp_all
  | exhausted hplatform hclass hflag hend =>
    cases h' with
    | inherited _ hclass' _ hsuper habove _ =>
      cases hclass.symm.trans hclass'
      simp_all
    | _ => simp_all
  | inherited hplatform hclass hflag hsuper habove _ ih =>
    cases h' with
    | inherited _ hclass' _ _ habove' hrest =>
      cases hclass.symm.trans hclass'
      cases habove.symm.trans habove'
      exact ih hrest
    | exhausted _ hclass' _ hend =>
      cases hclass.symm.trans hclass'
      simp_all
    | _ => simp_all

/-- Whether a call may suspend. Constructors, initializers and methods of the platform never do. -/
def Suspends (src : Sources) (owner method desc : String) (searchSuper answer : Bool) : Prop :=
  if Names.isSpecial method || Names.isPlatform owner then answer = false
  else src.Verdict (method ++ desc) searchSuper owner answer

/-! ## Ranks -/

/-- How many classes with an ancestor lie on the way up from a class. -/
noncomputable def rank (src : Sources) (name : String) : Nat :=
  {x | Relation.ReflTransGen (fun x y => src.parent? x = some y) name x ∧
    (src.parent? x).isSome}.ncard

end Sources

/-! ## What a database knows -/

namespace Database

/-- How often it has been said that there is no such class. -/
def misses (db : Database) (name : String) : Nat :=
  db.notices.count (.warning, (Notice.classNotFound name).text)

/-- The names of the classes that the database counts. -/
def counted (db : Database) : List String :=
  db.facts.map Prod.fst ++ db.supers.map Prod.fst ++ db.resolver.names

theorem length_counted_lt_reach (db : Database) : db.counted.length < db.reach := by
  simp only [counted, reach, List.length_append, List.length_map]
  omega

end Database

namespace Sources

variable {src : Sources} {db db' : Database} {name : String} {c : ClassDef}

/-- All that the database has learnt is so. -/
structure Knows (src : Sources) (db : Database) : Prop where
  resolver : db.resolver = src.resolver
  options : db.options = src.options
  fact : ∀ name fact, db.fact? name = some fact → fact = src.fact name
  /-- It has been told of the classes of the batch. -/
  enrolled : ∀ name, (src.enrolled? name).isSome → (db.fact? name).isSome
  /-- It has asked for no class of the platform. -/
  platform : ∀ name, Names.isPlatform name = true → src.enrolled? name = none →
    db.fact? name = none
  supers : ∀ name, src.enrolled? name = none →
    (db.supers.lookup name).or ((src.resolver.find name).bind (·.superName)) = src.parent? name
  /-- That there is no such class has been said when it was found out, and not again. -/
  misses : ∀ name, db.misses name ≤ if db.fact? name = none then 0 else 1

namespace Knows

/-- The database finds out the ancestor that a class has. -/
theorem parent (h : src.Knows db) : db.parent? = src.parent? := by
  funext name
  rcases henrolled : src.enrolled? name with - | c
  · have hsupers := h.supers name henrolled
    unfold Database.parent?
    split
    · next facts hfact =>
      have hplatform : Names.isPlatform name = false := by
        by_contra hplatform
        rw [h.platform name (by simpa using hplatform) henrolled] at hfact
        cases hfact
      have hknown := h.fact name _ hfact
      rcases hclass : src.class? name with - | c
      · rw [fact_of_none hclass] at hknown
        cases hknown
      · rw [fact_of_class hclass] at hknown
        cases hknown
        rw [parent?_of_class hplatform hclass, ClassFacts.superName_ofClass]
    · rw [← hsupers, h.resolver]
      rcases db.supers.lookup name with - | above <;> rfl
  · obtain ⟨fact, hfact⟩ := Option.isSome_iff_exists.1 (h.enrolled name (by simp [henrolled]))
    have hknown := h.fact name fact hfact
    rw [fact_of_class (class?_of_enrolled henrolled)] at hknown
    rw [Database.parent?_of_known (hknown ▸ hfact), ClassFacts.superName_ofClass, parent?, henrolled]

theorem mem_counted (h : src.Knows db) {above : String} (habove : src.parent? name = some above) :
    name ∈ db.counted :=
  Database.mem_of_parent? (h.parent ▸ habove)

theorem finite (h : src.Knows db) (name : String) :
    {x | Relation.ReflTransGen (fun x y => src.parent? x = some y) name x ∧
      (src.parent? x).isSome}.Finite := by
  refine (List.finite_toSet db.counted).subset fun x hx => ?_
  obtain ⟨above, habove⟩ := Option.isSome_iff_exists.1 hx.2
  exact h.mem_counted habove

/-- An ancestor has a lower rank. -/
theorem rank_lt (h : src.Knows db) (hacyclic : src.IsAcyclic) {above : String}
    (habove : src.parent? name = some above) : src.rank above < src.rank name := by
  refine Set.ncard_lt_ncard ⟨fun x hx => ⟨hx.1.head habove, hx.2⟩, fun hsub => ?_⟩ (h.finite name)
  have hself : name ∈ {x | Relation.ReflTransGen (fun x y => src.parent? x = some y) name x ∧
      (src.parent? x).isSome} := ⟨.refl, by simp [habove]⟩
  exact hacyclic name (.head' habove (hsub hself).1)

/-- The database allows for enough steps. -/
theorem rank_lt_reach (h : src.Knows db) (name : String) : src.rank name < db.reach := by
  refine Nat.lt_of_le_of_lt ?_ db.length_counted_lt_reach
  have hsub : {x | Relation.ReflTransGen (fun x y => src.parent? x = some y) name x ∧
      (src.parent? x).isSome} ⊆ (db.counted.toFinset : Set String) := by
    intro x hx
    obtain ⟨above, habove⟩ := Option.isSome_iff_exists.1 hx.2
    simpa using h.mem_counted habove
  calc src.rank name ≤ (db.counted.toFinset : Set String).ncard :=
        Set.ncard_le_ncard hsub (Finset.finite_toSet _)
    _ = db.counted.toFinset.card := Set.ncard_coe_finset _
    _ ≤ db.counted.length := List.toFinset_card_le _

/-- What the notices say, and what has been put on the work list, does not matter. -/
theorem of_same (h : src.Knows db) (hresolver : db'.resolver = db.resolver)
    (hoptions : db'.options = db.options) (hfact : db'.fact? = db.fact?)
    (hsupers : db'.supers = db.supers) (hmisses : db'.misses = db.misses) : src.Knows db' where
  resolver := hresolver.trans h.resolver
  options := hoptions.trans h.options
  fact := hfact ▸ h.fact
  enrolled := hfact ▸ h.enrolled
  platform := hfact ▸ h.platform
  supers := hsupers ▸ h.supers
  misses := by
    rw [hfact, hmisses]
    exact h.misses

/-- The database learns what there is to know of a class. -/
theorem learn (h : src.Knows db) (hnone : db.fact? name = none)
    (hplatform : Names.isPlatform name = false) (notices : List (Level × String))
    (hnotices : ∀ other, notices.count (.warning, (Notice.classNotFound other).text) ≤
      if other = name then 1 else 0) :
    src.Knows { db with facts := (name, src.fact name) :: db.facts
                        notices := db.notices ++ notices } where
  resolver := h.resolver
  options := h.options
  fact other fact hfact := by
    unfold Database.fact? at hfact
    rw [List.lookup_cons] at hfact
    split at hfact
    · next heq =>
      cases hfact
      rw [beq_iff_eq.1 heq]
    · exact h.fact other fact hfact
  enrolled other hother := by
    unfold Database.fact?
    rw [List.lookup_cons]
    split
    · rfl
    · exact h.enrolled other hother
  platform other hother henrolled := by
    have hne : (other == name) = false := by
      rw [beq_eq_false_iff_ne]
      rintro rfl
      rw [hplatform] at hother
      cases hother
    unfold Database.fact?
    rw [List.lookup_cons, hne]
    exact h.platform other hother henrolled
  supers := h.supers
  misses other := by
    have hold := h.misses other
    have hnew := hnotices other
    unfold Database.misses Database.fact? at hold ⊢
    rw [List.count_append, List.lookup_cons]
    by_cases heq : other = name
    · subst heq
      unfold Database.fact? at hnone
      rw [if_pos hnone] at hold
      simp only [if_true] at hnew
      simp only [beq_self_eq_true, reduceCtorEq, if_false]
      omega
    · have hne : (other == name) = false := by simpa using heq
      rw [if_neg heq] at hnew
      simp only [hne]
      omega

/-- The database keeps what the resolver says about an ancestor. -/
theorem learnSuper (h : src.Knows db) (hnone : db.supers.lookup name = none) {above : String}
    (habove : (db.resolver.find name).bind (·.superName) = some above) :
    src.Knows { db with supers := (name, above) :: db.supers } where
  resolver := h.resolver
  options := h.options
  fact := h.fact
  enrolled := h.enrolled
  platform := h.platform
  supers other hother := by
    rw [← h.supers other hother, List.lookup_cons]
    by_cases heq : other = name
    · subst heq
      rw [hnone, ← h.resolver, habove]
      simp
    · have hne : (other == name) = false := by simpa using heq
      rw [hne]
  misses := h.misses

end Knows

end Sources

end Resumable
