import Resumable.Proofs.Instrument.Idempotence
import Resumable.Proofs.Instrument.Verified
import Resumable.Proofs.Machine.Parallel
import Resumable.Proofs.Machine.Verified

/-!
# A machine with the transformed methods

A `Revision` is a method with suspension points together with all that its transformation has come to.
Given the revisions of some methods, the same classes can be loaded with these methods in their
re-entrant forms (`ClassTable.revise`). Nothing changes by this as far as classes and their ancestors
are concerned, and a call leads to the revised form of the method that it led to before
(`Machine.target_revised`).

The classes that are loaded after a transformation are those that were loaded before it, revised
(`ClassTable.exists_revisions`).
-/

namespace Resumable

open List (Forall₂)

/-- A method with suspension points, as it has been analysed, and its re-entrant form. -/
structure Revision where
  analysed : Analysed
  plan : MethodPlan
  target : Method
  transforms : Transforms analysed.owner analysed.method analysed plan target
  points : plan.points ≠ []
  labels : analysed.method.HasLabels (4 + 3 * plan.points.length)
  /-- The method itself does not work on frames. -/
  plain : ∀ op, .frame op ∉ analysed.method.code

namespace Revision

/-- The method before the transformation. -/
abbrev source (w : Revision) : Method := w.analysed.method

def before (w : Revision) : LoadedMethod := .load w.analysed.owner w.source

def after (w : Revision) : LoadedMethod := .load w.analysed.owner w.target

end Revision

/-- What has become of the methods that have been transformed. -/
structure Revisions where
  of? : LoadedMethod → Option Revision
  before_eq : ∀ {m w}, of? m = some w → w.before = m

/-- The form of the method that is loaded after the transformation. -/
def Revisions.apply (r : Revisions) (m : LoadedMethod) : LoadedMethod :=
  (r.of? m).elim m Revision.after

def LoadedClass.revise (r : Revisions) (c : LoadedClass) : LoadedClass :=
  { c with methods := c.methods.map r.apply }

def ClassTable.revise (r : Revisions) (t : ClassTable) : ClassTable :=
  ⟨t.entries.map fun (name, c) => (name, c.revise r)⟩

def Callable.revise {ν : Type} (r : Revisions) : Callable ν → Callable ν
  | .native n => .native n
  | .code m => .code (r.apply m)

/-- The machine with the transformed methods, and with other coroutines. -/
def Machine.revised {H : Host} (m : Machine H) (r : Revisions) (coroutines : Coroutines) : Machine H :=
  { m with classes := m.classes.revise r, host := m.host.withCoroutines coroutines }

/-! ## Dispatch -/

namespace Revisions

variable {r : Revisions} {m : LoadedMethod} {w : Revision}

theorem apply_of_none (h : r.of? m = none) : r.apply m = m := by
  unfold apply
  rw [h]
  rfl

theorem apply_of_some (h : r.of? m = some w) : r.apply m = w.after := by
  unfold apply
  rw [h]
  rfl

/-- A method keeps what it is known by. -/
theorem apply_head (r : Revisions) (m : LoadedMethod) :
    (r.apply m).owner = m.owner ∧ (r.apply m).method.name = m.method.name ∧
      (r.apply m).method.desc = m.method.desc ∧
      (r.apply m).method.isBodyless = m.method.isBodyless := by
  rcases h : r.of? m with _ | w
  · rw [apply_of_none h]
    exact ⟨rfl, rfl, rfl, rfl⟩
  · rw [apply_of_some h, ← r.before_eq h]
    obtain ⟨hname, hdesc, haccess⟩ := w.transforms.same_head w.points
    refine ⟨rfl, hname, hdesc, ?_⟩
    show w.target.isBodyless = w.source.isBodyless
    unfold Method.isBodyless
    rw [haccess]

end Revisions

namespace ClassTable

variable (r : Revisions) (t : ClassTable)

theorem find?_revise (name : String) : (t.revise r).find? name = (t.find? name).map (·.revise r) := by
  obtain ⟨entries⟩ := t
  unfold find? revise
  induction entries with
  | nil => rfl
  | cons x entries ih =>
    obtain ⟨other, c⟩ := x
    rw [List.map_cons, List.lookup_cons, List.lookup_cons]
    split
    · rfl
    · exact ih

theorem reaches_revise (ancestor : String) (steps : Nat) (name : String) :
    (t.revise r).reaches ancestor steps name = t.reaches ancestor steps name := by
  induction steps generalizing name with
  | zero =>
    unfold reaches
    rfl
  | succ steps ih =>
    unfold reaches
    dsimp only
    rw [find?_revise]
    rcases t.find? name with _ | c
    · rfl
    · simp only [Option.map_some, LoadedClass.revise, funext ih]

theorem agrees_revise : t.Agrees (t.revise r) where
  contains name := by
    unfold contains
    rw [find?_revise, Option.isSome_map]
  isInstance h v type := by
    cases v with
    | object id =>
      show (t.revise r).reaches type (t.revise r).entries.length (h.object id).type =
        t.reaches type t.entries.length (h.object id).type
      rw [reaches_revise, show (t.revise r).entries.length = t.entries.length from List.length_map ..]
    | _ => rfl

end ClassTable

theorem LoadedClass.findBody?_revise (r : Revisions) (c : LoadedClass) (name desc : String) :
    (c.revise r).findBody? name desc = (c.findBody? name desc).map r.apply := by
  unfold findBody? revise
  dsimp only
  rw [List.find?_map]
  have hsame : ((fun m : LoadedMethod => m.method.name == name && m.method.desc == desc) ∘ r.apply) =
      fun m => m.method.name == name && m.method.desc == desc := by
    funext m
    obtain ⟨-, hname, hdesc, -⟩ := r.apply_head m
    rw [Function.comp_apply, hname, hdesc]
  rw [hsame]
  rcases c.methods.find? _ with _ | m
  · rfl
  · obtain ⟨-, -, -, hbodyless⟩ := r.apply_head m
    rw [Option.map_some]
    dsimp only
    rw [hbodyless]
    split <;> rfl

namespace Machine

variable {H : Host} (m : Machine H) (r : Revisions) (coroutines : Coroutines)

theorem findCallable?_revised (method desc : String) (steps : Nat) (name : String) :
    (m.revised r coroutines).findCallable? method desc steps name =
      (m.findCallable? method desc steps name).map (·.revise r) := by
  induction steps generalizing name with
  | zero | succ =>
    unfold findCallable?
    simp only [show (m.revised r coroutines).natives = m.natives from rfl,
      show (m.revised r coroutines).classes = m.classes.revise r from rfl,
      ClassTable.find?_revise]
    rcases hnative : m.natives.lookup ⟨name, method, desc⟩ with _ | n <;> simp only [hnative]
    · rcases hclass : m.classes.find? name with _ | c
      · rfl
      · simp only [Option.map_some, LoadedClass.findBody?_revise,
          show (c.revise r).superName = c.superName from rfl]
        rcases hbody : c.findBody? method desc with _ | body
        · rcases hsuper : c.superName with _ | parent
          · rfl
          · first | rfl | (rename_i ih; exact ih parent)
        · rfl
    · rfl

/-- A call leads to the revised form of the method. -/
theorem target_revised (c : Call) :
    (m.revised r coroutines).target c = (m.target c).map (·.revise r) := by
  have hresolve (start name desc : String) : (m.revised r coroutines).resolve start name desc =
      (m.resolve start name desc).map (·.revise r) := by
    unfold resolve
    rw [findCallable?_revised, show (m.revised r coroutines).classes.entries.length =
      m.classes.entries.length from List.length_map ..]
    rcases m.findCallable? name desc m.classes.entries.length start with _ | callable <;> rfl
  unfold target
  rw [show (m.revised r coroutines).dispatchClass c = m.dispatchClass c from rfl]
  rcases m.dispatchClass c with e | start
  · rfl
  · show (do let callable ← (m.revised r coroutines).resolve start c.member.name c.member.desc; _) = _
    rw [hresolve]
    show _ = (do let callable ← m.resolve start c.member.name c.member.desc; _ : Except _ _).map _
    rcases m.resolve start c.member.name c.member.desc with e | callable
    · rfl
    · by_cases hnull : c.op = .invokespecial ∧ c.args.head? = some .null
      · simp [hnull, bind, Except.bind, Except.map, throw, throwThe, MonadExceptOf.throw]
      · simp [hnull, bind, Except.bind, Except.map, pure, Except.pure]

end Machine

/-! ## Transformed units -/

namespace Revisions

/-- No method has been transformed. -/
def empty : Revisions := ⟨fun _ => none, nofun⟩

/-- Of the methods of one class, something else has become. -/
def update (r : Revisions) (owner : String) (r' : Revisions) : Revisions where
  of? m := if m.owner = owner then r'.of? m else r.of? m
  before_eq h := by
    split at h
    · exact r'.before_eq h
    · exact r.before_eq h

open Classical in
/-- Some methods have been transformed into their partners. -/
noncomputable def ofPairs (pairs : List (Method × Method)) : Revisions where
  of? m := if h : ∃ w : Revision, w.before = m ∧ (w.source, w.target) ∈ pairs then some h.choose
    else none
  before_eq h := by
    split at h
    · rename_i hex
      cases h
      exact hex.choose_spec.1
    · cases h

theorem apply_update_of_eq {r r' : Revisions} {owner : String} {m : LoadedMethod}
    (h : m.owner = owner) : (r.update owner r').apply m = r'.apply m := by
  unfold apply update
  dsimp only
  rw [if_pos h]

theorem apply_update_of_ne {r r' : Revisions} {owner : String} {m : LoadedMethod}
    (h : m.owner ≠ owner) : (r.update owner r').apply m = r.apply m := by
  unfold apply update
  dsimp only
  rw [if_neg h]

/-- A method goes to its only partner. -/
theorem apply_ofPairs {owner : String} {pairs : List (Method × Method)} {m m' : Method}
    (hmem : (m, m') ∈ pairs) (hunique : ∀ m'', (m, m'') ∈ pairs → m'' = m')
    (h : m' = m ∨ ∃ w : Revision, w.analysed.owner = owner ∧ w.source = m ∧ w.target = m') :
    (ofPairs pairs).apply (.load owner m) = .load owner m' := by
  rcases hof : (ofPairs pairs).of? (.load owner m) with _ | w
  · rw [apply_of_none hof]
    rcases h with rfl | ⟨w, rfl, rfl, rfl⟩
    · rfl
    · have hex : ∃ v : Revision, v.before = .load w.analysed.owner w.source ∧
          (v.source, v.target) ∈ pairs :=
        ⟨w, rfl, hmem⟩
      unfold ofPairs at hof
      dsimp only at hof
      rw [dif_pos hex] at hof
      cases hof
  · rw [apply_of_some hof]
    unfold ofPairs at hof
    dsimp only at hof
    split at hof
    · rename_i hex
      cases hof
      obtain ⟨hbefore, hpair⟩ := hex.choose_spec
      have howner : hex.choose.analysed.owner = owner := congrArg LoadedMethod.owner hbefore
      have hsource : hex.choose.source = m := congrArg LoadedMethod.method hbefore
      rw [hsource] at hpair
      unfold Revision.after
      rw [howner, hunique _ hpair]
    · cases hof

end Revisions

/-- In a list without repetition, each item has one partner. -/
theorem eq_of_mem_zip {α β : Type} {as : List α} {bs : List β} (hnodup : as.Nodup) {a : α} {b b' : β}
    (h : (a, b) ∈ as.zip bs) (h' : (a, b') ∈ as.zip bs) : b' = b := by
  obtain ⟨i, hi, hib⟩ := List.mem_iff_getElem.1 h
  obtain ⟨j, hj, hjb⟩ := List.mem_iff_getElem.1 h'
  rw [List.getElem_zip, Prod.mk.injEq] at hib hjb
  obtain rfl : i = j := (List.Nodup.getElem_inj_iff hnodup).1 (hib.1.trans hjb.1.symm)
  exact hjb.2.symm.trans hib.2

namespace Revisions

/-- A class that has been transformed still passes verification, and what is loaded of it is the class
with its methods revised. -/
theorem exists_of_instrument {c c' : ClassDef} (hverify : c.verify = .ok ())
    (hplain : ∀ m ∈ c.methods, ∀ op, .frame op ∉ m.code)
    (hlabels : ∀ m ∈ c.methods, ∀ a plan m', Transforms c.name m a plan m' →
      m.HasLabels (4 + 3 * plan.points.length))
    (h : Gives (Inquiry.instrument c) c') :
    c'.verify = .ok () ∧ c'.name = c.name ∧
      ∃ r : Revisions, LoadedClass.load c' = (LoadedClass.load c).revise r := by
  have hsame : c' = { c with methods := c'.methods, markers := c'.markers } := by
    obtain ⟨db, db', hrun⟩ := h
    rcases (Inquiry.instrument_ways hrun).2 with ⟨rfl, -⟩ | ⟨-, methods, -, rfl⟩ <;> rfl
  -- Each method is as it was, or there is a revision of it.
  have hpairs : Forall₂ (fun m m' => m' = m ∨ ∃ w : Revision, w.analysed.owner = c.name ∧ w.source = m ∧
      w.target = m') c.methods c'.methods := by
    rcases Inquiry.instrument_cases h with rfl | hmembers
    · exact List.forall₂_same.2 fun _ _ => .inl rfl
    · refine forall₂_imp_of_mem hmembers fun m hm m' _ hgives => ?_
      rcases Inquiry.member_cases hgives with hm' | ⟨a, plan, hpoints, htransforms⟩
      · exact .inl hm'
      · obtain ⟨howner, rfl, -⟩ := htransforms.analyzed
        have hroom := hlabels _ hm a plan m' htransforms
        rw [← howner] at htransforms
        exact .inr ⟨⟨a, plan, m', htransforms, hpoints, hroom, hplain _ hm⟩, howner, rfl, rfl⟩
  obtain ⟨hnodup, -⟩ := ClassDef.verify_eq_ok_iff.1 hverify
  have hname : c'.name = c.name := by rw [hsame]
  refine ⟨ClassDef.verify_of_forall₂ (hpairs.imp fun m m' hm => ?_) hverify, hname,
    ofPairs (c.methods.zip c'.methods), ?_⟩
  · rcases hm with rfl | ⟨w, -, rfl, rfl⟩
    · exact ⟨rfl, rfl, id⟩
    · obtain ⟨hname, hdesc, -⟩ := w.transforms.same_head w.points
      exact ⟨hname, hdesc, w.transforms.verify w.points w.labels⟩
  · have hmethods : c'.methods.map (.load c.name) =
        (c.methods.map (.load c.name)).map (ofPairs (c.methods.zip c'.methods)).apply := by
      rw [List.map_map, ← List.forall₂_eq_eq_eq, List.forall₂_map_left_iff, List.forall₂_map_right_iff]
      refine Forall₂.flip ((List.forall₂_iff_zip.2 ⟨hpairs.length_eq, fun {m m'} hmem => ?_⟩))
      have hone : m' = m ∨ ∃ w : Revision, w.analysed.owner = c.name ∧ w.source = m ∧ w.target = m' :=
        (List.forall₂_iff_zip.1 hpairs).2 hmem
      exact (apply_ofPairs hmem (fun m'' hmem' => eq_of_mem_zip hnodup.of_map hmem hmem') hone).symm
    rw [hsame]
    unfold LoadedClass.load LoadedClass.revise
    dsimp only
    rw [hmethods]

end Revisions

namespace ClassTable

/-- The methods of a class have been loaded for this class. -/
def Owned (t : ClassTable) : Prop :=
  ∀ entry ∈ t.entries, ∀ m ∈ entry.2.methods, m.owner = entry.1

theorem Owned.insert {t : ClassTable} (h : t.Owned) (c : ClassDef) : (t.insert c).Owned := by
  intro entry hentry m hm
  rcases List.mem_cons.1 hentry with rfl | hentry
  · obtain ⟨source, -, rfl⟩ := List.mem_map.1 hm
    rfl
  · exact h entry (List.mem_filter.1 hentry).1 m hm

theorem owned_table : Platform.table.Owned := by
  unfold Platform.table
  refine List.foldlRecOn Platform.classes ClassTable.insert ?_ ?_
  · intro entry hentry
    cases hentry
  · exact fun t ht c _ => ht.insert c

theorem revise_empty (t : ClassTable) : t.revise .empty = t := by
  have hclass (c : LoadedClass) : c.revise .empty = c := by
    unfold LoadedClass.revise
    rw [List.map_id'' fun m => Revisions.apply_of_none rfl]
  obtain ⟨entries⟩ := t
  unfold revise
  simp only [hclass]
  rw [List.map_id'' fun _ => rfl]

/-- A revised class takes the place of one with the same name. -/
theorem revise_insert {t : ClassTable} (ht : t.Owned) (r : Revisions) {c c' : ClassDef}
    (hname : c'.name = c.name) {r' : Revisions}
    (hload : LoadedClass.load c' = (LoadedClass.load c).revise r') :
    (t.insert c).revise (r.update c.name r') = (t.revise r).insert c' := by
  have hclass : (LoadedClass.load c).revise (r.update c.name r') =
      (LoadedClass.load c).revise r' := by
    unfold LoadedClass.revise
    congr 1
    refine List.map_congr_left fun m hm => ?_
    obtain ⟨source, -, rfl⟩ := List.mem_map.1 hm
    exact Revisions.apply_update_of_eq rfl
  unfold insert revise
  rw [List.map_cons]
  dsimp only
  rw [hclass, ← hload, hname]
  congr 2
  rw [List.filter_map]
  refine List.map_congr_left fun entry hentry => ?_
  obtain ⟨hmem, hne⟩ := List.mem_filter.1 hentry
  have hother : entry.2.revise (r.update c.name r') = entry.2.revise r := by
    unfold LoadedClass.revise
    congr 1
    refine List.map_congr_left fun m hm => Revisions.apply_update_of_ne ?_
    rw [ht entry hmem m hm]
    simpa using hne
  exact congrArg (Prod.mk entry.1) hother

/-- **The transformed units are the units revised.** -/
theorem exists_revisions {units units' : List ClassDef} {t : ClassTable}
    (hplain : ∀ c ∈ units, ∀ m ∈ c.methods, ∀ op, .frame op ∉ m.code)
    (hlabels : ∀ c ∈ units, ∀ m ∈ c.methods, ∀ a plan m', Transforms c.name m a plan m' →
      m.HasLabels (4 + 3 * plan.points.length))
    (hload : units.foldlM load Platform.table = .ok t)
    (h : Forall₂ (fun c c' => Gives (Inquiry.instrument c) c') units units') :
    ∃ r : Revisions, units'.foldlM load Platform.table = .ok (t.revise r) := by
  suffices hall : ∀ (start : ClassTable) (r : Revisions), start.Owned →
      units.foldlM load start = .ok t → ∃ r' : Revisions,
        units'.foldlM load (start.revise r) = .ok (t.revise r') by
    obtain ⟨r, hr⟩ := hall Platform.table .empty owned_table hload
    exact ⟨r, by rwa [revise_empty] at hr⟩
  clear hload
  induction h with
  | nil =>
    intro start r _ hload
    cases hload
    exact ⟨r, rfl⟩
  | @cons c c' units units' hc _ ih =>
    intro start r howned hload
    rw [List.foldlM_cons] at hload
    obtain ⟨next, hnext, hload⟩ := bind_eq_ok.1 hload
    obtain ⟨hverify, rfl⟩ := load_eq_ok hnext
    obtain ⟨hverify', hname, r₁, hr₁⟩ := Revisions.exists_of_instrument hverify
      (hplain c List.mem_cons_self) (hlabels c List.mem_cons_self) hc
    obtain ⟨r', hr'⟩ := ih (fun c hc => hplain c (List.mem_cons_of_mem _ hc))
      (fun c hc => hlabels c (List.mem_cons_of_mem _ hc)) (start.insert c) (r.update c.name r₁)
      (howned.insert c) hload
    refine ⟨r', ?_⟩
    rw [List.foldlM_cons, show load (start.revise r) c' = .ok ((start.revise r).insert c') by
      unfold load; rw [hverify'], ← revise_insert howned r hname hr₁]
    exact hr'

end ClassTable

end Resumable
