import Mathlib
import Resumable.Proofs.Instrument.Steadiness

/-!
# Requests to a database

A database that has checked a batch is asked about classes, and classes of the batch are instrumented
with it, in any order and as often as one likes. What it has been asked before makes no difference to
what it replies (`Sources.replies_serve`): a class is looked up when it is needed and then kept, but
nothing that is kept says more than there is to know.

The check of the batch is where this starts. It tells a new database, class by class, what there is to
know of the batch (`Sources.knows_checked`).
-/

namespace Resumable

/-! ## The check of a batch -/

namespace Sources

variable {src : Sources} {db db' : Database} {name : String} {c : ClassDef}

theorem Knows.run {α : Type} {question : Inquiry α} {a : α} (h : src.Knows db)
    (hsteady : src.Steady question) (hrun : question.run db = (a, db')) : src.Knows db' := by
  obtain ⟨answer, hanswer⟩ := hsteady
  have := (hanswer db h).2
  rwa [hrun] at this

/-- The check of the batch with a new database. -/
def checked (src : Sources) : Except InstrumentError (List Bool) × Database :=
  (src.batch.mapM Inquiry.check).run.run (.new src.options src.resolver)

theorem fact?_new (resolver : Resolver) (options : Options) (name : String) :
    (Database.new options resolver).fact? name =
      (enrolled? ⟨[], resolver, options⟩ name).map fun c => .known (.ofClass c) := by
  have hfacts : (Database.new options resolver).facts =
      supportClasses.map fun c => (c.name, .known (.ofClass c)) := by
    rfl
  rw [Database.fact?, hfacts]
  exact lookup_map ClassDef.name _ _ _

/-- A new database knows the classes that support coroutines, and the platform. -/
theorem knows_new (resolver : Resolver) (options : Options) :
    Sources.Knows ⟨[], resolver, options⟩ (.new options resolver) where
  resolver := rfl
  options := rfl
  fact name fact h := by
    rw [fact?_new, Option.map_eq_some_iff] at h
    obtain ⟨c, hc, rfl⟩ := h
    exact (fact_of_class (class?_of_enrolled hc)).symm
  enrolled name h := by
    rwa [fact?_new, Option.isSome_map]
  platform name _ h := by
    rw [fact?_new, h, Option.map_none]
  supers name h := by
    rw [parent?, h]
    rfl
  misses name := Nat.zero_le _

/-- The sources with one more class in the batch. -/
def enlist (src : Sources) (c : ClassDef) : Sources := { src with batch := src.batch ++ [c] }

theorem enrolled?_enlist (hnew : ∀ c' ∈ src.batch, c'.name ≠ c.name) (name : String) :
    (src.enlist c).enrolled? name = if name = c.name then some c else src.enrolled? name := by
  unfold enrolled? Sources.enlist
  dsimp only
  rw [List.find?_append, List.find?_append]
  split
  · next heq =>
    have hnone : src.batch.find? (·.name == name) = none := by
      rw [List.find?_eq_none]
      intro c' hc'
      simpa [heq] using hnew c' hc'
    rw [hnone, Option.none_or, List.find?_cons_of_pos (by simp [heq]), Option.some_or]
  · next hne =>
    rw [List.find?_cons_of_neg (by simpa using Ne.symm hne), List.find?_nil, Option.or_none,
      ← List.find?_append]

/-- Of all other classes there is the same to know. -/
theorem class?_enlist (hnew : ∀ c' ∈ src.batch, c'.name ≠ c.name) (hne : name ≠ c.name) :
    (src.enlist c).class? name = src.class? name := by
  unfold class?
  rw [enrolled?_enlist hnew, if_neg hne]
  rfl

theorem parent?_enlist (hnew : ∀ c' ∈ src.batch, c'.name ≠ c.name) (hne : name ≠ c.name) :
    (src.enlist c).parent? name = src.parent? name := by
  unfold parent?
  rw [enrolled?_enlist hnew, if_neg hne]
  rfl

/-- What is known of a class is taken in. -/
theorem Knows.enlist (h : src.Knows db) (hnew : ∀ c' ∈ src.batch, c'.name ≠ c.name) :
    (src.enlist c).Knows (db.record c.name (.known (.ofClass c))) where
  resolver := (Database.resolver_record ..).trans h.resolver
  options := (Database.options_record ..).trans h.options
  fact name fact hfact := by
    rw [Database.fact?_record] at hfact
    split at hfact
    · next heq =>
      have hclass : (src.enlist c).class? name = some c :=
        class?_of_enrolled (by rw [enrolled?_enlist hnew, if_pos heq])
      rw [fact_of_class hclass]
      exact (Option.some.inj hfact).symm
    · next hne =>
      rw [h.fact name fact hfact, Sources.fact, Sources.fact, class?_enlist hnew hne]
  enrolled name hname := by
    rw [enrolled?_enlist hnew] at hname
    rw [Database.fact?_record]
    split at hname
    · next heq => rw [if_pos heq, Option.isSome_some]
    · next hne =>
      rw [if_neg hne]
      exact h.enrolled name hname
  platform name hplatform hname := by
    rw [enrolled?_enlist hnew] at hname
    rw [Database.fact?_record]
    split at hname
    · cases hname
    · next hne =>
      rw [if_neg hne]
      exact h.platform name hplatform hname
  supers name hname := by
    rw [enrolled?_enlist hnew] at hname
    split at hname
    · cases hname
    · next hne =>
      rw [Database.supers_record, parent?_enlist hnew hne, ← h.supers name hname]
      rfl
  misses name := by
    have hold := h.misses name
    rw [Database.misses_record, Database.fact?_record]
    by_cases heq : name = c.name
    · rw [if_pos heq]
      exact hold.trans (by split <;> simp)
    · rwa [if_neg heq]

/-- The database knows a class that has been checked. -/
theorem Knows.check {added : Bool} (h : src.Knows db) (hnew : ∀ c' ∈ src.batch, c'.name ≠ c.name)
    (hcheck : (Inquiry.check c).run.run db = (.ok added, db')) : (src.enlist c).Knows db' := by
  rcases hheads : c.checkHeads with e | ⟨⟨⟩⟩
  · have henroll : (Inquiry.enroll c).run.run db = (.error e, db) := by
      unfold Inquiry.enroll
      rw [hheads]
      rfl
    unfold Inquiry.check at hcheck
    rw [ExceptT.run_bind, Inquiry.run_bind_of_eq henroll] at hcheck
    cases hcheck
  have henroll : (Inquiry.enroll c).run.run db =
      (.ok ⟨⟩, db.record c.name (.known (.ofClass c))) := by
    unfold Inquiry.enroll
    rw [hheads]
    rfl
  unfold Inquiry.check at hcheck
  rw [ExceptT.run_bind, Inquiry.run_bind_of_eq henroll] at hcheck
  -- What is done after that leaves what is known as it is.
  refine (h.enlist hnew).run ?_ hcheck
  change (src.enlist c).Tries _
  split
  · exact .pure _
  refine .ask (fun db hdb => by rw [hdb.options]) ?_
  split
  · exact (Tries.lift (.log _ (n := .foundInstrumented _) trivial)).bind fun _ => .pure _
  · refine (Tries.lift (.log _ (n := .found _) trivial)).bind fun _ => Tries.bind ?_ fun _ => .pure _
    exact ⟨.ok ⟨⟩, fun db hdb => ⟨rfl, hdb.of_same rfl rfl rfl rfl rfl⟩⟩

theorem Knows.checkAll {cs : List ClassDef} {added : List Bool} (h : src.Knows db)
    (hnames : ((src.batch ++ cs).map (·.name)).Nodup)
    (hcheck : (cs.mapM Inquiry.check).run.run db = (.ok added, db')) :
    ({ src with batch := src.batch ++ cs } : Sources).Knows db' := by
  induction cs generalizing src db added with
  | nil =>
    cases hcheck
    rwa [List.append_nil]
  | cons c cs ih =>
    rw [List.mapM_cons, ExceptT.run_bind] at hcheck
    rcases hfirst : (Inquiry.check c).run.run db with ⟨e | first, db₁⟩
    · rw [Inquiry.run_bind_of_eq hfirst] at hcheck
      cases hcheck
    rw [Inquiry.run_bind_of_eq hfirst] at hcheck
    dsimp only at hcheck
    rw [ExceptT.run_bind] at hcheck
    rcases hrest : (cs.mapM Inquiry.check).run.run db₁ with ⟨e | rest, db₂⟩
    · rw [Inquiry.run_bind_of_eq hrest] at hcheck
      cases hcheck
    rw [Inquiry.run_bind_of_eq hrest] at hcheck
    cases hcheck
    have hnew : ∀ c' ∈ src.batch, c'.name ≠ c.name := by
      rw [List.map_append, List.nodup_append] at hnames
      exact fun c' hc' => hnames.2.2 c'.name (List.mem_map_of_mem hc') c.name
        (List.mem_map_of_mem List.mem_cons_self)
    have hnames' : (((src.enlist c).batch ++ cs).map (·.name)).Nodup := by
      unfold Sources.enlist
      rwa [List.append_assoc]
    have hrest := ih (h.check hnew hfirst) hnames' hrest
    unfold Sources.enlist at hrest
    rwa [List.append_assoc] at hrest

/-- **After the check, the database knows the batch.** -/
theorem knows_checked {added : List Bool} (hnames : (src.batch.map (·.name)).Nodup)
    (hcheck : src.checked.1 = .ok added) : src.Knows src.checked.2 :=
  (knows_new src.resolver src.options).checkAll hnames (Prod.ext hcheck rfl)

theorem enrolled?_of_mem (hnames : (src.batch.map (·.name)).Nodup) (hc : c ∈ src.batch) :
    src.enrolled? c.name = some c := by
  obtain ⟨c', hc'⟩ : ∃ c', src.batch.find? (·.name == c.name) = some c' :=
    Option.isSome_iff_exists.1 (List.find?_isSome.2 ⟨c, hc, by simp⟩)
  have hname : c'.name = c.name := by simpa using List.find?_some hc'
  rw [enrolled?, List.find?_append, hc', Option.some_or,
    List.inj_on_of_nodup_map hnames (List.mem_of_find?_eq_some hc') hc hname]

end Sources

/-! ## Requests -/

namespace Database

/-- What a database that has checked a batch may be asked for. -/
inductive Request where
  | isSuspendable (owner method desc : String) (searchSuper : Bool)
  | superOf (name : String)
  | commonSuper (a b : String)
  | isException (name : String)
  /-- A class is to be instrumented. -/
  | instrument (c : ClassDef)

/-- What is replied. -/
inductive Reply where
  | answer (yes : Bool)
  | ancestor (name : Option String)
  | outcome (result : Except InstrumentError ClassDef)

namespace Request

/-- The reply to a request. -/
def ask : Request → Inquiry Reply
  | isSuspendable owner method desc searchSuper =>
    return .answer (← Inquiry.isSuspendable owner method desc searchSuper)
  | superOf name => return .ancestor (← Inquiry.superOf name)
  | commonSuper a b => return .ancestor (← Inquiry.commonSuper a b)
  | isException name => return .answer (← Inquiry.isException name)
  | instrument c => return .outcome (← (Inquiry.instrument c).run)

/-- The replies to requests that are made one after the other. -/
def askAll (requests : List Request) : Inquiry (List Reply) := requests.mapM ask

end Request

end Database

namespace Sources

variable {src : Sources} {db db' : Database} {c : ClassDef}

/-- What is to be replied to a request. Whether a call may suspend, the walk tells; all else is as if
it were the first request after the check. -/
def Expects (src : Sources) : Database.Request → Database.Reply → Prop
  | .isSuspendable owner method desc searchSuper, reply =>
    ∃ answer, src.Suspends owner method desc searchSuper answer ∧ reply = .answer answer
  | request, reply => reply = (request.ask.run src.checked.2).1

/-- A request is for a class of the batch, if it is for a class to be instrumented. -/
def Admits (src : Sources) : Database.Request → Prop
  | .instrument c => c ∈ src.batch
  | _ => True

theorem steady_ask (hacyclic : src.IsAcyclic) (hnames : (src.batch.map (·.name)).Nodup)
    {request : Database.Request} (hrequest : src.Admits request) : src.Steady request.ask := by
  cases request with
  | isSuspendable owner method desc searchSuper =>
    exact (steady_isSuspendable hacyclic owner method desc searchSuper).bind fun _ => .pure _
  | superOf name => exact (answers_superOf name).steady.bind fun _ => .pure _
  | commonSuper a b => exact (steady_commonSuper hacyclic a b).bind fun _ => .pure _
  | isException name => exact (steady_isException hacyclic name).bind fun _ => .pure _
  | instrument c =>
    exact Steady.bind (tries_instrument hacyclic (enrolled?_of_mem hnames hrequest)) fun _ => .pure _

/-- The reply to a request, and what is still known afterwards. -/
theorem expects_ask (hacyclic : src.IsAcyclic) (hnames : (src.batch.map (·.name)).Nodup)
    (hchecked : src.Knows src.checked.2) {request : Database.Request} (hrequest : src.Admits request)
    (hdb : src.Knows db) :
    src.Expects request (request.ask.run db).1 ∧ src.Knows (request.ask.run db).2 := by
  obtain ⟨reply, hreply⟩ := steady_ask hacyclic hnames hrequest
  refine ⟨?_, (hreply db hdb).2⟩
  have hsame : (request.ask.run db).1 = (request.ask.run src.checked.2).1 :=
    (hreply db hdb).1.trans (hreply _ hchecked).1.symm
  cases request with
  | isSuspendable owner method desc searchSuper =>
    obtain ⟨answer, hanswer⟩ := exists_suspends hacyclic hdb owner method desc searchSuper
    have hwalk := answers_isSuspendable hacyclic owner method desc searchSuper hanswer
    exact ⟨answer, hanswer, ((hwalk.bind (.pure (Database.Reply.answer answer))) db hdb).1⟩
  | superOf name => exact hsame
  | commonSuper a b => exact hsame
  | isException name => exact hsame
  | instrument c => exact hsame

/-- One request after the other: each reply is as expected, and nothing false is learnt. -/
theorem expects_askAll (hacyclic : src.IsAcyclic) (hnames : (src.batch.map (·.name)).Nodup)
    (hchecked : src.Knows src.checked.2) {requests : List Database.Request}
    (hrequests : ∀ request ∈ requests, src.Admits request) (hdb : src.Knows db) :
    List.Forall₂ src.Expects requests ((Database.Request.askAll requests).run db).1 ∧
      src.Knows ((Database.Request.askAll requests).run db).2 := by
  induction requests generalizing db with
  | nil => exact ⟨.nil, hdb⟩
  | cons request requests ih =>
    obtain ⟨hreply, hknows⟩ :=
      expects_ask hacyclic hnames hchecked (hrequests request List.mem_cons_self) hdb
    obtain ⟨hreplies, hafter⟩ := ih (fun r hr => hrequests r (List.mem_cons_of_mem _ hr)) hknows
    unfold Database.Request.askAll
    rw [List.mapM_cons]
    exact ⟨.cons hreply hreplies, hafter⟩

/-- **What has been asked before makes no difference.** After a batch has been checked, each request is
replied to as expected, whatever requests have come before it; and that there is no such class is said
at most once of any. If the names and descriptors of a class of the batch can be told apart, the flag
that counts for a method is that of its own declaration. -/
theorem replies_as_expected {added : List Bool} {requests : List Database.Request}
    (hnames : (src.batch.map (·.name)).Nodup)
    (hdistinct : ∀ c ∈ src.batch, (c.methods.map fun m => (m.name, m.desc)).Nodup)
    (hparens : ∀ c ∈ src.batch, ∀ m ∈ c.methods, '(' ∉ m.name.toList)
    (hcheck : src.checked.1 = .ok added) (hacyclic : src.IsAcyclic)
    (hrequests : ∀ request ∈ requests, src.Admits request) :
    List.Forall₂ src.Expects requests ((Database.Request.askAll requests).run src.checked.2).1 ∧
      (∀ name, ((Database.Request.askAll requests).run src.checked.2).2.misses name ≤ 1) ∧
      ∀ c ∈ src.batch, (∀ m ∈ c.methods, ClassDef.OpensDesc m.desc) → ∀ name desc flag,
        '(' ∉ name.toList → ClassDef.OpensDesc desc →
          (c.flagOf? (name ++ desc) = some flag ↔ c.Declares name desc flag) := by
  have hchecked : src.Knows src.checked.2 := knows_checked hnames hcheck
  obtain ⟨hreplies, hafter⟩ := expects_askAll hacyclic hnames hchecked hrequests hchecked
  refine ⟨hreplies, fun name => (hafter.misses name).trans (by split <;> simp), ?_⟩
  intro c hc hdescs name desc flag hname hdesc
  exact ClassDef.flagOf?_eq_some_iff (hdistinct c hc) (hparens c hc) hdescs hname hdesc

/-! ## A family -/

/-- The names of all classes that may have an ancestor. -/
def names (src : Sources) : List String :=
  (src.batch ++ supportClasses).map (·.name) ++ platformSupers.map Prod.fst ++ src.resolver.names

theorem mem_names_of_parent? {name above : String} (h : src.parent? name = some above) :
    name ∈ src.names := by
  unfold parent? at h
  rw [names, List.mem_append, List.mem_append]
  split at h
  · next c henrolled =>
    have hname : c.name = name := by simpa using List.find?_some henrolled
    exact .inl (.inl (hname ▸ List.mem_map_of_mem (List.mem_of_find?_eq_some henrolled)))
  · rcases hplatform : platformSupers.lookup name with - | above'
    · rw [hplatform, Option.none_or, Option.bind_eq_some_iff] at h
      obtain ⟨c, hc, -⟩ := h
      exact .inr (src.resolver.find_mem hc)
    · obtain ⟨pre, post, heq, -⟩ := List.lookup_eq_some_iff.1 hplatform
      exact .inl (.inr (by rw [heq]; simp))

/-- If every ancestor is lower, no class is its own ancestor. -/
theorem isAcyclic_of_height (height : String → Nat)
    (h : ∀ name ∈ src.names, ∀ above ∈ src.parent? name, height above < height name) :
    src.IsAcyclic := by
  have hlower {name above : String}
      (hup : Relation.TransGen (fun x y => src.parent? x = some y) name above) :
      height above < height name := by
    induction hup with
    | single hstep => exact h _ (mem_names_of_parent? hstep) _ hstep
    | tail _ hstep ih => exact (h _ (mem_names_of_parent? hstep) _ hstep).trans ih
  exact fun name hup => lt_irrefl _ (hlower hup)

/-- A class with a method that pauses. Its ancestor has to be resolved. -/
def child : ClassDef :=
  { name := "app/Child", superName := some "lib/Base"
    methods :=
      [{ name := "pause", desc := "()V", access := .static, throws := [Names.suspendExecution]
         code :=
          [.invoke .invokestatic ⟨Names.coroutine, Names.yieldName, Names.yieldDesc⟩,
            .simple .ret] }] }

/-- The class above the ancestor cannot be had. -/
def family : Sources where
  batch := [child]
  resolver := .ofList [("lib/Base", { name := "lib/Base", superName := some "lib/Gone" })]
  options := {}

/-- Some requests, the first of which makes the database look for what cannot be had. -/
def visits : List Database.Request :=
  [.isSuspendable "app/Child" "rest" "()V" true, .instrument child,
    .isSuspendable "lib/Gone" "rest" "()V" false, .superOf "lib/Base",
    .commonSuper "app/Child" Names.error, .isException Names.error, .instrument child]

theorem replies_as_expected_family : family.checked.1 = .ok [true] ∧ family.IsAcyclic ∧
    List.Forall₂ family.Expects visits ((Database.Request.askAll visits).run family.checked.2).1 ∧
    ((Database.Request.askAll visits).run family.checked.2).2.misses "lib/Gone" = 1 := by
  have hcheck : family.checked.1 = .ok [true] := by decide +kernel
  have hacyclic : family.IsAcyclic := by
    refine isAcyclic_of_height (fun name => ([(Names.object, 0), (Names.string, 1),
      (Names.thread, 1), (Names.throwable, 1), (Names.error, 2), (Names.exception, 2),
      (Names.runtimeException, 3), (Names.suspendExecution, 3), (Names.coroutine, 1),
      ("lib/Gone", 0), ("lib/Base", 1), ("app/Child", 2)].lookup name).getD 4) ?_
    decide +kernel
  have hrequests : ∀ request ∈ visits, family.Admits request := by
    simp [visits, family, Admits]
  have hreplies := replies_as_expected (by decide) (by decide) (by decide) hcheck hacyclic hrequests
  exact ⟨hcheck, hacyclic, hreplies.1, by decide +kernel⟩

end Sources

end Resumable
