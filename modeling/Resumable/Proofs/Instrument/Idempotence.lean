import Mathlib
import Resumable.Proofs.Instrument.Learning
import Resumable.Proofs.Instrument.Verified

/-!
# What instrumenting leaves alone

Instrumenting a class changes the bodies of methods in which suspension points are found, and adds
the marker; everything else of the class stays as it is. In particular the heads of the methods stay
(`Method.head`), and everything that decides whether a class is instrumented at all is read off its
heads and its markers. So a class that comes out is one that will not be instrumented again,
whatever way it has come (`Inquiry.instrument_of_settled`), and instrumenting it once more changes
nothing (`Inquiry.instrument_conservative`).
-/

namespace Resumable

open List (Forall₂)

/-! ## Heads -/

/-- What is known of a method without looking at its body. -/
def Method.head (m : Method) : String × String × Access × List String :=
  (m.name, m.desc, m.access, m.throws)

namespace Method

variable {m m' : Method}

theorem head_eq_iff : m'.head = m.head ↔
    m'.name = m.name ∧ m'.desc = m.desc ∧ m'.access = m.access ∧ m'.throws = m.throws := by
  simp [head]

theorem isSuspendable_of_head (h : m'.head = m.head) : m'.isSuspendable = m.isSuspendable := by
  obtain ⟨-, -, -, hthrows⟩ := head_eq_iff.1 h
  unfold isSuspendable declares
  rw [hthrows]

theorem isSynchronized_of_head (h : m'.head = m.head) : m'.isSynchronized = m.isSynchronized := by
  obtain ⟨-, -, haccess, -⟩ := head_eq_iff.1 h
  unfold isSynchronized
  rw [haccess]

end Method

theorem Transforms.head_eq {owner : String} {m m' : Method} {a : Analysed} {plan : MethodPlan}
    (h : Transforms owner m a plan m') (hpoints : plan.points ≠ []) : m'.head = m.head := by
  obtain ⟨-, hmethod, -⟩ := h.analyzed
  obtain ⟨first, rest, -, _, _, hwrites⟩ := h.exists_transformed hpoints
  obtain ⟨_, _, _, _, _, _, _, -, -, -, -, hm⟩ := Analysed.transformed_cases hwrites
  rw [hm, ← hmethod]
  rfl

/-- What is asked of every head is the same in two lists with the same heads. -/
theorem any_of_heads {ms ms' : List Method} (h : Forall₂ (fun m m' => m'.head = m.head) ms ms')
    {p : Method → Bool} (hp : ∀ m m' : Method, m'.head = m.head → p m' = p m) :
    ms'.any p = ms.any p := by
  induction h with
  | nil => rfl
  | cons hhead _ ih => rw [List.any_cons, List.any_cons, hp _ _ hhead, ih]

/-! ## Runs -/

namespace Inquiry

variable {ε α β : Type} {db db' : Database}

/-- A computation that has come to a result has come through its first part. -/
theorem exists_of_run_bind {x : ExceptT ε Inquiry α} {k : α → ExceptT ε Inquiry β} {b : β}
    (h : (x >>= k).run.run db = (.ok b, db')) :
    ∃ a db₁, x.run.run db = (.ok a, db₁) ∧ (k a).run.run db₁ = (.ok b, db') := by
  rw [ExceptT.run_bind] at h
  rcases hrun : x.run.run db with ⟨e | a, db₁⟩
  · rw [run_bind_of_eq hrun] at h
    cases h
  · rw [run_bind_of_eq hrun] at h
    exact ⟨a, db₁, rfl, h⟩

theorem run_bind_of_ok {x : ExceptT ε Inquiry α} {k : α → ExceptT ε Inquiry β} {a : α}
    (h : x.run.run db = (.ok a, db')) : (x >>= k).run.run db = (k a).run.run db' := by
  rw [ExceptT.run_bind, run_bind_of_eq h]

/-- Each item has had its turn, after those in front of it. -/
theorem exists_of_run_mapM {f : α → ExceptT ε Inquiry β} {as : List α} {bs : List β}
    (h : (as.mapM f).run.run db = (.ok bs, db')) {i : Nat} {a : α} (ha : as[i]? = some a) :
    ∃ b db₁ db₂, ((as.take i).mapM f).run.run db = (.ok (bs.take i), db₁) ∧
      (f a).run.run db₁ = (.ok b, db₂) ∧ bs[i]? = some b := by
  induction as generalizing i bs db with
  | nil => cases ha
  | cons first as ih =>
    rw [List.mapM_cons] at h
    obtain ⟨b, db₁, hfirst, h⟩ := exists_of_run_bind h
    obtain ⟨bs', db₂, hrest, h⟩ := exists_of_run_bind h
    cases h
    cases i with
    | zero =>
      cases ha
      exact ⟨b, db, db₁, rfl, hfirst, rfl⟩
    | succ i =>
      obtain ⟨b', db₃, db₄, htake, hturn, hb'⟩ := ih hrest ha
      refine ⟨b', db₃, db₄, ?_, hturn, hb'⟩
      rw [List.take_succ_cons, List.mapM_cons, run_bind_of_ok hfirst, run_bind_of_ok htake]
      rfl

/-! ## The turn of a method -/

variable {owner : String} {m m' : Method} {c out : ClassDef}

/-- The suspension points that planning finds in a method. -/
def points (owner : String) (m : Method) : Flow.Attempt (List SuspensionPoint) := do
  let a ← Analysed.of owner m
  let (plan, outcome) ← (a.plan : Inquiry _)
  match outcome with
  | .error e => throw e
  | .ok () => return plan.points

/-- Its points, when it is the method's turn to be instrumented. -/
def pointsInTurn (owner : String) (m : Method) : Flow.Attempt (List SuspensionPoint) := do
  if (← getThe Database).options.debug then log .info (.instrumentingMember owner m.name)
  points owner m

/-- The suspension points that are found in method number `index` of a class: the class has been
enrolled, the methods in front of this one have been instrumented, and now it is its turn. -/
def pointsAt (c : ClassDef) (index : Nat) : Flow.Attempt (List SuspensionPoint) := do
  enroll c
  let _ ← (c.methods.take index).mapM (instrumentMember c.name)
  match c.methods[index]? with
  | none => return []
  | some m => pointsInTurn c.name m

/-- A candidate is changed only where points are found. -/
theorem candidate_turn (h : (instrumentCandidate owner m).run.run db = (.ok m', db')) :
    ∃ found, ((points owner m).run.run db).1 = .ok found ∧ (found = [] → m' = m) := by
  unfold instrumentCandidate at h
  unfold points
  obtain ⟨a, db₁, hanalysed, h⟩ := exists_of_run_bind h
  rw [run_bind_of_ok hanalysed]
  obtain ⟨⟨plan, outcome⟩, db₂, hplanned, h⟩ := exists_of_run_bind h
  rw [run_bind_of_ok hplanned]
  rcases outcome with e | ⟨⟨⟩⟩
  · cases h
  refine ⟨plan.points, rfl, fun hnone => ?_⟩
  dsimp only at h
  rw [hnone] at h
  cases h
  rfl

/-- A method of a class is changed only if it is a candidate and points are found in its turn. -/
theorem member_turn (h : (instrumentMember owner m).run.run db = (.ok m', db')) :
    m' = m ∨ m.isCandidate owner = true ∧ ∃ first rest,
      ((pointsInTurn owner m).run.run db).1 = .ok (first :: rest) := by
  unfold instrumentMember at h
  by_cases hcandidate : m.isCandidate owner = true
  · rw [hcandidate] at h
    have hfound : ∃ found, ((pointsInTurn owner m).run.run db).1 = .ok found ∧
        (found = [] → m' = m) := by
      unfold pointsInTurn
      obtain ⟨db₁, _, hlook, h⟩ := exists_of_run_bind h
      rw [run_bind_of_ok hlook]
      split at h
      · obtain ⟨_, db₂, hlog, h⟩ := exists_of_run_bind h
        rw [if_pos ‹_›, run_bind_of_ok hlog]
        exact candidate_turn h
      · rw [if_neg ‹_›]
        exact candidate_turn h
    obtain ⟨found, hfound, hnone⟩ := hfound
    rcases found with - | ⟨first, rest⟩
    · exact .inl (hnone rfl)
    · exact .inr ⟨hcandidate, first, rest, hfound⟩
  · rw [if_pos (by simpa using hcandidate)] at h
    cases h
    exact .inl rfl

theorem head_of_member (h : Gives (instrumentMember owner m) m') : m'.head = m.head := by
  rcases member_cases h with rfl | ⟨a, plan, hpoints, htransforms⟩
  · rfl
  · exact htransforms.head_eq hpoints

/-! ## Classes -/

/-- Some method of the class is to be transformed. -/
def hasCandidate (c : ClassDef) : Bool := c.methods.any (·.isCandidate c.name)

theorem run_enroll (hheads : c.checkHeads = .ok ()) (db : Database) :
    (enroll c).run.run db = (.ok ⟨⟩, db.record c.name (.known (.ofClass c))) := by
  unfold enroll
  rw [hheads]
  rfl

/-- The ways in which a class can come out. It passes through as it is if there is nothing to do or
if it has been done; otherwise each of its methods has its turn. -/
theorem instrument_ways (h : (instrument c).run.run db = (.ok out, db')) :
    c.checkHeads = .ok () ∧
      (out = c ∧ (hasCandidate c = false ∨ c.isMarked = true) ∧
          (db.record c.name (.known (.ofClass c))).Learns db' ∨
        hasCandidate c = true ∧ ∃ methods,
          (c.methods.mapM (instrumentMember c.name)).run.run
            (db.record c.name (.known (.ofClass c))) = (.ok methods, db') ∧
          out = { c with
            methods
            markers := if c.isMarked then c.markers else c.markers ++ [Names.instrumented] }) := by
  unfold instrument at h
  obtain ⟨_, db₁, henroll, h⟩ := exists_of_run_bind h
  have hheads : c.checkHeads = .ok () := by
    unfold enroll at henroll
    split at henroll
    · cases henroll
    · assumption
  rw [run_enroll hheads] at henroll
  cases henroll
  refine ⟨hheads, ?_⟩
  split at h
  · next hnone =>
    cases h
    exact .inl ⟨rfl, .inl (by simpa [hasCandidate] using hnone), .refl _⟩
  next hsome =>
  obtain ⟨db₂, _, hlook, h⟩ := exists_of_run_bind h
  cases hlook
  split at h
  · next hskip =>
    obtain ⟨_, db₃, hlog, h⟩ := exists_of_run_bind h
    cases hlog
    cases h
    exact .inl ⟨rfl, .inr (by simp_all), .log _ _ _⟩
  · obtain ⟨methods, db₃, hmethods, h⟩ := exists_of_run_bind h
    cases h
    exact .inr ⟨by simpa [hasCandidate] using hsome, methods, hmethods, rfl⟩

/-- Instrumenting a class takes in what its heads say, and apart from that only adds to the
database. -/
theorem learns_instrument (h : (instrument c).run.run db = (.ok out, db')) :
    (db.record c.name (.known (.ofClass c))).Learns db' := by
  obtain ⟨-, ⟨-, -, hlearns⟩ | ⟨-, methods, hmethods, -⟩⟩ := instrument_ways h
  · exact hlearns
  · have hlearns : Asking.Learns (c.methods.mapM (instrumentMember c.name)) :=
      .mapM (learns_instrumentMember c.name) _
    have := hlearns (db.record c.name (.known (.ofClass c)))
    rwa [hmethods] at this

theorem checkHeads_eq_ok_iff : c.checkHeads = .ok () ↔
    c.methods.any (fun m => m.isSuspendable && m.isSynchronized) = false := by
  unfold ClassDef.checkHeads
  rw [List.any_eq_false]
  split
  · next m hm =>
    have hbad := List.find?_some hm
    exact ⟨nofun, fun hall => absurd hbad (hall m (List.mem_of_find?_eq_some hm))⟩
  · next hnone => exact ⟨fun _ => List.find?_eq_none.1 hnone, fun _ => rfl⟩

/-- A class that comes out of its turn carries the marker. -/
theorem contains_marked (c : ClassDef) :
    (if c.isMarked then c.markers else c.markers ++ [Names.instrumented]).contains
      Names.instrumented = true := by
  split
  · assumption
  · simp

/-- A class that has nothing to do, or has been marked, passes through. -/
theorem instrument_of_settled (hheads : c.checkHeads = .ok ())
    (hsettled : hasCandidate c = false ∨ c.isMarked = true) (hforce : db.options.force = false) :
    ((instrument c).run.run db).1 = .ok c := by
  unfold instrument
  rw [run_bind_of_ok (run_enroll hheads db)]
  split
  · rfl
  · next hsome =>
    have hmarked : c.isMarked = true := hsettled.resolve_left (by simpa [hasCandidate] using hsome)
    have hoptions : (db.record c.name (.known (.ofClass c))).options.force = false := by
      rw [Database.options_record, hforce]
    generalize db.record c.name (.known (.ofClass c)) = enrolled at hoptions ⊢
    rw [run_bind_of_ok (show (getThe Database : Flow.Attempt Database).run.run enrolled =
      (.ok enrolled, enrolled) from rfl), hmarked, hoptions]
    rfl

/-- The methods of a class come out one for one, with the heads they had. -/
theorem heads_of_instrument (h : (instrument c).run.run db = (.ok out, db')) :
    Forall₂ (fun m m' => m'.head = m.head) c.methods out.methods := by
  rcases instrument_cases ⟨db, db', h⟩ with rfl | hmembers
  · exact List.forall₂_same.2 fun _ _ => rfl
  · exact hmembers.imp fun m m' => head_of_member

/-- The turn of a method in the run of its class. -/
theorem pointsAt_of_turn {i : Nat} {methods : List Method} {db₁ db₂ : Database}
    (hheads : c.checkHeads = .ok ()) (hm : c.methods[i]? = some m)
    (hbefore : ((c.methods.take i).mapM (instrumentMember c.name)).run.run
      (db.record c.name (.known (.ofClass c))) = (.ok methods, db₁))
    (hturn : (instrumentMember c.name m).run.run db₁ = (.ok m', db₂)) :
    m' = m ∨ m.isCandidate c.name = true ∧ ∃ first rest,
      ((pointsAt c i).run.run db).1 = .ok (first :: rest) := by
  have hrun : (pointsAt c i).run.run db = (pointsInTurn c.name m).run.run db₁ := by
    unfold pointsAt
    rw [run_bind_of_ok (run_enroll hheads db), run_bind_of_ok hbefore, hm]
  rw [hrun]
  exact member_turn hturn

/-- **Instrumenting touches only what it must, and once.** What comes out is the class with other
methods and markers at most. The methods have kept their heads and their order, and one that has
been changed is a candidate in which suspension points were found. The marker has been added if it
was missing and there are candidates. Unless it is forced, instrumenting once more changes nothing.
-/
theorem instrument_conservative (h : (instrument c).run.run db = (.ok out, db')) :
    out = { c with methods := out.methods, markers := out.markers } ∧
      out.methods.map Method.head = c.methods.map Method.head ∧
      (∀ i m, c.methods[i]? = some m → out.methods[i]? = some m ∨
        m.isCandidate c.name = true ∧ ∃ first rest,
          ((pointsAt c i).run.run db).1 = .ok (first :: rest)) ∧
      out.markers = (if hasCandidate c && !c.isMarked then c.markers ++ [Names.instrumented]
        else c.markers) ∧
      (db.options.force = false → ((instrument out).run.run db').1 = .ok out) := by
  have hkept : Forall₂ (fun m m' => m'.head = m.head) c.methods out.methods := heads_of_instrument h
  have hoptions : db'.options = db.options := by
    rw [(learns_instrument h).options, Database.options_record]
  have hsame : out.methods.map Method.head = c.methods.map Method.head := by
    rw [← List.forall₂_eq_eq_eq, List.forall₂_map_left_iff, List.forall₂_map_right_iff]
    exact hkept.flip
  obtain ⟨hheads, ⟨rfl, hsettled, -⟩ | ⟨hcandidates, methods, hmethods, rfl⟩⟩ := instrument_ways h
  · refine ⟨rfl, hsame, fun i m hm => .inl hm, ?_, fun hforce => ?_⟩
    · rcases hsettled with hnone | hmarked
      · simp [hnone]
      · simp [hmarked]
    · exact instrument_of_settled hheads hsettled (hoptions ▸ hforce)
  · refine ⟨rfl, hsame, fun i m hm => ?_, ?_, fun hforce => ?_⟩
    · obtain ⟨m', db₁, db₂, hbefore, hturn, hm'⟩ := exists_of_run_mapM hmethods hm
      rcases pointsAt_of_turn hheads hm hbefore hturn with rfl | hchanged
      · exact .inl hm'
      · exact .inr hchanged
    · rw [hcandidates]
      cases c.isMarked <;> rfl
    · have hagain : ClassDef.checkHeads { c with
          methods
          markers := if c.isMarked then c.markers else c.markers ++ [Names.instrumented] } =
            .ok () := by
        rw [checkHeads_eq_ok_iff] at hheads ⊢
        rw [← hheads]
        refine any_of_heads hkept fun m m' hhead => ?_
        rw [Method.isSuspendable_of_head hhead, Method.isSynchronized_of_head hhead]
      exact instrument_of_settled hagain (.inr (contains_marked c)) (hoptions ▸ hforce)

/-- A class with a method that pauses, one that only may, and one that may not. -/
def worker : ClassDef :=
  { ClassDef.pausing with
    methods := ClassDef.pausing.methods ++
      [{ name := "idle", desc := "()V", access := .static, throws := [Names.suspendExecution]
         code := [.simple .ret] },
        { name := "plain", desc := "()V", access := .static, code := [.simple .ret] }] }

/-- What becomes of it: only the first method is changed, and the class is marked. -/
def workerDone : ClassDef :=
  { worker with
    markers := [Names.instrumented]
    methods := ClassDef.paused.methods ++ worker.methods.drop 1 }

theorem instrument_conservative_worker :
    (∃ db', (instrument worker).run.run (.new {} .empty) = (.ok workerDone, db') ∧
      ((instrument workerDone).run.run db').1 = .ok workerDone) ∧
    ((pointsAt worker 0).run.run (.new {} .empty)).1 = .ok [Transforms.pausingPoint] ∧
    ((pointsAt worker 1).run.run (.new {} .empty)).1 = .ok [] := by
  have hrun : ((instrument worker).run.run (.new {} .empty)).1 = .ok workerDone := by decide +kernel
  obtain ⟨-, -, -, -, hagain⟩ := instrument_conservative (Prod.ext hrun rfl)
  exact ⟨⟨_, Prod.ext hrun rfl, hagain rfl⟩, by decide +kernel, by decide +kernel⟩

end Inquiry

end Resumable
