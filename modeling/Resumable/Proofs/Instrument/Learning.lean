import Mathlib
import Resumable.Instrument.Class
import Resumable.Proofs.Flow.Steadiness
import Resumable.Proofs.Instrument.Layout
import Resumable.Proofs.Suspendable.Learning

/-!
# Instrumenting only adds to the database

The analysis, the plan and the writing of a method put questions and notices to the database and
nothing else, so they only add to it (`Inquiry.learns_instrumentMember`). Instrumenting a class
takes in the facts of the class first, which may replace what was known of that one name.
-/

namespace Resumable

open Asking

/-! ## Frames -/

theorem FlowValue.learns_merge (a b : FlowValue) : Learns (a.merge b) := by
  unfold FlowValue.merge
  split
  · exact .pure _
  split
  · exact .pure _
  · exact .pure _
  · split
    · exact .pure _
    · exact (Inquiry.learns_commonSuper _ _).bind fun _ => .pure _
  · exact .pure _

namespace Frame

theorem learns_mergeValues (as bs : List FlowValue) : Learns (mergeValues as bs) := by
  induction as generalizing bs with
  | nil => exact .pure _
  | cons a as ih =>
    cases bs with
    | nil => exact .pure _
    | cons b bs =>
      rw [mergeValues]
      exact (a.learns_merge b).bind fun _ => (ih bs).bind fun _ => .pure _

theorem learns_merge (f g : Frame) : Learns (f.merge g) := by
  unfold merge
  split
  · exact .pure _
  · exact (learns_mergeValues _ _).bind fun _ => (learns_mergeValues _ _).bind fun _ => .pure _

end Frame

/-! ## The analysis -/

namespace Flow

variable {owner : String} {m : Method} {ranges : List HandlerRange} {α : Type}

theorem learns_attempt (index : Nat) (x : Except FlowError α) :
    Learns (attempt owner m index x) := by
  rcases x with e | a
  · exact .throw _
  · exact .pure _

theorem learns_flowInto (source target : Nat) (f : Frame) (s : State) :
    Learns (flowInto owner m source target f s) := by
  unfold flowInto
  split
  · exact .pure _
  next old _ =>
  exact (Learns.liftTry (old.learns_merge f)).bind fun _ => (learns_attempt _ _).bind fun _ => .pure _

theorem learns_flowIntoAll (source : Nat) (brought : List (Nat × Frame)) (s : State) :
    Learns (flowIntoAll owner m source brought s) := by
  induction brought generalizing s with
  | nil => exact .pure _
  | cons b brought ih => exact (learns_flowInto source b.1 b.2 s).bind ih

theorem learns_visit (index : Nat) (i : Instr) (before : Frame) (s : State) :
    Learns (visit owner m ranges index i before s) := by
  unfold visit
  refine (learns_attempt _ _).bind fun after => ?_
  refine (Learns.mapM (fun l => learns_attempt _ _) _).bind fun targets => ?_
  refine (learns_flowIntoAll _ _ _).bind fun s => ?_
  split
  · split
    · exact (Learns.throw _).bind fun s => learns_flowIntoAll _ _ _
    · exact (learns_flowInto _ _ _ _).bind fun s => learns_flowIntoAll _ _ _
  · exact (Learns.pure _).bind fun s => learns_flowIntoAll _ _ _

theorem learns_settle (code : Array Instr) (steps : Nat) (s : State) :
    Learns (settle owner m ranges code steps s) := by
  induction steps generalizing s with
  | zero =>
    obtain ⟨frames, - | ⟨index, pending⟩⟩ := s
    · exact .pure _
    · exact .throw _
  | succ steps ih =>
    obtain ⟨frames, - | ⟨index, pending⟩⟩ := s
    · exact .pure _
    unfold settle
    split
    · exact (learns_visit _ _ _ _).bind fun s => ih s
    · exact ih _

theorem learns_analyze (owner : String) (m : Method) : Learns (analyze owner m) := by
  intro db
  rcases analyze_cases owner m with ⟨r, hr⟩ | ⟨ranges, entry, hsettle⟩
  · rw [hr db]
    exact .refl db
  · rw [hsettle db]
    exact learns_settle _ _ _ db

end Flow

/-! ## Plans -/

namespace Analysed

variable {a : Analysed}

theorem learns_planCall (index : Nat) (op : Opcode) (callee : MemberRef) (f : Frame) :
    Learns (a.planCall index op callee f) := by
  unfold planCall
  refine (Learns.liftState (Inquiry.learns_isSuspendable _ _ _ _)).bind fun suspendable => ?_
  split
  · refine (Learns.liftState (.log _ _)).bind fun _ => ?_
    dsimp only
    split
    · exact .pure _
    refine (Learns.modify _).bind fun _ => ?_
    split
    · exact .pure _
    · exact (Learns.modify _).bind fun _ => .pure _
  · split
    · exact .pure _
    refine (Learns.liftState .look).bind fun db => ?_
    split
    · exact .pure _
    refine Learns.get.bind fun progress => ?_
    split
    · exact (Learns.modify _).bind fun _ => (Learns.liftState (.log _ _)).bind fun _ => .pure _
    · exact .pure _

theorem learns_planCalls (is : List (Instr × Nat)) : Learns (a.planCalls is) := by
  induction is with
  | nil => exact .pure _
  | cons i is ih =>
    obtain ⟨i, index⟩ := i
    unfold planCalls
    split
    · refine (learns_planCall _ _ _ _).bind fun outcome => ?_
      split
      · exact .pure _
      · exact ih
    · exact ih

theorem learns_plan : Learns a.plan :=
  (learns_planCalls _ {}).bind fun _ => .pure _

/-! ## Bodies -/

theorem learns_notice (level : Level) (n : Notice) : Learns (notice level n) :=
  .liftTry (Learns.liftState (.log level n))

theorem learns_deferredAllocation (omitted : List Nat) (index : Nat) (desc : String) :
    Learns (a.deferredAllocation omitted index desc) := by
  unfold deferredAllocation
  split
  · exact .pure _
  rcases MethodType.parse desc with cause | type
  · exact Learns.throw (InstrumentError.descriptor cause)
  dsimp only
  rw [pure_bind]
  split
  · split
    · split
      · exact .pure _
      split
      · exact .throw _
      · exact (Learns.liftTry (Learns.modify _)).bind fun _ => .pure _
    · exact (learns_notice _ _).bind fun _ => .pure _
  · exact (learns_notice _ _).bind fun _ => .pure _

theorem learns_leadIn (omitted : List Nat) (index : Nat) (i : Instr) :
    Learns (a.leadIn omitted index i) := by
  unfold leadIn
  split
  · split
    · exact .pure _
    split
    · refine (Learns.liftTry (Learns.liftState .look)).bind fun db => ?_
      split
      · exact .throw _
      refine (Learns.liftTry .get).bind fun account => ?_
      split
      · exact (Learns.liftTry (Learns.modify _)).bind fun _ =>
          (learns_notice _ _).bind fun _ => .pure _
      · exact .pure _
    · exact .pure _
  · split
    · exact learns_deferredAllocation _ _ _
    · exact .pure _
  · exact .pure _

theorem learns_segment (omitted : List Nat) (is : List (Instr × Nat)) :
    Learns (a.segment omitted is) := by
  induction is with
  | nil => exact .pure _
  | cons i is ih =>
    obtain ⟨i, index⟩ := i
    unfold segment
    split
    · exact ih
    · exact (learns_leadIn _ _ _).bind fun _ => ih.bind fun _ => .pure _

theorem learns_pointsCode (omitted : List Nat) (entry : Nat) (points : List SuspensionPoint)
    (resume before after : List Label) :
    Learns (a.pointsCode omitted entry points resume before after) := by
  induction points generalizing entry resume before after with
  | nil => exact .pure _
  | cons p points ih =>
    rcases resume with - | ⟨_, resume⟩
    · exact .pure _
    rcases before with - | ⟨_, before⟩
    · exact .pure _
    rcases after with - | ⟨_, after⟩
    · exact .pure _
    · exact (learns_segment _ _).bind fun _ => (ih _ _ _ _).bind fun _ => .pure _

theorem learns_cutRange (code : List Instr) (before after : Label) (range : Label × Label) :
    Learns (a.cutRange code before after range) := by
  have hplace (l : Label) : Learns (a.cutPlace code l) := by
    unfold cutPlace
    split
    · exact .pure _
    · exact .throw _
  refine (hplace _).bind fun _ => (hplace _).bind fun _ => (hplace _).bind fun _ => ?_
  split
  · refine (hplace _).bind fun _ => ?_
    split
    · exact (learns_notice _ _).bind fun _ => .pure _
    · exact .pure _
  · exact .pure _

theorem learns_cutRanges (code : List Instr) (stretches ranges : List (Label × Label)) :
    Learns (a.cutRanges code stretches ranges) := by
  induction stretches generalizing ranges with
  | nil => exact .pure _
  | cons stretch stretches ih =>
    obtain ⟨before, after⟩ := stretch
    exact (Learns.mapM (learns_cutRange code before after) _).bind fun _ => ih _

theorem learns_cutHandlers (code : List Instr) (labels : BodyLabels) :
    Learns (a.cutHandlers code labels) :=
  (Learns.mapM (fun _ => (learns_cutRanges _ _ _).bind fun _ => .pure _) _).bind fun _ => .pure _

theorem learns_transformed (plan : MethodPlan) (first : SuspensionPoint) :
    Learns (a.transformed plan first) := by
  unfold transformed
  refine (learns_notice _ _).bind fun _ => ?_
  dsimp only
  split
  · exact .throw _
  refine (learns_segment _ _).bind fun _ => (learns_pointsCode _ _ _ _ _ _).bind fun _ =>
    (learns_cutHandlers _ _).bind fun _ => (Learns.liftTry .get).bind fun _ => ?_
  split
  · exact .throw _
  · exact .pure _

theorem learns_body (plan : MethodPlan) : Learns (a.body plan) := by
  unfold body
  split
  · exact .pure _
  next first _ _ =>
  refine (Learns.liftTry (learns_transformed plan first {})).bind fun r => ?_
  obtain ⟨outcome, account⟩ := r
  rcases outcome with e | m
  · exact .throw _
  · exact .pure _

end Analysed

/-! ## Members -/

namespace Inquiry

theorem learns_instrumentCandidate (owner : String) (m : Method) :
    Learns (instrumentCandidate owner m) := by
  unfold instrumentCandidate
  refine ((Flow.learns_analyze owner m).bind fun _ => .pure _).bind fun a => ?_
  refine (Learns.liftTry a.learns_plan).bind fun planned => ?_
  obtain ⟨plan, outcome⟩ := planned
  rcases outcome with e | ⟨⟨⟩⟩
  · exact .throw _
  dsimp only
  split
  · exact .pure _
  split
  · exact (Learns.throw _).bind fun _ => a.learns_body plan
  · exact a.learns_body plan

/-- Whether and how a method is transformed is found out by questions alone. -/
theorem learns_instrumentMember (owner : String) (m : Method) :
    Learns (instrumentMember owner m) := by
  unfold instrumentMember
  split
  · exact .pure _
  refine (Learns.liftTry .look).bind fun db => ?_
  split
  · exact (Learns.liftTry (Learns.log _ _)).bind fun _ => learns_instrumentCandidate owner m
  · exact learns_instrumentCandidate owner m

end Inquiry

end Resumable
