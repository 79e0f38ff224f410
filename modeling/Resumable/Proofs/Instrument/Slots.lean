import Resumable.Proofs.Instrument.Plan

/-!
# Every slot is given out once

A plan gives the slots of two buffers to values of all kinds, first to the operands and then to the
locals. However the kinds are mixed, no slot goes to two values, none of those that are reserved is
left over in both buffers, and nothing that has to be carried over a suspension is forgotten
(`SuspensionPoint.plan_tight`).
-/

namespace Resumable

open List (Forall₂)

/-- The locals from `first` on that have to be carried over a suspension, with their numbers:
something is known of them, and they hold no object under construction. -/
def Frame.carried (f : Frame) (first : Nat) : List (FlowValue × Nat) :=
  ((f.locals.drop first).zipIdx first).filter fun x => x.1 ≠ .unknown && !x.1.isFresh

namespace SuspensionPoint

variable {index first : Nat} {isYield : Bool} {f : Frame} {p : SuspensionPoint}

theorem liveLocals_eq (f : Frame) (first : Nat) :
    liveLocals first (f.locals.drop first) = f.carried first := by
  refine List.filter_congr fun x _ => Bool.eq_iff_iff.2 ?_
  rw [isLive_iff, Bool.and_eq_true, decide_eq_true_eq, Bool.not_eq_true']

/-- The numbers of the locals that are carried grow. -/
theorem pairwise_carried (f : Frame) (first : Nat) :
    (f.carried first).Pairwise (·.2 < ·.2) := by
  refine List.Pairwise.filter _ (List.pairwise_map.1 ?_)
  rw [List.zipIdx_map_snd]
  exact List.pairwise_lt_range'

/-- Locals that are planned under their numbers stand in the order of these. -/
theorem pairwise_of_treatsLocal {carried : List (FlowValue × Nat)}
    {planned : List (UInt16 × SlotAction)} (h : Forall₂ TreatsLocal carried planned)
    (hcarried : carried.Pairwise (·.2 < ·.2)) : planned.Pairwise (·.1 < ·.1) := by
  have hnumbers : carried.map Prod.snd = planned.map (·.1.toNat) := by
    rw [← List.forall₂_eq_eq_eq, List.forall₂_map_left_iff, List.forall₂_map_right_iff]
    exact h.imp fun _ _ htreats => htreats.1.symm
  have hgrows : (planned.map (·.1.toNat)).Pairwise (· < ·) :=
    hnumbers ▸ List.pairwise_map.2 hcarried
  exact (List.pairwise_map.1 hgrows).imp UInt16.lt_iff_toNat_lt.2

/-- The slots that a plan gives to operands and locals, each with its buffer. -/
def taken (p : SuspensionPoint) : List (Bool × UInt32) :=
  places (p.stack ++ p.locals.map Prod.snd)

/-- A plan for a frame that says what becomes of each value which is there, and does with as few
slots as can be. -/
structure Tight (p : SuspensionPoint) (f : Frame) (first : Nat) : Prop where
  operands : Forall₂ Treats f.stack.reverse p.stack
  locals : Forall₂ TreatsLocal (f.carried first) p.locals
  ordered : p.locals.Pairwise (·.1 < ·.1)
  /-- No slot of a buffer is given to two values. -/
  distinct : p.taken.Nodup
  below : ∀ place ∈ p.taken, place.2 < p.slots
  /-- As many slots are reserved as the buffer needs in which more values are kept. -/
  enough : p.slots.toNat = max (p.taken.countP (·.1 == true)) (p.taken.countP (·.1 == false))

/-- **A plan gives out every slot once, reserves none too many and forgets no value.** When the call
has become a suspension point, the instructions that made the objects under construction among its
operands are left out. -/
theorem plan_tight (h : plan index isYield f first = .ok p) :
    p.Tight f first ∧ ∀ {type alloc insn dupped}, .fresh type alloc insn dupped ∈ f.stack →
      ∀ {a : Analysed} {op callee progress progress' db db'},
        ((a.planCall index op callee f).run progress).run db = ((.ok (), progress'), db') →
        progress'.plan.points ≠ progress.plan.points → insn ∈ progress'.plan.omitted := by
  obtain ⟨hoperands, hlocals, c, hslots, htakes⟩ := plan_spec h
  rw [liveLocals_eq] at hlocals
  rw [places, places, ← List.filterMap_append] at htakes
  have hcount (reference : Bool) :
      c.next reference = p.taken.countP (·.1 == reference) := by
    rw [htakes.count]
    cases reference <;> exact Nat.zero_add _
  refine ⟨⟨hoperands, hlocals, pairwise_of_treatsLocal hlocals (pairwise_carried f first),
    htakes.nodup, fun place hplace => ?_, ?_⟩, ?_⟩
  · rw [UInt32.lt_iff_toNat_lt, hslots]
    exact Nat.lt_of_lt_of_le (htakes.high place hplace) (Counters.next_le_max c place.1)
  · rw [hslots, toNat_max, ← hcount, ← hcount]
    rfl
  · intro type alloc insn dupped hfresh a op callee progress progress' db db' hcall hpoints
    have hknown : ∀ t ∈ f.stack.reverse, t ≠ .unknown := fun t ht => by
      obtain ⟨action, -, htreats⟩ := exists_right_of_mem hoperands ht
      exact htreats.omits.1
    rcases Analysed.planCall_spec hcall with hsame | ⟨_, _, -, hplan, -⟩
    · exact absurd (congrArg MethodPlan.points hsame) hpoints
    · rw [hplan]
      exact List.mem_append_right _ (mem_omittedInstrs hknown (List.mem_reverse.2 hfresh))

/-- Operands and locals of all kinds, with an object under construction among the operands. Nothing
is known of local 2, and local 4 holds the object as well. -/
def mixed : Frame :=
  { locals := [.reference "app/Work", .int, .unknown, .long, .fresh "app/B" 3 3 false, .null,
      .reference "app/A", .int]
    stack := [.int, .fresh "app/B" 3 4 true, .fresh "app/B" 3 3 false, .null, .reference "app/A",
      .double] }

/-- Its plan at a suspend call, the receiver left alone. -/
def mixedPlan : SuspensionPoint :=
  { index := 7, isYield := true
    stack := [.saved .double 0, .saved .ref 0, .null, .omitted, .omitted, .saved .int 1]
    locals := [(1, .saved .int 2), (3, .saved .long 3), (5, .null), (6, .saved .ref 1),
      (7, .saved .int 4)]
    slots := 5 }

/-- Looks at the call. -/
def mixedCall : StateT Analysed.Progress Inquiry (Except InstrumentError Unit) :=
  Analysed.planCall ⟨"app/Work", { name := "run", desc := "()V" }, #[]⟩ 7 .invokestatic
    ⟨Names.coroutine, Names.yieldName, Names.yieldDesc⟩ mixed

/-- References and primitives are mixed, and each buffer is filled without a gap. -/
theorem plan_tight_mixed :
    plan 7 true mixed 1 = .ok mixedPlan ∧ mixedPlan.Tight mixed 1 ∧
      ∃ plan, ((mixedCall.run {}).run (.new {} .empty)).1 = (.ok (), { plan }) ∧
        plan.points = [mixedPlan] ∧ 3 ∈ plan.omitted ∧ 4 ∈ plan.omitted := by
  have hplan : plan 7 true mixed 1 = .ok mixedPlan := rfl
  have hcall : ((mixedCall.run {}).run (.new {} .empty)).1 =
      (.ok (), { plan := ⟨[mixedPlan], [3, 4]⟩ }) := rfl
  obtain ⟨htight, homitted⟩ := plan_tight hplan
  have hobject : FlowValue.fresh "app/B" 3 3 false ∈ mixed.stack := by decide
  have hcopy : FlowValue.fresh "app/B" 3 4 true ∈ mixed.stack := by decide
  exact ⟨hplan, htight, _, hcall, rfl,
    homitted hobject (Prod.ext hcall rfl) (List.cons_ne_nil _ _),
    homitted hcopy (Prod.ext hcall rfl) (List.cons_ne_nil _ _)⟩

end SuspensionPoint

end Resumable
