import Resumable.Proofs.Flow.Course
import Resumable.Proofs.Flow.Heights
import Resumable.Proofs.Suspendable.Hierarchy

/-!
# The analysis comes to an end

The loop of the analysis is given a number of steps, and it never needs more: whatever the method and
whatever the database says, even of a hierarchy with cycles, the analysis does not fail for want of
steps (`analyze_settles`).

What is known of a value has a rank, which says how often it can still come to be known less. Merging
lowers the rank or changes nothing (`FlowValue.rank_merge`). The potential of a state adds up the
ranks of all values, counts a frame that has not been found as more than any that can be found, and
adds the instructions that wait. When control comes to a place, an instruction more may wait, but only
if the frame there has lost rank, so the potential does not grow; and looking at an instruction takes
it off those that wait.
-/

namespace Resumable

open List (Forall₂)

variable {db₀ db : Database}

/-! ## Ranks -/

namespace FlowValue

/-- How often what is known of a value can still come to be less. -/
def rank (db : Database) : FlowValue → Nat
  | .unknown => 0
  | .null => db.reach + 3
  | .reference type => 1 + db.depth type
  | _ => 1

theorem rank_le (db : Database) (v : FlowValue) : v.rank db ≤ db.reach + 3 := by
  cases v with
  | reference type =>
    have := db.depth_le type
    simp only [rank]
    omega
  | _ => simp [rank]

/-- Merging lowers the rank, unless it changes nothing. -/
theorem rank_merge (h : db₀.Keeps db) (a b : FlowValue) :
    db₀.Keeps ((a.merge b).run db).2 ∧
      (((a.merge b).run db).1 = a ∨ ((a.merge b).run db).1.rank db₀ < a.rank db₀) := by
  unfold merge
  by_cases hab : a = b
  · rw [if_pos hab]
    exact ⟨h, .inl rfl⟩
  rw [if_neg hab]
  split
  · rename_i type
    refine ⟨h, .inr ?_⟩
    show 1 + db₀.depth type < db₀.reach + 3
    have := db₀.depth_le type
    omega
  · exact ⟨h, .inl rfl⟩
  · rename_i s t
    -- If the classes meet in the root, that is less than `s`, unless `s` is the root.
    have hroot : FlowValue.reference Names.object = .reference s ∨
        (FlowValue.reference Names.object).rank db₀ < (FlowValue.reference s).rank db₀ := by
      by_cases hs : s = Names.object
      · exact .inl (hs ▸ rfl)
      · right
        show 1 + db₀.depth Names.object < 1 + db₀.depth s
        have := db₀.one_lt_depth hs
        rw [db₀.depth_object]
        omega
    split
    · exact ⟨h, hroot⟩
    · obtain ⟨hkeeps, hdepth⟩ := Inquiry.commonSuper_spec h s t
      refine ⟨hkeeps, ?_⟩
      show FlowValue.reference (((Inquiry.commonSuper s t).run db).1.getD Names.object) = _ ∨
        (FlowValue.reference (((Inquiry.commonSuper s t).run db).1.getD Names.object)).rank db₀ < _
      rcases hmeet : ((Inquiry.commonSuper s t).run db).1 with _ | c
      · exact hroot
      · rcases hdepth c hmeet with rfl | hlt
        · exact .inl rfl
        · exact .inr (Nat.add_lt_add_left hlt 1)
  · rename_i hother
    refine ⟨h, ?_⟩
    show FlowValue.unknown = a ∨ 0 < a.rank db₀
    cases a with
    | unknown => exact .inl rfl
    | _ =>
      right
      simp only [rank]
      omega

end FlowValue

namespace Frame

/-- The ranks of some values. -/
def ranks (db : Database) (vs : List FlowValue) : Nat := (vs.map (FlowValue.rank db)).sum

theorem ranks_le (db : Database) (vs : List FlowValue) : ranks db vs ≤ vs.length * (db.reach + 3) := by
  induction vs with
  | nil => exact Nat.zero_le _
  | cons v vs ih =>
    have := v.rank_le db
    simp only [ranks, List.map_cons, List.sum_cons, List.length_cons, Nat.succ_mul] at ih ⊢
    omega

/-- Where merging changes a list, it lowers its ranks. -/
theorem ranks_mergeValues (h : db₀.Keeps db) (as bs : List FlowValue) :
    db₀.Keeps ((mergeValues as bs).run db).2 ∧
      ((mergeValues as bs).run db).1.1.length = as.length ∧
      (((mergeValues as bs).run db).1.1 = as ∨
        ranks db₀ ((mergeValues as bs).run db).1.1 < ranks db₀ as) := by
  induction as generalizing bs db with
  | nil => exact ⟨h, rfl, .inl rfl⟩
  | cons a as ih =>
    cases bs with
    | nil => exact ⟨h, rfl, .inl rfl⟩
    | cons b bs =>
      obtain ⟨hkeeps, hfirst⟩ := FlowValue.rank_merge h a b
      obtain ⟨hkeeps', hlen, hrest⟩ := ih hkeeps bs
      refine ⟨hkeeps', congrArg (· + 1) hlen, ?_⟩
      show ((a.merge b).run db).1 :: ((mergeValues as bs).run ((a.merge b).run db).2).1.1 = a :: as ∨
        ranks db₀ (((a.merge b).run db).1 ::
          ((mergeValues as bs).run ((a.merge b).run db).2).1.1) < ranks db₀ (a :: as)
      rcases hfirst with hsame | hlt <;> rcases hrest with hsame' | hlt'
      · exact .inl (by rw [hsame, hsame'])
      all_goals
        right
        simp only [ranks, List.map_cons, List.sum_cons] at *
      · rw [hsame]
        omega
      · rw [hsame']
        omega
      · omega

/-- The ranks of all that a frame knows. -/
def weight (db : Database) (f : Frame) : Nat := ranks db f.locals + ranks db f.stack

theorem weight_le (db : Database) (f : Frame) :
    f.weight db ≤ (f.locals.length + f.stack.length) * (db.reach + 3) := by
  rw [Nat.add_mul]
  exact Nat.add_le_add (ranks_le db f.locals) (ranks_le db f.stack)

/-- Merging fails only if the operand stacks differ in height; otherwise the frame keeps its form and
loses weight if it changes. -/
theorem merged_meets (db₀ : Database) (f g : Frame) {E : FlowError → Prop}
    (herror : f.stack.length ≠ g.stack.length → E (.heightsDiffer f.stack.length g.stack.length)) :
    Meets db₀.Keeps (f.merged g) (fun h db => db₀.Keeps db ∧ h.locals.length = f.locals.length ∧
      h.stack.length = f.stack.length ∧ (h = f ∨ h.weight db₀ < f.weight db₀)) E := by
  intro db hdb
  by_cases hheight : f.stack.length = g.stack.length
  · rw [merged_of_eq hheight]
    dsimp only
    obtain ⟨hkeeps, hlen, hlocals⟩ := ranks_mergeValues hdb f.locals g.locals
    obtain ⟨hkeeps', hlen', hstack⟩ := ranks_mergeValues hkeeps f.stack.reverse g.stack.reverse
    have hreverse (vs : List FlowValue) : ranks db₀ vs.reverse = ranks db₀ vs := by
      unfold ranks
      rw [List.map_reverse, List.sum_reverse]
    generalize ((mergeValues f.locals g.locals).run db).1.1 = locals at hlen hlocals ⊢
    generalize ((mergeValues f.stack.reverse g.stack.reverse).run
      ((mergeValues f.locals g.locals).run db).2).1.1 = stack at hlen' hstack ⊢
    refine ⟨hkeeps', hlen, by simpa using hlen', ?_⟩
    show (⟨locals, stack.reverse⟩ : Frame) = f ∨
      ranks db₀ locals + ranks db₀ stack.reverse < ranks db₀ f.locals + ranks db₀ f.stack
    rw [hreverse] at hstack ⊢
    rcases hlocals with rfl | hlt <;> rcases hstack with rfl | hlt'
    · left
      rw [List.reverse_reverse]
    all_goals
      right
      try rw [hreverse]
      omega
  · rw [merged_of_ne hheight]
    exact herror hheight

end Frame

namespace Flow

variable {owner : String} {m : Method} {frames : Array (Option Frame)} {s : State} {n : Nat}

/-! ## The potential -/

/-- What all places count for together. -/
def total (count : Option Frame → Nat) (frames : Array (Option Frame)) : Nat :=
  (frames.toList.map count).sum

/-- When one place changes, so does what it counts for. -/
theorem total_put (count : Option Frame → Nat) {target : Nat} {old : Option Frame}
    (f : Option Frame) (h : frames[target]? = some old) :
    total count (frames.setIfInBounds target f) + count old = total count frames + count f := by
  unfold total
  rw [Array.toList_setIfInBounds]
  rw [← Array.getElem?_toList] at h
  generalize frames.toList = places at h
  induction places generalizing target with
  | nil => cases h
  | cons place rest ih =>
    cases target with
    | zero =>
      cases h
      simp only [List.set_cons_zero, List.map_cons, List.sum_cons]
      omega
    | succ target =>
      have := ih h
      simp only [List.set_cons_succ, List.map_cons, List.sum_cons]
      omega

theorem total_le (frames : Array (Option Frame)) {count : Option Frame → Nat} {most : Nat}
    (h : ∀ f, count f ≤ most) : total count frames ≤ frames.size * most := by
  unfold total
  rw [← Array.length_toList]
  induction frames.toList with
  | nil => exact Nat.zero_le _
  | cons place rest ih =>
    have := h place
    simp only [List.map_cons, List.sum_cons, List.length_cons, Nat.succ_mul]
    omega

/-- How many instructions have a frame. -/
def found (frames : Array (Option Frame)) : Nat := total (fun f => if f.isSome then 1 else 0) frames

theorem found_le (frames : Array (Option Frame)) : found frames ≤ frames.size := by
  have := total_le frames (fun f : Option Frame =>
    show (if f.isSome then 1 else 0) ≤ 1 by split <;> omega)
  unfold found
  omega

/-- Putting a frame in its place loses none. -/
theorem found_le_put (s : State) (target : Nat) (f : Frame) :
    found s.frames ≤ found (s.put target f).frames := by
  unfold State.put
  dsimp only
  rcases hold : s.frames[target]? with _ | old
  · exact Nat.le_of_eq
      (by rw [Array.setIfInBounds_eq_of_size_le (Array.getElem?_eq_none_iff.1 hold)])
  · have := total_put (fun f => if f.isSome then 1 else 0) (some f) hold
    unfold found
    simp only [Option.isSome_some, if_true] at this
    split at this <;> omega

/-- As much as a frame can weigh whose operand stack is no higher than the code is long. -/
def ceiling (db : Database) (m : Method) : Nat :=
  (m.maxLocals.toNat + m.code.length) * (db.reach + 3)

/-- What a place counts for. -/
def burden (db : Database) (m : Method) : Option Frame → Nat
  | none => ceiling db m + 1
  | some f => f.weight db

/-- How often instructions may still have to be looked at. -/
def potential (db : Database) (m : Method) (s : State) : Nat :=
  s.pending.length + total (burden db m) s.frames

/-- What the loop keeps while `n` steps are left. -/
structure Nearing (db₀ : Database) (m : Method) (n : Nat) (s : State) (db : Database) : Prop where
  keeps : db₀.Keeps db
  size : s.frames.size = m.code.length
  uniform : Uniform m.maxLocals.toNat s.frames
  /-- Each operand has been pushed by an instruction of its own. -/
  low : ∀ (j : Nat) (f : Frame), s.frames[j]?.join = some f → f.stack.length < found s.frames
  near : potential db₀ m s ≤ n

theorem weight_le_ceiling {f : Frame} (hlen : f.locals.length = m.maxLocals.toNat)
    (hheight : f.stack.length ≤ m.code.length) : f.weight db ≤ ceiling db m :=
  Nat.le_trans (f.weight_le db) (Nat.mul_le_mul_right _ (by omega))

theorem potential_cons (db : Database) (m : Method) (frames : Array (Option Frame)) (index : Nat)
    (pending : List Nat) :
    potential db m ⟨frames, index :: pending⟩ = potential db m ⟨frames, pending⟩ + 1 := by
  unfold potential
  dsimp only
  rw [List.length_cons]
  omega

/-- Taking an instruction off those that wait spends a step. -/
theorem Nearing.next {index : Nat} {pending : List Nat}
    (h : Nearing db₀ m (n + 1) ⟨frames, index :: pending⟩ db) :
    Nearing db₀ m n ⟨frames, pending⟩ db where
  keeps := h.keeps
  size := h.size
  uniform := h.uniform
  low := h.low
  near := by
    have hnear := h.near
    rw [potential_cons] at hnear
    omega

/-- A frame that counts for less than what was in its place brings the loop no further from its
end. -/
theorem Nearing.put {target : Nat} {f : Frame} {db' : Database} (h : Nearing db₀ m n s db)
    (hkeeps : db₀.Keeps db') (htarget : target < m.code.length)
    (hlen : f.locals.length = m.maxLocals.toNat)
    (hheight : f.stack.length < found (s.put target f).frames)
    (hburden : burden db₀ m (some f) < burden db₀ m s.frames[target]?.join) :
    Nearing db₀ m n (s.put target f) db' := by
  obtain ⟨old, hold⟩ : ∃ old, s.frames[target]? = some old :=
    ⟨_, Array.getElem?_eq_getElem (h.size ▸ htarget)⟩
  rw [hold] at hburden
  refine ⟨hkeeps, Array.size_setIfInBounds.trans h.size, uniform_put h.uniform hlen, ?_, ?_⟩
  · intro j g hg
    rcases cases_of_put hg with ⟨rfl, rfl⟩ | ⟨-, hg⟩
    · exact hheight
    · exact Nat.lt_of_lt_of_le (h.low j g hg) (found_le_put s target f)
  · have hpending : (s.put target f).pending.length ≤ s.pending.length + 1 := by
      unfold State.put
      dsimp only
      split
      · exact Nat.le_succ _
      · exact Nat.le_refl _
    have htotal := total_put (burden db₀ m) (some f) hold
    have hnear := h.near
    unfold potential at hnear ⊢
    change burden db₀ m (some f) < burden db₀ m old at hburden
    change total (burden db₀ m) (s.put target f).frames + _ = _ at htotal
    omega

/-- Control comes to a place with at most one operand more than some frame has. -/
theorem Nearing.flowInto {E : InstrumentError → Prop} {source target height : Nat} {f : Frame}
    (htarget : target < m.code.length) (hlen : f.locals.length = m.maxLocals.toNat)
    (hheight : f.stack.length ≤ height + 1)
    (herror : ∀ a b, E (failure owner m source (.heightsDiffer a b))) (s : State) :
    Meets (fun db => Nearing db₀ m n s db ∧ height < found s.frames)
      (Flow.flowInto owner m source target f s)
      (fun s db => Nearing db₀ m n s db ∧ height < found s.frames) E := by
  intro db hdb
  obtain ⟨hs, hfound⟩ := hdb
  refine flowInto_meets (P := (· = db)) (fun hnone db' hdb' => ?_) (fun old hold => ?_) db rfl
  · -- The place is new, and so there is one frame more.
    subst hdb'
    have hnew : found (s.put target f).frames = found s.frames + 1 := by
      have hold : s.frames[target]? = some none := by
        rw [Array.getElem?_eq_getElem (hs.size ▸ htarget)] at hnone ⊢
        exact congrArg some hnone
      have := total_put (fun f => if f.isSome then 1 else 0) (some f) hold
      simpa [found, State.put] using this
    have hmost := found_le s.frames
    rw [hs.size] at hmost
    refine ⟨hs.put hs.keeps htarget hlen (by omega) ?_, by omega⟩
    rw [hnone]
    exact Nat.lt_succ_of_le (weight_le_ceiling hlen (by omega))
  · refine (Frame.merged_meets db₀ old f fun _ => herror _ _).mono
      (fun db' hdb' => hdb' ▸ hs.keeps) fun g db' ⟨hkeeps, hlocals, hstack, hweight⟩ => ⟨?_, ?_⟩
    · exact fun _ => ⟨⟨hkeeps, hs.size, hs.uniform, hs.low, hs.near⟩, hfound⟩
    · intro hne
      have hlow := hs.low target old hold
      have hmore := found_le_put s target g
      refine ⟨hs.put hkeeps htarget (hlocals.trans (hs.uniform target old hold)) (by omega) ?_,
        by omega⟩
      rw [hold]
      exact hweight.resolve_left hne

/-! ## The loop -/

theorem ne_unsettled_of_fails {f : Frame} {i : Instr} {cause : FlowError} (h : f.Fails i cause) :
    cause ≠ .unsettled := by
  cases h <;> nofun

/-- Not having enough steps is one way of failing among others. -/
def HasSteps (owner : String) (m : Method) (e : InstrumentError) : Prop :=
  e ≠ failure owner m 0 .unsettled

theorem hasSteps_of_ne {index : Nat} {cause : FlowError} (h : cause ≠ .unsettled) :
    HasSteps owner m (failure owner m index cause) := by
  intro heq
  cases heq
  exact h rfl

/-- One look at an instruction spends a step. -/
theorem Nearing.visit {ranges : List HandlerRange} {index : Nat} {pending : List Nat} {i : Instr}
    {before : Frame} (hranges : Placed m ranges) (hbefore : frames[index]?.join = some before) :
    Meets (Nearing db₀ m (n + 1) ⟨frames, index :: pending⟩)
      (Flow.visit owner m ranges index i before ⟨frames, pending⟩) (Nearing db₀ m n)
      (HasSteps owner m) := by
  intro db hdb
  have hlen : before.locals.length = m.maxLocals.toNat := hdb.uniform index before hbefore
  have hlook : Meets _ (Flow.visit owner m ranges index i before ⟨frames, pending⟩) _ _ :=
    visit_meets (E := HasSteps owner m)
      (I := fun s db => Nearing db₀ m n s db ∧ before.stack.length < found s.frames)
      (fun cause hcause => hasSteps_of_ne (ne_unsettled_of_fails (Frame.fails_of_step hcause)))
      (fun l _ _ => hasSteps_of_ne nofun) (fun _ _ => hasSteps_of_ne nofun)
      (fun after hafter target f hbrings s => by
        have hafterlen := (Frame.locals_length_of_step hafter).trans hlen
        have hheight := Frame.length_of_step_le hafter
        refine Nearing.flowInto (hbrings.lt hranges) ?_ ?_ (fun _ _ => hasSteps_of_ne nofun) s
        · rcases hbrings.cases_frame with rfl | ⟨locals, type, rfl | rfl, rfl⟩
          exacts [hafterlen, hlen, hafterlen]
        · rcases hbrings.cases_frame with rfl | ⟨locals, type, -, rfl⟩
          exacts [hheight, by simp])
      ⟨frames, pending⟩
  refine hlook.mono (show ∀ db', db' = db → _ from ?_) (fun s db hs => hs.1) db rfl
  rintro _ rfl
  exact ⟨hdb.next, hdb.low index before hbefore⟩

/-- The loop starts within reach of its end. -/
theorem nearing_start {entry : Frame} (hpos : 0 < m.code.length)
    (hlen : entry.locals.length = m.maxLocals.toNat) (hstack : entry.stack = []) (db : Database) :
    Nearing db m (stepBound m db.reach) (start m entry) db := by
  have hnone (j : Nat) (f : Frame) :
      ((Array.replicate m.code.length none : Array (Option Frame))[j]?).join ≠ some f := by
    intro hf
    rw [Array.getElem?_replicate] at hf
    split at hf <;> cases hf
  have hold : (Array.replicate m.code.length none : Array (Option Frame))[0]? = some none := by
    rw [Array.getElem?_replicate, if_pos hpos]
  have hfound : found (start m entry).frames =
      found (Array.replicate m.code.length none) + 1 := by
    have := total_put (fun f => if f.isSome then 1 else 0) (some entry) hold
    simpa [found, start] using this
  refine ⟨.refl db, by simp [start], uniform_put (fun j f hf => absurd hf (hnone j f)) hlen,
    fun j f hf => ?_, ?_⟩
  · by_cases hj : 0 = j
    · subst hj
      unfold start at hf
      rw [Array.getElem?_setIfInBounds_self_of_lt (by simpa using hpos)] at hf
      cases hf
      rw [hstack, hfound]
      exact Nat.succ_pos _
    · unfold start at hf
      rw [Array.getElem?_setIfInBounds_ne hj] at hf
      exact absurd hf (hnone j f)
  · have hmost : total (burden db m) (start m entry).frames ≤
        m.code.length * (ceiling db m + 1) := by
      have hput := total_put (burden db m) (some entry) hold
      have hblank : total (burden db m) (Array.replicate m.code.length none) =
          m.code.length * (ceiling db m + 1) := by
        simp [total, burden]
      have hentry : burden db m (some entry) ≤ burden db m none := by
        refine Nat.le_succ_of_le (weight_le_ceiling hlen ?_)
        rw [hstack]
        exact Nat.zero_le _
      unfold start
      dsimp only
      omega
    unfold potential stepBound
    have hceiling : ceiling db m + 1 ≤
        (m.maxLocals.toNat + (m.code.length + 1)) * (db.reach + 4) + 2 := by
      unfold ceiling
      refine Nat.add_le_add (Nat.mul_le_mul (by omega) (by omega)) (by omega)
    calc (start m entry).pending.length + total (burden db m) (start m entry).frames
        ≤ 1 + m.code.length * (ceiling db m + 1) := Nat.add_le_add_left hmost 1
      _ ≤ 1 + m.code.length *
          ((m.maxLocals.toNat + (m.code.length + 1)) * (db.reach + 4) + 2) :=
        Nat.add_le_add_left (Nat.mul_le_mul_left _ hceiling) 1
      _ ≤ (m.code.length + 1) *
          ((m.maxLocals.toNat + (m.code.length + 1)) * (db.reach + 4) + 2) := by
        rw [Nat.succ_mul]
        omega

/-- **The analysis comes to an end.** Whatever the method and whatever is known of the classes, the
analysis is done before its steps are spent. -/
theorem analyze_settles (owner : String) (m : Method) (db : Database) :
    ((analyze owner m).run.run db).1 ≠ .error (failure owner m 0 .unsettled) := by
  have hmeets : Meets (· = db) (analyze owner m) (fun _ _ => True) (HasSteps owner m) := by
    refine analyze_meets (T := fun f => f.locals.length = m.maxLocals.toNat ∧ f.stack = [])
      (fun _ _ _ _ _ => hasSteps_of_ne nofun) (fun _ _ _ => trivial)
      (entryFrame_meets (fun _ _ => nofun)
        fun _ _ _ => ⟨hasSteps_of_ne nofun, hasSteps_of_ne nofun⟩) ?_
    rintro ranges entry db rfl hranges hpos ⟨hlen, hstack⟩
    refine (settle_meets (I := Nearing db m) (Q := fun _ _ => True) ?_ ?_ ?_ ?_ _ _).mono
      (fun _ heq => heq ▸ nearing_start hpos hlen hstack db) fun _ _ => id
    · exact fun _ _ _ _ => trivial
    · intro frames index pending db' h
      -- There is an instruction that waits, so the potential is not yet zero.
      have hnear := h.near
      rw [potential_cons] at hnear
      omega
    · exact fun n frames index pending db' _ => Nearing.next
    · exact fun n frames index pending i before _ hbefore =>
        Nearing.visit hranges.placed hbefore
  have := hmeets db rfl
  intro heq
  rcases hrun : (analyze owner m).run.run db with ⟨r, db'⟩
  rw [hrun] at this heq
  rw [show r = _ from heq] at this
  exact this rfl

end Flow

end Resumable
