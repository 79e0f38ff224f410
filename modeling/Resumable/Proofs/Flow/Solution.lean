import Resumable.Proofs.Flow.Joins
import Resumable.Proofs.Flow.Origins

/-!
# An analysis solves the equations of its flow

What an analysis has found is a solution of the equations that the flow of control poses: every
instruction runs on its frame, and what it leaves lies below the frames of all places where control
goes from there, in the order in which merging gives the least upper bound (`Solved`).

The loop keeps one invariant, that an instruction which does not wait to be looked at is solved
(`Solving`). A frame that is put in its place lies above the one before, so what was below that place
still is (`Above.put`), and the instruction there waits. One look at an instruction takes it off those
that wait; in between it alone may be unsolved (`Looking`).

With the places to which frames have been brought (`Explored`), the frames of a solution are found
at exactly the places that control comes to. The main result is `analysis_solves`.
-/

namespace Resumable

namespace Flow

variable {db₀ db db' : Database} {owner : String} {m : Method} {ranges : List HandlerRange}
  {frames : Array (Option Frame)} {s : State} {entry before after f g : Frame} {index target j : Nat}
  {i : Instr} {pending : List Nat}

/-! ## Solutions -/

/-- The frame in front of the instruction at `target` lies above `f`. -/
def Above (db : Database) (frames : Array (Option Frame)) (target : Nat) (f : Frame) : Prop :=
  ∃ g, frames[target]?.join = some g ∧ f.Under db g

/-- The instruction at `index` runs on its frame, if it has one, and all that it brings lies below the
frames of the places where control goes. -/
def Solved (db : Database) (m : Method) (ranges : List HandlerRange)
    (frames : Array (Option Frame)) (index : Nat) : Prop :=
  ∀ i before, m.code[index]? = some i → frames[index]?.join = some before →
    ∃ after brought, before.step index i = .ok after ∧
      Delivery m ranges index i before after brought ∧ ∀ b ∈ brought, Above db frames b.1 b.2

/-- A frame that has gone up still lies above all that it lay above. -/
theorem Above.put (hplain : db.Plain)
    (hup : ∀ old, s.frames[target]?.join = some old → old.Under db g)
    (h : Above db s.frames j f) : Above db (s.put target g).frames j f := by
  obtain ⟨old, hold, hunder⟩ := h
  by_cases hj : target = j
  · subst hj
    exact ⟨g, State.frames_put_self (lt_size_of_join hold) g, hunder.trans hplain (hup old hold)⟩
  · exact ⟨old, by rw [State.frames_put_ne s g hj]; exact hold, hunder⟩

/-! ## What the loop keeps -/

/-- An instruction is solved, or waits to be looked at, or is among those that are left open. -/
structure Solving (db₀ : Database) (m : Method) (ranges : List HandlerRange) (entry : Frame)
    (isOpen : Nat → Prop) (s : State) (db : Database) : Prop where
  keeps : db₀.Keeps db
  size : s.frames.size = m.code.length
  uniform : Uniform m.maxLocals.toNat s.frames
  entry : Above db₀ s.frames 0 entry
  solved : ∀ j, j ∉ s.pending → ¬isOpen j → Solved db₀ m ranges s.frames j

/-- Only the instruction whose frame has gone up could be unsolved by that, and it waits. -/
theorem Solving.put {isOpen : Nat → Prop} (hplain : db₀.Plain)
    (h : Solving db₀ m ranges entry isOpen s db) (hkeeps : db₀.Keeps db')
    (hlen : g.locals.length = m.maxLocals.toNat)
    (hup : ∀ old, s.frames[target]?.join = some old → old.Under db₀ g) :
    Solving db₀ m ranges entry isOpen (s.put target g) db' where
  keeps := hkeeps
  size := Array.size_setIfInBounds.trans h.size
  uniform := uniform_put h.uniform hlen
  entry := h.entry.put hplain hup
  solved := by
    intro j hj hopen i before hi hbefore
    have hne : target ≠ j := fun heq => hj (heq ▸ State.mem_pending_put s target g)
    rw [State.frames_put_ne s g hne] at hbefore
    have hj' : j ∉ s.pending := fun hmem => hj (State.mem_pending_put_of_mem hmem target g)
    obtain ⟨after, brought, hafter, hdelivery, hall⟩ := h.solved j hj' hopen i before hi hbefore
    exact ⟨after, brought, hafter, hdelivery, fun b hb => (hall b hb).put hplain hup⟩

/-- While the instruction at `index` is looked at, it alone is open. Its frame stands as it is unless
the instruction waits again, and what has been brought so far lies below the frames. -/
structure Looking (db₀ : Database) (m : Method) (ranges : List HandlerRange) (entry : Frame)
    (index : Nat) (before : Frame) (brought : List (Nat × Frame)) (s : State) (db : Database) :
    Prop extends Solving db₀ m ranges entry (· = index) s db where
  unchanged : index ∉ s.pending → s.frames[index]?.join = some before
  arrived : ∀ b ∈ brought, Above db₀ s.frames b.1 b.2

theorem Looking.put {brought : List (Nat × Frame)} (hplain : db₀.Plain)
    (h : Looking db₀ m ranges entry index before brought s db) (hkeeps : db₀.Keeps db')
    (htarget : target < m.code.length) (hlen : g.locals.length = m.maxLocals.toNat)
    (hup : ∀ old, s.frames[target]?.join = some old → old.Under db₀ g) (hfg : f.Under db₀ g) :
    Looking db₀ m ranges entry index before (brought ++ [(target, f)]) (s.put target g) db' where
  toSolving := h.toSolving.put hplain hkeeps hlen hup
  unchanged := by
    intro hindex
    have hne : target ≠ index := fun heq => hindex (heq ▸ State.mem_pending_put s target g)
    rw [State.frames_put_ne s g hne]
    exact h.unchanged fun hmem => hindex (State.mem_pending_put_of_mem hmem target g)
  arrived := by
    intro b hb
    rcases List.mem_append.1 hb with hb | hb
    · exact (h.arrived b hb).put hplain hup
    · rw [List.mem_singleton.1 hb]
      exact ⟨g, State.frames_put_self (h.size ▸ htarget) g, hfg⟩

/-- Control comes to one place more. -/
theorem Looking.flowInto {brought : List (Nat × Frame)} (hplain : db₀.Plain)
    (htarget : target < m.code.length) (hlen : f.locals.length = m.maxLocals.toNat) (s : State) :
    Meets (Looking db₀ m ranges entry index before brought s)
      (Flow.flowInto owner m index target f s)
      (Looking db₀ m ranges entry index before (brought ++ [(target, f)])) (fun _ => True) := by
  intro db h
  refine flowInto_meets (P := (· = db)) ?_ ?_ db rfl
  · rintro hnone db' rfl
    exact h.put hplain h.keeps htarget hlen (fun old hold => nomatch hnone.symm.trans hold)
      (.refl db₀ f)
  · rintro old hold db' rfl
    have holdlen := h.uniform target old hold
    by_cases hstack : old.stack.length = f.stack.length
    · have hshape : old.SameShape f := ⟨holdlen.trans hlen.symm, hstack⟩
      obtain ⟨db'', hkeeps, hrun⟩ := Frame.merged_run_join hplain hshape h.keeps
      obtain ⟨hup, hfg⟩ := (Frame.under_join_iff hplain hshape).1 (.refl db₀ (old.join db₀ f))
      rw [hrun]
      refine ⟨fun heq => ?_, fun _ => ?_⟩
      · -- What has come already lay below the frame.
        refine ⟨⟨hkeeps, h.size, h.uniform, h.entry, h.solved⟩, h.unchanged, fun b hb => ?_⟩
        rcases List.mem_append.1 hb with hb | hb
        · exact h.arrived b hb
        · rw [List.mem_singleton.1 hb]
          exact ⟨old, hold, heq ▸ hfg⟩
      · refine h.put hplain hkeeps htarget (hup.sameShape.1.symm.trans holdlen) ?_ hfg
        rintro old' hold'
        cases hold.symm.trans hold'
        exact hup
    · rw [Frame.merged_of_ne hstack]
      trivial

theorem Looking.flowIntoAll {brought : List (Nat × Frame)} (hplain : db₀.Plain)
    {more : List (Nat × Frame)}
    (hmore : ∀ b ∈ more, b.1 < m.code.length ∧ b.2.locals.length = m.maxLocals.toNat) (s : State) :
    Meets (Looking db₀ m ranges entry index before brought s)
      (Flow.flowIntoAll owner m index more s)
      (Looking db₀ m ranges entry index before (brought ++ more)) (fun _ => True) := by
  induction more generalizing brought s with
  | nil => exact Meets.pure fun db h => by rwa [List.append_nil]
  | cons b more ih =>
    obtain ⟨htarget, hlen⟩ := hmore b List.mem_cons_self
    refine (Looking.flowInto hplain htarget hlen s).bind fun s' => ?_
    have hrest : Meets (Looking db₀ m ranges entry index before (brought ++ [b]) s') _ _ _ :=
      ih (fun b' hb' => hmore b' (List.mem_cons_of_mem _ hb')) s'
    rwa [List.append_assoc, List.singleton_append] at hrest

/-- One look at an instruction solves it, if it does not wait again. -/
theorem Solving.visit (hplain : db₀.Plain) (hranges : Placed m ranges)
    (hi : m.code[index]? = some i) (hbefore : frames[index]?.join = some before) :
    Meets (Solving db₀ m ranges entry (fun _ => False) ⟨frames, index :: pending⟩)
      (Flow.visit owner m ranges index i before ⟨frames, pending⟩)
      (Solving db₀ m ranges entry (fun _ => False)) (fun _ => True) := by
  intro db h
  have hlen := h.uniform index before hbefore
  refine visit_meets_of_delivery (P := Looking db₀ m ranges entry index before [] ⟨frames, pending⟩)
    (fun _ _ => trivial) (fun _ _ _ => trivial) (fun _ _ => trivial) (fun after brought _ _ => ?_)
    (fun after brought hafter hdelivery => ?_) db ?_
  · intro db' _
    split <;> trivial
  · have hafterlen := (Frame.locals_length_of_step hafter).trans hlen
    refine (Looking.flowIntoAll hplain (fun b hb => ?_) _).mono (fun _ => id)
      fun s' db' h' => ⟨h'.keeps, h'.size, h'.uniform, h'.entry, fun j hj _ => ?_⟩
    · have hbrings := hdelivery.mem_iff.1 hb
      refine ⟨hbrings.lt hranges, ?_⟩
      rcases hbrings.cases_frame with heq | ⟨locals, type, rfl | rfl, heq⟩
      · rw [heq]
        exact hafterlen
      · rw [heq]
        exact hlen
      · rw [heq]
        exact hafterlen
    · by_cases hindex : j = index
      · -- It does not wait again, so its own frame is still the one that it was run on.
        subst hindex
        intro i' before' hi' hbefore'
        cases hi.symm.trans hi'
        cases (h'.unchanged hj).symm.trans hbefore'
        exact ⟨after, brought, hafter, hdelivery, h'.arrived⟩
      · exact h'.solved j hj hindex
  · refine ⟨⟨h.keeps, h.size, h.uniform, h.entry, fun j hj hindex => ?_⟩, fun _ => hbefore, nofun⟩
    exact h.solved j (by simpa using ⟨hindex, hj⟩) id

/-- An instruction without a frame need not be looked at. -/
theorem Solving.skip
    (hnone : ∀ i before, m.code[index]? = some i → frames[index]?.join ≠ some before)
    (h : Solving db₀ m ranges entry (fun _ => False) ⟨frames, index :: pending⟩ db) :
    Solving db₀ m ranges entry (fun _ => False) ⟨frames, pending⟩ db := by
  refine ⟨h.keeps, h.size, h.uniform, h.entry, fun j hj _ => ?_⟩
  by_cases hindex : j = index
  · subst hindex
    exact fun i before hi hbefore => absurd hbefore (hnone i before hi)
  · exact h.solved j (by simpa using ⟨hindex, hj⟩) id

/-! ## The result -/

/-- The loop starts with the frame on entry, in front of an instruction that waits. -/
theorem solving_start (hpos : 0 < m.code.length) (hlen : entry.locals.length = m.maxLocals.toNat)
    (db : Database) : Solving db m ranges entry (fun _ => False) (start m entry) db := by
  have hnone (j : Nat) (f : Frame) :
      ((Array.replicate m.code.length none : Array (Option Frame))[j]?).join ≠ some f := by
    intro hf
    rw [Array.getElem?_replicate] at hf
    split at hf <;> cases hf
  refine ⟨.refl db, by simp [start], uniform_put (fun j f hf => absurd hf (hnone j f)) hlen,
    ⟨entry, ?_, .refl db entry⟩, fun j hj _ i before _ hbefore => ?_⟩
  · unfold start
    rw [Array.getElem?_setIfInBounds_self_of_lt (by simpa using hpos)]
    rfl
  · have hne : 0 ≠ j := fun heq => hj (heq ▸ List.mem_cons_self)
    unfold start at hbefore
    rw [Array.getElem?_setIfInBounds_ne hne] at hbefore
    exact absurd hbefore (hnone j before)

/-- What an analysis that starts from `db` has found. -/
structure Solution (db : Database) (owner : String) (m : Method) (frames : Array (Option Frame))
    (db' : Database) : Prop where
  keeps : db.Keeps db'
  size : frames.size = m.code.length
  entry : ∃ entry, ((entryFrame owner m).run.run db).1 = .ok entry ∧ Above db frames 0 entry
  ranged : ∃ ranges, Ranged m ranges ∧ ∀ j, Solved db m ranges frames j

theorem solution_of_analyze (hplain : db.Plain) (hcode : m.code ≠ [])
    (h : (analyze owner m).run.run db = (.ok frames, db')) : Solution db owner m frames db' := by
  have hentry : Meets (· = db) (entryFrame owner m) (fun f db' => db' = db ∧
      ((entryFrame owner m).run.run db).1 = .ok f ∧ f.locals.length = m.maxLocals.toNat)
      (fun _ => True) := by
    rintro db' rfl
    have hanyhow : Meets (· = db') (entryFrame owner m) _ fun _ => True :=
      entryFrame_meets (fun _ _ => trivial) fun _ _ _ => ⟨trivial, trivial⟩
    have hmeets := hanyhow db' rfl
    rcases hrun : (entryFrame owner m).run.run db' with ⟨e | f, db''⟩
    all_goals rw [hrun] at hmeets
    · trivial
    · exact ⟨hmeets.1, rfl, hmeets.2.1⟩
  have hmeets : Meets (· = db) (analyze owner m) (Solution db owner m) (fun _ => True) := by
    refine analyze_meets (fun _ _ _ _ _ => trivial) (fun hnil => absurd hnil hcode) hentry
      fun ranges entry db' hdb' hranged hpos ⟨hentry, hlen⟩ => ?_
    subst hdb'
    refine (settle_meets (I := fun _ => Solving db' m ranges entry fun _ => False)
      ?_ ?_ ?_ ?_ _ _).mono (fun _ heq => heq ▸ solving_start hpos hlen db') fun _ _ => id
    · intro n frames db'' h
      exact ⟨h.keeps, h.size, ⟨entry, hentry, h.entry⟩, ranges, hranged,
        fun j => h.solved j List.not_mem_nil id⟩
    · exact fun _ _ _ _ _ => trivial
    · exact fun n frames index pending db'' => Solving.skip
    · exact fun _ frames index pending i before hi hbefore =>
        Solving.visit hplain hranged.placed hi hbefore
  have := hmeets db rfl
  rw [h] at this
  exact this

/-- Control comes from one place to the next along a solution. -/
theorem Solution.exists_frame_of_reached (h : Solution db owner m frames db') (hj : Reached m j) :
    ∃ f, frames[j]?.join = some f := by
  obtain ⟨ranges, hranged, hsolved⟩ := h.ranged
  -- A place with a frame has one for each place to which it brings something.
  have hnext {index target : Nat} {i : Instr} {before : Frame} (hi : m.code[index]? = some i)
      (hbefore : frames[index]?.join = some before)
      (hbrings : ∀ after, (i.fallsThrough = true → index + 1 < m.code.length) →
        ∃ f, Brings m ranges index i before after target f) :
      ∃ f, frames[target]?.join = some f := by
    obtain ⟨after, brought, -, hdelivery, hall⟩ := hsolved index i before hi hbefore
    obtain ⟨f, hf⟩ := hbrings after hdelivery.inside
    obtain ⟨g, hg, -⟩ := hall _ (hdelivery.mem_iff.2 hf)
    exact ⟨g, hg⟩
  induction hj with
  | entry =>
    obtain ⟨entry, -, g, hg, -⟩ := h.entry
    exact ⟨g, hg⟩
  | jump _ hx hl hj ih =>
    obtain ⟨before, hbefore⟩ := ih
    exact hnext hx hbefore fun after _ => ⟨after, .jump hl hj⟩
  | fall _ hx hfalls ih =>
    obtain ⟨before, hbefore⟩ := ih
    exact hnext hx hbefore fun after hinside => ⟨after, .fall hfalls (hinside hfalls)⟩
  | caught _ hx hmem hcovers hj ih =>
    obtain ⟨before, hbefore⟩ := ih
    obtain ⟨r, hr, hplaced, htype⟩ := exists_right_of_mem hranged hmem
    obtain ⟨start, stop, hstart, hstop, hlow, hhigh⟩ := hcovers
    cases hplaced.1.symm.trans hstart
    cases hplaced.2.1.symm.trans hstop
    cases hplaced.2.2.symm.trans hj
    exact hnext hx hbefore fun after _ => ⟨_, .caught hr
      (by simp [HandlerRange.covers, hlow, hhigh]) (.inl rfl)⟩

/-- **An analysis ends, and what it finds solves the equations of its flow.** Where no class has an
array type as its ancestor, an analysis that succeeds has found frames for the instructions that
control comes to, and for no others. The frame on entry lies below the first of them. Every
instruction runs on its frame; what it leaves lies below the frames of the places to which it jumps
and of the one behind it, if control goes on there; and below the frame of each handler that covers it
lies the exception alone on the operand stack, with the locals from before as well as with those from
behind the instruction. -/
theorem analysis_solves (owner : String) (m : Method) (db : Database) (hplain : db.Plain) :
    ((analyze owner m).run.run db).1 ≠ .error (failure owner m 0 .unsettled) ∧
    ∀ frames db', (analyze owner m).run.run db = (.ok frames, db') → m.code ≠ [] →
      db.Keeps db' ∧ frames.size = m.code.length ∧
      (∃ entry first, ((entryFrame owner m).run.run db).1 = .ok entry ∧
        frames[0]? = some (some first) ∧ entry.Below db first) ∧
      (∀ index, (∃ f, frames[index]? = some (some f)) ↔ Reached m index) ∧
      ∀ index i before, m.code[index]? = some i → frames[index]? = some (some before) →
        ∃ after, before.step index i = .ok after ∧
          (∀ l ∈ i.branchTargets, ∃ target f, labelPosition? m.code l = some target ∧
            frames[target]? = some (some f) ∧ after.Below db f) ∧
          (i.fallsThrough = true → ∃ f, frames[index + 1]? = some (some f) ∧ after.Below db f) ∧
          ∀ h ∈ m.handlers, Covers m.code (h.start, h.stop) index → ∃ target f,
            labelPosition? m.code h.target = some target ∧ frames[target]? = some (some f) ∧
            ∀ locals ∈ [before.locals, after.locals],
              Frame.Below db ⟨locals, [.reference (h.catchType.getD Names.throwable)]⟩ f := by
  refine ⟨analyze_settles owner m db, fun frames db' hrun hcode => ?_⟩
  have hsolution := solution_of_analyze hplain hcode hrun
  obtain ⟨ranges, hranged, hsolved⟩ := hsolution.ranged
  refine ⟨hsolution.keeps, hsolution.size, ?_, fun index => ⟨?_, fun h => ?_⟩,
    fun index i before hi hbefore => ?_⟩
  · obtain ⟨entry, hentry, first, hfirst, hunder⟩ := hsolution.entry
    exact ⟨entry, first, hentry, Option.join_eq_some_iff.1 hfirst, hunder.below hplain⟩
  · rintro ⟨f, hf⟩
    exact reached_of_analyze ⟨db, db', hrun⟩ index f (Option.join_eq_some_iff.2 hf)
  · obtain ⟨f, hf⟩ := hsolution.exists_frame_of_reached h
    exact ⟨f, Option.join_eq_some_iff.1 hf⟩
  · obtain ⟨after, brought, hafter, hdelivery, hall⟩ :=
      hsolved index i before hi (Option.join_eq_some_iff.2 hbefore)
    have hbelow {target : Nat} {f : Frame} (h : Brings m ranges index i before after target f) :
        ∃ g, frames[target]? = some (some g) ∧ f.Below db g := by
      obtain ⟨g, hg, hunder⟩ := hall _ (hdelivery.mem_iff.2 h)
      exact ⟨g, Option.join_eq_some_iff.1 hg, hunder.below hplain⟩
    refine ⟨after, hafter, fun l hl => ?_, fun hfalls => ?_, fun h hmem hcovers => ?_⟩
    · obtain ⟨target, htarget⟩ := hdelivery.targets l hl
      obtain ⟨g, hg, hunder⟩ := hbelow (.jump hl htarget)
      exact ⟨target, g, htarget, hg, hunder⟩
    · exact hbelow (.fall hfalls (hdelivery.inside hfalls))
    · obtain ⟨r, hr, ⟨hstart, hstop, htarget⟩, htype⟩ := exists_right_of_mem hranged hmem
      obtain ⟨start, stop, hstart', hstop', hlow, hhigh⟩ := hcovers
      cases hstart.symm.trans hstart'
      cases hstop.symm.trans hstop'
      have hcaught (locals : List FlowValue)
          (hlocals : locals = before.locals ∨ locals = after.locals) :
          ∃ g, frames[r.target]? = some (some g) ∧
            Frame.Below db ⟨locals, [.reference (h.catchType.getD Names.throwable)]⟩ g := by
        rw [← htype]
        exact hbelow (.caught hr (by simp [HandlerRange.covers, hlow, hhigh]) hlocals)
      obtain ⟨g, hg, -⟩ := hcaught before.locals (.inl rfl)
      refine ⟨r.target, g, htarget, hg, fun locals hlocals => ?_⟩
      obtain ⟨g', hg', hunder⟩ := hcaught locals (by simpa using hlocals)
      cases hg.symm.trans hg'
      exact hunder

/-- Turns a circle into a square as often as it is told to. Control never comes to its idle
instruction. -/
def turning : Method :=
  { name := "turn", desc := "(Lapp/Circle;Lapp/Square;I)V", access := .static, maxLocals := 3
    code :=
      [.label ⟨0⟩, .local .iload 2, .jump .ifeq ⟨1⟩, .local .aload 1, .local .astore 0,
        .jump .goto ⟨0⟩, .simple .nop, .label ⟨1⟩, .simple .ret, .label ⟨2⟩, .simple .athrow]
    handlers := [{ start := ⟨0⟩, stop := ⟨1⟩, target := ⟨2⟩ }] }

/-- What is known in front of its instructions, with these operands. -/
def turningFrame (stack : List FlowValue) : Option Frame :=
  some ⟨[.reference "app/Shape", .reference "app/Square", .int], stack⟩

def turningFrames : Array (Option Frame) :=
  #[turningFrame [], turningFrame [], turningFrame [.int], turningFrame [],
    turningFrame [.reference "app/Square"],
    some ⟨[.reference "app/Square", .reference "app/Square", .int], []⟩, none, turningFrame [],
    turningFrame [], turningFrame [.reference Names.throwable],
    turningFrame [.reference Names.throwable]]

theorem analysis_solves_turning : family.Plain ∧ turning.code ≠ [] ∧
    ((analyze "app/Shape" turning).run.run family).1 = .ok turningFrames ∧
    Reached turning 10 ∧ ¬Reached turning 6 ∧
    Frame.Below family ⟨[.reference "app/Square", .reference "app/Square", .int], []⟩
      ⟨[.reference "app/Shape", .reference "app/Square", .int], []⟩ := by
  have hrun : ((analyze "app/Shape" turning).run.run family).1 = .ok turningFrames := by
    decide +kernel
  obtain ⟨-, -, -, hreached, hsolved⟩ := (analysis_solves "app/Shape" turning family
    plain_family).2 turningFrames _ (Prod.ext hrun rfl) nofun
  obtain ⟨after, hafter, hjumps, -⟩ := hsolved 5 (.jump .goto ⟨0⟩) _ rfl rfl
  cases hafter
  obtain ⟨target, f, htarget, hf, hbelow⟩ := hjumps ⟨0⟩ List.mem_cons_self
  cases htarget
  cases hf
  have hidle : ¬Reached turning 6 := by
    intro h
    obtain ⟨f, hf⟩ := (hreached 6).2 h
    cases hf
  exact ⟨plain_family, nofun, hrun, (hreached 10).1 ⟨_, rfl⟩, hidle, hbelow⟩

end Flow

end Resumable
