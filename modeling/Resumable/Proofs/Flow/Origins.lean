import Resumable.Proofs.Flow.Course
import Resumable.Proofs.Flow.Invariant

/-!
# Where duplicates come from

The analysis finds a frame only where control comes to (`reached_of_analyze`), and once the frames
have settled, every value in them has come along some path. So a duplicate of an object under
construction, wherever it is found, names an instruction at which the analysis has found the original
on top of the operand stack (`traced_of_analyze`).
-/

namespace Resumable

/-! ## Values below others -/

/-- Only an object under construction is known no less well than one. -/
theorem FlowValue.eq_of_le_of_isFresh {v w : FlowValue} (h : v ≤ w) (hw : w.isFresh = true) :
    v = w := by
  cases h with
  | refl => rfl
  | unknown | null | reference => cases hw

/-- What is known less well has the property if whatever is not under construction has it. -/
theorem Frame.Each.of_le {P : FlowValue → Prop} {f g : Frame} (hf : f.Each P) (h : f ≤ g)
    (hP : ∀ v : FlowValue, v.isFresh = false → P v) : g.Each P := by
  have hall {vs ws : List FlowValue} (hle : List.Forall₂ (· ≤ ·) vs ws) (hvs : ∀ v ∈ vs, P v) :
      ∀ w ∈ ws, P w := by
    intro w hw
    obtain ⟨v, hv, hvw⟩ := exists_left_of_mem hle hw
    cases hfresh : w.isFresh with
    | false => exact hP w hfresh
    | true => exact FlowValue.eq_of_le_of_isFresh hvw hfresh ▸ hvs v hv
  exact ⟨hall h.locals hf.1, hall h.stack hf.2⟩

namespace Flow

variable {owner : String} {m : Method} {frames : Array (Option Frame)} {i j : Nat} {f : Frame}

/-! ## Places that control comes to -/

/-- Control comes to the place from the entry of the method. -/
inductive Reached (m : Method) : Nat → Prop where
  | entry : Reached m 0
  | jump {i j : Nat} {x : Instr} {l : Label} (h : Reached m i) (hx : m.code[i]? = some x)
    (hl : l ∈ x.branchTargets) (hj : labelPosition? m.code l = some j) : Reached m j
  | fall {i : Nat} {x : Instr} (h : Reached m i) (hx : m.code[i]? = some x)
    (hfalls : x.fallsThrough = true) : Reached m (i + 1)
  | caught {i j : Nat} {x : Instr} {handler : Handler} (h : Reached m i)
    (hx : m.code[i]? = some x) (hmem : handler ∈ m.handlers)
    (hcovers : Covers m.code (handler.start, handler.stop) i)
    (hj : labelPosition? m.code handler.target = some j) : Reached m j

/-- The handlers that cover an instruction are reached from it. -/
theorem Leads.of_covers {x : Instr} {before after : Frame} {handler : Handler}
    (h : Leads m frames i x before after) (hmem : handler ∈ m.handlers)
    (hcovers : Covers m.code (handler.start, handler.stop) i)
    (hj : labelPosition? m.code handler.target = some j) :
    ∃ type, Into frames j ⟨before.locals, [.reference type]⟩ := by
  obtain ⟨start, stop, hstart, hstop, hlow, hhigh⟩ := hcovers
  refine h.caught handler hmem ⟨start, stop, j, handler.catchType⟩ ?_ ?_
  · simp [Handler.load?, hstart, hstop, hj]
  · simp [LoadedHandler.covers, hlow, hhigh]

/-- What control brings comes to a place that is reached. -/
theorem Brings.reached {ranges : List HandlerRange} {x : Instr} {before after g : Frame}
    (h : Brings m ranges i x before after j g) (hranges : Placed m ranges) (hi : Reached m i)
    (hx : m.code[i]? = some x) : Reached m j := by
  cases h with
  | jump hl hj => exact hi.jump hx hl hj
  | fall hfalls => exact hi.fall hx hfalls
  | @caught r _ hr hcovers =>
    obtain ⟨handler, hmem, hstart, hstop, htarget⟩ := exists_left_of_mem hranges hr
    refine hi.caught hx hmem ⟨r.start, r.stop, hstart, hstop, ?_⟩ htarget
    simpa [HandlerRange.covers] using hcovers

/-- Every frame has been found at a place that is reached. -/
def Explored (m : Method) (frames : Array (Option Frame)) : Prop :=
  ∀ (j : Nat) (f : Frame), frames[j]?.join = some f → Reached m j

theorem Explored.put {s : State} (h : Explored m s.frames) (hj : Reached m j) (f : Frame) :
    Explored m (s.put j f).frames := by
  intro k g hg
  rcases cases_of_put hg with ⟨rfl, -⟩ | ⟨-, hg⟩
  · exact hj
  · exact h k g hg

theorem reached_of_analyze (h : Gives (analyze owner m) frames) : Explored m frames := by
  have hmeets : Meets (fun _ => True) (analyze owner m) (fun frames _ => Explored m frames)
      (fun _ => True) := by
    refine analyze_meets (T := fun _ => True) (fun _ _ _ _ _ => trivial)
      (fun _ _ _ => nofun) ?_ fun ranges entry db _ hranges _ _ => ?_
    · exact (entryFrame_meets (fun _ _ => trivial) fun _ _ _ => ⟨trivial, trivial⟩).mono
        (fun _ => id) fun _ _ _ => ⟨trivial, trivial⟩
    · refine (settle_meets (I := fun _ s _ => Explored m s.frames) ?_ ?_ ?_ ?_ _ _).mono
        (fun _ _ => ?_) fun _ _ => id
      · exact fun _ _ _ h => h
      · exact fun _ _ _ _ _ => trivial
      · exact fun _ _ _ _ _ _ h => h
      · intro n found index pending x before hx hbefore db hs
        refine visit_meets (I := fun s _ => Explored m s.frames) (fun _ _ => trivial)
          (fun _ _ _ => trivial) (fun _ _ => trivial) (fun after _ target g hbrings s => ?_)
          ⟨found, pending⟩ db hs
        have htarget := hbrings.reached hranges.placed (hs index before hbefore) hx
        refine flowInto_meets (fun _ _ h => h.put htarget g) fun old _ => ?_
        intro db h
        rcases ((old.merged g).run.run db) with ⟨_ | _, _⟩
        exacts [trivial, ⟨fun _ => h, fun _ => h.put htarget _⟩]
      · have hblank : Explored m (Array.replicate m.code.length none) := by
          intro j f hf
          rw [Array.getElem?_replicate] at hf
          split at hf <;> cases hf
        exact Explored.put (s := ⟨_, []⟩) hblank .entry entry
  obtain ⟨_, h⟩ := hmeets.of_gives h
  exact h

/-! ## Duplicates -/

/-- A duplicate has its original on top of the operand stack in front of the instruction that made
it. -/
def Traced (frames : Array (Option Frame)) : FlowValue → Prop
  | .fresh type alloc insn true => ∃ f first rest, frames[insn]?.join = some f ∧
      f.stack = .fresh type alloc first false :: rest
  | _ => True

theorem traced_of_not_fresh {v : FlowValue} (h : v.isFresh = false) : Traced frames v := by
  cases v <;> trivial

/-- One step keeps the origin of what there is, and says where its own duplicate comes from. -/
theorem traced_of_step {x : Instr} {g : Frame} (hf : frames[i]?.join = some f)
    (htraced : f.Each (Traced frames)) (h : f.step i x = .ok g) : g.Each (Traced frames) := by
  by_cases hx : x = .simple .dup
  · subst hx
    change f.duplicate i = .ok g at h
    unfold Frame.duplicate at h
    obtain ⟨v, hpeek, h⟩ := bind_eq_ok.1 h
    obtain ⟨rest, hstack⟩ : ∃ rest, f.stack = v :: rest := by
      unfold Frame.peek at hpeek
      split at hpeek <;> cases hpeek
      exact ⟨_, ‹_›⟩
    split at h
    · cases h
      exact htraced.push ⟨f, _, rest, hf, hstack⟩
    · cases h
      exact htraced.push (htraced.2 v (hstack ▸ List.mem_cons_self))
  · exact htraced.step (fun _ => traced_of_not_fresh) (fun _ _ => trivial) (absurd · hx) h

/-- **Every duplicate in the frames that have been found has its original in front of the instruction
that made it.** -/
theorem traced_of_analyze (h : Gives (analyze owner m) frames) (hf : frames[j]?.join = some f) :
    f.Each (Traced frames) := by
  have hanalyzed := analyzed_of_analyze h
  have hinto {j : Nat} {g : Frame} (h : Into frames j g) (hg : g.Each (Traced frames)) :
      ∃ f, frames[j]?.join = some f ∧ f.Each (Traced frames) := by
    obtain ⟨f, hf, hle⟩ := h
    exact ⟨f, hf, hg.of_le hle fun _ => traced_of_not_fresh⟩
  have hcode : m.code ≠ [] := by
    intro hnil
    have hsize := hanalyzed.size
    rw [hnil] at hsize
    rw [Array.eq_empty_of_size_eq_zero hsize] at hf
    cases hf
  -- Along a path to the place, from frame to frame.
  have hpath {j : Nat} (hj : Reached m j) :
      ∃ f, frames[j]?.join = some f ∧ f.Each (Traced frames) := by
    induction hj with
    | entry =>
      obtain ⟨type, -, -, hentry⟩ := hanalyzed.entry hcode
      refine hinto hentry ⟨fun v hv => traced_of_not_fresh ?_, nofun⟩
      have hargument (v : FlowValue) (hv : v ∈ arguments owner m type) : v.isFresh = false := by
        rcases List.mem_append.1 hv with hv | hv
        · split at hv
          · cases hv
          · rw [List.mem_singleton.1 hv]
            rfl
        · obtain ⟨type, -, rfl⟩ := List.mem_map.1 hv
          exact FlowValue.isFresh_ofFieldType type
      rcases List.mem_append.1 hv with hv | hv
      · exact hargument v hv
      · rw [List.eq_of_mem_replicate hv]
        rfl
    | jump h hx hl hj ih =>
      obtain ⟨f, hf, htraced⟩ := ih
      obtain ⟨after, hafter, hleads⟩ := hanalyzed.settled _ _ f hx hf
      obtain ⟨j', hj', hinto'⟩ := hleads.jumps _ hl
      cases hj.symm.trans hj'
      exact hinto hinto' (traced_of_step hf htraced hafter)
    | fall h hx hfalls ih =>
      obtain ⟨f, hf, htraced⟩ := ih
      obtain ⟨after, hafter, hleads⟩ := hanalyzed.settled _ _ f hx hf
      exact hinto (hleads.falls hfalls) (traced_of_step hf htraced hafter)
    | caught h hx hmem hcovers hj ih =>
      obtain ⟨f, hf, htraced⟩ := ih
      obtain ⟨after, -, hleads⟩ := hanalyzed.settled _ _ f hx hf
      obtain ⟨type, hinto'⟩ := hleads.of_covers hmem hcovers hj
      refine hinto hinto' ⟨htraced.1, fun v hv => ?_⟩
      rw [List.mem_singleton.1 hv]
      trivial
  obtain ⟨g, hg, htraced⟩ := hpath (reached_of_analyze h j f hf)
  cases hf.symm.trans hg
  exact htraced

end Flow

end Resumable
