import Resumable.Proofs.ClassDef.Verify
import Resumable.Proofs.Flow.Origins
import Resumable.Proofs.Flow.Settling

/-!
# Balanced bodies

A body is balanced if every place that control may come to has one height of the operand stack, from
which the instruction there can run, and at which control arrives wherever it goes on
(`Flow.Balanced`). Of a balanced body that passes verification the analysis has little to say: it
succeeds, or it meets a reference where a number is to be converted (`Balanced.analyze`). Every method
that an analysis has accepted is balanced (`Analyzed.balanced`), so whatever else the database comes to
know, another analysis of the method says no more than that (`analyze_again`).
-/

namespace Resumable

namespace Flow

variable {owner : String} {m : Method} {R : Nat → Nat → Prop} {frames : Array (Option Frame)}
  {s : State}

/-- Control comes to a place with the height that `R` says, and every instruction goes on from the
heights that `R` allows to others that it allows. -/
structure Balanced (m : Method) (R : Nat → Nat → Prop) : Prop where
  entry : R 0 0
  unique : ∀ {q n n'}, R q n → R q n' → n' = n
  /-- There is enough to take, and the instruction has run on some frame. -/
  runs : ∀ {q n x}, R q n → m.code[q]? = some x →
    x.takes ≤ n ∧ ∃ index f g, Frame.step f index x = .ok g
  falls : ∀ {q n x}, R q n → m.code[q]? = some x → x.fallsThrough = true →
    q + 1 < m.code.length ∧ R (q + 1) (n - x.takes + x.gives)
  jumps : ∀ {q n x l}, R q n → m.code[q]? = some x → l ∈ x.branchTargets →
    ∃ target, labelPosition? m.code l = some target ∧ R target (n - x.takes + x.gives)
  caught : ∀ {q n h target}, R q n → h ∈ m.handlers → Covers m.code (h.start, h.stop) q →
    labelPosition? m.code h.target = some target → R target 1

/-- Every frame found so far has the height of its place. -/
def Level (m : Method) (R : Nat → Nat → Prop) (frames : Array (Option Frame)) : Prop :=
  ∀ (j : Nat) (f : Frame), frames[j]?.join = some f →
    R j f.stack.length ∧ f.locals.length = m.maxLocals.toNat

theorem Level.put (s : State) (target : Nat) {f : Frame} (h : Level m R s.frames)
    (hR : R target f.stack.length) (hlen : f.locals.length = m.maxLocals.toNat) :
    Level m R (s.put target f).frames := by
  intro j g hg
  rcases cases_of_put hg with ⟨rfl, rfl⟩ | ⟨-, hg⟩
  · exact ⟨hR, hlen⟩
  · exact h j g hg

/-- The analysis has met a reference where a number is to be converted, or has run out of steps. -/
def Refuses (owner : String) (m : Method) (e : InstrumentError) : Prop :=
  (∃ index op, op.isConversion = true ∧ m.code[index]? = some (.simple op) ∧
    e = failure owner m index (.convertsReference op)) ∨
    e = failure owner m 0 .unsettled

namespace Balanced

/-- Frames of the same height join. -/
theorem flowInto (hR : Balanced m R) {source target : Nat} {f : Frame}
    (hf : R target f.stack.length) (hlen : f.locals.length = m.maxLocals.toNat) (s : State) :
    Meets (fun _ => Level m R s.frames) (Flow.flowInto owner m source target f s)
      (fun s _ => Level m R s.frames) (Refuses owner m) := by
  intro db hs
  refine flowInto_meets (P := (· = db)) (fun _ _ _ => hs.put s target hf hlen)
    (fun old hold => ?_) db rfl
  obtain ⟨hold', hlen'⟩ := hs target old hold
  refine (Frame.merged_meets db old f fun hne => ?_).mono
    (fun db' hdb' => hdb' ▸ Database.Keeps.refl db)
    fun g db' ⟨_, hlocals, hstack, _⟩ => ⟨fun _ => hs, fun _ => ?_⟩
  · exact absurd (hR.unique hf hold') hne
  · exact hs.put s target (hstack ▸ hold') (hlocals.trans hlen')

/-- One look at an instruction of a balanced body. -/
theorem visit (hR : Balanced m R) (hsound : m.Sound) {ranges : List HandlerRange} {index : Nat}
    {i : Instr} {before : Frame} (hranges : Placed m ranges) (hi : m.code[index]? = some i)
    (hbefore : R index before.stack.length) (hlen : before.locals.length = m.maxLocals.toNat)
    (s : State) : Meets (fun _ => Level m R s.frames)
      (Flow.visit owner m ranges index i before s) (fun s _ => Level m R s.frames)
      (Refuses owner m) := by
  obtain ⟨htakes, index', f, g, hran⟩ := hR.runs hbefore hi
  refine visit_meets (I := fun s _ => Level m R s.frames) (fun cause hcause => ?_)
    (fun l hl hnone => ?_) (fun hfalls hle => ?_) (fun after hafter target f hbrings s => ?_) s
  · have hlocal := hsound.locals i (List.mem_of_getElem? hi)
    rcases Frame.exists_step before index hran htakes (fun slot hslot =>
      hlen ▸ hlocal slot hslot) with ⟨after, hafter⟩ | ⟨op, rfl, hop, herror⟩
    · cases hafter.symm.trans hcause
    · cases herror.symm.trans hcause
      exact .inl ⟨index, op, hop, hi, rfl⟩
  · obtain ⟨target, htarget, -⟩ := hR.jumps hbefore hi hl
    cases hnone.symm.trans htarget
  · exact absurd (hR.falls hbefore hi hfalls).1 (Nat.not_lt.2 hle)
  · obtain ⟨-, hheight⟩ := Frame.length_of_step hafter
    have hafterlen := (Frame.locals_length_of_step hafter).trans hlen
    cases hbrings with
    | jump hl htarget =>
      obtain ⟨target', htarget', hR'⟩ := hR.jumps hbefore hi hl
      cases htarget.symm.trans htarget'
      exact hR.flowInto (hheight ▸ hR') hafterlen s
    | fall hfalls =>
      exact hR.flowInto (hheight ▸ (hR.falls hbefore hi hfalls).2) hafterlen s
    | @caught r locals hr hcovers hlocals =>
      obtain ⟨h, hh, hstart, hstop, htarget⟩ := exists_left_of_mem hranges hr
      have hcovers' : Covers m.code (h.start, h.stop) index :=
        ⟨r.start, r.stop, hstart, hstop, by simpa [HandlerRange.covers] using hcovers⟩
      refine hR.flowInto (hR.caught hbefore hh hcovers' htarget) ?_ s
      rcases hlocals with rfl | rfl
      exacts [hlen, hafterlen]

/-- **The analysis of a balanced body** that passes verification succeeds, unless a reference stands
where a number is to be converted. -/
theorem analyze (hR : Balanced m R) (hcode : m.code ≠ []) (hverify : m.verify = .ok ())
    (db : Database) :
    (∃ frames, ((Resumable.analyze owner m).run.run db).1 = .ok frames) ∨
      ∃ index op, op.isConversion = true ∧ m.code[index]? = some (.simple op) ∧
        ((Resumable.analyze owner m).run.run db).1 =
          .error (failure owner m index (.convertsReference op)) := by
  obtain ⟨type, htype, hbody⟩ := Method.verify_eq_ok_iff.1 hverify
  obtain ⟨-, hroom, hsound⟩ := hbody.resolve_left hcode
  have hmeets : Meets (fun _ => True) (Resumable.analyze owner m) (fun _ _ => True)
      (Refuses owner m) := by
    refine analyze_meets (T := fun f => f.locals.length = m.maxLocals.toNat ∧ f.stack = [])
      (fun h hh l hl hnone => ?_) (fun _ _ _ => trivial)
      (entryFrame_meets (fun cause hcause => ?_) fun type' htype' hfew => ?_) ?_
    · obtain ⟨⟨start, stop, hstart, hstop, -⟩, htarget⟩ := hsound.handlers h hh
      obtain ⟨target, htarget⟩ := exists_labelPosition? htarget
      simp only [List.mem_cons, List.not_mem_nil, or_false] at hl
      rcases hl with rfl | rfl | rfl
      · cases hnone.symm.trans hstart
      · cases hnone.symm.trans hstop
      · cases hnone.symm.trans htarget
    · cases hcause.symm.trans htype
    · cases htype.symm.trans htype'
      omega
    · rintro ranges entry db - hranges hpos ⟨hlen, hstack⟩
      refine (settle_meets (I := fun _ s _ => Level m R s.frames) (Q := fun _ _ => True) ?_ ?_ ?_ ?_
        _ _).mono (fun _ _ => ?_) fun _ _ => id
      · exact fun _ _ _ _ => trivial
      · exact fun _ _ _ _ _ => .inr rfl
      · exact fun _ _ _ _ _ _ => id
      · intro n frames index pending i before hi hbefore db' hs
        obtain ⟨hheight, hlen'⟩ := hs index before hbefore
        exact hR.visit hsound hranges.placed hi hheight hlen' ⟨frames, pending⟩ db' hs
      · have hblank : Level m R (Array.replicate m.code.length none) := by
          intro j f hf
          rw [Array.getElem?_replicate] at hf
          split at hf <;> cases hf
        exact Level.put ⟨_, []⟩ 0 hblank (hstack ▸ hR.entry) hlen
  have := hmeets db trivial
  rcases hrun : (Resumable.analyze owner m).run.run db with ⟨e | frames, db'⟩
  · rw [hrun] at this
    rcases this with ⟨index, op, hop, hi, rfl⟩ | rfl
    · exact .inr ⟨index, op, hop, hi, rfl⟩
    · exact absurd (congrArg Prod.fst hrun) (analyze_settles owner m db)
  · exact .inl ⟨frames, rfl⟩

end Balanced

/-! ## Bodies that have been accepted -/

/-- **A method that has been analysed is balanced**: each place has the height of its frame. -/
theorem Analyzed.balanced (h : Analyzed owner m frames) (hcode : m.code ≠ []) :
    Balanced m fun q n => ∃ f, frames[q]?.join = some f ∧ f.stack.length = n := by
  have hstep {q : Nat} {f : Frame} {x : Instr} (hf : frames[q]?.join = some f)
      (hx : m.code[q]? = some x) :
      ∃ g, f.step q x = .ok g ∧ Leads m frames q x f g ∧ x.takes ≤ f.stack.length ∧
        g.stack.length = f.stack.length - x.takes + x.gives := by
    obtain ⟨g, hg, hleads⟩ := h.settled q x f hx hf
    exact ⟨g, hg, hleads, Frame.length_of_step hg⟩
  have hinto {q n : Nat} {g : Frame} (hg : Into frames q g) (hn : g.stack.length = n) :
      ∃ f, frames[q]?.join = some f ∧ f.stack.length = n := by
    obtain ⟨f, hf, hle⟩ := hg
    exact ⟨f, hf, hle.stack.length_eq.symm.trans hn⟩
  refine ⟨?_, ?_, ?_, ?_, ?_, ?_⟩
  · obtain ⟨type, -, -, hentry⟩ := h.entry hcode
    exact hinto hentry rfl
  · rintro q n n' ⟨f, hf, rfl⟩ ⟨f', hf', rfl⟩
    cases hf.symm.trans hf'
    rfl
  · rintro q n x ⟨f, hf, rfl⟩ hx
    obtain ⟨g, hg, -, htakes, -⟩ := hstep hf hx
    exact ⟨htakes, q, f, g, hg⟩
  · rintro q n x ⟨f, hf, rfl⟩ hx hfalls
    obtain ⟨g, -, hleads, -, hheight⟩ := hstep hf hx
    obtain ⟨f', hf', hlen⟩ := hinto (hleads.falls hfalls) hheight
    refine ⟨?_, f', hf', hlen⟩
    rw [← h.size]
    refine Nat.lt_of_not_le fun hle => ?_
    rw [Array.getElem?_eq_none hle] at hf'
    cases hf'
  · rintro q n x l ⟨f, hf, rfl⟩ hx hl
    obtain ⟨g, -, hleads, -, hheight⟩ := hstep hf hx
    obtain ⟨target, htarget, hg⟩ := hleads.jumps l hl
    exact ⟨target, htarget, hinto hg hheight⟩
  · rintro q n handler target ⟨f, hf, rfl⟩ hmem hcovers htarget
    have hq : q < m.code.length := by
      obtain ⟨start, stop, -, hstop, -, hlt⟩ := hcovers
      exact hlt.trans (List.getElem?_eq_some_iff.1 (getElem?_of_labelPosition? hstop)).1
    obtain ⟨g, -, hleads, -⟩ := hstep hf (List.getElem?_eq_getElem hq)
    obtain ⟨type, hg⟩ := hleads.of_covers hmem hcovers htarget
    exact hinto hg rfl

/-- Whatever the database knows, a method that an analysis has accepted is balanced for another one. -/
theorem analyze_again (h : Gives (analyze owner m) frames) (hverify : m.verify = .ok ())
    (db : Database) :
    (∃ frames, ((analyze owner m).run.run db).1 = .ok frames) ∨
      ∃ index op, op.isConversion = true ∧ m.code[index]? = some (.simple op) ∧
        ((analyze owner m).run.run db).1 =
          .error (failure owner m index (.convertsReference op)) := by
  by_cases hcode : m.code = []
  · -- There is nothing to look at, and no handler, whose labels would have to be placed.
    left
    have hhandlers : m.handlers = [] := by
      unfold analyze at h
      obtain ⟨ranges, hranges, -⟩ := h.bind
      refine List.eq_nil_iff_forall_not_mem.2 fun handler hmem => ?_
      obtain ⟨r, -, hstart, -⟩ := exists_right_of_mem (placed_of_handlerRanges hranges) hmem
      rw [hcode] at hstart
      cases hstart
    refine ⟨#[], ?_⟩
    unfold analyze
    rw [hhandlers, List.mapM_nil, pure_bind, if_pos (by simpa using hcode)]
    rfl
  · exact ((analyzed_of_analyze h).balanced hcode).analyze hcode hverify db

end Flow

end Resumable
