import Mathlib.Data.List.TakeWhile
import Resumable.Proofs.Flow.Heights
import Resumable.Proofs.Flow.Origins
import Resumable.Proofs.Instrument.Positions

/-!
# Allocations that are put off

An object under construction that lies on the operand stack at a suspension point is missing from the
transformed body: the instructions that put its copies in place are left out, everywhere, and made up
for in front of the constructor call. A transformed body therefore works on what is left of each
operand stack (`MethodPlan.left`).

That goes well in a method that treats such objects as they come from a constructor expression: no
copy is handled by anything but the constructor call, which finds both of its copies or none of them
missing, and no path to a join has a copy that another has not (`Analysed.Orderly`). In such a method
each instruction changes what is left by what it takes and gives (`OrderlyAt.left_of_step`), those left
out do not change it (`Transforms.left_of_omitted`), and paths that join agree on it
(`OrderlyAt.left_of_into`).
-/

namespace Resumable

/-- The value is a copy of the object that is allocated at `alloc`. -/
def FlowValue.isFrom (alloc : Nat) : FlowValue → Bool
  | .fresh _ alloc' _ _ => alloc' == alloc
  | _ => false

namespace MethodPlan

/-- The instruction that put this copy of an object under construction in its place is left out. -/
def putsOff (plan : MethodPlan) : FlowValue → Bool
  | .fresh _ _ insn _ => plan.omitted.contains insn
  | _ => false

/-- How many of some operands are there in a transformed body. -/
def left (plan : MethodPlan) (operands : List FlowValue) : Nat :=
  (operands.map plan.putsOff).count false

/-- How many operands are put back in front of an instruction. -/
def putsBack (plan : MethodPlan) (f : Frame) : Instr → Nat
  | .invoke .invokespecial callee =>
    if callee.name = Names.constructor ∧
        Analysed.rebuilds plan.omitted (f.stack.drop callee.effect.1) then 2
    else 0
  | _ => 0

/-- What is put off among some operands is the same among others. -/
def StaysOff (plan : MethodPlan) (vs ws : List FlowValue) : Prop :=
  ∀ k < vs.length, ∀ v ∈ vs[k]?, plan.putsOff v = true → ws[k]? = some v

instance (plan : MethodPlan) (vs ws : List FlowValue) : Decidable (plan.StaysOff vs ws) :=
  inferInstanceAs (Decidable (∀ k < vs.length, _))

end MethodPlan

/-- The instructions that may come after the one at `i`, handlers apart. -/
def Instr.successors (code : List Instr) (i : Nat) (x : Instr) : List Nat :=
  x.branchTargets.filterMap (labelPosition? code) ++ if x.fallsThrough then [i + 1] else []

namespace Analysed

/-- The instruction treats the objects whose allocation is put off as it should. -/
structure OrderlyAt (a : Analysed) (plan : MethodPlan) (i : Nat) (x : Instr) (f : Frame) : Prop where
  /-- What is put off is not handled by other instructions than constructor calls. -/
  handles : i ∉ plan.omitted → f.constructed? x = none → ∀ v ∈ f.handles x, plan.putsOff v = false
  /-- A constructor call finds its arguments. Of the copies of its object either the first two are
  missing and will be put back, or none. -/
  constructs : ∀ c ∈ f.constructed? x,
    (∀ v ∈ f.stack.take (x.takes - 1), plan.putsOff v = false) ∧
    (∀ v ∈ (f.stack.drop (x.takes - 1)).take (plan.putsBack f x),
      plan.putsOff v = true ∧ v.isFrom c.2 = true) ∧
    ∀ v ∈ f.stack.drop (x.takes - 1 + plan.putsBack f x),
      v.isFrom c.2 = true → plan.putsOff v = false
  /-- What is put off on the way to another instruction stays so. -/
  joins : ∀ g ∈ (f.step i x).toOption, ∀ j ∈ x.successors a.method.code i, ∀ f' ∈ a.frame? j,
    plan.StaysOff g.stack f'.stack

instance (a : Analysed) (plan : MethodPlan) (i : Nat) (x : Instr) (f : Frame) :
    Decidable (a.OrderlyAt plan i x f) :=
  decidable_of_iff (_ ∧ _ ∧ _)
    ⟨fun h => ⟨h.1, h.2.1, h.2.2⟩, fun h => ⟨h.handles, h.constructs, h.joins⟩⟩

/-- The method treats the objects whose allocation is put off as it should. -/
def Orderly (a : Analysed) (plan : MethodPlan) : Prop :=
  ∀ i < a.method.code.length, ∀ x ∈ a.method.code[i]?, ∀ f ∈ a.frame? i, a.OrderlyAt plan i x f

instance (a : Analysed) (plan : MethodPlan) : Decidable (a.Orderly plan) :=
  inferInstanceAs (Decidable (∀ i < a.method.code.length, _))

end Analysed

namespace MethodPlan

variable {plan : MethodPlan} {f g : Frame} {x : Instr} {i : Nat} {vs ws : List FlowValue}

/-! ## Counting what is left -/

theorem putsOff_of_not_fresh {v : FlowValue} (h : v.isFresh = false) : plan.putsOff v = false := by
  cases v <;> first | rfl | cases h

@[simp] theorem left_nil : plan.left [] = 0 := rfl

@[simp] theorem left_append : plan.left (vs ++ ws) = plan.left vs + plan.left ws := by
  unfold left
  rw [List.map_append, List.count_append]

theorem left_of_kept (h : ∀ v ∈ vs, plan.putsOff v = false) : plan.left vs = vs.length := by
  unfold left
  rw [List.count_eq_length.2, List.length_map]
  intro b hb
  obtain ⟨v, hv, rfl⟩ := List.mem_map.1 hb
  exact (h v hv).symm

theorem left_cons_of_kept {v : FlowValue} (h : plan.putsOff v = false) :
    plan.left (v :: vs) = 1 + plan.left vs := by
  rw [← List.singleton_append, left_append, left_of_kept]
  · rfl
  · intro w hw
    rw [List.mem_singleton.1 hw]
    exact h

theorem left_of_putOff (h : ∀ v ∈ vs, plan.putsOff v = true) : plan.left vs = 0 := by
  refine List.count_eq_zero.2 fun hmem => ?_
  obtain ⟨v, hv, hkept⟩ := List.mem_map.1 hmem
  cases (h v hv).symm.trans hkept

theorem left_take_add_drop (n : Nat) : plan.left (vs.take n) + plan.left (vs.drop n) =
    plan.left vs := by
  rw [← left_append, List.take_append_drop]

/-- What goes over into a frame that knows less is left there too, if what is put off stays so. -/
theorem left_of_le (hle : List.Forall₂ (· ≤ ·) vs ws)
    (hjoins : plan.StaysOff vs ws) : plan.left vs = plan.left ws := by
  have hmap : vs.map plan.putsOff = ws.map plan.putsOff := by
    refine List.ext_getElem? fun k => ?_
    rw [List.getElem?_map, List.getElem?_map]
    rcases hv : vs[k]? with _ | v
    · rw [List.getElem?_eq_none (hle.length_eq ▸ List.getElem?_eq_none_iff.1 hv)]
    · have hk : k < ws.length := hle.length_eq ▸ (List.getElem?_eq_some_iff.1 hv).1
      obtain ⟨w, hw⟩ : ∃ w, ws[k]? = some w := ⟨_, List.getElem?_eq_getElem hk⟩
      have hvw := forall₂_getElem? hle hv hw
      rw [hw]
      cases hoff : plan.putsOff v with
      | true =>
        rw [hjoins k (List.getElem?_eq_some_iff.1 hv).1 v hv hoff] at hw
        cases hw
        simp [hoff]
      | false =>
        cases hfresh : w.isFresh with
        | false => simp [hoff, putsOff_of_not_fresh hfresh]
        | true => rw [FlowValue.eq_of_le_of_isFresh hvw hfresh]
  unfold left
  rw [hmap]

/-! ## What is put back -/

theorem putsBack_cases (plan : MethodPlan) (f : Frame) (x : Instr) : plan.putsBack f x = 0 ∨
    plan.putsBack f x = 2 ∧ ∃ v w rest, f.stack.drop (x.takes - 1) = v :: w :: rest := by
  unfold putsBack
  split
  · split
    · rename_i callee h
      refine .inr ⟨rfl, ?_⟩
      have hrebuilds := h.2
      rw [show (Instr.invoke .invokespecial callee).takes - 1 = callee.effect.1 by
        simp [Instr.takes, Instr.effect]]
      unfold Analysed.rebuilds at hrebuilds
      split at hrebuilds
      · exact ⟨_, _, _, ‹_›⟩
      · cases hrebuilds
    · exact .inl rfl
  · exact .inl rfl

/-- Nothing is put back where nothing is constructed. -/
theorem putsBack_of_not_constructed (h : f.constructed? x = none) : plan.putsBack f x = 0 := by
  unfold putsBack
  split
  · rename_i callee
    refine if_neg fun ⟨hname, hrebuilds⟩ => ?_
    rw [Frame.constructed?_invoke, if_pos ⟨rfl, hname⟩] at h
    unfold Analysed.rebuilds at hrebuilds
    split at hrebuilds
    · rename_i heq
      have hreceiver := congrArg (·[0]?) heq
      simp only [List.getElem?_drop, Nat.add_zero, List.getElem?_cons_zero] at hreceiver
      rw [hreceiver] at h
      cases h
    · cases hrebuilds
  · rfl

end MethodPlan

/-- A constructor call has a receiver that is under construction. -/
theorem Frame.of_constructed? {f : Frame} {x : Instr} {name : String} {alloc : Nat}
    (h : f.constructed? x = some (name, alloc)) : ∃ callee, x = .invoke .invokespecial callee ∧
      ∃ v, f.stack[x.takes - 1]? = some v ∧ v.isFrom alloc = true := by
  cases x with
  | invoke op callee =>
    rw [Frame.constructed?_invoke] at h
    split at h
    · rename_i hctor
      obtain ⟨rfl, -⟩ := hctor
      split at h
      · cases h
        rename_i type insn dupped hreceiver
        have hfrom : (FlowValue.fresh name alloc insn dupped).isFrom alloc = true :=
          beq_self_eq_true alloc
        refine ⟨callee, rfl, _, ?_, hfrom⟩
        rw [← hreceiver]
        simp [Instr.takes, Instr.effect]
      · cases h
    · cases h
  | _ => cases h

namespace MethodPlan

variable {plan : MethodPlan} {f : Frame} {x : Instr} {name : String} {alloc : Nat}

/-- A copy of the object that is constructed is an ordinary object then. -/
theorem putsOff_completed_of_isFrom (hconstructed : f.constructed? x = some (name, alloc))
    {v : FlowValue} (hv : v.isFrom alloc = true) : plan.putsOff (f.completed x v) = false := by
  unfold Frame.completed
  rw [hconstructed]
  cases v with
  | fresh type alloc' insn dupped =>
    simp only [FlowValue.isFrom, beq_iff_eq] at hv
    simp [hv, putsOff]
  | _ => cases hv

/-- If no copy of the object that is constructed is put off, just as much is put off after the
call. -/
theorem left_map_completed (hconstructed : f.constructed? x = some (name, alloc))
    {vs : List FlowValue} (hvs : ∀ v ∈ vs, v.isFrom alloc = true → plan.putsOff v = false) :
    plan.left (vs.map (f.completed x)) = plan.left vs := by
  unfold left
  rw [List.map_map]
  refine congrArg _ (List.map_congr_left fun v hv => ?_)
  show plan.putsOff (f.completed x v) = plan.putsOff v
  cases hfrom : v.isFrom alloc with
  | true => rw [putsOff_completed_of_isFrom hconstructed hfrom, hvs v hv hfrom]
  | false =>
    unfold Frame.completed
    rw [hconstructed]
    cases v with
    | fresh type alloc' insn dupped =>
      simp only [FlowValue.isFrom, beq_eq_false_iff_ne] at hfrom
      simp [hfrom]
    | _ => rfl

end MethodPlan

namespace Analysed.OrderlyAt

variable {a : Analysed} {plan : MethodPlan} {f g : Frame} {x : Instr} {i j : Nat}

/-- A constructor call makes ordinary objects of the copies that are not put off. -/
theorem left_of_constructs (h : a.OrderlyAt plan i x f) {name : String} {alloc : Nat}
    (hconstructed : f.constructed? x = some (name, alloc)) (hstep : f.step i x = .ok g) :
    x.takes - 1 ≤ plan.left f.stack ∧ x.takes ≤ plan.left f.stack + plan.putsBack f x ∧
      plan.left g.stack = plan.left f.stack + plan.putsBack f x - x.takes + x.gives := by
  obtain ⟨hargs, hback, hbelow⟩ := h.constructs (name, alloc) hconstructed
  obtain ⟨callee, hcall, receiver, hreceiver, hfrom⟩ := Frame.of_constructed? hconstructed
  obtain ⟨given, hleaves, hgiven⟩ :
      ∃ given, f.Leaves i x given g ∧ ∀ v ∈ given, v.isFresh = false := by
    rw [hcall] at hstep ⊢
    exact Frame.exists_leaves_invoke hstep
  have htakes : x.takes = x.takes - 1 + 1 := by
    rw [hcall]
    simp [Instr.takes, Instr.effect]
  have henough := hleaves.enough
  have hargs' : plan.left (f.stack.take (x.takes - 1)) = x.takes - 1 := by
    rw [MethodPlan.left_of_kept hargs, List.length_take]
    omega
  have hgiven' : plan.left given = x.gives := by
    rw [MethodPlan.left_of_kept fun v hv => MethodPlan.putsOff_of_not_fresh (hgiven v hv),
      hleaves.length]
  rw [hleaves.stack, MethodPlan.left_append, hgiven']
  have hsplit : plan.left f.stack = x.takes - 1 + plan.left (f.stack.drop (x.takes - 1)) := by
    rw [← MethodPlan.left_take_add_drop (x.takes - 1), hargs']
  rcases plan.putsBack_cases f x with hnone | ⟨htwo, v, w, rest, hdrop⟩
  · -- The receiver is there, and so are all other copies of the object.
    rw [hnone, Nat.add_zero] at hbelow ⊢
    have hcons : f.stack.drop (x.takes - 1) = receiver :: f.stack.drop x.takes := by
      rw [List.drop_eq_getElem_cons (by omega), ← htakes]
      congr 1
      exact (List.getElem?_eq_some_iff.1 hreceiver).2
    have hrest : plan.left ((f.stack.drop x.takes).map (f.completed x)) =
        plan.left (f.stack.drop x.takes) :=
      MethodPlan.left_map_completed hconstructed fun v hv =>
        hbelow v (hcons ▸ List.mem_cons_of_mem receiver hv)
    have hone : plan.left (f.stack.drop (x.takes - 1)) = 1 + plan.left (f.stack.drop x.takes) := by
      rw [hcons]
      exact MethodPlan.left_cons_of_kept (hbelow receiver (hcons ▸ List.mem_cons_self) hfrom)
    omega
  · -- The receiver and the copy below it are put back; the copy is an ordinary object then.
    rw [htwo] at hback hbelow ⊢
    rw [hdrop] at hback
    have hrest' : f.stack.drop (x.takes - 1 + 2) = rest := by
      rw [← List.drop_drop, hdrop]
      rfl
    have hcons : f.stack.drop x.takes = w :: rest := by
      rw [htakes, ← List.drop_drop, hdrop]
      rfl
    have hcopy : plan.putsOff (f.completed x w) = false :=
      MethodPlan.putsOff_completed_of_isFrom hconstructed (hback w (by simp)).2
    have hzero : plan.left (f.stack.drop (x.takes - 1)) = plan.left rest := by
      rw [hdrop, show v :: w :: rest = [v, w] ++ rest from rfl, MethodPlan.left_append,
        MethodPlan.left_of_putOff fun u hu => (hback u (by simpa using hu)).1, Nat.zero_add]
    have hone : plan.left ((f.stack.drop x.takes).map (f.completed x)) = 1 + plan.left rest := by
      rw [hcons, List.map_cons, MethodPlan.left_cons_of_kept hcopy,
        MethodPlan.left_map_completed hconstructed fun u hu => hbelow u (hrest' ▸ hu)]
    omega

/-- **Each instruction that is not left out** finds among what is left the operands that it takes, once
those put off to it have been put back, and changes what is left by what it takes and gives. -/
theorem left_of_step (h : a.OrderlyAt plan i x f) (hi : i ∉ plan.omitted)
    (hstep : f.step i x = .ok g) : x.takes - 1 ≤ plan.left f.stack ∧
      x.takes ≤ plan.left f.stack + plan.putsBack f x ∧
      plan.left g.stack = plan.left f.stack + plan.putsBack f x - x.takes + x.gives := by
  rcases hconstructed : f.constructed? x with _ | ⟨name, alloc⟩
  · obtain ⟨given, hleaves⟩ := Frame.exists_leaves hstep
    have hhandles := h.handles hi hconstructed
    have hcontains : plan.omitted.contains i = false := by simpa using hi
    have hgiven : plan.left given = x.gives := by
      rw [← hleaves.length]
      refine MethodPlan.left_of_kept (hleaves.given (plan.putsOff · = false) ?_ ?_ ?_ hhandles)
      · exact fun v => MethodPlan.putsOff_of_not_fresh
      · exact fun _ => hcontains
      · exact fun _ _ _ _ => hcontains
    have htaken : plan.left (f.stack.take x.takes) = x.takes := by
      rw [MethodPlan.left_of_kept fun v hv => hhandles v (List.mem_append_left _ hv),
        List.length_take]
      exact Nat.min_eq_left hleaves.enough
    have hsplit : plan.left (f.stack.take x.takes) + plan.left (f.stack.drop x.takes) =
        plan.left f.stack := MethodPlan.left_take_add_drop x.takes
    rw [hleaves.stack, Frame.map_completed hconstructed, MethodPlan.left_append, hgiven,
      MethodPlan.putsBack_of_not_constructed hconstructed]
    omega
  · exact h.left_of_constructs hconstructed hstep

/-- Paths that join agree on what is left. -/
theorem left_of_into (h : a.OrderlyAt plan i x f) (hstep : f.step i x = .ok g)
    (hj : j ∈ x.successors a.method.code i) (hinto : Flow.Into a.frames j g) :
    ∃ f', a.frame? j = some f' ∧ plan.left f'.stack = plan.left g.stack := by
  obtain ⟨f', hf', hle⟩ := hinto
  have hg : g ∈ (f.step i x).toOption := by rw [hstep]; rfl
  exact ⟨f', hf', (MethodPlan.left_of_le hle.stack (h.joins g hg j hj f' hf')).symm⟩

end Analysed.OrderlyAt

/-! ## What is left out -/

namespace SuspensionPoint

variable {ts : List FlowValue} {actions : List SlotAction}

/-- As many operands are not omitted as are not under construction. -/
theorem count_of_omits (h : List.Forall₂ (fun t action => t ≠ FlowValue.unknown ∧
      (t.isFresh = true ↔ action = SlotAction.omitted)) ts actions) :
    (ts.map FlowValue.isFresh).count false = (actions.filter (· ≠ .omitted)).length := by
  induction h with
  | nil => rfl
  | @cons t action ts actions h _ ih =>
    rw [List.map_cons, List.count_cons, List.filter_cons, ih]
    cases hfresh : t.isFresh with
    | true => simp [h.2.1 hfresh]
    | false =>
      have hkept : action ≠ .omitted := fun heq => by
        rw [h.2.2 heq] at hfresh
        cases hfresh
      simp [hkept]

end SuspensionPoint

namespace Transforms

variable {owner : String} {m m' : Method} {a : Analysed} {plan : MethodPlan} {i : Nat} {f g : Frame}
  {x : Instr}

theorem traced (h : Transforms owner m a plan m') (hf : a.frame? i = some f) :
    f.Each (Flow.Traced a.frames) := by
  obtain ⟨frames, hframes, ha⟩ := h.analysed.bind
  rw [ha.pure] at hf ⊢
  exact Flow.traced_of_analyze hframes hf

/-- A copy that is left out is one of an object under construction. -/
theorem original_of_omitted (h : Transforms owner m a plan m') (hi : i ∈ plan.omitted)
    (hx : a.method.code[i]? = some (.simple .dup)) (hf : a.frame? i = some f) :
    ∃ type alloc first rest, f.stack = .fresh type alloc first false :: rest := by
  obtain ⟨db, db', hplan⟩ := h.planned
  obtain ⟨-, -, homitted⟩ := Analysed.plan_points hplan
  rw [homitted] at hi
  obtain ⟨p, -, hi⟩ := List.mem_flatMap.1 hi
  unfold Analysed.omittedAt at hi
  rcases hp : a.frame? p.index with _ | fp
  · rw [hp] at hi
    cases hi
  rw [hp] at hi
  obtain ⟨type, alloc, dupped, hmem⟩ := Analysed.exists_fresh_of_omittedInstrs hi
  replace hmem := List.mem_reverse.1 hmem
  obtain ⟨halloc, hinsn⟩ := (h.made hp).2 _ hmem
  cases dupped with
  | false =>
    rw [← show i = alloc by simpa using hinsn, hx] at halloc
    cases halloc
  | true =>
    obtain ⟨f', first, rest, hf', hstack⟩ := (h.traced hp).2 _ hmem
    cases hf.symm.trans hf'
    exact ⟨type, alloc, first, rest, hstack⟩

/-- **An instruction that is left out changes nothing of what is left.** -/
theorem left_of_omitted (h : Transforms owner m a plan m') (hi : i ∈ plan.omitted)
    (hx : a.method.code[i]? = some x) (hf : a.frame? i = some f) (hstep : f.step i x = .ok g) :
    plan.left g.stack = plan.left f.stack := by
  have hpush {v : FlowValue} (hv : plan.putsOff v = true) (hg : g = f.push v) :
      plan.left g.stack = plan.left f.stack := by
    rw [hg, Frame.stack_push, ← List.singleton_append, MethodPlan.left_append,
      MethodPlan.left_of_putOff fun w hw => List.mem_singleton.1 hw ▸ hv, Nat.zero_add]
  have hcontains : plan.omitted.contains i = true := by simpa using hi
  rcases h.of_mem_omitted hi with ⟨type, heq⟩ | heq
  · cases hx.symm.trans heq
    exact hpush (v := .fresh type i i false) hcontains (by cases hstep; rfl)
  · cases hx.symm.trans heq
    obtain ⟨type, alloc, first, rest, hstack⟩ := h.original_of_omitted hi hx hf
    refine hpush (v := .fresh type alloc i true) hcontains ?_
    change f.duplicate i = .ok g at hstep
    unfold Frame.duplicate Frame.peek at hstep
    rw [hstack] at hstep
    cases hstep
    rfl

/-- At a suspension point there are as many operands left as have to be kept or made again. -/
theorem left_at_point (h : Transforms owner m a plan m') {p : SuspensionPoint}
    (hp : p ∈ plan.points) (hf : a.frame? p.index = some f) :
    plan.left f.stack = (p.stack.filter (· ≠ .omitted)).length := by
  obtain ⟨db, db', hplan⟩ := h.planned
  obtain ⟨hpoints, -, homitted⟩ := Analysed.plan_points hplan
  obtain ⟨op, callee, f', -, hf', hpoint⟩ := (hpoints p hp).1.1
  cases hf.symm.trans hf'
  have homits := (SuspensionPoint.plan_spec hpoint).1.imp
    fun _ _ htreats => SuspensionPoint.Treats.omits htreats
  have hoff (t : FlowValue) (ht : t ∈ f.stack.reverse) : plan.putsOff t = t.isFresh := by
    cases t with
    | fresh type alloc insn dupped =>
      refine List.contains_iff_mem.2 (homitted ▸ List.mem_flatMap.2 ⟨p, hp, ?_⟩)
      unfold Analysed.omittedAt
      rw [hf]
      refine mem_omittedInstrs (fun t ht => ?_) ht
      obtain ⟨action, -, hknown, -⟩ := exists_right_of_mem homits ht
      exact hknown
    | _ => rfl
  unfold MethodPlan.left
  rw [← List.count_reverse, ← List.map_reverse, List.map_congr_left hoff,
    SuspensionPoint.count_of_omits homits]

end Transforms

end Resumable
