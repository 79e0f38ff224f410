import Resumable.Proofs.Instrument.Account
import Resumable.Proofs.Instrument.Positions
import Resumable.Proofs.Machine.Executions

/-!
# Constructor calls

Where the allocation of an object is put off to the call of its constructor, the arguments of the
call already lie where the object should be. So they are set aside in locals behind those of the
method, the object is allocated and copied, and the arguments are taken back
(`Analysed.advances_allocationCode`).

What lies below the arguments does not matter for that. In particular it need not be what the
analysis found there: if another object is under construction at the same time, its copies are
missing too. After the inner call, the inner object is an argument of the outer call like any other,
and the outer object is allocated below it (`Transforms.rebuilds_calls`).
-/

namespace Resumable

namespace Analysed

open Activation (Advances)

variable {classes : ClassTable} {act : Activation} {mem : Memory} {rest : List Instr}

/-! ## Setting arguments aside -/

/-- Values go from the operands to locals, the topmost one to the last of them. -/
theorem advances_stores (classes : ClassTable) (mem : Memory)
    {temps : List (SlotKind × UInt16)} {xs r : List Value} (hlen : xs.length = temps.length)
    (hat : act.At (temps.reverse.map (fun temp => .local temp.1.storeOpcode temp.2) ++ rest))
    (hstack : act.stack = xs.reverse ++ r)
    (hlocals : ∀ temp ∈ temps, temp.2.toNat < act.locals.length)
    (hnodup : (temps.map (·.2.toNat)).Nodup) :
    ∃ locals, Advances classes temps.length act mem
        { act with locals, stack := r, pc := act.pc + temps.length } mem ∧
      (∀ y ∈ temps.zip xs, locals[y.1.2.toNat]? = some y.2) ∧
      locals.length = act.locals.length ∧
      ∀ index, index ∉ temps.map (·.2.toNat) → locals[index]? = act.locals[index]? := by
  induction temps generalizing xs r rest with
  | nil =>
    obtain rfl := List.eq_nil_of_length_eq_zero hlen
    obtain rfl : act.stack = r := hstack
    exact ⟨act.locals, .refl _ _, by simp, rfl, fun _ _ => rfl⟩
  | cons temp temps ih =>
    obtain ⟨x, xs, rfl⟩ := List.exists_cons_of_length_eq_add_one hlen
    rw [List.map_cons, List.nodup_cons] at hnodup
    have hat' : act.At (temps.reverse.map (fun temp => .local temp.1.storeOpcode temp.2) ++
        .local temp.1.storeOpcode temp.2 :: rest) := by simpa using hat
    obtain ⟨locals, hstored, hkept, hcount, hother⟩ := ih (r := x :: r) (Nat.succ.inj hlen) hat'
      (by simpa using hstack) (fun t ht => hlocals t (List.mem_cons_of_mem _ ht)) hnodup.2
    have hlt : temp.2.toNat < locals.length := hcount ▸ hlocals temp List.mem_cons_self
    -- The lowest value is on top now, and goes to the first local.
    have hlast := Activation.advances_next classes (m := mem)
      (a := { act with locals, stack := x :: r, pc := act.pc + temps.length })
      (hat'.skip rfl (by simp)) (Exec.Does.instr_store rfl hlt)
    refine ⟨locals.set temp.2.toNat x, hstored.trans hlast, fun y hy => ?_, ?_, fun index hindex => ?_⟩
    · rw [List.zip_cons_cons, List.mem_cons] at hy
      rcases hy with rfl | hy
      · exact List.getElem?_set_self hlt
      · have hne : temp.2.toNat ≠ y.1.2.toNat := fun heq =>
          hnodup.1 (heq ▸ List.mem_map_of_mem (List.of_mem_zip hy).1)
        rw [List.getElem?_set_ne hne]
        exact hkept y hy
    · rw [List.length_set, hcount]
    · rw [List.map_cons, List.mem_cons, not_or] at hindex
      rw [List.getElem?_set_ne (Ne.symm hindex.1)]
      exact hother index hindex.2

/-- Values come back from locals, the last one on top. -/
theorem advances_loads (classes : ClassTable) (mem : Memory)
    {temps : List (SlotKind × UInt16)} {xs : List Value} (hlen : xs.length = temps.length)
    (hat : act.At (temps.map (fun temp => .local temp.1.loadOpcode temp.2) ++ rest))
    (hlocals : ∀ y ∈ temps.zip xs, act.locals[y.1.2.toNat]? = some y.2) :
    Advances classes temps.length act mem (act.after (xs.reverse ++ act.stack) temps.length) mem := by
  induction temps generalizing xs act with
  | nil =>
    obtain rfl := List.eq_nil_of_length_eq_zero hlen
    exact .refl _ _
  | cons temp temps ih =>
    obtain ⟨x, xs, rfl⟩ := List.exists_cons_of_length_eq_add_one hlen
    rw [List.zip_cons_cons] at hlocals
    rw [List.map_cons, List.cons_append] at hat
    have hfirst : Advances classes 1 act mem (act.after (x :: act.stack) 1) mem :=
      Activation.advances_next classes hat (Exec.Does.instr_load (hlocals _ List.mem_cons_self))
    have hrest := ih (Nat.succ.inj hlen) (hat.next (x :: act.stack))
      fun y hy => hlocals y (List.mem_cons_of_mem _ hy)
    have hall := hfirst.trans hrest
    rw [Activation.after_after, Nat.add_comm] at hall
    rw [List.reverse_cons, List.append_assoc]
    exact hall

/-- **An object is allocated below arguments.** It takes as many steps as there are instructions, and
no local below `base` is touched. -/
theorem advances_allocationCode (mem : Memory) {type : String} {base : UInt16} {kinds : List SlotKind}
    {vs r : List Value} (hat : act.At (allocationCode type base kinds ++ rest))
    (hstack : act.stack = vs ++ r) (hlen : vs.length = kinds.length)
    (hfit : base.toNat + kinds.length ≤ 65536)
    (hroom : base.toNat + kinds.length ≤ act.locals.length) (hloaded : classes.contains type) :
    ∃ locals, Advances classes (allocationCode type base kinds).length act mem
        { act with
          locals
          stack := vs ++ (mem.heap.newObject type).2 :: (mem.heap.newObject type).2 :: r
          pc := act.pc + (allocationCode type base kinds).length }
        { mem with heap := (mem.heap.newObject type).1 } ∧
      locals.length = act.locals.length ∧
      ∀ index < base.toNat, locals[index]? = act.locals[index]? := by
  have hcount : vs.reverse.length = (temps base kinds).length := by
    rw [List.length_reverse, length_temps, hlen]
  rw [allocationCode_eq, List.append_assoc, List.append_assoc] at hat
  obtain ⟨locals, hstored, hkept, hsame, hother⟩ := advances_stores classes mem hcount
    hat (r := r) (by rw [List.reverse_reverse, hstack])
    (fun temp htemp => Nat.lt_of_lt_of_le (mem_temps hfit htemp).2 hroom)
    (by rw [map_temps hfit]; exact List.nodup_range')
  -- The object and its copy come where the arguments were.
  have hat₁ := hat.skip (b := { act with locals, stack := r, pc := act.pc + (temps base kinds).length })
    rfl (by simp)
  have hnew := Activation.advances_next classes (m := mem) hat₁ (Exec.Does.instr_new hloaded)
  have hat₂ := hat₁.next ((mem.heap.newObject type).2 :: r)
  have hdup := Activation.advances_next classes
    (m := { mem with heap := (mem.heap.newObject type).1 }) hat₂ (Exec.Does.instr_dup rfl)
  have hat₃ := hat₂.next ((mem.heap.newObject type).2 :: (mem.heap.newObject type).2 :: r)
  have hloaded := advances_loads classes { mem with heap := (mem.heap.newObject type).1 } hcount
    hat₃ hkept
  have hall := ((hstored.trans hnew).trans hdup).trans hloaded
  have hlength : (allocationCode type base kinds).length =
      (temps base kinds).length + 1 + 1 + (temps base kinds).length := by
    rw [allocationCode_eq]
    simp
    omega
  refine ⟨locals, ?_, hsame, fun index hindex => hother index fun hmem => ?_⟩
  · rw [List.reverse_reverse] at hall
    rw [hlength, ← Nat.add_assoc, ← Nat.add_assoc, ← Nat.add_assoc]
    exact hall
  · rw [map_temps hfit, List.mem_range'_1] at hmem
    omega

/-! ## Calls that allocate -/

/-- A constructor call to which the allocation of its object is put off. The analysis has found the
copy and the object right below the arguments, and both are left out. -/
structure Deferred (a : Analysed) (plan : MethodPlan) where
  index : Nat
  callee : MemberRef
  /-- What is known of the arguments, the last one first. -/
  args : List FlowValue
  type : String
  alloc : Nat
  /-- The instructions that put the object and the copy in their places. -/
  object : Nat
  copy : Nat
  /-- What is known of the operands below the object. -/
  below : List FlowValue
  call : a.method.code[index]? = some (.invoke .invokespecial callee)
  constructs : callee.name = Names.constructor
  arity : (MethodType.parse callee.desc).map MethodType.arity = .ok args.length
  stack : (a.frame? index).map Frame.stack =
    some (args ++ .fresh type alloc copy true :: .fresh type alloc object false :: below)
  omitted : object ∈ plan.omitted ∧ copy ∈ plan.omitted

namespace Deferred

open Layout (placeOf)

variable {H : Host} {a : Analysed} {plan : MethodPlan} {m : Method} {chunks : List (List Instr)}
  {account account' : Account} {code : List Instr}

/-- The code that makes up for the allocation. -/
def front (d : a.Deferred plan) : List Instr :=
  allocationCode d.type a.method.maxLocals (d.args.reverse.map fun v => v.slotKind?.getD .ref)

/-- The type of the constructor. -/
theorem exists_type (d : a.Deferred plan) :
    ∃ type, MethodType.parse d.callee.desc = .ok type ∧ type.arity = d.args.length := by
  have harity := d.arity
  rcases hparse : MethodType.parse d.callee.desc with cause | type
  · rw [hparse] at harity
    cases harity
  · rw [hparse] at harity
    exact ⟨type, rfl, Except.ok.inj harity⟩

/-- This is what is written in front of the call, and the account is raised to what it needs. -/
theorem written (d : a.Deferred plan)
    (h : Accounts (a.deferredAllocation plan.omitted d.index d.callee.desc) account code account') :
    code = d.front ∧ a.method.maxLocals.toNat + d.args.length ≤ 65536 ∧
      d.args.length ≤ account'.extraLocals := by
  obtain ⟨type, htype, harity⟩ := d.exists_type
  obtain ⟨f, hf, hstack⟩ := Option.map_eq_some_iff.1 d.stack
  have hdrop : f.stack.drop type.arity =
      .fresh d.type d.alloc d.copy true :: .fresh d.type d.alloc d.object false :: d.below := by
    rw [hstack, harity, List.drop_left]
  have hrebuilds : rebuilds plan.omitted (f.stack.drop type.arity) = true := by
    rw [hdrop]
    simp [rebuilds, d.omitted.1]
  rcases deferredAllocation_cases h with ⟨-, -, hnot⟩ |
    ⟨f', type', copy, name, alloc, insn, rest, hf', htype', hdrop', -, hroom, rfl, rfl⟩
  · rw [hnot f type hf htype] at hrebuilds
    cases hrebuilds
  · cases hf.symm.trans hf'
    cases htype.symm.trans htype'
    rw [hdrop] at hdrop'
    cases hdrop'
    rw [harity] at hroom ⊢
    have hkinds : argumentKinds f d.args.length =
        d.args.reverse.map fun v => v.slotKind?.getD .ref := by
      rw [argumentKinds, hstack, List.take_left]
    exact ⟨congrArg _ hkinds, hroom, Nat.le_max_right _ _⟩

/-- The call takes the object and the arguments off the operands. -/
theorem step_call (d : a.Deferred plan) {classes : ClassTable} {act : Activation} {mem : Memory}
    {o : Value} {vs r : List Value} (hat : act.At [.invoke .invokespecial d.callee])
    (hstack : act.stack = vs ++ o :: o :: r) (harity : vs.length = d.args.length) :
    act.step classes mem = (.calling { act with stack := o :: r }
      ⟨.invokespecial, d.callee, o :: vs.reverse⟩, mem) := by
  obtain ⟨type, htype, hargs⟩ := d.exists_type
  have hdoes : Exec.Does (Exec.instr classes (.invoke .invokespecial d.callee)) act mem
      (.call ⟨.invokespecial, d.callee, (vs ++ [o]).reverse⟩) (act.withStack (o :: r)) mem :=
    Exec.Does.instr_invoke htype (by simpa using hstack) (by simp [hargs, harity])
  rw [List.reverse_append] at hdoes
  exact Activation.step_of_call hat hdoes

/-- An execution is in front of that code in the transformed body `m`: an activation has the arguments
`vs` of the call on top of other operands `r`, and the class is loaded. -/
structure Reached (d : a.Deferred plan) (m : Method) (chunks : List (List Instr)) (e : Execution H)
    (act : Activation) (vs r : List Value) : Prop where
  focus : e.focus = .active act
  method : act.method = .load a.owner m
  place : act.pc + d.front.length = placeOf chunks d.index
  locals : act.locals.length = m.maxLocals.toNat
  stack : act.stack = vs ++ r
  arity : vs.length = d.args.length
  loaded : e.machine.classes.contains d.type

/-- An execution `e` has gone on to the constructor call in `e'`, with the new object `o` twice below
the arguments. Nothing else has been changed that the method can see. -/
structure Rebuilt (d : a.Deferred plan) (chunks : List (List Instr)) (e : Execution H)
    (act : Activation) (vs r : List Value) (e' : Execution H) (act' : Activation) (o : Value) :
    Prop where
  /-- It takes one step for each instruction. -/
  steps : Execution.step^[d.front.length] e = e'
  fresh : o = .object e.machine.memory.heap.objects.size
  execution : e' = e.continued act'
    { e.machine.memory with heap := (e.machine.memory.heap.newObject d.type).1 }
  method : act'.method = act.method
  place : act'.pc = placeOf chunks d.index
  stack : act'.stack = vs ++ o :: o :: r
  locals : ∀ index < a.method.maxLocals.toNat, act'.locals[index]? = act.locals[index]?
  count : act'.locals.length = act.locals.length
  /-- The next step asks for the call, with the object in front of the arguments. -/
  call : e'.step = e'.proceed
    (.calling { act' with stack := o :: r } ⟨.invokespecial, d.callee, o :: vs.reverse⟩)

/-- The code of a deferred call in the transformed body `m'` of the method `m`. -/
structure Placed (d : a.Deferred plan) (m m' : Method) (chunks : List (List Instr)) : Prop where
  written : Writes (a.deferredAllocation plan.omitted d.index d.callee.desc) d.front
  stands : ∃ start, start + d.front.length = placeOf chunks d.index ∧
    d.front ++ [.invoke .invokespecial d.callee] <+: m'.code.drop start
  locals : ∀ i ∈ d.front, ∀ index, i.localIndex? = some index →
    m.maxLocals.toNat ≤ index.toNat ∧ index.toNat < m'.maxLocals.toNat

end Deferred

end Analysed

namespace Transforms

open Analysed (Deferred)
open Analysed.Layout (placeOf)

variable {H : Host} {owner : String} {m m' : Method} {a : Analysed} {plan : MethodPlan}
  {chunks : List (List Instr)}

theorem points_ne_nil (h : Transforms owner m a plan m') (d : a.Deferred plan) :
    plan.points ≠ [] := by
  intro hnone
  obtain ⟨db, db', hplan⟩ := h.planned
  have homitted := (Analysed.plan_points hplan).2.2
  have hmem := d.omitted.1
  rw [homitted, hnone] at hmem
  cases hmem

theorem keeps_call (h : Transforms owner m a plan m') (d : a.Deferred plan) : a.Keeps plan d.index :=
  h.keeps d.call nofun nofun nofun

/-- Where the transformed body has the call just once, that is its place. -/
theorem placeOf_call (h : Transforms owner m a plan m') (hlayout : a.Layout plan m' chunks)
    (d : a.Deferred plan) {place : Nat} (honce : ∀ q < m'.code.length,
      m'.code[q]? = some (.invoke .invokespecial d.callee) → q = place) :
    placeOf chunks d.index = place := by
  have hcode := (hlayout.getElem?_placeOf (h.keeps_call d)).trans d.call
  exact honce _ (List.getElem?_eq_some_iff.1 hcode).1 hcode

/-- There is room for all arguments behind the locals of the method. -/
theorem room (h : Transforms owner m a plan m') (d : a.Deferred plan) :
    m.maxLocals.toNat + d.args.length ≤ m'.maxLocals.toNat := by
  obtain ⟨-, rfl, -⟩ := h.analyzed
  obtain ⟨first, rest, hpoints, account, account', htransformed⟩ :=
    h.exists_transformed (h.points_ne_nil d)
  have hkeeps := h.keeps_call d
  obtain ⟨account₁, front, account₂, hlead, hle⟩ := Analysed.room_of_transformed
    (x := (_, d.index)) hpoints htransformed d.call hkeeps.2.2 (by simpa using hkeeps.2.1)
  have hdeferred : Accounts (a.deferredAllocation plan.omitted d.index d.callee.desc) account₁ front
      account₂ := by
    simpa [Analysed.leadIn, d.constructs] using hlead
  obtain ⟨-, -, hargs⟩ := d.written hdeferred
  omega

theorem placed (h : Transforms owner m a plan m') (hlayout : a.Layout plan m' chunks)
    (d : a.Deferred plan) : d.Placed m m' chunks := by
  have hkeeps := h.keeps_call d
  have hroom := h.room d
  obtain ⟨-, rfl, -⟩ := h.analyzed
  obtain ⟨c, hc, hchunk, hat⟩ := hlayout.exists_chunk d.call
  obtain ⟨before, lead, rfl, hlead, -⟩ := Analysed.Layout.chunk_of_keeps hkeeps hchunk
  have hdeferred : Writes (a.deferredAllocation plan.omitted d.index d.callee.desc) lead := by
    rcases Analysed.leadIn_invoke hlead with ⟨-, hdeferred⟩ | ⟨hnot, -⟩
    · exact hdeferred
    · exact absurd ⟨rfl, d.constructs⟩ hnot
  obtain ⟨account, account', haccounts⟩ := hdeferred
  obtain ⟨rfl, hfit, -⟩ := d.written haccounts
  refine ⟨haccounts.writes, ⟨Analysed.Layout.startOf chunks d.index + before.length, ?_, ?_⟩,
    fun i hi index hindex => ?_⟩
  · have hplace := Analysed.Layout.startOf_add hc
    simp only [List.length_append, List.length_singleton] at hplace
    omega
  · obtain ⟨rest, hrest⟩ := hat
    refine ⟨rest, ?_⟩
    rw [← List.drop_drop, ← hrest]
    simp
  · have hbounds := Analysed.localIndex?_allocationCode (by simpa using hfit) hi hindex
    simp only [List.length_map, List.length_reverse] at hbounds
    omega

/-- From wherever an execution reaches the code of a deferred call, it comes to the call. -/
theorem rebuilt (h : Transforms owner m a plan m') (d : a.Deferred plan)
    (hplaced : d.Placed m m' chunks) {e : Execution H} {act : Activation} {vs r : List Value}
    (hreached : d.Reached m' chunks e act vs r) :
    ∃ e' act' o, d.Rebuilt chunks e act vs r e' act' o := by
  have hroom := h.room d
  obtain ⟨-, rfl, -⟩ := h.analyzed
  obtain ⟨account, account', haccounts⟩ := hplaced.written
  obtain ⟨-, hfit, -⟩ := d.written haccounts
  obtain ⟨start, hstart, hcode⟩ := hplaced.stands
  obtain rfl : start = act.pc := by
    have := hreached.place
    omega
  have hat : act.At (d.front ++ [.invoke .invokespecial d.callee]) := by
    unfold Activation.At
    rw [hreached.method]
    exact hcode
  have hlen : vs.length = (d.args.reverse.map fun v => v.slotKind?.getD .ref).length := by
    rw [List.length_map, List.length_reverse, hreached.arity]
  obtain ⟨locals, hadvances, hcount, hsame⟩ := Analysed.advances_allocationCode e.machine.memory
    hat hreached.stack hlen (by rwa [← hlen, hreached.arity])
    (by rw [← hlen, hreached.arity, hreached.locals]; exact hroom) hreached.loaded
  have hsteps := hadvances H e rfl
  rw [Execution.continued_self hreached.focus] at hsteps
  exact ⟨_, _, _, hsteps, rfl, rfl, rfl, hreached.place, rfl, hsame, hcount,
    Execution.step_of_active rfl (d.step_call (hat.skip rfl rfl) rfl hreached.arity)⟩

/-- **A constructor call whose allocation is put off gets its object.** What stands in front of it in
the transformed body uses only locals that have been added. Wherever an execution reaches that code,
it goes on to the call with a new object twice below the same arguments, and calls the constructor
on it. If that object is among the arguments of another such call later, whose own object has been
under construction all the while, that call gets another new object in the same way. -/
theorem rebuilds_calls (h : Transforms owner m a plan m') (d : a.Deferred plan) :
    ∃ chunks, a.Layout plan m' chunks ∧ d.Placed m m' chunks ∧
      ∀ (H : Host) (e : Execution H) act vs r, d.Reached m' chunks e act vs r → ∃ e' act' o,
        d.Rebuilt chunks e act vs r e' act' o ∧
        ∀ outer : a.Deferred plan, outer.Placed m m' chunks ∧
          ∀ count e₁ act₁ us ps r₁, Execution.step^[count] e' = e₁ →
            outer.Reached m' chunks e₁ act₁ (us ++ o :: ps) r₁ → ∃ e₁' act₁' o₁,
              outer.Rebuilt chunks e₁ act₁ (us ++ o :: ps) r₁ e₁' act₁' o₁ ∧ o₁ ≠ o := by
  obtain ⟨chunks, hlayout⟩ := h.layout (h.points_ne_nil d)
  refine ⟨chunks, hlayout, h.placed hlayout d, fun H e act vs r hreached => ?_⟩
  obtain ⟨e', act', o, hrebuilt⟩ := h.rebuilt d (h.placed hlayout d) hreached
  refine ⟨e', act', o, hrebuilt, fun outer => ⟨h.placed hlayout outer, ?_⟩⟩
  intro count e₁ act₁ us ps r₁ hlater hreached₁
  obtain ⟨e₁', act₁', o₁, hrebuilt₁⟩ := h.rebuilt outer (h.placed hlayout outer) hreached₁
  refine ⟨e₁', act₁', o₁, hrebuilt₁, ?_⟩
  -- The first object is still there, so the second one has another identity.
  have hold : e.machine.memory.heap.objects.size < e₁.machine.memory.heap.objects.size := by
    have hextends := (e'.iterate_extends count).2
    rw [hlater, hrebuilt.execution] at hextends
    refine (hextends _ ?_).1
    show _ < (e.machine.memory.heap.objects.push _).size
    rw [Array.size_push]
    exact Nat.lt_succ_self _
  rw [hrebuilt.fresh, hrebuilt₁.fresh]
  exact fun heq => Nat.ne_of_gt hold (Value.object.inj heq)

/-- Makes a pair of a number, of a box for another number and of a third number, and pauses while
both the pair and the box are under construction. -/
def nesting : Method :=
  { name := "nest", desc := "()Lapp/Pair;", access := .static
    code := [.type .new "app/Pair", .simple .dup, .const (.int 3), .type .new "app/Box", .simple .dup,
      .const (.int 4), .invoke .invokestatic ⟨Names.coroutine, Names.yieldName, Names.yieldDesc⟩,
      .invoke .invokespecial ⟨"app/Box", Names.constructor, "(I)V"⟩, .const (.int 5),
      .invoke .invokespecial ⟨"app/Pair", Names.constructor, "(ILapp/Box;I)V"⟩, .simple .areturn] }

/-- What the analysis finds in it. -/
def nestingAnalysed : Analysed :=
  let pair := [FlowValue.fresh "app/Pair" 0 1 true, .fresh "app/Pair" 0 0 false]
  let box := [FlowValue.fresh "app/Box" 3 4 true, .fresh "app/Box" 3 3 false]
  ⟨"app/A", nesting, #[some ⟨[], []⟩, some ⟨[], pair.drop 1⟩, some ⟨[], pair⟩,
    some ⟨[], .int :: pair⟩, some ⟨[], box.drop 1 ++ .int :: pair⟩, some ⟨[], box ++ .int :: pair⟩,
    some ⟨[], .int :: box ++ .int :: pair⟩, some ⟨[], .int :: box ++ .int :: pair⟩,
    some ⟨[], .reference "app/Box" :: .int :: pair⟩,
    some ⟨[], .int :: .reference "app/Box" :: .int :: pair⟩, some ⟨[], [.reference "app/Pair"]⟩]⟩

/-- Both allocations and both copies are left out. -/
def nestingPlan : MethodPlan :=
  { points := [{
      index := 6, isYield := true
      stack := [.omitted, .omitted, .saved .int 0, .omitted, .omitted, .saved .int 1]
      locals := [], slots := 2 }]
    omitted := [0, 1, 3, 4] }

/-- What becomes of it: the box is allocated first, and then the pair. -/
def nestingBody : Method :=
  { nesting with
    maxLocals := 3
    code := [.frame .entry, .switch 1 ⟨0⟩ [⟨4⟩], .label ⟨0⟩, .const (.int 3), .const (.int 4),
      .label ⟨5⟩, .frame (.reserve 1 2), .frame (.save .int 1), .frame (.save .int 0),
      .frame .suspend, .label ⟨4⟩, .frame (.restore .int 0), .frame (.restore .int 1), .label ⟨6⟩,
      .local .istore 0, .type .new "app/Box", .simple .dup, .local .iload 0,
      .invoke .invokespecial ⟨"app/Box", Names.constructor, "(I)V"⟩, .const (.int 5),
      .local .istore 2, .local .astore 1, .local .istore 0, .type .new "app/Pair", .simple .dup,
      .local .iload 0, .local .aload 1, .local .iload 2,
      .invoke .invokespecial ⟨"app/Pair", Names.constructor, "(ILapp/Box;I)V"⟩, .frame .release,
      .simple .areturn, .label ⟨1⟩, .label ⟨3⟩, .frame .release, .label ⟨2⟩, .simple .athrow]
    handlers := [⟨⟨0⟩, ⟨1⟩, ⟨2⟩, some Names.suspendExecution⟩, ⟨⟨0⟩, ⟨1⟩, ⟨3⟩, none⟩] }

theorem transforms_nesting :
    Transforms "app/A" nesting nestingAnalysed nestingPlan nestingBody :=
  .of_database (.new {} .empty) (by cbv) rfl (by decide +kernel)

/-- The call that makes the box. -/
def boxCall : nestingAnalysed.Deferred nestingPlan :=
  { index := 7
    callee := ⟨"app/Box", Names.constructor, "(I)V"⟩
    args := [.int]
    type := "app/Box"
    alloc := 3
    object := 3
    copy := 4
    below := [.int, .fresh "app/Pair" 0 1 true, .fresh "app/Pair" 0 0 false]
    call := rfl
    constructs := rfl
    arity := by decide +kernel
    stack := rfl
    omitted := by decide }

/-- The call that makes the pair. -/
def pairCall : nestingAnalysed.Deferred nestingPlan :=
  { index := 9
    callee := ⟨"app/Pair", Names.constructor, "(ILapp/Box;I)V"⟩
    args := [.int, .reference "app/Box", .int]
    type := "app/Pair"
    alloc := 0
    object := 0
    copy := 1
    below := []
    call := rfl
    constructs := rfl
    arity := by decide +kernel
    stack := rfl
    omitted := by decide }

/-- Both classes are loaded, and a box does nothing with its number. -/
def nestingClasses : ClassTable :=
  { entries := [("app/Pair", ⟨none, [], []⟩), ("app/Box", ⟨none, [], [.load "app/Box"
      { name := Names.constructor, desc := "(I)V", maxLocals := 2, code := [.simple .ret] }]⟩)] }

/-- The transformed method behind its pause, with the numbers 3 and 4 restored. -/
def nestingStart : Execution .empty :=
  { machine := { host := { own := () }, classes := nestingClasses }
    focus := .active { method := .load "app/A" nestingBody, locals := [.null, .null, .null]
                       stack := [.int 4, .int 3], pc := 14 } }

/-- The box gets its object first. Five steps later it is an argument of the call that makes the pair,
which gets another object. -/
theorem rebuilds_calls_nesting : ∃ e₁ act₁,
    Execution.step^[8] (Execution.step^[5] (Execution.step^[4] nestingStart)) = e₁ ∧
      e₁.focus = .active act₁ ∧ act₁.pc = 28 ∧
      act₁.stack = [.int 5, .object 1, .int 3, .object 2, .object 2] := by
  obtain ⟨chunks, hlayout, -, hgoes⟩ := transforms_nesting.rebuilds_calls boxCall
  have hbox : placeOf chunks 7 = 18 :=
    transforms_nesting.placeOf_call hlayout boxCall (by decide +kernel)
  have hpair : placeOf chunks 9 = 28 :=
    transforms_nesting.placeOf_call hlayout pairCall (by decide +kernel)
  obtain ⟨e', act', o, hinner, houter⟩ := hgoes .empty nestingStart _ [.int 4] [.int 3]
    ⟨rfl, rfl, hbox.symm, rfl, rfl, rfl, rfl⟩
  obtain rfl : e' = Execution.step^[4] nestingStart := hinner.steps.symm
  obtain rfl : o = .object 1 := hinner.fresh
  -- The constructor is called and returns, and the last argument is pushed.
  have hreached : pairCall.Reached nestingBody chunks
      (Execution.step^[5] (Execution.step^[4] nestingStart))
      { method := .load "app/A" nestingBody, locals := [.int 4, .null, .null]
        stack := [.int 5, .object 1, .int 3], pc := 20 }
      ([.int 5] ++ .object 1 :: [.int 3]) [] :=
    ⟨by cbv, rfl, hpair.symm, rfl, rfl, rfl, by decide +kernel⟩
  obtain ⟨e₁, act₁, o₁, hrebuilt, -⟩ := (houter pairCall).2 5 _ _ _ _ _ rfl hreached
  have hsize : (Execution.step^[5] (Execution.step^[4] nestingStart)).machine.memory.heap.objects.size =
      2 := by decide +kernel
  refine ⟨e₁, act₁, hrebuilt.steps, ?_, hrebuilt.place.trans hpair, ?_⟩
  · rw [hrebuilt.execution]
    rfl
  · rw [hrebuilt.stack, hrebuilt.fresh, hsize]
    rfl

end Transforms

end Resumable
