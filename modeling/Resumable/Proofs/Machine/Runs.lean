import Resumable.Proofs.Machine.Operands

/-!
# Straight-line code

Inserted code is straight-line code: it keeps values of the activation in the frame of the active
coroutine and takes them out again. There is one lemma for each instruction that it is made of, and
`Activation.Runs` puts steps together, so that code is followed from where the activation stands
(`Activation.At`).

Of the memory, such code changes nothing but the frames of the active coroutine, so what it does to
the memory is told by a `FrameStack` alone (`Memory.withStack`).
-/

namespace Resumable

/-! ## The stack of the active coroutine -/

namespace Memory

variable {m : Memory} {s s' s'' : FrameStack}

/-- The frames of the active coroutine. -/
def stack? (m : Memory) : Option FrameStack :=
  m.coroutines.active.bind fun k => m.coroutines.all[k]?.map Coroutine.stack

/-- The memory with other frames in the active coroutine. -/
def withStack (m : Memory) (s : FrameStack) : Memory :=
  match m.coroutines.active with
  | none => m
  | some k =>
    match m.coroutines.all[k]? with
    | none => m
    | some c =>
      { m with coroutines :=
        { m.coroutines with all := m.coroutines.all.setIfInBounds k { c with stack := s } } }

theorem stack?_eq_some (h : m.stack? = some s) : ∃ k c, m.coroutines.active = some k ∧
    m.coroutines.all[k]? = some c ∧ c.stack = s := by
  unfold stack? at h
  rcases hactive : m.coroutines.active with _ | k
  · rw [hactive] at h
    cases h
  · rw [hactive] at h
    rcases hall : m.coroutines.all[k]? with _ | c
    · simp [hall] at h
    · simp only [Option.bind_some, hall, Option.map_some, Option.some.injEq] at h
      exact ⟨k, c, rfl, hall, h⟩

theorem withStack_eq {k : Nat} {c : Coroutine} (hactive : m.coroutines.active = some k)
    (hall : m.coroutines.all[k]? = some c) : m.withStack s = { m with coroutines :=
      { m.coroutines with all := m.coroutines.all.setIfInBounds k { c with stack := s } } } := by
  unfold withStack
  rw [hactive]
  dsimp only
  rw [hall]

theorem getElem?_withStack {k : Nat} {c : Coroutine}
    (hall : m.coroutines.all[k]? = some c) :
    (m.coroutines.all.setIfInBounds k { c with stack := s })[k]? =
      some { c with stack := s } :=
  Array.getElem?_setIfInBounds_self_of_lt (Array.getElem?_eq_some_iff.1 hall).1

@[simp]
theorem stack?_withStack (h : m.stack? = some s) : (m.withStack s').stack? = some s' := by
  obtain ⟨k, c, hactive, hall, -⟩ := stack?_eq_some h
  rw [withStack_eq hactive hall]
  simp [stack?, hactive, getElem?_withStack hall]

@[simp]
theorem heap_withStack : (m.withStack s).heap = m.heap := by
  unfold withStack
  split
  · rfl
  · split <;> rfl

theorem withStack_withStack (h : m.stack? = some s) :
    (m.withStack s').withStack s'' = m.withStack s'' := by
  obtain ⟨k, c, hactive, hall, -⟩ := stack?_eq_some h
  have hall' := @getElem?_withStack m s' k c hall
  rw [withStack_eq hactive hall, withStack_eq hactive hall]
  simp [withStack, hactive, hall']

theorem withStack_self (h : m.stack? = some s) : m.withStack s = m := by
  obtain ⟨k, c, hactive, hall, rfl⟩ := stack?_eq_some h
  have hsame : m.coroutines.all.setIfInBounds k c = m.coroutines.all := by
    apply Array.ext_getElem?
    intro i
    have hlt := (Array.getElem?_eq_some_iff.1 hall).1
    rw [Array.getElem?_setIfInBounds]
    split <;> simp_all
  rw [withStack_eq hactive hall]
  show ({ m with coroutines := { m.coroutines with
    all := m.coroutines.all.setIfInBounds k c } } : Memory) = m
  rw [hsame]

theorem onStack_of_ok {α : Type} {x : α} {f : FrameStack → Except RunError (α × FrameStack)}
    (h : m.stack? = some s) (hf : f s = .ok (x, s')) :
    m.coroutines.onStack f = .ok (x, (m.withStack s').coroutines) := by
  obtain ⟨k, c, hactive, hall, rfl⟩ := stack?_eq_some h
  rw [withStack_eq hactive hall]
  simp [Coroutines.onStack, Coroutines.onActive, hactive, hall, hf, bind, Except.bind, pure,
    Except.pure]

end Memory

/-! ## Instructions that succeed -/

namespace Exec.Does

variable {α β : Type} {classes : ClassTable} {a a' : Activation} {m m' : Memory}
  {s s' : FrameStack} {v : Value} {rest : List Value} {kind : SlotKind} {slot : UInt32}

theorem seq {x : Exec α} {k : α → Exec β} {r : α} {r' : β} {a₁ : Activation} {m₁ : Memory}
    (hx : Does x a m r a₁ m₁) (hk : Does (k r) a₁ m₁ r' a' m') : Does (x >>= k) a m r' a' m' := by
  unfold Does
  rw [run_bind_of_ok hx]
  exact hk

theorem pop_of_stack (h : a.stack = v :: rest) : Does Exec.pop a m v (a.withStack rest) m := by
  obtain ⟨method, locals, stack, pc⟩ := a
  obtain rfl : stack = v :: rest := h
  rfl

theorem local?_of_locals {index : UInt16} (h : a.locals[index.toNat]? = some v) :
    Does (Exec.local? index) a m v a m := by
  have hget : Does (get : Exec Activation) a m a a m := rfl
  refine hget.seq ?_
  rw [h]
  rfl

theorem onStack_of_ok {x : α} {f : FrameStack → Except RunError (α × FrameStack)}
    (h : m.stack? = some s) (hf : f s = .ok (x, s')) :
    Does (Exec.onStack f) a m x a (m.withStack s') := by
  have hget : Does (getThe Memory : Exec Memory) a m m a m := rfl
  refine hget.seq ?_
  rw [Memory.onStack_of_ok h hf]
  obtain ⟨k, c, hactive, hall, -⟩ := Memory.stack?_eq_some h
  rw [Memory.withStack_eq hactive hall]
  rfl

/-! ### Operands and locals -/

theorem instr_label {l : Label} : Does (Exec.instr classes (.label l)) a m .next a m := rfl

theorem instr_aconstNull : Does (Exec.instr classes (.simple .aconstNull)) a m .next
    (a.withStack (.null :: a.stack)) m := rfl

theorem instr_pop (h : a.stack = v :: rest) :
    Does (Exec.instr classes (.simple .pop)) a m .next (a.withStack rest) m :=
  (pop_of_stack h).seq rfl

theorem instr_dup (h : a.stack = v :: rest) :
    Does (Exec.instr classes (.simple .dup)) a m .next (a.withStack (v :: v :: rest)) m := by
  have hpeek : Does Exec.peek a m v a m := by
    obtain ⟨method, locals, stack, pc⟩ := a
    obtain rfl : stack = v :: rest := h
    rfl
  refine hpeek.seq ?_
  rw [← h]
  rfl

/-- An object of a class that is loaded is allocated. -/
theorem instr_new {type : String} (h : classes.contains type) :
    Does (Exec.instr classes (.type .new type)) a m .next
      (a.withStack ((m.heap.newObject type).2 :: a.stack))
      { m with heap := (m.heap.newObject type).1 } := by
  have hnew : Exec.onType classes .new type = Exec.pushNewObject type := by
    simp [Exec.onType, h]
  have hpush : Does (Exec.onType classes .new type) a m ()
      (a.withStack ((m.heap.newObject type).2 :: a.stack))
      { m with heap := (m.heap.newObject type).1 } := by
    rw [hnew]
    rfl
  exact hpush.seq rfl

/-- A call takes its arguments off the operands. -/
theorem instr_invoke {op : Opcode} {member : MemberRef} {type : MethodType} {args : List Value}
    (htype : MethodType.parse member.desc = .ok type) (h : a.stack = args ++ rest)
    (hlen : args.length = type.arity + if op = .invokestatic then 0 else 1) :
    Does (Exec.instr classes (.invoke op member)) a m (.call ⟨op, member, args.reverse⟩)
      (a.withStack rest) m := by
  have hrequest : Does (Exec.request op member) a m ⟨op, member, args.reverse⟩ (a.withStack rest)
      m := by
    obtain ⟨method, locals, stack, pc⟩ := a
    obtain rfl : stack = args ++ rest := h
    have henough : ¬ (args ++ rest).length < args.length := by
      rw [List.length_append]
      omega
    unfold Exec.request Exec.methodType
    rw [htype]
    have hget : Does (get : Exec Activation) ⟨method, locals, args ++ rest, pc⟩ m
      ⟨method, locals, args ++ rest, pc⟩ ⟨method, locals, args ++ rest, pc⟩ m := rfl
    refine hget.seq ?_
    dsimp only
    rw [← hlen, if_neg henough, List.drop_left, List.take_left]
    rfl
  exact hrequest.seq rfl

theorem instr_load {index : UInt16} (h : a.locals[index.toNat]? = some v) :
    Does (Exec.instr classes (.local kind.loadOpcode index)) a m .next
      (a.withStack (v :: a.stack)) m := by
  have hload : Exec.onLocal kind.loadOpcode index = (do Exec.push (← Exec.local? index)) := by
    cases kind <;> rfl
  have hpush : Does (Exec.onLocal kind.loadOpcode index) a m () (a.withStack (v :: a.stack)) m := by
    rw [hload]
    exact (local?_of_locals h).seq rfl
  exact hpush.seq rfl

theorem instr_store {index : UInt16} (h : a.stack = v :: rest)
    (hindex : index.toNat < a.locals.length) :
    Does (Exec.instr classes (.local kind.storeOpcode index)) a m .next
      { a with locals := a.locals.set index.toNat v, stack := rest } m := by
  have hstore : Exec.onLocal kind.storeOpcode index =
      (do let v ← Exec.pop; Exec.setLocal index v) := by
    cases kind <;> rfl
  have hlocal : (a.withStack rest).locals[index.toNat]? = some a.locals[index.toNat] :=
    List.getElem?_eq_getElem hindex
  have hset : Does (Exec.onLocal kind.storeOpcode index) a m ()
      { a with locals := a.locals.set index.toNat v, stack := rest } m := by
    rw [hstore]
    exact (pop_of_stack h).seq ((local?_of_locals hlocal).seq rfl)
  exact hset.seq rfl

/-! ### Jumps -/

theorem toInt_toInt32 {n : UInt32} (h : n.toNat < 2147483648) : n.toInt32.toInt = n.toNat :=
  BitVec.toInt_eq_toNat_of_lt (by show 2 * n.toNat < 4294967296; omega)

/-- A switch goes to the label that the key selects. -/
theorem instr_switch_to {low n : Int32} {default l : Label} {targets : List Label} {pc : Nat}
    (h : a.stack = .int n :: rest)
    (hl : (if n.toInt - low.toInt < 0 then default
      else targets[(n.toInt - low.toInt).toNat]?.getD default) = l)
    (hpc : labelPosition? a.method.method.code l = some pc) :
    Does (Exec.instr classes (.switch low default targets)) a m (.goto pc) (a.withStack rest) m := by
  have hpop : Does Exec.popInt a m n (a.withStack rest) m := (pop_of_stack h).seq rfl
  refine hpop.seq ?_
  dsimp only
  rw [hl]
  have hget : Does (get : Exec Activation) (a.withStack rest) m (a.withStack rest)
      (a.withStack rest) m := rfl
  refine hget.seq ?_
  rw [LoadedMethod.position, show labelPosition? (a.withStack rest).method.method.code l = _ from hpc]
  rfl

theorem instr_switch {low n : Int32} {default l : Label} {targets : List Label} {k pc : Nat}
    (h : a.stack = .int n :: rest) (hk : n.toInt - low.toInt = k) (hl : targets[k]? = some l)
    (hpc : labelPosition? a.method.method.code l = some pc) :
    Does (Exec.instr classes (.switch low default targets)) a m (.goto pc) (a.withStack rest) m := by
  refine instr_switch_to h ?_ hpc
  rw [hk, if_neg (by omega), Int.toNat_natCast, hl]
  rfl

/-! ### Frames -/

theorem instr_frame {op : FrameOp} (h : Does (Exec.frame op) a m () a' m') :
    Does (Exec.instr classes (.frame op)) a m .next a' m' :=
  h.seq rfl

theorem instr_entry {index : UInt32} (h : m.stack? = some s) (hs : s.enter = (index, s'))
    (hindex : index.toNat < 2147483648) :
    Does (Exec.instr classes (.frame .entry)) a m .next
      (a.withStack (.int index.toInt32 :: a.stack)) (m.withStack s') := by
  refine instr_frame ((onStack_of_ok h (by rw [hs])).seq ?_)
  have hsmall : ¬ Nat.pow 2 31 ≤ index.toNat := Nat.not_le_of_lt hindex
  dsimp only
  rw [if_neg hsmall]
  rfl

theorem instr_reserve {entry slots : UInt32} (h : m.stack? = some s)
    (hs : s.reserve entry slots.toUInt64 = .ok s') :
    Does (Exec.instr classes (.frame (.reserve entry slots))) a m .next a (m.withStack s') :=
  instr_frame (onStack_of_ok h (by rw [hs]; rfl))

theorem instr_save (h : m.stack? = some s) (ha : a.stack = v :: rest)
    (hs : s.save kind slot v = .ok s') :
    Does (Exec.instr classes (.frame (.save kind slot))) a m .next (a.withStack rest)
      (m.withStack s') :=
  instr_frame ((pop_of_stack ha).seq (onStack_of_ok h (by rw [hs]; rfl)))

theorem instr_restore (h : m.stack? = some s) (hs : s.restore kind slot = .ok v) :
    Does (Exec.instr classes (.frame (.restore kind slot))) a m .next
      (a.withStack (v :: a.stack)) m := by
  have hdoes : Does (Exec.onStack fun s => return (← s.restore kind slot, s)) a m v a
      (m.withStack s) := onStack_of_ok h (by rw [hs]; rfl)
  rw [Memory.withStack_self h] at hdoes
  exact instr_frame (hdoes.seq rfl)

end Exec.Does

/-! ## Following code -/

namespace Activation

/-- The code begins so from where the activation stands on. -/
def At (a : Activation) (code : List Instr) : Prop := code <+: a.method.method.code.drop a.pc

/-- The activation some instructions further on, with other operands. -/
def after (a : Activation) (stack : List Value) (count : Nat) : Activation :=
  { a with stack, pc := a.pc + count }

/-- Steps lead from the first activation to the second, and the memory from the first to the second. -/
inductive Runs (classes : ClassTable) : Activation → Memory → Activation → Memory → Prop where
  | refl (a : Activation) (m : Memory) : Runs classes a m a m
  | step {a b c : Activation} {m m₁ m₂ : Memory} (h : a.step classes m = (.going b, m₁))
    (hrest : Runs classes b m₁ c m₂) : Runs classes a m c m₂

variable {classes : ClassTable} {a a' b c : Activation} {m m' m₁ m₂ : Memory} {i : Instr}
  {code rest : List Instr}

theorem Runs.trans (h : Runs classes a m b m₁) (h' : Runs classes b m₁ c m₂) :
    Runs classes a m c m₂ := by
  induction h with
  | refl => exact h'
  | step hstep _ ih => exact .step hstep (ih h')

theorem At.append (h : a.At (code ++ rest)) : a.At code :=
  List.IsPrefix.trans (List.prefix_append _ _) h

theorem At.getElem? (h : a.At (i :: rest)) : a.method.method.code[a.pc]? = some i := by
  obtain ⟨after, hafter⟩ := h
  have hget : (a.method.method.code.drop a.pc)[0]? = a.method.method.code[a.pc]? := by simp
  rw [← hafter] at hget
  exact hget.symm

theorem after_after (a : Activation) (stack stack' : List Value) (count count' : Nat) :
    (a.after stack count).after stack' count' = a.after stack' (count + count') := by
  simp [after, Nat.add_assoc]

/-- Behind some code comes the rest. -/
theorem At.skip (h : a.At (code ++ rest)) (hmethod : b.method = a.method)
    (hpc : b.pc = a.pc + code.length) : b.At rest := by
  obtain ⟨after, hafter⟩ := h
  refine ⟨after, ?_⟩
  rw [hmethod, hpc, ← List.drop_drop, ← hafter]
  simp

theorem At.after (h : a.At (code ++ rest)) (stack : List Value) :
    (a.after stack code.length).At rest :=
  h.skip rfl rfl

theorem At.next (h : a.At (i :: rest)) (stack : List Value) : (a.after stack 1).At rest :=
  At.after (show a.At ([i] ++ rest) from h) stack

/-- An instruction that succeeds leads to the place behind it. -/
theorem step_of_next (h : a.At (i :: rest))
    (hdoes : Exec.Does (Exec.instr classes i) a m .next a' m') :
    a.step classes m = (.going { a' with pc := a.pc + 1 }, m') := by
  unfold step
  rw [h.getElem?]
  dsimp only
  rw [show ((Exec.instr classes i).run a).run m = _ from hdoes]

theorem runs_next (h : a.At (i :: rest))
    (hdoes : Exec.Does (Exec.instr classes i) a m .next a' m') :
    Runs classes a m { a' with pc := a.pc + 1 } m' :=
  .step (step_of_next h hdoes) (.refl _ _)

/-- An instruction that jumps leads to its target. -/
theorem step_of_goto {pc : Nat} (h : a.At (i :: rest))
    (hdoes : Exec.Does (Exec.instr classes i) a m (.goto pc) a' m') :
    a.step classes m = (.going { a' with pc }, m') := by
  unfold step
  rw [h.getElem?]
  dsimp only
  rw [show ((Exec.instr classes i).run a).run m = _ from hdoes]

/-- A call is asked for. -/
theorem step_of_call {request : Call} (h : a.At (i :: rest))
    (hdoes : Exec.Does (Exec.instr classes i) a m (.call request) a' m') :
    a.step classes m = (.calling a' request, m') := by
  unfold step
  rw [h.getElem?]
  dsimp only
  rw [show ((Exec.instr classes i).run a).run m = _ from hdoes]

/-- An instruction that fails raises its error. -/
theorem step_of_error {e : RunError} (h : a.At (i :: rest))
    (hfail : ((Exec.instr classes i).run a).run m = (.error e, m')) :
    a.step classes m = a.raise classes e m' := by
  unfold step
  rw [h.getElem?]
  dsimp only
  rw [hfail]

/-- An exception goes to the first handler that takes it. -/
theorem raise_of_handler {e : RunError} {heap : Heap} {exception : Value} {handler : LoadedHandler}
    (he : e.exception? m.heap = some (heap, exception))
    (hhandler : classes.handlerFor? heap a.method a.pc exception = some handler) :
    a.raise classes e m =
      (.going { a with stack := [exception], pc := handler.target }, { m with heap }) := by
  unfold raise
  rw [he]
  dsimp only
  rw [hhandler]

/-- Without a handler it ends the activation. -/
theorem raise_of_unhandled {e : RunError} {heap : Heap} {exception : Value}
    (he : e.exception? m.heap = some (heap, exception))
    (hnone : classes.handlerFor? heap a.method a.pc exception = none) :
    a.raise classes e m = (.done (.error (.thrown exception)), { m with heap }) := by
  unfold raise
  rw [he]
  dsimp only
  rw [hnone]

/-- An instruction that only works on operands and memory. -/
theorem runs_after {stack : List Value} (h : a.At (i :: rest))
    (hdoes : Exec.Does (Exec.instr classes i) a m .next (a.withStack stack) m') :
    Runs classes a m (a.after stack 1) m' :=
  runs_next h hdoes

end Activation

end Resumable
