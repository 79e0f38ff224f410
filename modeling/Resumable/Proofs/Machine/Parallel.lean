import Resumable.Proofs.Machine.Effects
import Resumable.Proofs.Machine.HostCalls

/-!
# Activations side by side

Two activations that have the same operands do the same when they execute the same instruction, even
if their methods, their places and the coroutines differ: they fail with the same error, or go on with
the same operands (`Exec.alike_instr`). What an instruction needs besides operands is listed in
`Instr.Beside`: the locals that it reads, and where its labels lead.

From classes a machine only wants to know which there are and what is an instance of what
(`ClassTable.Agrees`).
-/

namespace Resumable

/-- The instruction reads the local with this number. -/
def Instr.Reads : Instr → Nat → Prop
  | .local op slot, index =>
    slot.toNat = index ∧ op ∈ [.iload, .lload, .fload, .dload, .aload]
  | .inc slot _, index => slot.toNat = index
  | _, _ => False

/-- Both tables have the same classes and the same instances of them. -/
structure ClassTable.Agrees (t t' : ClassTable) : Prop where
  contains : ∀ name, t'.contains name = t.contains name
  isInstance : ∀ h v type, t'.isInstance h v type = t.isInstance h v type

theorem ClassTable.Agrees.handlerFor? {t t' : ClassTable} (h : t.Agrees t') (heap : Heap)
    (m : LoadedMethod) (pc : Nat) (v : Value) :
    t'.handlerFor? heap m pc v = t.handlerFor? heap m pc v := by
  unfold ClassTable.handlerFor?
  simp only [show t'.isInstance heap v = t.isInstance heap v from funext fun type =>
    h.isInstance heap v type]

/-- Where the move leads if places have been moved. -/
def Move.relocate (place : Nat → Nat) : Move → Move
  | .goto pc => .goto (place pc)
  | move => move

/-- Pairs of activations in this relation have the same operands, whatever happens to these, and all
that the instruction needs besides. -/
structure Instr.Beside (i : Instr) (place : Nat → Nat) (R : Activation → Activation → Prop) :
    Prop where
  same : ∀ {a b}, R a b → b.stack = a.stack
  stack : ∀ {a b} stack, R a b → R { a with stack } { b with stack }
  length : ∀ {a b}, R a b → b.locals.length = a.locals.length
  reads : ∀ {a b slot}, i.Reads slot → R a b → b.locals[slot]? = a.locals[slot]?
  writes : ∀ {a b slot} v, i.Assigns slot → R a b →
    R { a with locals := a.locals.set slot v } { b with locals := b.locals.set slot v }
  labels : ∀ {a b l}, l ∈ i.branchTargets → R a b →
    b.method.position l = (a.method.position l).map place

namespace Exec

variable {α β : Type} {R : Activation → Activation → Prop} {Q : α → α → Prop}

/-- On activations in the relation `R` and memories that differ in nothing but their coroutines, both
computations fail alike, or their results are in the relation `Q` and the activations again in `R`. -/
def Alike (R : Activation → Activation → Prop) (Q : α → α → Prop) (x y : Exec α) : Prop :=
  ∀ a b m coroutines, R a b → match (x.run a).run m with
    | (.ok (r, a'), m') => ∃ r' b',
      Does y b (m.withCoroutines coroutines) r' b' (m'.withCoroutines coroutines) ∧ Q r r' ∧ R a' b'
    | (.error e, m') => (y.run b).run (m.withCoroutines coroutines) =
      (.error e, m'.withCoroutines coroutines)

namespace Alike

theorem of_ok {x y : Exec α} (h : Alike R Q x y) {a b a' : Activation} {m m' : Memory} {r : α}
    (hx : Does x a m r a' m') (hR : R a b) (coroutines : Coroutines) : ∃ r' b',
      Does y b (m.withCoroutines coroutines) r' b' (m'.withCoroutines coroutines) ∧ Q r r' ∧
        R a' b' := by
  have := h a b m coroutines hR
  rwa [hx] at this

theorem of_error {x y : Exec α} (h : Alike R Q x y) {a b : Activation} {m m' : Memory}
    {e : RunError} (hx : (x.run a).run m = (.error e, m')) (hR : R a b) (coroutines : Coroutines) :
    (y.run b).run (m.withCoroutines coroutines) = (.error e, m'.withCoroutines coroutines) := by
  have := h a b m coroutines hR
  rwa [hx] at this

theorem pure {r r' : α} (h : Q r r') : Alike R Q (Pure.pure r) (Pure.pure r') :=
  fun _ b _ _ hR => ⟨r', b, rfl, h, hR⟩

theorem throw (e : RunError) :
    Alike R Q (MonadExcept.throw e : Exec α) (MonadExcept.throw e) := fun _ _ _ _ _ => rfl

theorem bind {Q' : β → β → Prop} {x y : Exec α} {k k' : α → Exec β} (h : Alike R Q x y)
    (hk : ∀ r r', Q r r' → Alike R Q' (k r) (k' r')) : Alike R Q' (x >>= k) (y >>= k') := by
  intro a b m coroutines hR
  rcases hx : (x.run a).run m with ⟨e | ⟨r, a₁⟩, m₁⟩
  · rw [run_bind_of_error hx]
    exact run_bind_of_error (h.of_error hx hR coroutines)
  · rw [run_bind_of_ok hx]
    obtain ⟨r', b₁, hy, hQ, hR₁⟩ := h.of_ok hx hR coroutines
    have hrest := hk r r' hQ a₁ b₁ m₁ coroutines hR₁
    unfold Does
    rw [run_bind_of_ok hy]
    exact hrest

/-- The rest goes on with the same result. -/
theorem bind' {Q' : β → β → Prop} {x y : Exec α} {k k' : α → Exec β} (h : Alike R Eq x y)
    (hk : ∀ r, Alike R Q' (k r) (k' r)) : Alike R Q' (x >>= k) (y >>= k') :=
  h.bind fun r _ heq => heq ▸ hk r

theorem getMemory : Alike R (fun m m' => m'.heap = m.heap ∧ m'.statics = m.statics)
    (getThe Memory : Exec Memory) (getThe Memory) :=
  fun _ b m coroutines hR => ⟨m.withCoroutines coroutines, b, rfl, ⟨rfl, rfl⟩, hR⟩

theorem getActivation : Alike R R (get : Exec Activation) get :=
  fun _ b _ _ hR => ⟨b, b, rfl, hR, hR⟩

/-- A change of the memory that has nothing to do with coroutines. -/
theorem modifyMemory {f : Memory → Memory}
    (hf : ∀ m coroutines, f (m.withCoroutines coroutines) = (f m).withCoroutines coroutines) :
    Alike R Eq (modifyThe Memory f : Exec PUnit) (modifyThe Memory f) := by
  intro a b m coroutines hR
  refine ⟨⟨⟩, b, ?_, rfl, hR⟩
  rw [← hf]
  rfl

end Alike

/-! ## Operations -/

section Operations

variable {i : Instr} {place : Nat → Nat} (h : i.Beside place R)
include h

theorem alike_push (v : Value) : Alike R Eq (push v) (push v) := by
  intro a b m coroutines hR
  refine ⟨⟨⟩, { b with stack := v :: a.stack }, ?_, rfl, h.stack _ hR⟩
  rw [← h.same hR]
  rfl

theorem alike_pop : Alike R Eq pop pop := by
  intro a b m coroutines hR
  obtain ⟨method, locals, stack, pc⟩ := b
  obtain ⟨method', locals', stack', pc'⟩ := a
  obtain rfl : stack = stack' := h.same hR
  rcases stack with _ | ⟨v, rest⟩
  · rfl
  · exact ⟨v, _, rfl, rfl, h.stack rest hR⟩

theorem alike_peek : Alike R Eq peek peek := by
  intro a b m coroutines hR
  obtain ⟨method, locals, stack, pc⟩ := b
  obtain ⟨method', locals', stack', pc'⟩ := a
  obtain rfl : stack = stack' := h.same hR
  rcases stack with _ | ⟨v, rest⟩
  · rfl
  · exact ⟨v, _, rfl, rfl, hR⟩

theorem alike_popKind (kind : SlotKind) : Alike R Eq (popKind kind) (popKind kind) := by
  unfold popKind
  refine (alike_pop h).bind' fun v => ?_
  split
  · exact (Alike.throw (Q := Eq) _).bind' fun _ => .pure rfl
  · exact .pure rfl

theorem alike_popInt : Alike R Eq popInt popInt := by
  unfold popInt
  refine (alike_pop h).bind' fun v => ?_
  split
  · exact .pure rfl
  · exact .throw _

theorem alike_popReference : Alike R Eq popReference popReference := by
  unfold popReference
  refine (alike_pop h).bind' fun v => ?_
  dsimp only
  split
  · exact (Alike.throw (Q := Eq) _).bind' fun _ => .pure rfl
  · exact .pure rfl

omit h in
theorem alike_throwNew (type message : String) :
    Alike R Q (throwNew type message : Exec α) (throwNew type message) :=
  fun _ _ _ _ _ => rfl

theorem alike_pushNewObject (type : String) :
    Alike R Eq (pushNewObject type) (pushNewObject type) := by
  unfold pushNewObject
  refine Alike.getMemory.bind fun m m' hm => ?_
  rw [hm.1]
  exact (Alike.modifyMemory fun _ _ => rfl).bind' fun _ => alike_push h _

theorem alike_pushNewArray (items : Array Value) :
    Alike R Eq (pushNewArray items) (pushNewArray items) := by
  unfold pushNewArray
  refine Alike.getMemory.bind fun m m' hm => ?_
  rw [hm.1]
  exact (Alike.modifyMemory fun _ _ => rfl).bind' fun _ => alike_push h _

omit h in
theorem alike_checkIndex (length : Nat) (index : Int32) :
    Alike R Eq (checkIndex length index) (checkIndex length index) := by
  unfold checkIndex
  split
  · exact (alike_throwNew (Q := Eq) _ _).bind' fun _ => .pure rfl
  · exact .pure rfl

theorem alike_arrayLength : Alike R Eq arrayLength arrayLength := by
  unfold arrayLength
  refine (alike_popReference h).bind' fun v => ?_
  split
  · refine Alike.getMemory.bind fun m m' hm => ?_
    rw [hm.1]
    exact alike_push h _
  · exact .throw _
  · exact .throw _

theorem alike_arrayLoad : Alike R Eq arrayLoad arrayLoad := by
  unfold arrayLoad
  refine (alike_popInt h).bind' fun index => (alike_popReference h).bind' fun v => ?_
  split
  · refine Alike.getMemory.bind fun m m' hm => ?_
    rw [hm.1]
    exact (alike_checkIndex _ _).bind' fun _ => alike_push h _
  · exact .throw _

theorem alike_arrayStore : Alike R Eq arrayStore arrayStore := by
  unfold arrayStore
  refine (alike_pop h).bind' fun v => (alike_popInt h).bind' fun index =>
    (alike_popReference h).bind' fun array => ?_
  split
  · refine Alike.getMemory.bind fun m m' hm => ?_
    rw [hm.1]
    exact (alike_checkIndex _ _).bind' fun _ => .modifyMemory fun _ _ => rfl
  · exact .throw _

theorem alike_simple (op : Opcode) :
    Alike R (fun move move' => move' = move.relocate place) (simple op) (simple op) := by
  cases op
  case nop | ret => exact .pure rfl
  case aconstNull => exact (alike_push h _).bind' fun _ => .pure rfl
  case pop => exact (alike_pop h).bind' fun _ => .pure rfl
  case dup => exact (alike_peek h).bind' fun _ => (alike_push h _).bind' fun _ => .pure rfl
  case dupX1 =>
    exact (alike_pop h).bind' fun _ => (alike_pop h).bind' fun _ => (alike_push h _).bind' fun _ =>
      (alike_push h _).bind' fun _ => (alike_push h _).bind' fun _ => .pure rfl
  case swap =>
    exact (alike_pop h).bind' fun _ => (alike_pop h).bind' fun _ => (alike_push h _).bind' fun _ =>
      (alike_push h _).bind' fun _ => .pure rfl
  case ireturn | lreturn | freturn | dreturn | areturn =>
    exact (alike_pop h).bind' fun _ => .pure rfl
  case athrow | monitorenter | monitorexit =>
    refine (alike_popReference h).bind' fun v => ?_
    dsimp only
    split
    · exact (Alike.throw (Q := Eq) _).bind' fun _ => by first | exact .throw _ | exact .pure rfl
    · first | exact .throw _ | exact .pure rfl
  case arraylength => exact (alike_arrayLength h).bind' fun _ => .pure rfl
  case aaload | iaload => exact (alike_arrayLoad h).bind' fun _ => .pure rfl
  case aastore | iastore => exact (alike_arrayStore h).bind' fun _ => .pure rfl
  all_goals
    unfold simple
    dsimp only
    split
    · exact (alike_popKind h _).bind' fun _ => (alike_push h _).bind' fun _ => .pure rfl
    · refine (alike_popKind h _).bind' fun y => (alike_popKind h _).bind' fun x => ?_
      split
      · exact (alike_push h _).bind' fun _ => .pure rfl
      · exact .throw _
    · exact .throw _

theorem alike_condition (op : Opcode) : Alike R Eq (condition op) (condition op) := by
  unfold condition
  split
  · exact (alike_popInt h).bind' fun _ => .pure rfl
  · exact (alike_popInt h).bind' fun _ => (alike_popInt h).bind' fun _ => .pure rfl
  · split
    case h_1 => exact .pure rfl
    case h_2 | h_3 =>
      exact (alike_popReference h).bind' fun _ => (alike_popReference h).bind' fun _ => .pure rfl
    case h_4 | h_5 => exact (alike_popReference h).bind' fun _ => .pure rfl
    case h_6 => exact .throw _

theorem alike_field (op : Opcode) (member : MemberRef) :
    Alike R Eq (field op member) (field op member) := by
  unfold field
  split
  · refine (alike_popReference h).bind' fun v => ?_
    split
    · refine Alike.getMemory.bind fun m m' hm => ?_
      rw [hm.1]
      exact alike_push h _
    · exact .throw _
  · refine (alike_pop h).bind' fun v => (alike_popReference h).bind' fun object => ?_
    split
    · exact .modifyMemory fun _ _ => rfl
    · exact .throw _
  · refine Alike.getMemory.bind fun m m' hm => ?_
    unfold Memory.getStatic?
    rw [hm.2]
    exact alike_push h _
  · exact (alike_pop h).bind' fun v => .modifyMemory fun _ _ => rfl
  · exact .throw _

theorem alike_request (op : Opcode) (member : MemberRef) :
    Alike R Eq (request op member) (request op member) := by
  unfold request
  split
  · exact .throw _
  · refine Alike.getActivation.bind fun a b hR => ?_
    dsimp only
    rw [h.same hR]
    generalize (_ + ite (op = .invokestatic) 0 1 : Nat) = count
    have htake (stack : List Value) : Alike R Eq
        (modify ({ · with stack }) : Exec PUnit) (modify ({ · with stack })) :=
      fun _ _ _ _ hR => ⟨_, _, rfl, rfl, h.stack stack hR⟩
    split
    · exact (Alike.throw (Q := Eq) _).bind' fun _ => (htake _).bind' fun _ => .pure rfl
    · exact (htake _).bind' fun _ => .pure rfl

theorem alike_onType {t t' : ClassTable} (ht : t.Agrees t') (op : Opcode) (desc : String) :
    Alike R Eq (onType t op desc) (onType t' op desc) := by
  unfold onType
  split
  · rw [ht.contains]
    split
    · exact (Alike.throw (Q := Eq) _).bind' fun _ => alike_pushNewObject h _
    · exact alike_pushNewObject h _
  · refine (alike_peek h).bind' fun v => Alike.getMemory.bind fun m m' hm => ?_
    dsimp only
    rw [hm.1, ht.isInstance]
    split
    · exact alike_throwNew _ _
    · exact .pure rfl
  · refine (alike_popReference h).bind' fun v => Alike.getMemory.bind fun m m' hm => ?_
    rw [hm.1, ht.isInstance]
    exact alike_push h _
  · refine (alike_popInt h).bind' fun length => ?_
    split
    · exact (alike_throwNew (Q := Eq) _ _).bind' fun _ => alike_pushNewArray h _
    · exact alike_pushNewArray h _
  · exact .throw _

/-! ## Locals and jumps -/

theorem alike_local? {slot : UInt16} (hreads : i.Reads slot.toNat) :
    Alike R Eq (local? slot) (local? slot) := by
  unfold local?
  refine Alike.getActivation.bind fun a b hR => ?_
  rw [h.reads hreads hR]
  split
  · exact .pure rfl
  · exact .throw _

theorem alike_setLocal {slot : UInt16} (v : Value) (hassigns : i.Assigns slot.toNat) :
    Alike R Eq (setLocal slot v) (setLocal slot v) := by
  -- The old value may differ; what counts is that there is one.
  have hthere : Alike R (fun _ _ => True) (local? slot) (local? slot) := by
    unfold local?
    refine Alike.getActivation.bind fun a b hR => ?_
    rcases ha : a.locals[slot.toNat]? with _ | v
    · have hb : b.locals[slot.toNat]? = none := by
        rw [List.getElem?_eq_none_iff, h.length hR]
        exact List.getElem?_eq_none_iff.1 ha
      rw [hb]
      exact .throw _
    · have hlt : slot.toNat < b.locals.length := by
        rw [h.length hR]
        exact (List.getElem?_eq_some_iff.1 ha).1
      rw [List.getElem?_eq_getElem hlt]
      exact .pure trivial
  exact hthere.bind fun _ _ _ _ _ _ _ hR => ⟨⟨⟩, _, rfl, rfl, h.writes v hassigns hR⟩

theorem alike_onLocal {op : Opcode} {slot : UInt16} (hi : i = .local op slot) :
    Alike R Eq (onLocal op slot) (onLocal op slot) := by
  subst hi
  cases op
  case iload | lload | fload | dload | aload =>
    exact (alike_local? h ⟨rfl, by decide⟩).bind' fun v => alike_push h v
  case istore | lstore | fstore | dstore | astore =>
    exact (alike_pop h).bind' fun v => alike_setLocal h v ⟨rfl, by decide⟩
  all_goals exact .throw _

theorem alike_increment {slot : UInt16} {delta : Int32} (hi : i = .inc slot delta) :
    Alike R Eq (increment slot delta) (increment slot delta) := by
  subst hi
  refine (alike_local? h rfl).bind' fun v => ?_
  split
  · exact alike_setLocal h _ rfl
  · exact .throw _

theorem alike_jumpTo {l : Label} (hl : l ∈ i.branchTargets) :
    Alike R (fun move move' => move' = move.relocate place) (jumpTo l) (jumpTo l) := by
  unfold jumpTo
  refine Alike.getActivation.bind fun a b hR => ?_
  rw [h.labels hl hR]
  rcases a.method.position l with e | pc
  · exact .throw e
  · exact .pure rfl

/-- **Side by side.** Two activations that have what an instruction needs come to the same with it. -/
theorem alike_instr {t t' : ClassTable} (ht : t.Agrees t') (hi : ∀ op, i ≠ .frame op) :
    Alike R (fun move move' => move' = move.relocate place) (instr t i) (instr t' i) := by
  cases i with
  | label => exact .pure rfl
  | simple op => exact alike_simple h op
  | const c => exact (alike_push h _).bind' fun _ => .pure rfl
  | «local» op slot => exact (alike_onLocal h rfl).bind' fun _ => .pure rfl
  | inc slot delta => exact (alike_increment h rfl).bind' fun _ => .pure rfl
  | jump op l =>
    refine (alike_condition h op).bind' fun taken => ?_
    split
    · exact alike_jumpTo h (List.mem_singleton_self l)
    · exact .pure rfl
  | switch low default targets =>
    refine (alike_popInt h).bind' fun n => alike_jumpTo h ?_
    split
    · exact List.mem_cons_self
    · rcases htarget : targets[(n.toInt - low.toInt).toNat]? with _ | l
      · exact List.mem_cons_self
      · exact List.mem_cons_of_mem _ (List.mem_of_getElem? htarget)
  | field op member => exact (alike_field h op member).bind' fun _ => .pure rfl
  | invoke op member => exact (alike_request h op member).bind' fun _ => .pure rfl
  | type op desc => exact (alike_onType h ht op desc).bind' fun _ => .pure rfl
  | frame op => exact absurd rfl (hi op)

end Operations

end Exec

/-! ## The same activation on other coroutines -/

theorem Move.relocate_id (move : Move) : move.relocate id = move := by
  cases move <;> rfl

theorem Instr.beside_self (i : Instr) : i.Beside id fun a b => b = a where
  same h := congrArg _ h
  stack _ h := by rw [h]
  length h := by rw [h]
  reads _ h := by rw [h]
  writes _ _ h := by rw [h]
  labels _ h := by rw [h, Except.map_id]; rfl

/-- What becomes of the answer to a call: an error, or operands for the caller. -/
def Call.result (request : Call) (answer : Except RunError (Option Value)) :
    Except RunError (List Value) :=
  match answer with
  | .error e => .error e
  | .ok result =>
    match Exec.methodType request.member.desc with
    | .error e => .error e
    | .ok type =>
      match type.result, result with
      | none, _ => .ok []
      | some _, some v => .ok [v]
      | some _, none => .error (.code (.noResult request.member))

theorem Call.exists_of_result {request : Call} {answer : Except RunError (Option Value)}
    {pushed : List Value} (h : request.result answer = .ok pushed) : ∃ result, answer = .ok result := by
  rcases answer with e | result
  · cases h
  · exact ⟨result, rfl⟩

/-- An error comes with the answer, or nobody can catch it. -/
theorem Call.result_eq_error {request : Call} {answer : Except RunError (Option Value)} {e : RunError}
    (h : request.result answer = .error e) : answer = .error e ∨ e.IsFatal := by
  unfold result at h
  split at h
  · cases h
    exact .inl rfl
  · right
    split at h
    · rename_i htype
      unfold Exec.methodType at htype
      rcases hparse : MethodType.parse request.member.desc with cause | type <;> rw [hparse] at htype
      · cases htype
        cases h
        exact fun _ => rfl
      · cases htype
    · split at h <;> cases h
      exact fun _ => rfl

namespace Activation

variable {t t' : ClassTable} {a : Activation} {m m' : Memory} {progress : Progress}

/-- An instruction that succeeds leads where it says. -/
theorem step_of_does {i : Instr} {move : Move} {a' : Activation}
    (hi : a.method.method.code[a.pc]? = some i) (hdoes : Exec.Does (Exec.instr t i) a m move a' m') :
    a.step t m = (move.progress a.pc a', m') := by
  unfold step
  rw [hi]
  dsimp only
  rw [show ((Exec.instr t i).run a).run m = _ from hdoes]
  cases move <;> rfl

theorem raise_parallel (ht : t.Agrees t') {e : RunError} (h : a.raise t e m = (progress, m'))
    (coroutines : Coroutines) :
    a.raise t' e (m.withCoroutines coroutines) = (progress, m'.withCoroutines coroutines) := by
  unfold raise at h ⊢
  rw [show (m.withCoroutines coroutines).heap = m.heap from rfl]
  rcases hexception : e.exception? m.heap with _ | ⟨heap, exception⟩
  · rw [hexception] at h
    cases h
    rfl
  · rw [hexception] at h
    dsimp only at h ⊢
    rw [ht.handlerFor?]
    rcases hhandler : t.handlerFor? heap a.method a.pc exception with _ | handler
    · rw [hhandler] at h
      cases h
      rfl
    · rw [hhandler] at h
      cases h
      rfl

/-- With the answer to a call, an activation goes on behind the call, or raises an error. -/
theorem resume_eq (t : ClassTable) (a : Activation) (request : Call)
    (answer : Except RunError (Option Value)) (m : Memory) :
    a.resume t request answer m = match request.result answer with
      | .error e => a.raise t e m
      | .ok pushed => (.going { a with stack := pushed ++ a.stack, pc := a.pc + 1 }, m) := by
  unfold resume Call.result
  rcases answer with e | result
  · rfl
  · rcases Exec.methodType request.member.desc with e | type
    · rfl
    · dsimp only
      rcases type.result with _ | _
      · rfl
      · rcases result with _ | v <;> rfl

theorem resume_parallel (ht : t.Agrees t') {request : Call}
    {answer : Except RunError (Option Value)} (h : a.resume t request answer m = (progress, m'))
    (coroutines : Coroutines) :
    a.resume t' request answer (m.withCoroutines coroutines) =
      (progress, m'.withCoroutines coroutines) := by
  rw [resume_eq] at h ⊢
  rcases hresult : request.result answer with e | pushed <;> rw [hresult] at h
  · exact raise_parallel ht h coroutines
  · cases h
    rfl

/-- An activation of a method that does not work on frames steps alike whatever the coroutines are. -/
theorem step_parallel (ht : t.Agrees t') (hplain : ∀ op, .frame op ∉ a.method.method.code)
    (h : a.step t m = (progress, m')) (coroutines : Coroutines) :
    a.step t' (m.withCoroutines coroutines) = (progress, m'.withCoroutines coroutines) := by
  rcases hi : a.method.method.code[a.pc]? with _ | i
  · rw [step_of_none hi] at h
    cases h
    exact step_of_none hi
  · have halike := Exec.alike_instr i.beside_self ht
      fun op hop => hplain op (hop ▸ List.mem_of_getElem? hi)
    rcases step_cases hi h with ⟨e, m₁, hrun, hraise⟩ | ⟨move, a', hdoes, rfl⟩
    · rw [step_of_failure hi (halike.of_error hrun rfl coroutines)]
      exact raise_parallel ht hraise coroutines
    · obtain ⟨move', a'', hdoes', rfl, rfl⟩ := halike.of_ok hdoes rfl coroutines
      rw [Move.relocate_id] at hdoes'
      exact step_of_does hi hdoes'

end Activation

end Resumable
