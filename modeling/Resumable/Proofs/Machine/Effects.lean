import Resumable.Machine.Host
import Resumable.Proofs.Machine.Operands

/-!
# What instructions do

Instructions are put together from few effects: they move operands, extend the heap, write a static
field, read or write a local, jump to a label, and work on the frames of the active coroutine. What
all these effects keep is kept by every instruction (`Exec.keeps_instr`), so an invariant of
activation and memory needs to be looked at only once for each effect (`Exec.Laws`, `Instr.Laws`),
and so do the errors with which instructions fail.

Most errors say no more than that an operation did not find what it wants. Those that say more are
an exception of the program and the lack of an instruction, a label or a local
(`RunError.isOrdinary`).
-/

namespace Resumable

/-! ## Heaps that grow -/

namespace Heap

variable {h h' : Heap}

theorem size_pos_of_signal (hsignal : (h.object 0).type = Names.suspendExecution) :
    0 < h.objects.size := by
  refine Nat.pos_of_ne_zero fun hzero => ?_
  rw [object, Array.getElem?_eq_none (Nat.le_of_eq hzero)] at hsignal
  exact absurd hsignal (by decide)

/-- The object of the signal keeps its class. -/
theorem Extends.signal (hext : h.Extends h')
    (hsignal : (h.object 0).type = Names.suspendExecution) :
    (h'.object 0).type = Names.suspendExecution := by
  rw [(hext 0 (size_pos_of_signal hsignal)).2, hsignal]

theorem extends_setField (h : Heap) (id : Nat) (name : String) (v : Value) :
    h.Extends (h.setField id name v) := by
  intro id' hid
  refine ⟨by simpa [setField] using hid, ?_⟩
  simp only [object, setField, Array.getElem?_modify]
  split
  · rw [Array.getElem?_eq_getElem hid]
    rfl
  · rfl

end Heap

/-! ## Errors -/

namespace RunError

variable {e : RunError}

/-- The error carries no exception, and there is no lack of an instruction, a label or a local. -/
def isOrdinary : RunError → Bool
  | .thrown _ | .code (.fellOff _) | .code (.undefinedLabel _) | .code (.localOutOfRange _) => false
  | _ => true

/-- No handler takes the error: it ends whatever is at work. -/
def IsFatal (e : RunError) : Prop := ∀ h, e.exception? h = none

/-- An operation on frames has been refused. -/
inductive IsRefusal : RunError → Prop where
  | invalidState (why : StateFault) : IsRefusal (.invalidState why)
  | type (why : TypeFault) : IsRefusal (.type why)
  | tooManySlots (count : Nat) : IsRefusal (.code (.tooManySlots count))

theorem IsRefusal.isFatal (h : e.IsRefusal) : e.IsFatal := by
  cases h <;> exact fun _ => rfl

theorem IsRefusal.isOrdinary (h : e.IsRefusal) : e.isOrdinary = true := by
  cases h <;> rfl

end RunError

namespace FrameStack

variable {s : FrameStack} {e : RunError}

theorem refusal_of_current (h : s.current = .error e) : e.IsRefusal := by
  unfold current at h
  split at h
  · cases h
    exact .invalidState _
  · split at h
    · cases h
    · cases h
      exact .invalidState _

theorem refusal_of_slotIndex {slot : UInt32} (h : s.slotIndex slot = .error e) : e.IsRefusal := by
  unfold slotIndex at h
  dsimp only at h
  split at h
  · cases h
  · cases h
    exact .invalidState _

theorem refusal_of_reserve {entry : UInt32} {slots : UInt64}
    (h : s.reserve entry slots = .error e) : e.IsRefusal := by
  rcases bind_eq_error.1 h with hcurrent | ⟨_, -, h⟩
  · exact refusal_of_current hcurrent
  · dsimp only at h
    split at h
    · cases h
      exact .tooManySlots _
    · cases h

theorem refusal_of_release (h : s.release = .error e) : e.IsRefusal := by
  rcases bind_eq_error.1 h with hcurrent | ⟨_, -, hok⟩
  · exact refusal_of_current hcurrent
  · cases hok

theorem refusal_of_save {kind : SlotKind} {slot : UInt32} {v : Value}
    (h : s.save kind slot v = .error e) : e.IsRefusal := by
  unfold save at h
  dsimp only at h
  split at h
  · cases h
    exact .type _
  · rcases bind_eq_error.1 h with hslot | ⟨_, -, hok⟩
    · exact refusal_of_slotIndex hslot
    · cases hok

theorem refusal_of_restore {kind : SlotKind} {slot : UInt32} (h : s.restore kind slot = .error e) :
    e.IsRefusal := by
  rcases bind_eq_error.1 h with hslot | ⟨_, -, hok⟩
  · exact refusal_of_slotIndex hslot
  · cases hok

end FrameStack

/-- Without an active coroutine there is no stack to work on. -/
theorem Coroutines.error_of_onStack {α : Type} {cs : Coroutines} {e : RunError}
    {f : FrameStack → Except RunError (α × FrameStack)} (h : cs.onStack f = .error e) :
    e.IsRefusal ∨ ∃ s, f s = .error e := by
  unfold onStack onActive at h
  split at h
  · cases h
    exact .inl (.invalidState _)
  · split at h
    · cases h
      exact .inl (.invalidState _)
    · rename_i c _
      rcases bind_eq_error.1 h with hactive | ⟨_, -, hok⟩
      · rcases bind_eq_error.1 hactive with hs | ⟨_, -, hok⟩
        · exact .inr ⟨c.stack, hs⟩
        · cases hok
      · cases hok

/-- Arithmetic fails with a fault and not with an exception. -/
theorem Opcode.ordinary_of_binary {op : Opcode} {kind : SlotKind}
    {apply : Value → Value → Except RunError Value} (h : op.binary? = some (kind, apply))
    {a b : Value} {e : RunError} (he : apply a b = .error e) : e.isOrdinary = true := by
  have hints : ∀ {f : Int32 → Int32 → Except RunError Value},
      (∀ x y e, f x y = .error e → e.isOrdinary = true) → Value.onInts f a b = .error e →
      e.isOrdinary = true := by
    intro f hf he
    unfold Value.onInts at he
    split at he
    · exact hf _ _ _ he
    · cases he
  have hlongs : ∀ {f : Int64 → Int64 → Except RunError Value},
      (∀ x y e, f x y = .error e → e.isOrdinary = true) → Value.onLongs f a b = .error e →
      e.isOrdinary = true := by
    intro f hf he
    unfold Value.onLongs at he
    split at he
    · exact hf _ _ _ he
    · cases he
  cases op <;> simp only [binary?, reduceCtorEq, Option.some.injEq, Prod.mk.injEq] at h
  all_goals
    obtain ⟨rfl, rfl⟩ := h
  case fadd | fsub | fmul | fdiv | fcmp =>
    unfold Value.onFloats at he
    split at he <;> cases he
  case dadd | dsub | dmul | ddiv | dcmp =>
    unfold Value.onDoubles at he
    split at he <;> cases he
  case idiv | irem =>
    refine hints (fun x y e he => ?_) he
    split at he <;> cases he
    rfl
  case ldiv | lrem =>
    refine hlongs (fun x y e he => ?_) he
    split at he <;> cases he
    rfl
  case iadd | isub | imul => exact hints (fun x y e he => by cases he) he
  all_goals exact hlongs (fun x y e he => by cases he) he

/-! ## Effects -/

/-- The instruction writes the local with this number. -/
def Instr.Assigns : Instr → Nat → Prop
  | .local op slot, index =>
    slot.toNat = index ∧ op ∈ [.istore, .lstore, .fstore, .dstore, .astore]
  | .inc slot _, index => slot.toNat = index
  | _, _ => False

instance (i : Instr) (index : Nat) : Decidable (i.Assigns index) := by
  unfold Instr.Assigns
  split <;> infer_instance

/-- Only a local that is named is written. -/
theorem Instr.Assigns.localIndex? {i : Instr} {n : Nat} (h : i.Assigns n) :
    ∃ index, i.localIndex? = some index ∧ index.toNat = n := by
  cases i with
  | «local» op slot => exact ⟨slot, rfl, h.1⟩
  | inc slot delta => exact ⟨slot, rfl, h⟩
  | _ => exact h.elim

section Effects

variable (S : Activation → Memory → Prop) (F : RunError → Memory → Prop)

/-- Operands, heap and static fields may change without leaving `S`, and `F` allows ordinary errors
and exceptions that are references. -/
structure Exec.Laws : Prop where
  stack : ∀ {a m} stack, S a m → S { a with stack } m
  heap : ∀ {a m heap}, m.heap.Extends heap → S a m → S a { m with heap }
  statics : ∀ {a m} statics, S a m → S a { m with statics }
  fails : ∀ {a m e}, e.isOrdinary = true → S a m → F e m
  throws : ∀ {a m v}, v.isReference = true → S a m → F (.thrown v) m

/-- The locals, labels and frames of the instruction do not lead out of `S` either. -/
structure Instr.Laws (i : Instr) : Prop where
  reads : ∀ {a m slot}, i.localIndex? = some slot → a.locals[slot.toNat]? = none → S a m →
    F (.code (.localOutOfRange slot)) m
  writes : ∀ {a m slot} v, i.Assigns slot → S a m → S { a with locals := a.locals.set slot v } m
  labels : ∀ {a m l}, l ∈ i.branchTargets → labelPosition? a.method.method.code l = none → S a m →
    F (.code (.undefinedLabel l)) m
  frames : ∀ {op a m α coroutines} {f : FrameStack → Except RunError (α × FrameStack)} {x : α},
    i = .frame op → m.coroutines.onStack f = .ok (x, coroutines) → S a m → S a { m with coroutines }

/-- From wherever `S` holds the computation comes to where it holds again, or fails as `F` allows. -/
def Exec.Keeps {α : Type} (x : Exec α) : Prop :=
  ∀ a m, S a m → match (x.run a).run m with
    | (.ok (_, a'), m') => S a' m'
    | (.error e, m') => F e m'

end Effects

namespace Exec

variable {α β : Type} {S : Activation → Memory → Prop} {F : RunError → Memory → Prop}

namespace Keeps

theorem of_ok {x : Exec α} (h : Keeps S F x) {a a' : Activation} {m m' : Memory} {r : α}
    (hx : Does x a m r a' m') (hS : S a m) : S a' m' := by
  have := h a m hS
  rwa [show (x.run a).run m = _ from hx] at this

theorem of_error {x : Exec α} (h : Keeps S F x) {a : Activation} {m m' : Memory} {e : RunError}
    (hx : (x.run a).run m = (.error e, m')) (hS : S a m) : F e m' := by
  have := h a m hS
  rwa [hx] at this

theorem pure (r : α) : Keeps S F (Pure.pure r : Exec α) := fun _ _ => id

theorem throw {e : RunError} (he : ∀ a m, S a m → F e m) :
    Keeps S F (MonadExcept.throw e : Exec α) := he

/-- The second part only has to keep `S` for what the first can come to. -/
theorem bind {x : Exec α} {k : α → Exec β} (hx : Keeps S F x)
    (hk : ∀ r a m a' m', Does x a m r a' m' → Keeps S F (k r)) : Keeps S F (x >>= k) := by
  intro a m hS
  rcases hrun : (x.run a).run m with ⟨e | ⟨r, a₁⟩, m₁⟩
  · rw [run_bind_of_error hrun]
    exact hx.of_error hrun hS
  · rw [run_bind_of_ok hrun]
    exact hk r a m a₁ m₁ hrun a₁ m₁ (hx.of_ok hrun hS)

theorem bind' {x : Exec α} {k : α → Exec β} (hx : Keeps S F x) (hk : ∀ r, Keeps S F (k r)) :
    Keeps S F (x >>= k) :=
  hx.bind fun r _ _ _ _ _ => hk r

theorem getMemory : Keeps S F (getThe Memory : Exec Memory) := fun _ _ => id

theorem getActivation : Keeps S F (get : Exec Activation) := fun _ _ => id

end Keeps

/-! ### Operations -/

section Operations

variable (hl : Laws S F)
include hl

theorem keeps_fail {e : RunError} (he : e.isOrdinary = true) :
    Keeps S F (MonadExcept.throw e : Exec α) := .throw fun _ _ => hl.fails he

theorem keeps_push (v : Value) : Keeps S F (push v) := fun _ _ => hl.stack _

theorem keeps_pop : Keeps S F pop := by
  refine Keeps.getActivation.bind' fun a => ?_
  split
  · exact keeps_fail hl rfl
  · rename_i rest _
    have hmodify : Keeps S F (modify fun a => { a with stack := rest } : Exec PUnit) :=
      fun _ _ => hl.stack _
    exact hmodify.bind' fun _ => .pure _

theorem keeps_peek : Keeps S F peek := by
  refine Keeps.getActivation.bind' fun a => ?_
  split
  · exact keeps_fail hl rfl
  · exact .pure _

theorem keeps_popKind (kind : SlotKind) : Keeps S F (popKind kind) := by
  refine (keeps_pop hl).bind' fun v => ?_
  dsimp only
  split
  · exact (keeps_fail hl rfl).bind' fun _ => .pure _
  · exact .pure _

theorem keeps_popInt : Keeps S F popInt := by
  refine (keeps_pop hl).bind' fun v => ?_
  split
  · exact .pure _
  · exact keeps_fail hl rfl

theorem keeps_popReference : Keeps S F popReference := by
  refine (keeps_pop hl).bind' fun v => ?_
  dsimp only
  split
  · exact (keeps_fail hl rfl).bind' fun _ => .pure _
  · exact .pure _

theorem keeps_throwNew (type message : String) : Keeps S F (throwNew type message : Exec α) :=
  fun _ m hS => hl.throws rfl (hl.heap (m.heap.extends_newException type message) hS)

theorem keeps_pushNewObject (type : String) : Keeps S F (pushNewObject type) :=
  fun _ m hS => hl.stack _ (hl.heap (m.heap.extends_push _) hS)

theorem keeps_pushNewArray (items : Array Value) : Keeps S F (pushNewArray items) :=
  fun _ _ hS => hl.stack _ (hl.heap (fun _ hid => ⟨hid, rfl⟩) hS)

theorem keeps_checkIndex (length : Nat) (index : Int32) : Keeps S F (checkIndex length index) := by
  unfold checkIndex
  dsimp only
  split
  · exact (keeps_throwNew hl _ _).bind' fun _ => .pure _
  · exact .pure _

/-- Changing the heap in a way that extends it. -/
theorem keeps_modifyHeap {f : Heap → Heap} (hf : ∀ h : Heap, h.Extends (f h)) :
    Keeps S F (modifyThe Memory fun m => { m with heap := f m.heap } : Exec PUnit) :=
  fun _ m hS => hl.heap (hf m.heap) hS

theorem keeps_arrayLength : Keeps S F arrayLength := by
  refine (keeps_popReference hl).bind' fun v => ?_
  split
  · exact Keeps.getMemory.bind' fun _ => keeps_push hl _
  · exact keeps_fail hl rfl
  · exact keeps_fail hl rfl

theorem keeps_arrayLoad : Keeps S F arrayLoad := by
  refine (keeps_popInt hl).bind' fun i => (keeps_popReference hl).bind' fun v => ?_
  split
  · exact Keeps.getMemory.bind' fun _ => (keeps_checkIndex hl _ _).bind' fun _ => keeps_push hl _
  · exact keeps_fail hl rfl

theorem keeps_arrayStore : Keeps S F arrayStore := by
  refine (keeps_pop hl).bind' fun v => (keeps_popInt hl).bind' fun i =>
    (keeps_popReference hl).bind' fun array => ?_
  split
  · exact Keeps.getMemory.bind' fun _ => (keeps_checkIndex hl _ _).bind' fun _ =>
      keeps_modifyHeap hl (f := (·.setItem _ _ v)) fun _ _ hid => ⟨hid, rfl⟩
  · exact keeps_fail hl rfl

theorem keeps_simple (op : Opcode) : Keeps S F (simple op) := by
  cases op
  case nop | ret => exact .pure _
  case aconstNull => exact (keeps_push hl _).bind' fun _ => .pure _
  case pop => exact (keeps_pop hl).bind' fun _ => .pure _
  case dup => exact (keeps_peek hl).bind' fun _ => (keeps_push hl _).bind' fun _ => .pure _
  case dupX1 =>
    exact (keeps_pop hl).bind' fun _ => (keeps_pop hl).bind' fun _ => (keeps_push hl _).bind' fun _ =>
      (keeps_push hl _).bind' fun _ => (keeps_push hl _).bind' fun _ => .pure _
  case swap =>
    exact (keeps_pop hl).bind' fun _ => (keeps_pop hl).bind' fun _ => (keeps_push hl _).bind' fun _ =>
      (keeps_push hl _).bind' fun _ => .pure _
  case ireturn | lreturn | freturn | dreturn | areturn =>
    exact (keeps_pop hl).bind' fun _ => .pure _
  case athrow =>
    -- What is thrown has been found to be a reference.
    refine (keeps_popReference hl).bind fun v _ _ _ _ hv => ?_
    have hthrow : Keeps S F (MonadExcept.throw (.thrown v) : Exec Move) :=
      .throw fun _ _ => hl.throws hv.popReference.1
    dsimp only
    split
    · exact (keeps_fail hl rfl).bind' fun _ => hthrow
    · exact hthrow
  case monitorenter | monitorexit =>
    refine (keeps_popReference hl).bind' fun v => ?_
    dsimp only
    split
    · exact (keeps_fail hl rfl).bind' fun _ => .pure _
    · exact .pure _
  case arraylength => exact (keeps_arrayLength hl).bind' fun _ => .pure _
  case aaload | iaload => exact (keeps_arrayLoad hl).bind' fun _ => .pure _
  case aastore | iastore => exact (keeps_arrayStore hl).bind' fun _ => .pure _
  all_goals
    unfold simple
    dsimp only
    split
    · exact (keeps_popKind hl _).bind' fun _ => (keeps_push hl _).bind' fun _ => .pure _
    · rename_i hbinary
      refine (keeps_popKind hl _).bind' fun y => (keeps_popKind hl _).bind' fun x => ?_
      split
      · exact (keeps_push hl _).bind' fun _ => .pure _
      · rename_i he
        exact keeps_fail hl (Opcode.ordinary_of_binary hbinary he)
    · exact keeps_fail hl rfl

theorem keeps_condition (op : Opcode) : Keeps S F (condition op) := by
  unfold condition
  split
  · exact (keeps_popInt hl).bind' fun _ => .pure _
  · exact (keeps_popInt hl).bind' fun _ => (keeps_popInt hl).bind' fun _ => .pure _
  · split
    case h_1 => exact .pure _
    case h_2 | h_3 =>
      exact (keeps_popReference hl).bind' fun _ => (keeps_popReference hl).bind' fun _ => .pure _
    case h_4 | h_5 => exact (keeps_popReference hl).bind' fun _ => .pure _
    case h_6 => exact keeps_fail hl rfl

theorem keeps_field (op : Opcode) (member : MemberRef) : Keeps S F (field op member) := by
  unfold field
  split
  · refine (keeps_popReference hl).bind' fun v => ?_
    split
    · exact Keeps.getMemory.bind' fun _ => keeps_push hl _
    · exact keeps_fail hl rfl
  · refine (keeps_pop hl).bind' fun v => (keeps_popReference hl).bind' fun object => ?_
    split
    · exact keeps_modifyHeap hl fun h => h.extends_setField _ _ _
    · exact keeps_fail hl rfl
  · exact Keeps.getMemory.bind' fun _ => keeps_push hl _
  · refine (keeps_pop hl).bind' fun v => ?_
    exact fun _ _ => hl.statics _
  · exact keeps_fail hl rfl

theorem keeps_request (op : Opcode) (member : MemberRef) : Keeps S F (request op member) := by
  unfold request methodType
  rcases MethodType.parse member.desc with cause | type
  · exact keeps_fail hl rfl
  · refine Keeps.getActivation.bind' fun a => ?_
    have hmodify (stack : List Value) :
        Keeps S F (modify fun a => { a with stack } : Exec PUnit) := fun _ _ => hl.stack _
    dsimp only
    by_cases hlt : a.stack.length < type.arity + if op = .invokestatic then 0 else 1
    · rw [if_pos hlt]
      exact (keeps_fail hl rfl).bind' fun _ => (hmodify _).bind' fun _ => .pure _
    · rw [if_neg hlt]
      exact (hmodify _).bind' fun _ => .pure _

theorem keeps_onType (classes : ClassTable) (op : Opcode) (desc : String) :
    Keeps S F (onType classes op desc) := by
  unfold onType
  split
  · dsimp only
    split
    · exact (keeps_fail hl rfl).bind' fun _ => keeps_pushNewObject hl _
    · exact keeps_pushNewObject hl _
  · refine (keeps_peek hl).bind' fun v => Keeps.getMemory.bind' fun m => ?_
    dsimp only
    split
    · exact keeps_throwNew hl _ _
    · exact .pure _
  · exact (keeps_popReference hl).bind' fun v => Keeps.getMemory.bind' fun m => keeps_push hl _
  · refine (keeps_popInt hl).bind' fun n => ?_
    dsimp only
    split
    · exact (keeps_throwNew hl _ _).bind' fun _ => keeps_pushNewArray hl _
    · exact keeps_pushNewArray hl _
  · exact keeps_fail hl rfl

end Operations

/-! ### Instructions -/

variable {i : Instr}

theorem keeps_local? (hi : i.Laws S F) {slot : UInt16} (hslot : i.localIndex? = some slot) :
    Keeps S F (local? slot) := by
  intro a m hS
  unfold local?
  rw [run_bind_of_ok (show ((get : Exec Activation).run a).run m = (.ok (a, a), m) from rfl)]
  rcases hlocal : a.locals[slot.toNat]? with _ | v
  · exact hi.reads hslot hlocal hS
  · exact hS

theorem keeps_setLocal (hi : i.Laws S F) {slot : UInt16} (hslot : i.localIndex? = some slot) (v : Value)
    (hassigns : i.Assigns slot.toNat) : Keeps S F (setLocal slot v) :=
  (keeps_local? hi hslot).bind' fun _ _ _ => hi.writes v hassigns

theorem keeps_jumpTo (hi : i.Laws S F) {l : Label} (hlabel : l ∈ i.branchTargets) :
    Keeps S F (jumpTo l) := by
  intro a m hS
  unfold jumpTo LoadedMethod.position
  rw [run_bind_of_ok (show ((get : Exec Activation).run a).run m = (.ok (a, a), m) from rfl)]
  rcases hposition : labelPosition? a.method.method.code l with _ | pc
  · exact hi.labels hlabel hposition hS
  · exact hS

theorem keeps_onLocal (hl : Laws S F) {op : Opcode} {slot : UInt16}
    (hi : (Instr.local op slot).Laws S F) : Keeps S F (onLocal op slot) := by
  have hstore (hop : op ∈ [.istore, .lstore, .fstore, .dstore, .astore]) :
      Keeps S F (do let v ← pop; setLocal slot v) :=
    (keeps_pop hl).bind' fun v => keeps_setLocal hi rfl v ⟨rfl, hop⟩
  unfold onLocal
  split
  case h_11 => exact keeps_fail hl rfl
  case h_6 | h_7 | h_8 | h_9 | h_10 => exact hstore (by decide)
  all_goals exact (keeps_local? hi rfl).bind' fun _ => keeps_push hl _

theorem keeps_increment (hl : Laws S F) {slot : UInt16} {delta : Int32}
    (hi : (Instr.inc slot delta).Laws S F) : Keeps S F (increment slot delta) := by
  refine (keeps_local? hi rfl).bind' fun v => ?_
  split
  · exact keeps_setLocal hi rfl _ rfl
  · exact keeps_fail hl rfl

/-- Work on the active coroutine's frames, which may be refused. -/
theorem keeps_onStack (hl : Laws S F) {op : FrameOp} (hi : (Instr.frame op).Laws S F)
    {f : FrameStack → Except RunError (α × FrameStack)} (hf : ∀ s e, f s = .error e → e.IsRefusal) :
    Keeps S F (onStack f) := by
  intro a m hS
  unfold onStack
  rw [run_bind_of_ok (show ((getThe Memory : Exec Memory).run a).run m = (.ok (m, a), m) from rfl)]
  rcases hwork : m.coroutines.onStack f with e | ⟨x, coroutines⟩
  · refine hl.fails (RunError.IsRefusal.isOrdinary ?_) hS
    rcases Coroutines.error_of_onStack hwork with hrefusal | ⟨s, hs⟩
    · exact hrefusal
    · exact hf s e hs
  · exact hi.frames rfl hwork hS

theorem keeps_frame (hl : Laws S F) {op : FrameOp} (hi : (Instr.frame op).Laws S F) :
    Keeps S F (frame op) := by
  cases op with
  | entry =>
    refine (keeps_onStack hl hi fun s e he => by cases he).bind' fun n => ?_
    dsimp only
    split
    · exact (keeps_fail hl rfl).bind' fun _ => keeps_push hl _
    · exact keeps_push hl _
  | reserve index slots =>
    refine keeps_onStack hl hi fun s e he => ?_
    rcases bind_eq_error.1 he with he | ⟨_, -, hok⟩
    · exact FrameStack.refusal_of_reserve he
    · cases hok
  | release =>
    refine keeps_onStack hl hi fun s e he => ?_
    rcases bind_eq_error.1 he with he | ⟨_, -, hok⟩
    · exact FrameStack.refusal_of_release he
    · cases hok
  | save kind slot =>
    refine (keeps_pop hl).bind' fun v => keeps_onStack hl hi fun s e he => ?_
    rcases bind_eq_error.1 he with he | ⟨_, -, hok⟩
    · exact FrameStack.refusal_of_save he
    · cases hok
  | restore kind slot =>
    refine (keeps_onStack hl hi fun s e he => ?_).bind' fun v => keeps_push hl v
    rcases bind_eq_error.1 he with he | ⟨_, -, hok⟩
    · exact FrameStack.refusal_of_restore he
    · cases hok
  | suspend => exact .throw fun _ _ => hl.throws rfl

/-- **An instruction keeps what all its effects keep.** -/
theorem keeps_instr (hl : Laws S F) (hi : i.Laws S F) (classes : ClassTable) :
    Keeps S F (instr classes i) := by
  cases i with
  | label => exact .pure _
  | simple op => exact keeps_simple hl op
  | const c => exact (keeps_push hl _).bind' fun _ => .pure _
  | «local» op slot => exact (keeps_onLocal hl hi).bind' fun _ => .pure _
  | inc slot delta => exact (keeps_increment hl hi).bind' fun _ => .pure _
  | jump op l =>
    refine (keeps_condition hl op).bind' fun taken => ?_
    split
    · exact keeps_jumpTo hi (List.mem_singleton_self l)
    · exact .pure _
  | switch low default targets =>
    refine (keeps_popInt hl).bind' fun n => keeps_jumpTo hi ?_
    split
    · exact List.mem_cons_self
    · rcases htarget : targets[(n.toInt - low.toInt).toNat]? with _ | l
      · exact List.mem_cons_self
      · exact List.mem_cons_of_mem _ (List.mem_of_getElem? htarget)
  | field op member => exact (keeps_field hl op member).bind' fun _ => .pure _
  | invoke op member => exact (keeps_request hl op member).bind' fun _ => .pure _
  | type op desc => exact (keeps_onType hl classes op desc).bind' fun _ => .pure _
  | frame op => exact (keeps_frame hl hi).bind' fun _ => .pure _

end Exec

end Resumable
