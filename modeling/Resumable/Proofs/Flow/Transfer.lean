import Resumable.Proofs.Flow.Order
import Resumable.Proofs.Machine.Operands

/-!
# Instructions keep what is known

The analysis runs an instruction on what is known, and an activation runs it on values. If the
values are such as the frame in front of the instruction says, they are so behind it (`Carries`),
provided that what is read from the memory has its static type.

There are two exceptions, for which nothing can be told of the value on top (`Instr.strays`): the
conversion of a float to a double, which the analysis takes for a conversion to a long, and the
reference that is taken out of a slot, which may be anything if the slots come from outside.
-/

namespace Resumable

open List (Forall₂)

/-! ## Reading from the memory -/

/-- What the instruction is about to take from the memory, if it takes anything. -/
def Activation.read? (a : Activation) (m : Memory) : Instr → Option Value
  | .field .getfield member =>
    match a.stack with
    | .object id :: _ => some ((m.heap.getField? id member.name).getD (.initial member.desc))
    | _ => none
  | .field .getstatic member =>
    some ((m.getStatic? member.owner member.name).getD (.initial member.desc))
  | .simple .aaload | .simple .iaload =>
    match a.stack with
    | .int index :: .array id :: _ => (m.heap.items id)[index.toInt.toNat]?
    | _ => none
  | _ => none

/-- The static type of what the instruction takes from the memory. -/
def Frame.readType? (f : Frame) : Instr → Option FlowValue
  | .field .getfield member | .field .getstatic member => FlowValue.ofDescriptor? member.desc
  | .simple .iaload => some .int
  | .simple .aaload => f.stack[1]?.map FlowValue.element
  | _ => none

/-- What the instruction takes from the memory has its static type. -/
def Frame.ReadsTyped (f : Frame) (a : Activation) (m : Memory) (i : Instr) : Prop :=
  ∀ t v, f.readType? i = some t → a.read? m i = some v → t.Admits v

/-! ## Instructions that stray -/

/-- The analysis may be wrong about what the instruction leaves on top. -/
def Instr.strays : Instr → Bool
  | .simple .f2d => true
  | .frame (.restore .ref _) => true
  | _ => false

/-- What can be told behind the instruction, of what the analysis tells. -/
def Frame.truth (f : Frame) (i : Instr) : Frame :=
  if i.strays then { f with stack := .unknown :: f.stack.tail } else f

/-- The activation has gone on in the same method to values such as can be told. -/
structure Carries (i : Instr) (f : Frame) (a a' : Activation) : Prop where
  method : a'.method = a.method
  holds : (f.truth i).Holds a'

/-! ## Operations without operands -/

namespace FlowValue

/-- Of a primitive only its kind is known. -/
theorem Admits.of_kind {t : FlowValue} {v w : Value} (h : t.Admits v) (hv : v.kind ≠ .ref)
    (hw : w.kind = v.kind) : t.Admits w := by
  cases t with
  | unknown => trivial
  | int | long | float | double => exact hw.trans h
  | null =>
    rw [show v = .null from h] at hv
    exact absurd rfl hv
  | reference | fresh =>
    have href : (v.kind == .ref) = true := h
    exact absurd (by simpa using href) hv

end FlowValue

namespace Opcode

variable {op : Opcode} {kind : SlotKind}

/-- Operations on one primitive replace it by one of the kind that the analysis tells. -/
theorem unary_spec {apply : Value → Value} (h : op.unary? = some (kind, apply)) :
    op.isTerminator = false ∧ ∀ {f g : Frame} {index : Nat}, f.stepSimple index op = .ok g →
      ∃ t rest t', f.stack = t :: rest ∧ g = ⟨f.locals, t' :: rest⟩ ∧
        (op ≠ .f2d → ∀ v, v.kind = kind → t.Admits v → t'.Admits (apply v)) := by
  cases op <;> simp only [unary?, reduceCtorEq, Option.some.injEq, Prod.mk.injEq] at h
  all_goals
    obtain ⟨rfl, rfl⟩ := h
    refine ⟨rfl, ?_⟩
    intro f g index hstep
  case ineg | lneg | fneg | dneg =>
    obtain ⟨t, f', rfl, hk⟩ := Frame.pop_bind hstep
    cases hk
    refine ⟨t, f'.stack, t, rfl, rfl, fun _ v hv ht => ?_⟩
    cases v <;> cases hv
    exact ht.of_kind nofun rfl
  all_goals
    obtain ⟨t, -, rest, hrest, rfl⟩ := Frame.convert_eq_ok hstep
    refine ⟨t, rest, _, hrest, rfl, fun hop v hv _ => ?_⟩
    cases v <;> cases hv
    first
      | rfl
      | exact absurd rfl hop

/-- Operations on two primitives replace them by one of the kind that the analysis tells. -/
theorem binary_spec {apply : Value → Value → Except RunError Value}
    (h : op.binary? = some (kind, apply)) :
    op.isTerminator = false ∧ ∀ {f g : Frame} {index : Nat}, f.stepSimple index op = .ok g →
      ∃ t, g = ⟨f.locals, t :: f.stack.drop 2⟩ ∧
        ∀ a b v, a.kind = kind → b.kind = kind → apply a b = .ok v → t.Admits v := by
  cases op <;> simp only [binary?, reduceCtorEq, Option.some.injEq, Prod.mk.injEq] at h
  all_goals
    obtain ⟨rfl, rfl⟩ := h
    refine ⟨rfl, ?_⟩
    intro f g index hstep
    obtain ⟨-, rfl⟩ := Frame.replace_eq_ok.1 hstep
    refine ⟨_, rfl, fun a b v ha hb hv => ?_⟩
    cases a <;> cases ha
    cases b <;> cases hb
  case idiv | irem | ldiv | lrem =>
    simp only [Value.onInts, Value.onLongs] at hv
    split at hv <;> cases hv
    rfl
  all_goals
    cases hv
    rfl

end Opcode

variable {f g : Frame} {a a' : Activation} {m m' : Memory} {index : Nat} {classes : ClassTable}

theorem Frame.truth_of_not_strays {i : Instr} (h : i.strays = false) : f.truth i = f := by
  unfold truth
  rw [h]
  rfl

/-- Where the analysis is right, what it tells can be told. -/
theorem Carries.of_holds {i : Instr} (hi : i.strays = false) (hmethod : a'.method = a.method)
    (h : f.Holds a') : Carries i f a a' :=
  ⟨hmethod, by rwa [Frame.truth_of_not_strays hi]⟩

/-- What is known of the operand on top. -/
theorem Frame.Holds.stack_cons (hf : f.Holds a) {v : Value} {vs : List Value}
    (ha : a.stack = v :: vs) :
    ∃ t ts, f.stack = t :: ts ∧ t.Admits v ∧ Forall₂ FlowValue.Admits ts vs := by
  have h := hf.stack
  rw [ha] at h
  obtain ⟨t, ts, ht, hts, heq⟩ := List.forall₂_cons_right_iff.1 h
  exact ⟨t, ts, heq, ht, hts⟩

theorem Frame.Holds.drop (hf : f.Holds a) (count : Nat) {rest : List Value}
    (hrest : a.stack.drop count = rest) :
    Frame.Holds ⟨f.locals, f.stack.drop count⟩ (a.withStack rest) :=
  ⟨hf.locals, hrest ▸ List.forall₂_drop count hf.stack⟩

theorem Frame.Holds.push {stack : List Value} (hf : f.Holds (a.withStack stack)) {t : FlowValue}
    {v : Value} (hv : t.Admits v) : Frame.Holds (f.push t) (a.withStack (v :: stack)) :=
  ⟨hf.locals, .cons hv hf.stack⟩

/-- An operation on primitives leaves what the analysis tells. -/
theorem arithmetic_sound {op : Opcode} {move : Move} (hf : f.Holds a)
    (hstep : f.stepSimple index op = .ok g)
    (h : Exec.Does (match op.unary?, op.binary? with
      | some (kind, apply), _ => do
        Exec.push (apply (← Exec.popKind kind))
        return .next
      | none, some (kind, apply) => do
        let y ← Exec.popKind kind
        let x ← Exec.popKind kind
        match apply x y with
        | .ok v =>
          Exec.push v
          return .next
        | .error e => throw e
      | none, none => throw (.code (.needsOperands op))) a m move a' m') :
    move = .next ∧ op.isTerminator = false ∧ Carries (.simple op) g a a' := by
  split at h
  · rename_i kind apply _ hunary
    obtain ⟨hterm, hspec⟩ := Opcode.unary_spec hunary
    obtain ⟨v, a₁, m₁, hpop, hk⟩ := h.bind
    obtain ⟨hv, rest, hstack, rfl, rfl⟩ := hpop.popKind
    cases hk
    refine ⟨rfl, hterm, rfl, ?_⟩
    obtain ⟨t, ts, t', hts, rfl, hadmits⟩ := hspec hstep
    obtain ⟨t₀, ts₀, hts₀, ht, hrest⟩ := hf.stack_cons hstack
    cases hts.symm.trans hts₀
    by_cases hop : op = .f2d
    · subst hop
      exact ⟨hf.locals, .cons trivial hrest⟩
    · rw [Frame.truth_of_not_strays (by cases op <;> first | rfl | exact absurd rfl hop)]
      exact ⟨hf.locals, .cons (hadmits hop v hv ht) hrest⟩
  · rename_i kind apply hunary hbinary
    obtain ⟨hterm, hspec⟩ := Opcode.binary_spec hbinary
    obtain ⟨y, a₁, m₁, hy, hk₁⟩ := h.bind
    obtain ⟨hykind, rest₁, hstack₁, rfl, rfl⟩ := hy.popKind
    obtain ⟨x, a₂, m₂, hx, hk₂⟩ := hk₁.bind
    obtain ⟨hxkind, rest₂, hstack₂, rfl, rfl⟩ := hx.popKind
    obtain rfl : rest₁ = x :: rest₂ := hstack₂
    obtain ⟨t, rfl, hadmits⟩ := hspec hstep
    have hstray : (Instr.simple op).strays = false := by
      cases op <;> first | rfl | cases hunary
    split at hk₂
    · rename_i v happly
      cases hk₂
      refine ⟨rfl, hterm, .of_holds hstray rfl ?_⟩
      exact (hf.drop 2 (by rw [hstack₁]; rfl)).push (hadmits x y v hxkind hykind happly)
    · exact (Exec.Does.not_throw hk₂).elim
  · exact (Exec.Does.not_throw h).elim

/-- An operation without operands passes control on with what the analysis tells, or leaves the
method. -/
theorem simple_sound {op : Opcode} {move : Move} (hf : f.Holds a)
    (hstep : f.stepSimple index op = .ok g) (hreads : f.ReadsTyped a m (.simple op))
    (h : (Exec.simple op).Does a m move a' m') :
    (∃ result, move = .leave result) ∨
      move = .next ∧ op.isTerminator = false ∧ Carries (.simple op) g a a' := by
  cases op
  case nop =>
    cases hstep
    cases h
    exact .inr ⟨rfl, rfl, .of_holds rfl rfl hf⟩
  case ret =>
    cases h
    exact .inl ⟨none, rfl⟩
  case aconstNull =>
    cases hstep
    cases h
    exact .inr ⟨rfl, rfl, .of_holds rfl rfl ⟨hf.locals, .cons rfl hf.stack⟩⟩
  case pop =>
    obtain ⟨v, a₁, m₁, hpop, hk⟩ := h.bind
    obtain ⟨rest, hstack, rfl, rfl⟩ := hpop.pop
    cases hk
    obtain ⟨-, rfl⟩ := Frame.drop_eq_ok.1 hstep
    exact .inr ⟨rfl, rfl, .of_holds rfl rfl (hf.drop 1 (by rw [hstack]; rfl))⟩
  case dup =>
    obtain ⟨v, a₁, m₁, hpeek, hk⟩ := h.bind
    obtain ⟨⟨rest, hstack⟩, rfl, rfl⟩ := hpeek.peek
    cases hk
    obtain ⟨t, ts, t', hts, rfl, hcopy⟩ := Frame.duplicate_eq_ok hstep
    obtain ⟨t₀, ts₀, hts₀, ht, -⟩ := hf.stack_cons hstack
    cases hts.symm.trans hts₀
    exact .inr ⟨rfl, rfl, .of_holds rfl rfl ⟨hf.locals, .cons (hcopy v ht) hf.stack⟩⟩
  case dupX1 | swap =>
    obtain ⟨x, a₁, m₁, hx, hk₁⟩ := h.bind
    obtain ⟨rest₁, hstack₁, rfl, rfl⟩ := hx.pop
    obtain ⟨y, a₂, m₂, hy, hk₂⟩ := hk₁.bind
    obtain ⟨rest₂, hstack₂, rfl, rfl⟩ := hy.pop
    obtain rfl : rest₁ = y :: rest₂ := hstack₂
    cases hk₂
    obtain ⟨t, f₁, rfl, hstep₁⟩ := Frame.pop_bind hstep
    obtain ⟨t', f₂, rfl, hstep₂⟩ := Frame.pop_bind hstep₁
    cases hstep₂
    have hall := hf.stack
    rw [hstack₁] at hall
    rcases hall with _ | ⟨ht, _ | ⟨ht', hrest⟩⟩
    refine .inr ⟨rfl, rfl, .of_holds rfl rfl ⟨hf.locals, ?_⟩⟩
    first
      | exact .cons ht (.cons ht' (.cons ht hrest))
      | exact .cons ht' (.cons ht hrest)
  case ireturn | lreturn | freturn | dreturn | areturn =>
    obtain ⟨v, a₁, m₁, hpop, hk⟩ := h.bind
    cases hk
    exact .inl ⟨some v, rfl⟩
  case athrow =>
    obtain ⟨v, a₁, m₁, hpop, hk⟩ := h.bind
    dsimp only at hk
    split at hk
    · obtain ⟨_, _, _, hthrow, _⟩ := hk.bind
      exact (Exec.Does.not_throw hthrow).elim
    · exact (Exec.Does.not_throw hk).elim
  case monitorenter | monitorexit =>
    obtain ⟨v, a₁, m₁, hpop, hk⟩ := h.bind
    obtain ⟨-, rest, hstack, rfl, rfl⟩ := hpop.popReference
    obtain ⟨-, rfl⟩ := Frame.drop_eq_ok.1 hstep
    dsimp only at hk
    split at hk
    · obtain ⟨_, _, _, hthrow, _⟩ := hk.bind
      exact (Exec.Does.not_throw hthrow).elim
    · cases hk
      exact .inr ⟨rfl, rfl, .of_holds rfl rfl (hf.drop 1 (by rw [hstack]; rfl))⟩
  case arraylength =>
    obtain ⟨_, a₁, m₁, hlength, hk⟩ := h.bind
    obtain ⟨v, rest, n, hstack, rfl⟩ := hlength.arrayLength
    cases hk
    obtain ⟨-, rfl⟩ := Frame.replace_eq_ok.1 hstep
    exact .inr ⟨rfl, rfl, .of_holds rfl rfl ((hf.drop 1 (by rw [hstack]; rfl)).push rfl)⟩
  case iaload =>
    obtain ⟨_, a₁, m₁, hload, hk⟩ := h.bind
    obtain ⟨i, id, rest, v, hstack, hitem, rfl⟩ := hload.arrayLoad
    cases hk
    obtain ⟨-, rfl⟩ := Frame.replace_eq_ok.1 hstep
    have hv : FlowValue.int.Admits v := hreads .int v rfl (by
      simp only [Activation.read?, hstack, hitem])
    exact .inr ⟨rfl, rfl, .of_holds rfl rfl ((hf.drop 2 (by rw [hstack]; rfl)).push hv)⟩
  case aaload =>
    obtain ⟨_, a₁, m₁, hload, hk⟩ := h.bind
    obtain ⟨i, id, rest, v, hstack, hitem, rfl⟩ := hload.arrayLoad
    cases hk
    obtain ⟨t, f₁, rfl, hstep₁⟩ := Frame.pop_bind hstep
    obtain ⟨array, f₂, rfl, hstep₂⟩ := Frame.pop_bind hstep₁
    cases hstep₂
    have hv : array.element.Admits v := hreads array.element v rfl (by
      simp only [Activation.read?, hstack, hitem])
    refine .inr ⟨rfl, rfl, .of_holds rfl rfl ?_⟩
    exact (hf.drop 2 (by rw [hstack]; rfl)).push hv
  case aastore | iastore =>
    obtain ⟨_, a₁, m₁, hstore, hk⟩ := h.bind
    obtain ⟨x, y, z, rest, hstack, rfl⟩ := hstore.arrayStore
    cases hk
    obtain ⟨-, rfl⟩ := Frame.drop_eq_ok.1 hstep
    exact .inr ⟨rfl, rfl, .of_holds rfl rfl (hf.drop 3 (by rw [hstack]; rfl))⟩
  all_goals exact .inr (arithmetic_sound hf hstep h)

/-! ## Slots of a coroutine -/

/-- A primitive slot gives a value of the kind that is asked for. -/
theorem kind_of_restore {s : FrameStack} {kind : SlotKind} {slot : UInt32} {v : Value}
    (h : s.restore kind slot = .ok v) (hkind : kind ≠ .ref) : v.kind = kind := by
  obtain ⟨i, -, h⟩ := bind_eq_ok.1 h
  cases kind <;> cases h <;> first | rfl | exact absurd rfl hkind

/-- What is done with the stack of the active coroutine is done with some stack. -/
theorem onStack_eq_ok {α : Type} {cs cs' : Coroutines} {x : α}
    {work : FrameStack → Except RunError (α × FrameStack)} (h : cs.onStack work = .ok (x, cs')) :
    ∃ s s', work s = .ok (x, s') := by
  unfold Coroutines.onStack Coroutines.onActive at h
  split at h
  · cases h
  · split at h
    · cases h
    · rename_i c _
      obtain ⟨⟨y, c'⟩, hactive, h⟩ := bind_eq_ok.1 h
      obtain ⟨⟨z, s'⟩, hwork, hc⟩ := bind_eq_ok.1 hactive
      cases hc
      cases h
      exact ⟨c.stack, s', hwork⟩

/-- An operation on the frame of the active coroutine leaves what the analysis tells, except that a
reference out of a slot may be anything. -/
theorem frame_sound {op : FrameOp} {u : Unit} (hf : f.Holds a)
    (hstep : f.step index (.frame op) = .ok g) (h : (Exec.frame op).Does a m u a' m') :
    (Instr.frame op).fallsThrough = true ∧ Carries (.frame op) g a a' := by
  cases op with
  | entry =>
    obtain ⟨n, a₁, m₁, henter, hk⟩ := h.bind
    obtain ⟨rfl, -⟩ := henter.onStack
    dsimp only at hk
    split at hk
    · obtain ⟨_, _, _, hthrow, _⟩ := hk.bind
      exact (Exec.Does.not_throw hthrow).elim
    · cases hk
      cases hstep
      exact ⟨rfl, .of_holds rfl rfl ⟨hf.locals, .cons rfl hf.stack⟩⟩
  | reserve | release =>
    obtain ⟨rfl, -⟩ := h.onStack
    cases hstep
    exact ⟨rfl, .of_holds rfl rfl hf⟩
  | save =>
    obtain ⟨v, a₁, m₁, hpop, hk⟩ := h.bind
    obtain ⟨rest, hstack, rfl, rfl⟩ := hpop.pop
    obtain ⟨rfl, -⟩ := hk.onStack
    obtain ⟨-, rfl⟩ := Frame.drop_eq_ok.1 hstep
    exact ⟨rfl, .of_holds rfl rfl (hf.drop 1 (by rw [hstack]; rfl))⟩
  | restore kind slot =>
    obtain ⟨v, a₁, m₁, hrestore, hk⟩ := h.bind
    obtain ⟨rfl, cs, hcs, rfl⟩ := hrestore.onStack
    obtain ⟨rfl, -⟩ := hk.push
    cases hstep
    by_cases hkind : kind = .ref
    · subst hkind
      exact ⟨rfl, rfl, hf.locals, .cons trivial hf.stack⟩
    · obtain ⟨s, s', hwork⟩ := onStack_eq_ok hcs
      obtain ⟨w, hw, hv⟩ := bind_eq_ok.1 hwork
      cases hv
      have hv : v.kind = kind := kind_of_restore hw hkind
      have hstray : (Instr.frame (.restore kind slot)).strays = false := by
        cases kind <;> first | rfl | exact absurd rfl hkind
      refine ⟨rfl, .of_holds hstray rfl ⟨hf.locals, .cons ?_ hf.stack⟩⟩
      cases kind <;> first | exact hv | exact absurd rfl hkind
  | suspend => exact (Exec.Does.not_throw h).elim

/-! ## Fields and types -/

theorem FlowValue.admits_reference {type : String} {v : Value} (h : v.isReference = true) :
    (FlowValue.reference type).Admits v := h

theorem field_sound {op : Opcode} {member : MemberRef} {u : Unit} (hf : f.Holds a)
    (hstep : f.step index (.field op member) = .ok g)
    (hreads : f.ReadsTyped a m (.field op member))
    (h : (Exec.field op member).Does a m u a' m') :
    (Instr.field op member).fallsThrough = true ∧ Carries (.field op member) g a a' := by
  rcases hdesc : FlowValue.ofDescriptor? member.desc with _ | t
  · simp only [Frame.step, hdesc] at hstep
    cases hstep
  · simp only [Frame.step, hdesc] at hstep
    cases op
    case getfield =>
      obtain ⟨id, rest, hstack, rfl⟩ := h.field_getfield
      obtain ⟨-, rfl⟩ := Frame.replace_eq_ok.1 hstep
      refine ⟨rfl, .of_holds rfl rfl ((hf.drop 1 (by rw [hstack]; rfl)).push ?_)⟩
      exact hreads t _ hdesc (by simp only [Activation.read?, hstack])
    case putfield =>
      obtain ⟨v, object, rest, hstack, rfl⟩ := h.field_putfield
      obtain ⟨-, rfl⟩ := Frame.drop_eq_ok.1 hstep
      exact ⟨rfl, .of_holds rfl rfl (hf.drop 2 (by rw [hstack]; rfl))⟩
    case getstatic =>
      obtain rfl := h.field_getstatic
      cases hstep
      exact ⟨rfl, .of_holds rfl rfl ⟨hf.locals, .cons (hreads t _ hdesc rfl) hf.stack⟩⟩
    case putstatic =>
      obtain ⟨v, rest, hstack, rfl⟩ := h.field_putstatic
      obtain ⟨-, rfl⟩ := Frame.drop_eq_ok.1 hstep
      exact ⟨rfl, .of_holds rfl rfl (hf.drop 1 (by rw [hstack]; rfl))⟩
    all_goals exact (Exec.Does.not_throw h).elim

theorem type_sound {op : Opcode} {desc : String} {u : Unit} (hf : f.Holds a)
    (hstep : f.step index (.type op desc) = .ok g)
    (h : (Exec.onType classes op desc).Does a m u a' m') :
    (Instr.type op desc).fallsThrough = true ∧ Carries (.type op desc) g a a' := by
  cases op
  case new =>
    obtain ⟨id, rfl⟩ := h.onType_new
    cases hstep
    exact ⟨rfl, .of_holds rfl rfl ⟨hf.locals, .cons rfl hf.stack⟩⟩
  case checkcast =>
    obtain ⟨v, rest, hstack, hv, rfl⟩ := h.onType_checkcast
    obtain ⟨t, f₁, rfl, hstep₁⟩ := Frame.pop_bind hstep
    cases hstep₁
    have hall := hf.stack
    rw [hstack] at hall
    rcases hall with _ | ⟨ht, hrest⟩
    refine ⟨rfl, .of_holds rfl rfl ⟨hf.locals, ?_⟩⟩
    rw [hstack]
    refine .cons ?_ hrest
    split
    · rename_i hnull
      exact hnull ▸ ht
    · exact FlowValue.admits_reference hv
  case instanceOf =>
    obtain ⟨v, rest, n, hstack, rfl⟩ := h.onType_instanceOf
    obtain ⟨-, rfl⟩ := Frame.replace_eq_ok.1 hstep
    exact ⟨rfl, .of_holds rfl rfl ((hf.drop 1 (by rw [hstack]; rfl)).push rfl)⟩
  case newarray =>
    obtain ⟨v, rest, id, hstack, rfl⟩ := h.onType_newarray
    obtain ⟨-, rfl⟩ := Frame.replace_eq_ok.1 hstep
    exact ⟨rfl, .of_holds rfl rfl ((hf.drop 1 (by rw [hstack]; rfl)).push rfl)⟩
  all_goals exact (Exec.Does.not_throw h).elim

/-! ## Locals -/

theorem Frame.Holds.setLocal (hf : f.Holds a) {slot : Nat} {t : FlowValue} {v : Value}
    (hv : t.Admits v) :
    Frame.Holds { f with locals := f.locals.set slot t } { a with locals := a.locals.set slot v } :=
  ⟨forall₂_set hf.locals hv slot, hf.stack⟩

theorem local_sound {op : Opcode} {slot : UInt16} {u : Unit} (hf : f.Holds a)
    (hstep : f.step index (.local op slot) = .ok g) (h : (Exec.onLocal op slot).Does a m u a' m') :
    (Instr.local op slot).fallsThrough = true ∧ Carries (.local op slot) g a a' := by
  cases op
  case iload | lload | fload | dload | aload =>
    obtain ⟨v, a₁, m₁, hlocal, hk⟩ := h.bind
    obtain ⟨hv, rfl, rfl⟩ := hlocal.local?
    obtain ⟨rfl, -⟩ := hk.push
    obtain ⟨t, ht, hstep⟩ := bind_eq_ok.1 hstep
    cases hstep
    have htv : t.Admits v := forall₂_getElem? hf.locals (Frame.getLocal_eq_ok.1 ht) hv
    exact ⟨rfl, .of_holds rfl rfl ⟨hf.locals, .cons htv hf.stack⟩⟩
  case istore | lstore | fstore | dstore | astore =>
    obtain ⟨v, a₁, m₁, hpop, hk⟩ := h.bind
    obtain ⟨rest, hstack, rfl, rfl⟩ := hpop.pop
    obtain ⟨-, rfl, rfl⟩ := hk.setLocal
    obtain ⟨t, f₁, rfl, hstep₁⟩ := Frame.pop_bind hstep
    obtain ⟨-, rfl⟩ := Frame.setLocal_eq_ok.1 hstep₁
    have hall := hf.stack
    rw [hstack] at hall
    rcases hall with _ | ⟨ht, hrest⟩
    have hrest : f₁.Holds (a.withStack rest) := ⟨hf.locals, hrest⟩
    exact ⟨rfl, .of_holds rfl rfl (hrest.setLocal ht)⟩
  all_goals exact (Exec.Does.not_throw h).elim

theorem inc_sound {slot : UInt16} {delta : Int32} {u : Unit} (hf : f.Holds a)
    (hstep : f.step index (.inc slot delta) = .ok g)
    (h : (Exec.increment slot delta).Does a m u a' m') : Carries (.inc slot delta) g a a' := by
  obtain ⟨v, a₁, m₁, hlocal, hk⟩ := h.bind
  obtain ⟨-, rfl, rfl⟩ := hlocal.local?
  split at hk
  · obtain ⟨-, rfl, rfl⟩ := hk.setLocal
    obtain ⟨-, rfl⟩ := Frame.setLocal_eq_ok.1 hstep
    exact .of_holds rfl rfl (hf.setLocal rfl)
  · exact (Exec.Does.not_throw hk).elim

/-! ## All instructions -/

/-- What an instruction that succeeds does, as the analysis sees it: control goes where the analysis
lets it go, with values such as can be told; a call takes its arguments, and with a result of the
promised type on top there are such values again. -/
def Move.Sound (i : Instr) (f : Frame) (a a' : Activation) : Move → Prop
  | .next => i.fallsThrough = true ∧ Carries i f a a'
  | .goto pc => (∃ l ∈ i.branchTargets, labelPosition? a.method.method.code l = some pc) ∧
      Carries i f a a'
  | .leave _ => True
  | .call c => i = .invoke c.op c.member ∧ a'.method = a.method ∧ a'.locals = a.locals ∧
      a'.pc = a.pc ∧ ∃ type, MethodType.parse c.member.desc = .ok type ∧
        ∀ vs, Forall₂ FlowValue.Admits (type.result.map FlowValue.ofFieldType).toList vs →
          f.Holds (a'.withStack (vs ++ a'.stack))

theorem jump_drop {op : Opcode} {l : Label} (hstep : f.step index (.jump op l) = .ok g) :
    g = { f with stack := f.stack.drop op.inspected } := by
  cases op
  case goto =>
    cases hstep
    rfl
  all_goals exact (Frame.drop_eq_ok.1 hstep).2

/-- **An instruction that succeeds keeps what is known.** -/
theorem instr_sound {i : Instr} {move : Move} (hf : f.Holds a) (hstep : f.step index i = .ok g)
    (hreads : f.ReadsTyped a m i) (h : (Exec.instr classes i).Does a m move a' m') :
    move.Sound i g a a' := by
  cases i with
  | label =>
    cases h
    cases hstep
    exact ⟨rfl, .of_holds rfl rfl hf⟩
  | simple op =>
    rcases simple_sound hf hstep hreads h with ⟨result, rfl⟩ | ⟨rfl, hterm, hcarries⟩
    · trivial
    · exact ⟨by simp [Instr.fallsThrough, Instr.opcode, hterm], hcarries⟩
  | const c =>
    cases h
    cases c <;> cases hstep <;>
      exact ⟨rfl, .of_holds rfl rfl ⟨hf.locals, .cons rfl hf.stack⟩⟩
  | «local» op slot =>
    obtain ⟨_, a₁, m₁, hlocal, hk⟩ := h.bind
    cases hk
    exact local_sound hf hstep hlocal
  | inc slot delta =>
    obtain ⟨_, a₁, m₁, hinc, hk⟩ := h.bind
    cases hk
    exact ⟨rfl, inc_sound hf hstep hinc⟩
  | jump op l =>
    obtain ⟨taken, a₁, m₁, hcondition, hk⟩ := h.bind
    obtain ⟨rfl, hgoto⟩ := hcondition.condition
    obtain rfl := jump_drop hstep
    have hcarries : Carries (.jump op l) { f with stack := f.stack.drop op.inspected } a
        (a.withStack (a.stack.drop op.inspected)) := .of_holds rfl rfl (hf.drop _ rfl)
    cases taken with
    | true =>
      obtain ⟨pc, rfl, hpos, rfl⟩ := hk.jumpTo
      exact ⟨⟨l, List.mem_singleton_self l, hpos⟩, hcarries⟩
    | false =>
      cases hk
      refine ⟨?_, hcarries⟩
      have hop : op ≠ .goto := fun hop => nomatch hgoto hop
      simpa [Instr.fallsThrough] using hop
  | switch low default targets =>
    obtain ⟨n, a₁, m₁, hpop, hk⟩ := h.bind
    obtain ⟨rest, hstack, rfl, rfl⟩ := hpop.popInt
    obtain ⟨pc, rfl, hpos, rfl⟩ := hk.jumpTo
    obtain ⟨-, rfl⟩ := Frame.drop_eq_ok.1 hstep
    refine ⟨⟨_, ?_, hpos⟩, .of_holds rfl rfl (hf.drop 1 (by rw [hstack]; rfl))⟩
    show _ ∈ default :: targets
    split
    · exact List.mem_cons_self
    · rcases htarget : targets[(n.toInt - low.toInt).toNat]? with _ | target
      · exact List.mem_cons_self
      · exact List.mem_cons_of_mem _ (List.mem_of_getElem? htarget)
  | field op member =>
    obtain ⟨_, a₁, m₁, hfield, hk⟩ := h.bind
    cases hk
    exact field_sound hf hstep hreads hfield
  | invoke op member =>
    obtain ⟨c, a₁, m₁, hrequest, hk⟩ := h.bind
    cases hk
    obtain ⟨type, htype, rfl, rfl, rfl⟩ := hrequest.request
    obtain ⟨type', htype', -, settle, hsettle, rfl⟩ := Frame.stepInvoke_eq_ok hstep
    cases htype.symm.trans htype'
    refine ⟨rfl, rfl, rfl, rfl, type, htype, fun vs hvs => ?_⟩
    have hmap : ∀ {ts : List FlowValue} {ws : List Value}, Forall₂ FlowValue.Admits ts ws →
        Forall₂ FlowValue.Admits (ts.map settle) ws := by
      intro ts ws hall
      exact List.forall₂_map_left_iff.2 (hall.imp hsettle)
    exact ⟨hmap hf.locals, List.rel_append hvs (hmap (List.forall₂_drop _ hf.stack))⟩
  | type op desc =>
    obtain ⟨_, a₁, m₁, htype, hk⟩ := h.bind
    cases hk
    exact type_sound hf hstep htype
  | frame op =>
    obtain ⟨_, a₁, m₁, hframe, hk⟩ := h.bind
    cases hk
    exact frame_sound hf hstep hframe

/-- Behind an instruction that may stray there is something on top, which after the conversion of a
float to a double is taken for a long. -/
theorem exists_top_of_strays {i : Instr} (hstep : f.step index i = .ok g) (hi : i.strays = true) :
    ∃ t ts, g.stack = t :: ts ∧ (i = .simple .f2d → t = .long) := by
  unfold Instr.strays at hi
  split at hi
  · obtain ⟨t, -, rest, -, rfl⟩ := Frame.convert_eq_ok hstep
    exact ⟨.long, rest, rfl, fun _ => rfl⟩
  · cases hstep
    exact ⟨_, f.stack, rfl, nofun⟩
  · cases hi

/-- The conversion of a float to a double leaves a double. -/
theorem f2d_result {move : Move} (h : (Exec.simple .f2d).Does a m move a' m') :
    move = .next ∧ ∃ bits rest, a'.stack = .double bits :: rest := by
  obtain ⟨v, a₁, m₁, hpop, hk⟩ := Exec.Does.bind h
  obtain ⟨hv, rest, hstack, rfl, rfl⟩ := hpop.popKind
  cases hk
  cases v <;> cases hv
  exact ⟨rfl, _, rest, rfl⟩

end Resumable
