import Resumable.Proofs.Outcome

/-!
# What operations leave on the operand stack

One lemma for each operation of an activation: where it succeeds, what it has found and what it has
left. An operation changes the operands or the locals, and nothing else about the activation.
-/

namespace Resumable

/-- The activation with other operands. -/
def Activation.withStack (a : Activation) (stack : List Value) : Activation := { a with stack }

/-- How many operands a jump looks at. -/
def Opcode.inspected : Opcode → Nat
  | .goto => 0
  | .ifIcmpeq | .ifIcmpne | .ifIcmplt | .ifIcmpge | .ifIcmpgt | .ifIcmple
  | .ifAcmpeq | .ifAcmpne => 2
  | _ => 1

theorem Opcode.inspected_of_intTest {op : Opcode} {test : Int32 → Bool}
    (h : op.intTest? = some test) : op.inspected = 1 ∧ op ≠ .goto := by
  cases op <;> first | exact ⟨rfl, nofun⟩ | cases h

theorem Opcode.inspected_of_intComparison {op : Opcode} {compare : Int32 → Int32 → Bool}
    (h : op.intComparison? = some compare) : op.inspected = 2 ∧ op ≠ .goto := by
  cases op <;> first | exact ⟨rfl, nofun⟩ | cases h

namespace Exec.Does

variable {α : Type} {a a' : Activation} {m m' : Memory} {v r : Value} {kind : SlotKind}

/-! ## Operands -/

theorem push {u : Unit} (h : Does (Exec.push v) a m u a' m') :
    a' = a.withStack (v :: a.stack) ∧ m' = m := by
  cases h
  exact ⟨rfl, rfl⟩

theorem pop (h : Does Exec.pop a m r a' m') :
    ∃ rest, a.stack = r :: rest ∧ a' = a.withStack rest ∧ m' = m := by
  obtain ⟨a₁, a₁', m₁, hget, h⟩ := h.bind
  cases hget
  rcases hstack : a.stack with _ | ⟨v, rest⟩
  · rw [hstack] at h
    exact (not_throw h).elim
  · rw [hstack] at h
    cases h
    exact ⟨rest, rfl, rfl, rfl⟩

theorem peek (h : Does Exec.peek a m r a' m') :
    (∃ rest, a.stack = r :: rest) ∧ a' = a ∧ m' = m := by
  obtain ⟨a₁, a₁', m₁, hget, h⟩ := h.bind
  cases hget
  rcases hstack : a.stack with _ | ⟨v, rest⟩
  · rw [hstack] at h
    exact (not_throw h).elim
  · rw [hstack] at h
    cases h
    exact ⟨⟨rest, rfl⟩, rfl, rfl⟩

theorem popKind (h : Does (Exec.popKind kind) a m r a' m') :
    r.kind = kind ∧ ∃ rest, a.stack = r :: rest ∧ a' = a.withStack rest ∧ m' = m := by
  obtain ⟨v, a₁, m₁, hpop, hk⟩ := h.bind
  obtain ⟨rest, hstack, rfl, rfl⟩ := hpop.pop
  by_cases hv : v.kind = kind
  · rw [if_neg (not_not.2 hv)] at hk
    cases hk
    exact ⟨hv, rest, hstack, rfl, rfl⟩
  · rw [if_pos hv] at hk
    obtain ⟨_, _, _, hthrow, _⟩ := hk.bind
    exact (not_throw hthrow).elim

theorem popInt {n : Int32} (h : Does Exec.popInt a m n a' m') :
    ∃ rest, a.stack = .int n :: rest ∧ a' = a.withStack rest ∧ m' = m := by
  obtain ⟨v, a₁, m₁, hpop, hk⟩ := h.bind
  obtain ⟨rest, hstack, rfl, rfl⟩ := hpop.pop
  split at hk
  · cases hk
    exact ⟨rest, hstack, rfl, rfl⟩
  · exact (not_throw hk).elim

theorem popReference (h : Does Exec.popReference a m r a' m') :
    r.isReference = true ∧ ∃ rest, a.stack = r :: rest ∧ a' = a.withStack rest ∧ m' = m := by
  obtain ⟨v, a₁, m₁, hpop, hk⟩ := h.bind
  obtain ⟨rest, hstack, rfl, rfl⟩ := hpop.pop
  cases hv : v.isReference with
  | true =>
    rw [hv] at hk
    cases hk
    exact ⟨hv, rest, hstack, rfl, rfl⟩
  | false =>
    rw [hv] at hk
    obtain ⟨_, _, _, hthrow, _⟩ := hk.bind
    exact (not_throw hthrow).elim

/-! ## Memory -/

theorem getMemory {x : Memory} (h : Does (getThe Memory) a m x a' m') :
    x = m ∧ a' = a ∧ m' = m := by
  cases h
  exact ⟨rfl, rfl, rfl⟩

theorem not_throwNew {type message : String} {x : α} :
    ¬ Does (Exec.throwNew type message : Exec α) a m x a' m' := by
  intro h
  cases h

theorem checkIndex {length : Nat} {index : Int32} {i : Nat}
    (h : Does (Exec.checkIndex length index) a m i a' m') :
    i = index.toInt.toNat ∧ i < length ∧ a' = a ∧ m' = m := by
  unfold Exec.checkIndex at h
  dsimp only at h
  split at h
  · obtain ⟨_, _, _, hthrow, _⟩ := h.bind
    exact (not_throwNew hthrow).elim
  · cases h
    exact ⟨rfl, by omega, rfl, rfl⟩

theorem onStack {x : α} {f : FrameStack → Except RunError (α × FrameStack)}
    (h : Does (Exec.onStack f) a m x a' m') :
    a' = a ∧ ∃ coroutines, m.coroutines.onStack f = .ok (x, coroutines) ∧
      m' = { m with coroutines } := by
  obtain ⟨m₁, a₁, m₂, hget, hk⟩ := h.bind
  cases hget
  rcases hf : m.coroutines.onStack f with e | ⟨x', coroutines⟩
  · rw [hf] at hk
    exact (not_throw hk).elim
  · rw [hf] at hk
    cases hk
    exact ⟨rfl, coroutines, rfl, rfl⟩

/-! ## Locals -/

theorem local? {index : UInt16} (h : Does (Exec.local? index) a m r a' m') :
    a.locals[index.toNat]? = some r ∧ a' = a ∧ m' = m := by
  obtain ⟨a₁, a₁', m₁, hget, hk⟩ := h.bind
  cases hget
  rcases hlocal : a.locals[index.toNat]? with _ | v
  · rw [hlocal] at hk
    exact (not_throw hk).elim
  · rw [hlocal] at hk
    cases hk
    exact ⟨rfl, rfl, rfl⟩

theorem setLocal {index : UInt16} {u : Unit} (h : Does (Exec.setLocal index v) a m u a' m') :
    index.toNat < a.locals.length ∧ a' = { a with locals := a.locals.set index.toNat v } ∧
      m' = m := by
  obtain ⟨w, a₁, m₁, hlocal, hk⟩ := h.bind
  obtain ⟨hw, rfl, rfl⟩ := hlocal.local?
  cases hk
  exact ⟨(List.getElem?_eq_some_iff.1 hw).1, rfl, rfl⟩

/-! ## Arrays -/

theorem arrayLength {u : Unit} (h : Does Exec.arrayLength a m u a' m') :
    ∃ v rest n, a.stack = v :: rest ∧ a' = a.withStack (.int n :: rest) := by
  obtain ⟨v, a₁, m₁, hpop, hk₁⟩ := h.bind
  obtain ⟨-, rest, hstack, rfl, rfl⟩ := hpop.popReference
  split at hk₁
  · obtain ⟨x, a₂, m₂, hget, hk₂⟩ := hk₁.bind
    obtain ⟨-, rfl, rfl⟩ := hget.getMemory
    obtain ⟨rfl, -⟩ := hk₂.push
    exact ⟨_, rest, _, hstack, rfl⟩
  · exact (not_throw hk₁).elim
  · exact (not_throw hk₁).elim

theorem arrayLoad {u : Unit} (h : Does Exec.arrayLoad a m u a' m') :
    ∃ index id rest v, a.stack = .int index :: .array id :: rest ∧
      (m.heap.items id)[index.toInt.toNat]? = some v ∧ a' = a.withStack (v :: rest) := by
  obtain ⟨index, a₁, m₁, hindex, hk₁⟩ := h.bind
  obtain ⟨rest₁, hstack₁, rfl, rfl⟩ := hindex.popInt
  obtain ⟨array, a₂, m₂, harray, hk₂⟩ := hk₁.bind
  obtain ⟨-, rest₂, hstack₂, rfl, rfl⟩ := harray.popReference
  obtain rfl : rest₁ = array :: rest₂ := hstack₂
  split at hk₂
  · rename_i id
    obtain ⟨x, a₃, m₃, hget, hk₃⟩ := hk₂.bind
    obtain ⟨rfl, rfl, rfl⟩ := hget.getMemory
    obtain ⟨i, a₄, m₄, hcheck, hk₄⟩ := hk₃.bind
    obtain ⟨rfl, hlt, rfl, rfl⟩ := hcheck.checkIndex
    obtain ⟨rfl, -⟩ := hk₄.push
    have hitem := Array.getElem?_eq_getElem hlt
    refine ⟨index, id, rest₂, _, hstack₁, hitem, ?_⟩
    rw [hitem]
    rfl
  · exact (not_throw hk₂).elim

theorem arrayStore {u : Unit} (h : Does Exec.arrayStore a m u a' m') :
    ∃ v index array rest, a.stack = v :: index :: array :: rest ∧ a' = a.withStack rest := by
  obtain ⟨v, a₁, m₁, hvalue, hk₁⟩ := h.bind
  obtain ⟨rest₁, hstack₁, rfl, rfl⟩ := hvalue.pop
  obtain ⟨index, a₂, m₂, hindex, hk₂⟩ := hk₁.bind
  obtain ⟨rest₂, hstack₂, rfl, rfl⟩ := hindex.popInt
  obtain rfl : rest₁ = .int index :: rest₂ := hstack₂
  obtain ⟨array, a₃, m₃, harray, hk₃⟩ := hk₂.bind
  obtain ⟨-, rest₃, hstack₃, rfl, rfl⟩ := harray.popReference
  obtain rfl : rest₂ = array :: rest₃ := hstack₃
  split at hk₃
  · obtain ⟨x, a₄, m₄, hget, hk₄⟩ := hk₃.bind
    obtain ⟨rfl, rfl, rfl⟩ := hget.getMemory
    obtain ⟨i, a₅, m₅, hcheck, hk₅⟩ := hk₄.bind
    obtain ⟨-, -, rfl, rfl⟩ := hcheck.checkIndex
    cases hk₅
    exact ⟨v, _, _, rest₃, hstack₁, rfl⟩
  · exact (not_throw hk₃).elim

/-! ## Fields -/

theorem field_getfield {member : MemberRef} {u : Unit}
    (h : Does (Exec.field .getfield member) a m u a' m') :
    ∃ id rest, a.stack = .object id :: rest ∧ a' = a.withStack
      ((m.heap.getField? id member.name).getD (.initial member.desc) :: rest) := by
  obtain ⟨v, a₁, m₁, hpop, hk₁⟩ := h.bind
  obtain ⟨-, rest, hstack, rfl, rfl⟩ := hpop.popReference
  split at hk₁
  · rename_i id
    obtain ⟨x, a₂, m₂, hget, hk₂⟩ := hk₁.bind
    obtain ⟨rfl, rfl, rfl⟩ := hget.getMemory
    obtain ⟨rfl, -⟩ := hk₂.push
    exact ⟨id, rest, hstack, rfl⟩
  · exact (not_throw hk₁).elim

theorem field_putfield {member : MemberRef} {u : Unit}
    (h : Does (Exec.field .putfield member) a m u a' m') :
    ∃ v object rest, a.stack = v :: object :: rest ∧ a' = a.withStack rest := by
  obtain ⟨v, a₁, m₁, hvalue, hk₁⟩ := h.bind
  obtain ⟨rest₁, hstack₁, rfl, rfl⟩ := hvalue.pop
  obtain ⟨object, a₂, m₂, hobject, hk₂⟩ := hk₁.bind
  obtain ⟨-, rest₂, hstack₂, rfl, rfl⟩ := hobject.popReference
  obtain rfl : rest₁ = object :: rest₂ := hstack₂
  split at hk₂
  · cases hk₂
    exact ⟨v, _, rest₂, hstack₁, rfl⟩
  · exact (not_throw hk₂).elim

theorem field_getstatic {member : MemberRef} {u : Unit}
    (h : Does (Exec.field .getstatic member) a m u a' m') :
    a' = a.withStack
      ((m.getStatic? member.owner member.name).getD (.initial member.desc) :: a.stack) := by
  obtain ⟨x, a₁, m₁, hget, hk₁⟩ := h.bind
  obtain ⟨rfl, rfl, rfl⟩ := hget.getMemory
  exact hk₁.push.1

theorem field_putstatic {member : MemberRef} {u : Unit}
    (h : Does (Exec.field .putstatic member) a m u a' m') :
    ∃ v rest, a.stack = v :: rest ∧ a' = a.withStack rest := by
  obtain ⟨v, a₁, m₁, hvalue, hk₁⟩ := h.bind
  obtain ⟨rest, hstack, rfl, rfl⟩ := hvalue.pop
  cases hk₁
  exact ⟨v, rest, hstack, rfl⟩

/-! ## Types -/

theorem onType_new {classes : ClassTable} {desc : String} {u : Unit}
    (h : Does (Exec.onType classes .new desc) a m u a' m') :
    ∃ id, a' = a.withStack (.object id :: a.stack) := by
  unfold Exec.onType at h
  dsimp only at h
  split at h
  · obtain ⟨_, _, _, hthrow, _⟩ := h.bind
    exact (not_throw hthrow).elim
  · cases h
    exact ⟨_, rfl⟩

/-- A cast leaves the operand where it is; only a reference comes through. -/
theorem onType_checkcast {classes : ClassTable} {desc : String} {u : Unit}
    (h : Does (Exec.onType classes .checkcast desc) a m u a' m') :
    ∃ v rest, a.stack = v :: rest ∧ v.isReference = true ∧ a' = a := by
  obtain ⟨v, a₁, m₁, hpeek, hk₁⟩ := h.bind
  obtain ⟨⟨rest, hstack⟩, rfl, rfl⟩ := hpeek.peek
  obtain ⟨x, a₂, m₂, hget, hk₂⟩ := hk₁.bind
  obtain ⟨rfl, rfl, rfl⟩ := hget.getMemory
  dsimp only at hk₂
  split at hk₂
  · exact (not_throwNew hk₂).elim
  · rename_i hcast
    cases hk₂
    refine ⟨v, rest, hstack, ?_, rfl⟩
    -- A primitive is no instance of anything, so it would not have come through.
    cases v <;> first | rfl | exact absurd rfl hcast

theorem onType_instanceOf {classes : ClassTable} {desc : String} {u : Unit}
    (h : Does (Exec.onType classes .instanceOf desc) a m u a' m') :
    ∃ v rest n, a.stack = v :: rest ∧ a' = a.withStack (.int n :: rest) := by
  obtain ⟨v, a₁, m₁, hpop, hk₁⟩ := h.bind
  obtain ⟨-, rest, hstack, rfl, rfl⟩ := hpop.popReference
  obtain ⟨x, a₂, m₂, hget, hk₂⟩ := hk₁.bind
  obtain ⟨rfl, rfl, rfl⟩ := hget.getMemory
  obtain ⟨rfl, -⟩ := hk₂.push
  exact ⟨v, rest, _, hstack, rfl⟩

theorem onType_newarray {classes : ClassTable} {desc : String} {u : Unit}
    (h : Does (Exec.onType classes .newarray desc) a m u a' m') :
    ∃ v rest id, a.stack = v :: rest ∧ a' = a.withStack (.array id :: rest) := by
  obtain ⟨n, a₁, m₁, hpop, hk₁⟩ := h.bind
  obtain ⟨rest, hstack, rfl, rfl⟩ := hpop.popInt
  dsimp only at hk₁
  split at hk₁
  · obtain ⟨_, _, _, hthrow, _⟩ := hk₁.bind
    exact (not_throwNew hthrow).elim
  · cases hk₁
    exact ⟨_, rest, _, hstack, rfl⟩

/-! ## Jumps and calls -/

/-- What a jump looks at is gone when it is decided. -/
theorem condition {op : Opcode} {taken : Bool} (h : Does (Exec.condition op) a m taken a' m') :
    a' = a.withStack (a.stack.drop op.inspected) ∧ (op = .goto → taken = true) := by
  unfold Exec.condition at h
  split at h
  · rename_i test _ htest
    obtain ⟨n, a₁, m₁, hpop, hk₁⟩ := h.bind
    obtain ⟨rest, hstack, rfl, rfl⟩ := hpop.popInt
    cases hk₁
    obtain ⟨hone, hgoto⟩ := Opcode.inspected_of_intTest htest
    rw [hone, hstack]
    exact ⟨rfl, fun hop => absurd hop hgoto⟩
  · rename_i compare _ hcompare
    obtain ⟨x, a₁, m₁, hx, hk₁⟩ := h.bind
    obtain ⟨rest₁, hstack₁, rfl, rfl⟩ := hx.popInt
    obtain ⟨y, a₂, m₂, hy, hk₂⟩ := hk₁.bind
    obtain ⟨rest₂, hstack₂, rfl, rfl⟩ := hy.popInt
    obtain rfl : rest₁ = .int y :: rest₂ := hstack₂
    cases hk₂
    obtain ⟨htwo, hgoto⟩ := Opcode.inspected_of_intComparison hcompare
    rw [htwo, hstack₁]
    exact ⟨rfl, fun hop => absurd hop hgoto⟩
  · split at h
    case h_1 =>
      cases h
      exact ⟨rfl, fun _ => rfl⟩
    case h_2 | h_3 =>
      obtain ⟨x, a₁, m₁, hx, hk₁⟩ := h.bind
      obtain ⟨-, rest₁, hstack₁, rfl, rfl⟩ := hx.popReference
      obtain ⟨y, a₂, m₂, hy, hk₂⟩ := hk₁.bind
      obtain ⟨-, rest₂, hstack₂, rfl, rfl⟩ := hy.popReference
      obtain rfl : rest₁ = y :: rest₂ := hstack₂
      cases hk₂
      rw [hstack₁]
      exact ⟨rfl, nofun⟩
    case h_4 | h_5 =>
      obtain ⟨x, a₁, m₁, hx, hk₁⟩ := h.bind
      obtain ⟨-, rest, hstack, rfl, rfl⟩ := hx.popReference
      cases hk₁
      rw [hstack]
      exact ⟨rfl, nofun⟩
    case h_6 => exact (not_throw h).elim

theorem jumpTo {l : Label} {move : Move} (h : Does (Exec.jumpTo l) a m move a' m') :
    ∃ pc, move = .goto pc ∧ labelPosition? a.method.method.code l = some pc ∧ a' = a := by
  obtain ⟨a₁, a₂, m₁, hget, hk₁⟩ := h.bind
  cases hget
  unfold LoadedMethod.position at hk₁
  rcases hpos : labelPosition? a.method.method.code l with _ | pc
  · rw [hpos] at hk₁
    exact (not_throw hk₁).elim
  · rw [hpos] at hk₁
    cases hk₁
    exact ⟨pc, rfl, rfl, rfl⟩

theorem request {op : Opcode} {member : MemberRef} {c : Call}
    (h : Does (Exec.request op member) a m c a' m') :
    ∃ type, MethodType.parse member.desc = .ok type ∧ c.op = op ∧ c.member = member ∧
      a' = a.withStack (a.stack.drop (type.arity + if op = .invokestatic then 0 else 1)) := by
  unfold Exec.request Exec.methodType at h
  rcases htype : MethodType.parse member.desc with cause | type
  · rw [htype] at h
    exact (not_throw h).elim
  · rw [htype] at h
    obtain ⟨a₁, a₂, m₁, hget, hk₁⟩ := h.bind
    cases hget
    dsimp only at hk₁
    by_cases hlt : a.stack.length < type.arity + if op = .invokestatic then 0 else 1
    · rw [if_pos hlt] at hk₁
      obtain ⟨_, _, _, hthrow, _⟩ := hk₁.bind
      exact (not_throw hthrow).elim
    · rw [if_neg hlt] at hk₁
      cases hk₁
      exact ⟨type, rfl, rfl, rfl, rfl⟩

end Exec.Does

end Resumable
