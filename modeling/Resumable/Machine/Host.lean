import Resumable.Machine.Activation

/-!
# Methods of the host

Some methods have no code: the host implements them. What such a method does is left open. It works on
the memory and on whatever else the host keeps, and it answers, or asks the machine for something and
goes on when that has been carried out. A `Host` is all of this for any number of methods.

One thing is true of every host. Objects belong to the machine, and there is no way to make one
disappear or to give it another class, so the heap only grows (`Heap.Extends`).
-/

namespace Resumable

/-- All objects are still there and have kept their classes. -/
def Heap.Extends (h h' : Heap) : Prop :=
  ∀ id, id < h.objects.size → id < h'.objects.size ∧ (h'.object id).type = (h.object id).type

namespace Heap

variable {h h' h'' : Heap}

theorem Extends.refl (h : Heap) : h.Extends h := fun _ hid => ⟨hid, rfl⟩

theorem Extends.trans (h₁ : h.Extends h') (h₂ : h'.Extends h'') : h.Extends h'' := by
  intro id hid
  obtain ⟨hlt, htype⟩ := h₁ id hid
  obtain ⟨hlt', htype'⟩ := h₂ id hlt
  exact ⟨hlt', htype'.trans htype⟩

theorem extends_push (h : Heap) (x : Object) : h.Extends { h with objects := h.objects.push x } := by
  intro id hid
  refine ⟨by simp; omega, ?_⟩
  simp [object, Array.getElem?_push, Nat.ne_of_lt hid]

theorem extends_newException (h : Heap) (type message : String) :
    h.Extends (h.newException type message).1 := h.extends_push _

end Heap

/-- What somebody asks the machine for. -/
inductive Request where
  | call (call : Call)
  /-- A call of a method of whatever class the receiver has. -/
  | on (receiver : Value) (name desc : String) (args : List Value)
  /-- A run of the coroutine with this number. -/
  | run (k : Nat)
  deriving DecidableEq, Repr, Inhabited

/-- What a method of the host comes to. -/
inductive Response (π : Type) where
  | answer (outcome : Except RunError (Option Value))
  /-- Once the request has been carried out, the method goes on from `next`. -/
  | ask (request : Request) (next : π)
  deriving Inhabited

/-- What the methods of the host work on: the memory, and a state of their own. -/
structure HostState (σ : Type) where
  memory : Memory := {}
  own : σ
  deriving Inhabited

/-- The methods that a host may have, and what they do. -/
structure Host where
  Native : Type
  /-- How far a method has come that waits for an answer. -/
  Pending : Type
  State : Type
  apply : Native → List Value → HostState State → Response Pending × HostState State
  resume : Pending → Except RunError (Option Value) → HostState State →
    Response Pending × HostState State
  apply_extends : ∀ n args (s : HostState State), s.memory.heap.Extends (apply n args s).2.memory.heap
  resume_extends : ∀ next outcome (s : HostState State),
    s.memory.heap.Extends (resume next outcome s).2.memory.heap

/-- A host without methods. -/
@[reducible] def Host.empty : Host where
  Native := Empty
  Pending := Empty
  State := Unit
  apply := nofun
  resume := nofun
  apply_extends := nofun
  resume_extends := nofun

end Resumable
