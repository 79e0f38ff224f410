import Resumable.Value.Basic

/-!
# The graph of objects and arrays

Objects and arrays refer to each other through their fields and elements. `Heap.reachable` lists what
can be reached from some values, each cell once, in the order in which a walk in depth comes upon
them.
-/

namespace Resumable

/-- The identity of an object or array. -/
inductive Cell where
  | object (id : Nat)
  | array (id : Nat)
  deriving DecidableEq, Repr, Inhabited

/-- The object or array that a value refers to. -/
def Value.cell? : Value → Option Cell
  | .object id => some (.object id)
  | .array id => some (.array id)
  | _ => none

namespace Heap

/-- Everything that lives in the heap. -/
def cells (h : Heap) : List Cell :=
  (List.range h.objects.size).map .object ++ (List.range h.arrays.size).map .array

/-- The values that an object or array holds: fields in the order of their names, elements in
order. -/
def contents (h : Heap) : Cell → List Value
  | .object id => (h.object id).fields.map (·.2)
  | .array id => (h.items id).toList

/-- Walks over values, the contents of a cell before whatever is left, and lists the cells of
`unseen` as they come up. -/
def walk (h : Heap) (unseen : List Cell) : List Value → List Cell
  | [] => []
  | v :: rest =>
    match v.cell? with
    | none => h.walk unseen rest
    | some c =>
      if c ∈ unseen then c :: h.walk (unseen.erase c) (h.contents c ++ rest)
      else h.walk unseen rest
termination_by work => (unseen.length, work.length)
decreasing_by
  · exact Prod.Lex.right _ (by simp)
  · rename_i hmem
    refine Prod.Lex.left _ _ ?_
    have := List.length_pos_of_mem hmem
    rw [List.length_erase_of_mem hmem]
    omega
  · exact Prod.Lex.right _ (by simp)

/-- The cells that can be reached from some values, in the order of the first visit. -/
def reachable (h : Heap) (roots : List Value) : List Cell := h.walk h.cells roots

end Heap

end Resumable
