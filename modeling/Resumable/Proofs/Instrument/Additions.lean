import Resumable.Proofs.Instrument.Layout

/-!
# What is added to a body

A transformed body consists of instructions of the old one and of a few kinds of instructions that are
added (`Instr.IsAdded`). What all of these have in common is told here: but for the switch at the
beginning they refer to nothing, and they have the operands that their opcodes call for.
-/

namespace Resumable

/-- The instruction is of a kind that is added to bodies, apart from the switch that they begin with. -/
inductive Instr.IsAdded : Instr → Prop where
  | label (l : Label) : IsAdded (.label l)
  | frame (f : FrameOp) : IsAdded (.frame f)
  | simple {op : Opcode} : op ∈ [Opcode.aconstNull, .pop, .dup, .athrow] → IsAdded (.simple op)
  | load (kind : SlotKind) (index : UInt16) : IsAdded (.local kind.loadOpcode index)
  | store (kind : SlotKind) (index : UInt16) : IsAdded (.local kind.storeOpcode index)
  | new (type : String) : IsAdded (.type .new type)

namespace Instr.IsAdded

variable {i : Instr}

theorem branchTargets_eq (h : i.IsAdded) : i.branchTargets = [] := by cases h <;> rfl

/-- It has the operands that its opcode calls for. -/
theorem isPaired (h : i.IsAdded) : i.isPaired = true := by
  cases h with
  | label | new => rfl
  | frame f => cases f <;> rfl
  | @simple op hop =>
    have hall : ∀ op ∈ [Opcode.aconstNull, .pop, .dup, .athrow], (Instr.simple op).isPaired = true := by
      decide
    exact hall op hop
  | load kind | store kind => cases kind <;> rfl

end Instr.IsAdded

namespace Analysed

variable {a : Analysed} {plan : MethodPlan} {m : Method} {chunks : List (List Instr)} {k index : Nat}
  {p : SuspensionPoint} {i x : Instr}

theorem isAdded_of_mem_stretch (h : x ∈ a.stretch plan k p) : x.IsAdded := by
  unfold stretch SuspensionPoint.stretch SuspensionPoint.saveCode SuspensionPoint.restoreCode at h
  simp only [List.cons_append, List.append_assoc, List.mem_cons, List.mem_append, List.mem_flatMap,
    List.not_mem_nil, or_false] at h
  rcases h with rfl | rfl | ⟨action, -, h⟩ | ⟨⟨local', action⟩, hmem, h⟩ | h | rfl |
    ⟨⟨local', action⟩, hmem, h⟩ | ⟨action, -, h⟩ | rfl
  · exact .label _
  · exact .frame _
  · cases action with
    | saved kind slot => exact List.mem_singleton.1 h ▸ .frame _
    | null => exact List.mem_singleton.1 h ▸ .simple (by decide)
    | omitted => cases h
  · cases action with
    | saved kind slot =>
      simp only [List.mem_cons, List.not_mem_nil, or_false] at h
      rcases h with rfl | rfl
      · exact .load kind local'
      · exact .frame _
    | null | omitted => cases h
  · split at h
    · exact List.mem_singleton.1 h ▸ .frame _
    · cases h
  · exact .label _
  · cases action with
    | saved kind slot =>
      simp only [List.mem_cons, List.not_mem_nil, or_false] at h
      rcases h with rfl | rfl
      · exact .frame _
      · exact .store kind local'
    | null =>
      simp only [List.mem_cons, List.not_mem_nil, or_false] at h
      rcases h with rfl | rfl
      · exact .simple (by decide)
      · exact .store .ref local'
    | omitted => cases h
  · cases action with
    | saved kind slot => exact List.mem_singleton.1 h ▸ .frame _
    | null => exact List.mem_singleton.1 h ▸ .simple (by decide)
    | omitted => cases h
  · exact .label _

theorem isAdded_of_mem_leadIn {omitted : List Nat} {front : List Instr}
    (h : Writes (a.leadIn omitted index i) front) (hx : x ∈ front) : x.IsAdded := by
  rcases leadIn_cases h with ⟨op, -, -, rfl⟩ | ⟨rfl, -⟩ | ⟨callee, type, base, kinds, -, -, rfl⟩
  · exact List.mem_singleton.1 hx ▸ .frame _
  · cases hx
  · rcases mem_allocationCode hx with ⟨temp, -, rfl | rfl⟩ | rfl | rfl
    · exact .store _ _
    · exact .load _ _
    · exact .new type
    · exact .simple (by decide)

/-- What stands in a chunk was added, or is the instruction itself. -/
theorem eq_or_isAdded_of_mem_chunk {c : List Instr} (hchunk : a.Chunk plan (i, index) c) (hx : x ∈ c) :
    x = i ∨ x.IsAdded := by
  have hwrit {c : List Instr} (hw : Writ a plan.omitted (i, index) c) (hx : x ∈ c) :
      x = i ∨ x.IsAdded := by
    cases hw with
    | kept _ hfront =>
      rcases List.mem_append.1 hx with hx | hx
      · exact .inr (isAdded_of_mem_leadIn hfront hx)
      · exact .inl (List.mem_singleton.1 hx)
    | leftOut => cases hx
  cases hchunk with
  | plain _ hw => exact hwrit hw hx
  | point _ _ _ hw =>
    rcases List.mem_append.1 hx with hx | hx
    · exact .inr (isAdded_of_mem_stretch hx)
    · exact hwrit hw hx
  | yield => exact .inr (isAdded_of_mem_stretch hx)

/-- An instruction of a transformed body is one of the old body, a switch, or was added. -/
theorem Layout.mem_code_cases (h : a.Layout plan m chunks) (hx : x ∈ m.code) :
    x ∈ a.method.code ∨ (∃ low default targets, x = .switch low default targets) ∨ x.IsAdded := by
  rw [h.code, List.mem_append, List.mem_append] at hx
  rcases hx with (hhead | hchunk) | htail
  · simp only [head, List.mem_cons, List.not_mem_nil, or_false] at hhead
    rcases hhead with rfl | rfl | rfl
    · exact .inr (.inr (.frame _))
    · exact .inr (.inl ⟨_, _, _, rfl⟩)
    · exact .inr (.inr (.label _))
  · obtain ⟨c, hc, hx⟩ := List.mem_flatten.1 hchunk
    obtain ⟨⟨i, index⟩, hi, hchunk⟩ := exists_left_of_mem h.chunk hc
    rcases eq_or_isAdded_of_mem_chunk hchunk hx with rfl | hadded
    · exact .inl (List.fst_mem_of_mem_zipIdx hi)
    · exact .inr (.inr hadded)
  · simp only [tail, List.mem_cons, List.not_mem_nil, or_false] at htail
    rcases htail with rfl | rfl | rfl | rfl | rfl
    · exact .inr (.inr (.label _))
    · exact .inr (.inr (.label _))
    · exact .inr (.inr (.frame _))
    · exact .inr (.inr (.label _))
    · exact .inr (.inr (.simple (by decide)))

end Analysed

end Resumable
