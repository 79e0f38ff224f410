import Resumable.Proofs.Flow.Invariant

/-!
# What instructions do to the operand stack

Each instruction takes some operands and gives others back, how many does not depend on the frame
(`Instr.takes`, `Instr.gives`). What is given back comes from what the instruction handles, or is new
(`Frame.exists_leaves`). The other way round, an instruction that has run on one frame runs on every
frame that has enough operands and locals, but for conversions, which do not take references
(`Frame.exists_step`).
-/

namespace Resumable

/-! ## Effects -/

/-- How many operands an operation without operands in the code takes and how many it gives back.
Nothing is known of opcodes that want operands in the code. -/
def Opcode.effect? : Opcode → Option (Nat × Nat)
  | .nop | .ret => some (0, 0)
  | .aconstNull => some (0, 1)
  | .pop => some (1, 0)
  | .dup => some (1, 2)
  | .dupX1 => some (2, 3)
  | .swap => some (2, 2)
  | .iadd | .isub | .imul | .idiv | .irem
  | .ladd | .lsub | .lmul | .ldiv | .lrem
  | .fadd | .fsub | .fmul | .fdiv
  | .dadd | .dsub | .dmul | .ddiv
  | .lcmp | .fcmp | .dcmp => some (2, 1)
  | .ineg | .lneg | .fneg | .dneg => some (1, 1)
  | .i2l | .f2d | .d2l | .i2f | .l2f | .i2d | .l2d | .l2i | .f2i | .d2i => some (1, 1)
  | .ireturn | .lreturn | .freturn | .dreturn | .areturn | .athrow
  | .monitorenter | .monitorexit => some (1, 0)
  | .arraylength => some (1, 1)
  | .aaload | .iaload => some (2, 1)
  | .aastore | .iastore => some (3, 0)
  | _ => none

/-- How many arguments a call takes and whether it gives a result. -/
def MemberRef.effect (m : MemberRef) : Nat × Nat :=
  match MethodType.parse m.desc with
  | .ok type => (type.arity, if type.result.isSome then 1 else 0)
  | .error _ => (0, 0)

/-- The opcode turns a number of one kind into one of another. -/
def Opcode.isConversion : Opcode → Bool
  | .i2l | .f2d | .d2l | .i2f | .l2f | .i2d | .l2d | .l2i | .f2i | .d2i => true
  | _ => false

/-- The opcode loads a local; all others that name a local store into it. -/
def Opcode.isLoad : Opcode → Bool
  | .iload | .lload | .fload | .dload | .aload => true
  | _ => false

namespace Instr

/-- How many operands the instruction takes and how many it gives back. -/
def effect : Instr → Nat × Nat
  | .label _ => (0, 0)
  | .simple op => op.effect?.getD (0, 0)
  | .const _ => (0, 1)
  | .local op _ => if op.isLoad then (0, 1) else (1, 0)
  | .inc .. => (0, 0)
  | .jump op _ =>
    match op with
    | .goto => (0, 0)
    | .ifIcmpeq | .ifIcmpne | .ifIcmplt | .ifIcmpge | .ifIcmpgt | .ifIcmple
    | .ifAcmpeq | .ifAcmpne => (2, 0)
    | _ => (1, 0)
  | .switch .. => (1, 0)
  | .field op _ =>
    match op with
    | .getfield => (1, 1)
    | .putfield => (2, 0)
    | .getstatic => (0, 1)
    | _ => (1, 0)
  | .invoke op m =>
    if op = .invokestatic then m.effect else (m.effect.1 + 1, m.effect.2)
  | .type op _ => if op = .new then (0, 1) else (1, 1)
  | .frame .entry => (0, 1)
  | .frame (.save ..) => (1, 0)
  | .frame (.restore ..) => (0, 1)
  | .frame _ => (0, 0)

/-- How many operands the instruction takes. -/
def takes (i : Instr) : Nat := i.effect.1

/-- How many operands the instruction gives back. -/
def gives (i : Instr) : Nat := i.effect.2

/-- No instruction makes the operand stack higher by more than one. -/
theorem gives_le (i : Instr) : i.gives ≤ i.takes + 1 := by
  unfold gives takes
  cases i with
  | simple op => cases op <;> decide
  | jump op =>
    simp only [effect]
    split <;> simp
  | field op =>
    simp only [effect]
    split <;> simp
  | invoke op m =>
    have hm : m.effect.2 ≤ m.effect.1 + 1 := by
      unfold MemberRef.effect
      split
      · dsimp only
        split <;> omega
      · omega
    simp only [effect]
    split
    · exact hm
    · exact Nat.le_succ_of_le hm
  | «local» op =>
    simp only [effect]
    split <;> simp
  | type op =>
    simp only [effect]
    split <;> simp
  | frame op => cases op <;> simp [effect]
  | _ => simp [effect]

end Instr

namespace Frame

variable {f g : Frame} {index : Nat} {i : Instr}

/-- The values that an instruction takes or reads. -/
def handles (f : Frame) (i : Instr) : List FlowValue :=
  f.stack.take i.takes ++ match i with
    | .local op slot => if op.isLoad then f.locals[slot.toNat]?.toList else []
    | _ => []

/-- The object that the instruction turns into an ordinary one: the receiver of a constructor call,
with its class and its allocation. -/
def constructed? (f : Frame) : Instr → Option (String × Nat)
  | .invoke op m =>
    if op = .invokespecial ∧ m.name = Names.constructor then
      match f.stack[m.effect.1]? with
      | some (.fresh name alloc _ _) => some (name, alloc)
      | _ => none
    else none
  | _ => none

theorem constructed?_invoke (f : Frame) (op : Opcode) (m : MemberRef) :
    f.constructed? (.invoke op m) =
      if op = .invokespecial ∧ m.name = Names.constructor then
        match f.stack[m.effect.1]? with
        | some (.fresh name alloc _ _) => some (name, alloc)
        | _ => none
      else none := rfl

/-- What an instruction makes of the values that it does not take. -/
def completed (f : Frame) (i : Instr) (v : FlowValue) : FlowValue :=
  match f.constructed? i, v with
  | some (name, alloc), .fresh _ alloc' _ _ => if alloc' = alloc then .reference name else v
  | _, _ => v

theorem map_completed (h : f.constructed? i = none) (vs : List FlowValue) :
    vs.map (f.completed i) = vs := by
  have hid : f.completed i = id := by
    funext v
    unfold completed
    rw [h]
    rfl
  rw [hid, List.map_id]

/-! ## Running an instruction -/

/-- What is left on the operand stack: `given` on top of what has not been taken. -/
structure Leaves (f : Frame) (index : Nat) (i : Instr) (given : List FlowValue) (g : Frame) :
    Prop where
  enough : i.takes ≤ f.stack.length
  length : given.length = i.gives
  stack : g.stack = given ++ (f.stack.drop i.takes).map (f.completed i)
  /-- Whatever is given back is new, or a copy of what has been handled. -/
  given : ∀ P : FlowValue → Prop, (∀ v : FlowValue, v.isFresh = false → P v) →
    (∀ type, P (.fresh type index index false)) →
    (∀ type alloc insn, P (.fresh type alloc insn false) → P (.fresh type alloc index true)) →
    (∀ v ∈ f.handles i, P v) → ∀ v ∈ given, P v

namespace Leaves

/-- An instruction that gives back nothing under construction. -/
theorem of_replace {count : Nat} {given : List FlowValue} (hcount : i.takes = count)
    (hlength : given.length = i.gives) (h : f.constructed? i = none)
    (hfresh : ∀ v ∈ given, v.isFresh = false) (hlen : count ≤ f.stack.length)
    (hstack : g.stack = given ++ f.stack.drop count) : f.Leaves index i given g where
  enough := hcount ▸ hlen
  length := hlength
  stack := by rw [map_completed h, hcount, hstack]
  given _ hP _ _ _ v hv := hP v (hfresh v hv)

/-- An instruction that gives back only what it has handled. -/
theorem of_handled {given : List FlowValue} (hlength : given.length = i.gives)
    (h : f.constructed? i = none) (hgiven : ∀ v ∈ given, v ∈ f.handles i)
    (hlen : i.takes ≤ f.stack.length) (hstack : g.stack = given ++ f.stack.drop i.takes) :
    f.Leaves index i given g where
  enough := hlen
  length := hlength
  stack := by rw [map_completed h, hstack]
  given _ _ _ _ hhandles v hv := hhandles v (hgiven v hv)

end Leaves

theorem exists_leaves_of_drop {count : Nat} (hi : f.constructed? i = none) (hcount : i.takes = count)
    (hgives : i.gives = 0) (h : f.drop count = .ok g) : ∃ given, f.Leaves index i given g := by
  obtain ⟨hlen, rfl⟩ := drop_eq_ok.1 h
  exact ⟨[], .of_replace hcount hgives.symm hi (by simp) hlen rfl⟩

theorem exists_leaves_of_replace {count : Nat} {v : FlowValue} (hi : f.constructed? i = none)
    (hcount : i.takes = count) (hgives : i.gives = 1) (hv : v.isFresh = false)
    (h : f.replace count v = .ok g) : ∃ given, f.Leaves index i given g := by
  obtain ⟨hlen, rfl⟩ := replace_eq_ok.1 h
  exact ⟨[v], .of_replace hcount hgives.symm hi (by simpa using hv) hlen rfl⟩

theorem exists_leaves_of_push {v : FlowValue} (hi : f.constructed? i = none)
    (hcount : i.takes = 0) (hgives : i.gives = 1) (hv : v.isFresh = false)
    (h : .ok (f.push v) = (.ok g : Except FlowError Frame)) :
    ∃ given, f.Leaves index i given g := by
  cases h
  exact ⟨[v], .of_replace hcount hgives.symm hi (by simpa using hv) (Nat.zero_le _) rfl⟩

theorem exists_leaves_of_same (hi : f.constructed? i = none) (hcount : i.takes = 0)
    (hgives : i.gives = 0) (h : .ok f = (.ok g : Except FlowError Frame)) :
    ∃ given, f.Leaves index i given g := by
  cases h
  exact ⟨[], .of_replace hcount hgives.symm hi (by simp) (Nat.zero_le _) rfl⟩

theorem exists_leaves_simple {op : Opcode} (h : f.stepSimple index op = .ok g) :
    ∃ given, f.Leaves index (.simple op) given g := by
  have hconvert {v : FlowValue} (hcount : (Instr.simple op).takes = 1)
      (hgives : (Instr.simple op).gives = 1) (hv : v.isFresh = false)
      (h : f.convert v op = .ok g) : ∃ given, f.Leaves index (.simple op) given g := by
    obtain ⟨w, -, rest, hstack, rfl⟩ := convert_eq_ok h
    refine ⟨[v], .of_replace hcount hgives.symm rfl (by simpa using hv) ?_ ?_⟩ <;> simp [hstack]
  unfold stepSimple at h
  split at h
  case h_1 | h_2 => exact exists_leaves_of_same rfl rfl rfl h
  case h_3 => exact exists_leaves_of_push rfl rfl rfl rfl h
  case h_5 =>
    -- A copy of an object under construction remembers that it was made here.
    unfold duplicate at h
    obtain ⟨v, hpeek, h⟩ := bind_eq_ok.1 h
    obtain ⟨rest, hrest⟩ : ∃ rest, f.stack = v :: rest := by
      unfold peek at hpeek
      split at hpeek <;> cases hpeek
      exact ⟨_, ‹_›⟩
    have hv : v ∈ f.handles (.simple .dup) := by
      unfold handles
      rw [hrest]
      simp [Instr.takes, Instr.effect, Opcode.effect?]
    have hstack (w : FlowValue) : (f.push w).stack = [w, v] ++
        (f.stack.drop 1).map (f.completed (.simple .dup)) := by
      rw [map_completed rfl, hrest]
      simp [push, hrest]
    split at h
    · cases h
      refine ⟨[_, _], ⟨by simp [hrest, Instr.takes, Instr.effect, Opcode.effect?], rfl, hstack _, ?_⟩⟩
      intro P _ _ hdup hhandles w hw
      simp only [List.mem_cons, List.not_mem_nil, or_false] at hw
      rcases hw with rfl | rfl
      · exact hdup _ _ _ (hhandles _ hv)
      · exact hhandles _ hv
    · cases h
      refine ⟨[v, v], ⟨by simp [hrest, Instr.takes, Instr.effect, Opcode.effect?], rfl, hstack _, ?_⟩⟩
      intro P _ _ _ hhandles w hw
      simp only [List.mem_cons, List.not_mem_nil, or_false, or_self] at hw
      exact hw ▸ hhandles v hv
  case h_6 =>
    obtain ⟨v₁, f₁, rfl, h₁⟩ := pop_bind h
    obtain ⟨v₂, f₂, rfl, h₂⟩ := pop_bind h₁
    cases h₂
    refine ⟨[v₁, v₂, v₁], .of_handled rfl rfl ?_ (by simp [Instr.takes, Instr.effect, Opcode.effect?])
      rfl⟩
    simp [handles, Instr.takes, Instr.effect, Opcode.effect?]
  case h_7 =>
    obtain ⟨v₁, f₁, rfl, h₁⟩ := pop_bind h
    obtain ⟨v₂, f₂, rfl, h₂⟩ := pop_bind h₁
    cases h₂
    refine ⟨[v₂, v₁], .of_handled rfl rfl ?_ (by simp [Instr.takes, Instr.effect, Opcode.effect?])
      rfl⟩
    simp [handles, Instr.takes, Instr.effect, Opcode.effect?]
  case h_29 | h_30 | h_31 | h_32 =>
    obtain ⟨v, f₁, rfl, h₁⟩ := pop_bind h
    cases h₁
    refine ⟨[v], .of_handled rfl rfl ?_ (by simp [Instr.takes, Instr.effect, Opcode.effect?]) rfl⟩
    simp [handles, Instr.takes, Instr.effect, Opcode.effect?]
  case h_52 =>
    obtain ⟨position, f₁, rfl, h₁⟩ := pop_bind h
    obtain ⟨array, f₂, rfl, h₂⟩ := pop_bind h₁
    cases h₂
    exact ⟨[array.element], .of_replace (show Instr.takes _ = 2 from rfl) rfl rfl
      (by simpa using FlowValue.isFresh_element array) (by simp) rfl⟩
  case h_56 => cases h
  -- The others give back at most one value, of which they know the kind.
  all_goals first
    | exact exists_leaves_of_drop rfl rfl rfl h
    | exact exists_leaves_of_replace rfl rfl rfl rfl h
    | exact hconvert rfl rfl rfl h

/-- The result of a call is not under construction. -/
theorem exists_leaves_invoke {op : Opcode} {m : MemberRef} (h : f.stepInvoke op m = .ok g) :
    ∃ given, f.Leaves index (.invoke op m) given g ∧ ∀ v ∈ given, v.isFresh = false := by
  unfold stepInvoke at h
  obtain ⟨type, htype, h⟩ := bind_eq_ok.1 h
  replace htype := mapError_eq_ok.1 htype
  obtain ⟨f₁, hdrop, h⟩ := bind_eq_ok.1 h
  obtain ⟨hlen, rfl⟩ := drop_eq_ok.1 hdrop
  have heffect : m.effect = (type.arity, if type.result.isSome then 1 else 0) := by
    unfold MemberRef.effect
    rw [htype]
  have hgives : (Instr.invoke op m).gives = (type.result.map FlowValue.ofFieldType).toList.length := by
    have : (Instr.invoke op m).gives = m.effect.2 := by
      simp only [Instr.gives, Instr.effect]
      split <;> rfl
    rw [this, heffect]
    cases type.result <;> rfl
  -- However the receiver is taken, the result goes on top of what is left.
  have hpushed {f' : Frame} (h : f'.withResult type.result = .ok g) :
      g.stack = (type.result.map FlowValue.ofFieldType).toList ++ f'.stack := by
    rw [withResult_eq_ok h]
  have hfresh : ∀ v ∈ (type.result.map FlowValue.ofFieldType).toList, v.isFresh = false := by
    intro v hv
    obtain ⟨result, -, rfl⟩ := Option.map_eq_some_iff.1 (Option.mem_toList.1 hv)
    exact FlowValue.isFresh_ofFieldType result
  have hleaves (henough : (Instr.invoke op m).takes ≤ f.stack.length)
      (hstack : g.stack = (type.result.map FlowValue.ofFieldType).toList ++
        (f.stack.drop (Instr.invoke op m).takes).map (f.completed (.invoke op m))) :
      ∃ given, f.Leaves index (.invoke op m) given g ∧ ∀ v ∈ given, v.isFresh = false :=
    ⟨_, ⟨henough, hgives.symm, hstack, fun _ hP _ _ _ v hv => hP v (hfresh v hv)⟩, hfresh⟩
  by_cases hop : op = .invokestatic
  · subst hop
    have htakes : (Instr.invoke .invokestatic m).takes = type.arity := by
      simp [Instr.takes, Instr.effect, heffect]
    rw [if_pos rfl, pure_bind] at h
    refine hleaves (htakes ▸ hlen) ?_
    rw [hpushed h, map_completed (by rw [constructed?_invoke, if_neg (by simp)]), htakes]
  · have htakes : (Instr.invoke op m).takes = type.arity + 1 := by
      simp [Instr.takes, Instr.effect, heffect, hop]
    rw [if_neg hop] at h
    obtain ⟨receiver, f₂, hpush, h⟩ := pop_bind h
    obtain ⟨-, hstack⟩ := Frame.mk.inj hpush
    have hreceiver : f.stack[m.effect.1]? = some receiver := by
      have := congrArg (·[0]?) hstack
      rwa [List.getElem?_drop, Nat.add_zero, ← show m.effect.1 = type.arity by rw [heffect]] at this
    have henough : type.arity + 1 ≤ f.stack.length := by
      have := (List.getElem?_eq_some_iff.1 hreceiver).1
      rw [heffect] at this
      exact this
    have hrest : f.stack.drop (Instr.invoke op m).takes = f₂.stack := by
      rw [htakes, ← List.drop_drop, hstack]
      rfl
    refine hleaves (htakes ▸ henough) ?_
    rw [hrest]
    dsimp only at h
    split at h
    · rename_i name alloc insn dupped
      split at h
      · rename_i hctor
        have hconstructed : f.constructed? (.invoke op m) = some (name, alloc) := by
          rw [constructed?_invoke, if_pos hctor, hreceiver]
        rw [hpushed h]
        refine congrArg _ (List.map_congr_left fun v _ => ?_)
        unfold completed
        rw [hconstructed]
        cases v <;> rfl
      · rename_i hctor
        rw [hpushed h, map_completed (by rw [constructed?_invoke, if_neg hctor])]
    · rename_i hordinary
      have hnone : f.constructed? (.invoke op m) = none := by
        rw [constructed?_invoke, hreceiver]
        split
        · split
          · rename_i heq
            exact (hordinary _ _ _ _ (Option.some.inj heq)).elim
          · rfl
        · rfl
      rw [hpushed h, map_completed hnone]

theorem exists_leaves_local {op : Opcode} {slot : UInt16} (h : f.step index (.local op slot) = .ok g) :
    ∃ given, f.Leaves index (.local op slot) given g := by
  have hload (hop : op.isLoad = true)
      (h : (do return f.push (← f.getLocal slot) : Except FlowError Frame) = .ok g) :
      ∃ given, f.Leaves index (.local op slot) given g := by
    obtain ⟨v, hv, h⟩ := bind_eq_ok.1 h
    cases h
    have htakes : (Instr.local op slot).takes = 0 := by simp [Instr.takes, Instr.effect, hop]
    refine ⟨[v], .of_handled (by simp [Instr.gives, Instr.effect, hop]) rfl ?_ (by omega) ?_⟩
    · simp [handles, hop, getLocal_eq_ok.1 hv]
    · rw [htakes]
      rfl
  simp only [step] at h
  split at h
  case h_6 hnot₁ hnot₂ hnot₃ hnot₄ hnot₅ =>
    have hop : op.isLoad = false := by
      cases op <;> first | rfl | contradiction
    obtain ⟨v, f₁, rfl, h₁⟩ := pop_bind h
    obtain ⟨-, rfl⟩ := setLocal_eq_ok.1 h₁
    exact ⟨[], .of_replace (show Instr.takes _ = 1 by simp [Instr.takes, Instr.effect, hop])
      (by simp [Instr.gives, Instr.effect, hop]) rfl (by simp) (by simp) rfl⟩
  all_goals exact hload rfl h

theorem exists_leaves_type {op : Opcode} {desc : String} (h : f.step index (.type op desc) = .ok g) :
    ∃ given, f.Leaves index (.type op desc) given g := by
  simp only [step] at h
  split at h
  case h_1 =>
    cases h
    refine ⟨[.fresh desc index index false], ⟨Nat.zero_le _, rfl, ?_, ?_⟩⟩
    · rw [map_completed rfl]
      rfl
    · intro P _ hnew _ _ v hv
      rw [List.mem_singleton.1 hv]
      exact hnew desc
  case h_2 =>
    obtain ⟨v, f₁, rfl, h₁⟩ := pop_bind h
    cases h₁
    refine ⟨[_], .of_replace (show Instr.takes _ = 1 from rfl) rfl rfl ?_ (by simp) rfl⟩
    intro w hw
    rw [List.mem_singleton.1 hw]
    split <;> rfl
  case h_3 => exact exists_leaves_of_replace rfl rfl rfl rfl h
  case h_4 hnew _ _ =>
    exact exists_leaves_of_replace rfl
      (by simp [Instr.takes, Instr.effect, show op ≠ .new from hnew])
      (by simp [Instr.gives, Instr.effect, show op ≠ .new from hnew]) rfl h

/-- **What an instruction leaves on the operand stack.** -/
theorem exists_leaves (h : f.step index i = .ok g) : ∃ given, f.Leaves index i given g := by
  cases i with
  | label => exact exists_leaves_of_same rfl rfl rfl h
  | simple op => exact exists_leaves_simple h
  | const c => cases c <;> exact exists_leaves_of_push rfl rfl rfl rfl h
  | «local» op slot => exact exists_leaves_local h
  | inc slot =>
    obtain ⟨-, rfl⟩ := setLocal_eq_ok.1 h
    exact ⟨[], .of_replace (show Instr.takes _ = 0 from rfl) rfl rfl (by simp) (Nat.zero_le _) rfl⟩
  | jump op l =>
    simp only [step] at h
    split at h
    case h_1 => exact exists_leaves_of_same rfl rfl rfl h
    case h_10 => exact exists_leaves_of_drop rfl (by simp only [Instr.takes, Instr.effect]) (by
        simp only [Instr.gives, Instr.effect]) h
    all_goals exact exists_leaves_of_drop rfl rfl rfl h
  | switch => exact exists_leaves_of_drop rfl rfl rfl h
  | field op member =>
    simp only [step] at h
    split at h
    · cases h
    · rename_i v hv
      have hfresh := FlowValue.isFresh_ofDescriptor? hv
      split at h
      case h_1 => exact exists_leaves_of_replace rfl rfl rfl hfresh h
      case h_2 => exact exists_leaves_of_drop rfl rfl rfl h
      case h_3 => exact exists_leaves_of_push rfl rfl rfl hfresh h
      case h_4 => exact exists_leaves_of_drop rfl (by simp only [Instr.takes, Instr.effect]) (by
          simp only [Instr.gives, Instr.effect]) h
  | invoke op member =>
    obtain ⟨given, hleaves, -⟩ := exists_leaves_invoke h
    exact ⟨given, hleaves⟩
  | type op desc => exact exists_leaves_type h
  | frame op =>
    cases op with
    | entry => exact exists_leaves_of_push rfl rfl rfl rfl h
    | restore kind => exact exists_leaves_of_push rfl rfl rfl (FlowValue.isFresh_ofSlotKind kind) h
    | save => exact exists_leaves_of_drop rfl rfl rfl h
    | _ => exact exists_leaves_of_same rfl rfl rfl h

/-- An instruction changes the height of the operand stack by what it takes and gives. -/
theorem length_of_step (h : f.step index i = .ok g) :
    i.takes ≤ f.stack.length ∧ g.stack.length = f.stack.length - i.takes + i.gives := by
  obtain ⟨given, hleaves⟩ := exists_leaves h
  refine ⟨hleaves.enough, ?_⟩
  rw [hleaves.stack, List.length_append, List.length_map, List.length_drop, hleaves.length]
  omega

theorem length_of_step_le (h : f.step index i = .ok g) :
    g.stack.length ≤ f.stack.length + 1 := by
  obtain ⟨htakes, hlen⟩ := length_of_step h
  have := i.gives_le
  omega

/-! ## Failing -/

/-- Why an instruction fails: for want of operands or locals, at a conversion of a reference, or for
reasons that have nothing to do with the frame. -/
inductive Fails (f : Frame) : Instr → FlowError → Prop where
  | underflow {i : Instr} (h : f.stack.length < i.takes) : Fails f i .underflow
  | localOutOfRange {i : Instr} {slot : UInt16} (hi : i.localIndex? = some slot)
    (h : f.locals.length ≤ slot.toNat) : Fails f i (.localOutOfRange slot)
  | convertsReference {op : Opcode} (hop : op.isConversion = true) :
    Fails f (.simple op) (.convertsReference op)
  | bareOpcode {op : Opcode} (h : op.effect? = none) : Fails f (.simple op) (.bareOpcode op)
  | fieldDescriptor {op : Opcode} {m : MemberRef} (h : FlowValue.ofDescriptor? m.desc = none) :
    Fails f (.field op m) (.fieldDescriptor m.desc)
  | methodDescriptor {op : Opcode} {m : MemberRef} {cause : DescriptorError}
    (h : MethodType.parse m.desc = .error cause) : Fails f (.invoke op m) (.methodDescriptor cause)

section Failing

variable {cause : FlowError}

theorem drop_eq_error {count : Nat} (h : f.drop count = .error cause) :
    f.stack.length < count ∧ cause = .underflow := by
  unfold drop at h
  split at h <;> cases h
  exact ⟨‹_›, rfl⟩

theorem replace_eq_error {count : Nat} {v : FlowValue} (h : f.replace count v = .error cause) :
    f.stack.length < count ∧ cause = .underflow := by
  rcases bind_eq_error.1 h with h | ⟨f', -, h⟩
  · exact drop_eq_error h
  · cases h

/-- What begins by taking the top fails on an empty operand stack or later. -/
theorem pop_bind_eq_error {α : Type} {k : FlowValue × Frame → Except FlowError α}
    (h : f.pop >>= k = .error cause) : f.stack.length < 1 ∧ cause = .underflow ∨
      ∃ v f', f = f'.push v ∧ k (v, f') = .error cause := by
  rcases bind_eq_error.1 h with h | ⟨⟨v, f'⟩, hpop, h⟩
  · left
    unfold pop at h
    split at h <;> cases h
    rename_i hstack
    exact ⟨by simp [hstack], rfl⟩
  · exact .inr ⟨v, f', pop_eq_ok.1 hpop, h⟩

theorem setLocal_eq_error {slot : UInt16} {v : FlowValue} (h : f.setLocal slot v = .error cause) :
    f.locals.length ≤ slot.toNat ∧ cause = .localOutOfRange slot := by
  unfold setLocal at h
  split at h <;> cases h
  exact ⟨Nat.le_of_not_lt ‹_›, rfl⟩

theorem fails_simple {op : Opcode} (h : f.stepSimple index op = .error cause) :
    f.Fails (.simple op) cause := by
  have hunderflow {count : Nat} (hcount : (Instr.simple op).takes = count)
      (h : f.stack.length < count ∧ cause = .underflow) : f.Fails (.simple op) cause := by
    rw [h.2]
    exact .underflow (hcount ▸ h.1)
  -- Two operands are taken one after the other.
  have htwo {k : FlowValue → FlowValue → Frame → Frame} (hcount : (Instr.simple op).takes = 2)
      (h : (f.pop >>= fun x => x.2.pop >>= fun y => pure (k x.1 y.1 y.2)) = .error cause) :
      f.Fails (.simple op) cause := by
    rcases pop_bind_eq_error h with ⟨hlen, hcause⟩ | ⟨v, f₁, hf, h⟩
    · exact hunderflow hcount ⟨by omega, hcause⟩
    · dsimp only at h
      rcases pop_bind_eq_error h with ⟨hlen, hcause⟩ | ⟨w, f₂, -, h⟩
      · refine hunderflow hcount ⟨?_, hcause⟩
        rw [hf, stack_push, List.length_cons]
        omega
      · cases h
  have hconvert {v : FlowValue} (hcount : (Instr.simple op).takes = 1)
      (hop : op.isConversion = true) (h : f.convert v op = .error cause) :
      f.Fails (.simple op) cause := by
    rcases pop_bind_eq_error h with h | ⟨w, f₁, -, h⟩
    · exact hunderflow hcount h
    · cases hw : w.isReference with
      | false =>
        simp only [hw, Bool.false_eq_true, if_false] at h
        cases h
      | true =>
        simp only [hw, if_true] at h
        cases h
        exact .convertsReference hop
  unfold stepSimple at h
  split at h
  case h_1 | h_2 | h_3 => cases h
  case h_5 =>
    unfold duplicate at h
    rcases bind_eq_error.1 h with h | ⟨v, -, h⟩
    · unfold peek at h
      split at h <;> cases h
      rename_i hstack
      exact hunderflow (show Instr.takes _ = 1 from rfl) ⟨by simp [hstack], rfl⟩
    · split at h <;> cases h
  case h_6 => exact htwo (k := fun v w f => ((f.push v).push w).push v) rfl h
  case h_7 => exact htwo (k := fun v w f => (f.push v).push w) rfl h
  case h_52 => exact htwo (k := fun _ array f => f.push array.element) rfl h
  case h_29 | h_30 | h_31 | h_32 =>
    rcases pop_bind_eq_error h with h | ⟨w, f₁, -, h⟩
    · exact hunderflow rfl h
    · cases h
  case h_56 =>
    cases h
    refine .bareOpcode ?_
    cases op <;> first | rfl | contradiction
  all_goals first
    | exact hunderflow rfl (drop_eq_error h)
    | exact hunderflow rfl (replace_eq_error h)
    | exact hconvert rfl rfl h

theorem fails_invoke {op : Opcode} {m : MemberRef} (h : f.stepInvoke op m = .error cause) :
    f.Fails (.invoke op m) cause := by
  unfold stepInvoke at h
  rcases bind_eq_error.1 h with h | ⟨type, htype, h⟩
  · rcases hparse : MethodType.parse m.desc with error | type
    · rw [hparse] at h
      cases h
      exact .methodDescriptor hparse
    · rw [hparse] at h
      cases h
  have heffect : m.effect.1 = type.arity := by
    unfold MemberRef.effect
    rw [mapError_eq_ok.1 htype]
  have hresult {f' : Frame} {cause : FlowError} (h : f'.withResult type.result = .error cause) :
      False := by
    unfold withResult at h
    split at h <;> cases h
  have htakes : type.arity ≤ (Instr.invoke op m).takes := by
    by_cases hop : op = .invokestatic <;> simp [Instr.takes, Instr.effect, hop, heffect]
  rcases bind_eq_error.1 h with h | ⟨f₁, hdrop, h⟩
  · obtain ⟨hlen, rfl⟩ := drop_eq_error h
    exact .underflow (Nat.lt_of_lt_of_le hlen htakes)
  obtain ⟨-, rfl⟩ := drop_eq_ok.1 hdrop
  by_cases hop : op = .invokestatic
  · rw [if_pos hop, pure_bind] at h
    exact (hresult h).elim
  · rw [if_neg hop] at h
    rcases pop_bind_eq_error h with ⟨hlen, rfl⟩ | ⟨receiver, f₂, -, h⟩
    · refine .underflow ?_
      rw [List.length_drop] at hlen
      simp only [Instr.takes, Instr.effect, if_neg hop, heffect]
      omega
    · dsimp only at h
      split at h
      · split at h
        · exact (hresult h).elim
        · exact (hresult h).elim
      · exact (hresult h).elim

/-- **Why an instruction fails.** -/
theorem fails_of_step (h : f.step index i = .error cause) : f.Fails i cause := by
  have hunderflow {count : Nat} (hcount : i.takes = count)
      (h : f.stack.length < count ∧ cause = .underflow) : f.Fails i cause := by
    rw [h.2]
    exact .underflow (hcount ▸ h.1)
  have hlocal {f' : Frame} {slot : UInt16} {v : FlowValue} (hi : i.localIndex? = some slot)
      (hf : f'.locals = f.locals) (h : f'.setLocal slot v = .error cause) : f.Fails i cause := by
    obtain ⟨hlen, rfl⟩ := setLocal_eq_error h
    exact .localOutOfRange hi (hf ▸ hlen)
  cases i with
  | label => cases h
  | simple op => exact fails_simple h
  | const c => cases c <;> cases h
  | «local» op slot =>
    simp only [step] at h
    split at h
    case h_6 hnot₁ hnot₂ hnot₃ hnot₄ hnot₅ =>
      have hop : op.isLoad = false := by
        cases op <;> first | rfl | contradiction
      rcases pop_bind_eq_error h with h | ⟨v, f₁, hf, h⟩
      · exact hunderflow (by simp [Instr.takes, Instr.effect, hop]) h
      · exact hlocal rfl (hf ▸ rfl) h
    all_goals
      rcases bind_eq_error.1 h with h | ⟨v, -, h⟩
      · unfold getLocal at h
        split at h <;> cases h
        exact .localOutOfRange rfl (List.getElem?_eq_none_iff.1 ‹_›)
      · cases h
  | inc slot => exact hlocal rfl rfl h
  | jump op l =>
    simp only [step] at h
    split at h
    case h_1 => cases h
    case h_10 => exact hunderflow (by simp only [Instr.takes, Instr.effect]) (drop_eq_error h)
    all_goals exact hunderflow rfl (drop_eq_error h)
  | switch => exact hunderflow rfl (drop_eq_error h)
  | field op member =>
    simp only [step] at h
    split at h
    · cases h
      exact .fieldDescriptor ‹_›
    · split at h
      case h_1 => exact hunderflow rfl (replace_eq_error h)
      case h_2 => exact hunderflow rfl (drop_eq_error h)
      case h_3 => cases h
      case h_4 => exact hunderflow (by simp only [Instr.takes, Instr.effect]) (drop_eq_error h)
  | invoke op member => exact fails_invoke h
  | type op desc =>
    simp only [step] at h
    split at h
    case h_1 => cases h
    case h_2 =>
      rcases pop_bind_eq_error h with h | ⟨v, f₁, -, h⟩
      · exact hunderflow rfl h
      · cases h
    case h_3 => exact hunderflow rfl (replace_eq_error h)
    case h_4 hnew _ _ =>
      exact hunderflow (by simp [Instr.takes, Instr.effect, show op ≠ .new from hnew])
        (replace_eq_error h)
  | frame op =>
    cases op with
    | save => exact hunderflow rfl (drop_eq_error h)
    | _ => cases h

end Failing

/-- **An instruction that has run on one frame runs on others**, if they have the operands and the
locals that it wants; but it may refuse to convert a reference. -/
theorem exists_step (f : Frame) (index : Nat) {f' g' : Frame} {index' : Nat}
    (hran : f'.step index' i = .ok g') (htakes : i.takes ≤ f.stack.length)
    (hlocal : ∀ slot, i.localIndex? = some slot → slot.toNat < f.locals.length) :
    (∃ g, f.step index i = .ok g) ∨ ∃ op, i = .simple op ∧ op.isConversion = true ∧
      f.step index i = .error (.convertsReference op) := by
  rcases hstep : f.step index i with cause | g
  · right
    cases fails_of_step hstep with
    | underflow h => omega
    | localOutOfRange hi h => exact absurd (hlocal _ hi) (Nat.not_lt.2 h)
    | @convertsReference op hop => exact ⟨op, rfl, hop, rfl⟩
    | @bareOpcode op h =>
      -- The opcode would have failed on the other frame as well.
      cases op <;> first | (cases h; done) | cases hran
    | fieldDescriptor h => simp [step, h] at hran
    | methodDescriptor h =>
      simp only [step, stepInvoke, h] at hran
      cases hran
  · exact .inl ⟨g, rfl⟩

end Frame

end Resumable
