import Mathlib
import Resumable.Proofs.Flow.Balance
import Resumable.Proofs.Instrument.Climb
import Resumable.Proofs.Instrument.Verified

/-!
# Transformed bodies are balanced

Every place of a transformed body that control may come to has one height of the operand stack
(`Analysed.Height`). In the head and the tail there is nothing but what the switch is made with, or the
exception that has been caught. In the chunk of an instruction the height starts out as what is left of
the operand stack there and follows the code of the chunk; at its end it is what is left behind the
instruction (`Transforms.climb?_chunk`).

So wherever the method goes on, the heights agree, provided that the objects whose allocation is put
off are treated as they should be (`Transforms.balanced`), and the analysis has nothing to object to
in a transformed body (`Transforms.analyze_of_orderly`).
-/

namespace Resumable

open List (Forall₂)

/-! ## What is added runs -/

/-- The instruction has run on some frame. -/
def Instr.HasRun (x : Instr) : Prop := ∃ index f g, Frame.step f index x = .ok g

namespace Instr

theorem hasRun_local (op : Opcode) (index : UInt16) : HasRun (.local op index) := by
  -- There is a local to read or to write, and a value to write.
  let f : Frame := ⟨List.replicate (index.toNat + 1) .unknown, [.unknown]⟩
  have hlt : index.toNat < f.locals.length := by simp [f]
  have hget : f.getLocal index = .ok .unknown := by
    unfold Frame.getLocal
    rw [List.getElem?_replicate, if_pos (Nat.lt_succ_self _)]
  refine ⟨0, f, ?_⟩
  unfold Frame.step
  dsimp only
  split
  case h_6 => exact ⟨_, if_pos hlt⟩
  all_goals
    rw [hget]
    exact ⟨_, rfl⟩

theorem hasRun_frame (op : FrameOp) : HasRun (.frame op) := by
  refine ⟨0, ⟨[], [.unknown]⟩, ?_⟩
  cases op <;> exact ⟨_, rfl⟩

theorem hasRun_of_isCarrier {x : Instr} (h : x.isCarrier = true) : x.HasRun := by
  cases x with
  | label => exact ⟨0, ⟨[], []⟩, _, rfl⟩
  | «local» op index => exact hasRun_local op index
  | frame op => exact hasRun_frame op
  | simple op =>
    have hop : op = .pop ∨ op = .aconstNull := by simpa [isCarrier] using h
    rcases hop with rfl | rfl
    · exact ⟨0, ⟨[], [.unknown]⟩, _, rfl⟩
    · exact ⟨0, ⟨[], []⟩, _, rfl⟩
  | _ => cases h

end Instr

/-- The suspend call takes nothing and gives nothing. -/
theorem MemberRef.type_of_isYield {callee : MemberRef}
    (h : Names.isYield callee.owner callee.name callee.desc = true) :
    MethodType.parse callee.desc = .ok ⟨[], none⟩ := by
  have hdesc : callee.desc = Names.yieldDesc := by
    simp only [Names.isYield, Bool.and_eq_true, beq_iff_eq] at h
    exact h.2
  rw [hdesc]
  decide +kernel

theorem MemberRef.effect_of_isYield {callee : MemberRef}
    (h : Names.isYield callee.owner callee.name callee.desc = true) : callee.effect = (0, 0) := by
  unfold MemberRef.effect
  rw [MemberRef.type_of_isYield h]
  rfl

namespace Analysed

variable {a : Analysed} {plan : MethodPlan} {k i t : Nat} {p : SuspensionPoint} {x y : Instr}
  {chunk : List Instr}

theorem hasRun_of_mem_stretch (h : x ∈ a.stretch plan k p) : x.HasRun := by
  obtain ⟨t, ht⟩ := List.mem_iff_getElem?.1 h
  rcases stretch_cases ht with ⟨-, hcarrier⟩ | ⟨-, rfl⟩ | ⟨-, hcarrier | ⟨-, rfl, -⟩⟩
  · exact Instr.hasRun_of_isCarrier hcarrier
  · exact Instr.hasRun_frame _
  · exact Instr.hasRun_of_isCarrier hcarrier
  · exact Instr.hasRun_frame _

theorem hasRun_of_mem_leadIn {front : List Instr}
    (h : Writes (a.leadIn plan.omitted i y) front) (hx : x ∈ front) : x.HasRun := by
  rcases leadIn_cases h with ⟨op, -, -, rfl⟩ | ⟨rfl, -⟩ | ⟨callee, type, base, kinds, -, -, rfl⟩
  · rw [List.mem_singleton.1 hx]
    exact Instr.hasRun_frame _
  · cases hx
  · rcases mem_allocationCode hx with ⟨temp, -, rfl | rfl⟩ | rfl | rfl
    · exact Instr.hasRun_local _ _
    · exact Instr.hasRun_local _ _
    · exact ⟨0, ⟨[], []⟩, _, rfl⟩
    · exact ⟨0, ⟨[], [.unknown]⟩, _, rfl⟩

end Analysed

namespace Transforms

open Analysed (Writ)

variable {owner : String} {m m' : Method} {a : Analysed} {plan : MethodPlan} {i t : Nat}
  {p : SuspensionPoint} {x y : Instr} {f g : Frame} {chunk : List Instr}

/-- What is left out is no call. -/
theorem not_omitted_of_invoke (h : Transforms owner m a plan m') {op : Opcode} {callee : MemberRef}
    (hi : a.method.code[i]? = some (.invoke op callee)) : i ∉ plan.omitted := by
  intro hmem
  rcases h.of_mem_omitted hmem with ⟨type, heq⟩ | heq
  · cases hi.symm.trans heq
  · cases hi.symm.trans heq

/-- What stands in a chunk is the instruction itself, at the end, or was added. Only the chunk of a
yield ends with something that was added. -/
theorem chunk_cases (h : Transforms owner m a plan m') (hy : a.method.code[i]? = some y)
    (hchunk : a.Chunk plan (y, i) chunk) (hx : chunk[t]? = some x) :
    x = y ∧ t + 1 = chunk.length ∨ x.HasRun ∧ x.branchTargets = [] ∧
      (t + 1 = chunk.length → ∃ p ∈ plan.points, p.index = i ∧ p.isYield = true) := by
  have hkept (before lead : List Instr) (hlead : Writes (a.leadIn plan.omitted i y) lead)
      (hbefore : ∀ z ∈ before, z.HasRun ∧ z.branchTargets = [])
      (hx : (before ++ (lead ++ [y]))[t]? = some x) :
      x = y ∧ t + 1 = (before ++ (lead ++ [y])).length ∨ x.HasRun ∧ x.branchTargets = [] ∧
        (t + 1 = (before ++ (lead ++ [y])).length →
          ∃ p ∈ plan.points, p.index = i ∧ p.isYield = true) := by
    rw [← List.append_assoc] at hx ⊢
    rw [List.length_append, List.length_singleton]
    by_cases hlt : t < (before ++ lead).length
    · rw [List.getElem?_append_left hlt] at hx
      right
      rcases List.mem_append.1 (List.mem_of_getElem? hx) with hmem | hmem
      · exact ⟨(hbefore x hmem).1, (hbefore x hmem).2, by omega⟩
      · exact ⟨Analysed.hasRun_of_mem_leadIn hlead hmem,
          Analysed.branchTargets_of_mem_leadIn hlead hmem, by omega⟩
    · rw [List.getElem?_append_right (Nat.le_of_not_lt hlt), List.getElem?_singleton] at hx
      split at hx
      · cases hx
        exact .inl ⟨rfl, by omega⟩
      · cases hx
  cases hchunk with
  | plain hnot hw =>
    cases hw with
    | kept _ hlead => exact hkept [] _ hlead (fun _ hz => absurd hz List.not_mem_nil) hx
    | leftOut _ => cases hx
  | point hp hindex hyield hw =>
    cases hw with
    | kept _ hlead =>
      exact hkept _ _ hlead (fun z hz => ⟨Analysed.hasRun_of_mem_stretch hz,
        Analysed.branchTargets_of_mem_stretch hz⟩) hx
    | leftOut hout =>
      obtain ⟨op, callee, _, hcall, -⟩ := (h.point (List.mem_of_getElem? hp)).1
      rw [show _ = i from hindex] at hcall
      exact absurd (by simpa using hout) (h.not_omitted_of_invoke hcall)
  | yield hp hindex hyield =>
    have hmem := List.mem_of_getElem? hx
    exact .inr ⟨Analysed.hasRun_of_mem_stretch hmem, Analysed.branchTargets_of_mem_stretch hmem,
      fun _ => ⟨_, List.mem_of_getElem? hp, hindex, hyield⟩⟩

/-! ## Chunks -/

/-- **The height along a chunk** starts out as what is left in front of the instruction and ends as
what is left behind it. -/
theorem climb?_chunk (h : Transforms owner m a plan m') (hx : a.method.code[i]? = some x)
    (hchunk : a.Chunk plan (x, i) chunk) (hf : a.frame? i = some f) (hstep : f.step i x = .ok g)
    (horderly : a.OrderlyAt plan i x f) :
    climb? chunk (plan.left f.stack) = some (plan.left g.stack) := by
  have hwrit {body : List Instr} (hw : Writ a plan.omitted (x, i) body) :
      climb? body (plan.left f.stack) = some (plan.left g.stack) := by
    cases hw with
    | kept hin hlead =>
      obtain ⟨hargs, htakes, hleft⟩ := horderly.left_of_step (by simpa using hin) hstep
      refine climb?_trans (Analysed.climb?_leadIn hlead hf hstep hargs) ?_
      rw [climb?_cons htakes, hleft]
      rfl
    | leftOut hout => exact congrArg some (h.left_of_omitted (by simpa using hout) hx hf hstep).symm
  have hstretch {k : Nat} {p : SuspensionPoint} (hp : plan.points[k]? = some p) (hindex : p.index = i) :
      climb? (a.stretch plan k p) (plan.left f.stack) = some (plan.left f.stack) := by
    rw [h.left_at_point (List.mem_of_getElem? hp) (hindex ▸ hf)]
    exact Analysed.climb?_stretch a plan k p
  cases hchunk with
  | plain _ hw => exact hwrit hw
  | point hp hindex _ hw => exact climb?_trans (hstretch hp hindex) (hwrit hw)
  | @yield k p hp hindex hyield =>
    rw [hstretch hp hindex]
    obtain ⟨callee, hcall, his⟩ := h.of_isYield (List.mem_of_getElem? hp) hyield
    rw [show p.index = i from hindex] at hcall
    cases hx.symm.trans hcall
    obtain ⟨-, -, hleft⟩ := horderly.left_of_step (h.not_omitted_of_invoke hcall) hstep
    rw [hleft]
    simp [Instr.takes, Instr.gives, Instr.effect, MemberRef.effect_of_isYield his,
      MethodPlan.putsBack]

/-! ## Heights -/

/-- Every instruction that control comes to has run, and what it leaves has gone on from it. -/
theorem exists_step (h : Transforms owner m a plan m') (hf : a.frame? i = some f) :
    ∃ x g, a.method.code[i]? = some x ∧ f.step i x = .ok g ∧ Flow.Leads a.method a.frames i x f g := by
  obtain ⟨-, rfl, hanalyzed⟩ := h.analyzed
  have hi : i < a.method.code.length := by
    rw [← hanalyzed.size]
    refine Nat.lt_of_not_le fun hle => ?_
    unfold Analysed.frame? at hf
    rw [Array.getElem?_eq_none hle] at hf
    cases hf
  obtain ⟨g, hstep, hleads⟩ := hanalyzed.settled i _ f (List.getElem?_eq_getElem hi) hf
  exact ⟨_, g, List.getElem?_eq_getElem hi, hstep, hleads⟩

end Transforms

namespace Analysed

/-- The height of the operand stack at a place of a transformed body that control may come to. -/
inductive Height (a : Analysed) (plan : MethodPlan) (chunks : List (List Instr)) : Nat → Nat → Prop
  where
  | entry : Height a plan chunks 0 0
  | switch : Height a plan chunks 1 1
  | start : Height a plan chunks 2 0
  /-- In the chunk of an instruction that control comes to in the method. -/
  | within {i t n : Nat} {chunk : List Instr} {f : Frame} (hchunk : chunks[i]? = some chunk)
    (ht : t < chunk.length) (hf : a.frame? i = some f)
    (hn : climb? (chunk.take t) (plan.left f.stack) = some n) :
    Height a plan chunks (Layout.startOf chunks i + t) n
  /-- Behind the label that ends what the method itself does, there is what has been caught. -/
  | caught {t : Nat} (hlow : 0 < t) (hhigh : t < 5) : Height a plan chunks (Layout.stop chunks + t) 1

end Analysed

namespace Transforms

open Analysed (Height Writ)
open Analysed.Layout (startOf placeOf stop)

variable {owner : String} {m m' : Method} {a : Analysed} {plan : MethodPlan}
  {chunks : List (List Instr)} {i j t q n n' : Nat} {x : Instr} {f g : Frame} {chunk : List Instr}
  {l : Label}

/-- Only what is left out has an empty chunk. -/
theorem mem_omitted_of_nil (h : a.Chunk plan (x, i) []) : i ∈ plan.omitted := by
  have hwrit {body : List Instr} (hw : Writ a plan.omitted (x, i) body) (hbody : body = []) :
      i ∈ plan.omitted := by
    cases hw with
    | kept _ _ => simp at hbody
    | leftOut hout => simpa using hout
  have hstretch {k : Nat} {p : SuspensionPoint} : a.stretch plan k p ≠ [] := by
    rw [Analysed.Layout.stretch_eq]
    simp [Analysed.Layout.saving]
  generalize hnil : ([] : List Instr) = chunk at h
  cases h with
  | plain _ hw => exact hwrit hw hnil.symm
  | point => exact absurd (List.append_eq_nil_iff.1 hnil.symm).1 hstretch
  | yield => exact absurd hnil.symm hstretch

/-- Where the method goes on from what is left, the same is left. -/
theorem left_of_leads (horderly : a.Orderly plan) (hx : a.method.code[i]? = some x)
    (hf : a.frame? i = some f) (hstep : f.step i x = .ok g)
    (hj : j ∈ x.successors a.method.code i) (hinto : Flow.Into a.frames j g) :
    ∃ f', a.frame? j = some f' ∧ plan.left f'.stack = plan.left g.stack :=
  (horderly i (List.getElem?_eq_some_iff.1 hx).1 x hx f hf).left_of_into hstep hj hinto

/-- The first place of a chunk, or of the next one that is not empty, has the height of what is left
in front of the instruction. -/
theorem height_startOf {i : Nat} {f : Frame} (h : Transforms owner m a plan m')
    (horderly : a.Orderly plan) (hlayout : a.Layout plan m' chunks) (hf : a.frame? i = some f) :
    a.Height plan chunks (startOf chunks i) (plan.left f.stack) := by
  obtain ⟨x, g, hx, hstep, hleads⟩ := h.exists_step hf
  obtain ⟨chunk, hchunk, hwritten, -⟩ := hlayout.exists_chunk hx
  have hi := (List.getElem?_eq_some_iff.1 hx).1
  rcases List.eq_nil_or_concat chunk with rfl | ⟨_, _, rfl⟩
  · -- The instruction has been left out: it changes nothing of what is left, and falls through.
    have hout := mem_omitted_of_nil hwritten
    have hfalls : x.fallsThrough = true := by
      rcases h.of_mem_omitted hout with ⟨type, heq⟩ | heq
      · cases hx.symm.trans heq
        rfl
      · cases hx.symm.trans heq
        rfl
    have hnext : i + 1 ∈ x.successors a.method.code i := by simp [Instr.successors, hfalls]
    obtain ⟨f', hf', hleft⟩ := left_of_leads horderly hx hf hstep hnext (hleads.falls hfalls)
    have hsame : startOf chunks (i + 1) = startOf chunks i := by
      rw [Analysed.Layout.startOf_succ, ← Analysed.Layout.startOf_add hchunk]
      rfl
    rw [← hsame, ← h.left_of_omitted hout hx hf hstep, ← hleft]
    exact h.height_startOf horderly hlayout hf'
  · exact .within (t := 0) hchunk (by simp) hf rfl
termination_by a.method.code.length - i

/-- Where the method goes on, the height is that of what is left. -/
theorem height_of_leads (h : Transforms owner m a plan m') (horderly : a.Orderly plan)
    (hlayout : a.Layout plan m' chunks) (hx : a.method.code[i]? = some x)
    (hf : a.frame? i = some f) (hstep : f.step i x = .ok g)
    (hj : j ∈ x.successors a.method.code i) (hinto : Flow.Into a.frames j g) :
    a.Height plan chunks (startOf chunks j) (plan.left g.stack) := by
  obtain ⟨f', hf', hleft⟩ := left_of_leads horderly hx hf hstep hj hinto
  exact hleft ▸ h.height_startOf horderly hlayout hf'

/-! ## Chunks of instructions that control comes to -/

/-- What is known of a place in the chunk of an instruction that control comes to. -/
theorem exists_of_within (h : Transforms owner m a plan m') (horderly : a.Orderly plan)
    (hlayout : a.Layout plan m' chunks) (hchunk : chunks[i]? = some chunk) (ht : t < chunk.length)
    (hf : a.frame? i = some f) (hn : climb? (chunk.take t) (plan.left f.stack) = some n)
    (hx : m'.code[startOf chunks i + t]? = some x) :
    ∃ y g, a.method.code[i]? = some y ∧ f.step i y = .ok g ∧ Flow.Leads a.method a.frames i y f g ∧
      a.Chunk plan (y, i) chunk ∧ chunk[t]? = some x ∧ x.takes ≤ n ∧
      climb? (chunk.take (t + 1)) (plan.left f.stack) = some (n - x.takes + x.gives) ∧
      (t + 1 = chunk.length → n - x.takes + x.gives = plan.left g.stack) := by
  obtain ⟨y, g, hy, hstep, hleads⟩ := h.exists_step hf
  obtain ⟨_, hchunk', hwritten, rest, hrest⟩ := hlayout.exists_chunk hy
  cases hchunk.symm.trans hchunk'
  have hget : chunk[t]? = some x := by
    rw [← hx, ← List.getElem?_drop, ← hrest, List.getElem?_append_left ht]
  have hclimb := h.climb?_chunk hy hwritten hf hstep
    (horderly i (List.getElem?_eq_some_iff.1 hy).1 y hy f hf)
  obtain ⟨l, htake, htakes, hnext⟩ := climb?_take_succ hclimb hget
  cases hn.symm.trans htake
  refine ⟨y, g, hy, hstep, hleads, hwritten, hget, htakes, hnext, fun hend => ?_⟩
  rw [hend, List.take_length, hclimb] at hnext
  exact (Option.some.inj hnext).symm

/-- The chunk of a label starts where the label has gone. -/
theorem startOf_of_label (hlayout : a.Arranged plan m' chunks)
    (hi : a.method.code[i]? = some (.label l)) : startOf chunks i = placeOf chunks i := by
  obtain ⟨chunk, hchunk, hwritten, -⟩ := hlayout.layout.exists_chunk hi
  obtain ⟨before, lead, rfl, hlead, hfront⟩ :=
    Analysed.Layout.chunk_of_keeps (hlayout.keeps_label hi) hwritten
  have hplace := Analysed.Layout.startOf_add hchunk
  have hbefore : before = [] := by
    rcases hfront with ⟨-, hnil⟩ | ⟨k, p, hp, hindex, -⟩
    · exact hnil
    · exact absurd (hindex ▸ hi) (hlayout.not_label_at_point (List.mem_of_getElem? hp))
  have hnone : lead = [] := Writes.pure hlead
  rw [hbefore, hnone] at hplace
  exact Nat.succ.inj hplace

/-! ## From place to place -/

/-- A chunk ends where the next one begins. -/
theorem within_lt (hchunk : chunks[i]? = some chunk) (ht : t < chunk.length) :
    startOf chunks i + t < startOf chunks (i + 1) := by
  rw [Analysed.Layout.startOf_succ, ← Analysed.Layout.startOf_add hchunk]
  exact Nat.add_lt_add_left ht _

/-- All chunks lie in front of the tail. -/
theorem within_lt_stop (hchunk : chunks[i]? = some chunk) (ht : t < chunk.length) :
    startOf chunks i + t < stop chunks := by
  rw [← Analysed.Layout.startOf_length]
  exact Nat.lt_of_lt_of_le (within_lt hchunk ht)
    (Analysed.Layout.startOf_mono chunks (List.getElem?_eq_some_iff.1 hchunk).1)

/-- A place lies in one chunk. -/
theorem within_unique {i' t' : Nat} {chunk' : List Instr} (hchunk : chunks[i]? = some chunk)
    (ht : t < chunk.length) (hchunk' : chunks[i']? = some chunk') (ht' : t' < chunk'.length)
    (h : startOf chunks i + t = startOf chunks i' + t') : i' = i ∧ t' = t := by
  have hafter {i i' : Nat} (hlt : i < i') : startOf chunks (i + 1) ≤ startOf chunks i' :=
    Analysed.Layout.startOf_mono chunks hlt
  have hend := within_lt hchunk ht
  have hend' := within_lt hchunk' ht'
  rcases Nat.lt_trichotomy i' i with hlt | rfl | hlt
  · have := hafter hlt
    omega
  · exact ⟨rfl, by omega⟩
  · have := hafter hlt
    omega

/-- Where control comes to, there is an instruction. -/
theorem lt_of_height (hlayout : a.Layout plan m' chunks) (hq : a.Height plan chunks q n) :
    q < m'.code.length := by
  have hlength : m'.code.length = stop chunks + 5 := by
    obtain ⟨before, hcode, hlen⟩ := hlayout.code_eq
    rw [hcode, List.length_append, hlen]
    rfl
  have hstop : 3 ≤ stop chunks := Nat.le_add_right 3 _
  cases hq with
  | entry | switch | start => omega
  | within hchunk ht _ _ =>
    have := within_lt_stop hchunk ht
    omega
  | caught => omega

/-- A place has one height. -/
theorem height_unique (hq : a.Height plan chunks q n) (hq' : a.Height plan chunks q n') :
    n' = n := by
  have hlow (i : Nat) : 3 ≤ startOf chunks i := Nat.le_add_right 3 _
  have hstop : 3 ≤ stop chunks := Nat.le_add_right 3 _
  generalize hsame : q = q' at hq'
  cases hq with
  | entry | switch | start =>
    cases hq' with
    | @within i => have := hlow i; omega
    | _ => first | rfl | omega
  | @within i t _ chunk f hchunk ht hf hn =>
    have := hlow i
    cases hq' with
    | within hchunk' ht' hf' hn' =>
      obtain ⟨rfl, rfl⟩ := within_unique hchunk ht hchunk' ht' hsame
      cases hchunk.symm.trans hchunk'
      cases hf.symm.trans hf'
      exact Option.some.inj (hn'.symm.trans hn)
    | caught => have := within_lt_stop hchunk ht; omega
    | _ => omega
  | caught =>
    cases hq' with
    | within hchunk' ht' => have := within_lt_stop hchunk' ht'; omega
    | _ => first | rfl | omega

/-- A label of the method is found where control comes to it. -/
theorem height_of_label (h : Transforms owner m a plan m') (horderly : a.Orderly plan)
    (hplaced : a.Arranged plan m' chunks) (hl : labelPosition? a.method.code l = some j)
    (hf : a.frame? j = some f) : ∃ target, labelPosition? m'.code l = some target ∧
      a.Height plan chunks target (plan.left f.stack) := by
  have hj := getElem?_of_labelPosition? hl
  refine ⟨placeOf chunks j, ?_,
    startOf_of_label hplaced hj ▸ h.height_startOf horderly hplaced.layout hf⟩
  rw [hplaced.position_label (Method.mem_labels_of_getElem? hj), hl]
  rfl

/-- What stands in front of the chunks. -/
theorem getElem?_head (hlayout : a.Layout plan m' chunks) (hq : q < 3) :
    m'.code[q]? = (a.head plan)[q]? := by
  rw [hlayout.code, List.append_assoc, List.getElem?_append_left (show q < (a.head plan).length from hq)]

/-- What stands behind the chunks. -/
theorem getElem?_tail (hlayout : a.Layout plan m' chunks) (t : Nat) :
    m'.code[stop chunks + t]? = a.tail[t]? := by
  rw [← List.getElem?_drop, hlayout.drop_stop]

/-- There is enough to take everywhere, and every instruction has run on some frame. -/
theorem runs_of_height (h : Transforms owner m a plan m') (horderly : a.Orderly plan)
    (hlayout : a.Layout plan m' chunks) (hq : a.Height plan chunks q n)
    (hx : m'.code[q]? = some x) : x.takes ≤ n ∧ x.HasRun := by
  cases hq with
  | entry =>
    rw [getElem?_head hlayout (by omega)] at hx
    cases hx
    exact ⟨Nat.le_refl _, Instr.hasRun_frame _⟩
  | switch =>
    rw [getElem?_head hlayout (by omega)] at hx
    cases hx
    exact ⟨Nat.le_refl _, 0, ⟨[], [.int]⟩, _, rfl⟩
  | start =>
    rw [getElem?_head hlayout (by omega)] at hx
    cases hx
    exact ⟨Nat.le_refl _, 0, ⟨[], []⟩, _, rfl⟩
  | within hchunk ht hf hn =>
    obtain ⟨y, g, hy, hstep, -, hwritten, hget, htakes, -⟩ :=
      h.exists_of_within horderly hlayout hchunk ht hf hn hx
    refine ⟨htakes, ?_⟩
    rcases h.chunk_cases hy hwritten hget with ⟨rfl, -⟩ | ⟨hran, -⟩
    · exact ⟨_, _, g, hstep⟩
    · exact hran
  | @caught t hlow hhigh =>
    rw [getElem?_tail hlayout] at hx
    have htail : t = 1 ∨ t = 2 ∨ t = 3 ∨ t = 4 := by omega
    rcases htail with rfl | rfl | rfl | rfl <;> cases hx
    · exact ⟨Nat.zero_le _, 0, ⟨[], []⟩, _, rfl⟩
    · exact ⟨Nat.zero_le _, Instr.hasRun_frame _⟩
    · exact ⟨Nat.zero_le _, 0, ⟨[], []⟩, _, rfl⟩
    · exact ⟨Nat.le_refl _, 0, ⟨[], [.unknown]⟩, _, rfl⟩

/-- The method starts where the head ends, with nothing on the operand stack. -/
theorem height_of_start (h : Transforms owner m a plan m') (horderly : a.Orderly plan)
    (hlayout : a.Layout plan m' chunks) (hcode : a.method.code ≠ []) : a.Height plan chunks 3 0 := by
  obtain ⟨-, rfl, hanalyzed⟩ := h.analyzed
  obtain ⟨type, -, -, f, hf, hle⟩ := hanalyzed.entry hcode
  have hempty : f.stack = [] := List.eq_nil_of_length_eq_zero hle.stack.length_eq.symm
  have hstart := h.height_startOf horderly hlayout hf
  rwa [hempty] at hstart

/-- **Control falls through** to a place of the right height. -/
theorem height_of_falls (h : Transforms owner m a plan m') (horderly : a.Orderly plan)
    (hlayout : a.Layout plan m' chunks) (hcode : a.method.code ≠ [])
    (hq : a.Height plan chunks q n) (hx : m'.code[q]? = some x) (hfalls : x.fallsThrough = true) :
    a.Height plan chunks (q + 1) (n - x.takes + x.gives) := by
  cases hq with
  | entry =>
    rw [getElem?_head hlayout (by omega)] at hx
    cases hx
    exact .switch
  | switch =>
    rw [getElem?_head hlayout (by omega)] at hx
    cases hx
    cases hfalls
  | start =>
    rw [getElem?_head hlayout (by omega)] at hx
    cases hx
    exact h.height_of_start horderly hlayout hcode
  | @within i t _ chunk f hchunk ht hf hn =>
    obtain ⟨y, g, hy, hstep, hleads, hwritten, hget, -, hnext, hend⟩ :=
      h.exists_of_within horderly hlayout hchunk ht hf hn hx
    by_cases hlast : t + 1 = chunk.length
    · -- The instruction itself falls through, or it is the suspend call, which is not repeated.
      have hfalls' : y.fallsThrough = true := by
        rcases h.chunk_cases hy hwritten hget with ⟨rfl, -⟩ | ⟨-, -, hyield⟩
        · exact hfalls
        · obtain ⟨p, hp, rfl, his⟩ := hyield hlast
          obtain ⟨callee, hcall, -⟩ := h.of_isYield hp his
          cases hy.symm.trans hcall
          rfl
      have hmem : i + 1 ∈ y.successors a.method.code i := by simp [Instr.successors, hfalls']
      have hbehind : startOf chunks i + t + 1 = startOf chunks (i + 1) := by
        rw [Analysed.Layout.startOf_succ, ← Analysed.Layout.startOf_add hchunk, ← hlast, Nat.add_assoc]
      rw [hbehind, hend hlast]
      exact h.height_of_leads horderly hlayout hy hf hstep hmem (hleads.falls hfalls')
    · exact .within hchunk (by omega) hf hnext
  | @caught t hlow hhigh =>
    rw [getElem?_tail hlayout] at hx
    have htail : t = 1 ∨ t = 2 ∨ t = 3 ∨ t = 4 := by omega
    rcases htail with rfl | rfl | rfl | rfl <;> cases hx
    · exact .caught (t := 2) (by omega) (by omega)
    · exact .caught (t := 3) (by omega) (by omega)
    · exact .caught (t := 4) (by omega) (by omega)
    · cases hfalls

/-- **Control jumps** to a place of the right height. -/
theorem height_of_jumps (h : Transforms owner m a plan m') (horderly : a.Orderly plan)
    (hplaced : a.Arranged plan m' chunks) (hq : a.Height plan chunks q n)
    (hx : m'.code[q]? = some x) (hl : l ∈ x.branchTargets) :
    ∃ target, labelPosition? m'.code l = some target ∧
      a.Height plan chunks target (n - x.takes + x.gives) := by
  have hlayout := hplaced.layout
  cases hq with
  | entry | start =>
    rw [getElem?_head hlayout (by omega)] at hx
    cases hx
    cases hl
  | switch =>
    rw [getElem?_head hlayout (by omega)] at hx
    cases hx
    rcases List.mem_cons.1 hl with rfl | hl
    · exact ⟨2, hlayout.position_start hplaced.labels, .start⟩
    · -- A point goes on with nothing on the operand stack and restores it from there.
      obtain ⟨k, hk, rfl⟩ := List.mem_map.1 hl
      obtain ⟨p, hp⟩ : ∃ p, plan.points[k]? = some p :=
        ⟨_, List.getElem?_eq_getElem (List.mem_range.1 hk)⟩
      have hmem := List.mem_of_getElem? hp
      obtain ⟨-, -, hresume, -⟩ :=
        hlayout.positions_of_point hplaced.sorted hplaced.labels hp (hplaced.index_lt hmem)
      obtain ⟨op, callee, f, hcall, hf, -⟩ := hplaced.planned p hmem
      obtain ⟨chunk, hchunk, hwritten, -⟩ := hlayout.exists_chunk hcall
      obtain ⟨body, rfl, -⟩ := Analysed.Layout.chunk_of_point hplaced.sorted hp rfl hwritten
      refine ⟨_, hresume, .within hchunk ?_ hf ?_⟩
      · rw [Analysed.Layout.stretch_eq, List.length_append, List.length_append]
        have : 0 < (Analysed.Layout.resuming a plan k p).length := Nat.succ_pos _
        omega
      · rw [Analysed.Layout.stretch_eq, List.append_assoc, List.take_left, h.left_at_point hmem hf]
        exact Analysed.climb?_saving a plan k p
  | @within i _ _ _ _ hchunk ht hf hn =>
    obtain ⟨y, g, hy, hstep, hleads, hwritten, hget, -, -, hend⟩ :=
      h.exists_of_within horderly hlayout hchunk ht hf hn hx
    rcases h.chunk_cases hy hwritten hget with ⟨rfl, hlast⟩ | ⟨-, hnone, -⟩
    · obtain ⟨j, hj, hinto⟩ := hleads.jumps l hl
      have hmem : j ∈ x.successors a.method.code i :=
        List.mem_append_left _ (List.mem_filterMap.2 ⟨l, hl, hj⟩)
      obtain ⟨f', hf', hleft⟩ := left_of_leads horderly hy hf hstep hmem hinto
      rw [hend hlast, ← hleft]
      exact h.height_of_label horderly hplaced hj hf'
    · rw [hnone] at hl
      cases hl
  | @caught t hlow hhigh =>
    rw [getElem?_tail hlayout] at hx
    have htail : t = 1 ∨ t = 2 ∨ t = 3 ∨ t = 4 := by omega
    rcases htail with rfl | rfl | rfl | rfl <;> cases hx <;> cases hl

/-- What the handlers of the method cover in a transformed body belongs to chunks of instructions
that they cover in the method. -/
theorem exists_of_covers (hplaced : a.Arranged plan m' chunks) {l' : Label}
    (hl : l ∈ a.method.labels) (hl' : l' ∈ a.method.labels) (hq : a.Height plan chunks q n)
    (hcovers : Covers m'.code (l, l') q) :
    ∃ i f, a.frame? i = some f ∧ Covers a.method.code (l, l') i := by
  obtain ⟨start, stop', hstart, hstop, hlow, hhigh⟩ := hcovers
  obtain ⟨j, hj, rfl, hkeeps⟩ := hplaced.exists_position hl hstart
  obtain ⟨j', hj', rfl, hkeeps'⟩ := hplaced.exists_position hl' hstop
  have hbehind : 3 ≤ placeOf chunks j :=
    Nat.le_trans (Nat.le_add_right 3 _) (hplaced.layout.startOf_le_placeOf hkeeps)
  have hbefore := hplaced.placeOf_lt_stop hkeeps'.1
  cases hq with
  | entry | switch | start => omega
  | @within i t _ chunk f hchunk ht hf _ =>
    refine ⟨i, f, hf, j, j', hj, hj', ?_, ?_⟩
    · refine Nat.le_of_not_lt fun hlt => ?_
      have := hplaced.layout.placeOf_lt hkeeps hlt
      have := Analysed.Layout.startOf_add hchunk
      omega
    · refine Nat.lt_of_not_le fun hle => ?_
      rw [← startOf_of_label hplaced (getElem?_of_labelPosition? hj')] at hhigh
      have := Analysed.Layout.startOf_mono chunks hle
      omega
  | caught => omega

/-- **What is caught** lies alone on the operand stack. -/
theorem height_of_caught (h : Transforms owner m a plan m') (horderly : a.Orderly plan)
    (hpoints : plan.points ≠ []) (hplaced : a.Arranged plan m' chunks) {handler : Handler}
    (hmem : handler ∈ m'.handlers) (hq : a.Height plan chunks q n)
    (hcovers : Covers m'.code (handler.start, handler.stop) q) {target : Nat}
    (htarget : labelPosition? m'.code handler.target = some target) :
    a.Height plan chunks target 1 := by
  have hlabels := hplaced.labels
  rw [h.analyzed.2.1] at hlabels
  obtain ⟨pieces, hhandlers, hpieces⟩ := h.exists_pieces hpoints hlabels
  rw [hhandlers, List.cons_append, List.mem_cons, List.mem_append, List.mem_singleton] at hmem
  rcases hmem with rfl | hmem | rfl
  · cases hplaced.layout.position_catchSignal.symm.trans htarget
    exact .caught (by omega) (by omega)
  · obtain ⟨new, hnew, hmem⟩ := List.mem_flatten.1 hmem
    obtain ⟨old, hold, ranges, hcuts, rfl⟩ := exists_left_of_mem hpieces hnew
    obtain ⟨range, hrange, rfl⟩ := List.mem_map.1 hmem
    obtain ⟨whole, hwhole, hcovers⟩ := hcuts.shrinks range hrange q hcovers
    rw [List.mem_singleton.1 hwhole] at hcovers
    have hlabel {l : Label} (hl : l ∈ [old.start, old.stop, old.target]) : l ∈ a.method.labels :=
      Method.mem_labels_of_handler hold hl
    obtain ⟨i, f, hf, hcovers⟩ :=
      exists_of_covers hplaced (hlabel (by simp)) (hlabel (by simp)) hq hcovers
    obtain ⟨x, g, -, -, hleads⟩ := h.exists_step hf
    obtain ⟨j, hj, rfl, -⟩ := hplaced.exists_position (hlabel (by simp)) htarget
    obtain ⟨type, f', hf', hle⟩ := hleads.of_covers hold hcovers hj
    obtain ⟨v, rest, hv, hrest, hstack⟩ := List.forall₂_cons_left_iff.1 hle.stack
    rw [List.forall₂_nil_left_iff.1 hrest] at hstack
    -- An exception that has been caught is no object under construction.
    have hkept : plan.putsOff v = false := by
      refine MethodPlan.putsOff_of_not_fresh ?_
      rw [← Bool.not_eq_true]
      intro hfresh
      rw [← FlowValue.eq_of_le_of_isFresh hv hfresh] at hfresh
      cases hfresh
    have hone : plan.left f'.stack = 1 := by
      rw [hstack, MethodPlan.left_of_kept fun w hw => List.mem_singleton.1 hw ▸ hkept]
      rfl
    obtain ⟨target', htarget', hheight⟩ := h.height_of_label horderly hplaced hj hf'
    cases htarget'.symm.trans htarget
    rwa [hone] at hheight
  · cases (hplaced.layout.position_catchAll hplaced.labels).symm.trans htarget
    exact .caught (by omega) (by omega)

/-- **A transformed body is balanced** if the objects whose allocation is put off are treated as they
should be. -/
theorem balanced (h : Transforms owner m a plan m') (horderly : a.Orderly plan)
    (hpoints : plan.points ≠ []) (hplaced : a.Arranged plan m' chunks) :
    Flow.Balanced m' (a.Height plan chunks) where
  entry := .entry
  unique := height_unique
  runs := h.runs_of_height horderly hplaced.layout
  falls hq hx hfalls := by
    obtain ⟨first, rest, hlist, -⟩ := h.exists_transformed hpoints
    have hcode : a.method.code ≠ [] := by
      intro hnil
      have hlt := hplaced.index_lt (p := first) (by rw [hlist]; exact List.mem_cons_self)
      rw [hnil] at hlt
      cases hlt
    have hnext := h.height_of_falls horderly hplaced.layout hcode hq hx hfalls
    exact ⟨lt_of_height hplaced.layout hnext, hnext⟩
  jumps := h.height_of_jumps horderly hplaced
  caught hq hmem hcovers htarget := h.height_of_caught horderly hpoints hplaced hmem hq hcovers htarget

end Transforms

end Resumable
