import Resumable.Proofs.Flow.Invariant
import Resumable.Proofs.Instrument.Unwinding

/-!
# Where the instructions have gone

A transformed body repeats the instructions of the method in their order. The instruction at `i` is
the last one of its chunk, so it stands at `placeOf chunks i`; only the suspend calls and the
allocations that are put off are not repeated (`Analysed.Keeps`). The map is increasing
(`Layout.placeOf_lt`), and it takes labels to where they are found again (`Layout.labelPosition?_eq`).
-/

namespace Resumable

open List (Forall₂)

namespace Analysed

variable {a : Analysed} {plan : MethodPlan} {i j : Nat}

/-- The transformed body repeats the instruction: it is not left out, and it is no suspend call. -/
def Keeps (a : Analysed) (plan : MethodPlan) (i : Nat) : Prop :=
  i < a.method.code.length ∧ i ∉ plan.omitted ∧
    ∀ p ∈ plan.points, p.index = i → p.isYield = false

namespace Layout

variable {m : Method} {chunks : List (List Instr)} {x : Instr} {l : Label} {q : Nat}

/-- Where the chunk of an instruction ends, which is where the instruction stands if it is kept. -/
def placeOf (chunks : List (List Instr)) (i : Nat) : Nat := 2 + (chunks.take (i + 1)).flatten.length

theorem startOf_succ (chunks : List (List Instr)) (i : Nat) :
    startOf chunks (i + 1) = placeOf chunks i + 1 := by
  unfold startOf placeOf
  omega

theorem startOf_mono (chunks : List (List Instr)) (h : i ≤ j) : startOf chunks i ≤ startOf chunks j := by
  obtain ⟨d, rfl⟩ := Nat.exists_eq_add_of_le h
  unfold startOf
  rw [List.take_add, List.flatten_append, List.length_append]
  omega

theorem placeOf_mono (chunks : List (List Instr)) (h : i ≤ j) : placeOf chunks i ≤ placeOf chunks j := by
  have := startOf_mono chunks (Nat.succ_le_succ h)
  rw [startOf_succ, startOf_succ] at this
  omega

/-- A chunk reaches from its start to the place of its instruction. -/
theorem startOf_add {c : List Instr} (hc : chunks[i]? = some c) :
    startOf chunks i + c.length = placeOf chunks i + 1 := by
  rw [← startOf_succ]
  unfold startOf
  rw [List.take_add_one, hc, List.flatten_append]
  simp
  omega

theorem startOf_length (chunks : List (List Instr)) : startOf chunks chunks.length = stop chunks := by
  unfold startOf stop
  rw [List.take_length]

/-- Between the head and the tail, every place belongs to the chunk of some instruction. -/
theorem exists_startOf {n : Nat} (hlow : 3 ≤ q) (hhigh : q < startOf chunks n) :
    ∃ i < n, startOf chunks i ≤ q ∧ q < startOf chunks (i + 1) := by
  induction n with
  | zero =>
    unfold startOf at hhigh
    simp only [List.take_zero, List.flatten_nil, List.length_nil] at hhigh
    omega
  | succ n ih =>
    by_cases hlast : startOf chunks n ≤ q
    · exact ⟨n, Nat.lt_succ_self n, hlast, hhigh⟩
    · obtain ⟨i, hi, hbetween⟩ := ih (Nat.lt_of_not_le hlast)
      exact ⟨i, Nat.lt_succ_of_lt hi, hbetween⟩

/-- Every instruction has its chunk, which stands where it should. -/
theorem exists_chunk (h : a.Layout plan m chunks) (hi : a.method.code[i]? = some x) :
    ∃ c, chunks[i]? = some c ∧ a.Chunk plan (x, i) c ∧ c <+: m.code.drop (startOf chunks i) := by
  have hlen : chunks.length = a.method.code.length := by
    rw [← h.chunk.length_eq, List.length_zipIdx]
  have hlt : i < chunks.length := hlen ▸ (List.getElem?_eq_some_iff.1 hi).1
  have hx : a.method.code.zipIdx[i]? = some (x, i) := by
    rw [List.getElem?_zipIdx, hi]
    simp
  refine ⟨chunks[i], List.getElem?_eq_getElem hlt, ?_, ?_⟩
  · exact forall₂_getElem? h.chunk hx (List.getElem?_eq_getElem hlt)
  · have hfront : (a.head plan ++ (chunks.take i).flatten).length = startOf chunks i := by
      simp [head, startOf]
      omega
    have hcode : m.code = (a.head plan ++ (chunks.take i).flatten) ++
        (chunks[i] ++ ((chunks.drop (i + 1)).flatten ++ a.tail)) := by
      have hsplit : chunks.flatten =
          (chunks.take i).flatten ++ (chunks[i] ++ (chunks.drop (i + 1)).flatten) := by
        rw [← List.flatten_cons, ← List.drop_eq_getElem_cons hlt, ← List.flatten_append,
          List.take_append_drop]
      rw [h.code, hsplit]
      simp
    rw [hcode, List.drop_left' hfront]
    exact List.prefix_append _ _

/-- What is written for an instruction that is kept ends with the instruction. In front of it is what
leads to it, and in front of that the stretch of its point, if there is one. -/
theorem chunk_of_keeps {c : List Instr} (hkeeps : a.Keeps plan i) (h : a.Chunk plan (x, i) c) :
    ∃ before lead, c = before ++ lead ++ [x] ∧ Writes (a.leadIn plan.omitted i x) lead ∧
      ((∀ p ∈ plan.points, p.index ≠ i) ∧ before = [] ∨ ∃ k p, plan.points[k]? = some p ∧
        p.index = i ∧ p.isYield = false ∧ before = a.stretch plan k p) := by
  have hwrit {c : List Instr} (hw : Writ a plan.omitted (x, i) c) :
      ∃ lead, c = lead ++ [x] ∧ Writes (a.leadIn plan.omitted i x) lead := by
    cases hw with
    | kept _ hfront => exact ⟨_, rfl, hfront⟩
    | leftOut hout => exact absurd (by simpa using hout) hkeeps.2.1
  cases h with
  | plain hnot hw =>
    obtain ⟨lead, rfl, hlead⟩ := hwrit hw
    exact ⟨[], lead, rfl, hlead, .inl ⟨hnot, rfl⟩⟩
  | point hp hx hyield hw =>
    obtain ⟨lead, rfl, hlead⟩ := hwrit hw
    exact ⟨_, lead, by rw [List.append_assoc], hlead, .inr ⟨_, _, hp, hx, hyield, rfl⟩⟩
  | yield hp hx hyield =>
    have := hkeeps.2.2 _ (List.mem_of_getElem? hp) hx
    rw [hyield] at this
    cases this

/-- An instruction that is kept stands where its chunk ends. -/
theorem getElem?_placeOf (h : a.Layout plan m chunks) (hkeeps : a.Keeps plan i) :
    m.code[placeOf chunks i]? = a.method.code[i]? := by
  obtain ⟨x, hi⟩ : ∃ x, a.method.code[i]? = some x := ⟨_, List.getElem?_eq_getElem hkeeps.1⟩
  obtain ⟨c, hc, hchunk, hat⟩ := h.exists_chunk hi
  obtain ⟨before, lead, rfl, -, -⟩ := chunk_of_keeps hkeeps hchunk
  have hplace := startOf_add hc
  rw [List.length_append, List.length_singleton] at hplace
  obtain ⟨rest, hrest⟩ := hat
  have hget : (m.code.drop (startOf chunks i))[(before ++ lead).length]? = some x := by
    rw [← hrest]
    simp
  rw [List.getElem?_drop] at hget
  rw [hi, ← hget, show startOf chunks i + (before ++ lead).length = placeOf chunks i by omega]

/-- The place of an instruction that is kept belongs to its own chunk. -/
theorem startOf_le_placeOf (h : a.Layout plan m chunks) (hkeeps : a.Keeps plan i) :
    startOf chunks i ≤ placeOf chunks i := by
  obtain ⟨c, hc, hchunk, -⟩ := h.exists_chunk (List.getElem?_eq_getElem hkeeps.1)
  obtain ⟨before, lead, rfl, -, -⟩ := chunk_of_keeps hkeeps hchunk
  have hplace := startOf_add hc
  rw [List.length_append, List.length_singleton] at hplace
  omega

/-- The order of the instructions stays. -/
theorem placeOf_lt (h : a.Layout plan m chunks) (hkeeps : a.Keeps plan j) (hij : i < j) :
    placeOf chunks i < placeOf chunks j := by
  have hstart := startOf_mono chunks (Nat.succ_le_of_lt hij)
  have hown := h.startOf_le_placeOf hkeeps
  rw [Nat.succ_eq_add_one, startOf_succ] at hstart
  omega

/-- Every place of a transformed body is in its head, in the chunk of an instruction or in its
tail. -/
theorem place_cases (h : a.Layout plan m chunks) (hq : m.code[q]? = some x) :
    (q < 3 ∧ x ∈ a.head plan) ∨ (stop chunks ≤ q ∧ x ∈ a.tail) ∨
      ∃ i y chunk, a.method.code[i]? = some y ∧ chunks[i]? = some chunk ∧
        a.Chunk plan (y, i) chunk ∧ startOf chunks i ≤ q ∧ q < startOf chunks i + chunk.length ∧
        chunk[q - startOf chunks i]? = some x := by
  have hhead : (a.head plan).length = 3 := rfl
  rw [h.code] at hq
  by_cases hlow : q < 3
  · left
    rw [List.append_assoc, List.getElem?_append_left (by omega)] at hq
    exact ⟨hlow, List.mem_of_getElem? hq⟩
  by_cases hhigh : stop chunks ≤ q
  · right; left
    rw [List.getElem?_append_right (by rw [List.length_append]; unfold stop at hhigh; omega)] at hq
    exact ⟨hhigh, List.mem_of_getElem? hq⟩
  right; right
  obtain ⟨i, hlt, hbefore, hbeyond⟩ := exists_startOf (Nat.le_of_not_lt hlow)
    (show q < startOf chunks chunks.length by rw [startOf_length]; omega)
  have hlen : chunks.length = a.method.code.length := by
    rw [← h.chunk.length_eq, List.length_zipIdx]
  have hy : a.method.code[i]? = some _ := List.getElem?_eq_getElem (hlen ▸ hlt)
  obtain ⟨c, hc', hchunk, rest, hrest⟩ := h.exists_chunk hy
  have hreach := startOf_add hc'
  rw [startOf_succ] at hbeyond
  refine ⟨i, _, c, hy, hc', hchunk, hbefore, by omega, ?_⟩
  have hget : (m.code.drop (startOf chunks i))[q - startOf chunks i]? = some x := by
    rw [List.getElem?_drop, Nat.add_sub_cancel' hbefore, h.code]
    exact hq
  rw [← hrest, List.getElem?_append_left (by omega)] at hget
  exact hget

/-! ## Labels -/

/-- A label of the method stands in a transformed body where the instruction that places it has
gone. -/
theorem exists_of_label (h : a.Layout plan m chunks)
    (hlabels : a.method.HasLabels (4 + 3 * plan.points.length)) (hl : l ∈ a.method.labels)
    (hq : m.code[q]? = some (.label l)) :
    ∃ i, a.method.code[i]? = some (.label l) ∧ startOf chunks i ≤ q ∧ q ≤ placeOf chunks i := by
  have hfresh {number : Nat} (hnumber : number < 4 + 3 * plan.points.length)
      (heq : l = a.method.freshLabel number) : False :=
    Method.freshLabel_ne hlabels hnumber hl heq
  rcases h.place_cases hq with ⟨-, hmem⟩ | ⟨-, hmem⟩ |
    ⟨i, y, c, hy, hc, hchunk, hlow, hhigh, hget⟩
  · simp only [head, List.mem_cons, List.not_mem_nil, or_false, reduceCtorEq, false_or,
      Instr.label.injEq] at hmem
    exact (hfresh (by omega) hmem).elim
  · obtain ⟨number, hnumber, heq⟩ := number_of_mem_tail hmem
    simp only [List.mem_cons, List.not_mem_nil, or_false] at hnumber
    exact (hfresh (by omega) heq).elim
  · have hreach := startOf_add hc
    rcases label_of_mem_chunk hchunk (List.mem_of_getElem? hget) with
      heq | ⟨k, p, hp, -, number, hnumber, heq⟩
    · rw [show y = .label l from heq] at hy
      exact ⟨i, hy, hlow, by omega⟩
    · have hk := (List.getElem?_eq_some_iff.1 hp).1
      exact (hfresh (lt_of_mem_pointLabels hnumber hk) heq).elim

/-- Labels are found again where the instructions that place them have gone. -/
theorem labelPosition?_eq (h : a.Layout plan m chunks)
    (hlabels : a.method.HasLabels (4 + 3 * plan.points.length))
    (hkept : ∀ i l, a.method.code[i]? = some (.label l) → a.Keeps plan i)
    (hl : l ∈ a.method.labels) :
    labelPosition? m.code l = (labelPosition? a.method.code l).map (placeOf chunks) := by
  rcases hpos : labelPosition? a.method.code l with _ | i
  · rw [Option.map_none, labelPosition?_eq_none_iff]
    intro hmem
    obtain ⟨q, hq⟩ := List.mem_iff_getElem?.1 hmem
    obtain ⟨i, hi, -⟩ := h.exists_of_label hlabels hl hq
    exact labelPosition?_eq_none_iff.1 hpos (List.mem_of_getElem? hi)
  · obtain ⟨hi, hlast⟩ := labelPosition?_eq_some_iff.1 hpos
    refine labelPosition?_eq_some_iff.2 ⟨?_, fun q hq => ?_⟩
    · rw [h.getElem?_placeOf (hkept i l hi), hi]
    · obtain ⟨j, hj, -, hle⟩ := h.exists_of_label hlabels hl hq
      exact Nat.le_trans hle (placeOf_mono chunks (hlast j hj))

end Layout

/-- The object came from the instruction that its copy remembers. -/
theorem exists_fresh_of_omittedInstrs {stack : List FlowValue} (h : i ∈ omittedInstrs stack) :
    ∃ type alloc dupped, FlowValue.fresh type alloc i dupped ∈ stack := by
  obtain ⟨v, hv, hi⟩ := List.mem_filterMap.1 h
  have hmem : v ∈ stack := (List.takeWhile_sublist _).subset hv
  cases v with
  | fresh type alloc insn dupped =>
    cases hi
    exact ⟨type, alloc, dupped, hmem⟩
  | _ => cases hi

end Analysed

namespace Transforms

variable {owner : String} {m m' : Method} {a : Analysed} {plan : MethodPlan} {i : Nat}

/-- What is known to be under construction anywhere in the method remembers where it comes from. -/
theorem made (h : Transforms owner m a plan m') {f : Frame} (hf : a.frame? i = some f) :
    f.Each (FlowValue.Made a.method.code) := by
  obtain ⟨-, hmethod, -⟩ := h.analyzed
  obtain ⟨frames, hframes, ha⟩ := h.analysed.bind
  rw [hmethod]
  rw [ha.pure] at hf
  exact Flow.made_of_analyze hframes hf

/-- Only allocations and copies of what has been allocated are left out. -/
theorem of_mem_omitted (h : Transforms owner m a plan m') (hi : i ∈ plan.omitted) :
    (∃ type, a.method.code[i]? = some (.type .new type)) ∨
      a.method.code[i]? = some (.simple .dup) := by
  obtain ⟨db, db', hplan⟩ := h.planned
  obtain ⟨-, -, homitted⟩ := Analysed.plan_points hplan
  rw [homitted] at hi
  obtain ⟨p, -, hi⟩ := List.mem_flatMap.1 hi
  unfold Analysed.omittedAt at hi
  rcases hf : a.frame? p.index with _ | f
  · rw [hf] at hi
    cases hi
  · rw [hf] at hi
    obtain ⟨type, alloc, dupped, hmem⟩ := Analysed.exists_fresh_of_omittedInstrs hi
    obtain ⟨halloc, hinsn⟩ := (h.made hf).2 _ (List.mem_reverse.1 hmem)
    cases dupped with
    | true => exact .inr (by simpa using hinsn)
    | false =>
      rw [show i = alloc by simpa using hinsn]
      exact .inl ⟨type, halloc⟩

/-- A yield is a static call of the suspend call. -/
theorem of_isYield (h : Transforms owner m a plan m') {p : SuspensionPoint} (hp : p ∈ plan.points)
    (hyield : p.isYield = true) : ∃ callee, a.method.code[p.index]? =
      some (.invoke .invokestatic callee) ∧ Names.isYield callee.owner callee.name callee.desc := by
  obtain ⟨db, db', hplan⟩ := h.planned
  obtain ⟨op, callee, hcode, his, hstatic⟩ := ((Analysed.plan_points hplan).1 p hp).2
  rw [hstatic hyield] at hcode
  exact ⟨callee, hcode, his ▸ hyield⟩

/-- Everything else is kept. -/
theorem keeps (h : Transforms owner m a plan m') {x : Instr} (hi : a.method.code[i]? = some x)
    (hnew : ∀ type, x ≠ .type .new type) (hdup : x ≠ .simple .dup)
    (hstatic : ∀ callee, x ≠ .invoke .invokestatic callee) : a.Keeps plan i := by
  refine ⟨(List.getElem?_eq_some_iff.1 hi).1, fun hmem => ?_, ?_⟩
  · rcases h.of_mem_omitted hmem with ⟨type, heq⟩ | heq
    · rw [hi, Option.some.injEq] at heq
      exact hnew type heq
    · rw [hi, Option.some.injEq] at heq
      exact hdup heq
  · rintro p hp rfl
    rw [← Bool.not_eq_true]
    intro hyield
    obtain ⟨callee, heq, -⟩ := h.of_isYield hp hyield
    rw [hi, Option.some.injEq] at heq
    exact hstatic callee heq

theorem keeps_label (h : Transforms owner m a plan m') (i : Nat) (l : Label)
    (hi : a.method.code[i]? = some (.label l)) : a.Keeps plan i :=
  h.keeps hi nofun nofun nofun

end Transforms

end Resumable
