import Resumable.Proofs.Instrument.Stretches

/-!
# Where frames are worked on

What stands at a place of a transformed body, if the method itself does not work on frames
(`Reentrant.standing`). It follows where each frame operation is found (`FramePlace`): a frame is
entered at the start only, the index of a point is recorded at the start of its stretch, and a frame
is released in front of each return and behind the last label, and nowhere else.

From the record of a point up to its call, no other index is recorded and nothing is jumped to
(`Analysed.Marked`). So whoever stands there has recorded that point.
-/

namespace Resumable

/-- The instruction only moves a value, or places a label. -/
def Instr.isCarrier : Instr → Bool
  | .label _ | .local .. | .frame (.save ..) | .frame (.restore ..) => true
  | .simple op => op == .pop || op == .aconstNull
  | _ => false

/-- There is a return at the place. -/
def AtReturn (code : List Instr) (q : Nat) : Prop :=
  ∃ op, code[q]? = some (.simple op) ∧ op.isReturn = true

namespace SuspensionPoint

variable {p : SuspensionPoint} {x : Instr}

/-- Behind the record, saving only moves values. -/
theorem saveCode_carries (p : SuspensionPoint) (entry : UInt32) : ∃ saves,
    p.saveCode entry = .frame (.reserve entry p.slots) :: saves ∧ ∀ x ∈ saves, x.isCarrier = true := by
  refine ⟨_, rfl, fun x hx => ?_⟩
  simp only [List.mem_append, List.mem_flatMap] at hx
  rcases hx with ⟨action, -, hx⟩ | ⟨⟨index, action⟩, -, hx⟩
  · cases action <;> simp at hx <;> rw [hx] <;> rfl
  · cases action <;> simp at hx
    rcases hx with rfl | rfl <;> rfl

theorem isCarrier_of_mem_restoreCode (h : x ∈ p.restoreCode) : x.isCarrier = true := by
  unfold restoreCode at h
  simp only [List.mem_append, List.mem_flatMap] at h
  rcases h with ⟨⟨index, action⟩, -, h⟩ | ⟨action, -, h⟩
  · cases action <;> simp at h
    all_goals rcases h with rfl | rfl <;> rfl
  · cases action <;> simp at h <;> rw [h] <;> rfl

end SuspensionPoint

namespace Analysed

variable {a : Analysed} {plan : MethodPlan} {m : Method} {chunks : List (List Instr)}
  {k k' i q t : Nat} {p : SuspensionPoint} {x y : Instr} {l : Label}

/-! ## What stands where -/

/-- What a stretch consists of: a label, the record of the point, and, if the point is a yield, the
suspend operation in front of the label where the method goes on. All the rest moves values. -/
theorem stretch_cases (h : (a.stretch plan k p)[t]? = some x) :
    (t = 0 ∧ x.isCarrier = true) ∨
      (t = 1 ∧ x = .frame (.reserve (UInt32.ofNat (k + 1)) p.slots)) ∨
      2 ≤ t ∧ (x.isCarrier = true ∨
        p.isYield = true ∧ x = .frame .suspend ∧ t + 1 = (Layout.saving a plan k p).length) := by
  obtain ⟨saves, hsaves, hcarry⟩ := p.saveCode_carries (UInt32.ofNat (k + 1))
  rw [Layout.stretch_eq, Layout.saving, hsaves] at h
  unfold Layout.saving
  rw [hsaves]
  rcases t with _ | _ | t
  · cases h
    exact .inl ⟨rfl, rfl⟩
  · cases h
    exact .inr (.inl ⟨rfl, rfl⟩)
  · refine .inr (.inr ⟨by omega, ?_⟩)
    have hget : (saves ++ ((if p.isYield then [.frame .suspend] else []) ++
        Layout.resuming a plan k p))[t]? = some x := by
      rw [← List.append_assoc]
      exact h
    have hrest {u : Nat} (hu : (Layout.resuming a plan k p)[u]? = some x) : x.isCarrier = true := by
      have hmem := List.mem_of_getElem? hu
      unfold Layout.resuming at hmem
      rw [List.mem_cons, List.mem_append, List.mem_singleton] at hmem
      rcases hmem with rfl | hmem | rfl
      · rfl
      · exact SuspensionPoint.isCarrier_of_mem_restoreCode hmem
      · rfl
    by_cases hlt : t < saves.length
    · rw [List.getElem?_append_left hlt] at hget
      exact .inl (hcarry x (List.mem_of_getElem? hget))
    · rw [List.getElem?_append_right (Nat.le_of_not_lt hlt)] at hget
      cases hyield : p.isYield with
      | false =>
        rw [hyield] at hget
        exact .inl (hrest hget)
      | true =>
        rw [hyield] at hget
        rcases hu : t - saves.length with _ | u
        · rw [hu] at hget
          cases hget
          refine .inr ⟨rfl, rfl, ?_⟩
          simp
          omega
        · rw [hu] at hget
          exact .inl (hrest hget)

/-- A transformed method that did not work on frames itself. Its handlers lead to labels of the
method, besides those that were added. -/
structure Reentrant (a : Analysed) (plan : MethodPlan) (m : Method) (chunks : List (List Instr)) :
    Prop where
  arranged : a.Arranged plan m chunks
  plain : ∀ op, .frame op ∉ a.method.code
  handlers : ∃ cut, m.handlers = a.signalHandler :: cut ++ [a.otherHandler] ∧
    ∀ handler ∈ cut, handler.target ∈ a.method.labels

open Layout (startOf placeOf stop)

/-- What stands at a place of a transformed body. -/
inductive Standing (a : Analysed) (plan : MethodPlan) (m : Method) (chunks : List (List Instr))
    (q : Nat) (x : Instr) : Prop where
  | head (hq : q < 3) (hx : (a.head plan)[q]? = some x)
  | stretch {k : Nat} {p : SuspensionPoint} (hp : plan.points[k]? = some p)
    (hlow : startOf chunks p.index ≤ q) (hhigh : q ≤ placeOf chunks p.index)
    (hx : (a.stretch plan k p)[q - startOf chunks p.index]? = some x)
  /-- A return releases the frame. -/
  | release (hx : x = .frame .release) (hlow : 3 ≤ q) (hhigh : q < stop chunks)
    (hreturn : AtReturn m.code (q + 1))
  /-- It makes up for an allocation that was put off. -/
  | allocation (hlow : 3 ≤ q) (hhigh : q < stop chunks)
    (hx : (∃ op index, x = .local op index) ∨ (∃ type, x = .type .new type) ∨ x = .simple .dup)
  /-- It is an instruction of the method. -/
  | own {i : Nat} (hi : a.method.code[i]? = some x) (hkeeps : a.Keeps plan i)
    (hq : q = placeOf chunks i)
    (hreturn : ∀ op, x = .simple op → op.isReturn = true →
      3 < q ∧ m.code[q - 1]? = some (.frame .release))
  | tail (hq : stop chunks ≤ q) (hx : a.tail[q - stop chunks]? = some x)

namespace Reentrant

theorem lt_stop (h : a.Reentrant plan m chunks) (hi : i < a.method.code.length) :
    placeOf chunks i < stop chunks :=
  h.arranged.placeOf_lt_stop hi

theorem getElem?_tail (h : a.Reentrant plan m chunks) (t : Nat) :
    m.code[stop chunks + t]? = a.tail[t]? := by
  rw [← List.getElem?_drop, h.arranged.layout.drop_stop]

theorem getElem?_head (h : a.Reentrant plan m chunks) (hq : q < 3) :
    m.code[q]? = (a.head plan)[q]? := by
  rw [h.arranged.layout.code, List.append_assoc, List.getElem?_append_left]
  exact hq

theorem getElem?_stretch (h : a.Reentrant plan m chunks) (hp : plan.points[k]? = some p)
    (ht : t < (a.stretch plan k p).length) :
    m.code[startOf chunks p.index + t]? = (a.stretch plan k p)[t]? := by
  obtain ⟨⟨rest, hrest⟩, -⟩ := h.arranged.layout.positions_of_point h.arranged.sorted
    h.arranged.labels hp (h.arranged.index_lt (List.mem_of_getElem? hp))
  rw [← List.getElem?_drop, ← hrest, List.getElem?_append_left ht]

/-- The instruction itself ends its chunk. In front of a return, the frame is released, and in front
of a constructor call, an allocation may be made up for. -/
theorem standing_of_lead (h : a.Reentrant plan m chunks) (before : List Instr) {lead : List Instr}
    (hi : a.method.code[i]? = some y) (hkeeps : a.Keeps plan i)
    (hc : chunks[i]? = some (before ++ lead ++ [y]))
    (hlead : Writes (a.leadIn plan.omitted i y) lead) (hq : m.code[q]? = some x)
    (hlow : startOf chunks i + before.length ≤ q) (hhigh : q ≤ placeOf chunks i)
    (hx : (lead ++ [y])[q - (startOf chunks i + before.length)]? = some x) :
    a.Standing plan m chunks q x := by
  have hreach := Layout.startOf_add hc
  simp only [List.length_append, List.length_singleton] at hreach
  have hplace : m.code[placeOf chunks i]? = some y :=
    (h.arranged.layout.getElem?_placeOf hkeeps).trans hi
  have hstop := h.lt_stop hkeeps.1
  have hthree : 3 ≤ startOf chunks i := by unfold startOf; omega
  have hlast (hlen : lead.length = q - (startOf chunks i + before.length)) :
      x = y ∧ q = placeOf chunks i := by
    rw [← hlen, List.getElem?_append_right (Nat.le_refl _), Nat.sub_self] at hx
    exact ⟨(Option.some.inj hx).symm, by omega⟩
  rcases leadIn_cases hlead with ⟨op, rfl, hop, rfl⟩ | ⟨rfl, hnot⟩ |
    ⟨callee, type, base, kinds, rfl, -, rfl⟩
  · -- A return: two instructions, of which the first releases the frame.
    rw [List.length_singleton] at hreach
    by_cases hfirst : q = placeOf chunks i
    · obtain ⟨rfl, -⟩ := hlast (by rw [List.length_singleton]; omega)
      refine .own hi hkeeps hfirst fun op' heq hop' => ⟨by omega, ?_⟩
      obtain ⟨c, hc', -, rest, hrest⟩ := h.arranged.layout.exists_chunk hi
      cases hc.symm.trans hc'
      have hget : (m.code.drop (startOf chunks i))[before.length]? = some (.frame .release) := by
        rw [← hrest]
        simp
      rw [List.getElem?_drop] at hget
      rw [show q - 1 = startOf chunks i + before.length by omega]
      exact hget
    · obtain rfl : q = startOf chunks i + before.length := by omega
      rw [Nat.sub_self] at hx
      cases hx
      refine .release rfl (by omega) (by omega) ⟨op, ?_, hop⟩
      rw [← hplace]
      congr 1
      omega
  · rw [List.length_nil] at hreach
    obtain ⟨rfl, hqi⟩ := hlast (by rw [List.length_nil]; omega)
    exact .own hi hkeeps hqi fun op heq hop => absurd (hnot op heq) (by rw [hop]; nofun)
  · by_cases hfirst : q = placeOf chunks i
    · obtain ⟨rfl, -⟩ := hlast (by omega)
      exact .own hi hkeeps hfirst nofun
    · rw [List.getElem?_append_left (by omega)] at hx
      have hmem := List.mem_of_getElem? hx
      refine .allocation (by omega) (by omega) ?_
      rcases mem_allocationCode hmem with ⟨temp, -, rfl | rfl⟩ | rfl | rfl
      · exact .inl ⟨_, _, rfl⟩
      · exact .inl ⟨_, _, rfl⟩
      · exact .inr (.inl ⟨_, rfl⟩)
      · exact .inr (.inr rfl)

/-- Every place of a transformed body is accounted for. -/
theorem standing (h : a.Reentrant plan m chunks) (hq : m.code[q]? = some x) :
    a.Standing plan m chunks q x := by
  rcases h.arranged.layout.place_cases hq with ⟨hlow, -⟩ | ⟨hhigh, -⟩ |
    ⟨i, y, c, hi, hc, hchunk, hlow, hhigh, hget⟩
  · exact .head hlow ((h.getElem?_head hlow).symm.trans hq)
  · refine .tail hhigh ?_
    rw [← h.getElem?_tail, Nat.add_sub_cancel' hhigh, hq]
  have hlt := (List.getElem?_eq_some_iff.1 hi).1
  have hreach := Layout.startOf_add hc
  -- A point has its stretch in front; without the stretch, the instruction and what leads to it.
  have hkept (before : List Instr) {body : List Instr} (hw : Writ a plan.omitted (y, i) body)
      (hyield : ∀ p ∈ plan.points, p.index = i → p.isYield = false) (hc' : c = before ++ body)
      (hbefore : startOf chunks i + before.length ≤ q) : a.Standing plan m chunks q x := by
    subst hc'
    rw [List.getElem?_append_right (by omega)] at hget
    cases hw with
    | leftOut => simp at hget
    | kept hin hlead =>
      have hkeeps : a.Keeps plan i := ⟨hlt, by simpa using hin, hyield⟩
      refine h.standing_of_lead before hi hkeeps ?_ hlead hq hbefore (by omega) ?_
      · rw [hc, List.append_assoc]
      · rw [← hget]
        congr 1
        omega
  cases hchunk with
  | plain hnot hw =>
    exact hkept [] hw (fun p hp hindex => absurd hindex (hnot p hp)) rfl hlow
  | @point k p body hp hindex hyield hw =>
    obtain rfl : p.index = i := hindex
    by_cases hin : q - startOf chunks p.index < (a.stretch plan k p).length
    · rw [List.getElem?_append_left hin] at hget
      exact .stretch hp hlow (by omega) hget
    · refine hkept _ hw (fun p' hp' hindex' => ?_) rfl (by omega)
      obtain ⟨k', hp'⟩ := List.mem_iff_getElem?.1 hp'
      obtain ⟨-, rfl⟩ := Layout.number_unique h.arranged.sorted hp hp' hindex'
      exact hyield
  | yield hp hindex hyield =>
    obtain rfl := hindex
    exact .stretch hp hlow (by omega) hget

/-! ## Frame operations -/

end Reentrant

/-- Where a frame operation stands. -/
inductive FramePlace (a : Analysed) (plan : MethodPlan) (m : Method) (chunks : List (List Instr)) :
    Nat → FrameOp → Prop where
  | entry : FramePlace a plan m chunks 0 .entry
  | reserve {k : Nat} {p : SuspensionPoint} (hp : plan.points[k]? = some p) :
    FramePlace a plan m chunks (startOf chunks p.index + 1)
      (.reserve (UInt32.ofNat (k + 1)) p.slots)
  | save {q : Nat} {kind : SlotKind} {slot : UInt32} : FramePlace a plan m chunks q (.save kind slot)
  | restore {q : Nat} {kind : SlotKind} {slot : UInt32} :
    FramePlace a plan m chunks q (.restore kind slot)
  | suspend {q k : Nat} {p : SuspensionPoint} (hp : plan.points[k]? = some p)
    (hyield : p.isYield = true) (hlow : startOf chunks p.index + 2 ≤ q)
    (hhigh : q ≤ placeOf chunks p.index)
    (hresume : labelPosition? m.code (a.method.freshLabel (4 + k)) = some (q + 1)) :
    FramePlace a plan m chunks q .suspend
  | leaving {q : Nat} (hhigh : q < stop chunks) (hreturn : AtReturn m.code (q + 1)) :
    FramePlace a plan m chunks q .release
  | tail : FramePlace a plan m chunks (stop chunks + 2) .release

namespace Reentrant

theorem framePlace (h : a.Reentrant plan m chunks) {op : FrameOp}
    (hq : m.code[q]? = some (.frame op)) : FramePlace a plan m chunks q op := by
  cases h.standing hq with
  | head hlow hx =>
    match q with
    | 0 =>
      cases hx
      exact .entry
    | 1 | 2 => cases hx
    | q + 3 => omega
  | @stretch k p hp hlow hhigh hx =>
    rcases stretch_cases hx with ⟨-, hcarry⟩ | ⟨ht, heq⟩ | ⟨ht, hcarry | ⟨hyield, heq, hlast⟩⟩
    · cases op <;> first | exact .save | exact .restore | cases hcarry
    · cases heq
      obtain rfl : q = startOf chunks p.index + 1 := by omega
      exact .reserve hp
    · cases op <;> first | exact .save | exact .restore | cases hcarry
    · cases heq
      obtain ⟨-, -, hresume, -⟩ := h.arranged.layout.positions_of_point h.arranged.sorted
        h.arranged.labels hp (h.arranged.index_lt (List.mem_of_getElem? hp))
      exact .suspend hp hyield (by omega) hhigh (hresume.trans (by congr 1; omega))
  | release hx hlow hhigh hreturn =>
    cases hx
    exact .leaving hhigh hreturn
  | allocation hlow hhigh hx => rcases hx with ⟨_, _, hx⟩ | ⟨_, hx⟩ | hx <;> cases hx
  | own hi => exact absurd (List.mem_of_getElem? hi) (h.plain op)
  | tail hq hx =>
    rcases ht : q - stop chunks with _ | _ | _ | _ | _ | t
    · rw [ht] at hx
      cases hx
    · rw [ht] at hx
      cases hx
    · rw [ht] at hx
      cases hx
      obtain rfl : q = stop chunks + 2 := by omega
      exact .tail
    all_goals
      rw [ht] at hx
      cases hx

/-- In front of each return, the frame is released. -/
theorem release_of_return (h : a.Reentrant plan m chunks) (hreturn : AtReturn m.code (q + 1)) :
    3 ≤ q ∧ m.code[q]? = some (.frame .release) := by
  obtain ⟨op, hq, hop⟩ := hreturn
  have hnot : (Instr.simple op).isCarrier = false := by
    cases op <;> first | rfl | cases hop
  cases h.standing hq with
  | head hlow hx =>
    match q with
    | 0 | 1 => cases hx
    | q + 2 => omega
  | stretch hp hlow hhigh hx =>
    rcases stretch_cases hx with ⟨-, hcarry⟩ | ⟨-, heq⟩ | ⟨-, hcarry | ⟨-, heq, -⟩⟩
    · cases hnot.symm.trans hcarry
    · cases heq
    · cases hnot.symm.trans hcarry
    · cases heq
  | release hx => cases hx
  | allocation hlow hhigh hx =>
    rcases hx with ⟨_, _, hx⟩ | ⟨_, hx⟩ | hx
    · cases hx
    · cases hx
    · cases hx
      cases hop
  | own hi hkeeps hplace hrelease =>
    obtain ⟨hlow, hget⟩ := hrelease op rfl hop
    exact ⟨by omega, hget⟩
  | tail hq hx =>
    rcases ht : q + 1 - stop chunks with _ | _ | _ | _ | _ | t
    all_goals
      rw [ht] at hx
      cases hx
    cases hop

/-- A call lies between the labels at the ends. -/
theorem bounds_of_invoke (h : a.Reentrant plan m chunks) {op : Opcode} {member : MemberRef}
    (hq : m.code[q]? = some (.invoke op member)) : 2 ≤ q ∧ q < stop chunks := by
  cases h.standing hq with
  | head hlow hx =>
    match q with
    | 0 | 1 | 2 => cases hx
    | q + 3 => omega
  | stretch hp hlow hhigh hx =>
    have hlt := h.lt_stop (h.arranged.index_lt (List.mem_of_getElem? hp))
    unfold startOf at hlow
    omega
  | release hx => cases hx
  | allocation hlow hhigh hx => omega
  | own hi hkeeps hplace =>
    have hlt := h.lt_stop hkeeps.1
    unfold placeOf at hplace hlt
    omega
  | tail hq hx =>
    rcases ht : q - stop chunks with _ | _ | _ | _ | _ | t
    all_goals
      rw [ht] at hx
      cases hx

end Reentrant

/-! ## Where control comes from elsewhere -/

/-- A label of the method has gone to the place. -/
def Lands (a : Analysed) (plan : MethodPlan) (chunks : List (List Instr)) (q : Nat) : Prop :=
  ∃ i l, a.method.code[i]? = some (.label l) ∧ a.Keeps plan i ∧ q = placeOf chunks i

/-- The place lies behind the record of point number `k`, up to the call. -/
def Marked (plan : MethodPlan) (chunks : List (List Instr)) (k q : Nat) : Prop :=
  ∃ p, plan.points[k]? = some p ∧ startOf chunks p.index + 2 ≤ q ∧ q ≤ placeOf chunks p.index

namespace Reentrant

theorem lands_of_label (h : a.Reentrant plan m chunks) (hl : l ∈ a.method.labels)
    (hq : labelPosition? m.code l = some q) : a.Lands plan chunks q := by
  obtain ⟨i, hi, rfl, hkeeps⟩ := h.arranged.exists_position hl hq
  exact ⟨i, l, getElem?_of_labelPosition? hi, hkeeps, rfl⟩

/-- Behind the head, jumps lead to labels of the method. -/
theorem lands_of_target (h : a.Reentrant plan m chunks) (hlow : 2 ≤ q) (hq : m.code[q]? = some x)
    (hl : l ∈ x.branchTargets) {pc : Nat} (hpc : labelPosition? m.code l = some pc) :
    a.Lands plan chunks pc := by
  have hnone (hcarry : x.isCarrier = true) : False := by
    have hempty : x.branchTargets = [] := by cases x <;> first | rfl | cases hcarry
    rw [hempty] at hl
    cases hl
  cases h.standing hq with
  | head hhead hx =>
    match q with
    | 0 | 1 => omega
    | 2 =>
      cases hx
      cases hl
    | q + 3 => omega
  | stretch hp hlow hhigh hx =>
    rcases stretch_cases hx with ⟨-, hcarry⟩ | ⟨-, rfl⟩ | ⟨-, hcarry | ⟨-, rfl, -⟩⟩
    · exact (hnone hcarry).elim
    · cases hl
    · exact (hnone hcarry).elim
    · cases hl
  | release hx =>
    cases hx
    cases hl
  | allocation hlow hhigh hx => rcases hx with ⟨_, _, rfl⟩ | ⟨_, rfl⟩ | rfl <;> cases hl
  | own hi =>
    refine h.lands_of_label ?_ hpc
    refine List.mem_append_left _ (List.mem_flatMap.2 ⟨x, List.mem_of_getElem? hi, ?_⟩)
    cases x <;> first | exact hl | cases hl
  | tail hq hx =>
    rcases ht : q - stop chunks with _ | _ | _ | _ | _ | t
    all_goals
      rw [ht] at hx
      cases hx
    all_goals cases hl

/-- Where a label of the method has gone there is no return, and it is behind no record. -/
theorem lands_spec (h : a.Reentrant plan m chunks) (hq : a.Lands plan chunks q) :
    2 ≤ q ∧ q < stop chunks ∧ ¬ AtReturn m.code q ∧ ∀ k, ¬ Marked plan chunks k q := by
  obtain ⟨i, l, hi, hkeeps, rfl⟩ := hq
  refine ⟨by unfold placeOf; omega, h.lt_stop hkeeps.1, ?_, ?_⟩
  · rintro ⟨op, hget, -⟩
    rw [h.arranged.layout.getElem?_placeOf hkeeps, hi] at hget
    cases hget
  · rintro k ⟨p, hp, hlow, hhigh⟩
    rcases Nat.lt_trichotomy i p.index with hlt | rfl | hlt
    · have hstart := Layout.startOf_mono chunks (Nat.succ_le_of_lt hlt)
      rw [Nat.succ_eq_add_one, Layout.startOf_succ] at hstart
      omega
    · exact h.arranged.not_label_at_point (List.mem_of_getElem? hp) hi
    · have hplace := h.arranged.layout.placeOf_lt hkeeps hlt
      omega

theorem marked_lt (h : a.Reentrant plan m chunks) (hq : Marked plan chunks k q) :
    5 ≤ q ∧ q < stop chunks := by
  obtain ⟨p, hp, hlow, hhigh⟩ := hq
  have hlt := h.lt_stop (h.arranged.index_lt (List.mem_of_getElem? hp))
  unfold startOf at hlow
  omega

/-- What has been recorded at a place is told by the place. -/
theorem marked_unique (h : a.Reentrant plan m chunks) (hq : Marked plan chunks k q)
    (hq' : Marked plan chunks k' q) : k' = k := by
  obtain ⟨p, hp, hlow, hhigh⟩ := hq
  obtain ⟨p', hp', hlow', hhigh'⟩ := hq'
  have hindex : p'.index = p.index := by
    rcases Nat.lt_trichotomy p'.index p.index with hlt | heq | hlt
    · have hstart := Layout.startOf_mono chunks (Nat.succ_le_of_lt hlt)
      rw [Nat.succ_eq_add_one, Layout.startOf_succ] at hstart
      omega
    · exact heq
    · have hstart := Layout.startOf_mono chunks (Nat.succ_le_of_lt hlt)
      rw [Nat.succ_eq_add_one, Layout.startOf_succ] at hstart
      omega
  exact (Layout.number_unique h.arranged.sorted hp hp' hindex).1

/-- One comes behind a record from the record or from behind it. -/
theorem marked_succ (h : a.Reentrant plan m chunks) (hq : Marked plan chunks k (q + 1)) :
    Marked plan chunks k q ∨
      ∃ slots, m.code[q]? = some (.frame (.reserve (UInt32.ofNat (k + 1)) slots)) := by
  obtain ⟨p, hp, hlow, hhigh⟩ := hq
  by_cases hbehind : startOf chunks p.index + 2 ≤ q
  · exact .inl ⟨p, hp, hbehind, by omega⟩
  · obtain rfl : q = startOf chunks p.index + 1 := by omega
    obtain ⟨saves, hsaves, -⟩ := p.saveCode_carries (UInt32.ofNat (k + 1))
    refine .inr ⟨p.slots, ?_⟩
    rw [h.getElem?_stretch hp, Layout.stretch_eq, Layout.saving, hsaves]
    · rfl
    · rw [Layout.stretch_eq, Layout.saving, hsaves]
      simp

/-- Behind a record, nothing else is recorded. -/
theorem not_reserve_of_marked (h : a.Reentrant plan m chunks) (hq : Marked plan chunks k q)
    {entry slots : UInt32} : m.code[q]? ≠ some (.frame (.reserve entry slots)) := by
  intro hget
  obtain ⟨p, hp, hlow, hhigh⟩ := hq
  cases h.framePlace hget with
  | @reserve k' p' hp' =>
    rcases Nat.lt_or_ge p.index p'.index with hlt | hle
    · have hstart := Layout.startOf_mono chunks (Nat.succ_le_of_lt hlt)
      rw [Nat.succ_eq_add_one, Layout.startOf_succ] at hstart
      omega
    · have hstart := Layout.startOf_mono chunks hle
      omega

/-- The label where a point goes on stands behind its record. -/
theorem marked_resume (h : a.Reentrant plan m chunks) (hk : k < plan.points.length)
    (hq : labelPosition? m.code (a.method.freshLabel (4 + k)) = some q) :
    Marked plan chunks k q := by
  have hp := List.getElem?_eq_getElem hk
  have hindex := h.arranged.index_lt (List.mem_of_getElem? hp)
  obtain ⟨-, -, hresume, hafter⟩ :=
    h.arranged.layout.positions_of_point h.arranged.sorted h.arranged.labels hp hindex
  obtain ⟨last, -, hlast, -, hle, -⟩ := h.arranged.stretch_at hp
  obtain ⟨saves, hsaves, -⟩ := (plan.points[k]).saveCode_carries (UInt32.ofNat (k + 1))
  have hlen : 2 ≤ (Layout.saving a plan k plan.points[k]).length := by
    rw [Layout.saving, hsaves]
    simp
  rw [hlast, Option.some.injEq] at hafter
  rw [hresume, Option.some.injEq] at hq
  exact ⟨_, hp, by omega, by omega⟩

/-- The place of a call that is a point lies behind the record of the point. -/
theorem marked_call (h : a.Reentrant plan m chunks) (hp : plan.points[k]? = some p)
    (hkeeps : a.Keeps plan p.index) : Marked plan chunks k (placeOf chunks p.index) := by
  obtain ⟨last, -, hlast, -, -, hlt⟩ := h.arranged.stretch_at hp
  have hindex := h.arranged.index_lt (List.mem_of_getElem? hp)
  obtain ⟨-, -, hresume, hafter⟩ :=
    h.arranged.layout.positions_of_point h.arranged.sorted h.arranged.labels hp hindex
  obtain ⟨q, hq, hlow, hhigh⟩ :=
    h.marked_resume (List.getElem?_eq_some_iff.1 hp).1 hresume
  cases hp.symm.trans hq
  have hcall := hlt hkeeps
  rw [hlast, Option.some.injEq] at hafter
  exact ⟨p, hp, by omega, Nat.le_refl _⟩

end Reentrant

end Analysed

namespace Transforms

variable {owner : String} {m m' : Method} {a : Analysed} {plan : MethodPlan}

theorem reentrant (h : Transforms owner m a plan m') (hpoints : plan.points ≠ [])
    (hlabels : m.HasLabels (4 + 3 * plan.points.length)) (hplain : ∀ op, .frame op ∉ m.code) :
    ∃ chunks, a.Reentrant plan m' chunks := by
  obtain ⟨chunks, harranged⟩ := h.arranged hpoints hlabels
  obtain ⟨pieces, hhandlers, hpieces⟩ := h.exists_pieces hpoints hlabels
  obtain ⟨-, hmethod, -⟩ := h.analyzed
  refine ⟨chunks, harranged, hmethod ▸ hplain, pieces.flatten, hhandlers, fun handler hmem => ?_⟩
  obtain ⟨new, hnew, hmem⟩ := List.mem_flatten.1 hmem
  obtain ⟨old, hold, ranges, -, rfl⟩ := exists_left_of_mem hpieces hnew
  obtain ⟨range, -, rfl⟩ := List.mem_map.1 hmem
  exact Method.mem_labels_of_handler hold (by simp)

end Transforms

end Resumable
