import Resumable.Proofs.Instrument.Stretches
import Resumable.Proofs.Instrument.Suspension

/-!
# What a transformed body preserves

Transforming a method changes neither the order of its instructions nor where an exception is
caught. `Embeds` says where the instructions have gone and that everything else in the body was
added; the main result (`Transforms.preserves_order_and_handlers`) adds that an exception other than
the signal goes to the same label as before, and that no handler of the method covers what was added
around a point. If an added label has the number of one of the method's own, handlers cover something
else (`Transforms.colliding_loses_handlers`).
-/

namespace Resumable

open List (Forall₂)

/-! ## The first handler -/

/-- The handler covers the place and takes the exception. -/
def Handler.takes (classes : ClassTable) (heap : Heap) (code : List Instr) (pc : Nat) (v : Value)
    (h : Handler) : Bool :=
  (h.load? code).any fun r => r.covers pc && r.catchType.all (classes.isInstance heap v)

namespace Handler

variable {classes : ClassTable} {heap : Heap} {code : List Instr} {pc : Nat} {v : Value}
  {h : Handler}

theorem takes_iff : h.takes classes heap code pc v = true ↔
    Covers code (h.start, h.stop) pc ∧ (∃ target, labelPosition? code h.target = some target) ∧
      h.catchType.all (classes.isInstance heap v) = true := by
  unfold takes
  rw [Option.any_eq_true]
  constructor
  · rintro ⟨r, hr, htakes⟩
    obtain ⟨hstart, hstop, htarget, hcatch⟩ := load?_eq_some_iff.1 hr
    simp only [LoadedHandler.covers, Bool.and_eq_true, decide_eq_true_eq] at htakes
    exact ⟨⟨_, _, hstart, hstop, htakes.1⟩, ⟨_, htarget⟩, hcatch ▸ htakes.2⟩
  · rintro ⟨⟨start, stop, hstart, hstop, hlow, hhigh⟩, ⟨target, htarget⟩, hcatch⟩
    refine ⟨⟨start, stop, target, h.catchType⟩, load?_eq_some_iff.2 ⟨hstart, hstop, htarget, rfl⟩, ?_⟩
    simp [LoadedHandler.covers, hlow, hhigh, hcatch]

/-- The first handler of the table that takes the exception is the one that the machine finds. -/
theorem handlerFor?_eq (classes : ClassTable) (heap : Heap) (owner : String) (m : Method) (pc : Nat)
    (v : Value) : classes.handlerFor? heap (.load owner m) pc v =
      (m.handlers.find? (takes classes heap m.code pc v)).bind (·.load? m.code) :=
  List.find?_filterMap ..

end Handler

/-- The machine finds a handler for the exception and goes on at this label. -/
def LoadedMethod.Catches (m : LoadedMethod) (classes : ClassTable) (heap : Heap) (pc : Nat)
    (v : Value) (l : Label) : Prop :=
  ∃ r, classes.handlerFor? heap m pc v = some r ∧ m.method.code[r.target]? = some (.label l)

theorem LoadedMethod.catches_of_find? {classes : ClassTable} {heap : Heap} {owner : String}
    {m : Method} {pc : Nat} {v : Value} {h : Handler}
    (hfind : m.handlers.find? (Handler.takes classes heap m.code pc v) = some h) :
    (LoadedMethod.load owner m).Catches classes heap pc v h.target := by
  have htakes : h.takes classes heap m.code pc v = true := List.find?_some hfind
  obtain ⟨r, hr, -⟩ := Option.any_eq_true _ _ |>.1 htakes
  obtain ⟨-, -, htarget, -⟩ := Handler.load?_eq_some_iff.1 hr
  refine ⟨r, ?_, getElem?_of_labelPosition? htarget⟩
  rw [Handler.handlerFor?_eq, hfind]
  exact hr

namespace Analysed

variable {a : Analysed} {plan : MethodPlan} {m : Method} {chunks : List (List Instr)} {i : Nat}
  {classes : ClassTable} {heap : Heap} {v : Value}

namespace Arranged

open Layout (startOf placeOf stop)

/-- Of the pieces of a handler, one takes the exception if and only if the handler did. -/
theorem takes_pieces (h : a.Arranged plan m chunks) (classes : ClassTable) (heap : Heap) (v : Value)
    (hkeeps : a.Keeps plan i) {old : Handler} (hold : old ∈ a.method.handlers)
    {ranges : List (Label × Label)}
    (hcuts : Cuts m.code (a.stretches plan) [(old.start, old.stop)] ranges) :
    (∃ range ∈ ranges, Handler.takes classes heap m.code (placeOf chunks i) v
        { old with start := range.1, stop := range.2 } = true) ↔
      old.takes classes heap a.method.code i v = true := by
  have hcovers := h.covers_pieces hcuts (Method.mem_labels_of_handler hold (by simp))
    (Method.mem_labels_of_handler hold (by simp)) hkeeps
  have htarget : (∃ target, labelPosition? m.code old.target = some target) ↔
      ∃ target, labelPosition? a.method.code old.target = some target := by
    rw [h.position_label (Method.mem_labels_of_handler hold (by simp))]
    simp
  simp only [Handler.takes_iff, htarget]
  constructor
  · rintro ⟨range, hrange, hrest⟩
    exact ⟨hcovers.1 ⟨range, hrange, hrest.1⟩, hrest.2⟩
  · rintro ⟨hwhole, hrest⟩
    obtain ⟨range, hrange, hcov⟩ := hcovers.2 hwhole
    exact ⟨range, hrange, hcov, hrest⟩

/-- The first piece that takes the exception is one of the first handler that took it. -/
theorem find?_pieces (h : a.Arranged plan m chunks) (classes : ClassTable) (heap : Heap) (v : Value)
    (hkeeps : a.Keeps plan i) {olds : List Handler} {pieces : List (List Handler)}
    (holds : ∀ old ∈ olds, old ∈ a.method.handlers)
    (hall : Forall₂ (fun old new => ∃ ranges,
      Cuts m.code (a.stretches plan) [(old.start, old.stop)] ranges ∧
      new = ranges.map fun range => { old with start := range.1, stop := range.2 }) olds pieces) :
    (pieces.flatten.find? (Handler.takes classes heap m.code (placeOf chunks i) v)).map
        Handler.target =
      (olds.find? (Handler.takes classes heap a.method.code i v)).map Handler.target := by
  induction hall with
  | nil => rfl
  | @cons old new olds pieces hnew _ ih =>
    obtain ⟨ranges, hcuts, rfl⟩ := hnew
    have hpieces := h.takes_pieces classes heap v hkeeps
      (holds old List.mem_cons_self) hcuts
    rw [List.flatten_cons, List.find?_append]
    cases htakes : old.takes classes heap a.method.code i v with
    | true =>
      rw [List.find?_cons_of_pos htakes]
      obtain ⟨range, hrange, hpiece⟩ := hpieces.2 htakes
      rcases hfind : (ranges.map fun range => { old with start := range.1, stop := range.2 }).find?
        (Handler.takes classes heap m.code (placeOf chunks i) v) with _ | found
      · exact absurd hpiece (List.find?_eq_none.1 hfind _ (List.mem_map_of_mem hrange))
      · obtain ⟨_, -, rfl⟩ := List.mem_map.1 (List.mem_of_find?_eq_some hfind)
        rw [hfind]
        rfl
    | false =>
      rw [List.find?_cons_of_neg (by simp [htakes])]
      have hnone : (ranges.map fun range => { old with start := range.1, stop := range.2 }).find?
          (Handler.takes classes heap m.code (placeOf chunks i) v) = none := by
        refine List.find?_eq_none.2 fun piece hpiece htakes' => ?_
        obtain ⟨range, hrange, rfl⟩ := List.mem_map.1 hpiece
        rw [hpieces.1 ⟨range, hrange, htakes'⟩] at htakes
        cases htakes
      rw [hnone, Option.none_or]
      exact ih fun old' hold' => holds old' (List.mem_cons_of_mem _ hold')

end Arranged

/-! ## Embeddings -/

/-- What stands at a place of a transformed body was added. -/
inductive Inserted (a : Analysed) (plan : MethodPlan) (m : Method) (place : Nat → Nat) (q : Nat) :
    Prop where
  /-- It belongs to the way to the point to go on from. -/
  | head (hat : a.head plan <+: m.code) (hq : q < (a.head plan).length)
  /-- It saves or restores at a point. -/
  | stretch {k start : Nat} {p : SuspensionPoint} (hp : plan.points[k]? = some p)
    (hat : a.stretch plan k p <+: m.code.drop start) (hlow : start ≤ q)
    (hhigh : q < start + (a.stretch plan k p).length)
  /-- It releases the frame in front of a return, or makes up for an allocation in front of a
  constructor call. -/
  | leadIn {i start : Nat} {x : Instr} {front : List Instr} (hi : a.method.code[i]? = some x)
    (hfront : Writes (a.leadIn plan.omitted i x) front)
    (hat : front ++ [x] <+: m.code.drop start) (hend : start + front.length = place i)
    (hlow : start ≤ q) (hhigh : q < place i)
  /-- It releases the frame behind the code of the method. -/
  | tail (hat : a.tail <:+ m.code) (hlow : m.code.length - a.tail.length ≤ q)

/-- The instructions of the method that are kept have gone to the places that `place` says, in their
order. The rest of the body was added. -/
structure Embeds (a : Analysed) (plan : MethodPlan) (m : Method) (place : Nat → Nat) : Prop where
  increasing : ∀ {i j}, a.Keeps plan j → i < j → place i < place j
  same : ∀ {i}, a.Keeps plan i → m.code[place i]? = a.method.code[i]?
  replaced : ∀ {i}, i < a.method.code.length → ¬ a.Keeps plan i →
    (∃ p ∈ plan.points, p.index = i ∧ p.isYield = true ∧ ∃ callee,
      a.method.code[i]? = some (.invoke .invokestatic callee) ∧
        Names.isYield callee.owner callee.name callee.desc) ∨
    i ∈ plan.omitted ∧ ((∃ type, a.method.code[i]? = some (.type .new type)) ∨
      a.method.code[i]? = some (.simple .dup))
  inserted : ∀ {q}, q < m.code.length →
    (∃ i, a.Keeps plan i ∧ q = place i) ∨ a.Inserted plan m place q

namespace Arranged

open Layout (startOf placeOf stop)

/-- Behind the stretch in its chunk, an instruction that is kept has what leads to it in front. -/
theorem inserted_of_kept {x : Instr} (before : List Instr) {front : List Instr} {q : Nat}
    (hi : a.method.code[i]? = some x)
    (hc : chunks[i]? = some (before ++ (front ++ [x]))) (hkeeps : a.Keeps plan i)
    (hfront : Writes (a.leadIn plan.omitted i x) front)
    (hat : before ++ (front ++ [x]) <+: m.code.drop (startOf chunks i))
    (hlow : startOf chunks i + before.length ≤ q) (hhigh : q ≤ placeOf chunks i) :
    (∃ i, a.Keeps plan i ∧ q = placeOf chunks i) ∨ a.Inserted plan m (placeOf chunks) q := by
  by_cases hq : q = placeOf chunks i
  · exact .inl ⟨i, hkeeps, hq⟩
  · right
    have hreach := Layout.startOf_add hc
    simp only [List.length_append, List.length_singleton] at hreach
    have hend : startOf chunks i + before.length + front.length = placeOf chunks i := by omega
    refine .leadIn hi hfront ?_ hend hlow (by omega)
    rw [← List.drop_drop]
    obtain ⟨rest, hrest⟩ := hat
    rw [← hrest, List.append_assoc, List.drop_left]
    exact List.prefix_append _ _

/-- What stands in the chunk of an instruction is the instruction or was added. -/
theorem inserted_of_chunk (h : a.Arranged plan m chunks) {x : Instr} {c : List Instr} {q : Nat}
    (hi : a.method.code[i]? = some x) (hc : chunks[i]? = some c) (hchunk : a.Chunk plan (x, i) c)
    (hat : c <+: m.code.drop (startOf chunks i)) (hlow : startOf chunks i ≤ q)
    (hhigh : q < startOf chunks i + c.length) :
    (∃ i, a.Keeps plan i ∧ q = placeOf chunks i) ∨ a.Inserted plan m (placeOf chunks) q := by
  have hlt := (List.getElem?_eq_some_iff.1 hi).1
  rw [Layout.startOf_add hc] at hhigh
  cases hchunk with
  | plain hnot hw =>
    cases hw with
    | kept hin hfront =>
      have hkeeps : a.Keeps plan i :=
        ⟨hlt, by simpa using hin, fun p hp hindex => absurd hindex (hnot p hp)⟩
      exact inserted_of_kept [] hi hc hkeeps hfront hat hlow (by omega)
    | leftOut => exact absurd (Layout.startOf_add hc) (by simp; omega)
  | @point k p c hp hindex hyield hw =>
    by_cases hq : q < startOf chunks i + (a.stretch plan k p).length
    · exact .inr (.stretch hp ((List.prefix_append _ _).trans hat) hlow hq)
    · cases hw with
      | kept hin hfront =>
        have hkeeps : a.Keeps plan i := by
          refine ⟨hlt, by simpa using hin, fun p' hp' hindex' => ?_⟩
          obtain ⟨k', hp'⟩ := List.mem_iff_getElem?.1 hp'
          obtain ⟨-, rfl⟩ := Layout.number_unique h.sorted hp hp' (hindex'.trans hindex.symm)
          exact hyield
        exact inserted_of_kept _ hi hc hkeeps hfront hat (by omega) (by omega)
      | leftOut =>
        have hreach := Layout.startOf_add hc
        rw [List.append_nil] at hreach
        omega
  | yield hp hindex hyield =>
    have hreach := Layout.startOf_add hc
    exact .inr (.stretch hp hat hlow (by omega))

/-- Every place of the body has an instruction of the method or something that was added. -/
theorem embeds (h : a.Arranged plan m chunks)
    (hreplaced : ∀ {i}, i < a.method.code.length → ¬ a.Keeps plan i →
      (∃ p ∈ plan.points, p.index = i ∧ p.isYield = true ∧ ∃ callee,
        a.method.code[i]? = some (.invoke .invokestatic callee) ∧
          Names.isYield callee.owner callee.name callee.desc) ∨
      i ∈ plan.omitted ∧ ((∃ type, a.method.code[i]? = some (.type .new type)) ∨
        a.method.code[i]? = some (.simple .dup))) :
    a.Embeds plan m (placeOf chunks) where
  increasing hj hij := h.layout.placeOf_lt hj hij
  same hkeeps := h.layout.getElem?_placeOf hkeeps
  replaced := hreplaced
  inserted {q} hq := by
    obtain ⟨before, hcode, hlen⟩ := h.layout.code_eq
    rcases h.layout.place_cases (List.getElem?_eq_getElem hq) with
      ⟨hlow, -⟩ | ⟨hhigh, -⟩ | ⟨i, x, c, hi, hc, hchunk, hlow, hhigh, -⟩
    · refine .inr (.head ?_ hlow)
      rw [h.layout.code, List.append_assoc]
      exact List.prefix_append _ _
    · refine .inr (.tail ⟨before, hcode.symm⟩ ?_)
      rw [hcode, List.length_append]
      omega
    · obtain ⟨c', hc', -, hat⟩ := h.layout.exists_chunk hi
      cases hc.symm.trans hc'
      exact h.inserted_of_chunk hi hc hchunk hat hlow hhigh

/-- An exception other than the signal goes to the same label as in the method. -/
theorem catches (h : a.Arranged plan m chunks) {pieces : List (List Handler)}
    (hhandlers : m.handlers = a.signalHandler :: pieces.flatten ++ [a.otherHandler])
    (hpieces : Forall₂ (fun old new => ∃ ranges,
      Cuts m.code (a.stretches plan) [(old.start, old.stop)] ranges ∧
      new = ranges.map fun range => { old with start := range.1, stop := range.2 })
      a.method.handlers pieces)
    (hsignal : classes.isInstance heap v Names.suspendExecution = false)
    (hkeeps : a.Keeps plan i) :
    (LoadedMethod.load a.owner m).Catches classes heap (placeOf chunks i) v
      (((a.method.handlers.find? (Handler.takes classes heap a.method.code i v)).map
        Handler.target).getD (a.method.freshLabel 3)) := by
  have hnot : ¬ a.signalHandler.takes classes heap m.code (placeOf chunks i) v = true := by
    intro htakes
    obtain ⟨-, -, hcatch⟩ := Handler.takes_iff.1 htakes
    rw [show a.signalHandler.catchType = some Names.suspendExecution from rfl,
      Option.all_some, hsignal] at hcatch
    cases hcatch
  have hother : a.otherHandler.takes classes heap m.code (placeOf chunks i) v = true := by
    refine Handler.takes_iff.2 ⟨⟨2, stop chunks, ?_, ?_, ?_, ?_⟩, ⟨stop chunks + 1, ?_⟩, rfl⟩
    · exact h.layout.position_start h.labels
    · exact h.layout.position_stop h.labels
    · unfold placeOf
      omega
    · exact h.placeOf_lt_stop hkeeps.1
    · exact h.layout.position_catchAll h.labels
  have hfirst := h.find?_pieces classes heap v hkeeps
    (fun _ hold => hold) hpieces
  rw [← hfirst]
  rcases hfind : pieces.flatten.find? (Handler.takes classes heap m.code (placeOf chunks i) v) with
    _ | piece
  · have hall : m.handlers.find? (Handler.takes classes heap m.code (placeOf chunks i) v) =
        some a.otherHandler := by
      rw [hhandlers, List.cons_append, List.find?_cons_of_neg hnot, List.find?_append, hfind,
        Option.none_or, List.find?_cons_of_pos hother]
    exact LoadedMethod.catches_of_find? hall
  · have hall : m.handlers.find? (Handler.takes classes heap m.code (placeOf chunks i) v) =
        some piece := by
      rw [hhandlers, List.cons_append, List.find?_cons_of_neg hnot, List.find?_append, hfind]
      rfl
    exact LoadedMethod.catches_of_find? hall

/-- No piece of a handler of the method covers any part of a stretch. -/
theorem not_covers_stretch (h : a.Arranged plan m chunks) {pieces : List (List Handler)}
    (hpieces : Forall₂ (fun old new => ∃ ranges,
      Cuts m.code (a.stretches plan) [(old.start, old.stop)] ranges ∧
      new = ranges.map fun range => { old with start := range.1, stop := range.2 })
      a.method.handlers pieces)
    {s : Label × Label} (hs : s ∈ a.stretches plan) {q : Nat} (hq : Covers m.code s q)
    {handler : Handler} (hmem : handler ∈ pieces.flatten) {r : LoadedHandler}
    (hr : handler.load? m.code = some r) : r.covers q = false := by
  obtain ⟨new, hnew, hmem⟩ := List.mem_flatten.1 hmem
  obtain ⟨old, hold, ranges, hcuts, rfl⟩ := exists_left_of_mem hpieces hnew
  obtain ⟨range, hrange, rfl⟩ := List.mem_map.1 hmem
  have hclear := h.clear hcuts (Method.mem_labels_of_handler hold (by simp))
    (Method.mem_labels_of_handler hold (by simp)) hs hq hrange
  obtain ⟨hstart, hstop, -, -⟩ := Handler.load?_eq_some_iff.1 hr
  rw [← Bool.not_eq_true]
  intro hcovers
  simp only [LoadedHandler.covers, Bool.and_eq_true, decide_eq_true_eq] at hcovers
  exact hclear ⟨r.start, r.stop, hstart, hstop, hcovers⟩

end Arranged

end Analysed

/-! ## The whole method -/

/-- Where an instruction has gone, an exception other than the signal is caught at the label where it
was caught, or, if it was not caught, at the label where the frame is released. -/
def Analysed.CatchesAlike (a : Analysed) (plan : MethodPlan) (m : Method) (place : Nat → Nat) : Prop :=
  ∀ (classes : ClassTable) (heap : Heap) (v : Value) (i : Nat),
    classes.isInstance heap v Names.suspendExecution = false → a.Keeps plan i →
    (∃ l, (LoadedMethod.load a.owner a.method).Catches classes heap i v l ∧
      (LoadedMethod.load a.owner m).Catches classes heap (place i) v l) ∨
    classes.handlerFor? heap (.load a.owner a.method) i v = none ∧
      (LoadedMethod.load a.owner m).Catches classes heap (place i) v
        (BodyLabels.forMethod a.method plan.points.length).catchAll

namespace Transforms

variable {owner : String} {m m' : Method} {a : Analysed} {plan : MethodPlan}

/-- An instruction that is not kept was a suspend call, or made an allocation that is put off. -/
theorem replaced (h : Transforms owner m a plan m') {i : Nat} (hi : i < a.method.code.length)
    (hnot : ¬ a.Keeps plan i) :
    (∃ p ∈ plan.points, p.index = i ∧ p.isYield = true ∧ ∃ callee,
      a.method.code[i]? = some (.invoke .invokestatic callee) ∧
        Names.isYield callee.owner callee.name callee.desc) ∨
    i ∈ plan.omitted ∧ ((∃ type, a.method.code[i]? = some (.type .new type)) ∨
      a.method.code[i]? = some (.simple .dup)) := by
  by_cases hout : i ∈ plan.omitted
  · exact .inr ⟨hout, h.of_mem_omitted hout⟩
  · left
    by_contra hall
    refine hnot ⟨hi, hout, fun p hp hindex => ?_⟩
    rw [← Bool.not_eq_true]
    intro hyield
    obtain ⟨callee, hcode, his⟩ := h.of_isYield hp hyield
    exact hall ⟨p, hp, hindex, hyield, callee, hindex ▸ hcode, his⟩

/-- **Transforming preserves order and handlers.** The instructions of a method with points go to
increasing places, and everything else in the body was added. At these places, an exception other
than the signal is caught at the label where the method caught it, or, if the method did not catch
it, where the frame is released. Between the labels around a point, nothing is covered by what has
become of the handlers of the method. -/
theorem preserves_order_and_handlers (h : Transforms owner m a plan m') (hpoints : plan.points ≠ [])
    (hlabels : m.HasLabels (4 + 3 * plan.points.length)) :
    ∃ place, a.Embeds plan m' place ∧ a.CatchesAlike plan m' place ∧
      ∃ cut, m'.handlers = a.signalHandler :: cut ++ [a.otherHandler] ∧
        ∀ k < plan.points.length, ∃ first last,
          (BodyLabels.forMethod m plan.points.length).before[k]?.bind (labelPosition? m'.code) =
            some first ∧
          (BodyLabels.forMethod m plan.points.length).after[k]?.bind (labelPosition? m'.code) =
            some last ∧
          first < last ∧
          ∀ handler ∈ cut, ∀ r, handler.load? m'.code = some r →
            ∀ q, first ≤ q → q < last → r.covers q = false := by
  obtain ⟨chunks, harranged⟩ := h.arranged hpoints hlabels
  obtain ⟨pieces, hhandlers, hpieces⟩ := h.exists_pieces hpoints hlabels
  refine ⟨_, harranged.embeds h.replaced, ?_, pieces.flatten, hhandlers, ?_⟩
  · intro classes heap v i hsignal hkeeps
    have hcatches := harranged.catches hhandlers hpieces hsignal hkeeps
    rcases hfind : a.method.handlers.find? (Handler.takes classes heap a.method.code i v) with
      _ | handler
    · right
      rw [hfind] at hcatches
      refine ⟨by rw [Handler.handlerFor?_eq, hfind]; rfl, ?_⟩
      rw [Method.forMethod_eq]
      exact hcatches
    · left
      rw [hfind] at hcatches
      exact ⟨handler.target, LoadedMethod.catches_of_find? hfind, hcatches⟩
  · intro k hk
    obtain ⟨-, rfl, -⟩ := h.analyzed
    obtain ⟨last, hbefore, hafter, hlt, -⟩ := harranged.stretch_at (List.getElem?_eq_getElem hk)
    refine ⟨_, last, by rw [Analysed.bind_before hk, hbefore],
      by rw [Analysed.bind_after hk, hafter], hlt, fun handler hmem r hr q hlow hhigh => ?_⟩
    exact harranged.not_covers_stretch hpieces
      (List.mem_map.2 ⟨k, List.mem_range.2 hk, rfl⟩) ⟨_, last, hbefore, hafter, hlow, hhigh⟩ hmem hr

/-! ### A method that guards a pause -/

/-- Pauses and returns 1, or 2 if an exception comes out of the pause. -/
def guarding : Method :=
  { name := "guard", desc := "()I", access := .static
    code := [.label ⟨0⟩,
      .invoke .invokestatic ⟨Names.coroutine, Names.yieldName, Names.yieldDesc⟩,
      .const (.int 1), .simple .ireturn, .label ⟨1⟩, .simple .pop, .const (.int 2),
      .simple .ireturn]
    handlers := [⟨⟨0⟩, ⟨1⟩, ⟨1⟩, none⟩] }

/-- What the analysis finds in it. -/
def guardingAnalysed : Analysed :=
  ⟨"app/A", guarding, #[some ⟨[], []⟩, some ⟨[], []⟩, some ⟨[], []⟩, some ⟨[], [.int]⟩,
    some ⟨[], [.reference Names.throwable]⟩, some ⟨[], [.reference Names.throwable]⟩,
    some ⟨[], []⟩, some ⟨[], [.int]⟩]⟩

/-- Its point. -/
def guardingPoint : SuspensionPoint :=
  { index := 1, isYield := true, stack := [], locals := [], slots := 0 }

/-- What becomes of it: the handler is cut in two around the pause. -/
def guardingBody : Method :=
  { guarding with
    code := [.frame .entry, .switch 1 ⟨2⟩ [⟨6⟩], .label ⟨2⟩, .label ⟨0⟩, .label ⟨7⟩,
      .frame (.reserve 1 0), .frame .suspend, .label ⟨6⟩, .label ⟨8⟩, .const (.int 1),
      .frame .release, .simple .ireturn, .label ⟨1⟩, .simple .pop, .const (.int 2),
      .frame .release, .simple .ireturn, .label ⟨3⟩, .label ⟨5⟩, .frame .release, .label ⟨4⟩,
      .simple .athrow]
    handlers := [⟨⟨2⟩, ⟨3⟩, ⟨4⟩, some Names.suspendExecution⟩, ⟨⟨0⟩, ⟨7⟩, ⟨1⟩, none⟩,
      ⟨⟨8⟩, ⟨1⟩, ⟨1⟩, none⟩, ⟨⟨2⟩, ⟨3⟩, ⟨5⟩, none⟩] }

theorem transforms_guarding :
    Transforms "app/A" guarding guardingAnalysed ⟨[guardingPoint], []⟩ guardingBody :=
  .of_database (.new {} .empty) (by cbv) rfl (by decide +kernel)

/-- The constant behind the pause keeps its handler. -/
theorem preserves_order_and_handlers_guarding : ∃ place,
    guardingAnalysed.Embeds ⟨[guardingPoint], []⟩ guardingBody place ∧
      (LoadedMethod.load "app/A" guardingBody).Catches {} ⟨#[], #[]⟩ (place 2) (.str "") ⟨1⟩ := by
  obtain ⟨place, hembeds, hcatches, -⟩ :=
    transforms_guarding.preserves_order_and_handlers (by decide) (by decide +kernel)
  have hkeeps : guardingAnalysed.Keeps ⟨[guardingPoint], []⟩ 2 := by
    refine ⟨by decide, by decide, fun p hp hindex => ?_⟩
    rw [List.mem_singleton.1 hp] at hindex
    cases hindex
  have hfirst : ({} : ClassTable).handlerFor? ⟨#[], #[]⟩ (.load "app/A" guarding) 2 (.str "") =
      some ⟨0, 4, 4, none⟩ := by decide +kernel
  refine ⟨place, hembeds, ?_⟩
  rcases hcatches {} ⟨#[], #[]⟩ (.str "") 2 rfl hkeeps with ⟨l, ⟨r, hr, hl⟩, hplace⟩ | ⟨hnone, -⟩
  · cases hfirst.symm.trans hr
    cases hl
    exact hplace
  · cases hfirst.symm.trans hnone

/-! ### Without numbers for the labels that are added -/

/-- Behind the last label number, the label where the code of the method begins is one of its own
that stands further down. Wherever the instructions have gone, nothing catches what the null in front
of the throw might throw, and the frame would not be released. -/
theorem colliding_loses_handlers :
    colliding.verify = .ok () ∧
      Transforms "app/A" colliding collidingAnalysed ⟨[collidingPoint], []⟩ collidingBody ∧
      ∀ place, (∀ i, collidingAnalysed.Keeps ⟨[collidingPoint], []⟩ i →
          collidingBody.code[place i]? = colliding.code[i]?) →
        ¬ collidingAnalysed.CatchesAlike ⟨[collidingPoint], []⟩ collidingBody place := by
  refine ⟨by decide +kernel, transforms_colliding, fun place hsame halike => ?_⟩
  have hkeeps : collidingAnalysed.Keeps ⟨[collidingPoint], []⟩ 6 := by
    refine ⟨by decide, by decide, fun p hp hindex => ?_⟩
    rw [List.mem_singleton.1 hp] at hindex
    cases hindex
  -- There is only one null in the body.
  have hplace : place 6 = 18 := by
    have honly : ∀ q < 33, collidingBody.code[q]? = some (.simple .aconstNull) → q = 18 := by
      decide +kernel
    have hnull : collidingBody.code[place 6]? = some (.simple .aconstNull) := hsame 6 hkeeps
    exact honly _ (List.getElem?_eq_some_iff.1 hnull).1 hnull
  have hnone : ({} : ClassTable).handlerFor? ⟨#[], #[]⟩ (.load "app/A" collidingBody) 18 (.str "") =
      none := by decide +kernel
  have hcatches := halike {} ⟨#[], #[]⟩ (.str "") 6 rfl hkeeps
  rw [hplace] at hcatches
  rcases hcatches with ⟨l, -, r, hr, -⟩ | ⟨-, r, hr, -⟩
  · cases hnone.symm.trans hr
  · cases hnone.symm.trans hr

end Transforms

end Resumable
