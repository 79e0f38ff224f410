import Resumable.Proofs.Instrument.Careful

/-!
# Both forms of a method side by side

An activation of a method and one of its re-entrant form mirror each other (`Revision.Mirrors`) if they
have the same operands, and the same values in all locals of which the analysis knows something. Of the
other locals a careful method reads none, so both do the same when they execute the same instruction
(`Mirrors.does`, `Mirrors.fails`), and they mirror each other wherever that leads.
-/

namespace Resumable

open List (Forall₂)

/-! ## What is known of locals -/

/-- Of a place that may hold any value, nothing is known. -/
theorem FlowValue.eq_unknown_of_admits {t : FlowValue} (h : ∀ v, t.Admits v) : t = .unknown := by
  cases t with
  | unknown => rfl
  | null | reference | fresh => cases h (.int 0)
  | int | long | float | double => cases h .null

namespace Frame

variable {f g : Frame} {locals locals' : List Value} {index : Nat} {x : Instr}

/-- Wherever the frame knows something, both lists have the same local. -/
def Agrees (f : Frame) (locals locals' : List Value) : Prop :=
  ∀ (i : Nat) (t : FlowValue), f.locals[i]? = some t → t ≠ .unknown → locals'[i]? = locals[i]?

/-- Whatever the second frame knows something of, the first did. -/
def KnewAll (f g : Frame) : Prop :=
  ∀ (i : Nat) (t : FlowValue), g.locals[i]? = some t → t ≠ .unknown →
    ∃ t', f.locals[i]? = some t' ∧ t' ≠ .unknown

theorem KnewAll.of_eq (h : g.locals = f.locals) : f.KnewAll g :=
  fun _ t ht hknown => ⟨t, h ▸ ht, hknown⟩

theorem KnewAll.of_le (h : f ≤ g) : f.KnewAll g := by
  intro i t ht hknown
  have hlt : i < f.locals.length := by
    rw [h.locals_length]
    exact (List.getElem?_eq_some_iff.1 ht).1
  have hle : FlowValue.Le f.locals[i] t :=
    forall₂_getElem? h.locals (List.getElem?_eq_getElem hlt) ht
  refine ⟨f.locals[i], List.getElem?_eq_getElem hlt, fun hunknown => hknown ?_⟩
  rw [hunknown] at hle
  cases hle <;> rfl

theorem Agrees.of_knewAll (h : f.Agrees locals locals') (hknew : f.KnewAll g) :
    g.Agrees locals locals' := by
  intro i t ht hknown
  obtain ⟨t', ht', hknown'⟩ := hknew i t ht hknown
  exact h i t' ht' hknown'

theorem Agrees.set (h : f.Agrees locals locals') (hlen : locals'.length = locals.length)
    (hg : ∀ i, index ≠ i → g.locals[i]? = f.locals[i]?) (v : Value) :
    g.Agrees (locals.set index v) (locals'.set index v) := by
  intro i t ht hknown
  by_cases hi : index = i
  · subst hi
    rw [List.getElem?_set_self', List.getElem?_set_self']
    rcases hold : locals[index]? with _ | old
    · rw [List.getElem?_eq_none (hlen ▸ List.getElem?_eq_none_iff.1 hold)]
    · have hlt := (List.getElem?_eq_some_iff.1 hold).1
      rw [List.getElem?_eq_getElem (hlen ▸ hlt)]
      rfl
  · rw [List.getElem?_set_ne hi, List.getElem?_set_ne hi]
    exact h i t (hg i hi ▸ ht) hknown

/-- The opcodes that load a local. -/
def loads : List Opcode := [.iload, .lload, .fload, .dload, .aload]

/-- Any other operation on a local puts something into it. -/
theorem locals_of_store {op : Opcode} {slot : UInt16} (hop : op ∉ loads)
    (h : f.step index (.local op slot) = .ok g) : ∃ t, g.locals = f.locals.set slot.toNat t := by
  simp only [step] at h
  split at h
  case h_6 =>
    obtain ⟨v, f₁, rfl, h₁⟩ := pop_bind h
    rw [(setLocal_eq_ok.1 h₁).2]
    exact ⟨v, rfl⟩
  all_goals exact absurd (by decide) hop

/-- An instruction that only reads what is known, and stores nothing, knew all that is known behind
it. -/
theorem knewAll_of_step (h : f.step index x = .ok g)
    (hstore : ∀ op slot, x = .local op slot → op ∈ loads)
    (hreads : ∀ slot, x.Reads slot → f.locals[slot]? ≠ some .unknown) : f.KnewAll g := by
  cases x with
  | label =>
    cases h
    exact .of_eq rfl
  | simple => exact .of_eq (locals_of_stepSimple h)
  | const c => exact .of_eq (by cases c <;> cases h <;> rfl)
  | «local» op slot =>
    simp only [step] at h
    split at h
    case h_6 hi hl hf hd ha =>
      have hop := hstore op slot rfl
      simp only [loads, List.mem_cons, List.not_mem_nil, or_false] at hop
      rcases hop with rfl | rfl | rfl | rfl | rfl
      exacts [(hi rfl).elim, (hl rfl).elim, (hf rfl).elim, (hd rfl).elim, (ha rfl).elim]
    all_goals
      obtain ⟨v, -, h⟩ := bind_eq_ok.1 h
      cases h
      exact .of_eq rfl
  | inc slot =>
    obtain ⟨hlt, rfl⟩ := setLocal_eq_ok.1 h
    intro i t ht hknown
    by_cases hi : slot.toNat = i
    · subst hi
      refine ⟨_, List.getElem?_eq_getElem hlt, fun hunknown => hreads slot.toNat rfl ?_⟩
      rw [List.getElem?_eq_getElem hlt, hunknown]
    · rw [List.getElem?_set_ne hi] at ht
      exact ⟨t, ht, hknown⟩
  | jump op =>
    simp only [step] at h
    split at h
    case h_1 =>
      cases h
      exact .of_eq rfl
    all_goals exact .of_eq (locals_of_drop h)
  | switch => exact .of_eq (locals_of_drop h)
  | field op m =>
    simp only [step] at h
    split at h
    · cases h
    · split at h
      · exact .of_eq (locals_of_replace h)
      · exact .of_eq (locals_of_drop h)
      · cases h
        exact .of_eq rfl
      · exact .of_eq (locals_of_drop h)
  | invoke =>
    -- Ending a construction takes nothing unknown for known.
    obtain ⟨-, -, -, settle, hsettle, rfl⟩ := stepInvoke_eq_ok h
    intro i t ht hknown
    rw [List.getElem?_map] at ht
    obtain ⟨t', ht', rfl⟩ := Option.map_eq_some_iff.1 ht
    refine ⟨t', ht', fun hunknown => hknown (FlowValue.eq_unknown_of_admits fun v => ?_)⟩
    exact hsettle t' v (hunknown ▸ trivial)
  | type op =>
    simp only [step] at h
    split at h
    · cases h
      exact .of_eq rfl
    · obtain ⟨v, f₁, rfl, h₁⟩ := pop_bind h
      cases h₁
      exact .of_eq rfl
    · exact .of_eq (locals_of_replace h)
    · exact .of_eq (locals_of_replace h)
  | frame op =>
    cases op with
    | save => exact .of_eq (locals_of_drop h)
    | _ =>
      cases h
      exact .of_eq rfl

end Frame

/-- The labels to which an instruction leads are among those of its method. -/
theorem Method.mem_labels_of_target {m : Method} {x : Instr} {l : Label} (hx : x ∈ m.code)
    (hl : l ∈ x.branchTargets) : l ∈ m.labels := by
  refine List.mem_append_left _ (List.mem_flatMap.2 ⟨x, hx, ?_⟩)
  cases x with
  | label => cases hl
  | _ => exact hl

/-! ## What an instruction leads to -/

/-- Where control goes past an instruction, the analysis has it fall through. -/
theorem Exec.fallsThrough_of_next {classes : ClassTable} {x : Instr} {a a' : Activation}
    {m m' : Memory} (h : Does (instr classes x) a m .next a' m') : x.fallsThrough = true := by
  cases x with
  | label | inc => rfl
  | const c => cases c <;> rfl
  | simple op =>
    have hreturn : op.isReturn = false := leads_instr h op rfl
    cases op with
    | ireturn | lreturn | freturn | dreturn | areturn | ret => cases hreturn
    | goto | tableswitch | frameSuspend => exact (Does.not_throw h).elim
    | athrow =>
      obtain ⟨v, a₁, m₁, -, h⟩ := h.bind
      dsimp only at h
      split at h
      · obtain ⟨_, _, _, hthrow, -⟩ := h.bind
        exact (Does.not_throw hthrow).elim
      · exact (Does.not_throw h).elim
    | _ => rfl
  | «local» op slot =>
    obtain ⟨_, _, _, hlocal, -⟩ := h.bind
    cases op <;> first | rfl | exact (Does.not_throw hlocal).elim
  | jump op l =>
    obtain ⟨taken, a₁, m₁, hcondition, h⟩ := h.bind
    have htaken := hcondition.condition.2
    split at h
    · obtain ⟨pc, hmove, -⟩ := h.jumpTo
      cases hmove
    · rename_i hnot
      exact bne_iff_ne.2 fun hgoto => hnot (htaken hgoto)
  | switch low default targets =>
    obtain ⟨n, a₁, m₁, -, h⟩ := h.bind
    obtain ⟨pc, hmove, -⟩ := h.jumpTo
    cases hmove
  | field op member =>
    obtain ⟨_, _, _, hfield, -⟩ := h.bind
    cases op <;> first | rfl | exact (Does.not_throw hfield).elim
  | invoke op member =>
    obtain ⟨_, _, _, -, h⟩ := h.bind
    cases h
  | type op desc =>
    obtain ⟨_, _, _, htype, -⟩ := h.bind
    cases op <;> first | rfl | exact (Does.not_throw htype).elim
  | frame op =>
    obtain ⟨_, _, _, hframe, -⟩ := h.bind
    cases op <;> first | rfl | exact (Does.not_throw hframe).elim

/-- An operation on a local that does not load it puts the top of the operands there. -/
theorem Exec.Does.store {classes : ClassTable} {op : Opcode} {slot : UInt16} {a a' : Activation}
    {m m' : Memory} {move : Move} (h : Does (instr classes (.local op slot)) a m move a' m')
    (hop : op ∉ Frame.loads) : ∃ v rest, a.stack = v :: rest ∧
      a' = { a with locals := a.locals.set slot.toNat v, stack := rest } := by
  obtain ⟨_, _, _, hlocal, h⟩ := h.bind
  cases h
  have hstores : Does (do let v ← Exec.pop; Exec.setLocal slot v) a m () a' m' := by
    cases op <;> first
      | exact absurd (by decide) hop
      | exact hlocal
      | exact (Does.not_throw hlocal).elim
  obtain ⟨v, a₁, m₁, hpop, hset⟩ := hstores.bind
  obtain ⟨rest, hstack, rfl, rfl⟩ := hpop.pop
  obtain ⟨-, rfl, -⟩ := hset.setLocal
  exact ⟨v, rest, hstack, rfl⟩

/-! ## Mirrored activations -/

/-- An activation of the method and one of its re-entrant form: they have the same operands, and the
same locals as far as the frame `f` knows something of them. What the method does not save is as it
was when the method was entered with the locals `entered`. -/
structure Revision.Mirrors (w : Revision) (f : Frame) (entered : List Value) (a b : Activation) :
    Prop where
  method : a.method = w.before
  revised : b.method = w.after
  stack : b.stack = a.stack
  length : a.locals.length = f.locals.length
  length' : b.locals.length = f.locals.length
  locals : f.Agrees a.locals b.locals
  entered : ∀ i < w.analysed.firstLocal, a.locals[i]? = entered[i]? ∧ b.locals[i]? = entered[i]?

namespace Revision

/-- Each instruction that control comes to leads on to others. -/
theorem exists_step (w : Revision) {i : Nat} {f : Frame} (hf : w.analysed.frame? i = some f) :
    ∃ x g, w.source.code[i]? = some x ∧ f.step i x = .ok g ∧
      Flow.Leads w.source w.analysed.frames i x f g := w.transforms.exists_step hf

namespace Mirrors

variable {w : Revision} {f g : Frame} {entered : List Value} {a b a' : Activation} {x : Instr}
  {t t' : ClassTable} {m m' : Memory} {move : Move} {i : Nat}

/-- Both activations may get other operands and go to other places. -/
theorem go (h : w.Mirrors f entered a b) (stack : List Value) (pc pc' : Nat) :
    w.Mirrors f entered { a with stack, pc } { b with stack, pc := pc' } :=
  ⟨h.method, h.revised, rfl, h.length, h.length', h.locals, h.entered⟩

/-- Less is known than before. -/
theorem of_knewAll (h : w.Mirrors f entered a b) (hknew : f.KnewAll g)
    (hlen : g.locals.length = f.locals.length) : w.Mirrors g entered a b :=
  ⟨h.method, h.revised, h.stack, hlen ▸ h.length, hlen ▸ h.length', h.locals.of_knewAll hknew, h.entered⟩

theorem of_le (h : w.Mirrors f entered a b) (hle : f ≤ g) : w.Mirrors g entered a b :=
  h.of_knewAll (.of_le hle) hle.locals_length.symm

/-- Mirrored activations have what an instruction of a careful method needs. -/
theorem beside (hcareful : w.Careful) (hx : w.source.code[i]? = some x)
    (hf : w.analysed.frame? i = some f) : x.Beside w.place (w.Mirrors f entered) where
  same h := h.stack
  stack stack h := ⟨h.method, h.revised, rfl, h.length, h.length', h.locals, h.entered⟩
  length h := h.length'.trans h.length.symm
  reads {a b slot} hreads h := by
    rcases ht : f.locals[slot]? with _ | t
    · rw [List.getElem?_eq_none_iff] at ht
      rw [List.getElem?_eq_none (Nat.le_trans (Nat.le_of_eq h.length) ht),
        List.getElem?_eq_none (Nat.le_trans (Nat.le_of_eq h.length') ht)]
    · refine h.locals slot t ht fun hunknown => hcareful.reads i x f slot hx hf hreads ?_
      rw [ht, hunknown]
  writes {a b slot} v hassigns h := by
    refine ⟨h.method, h.revised, h.stack, List.length_set.trans h.length,
      List.length_set.trans h.length', h.locals.set (h.length'.trans h.length.symm) (fun _ _ => rfl) v,
      fun j hj => ?_⟩
    -- Only the receiver is not saved, and it is not written.
    have hne : slot ≠ j := by
      rintro rfl
      unfold Analysed.firstLocal at hj
      split at hj
      · cases hj
      · rename_i hstatic
        obtain rfl : slot = 0 := Nat.lt_one_iff.1 hj
        exact hcareful.receiver (by simpa using hstatic) x (List.mem_of_getElem? hx) hassigns
    rw [List.getElem?_set_ne hne, List.getElem?_set_ne hne]
    exact h.entered j hj
  labels {a b l} hl h := by
    rw [h.method, h.revised]
    have hmem : l ∈ w.source.labels := Method.mem_labels_of_target (List.mem_of_getElem? hx) hl
    unfold LoadedMethod.position
    rw [show labelPosition? w.after.method.code l =
      (labelPosition? w.before.method.code l).map w.place from w.arranged.position_label hmem]
    rcases labelPosition? w.before.method.code l with _ | pc <;> rfl

/-- **Mirrored activations do the same**, and they mirror each other afterwards. -/
theorem does (hcareful : w.Careful) (ht : t.Agrees t') (hx : w.source.code[i]? = some x)
    (hf : w.analysed.frame? i = some f) (hstep : f.step i x = .ok g) (h : w.Mirrors f entered a b)
    (hdoes : Exec.Does (Exec.instr t x) a m move a' m') (coroutines : Coroutines) :
    ∃ b', Exec.Does (Exec.instr t' x) b (m.withCoroutines coroutines) (move.relocate w.place) b'
        (m'.withCoroutines coroutines) ∧ w.Mirrors f entered a' b' ∧ w.Mirrors g entered a' b' := by
  have hplain : ∀ op, x ≠ .frame op := fun op hop => w.plain op (hop ▸ List.mem_of_getElem? hx)
  obtain ⟨move', b', hdoes', rfl, hmirrors⟩ :=
    (Exec.alike_instr (beside hcareful hx hf) ht hplain).of_ok hdoes h coroutines
  refine ⟨b', hdoes', hmirrors, ?_⟩
  by_cases hstore : ∀ op slot, x = .local op slot → op ∈ Frame.loads
  · exact hmirrors.of_knewAll (Frame.knewAll_of_step hstep hstore fun slot hreads =>
      hcareful.reads i x f slot hx hf hreads) (Frame.locals_length_of_step hstep)
  · push Not at hstore
    obtain ⟨op, slot, rfl, hop⟩ := hstore
    obtain ⟨v, rest, hstack, rfl⟩ := hdoes.store hop
    obtain ⟨v', rest', hstack', rfl⟩ := hdoes'.store hop
    rw [h.stack, hstack, List.cons.injEq] at hstack'
    obtain ⟨rfl, rfl⟩ := hstack'
    have hlen := Frame.locals_length_of_step hstep
    obtain ⟨known, hg⟩ := Frame.locals_of_store hop hstep
    refine ⟨h.method, h.revised, rfl, hlen ▸ hmirrors.length, hlen ▸ hmirrors.length', ?_,
      hmirrors.entered⟩
    exact h.locals.set (h.length'.trans h.length.symm)
      (fun j hj => by rw [hg, List.getElem?_set_ne hj]) v

theorem fails (hcareful : w.Careful) (ht : t.Agrees t') (hx : w.source.code[i]? = some x)
    (hf : w.analysed.frame? i = some f) (h : w.Mirrors f entered a b) {e : RunError}
    (hrun : ((Exec.instr t x).run a).run m = (.error e, m')) (coroutines : Coroutines) :
    ((Exec.instr t' x).run b).run (m.withCoroutines coroutines) =
      (.error e, m'.withCoroutines coroutines) :=
  (Exec.alike_instr (beside hcareful hx hf) ht fun op hop =>
    w.plain op (hop ▸ List.mem_of_getElem? hx)).of_error hrun h coroutines

/-- Where control has come to, the frame knows no more than what has been brought. -/
theorem of_into (h : w.Mirrors g entered a b) (hinto : Flow.Into w.analysed.frames i g) :
    ∃ g', w.analysed.frame? i = some g' ∧ w.Mirrors g' entered a b := by
  obtain ⟨g', hg', hle⟩ := hinto
  exact ⟨g', hg', h.of_le hle⟩

/-- What is known behind a call is no more than what was known in front of it. -/
theorem behind (h : w.Mirrors f entered a b) (hf : w.analysed.frame? i = some f) {op : Opcode}
    {callee : MemberRef} (hcode : w.source.code[i]? = some (.invoke op callee))
    (hfalls : (Instr.invoke op callee).fallsThrough = true) :
    ∃ g, w.analysed.frame? (i + 1) = some g ∧ w.Mirrors g entered a b := by
  obtain ⟨x, g, hx, hstep, hleads⟩ := w.exists_step hf
  obtain rfl : _ = x := Option.some.inj (hcode.symm.trans hx)
  have hknew : f.KnewAll g := Frame.knewAll_of_step hstep nofun fun _ => nofun
  exact (h.of_knewAll hknew (Frame.locals_length_of_step hstep)).of_into (hleads.falls hfalls)

/-- Past an instruction and at a label of the method, control comes to the beginning of what the
re-entrant form has there. -/
theorem leads (hcareful : w.Careful) (ht : t.Agrees t') (hf : w.analysed.frame? a.pc = some f)
    (h : w.Mirrors f entered a b) (hpc : b.pc = w.place a.pc)
    (hx : w.source.code[a.pc]? = some x)
    (hdoes : Exec.Does (Exec.instr t x) a m move a' m') (coroutines : Coroutines) {a₂ : Activation}
    (hgoing : move.progress a.pc a' = .going a₂) :
    ∃ b' b₂ g, Exec.Does (Exec.instr t' x) b (m.withCoroutines coroutines) (move.relocate w.place) b'
        (m'.withCoroutines coroutines) ∧
      (move.relocate w.place).progress b.pc b' = .going b₂ ∧
      w.analysed.frame? a₂.pc = some g ∧ w.Mirrors g entered a₂ b₂ ∧ b₂.pc = w.start a₂.pc := by
  obtain ⟨y, g, hy, hstep, hleads⟩ := w.exists_step hf
  obtain rfl : x = y := Option.some.inj (hx.symm.trans hy)
  obtain ⟨b', hdoes', -, hmirrors⟩ := does hcareful ht hx hf hstep h hdoes coroutines
  cases move with
  | next =>
    cases hgoing
    obtain ⟨g', hg', hmirrors⟩ := hmirrors.of_into (hleads.falls (Exec.fallsThrough_of_next hdoes))
    refine ⟨b', _, g', hdoes', rfl, hg', ?_, ?_⟩
    · exact ⟨hmirrors.method, hmirrors.revised, hmirrors.stack, hmirrors.length, hmirrors.length',
        hmirrors.locals, hmirrors.entered⟩
    · show b.pc + 1 = w.start (a.pc + 1)
      rw [w.start_succ, hpc]
  | goto pc =>
    cases hgoing
    obtain ⟨l, hl, hlabel⟩ := Exec.leads_instr hdoes
    obtain ⟨target, htarget, hinto⟩ := hleads.jumps l hl
    rw [h.method] at hlabel
    obtain rfl : pc = target := Option.some.inj (hlabel.symm.trans htarget)
    obtain ⟨g', hg', hmirrors⟩ := hmirrors.of_into hinto
    refine ⟨b', _, g', hdoes', rfl, hg', ?_, ?_⟩
    · exact ⟨hmirrors.method, hmirrors.revised, hmirrors.stack, hmirrors.length, hmirrors.length',
        hmirrors.locals, hmirrors.entered⟩
    · exact (Transforms.startOf_of_label w.arranged (getElem?_of_labelPosition? htarget)).symm
  | leave | call => cases hgoing

/-- **An exception leads both to the same handler**, or the re-entrant form to the release of its
frame. -/
theorem raises (hcareful : w.Careful) (ht : t.Agrees t') (hf : w.analysed.frame? a.pc = some f)
    (hgoes : w.GoesOn a.pc) (h : w.Mirrors f entered a b) (hpc : b.pc = w.place a.pc) {e : RunError}
    {heap : Heap} {v : Value} (he : e.exception? m.heap = some (heap, v))
    (hsignal : t.isInstance heap v Names.suspendExecution = false) (coroutines : Coroutines) :
    (∃ pc g, a.raise t e m = (.going { a with stack := [v], pc }, { m with heap }) ∧
      b.raise t' e (m.withCoroutines coroutines) =
        (.going { b with stack := [v], pc := w.start pc },
          Memory.withCoroutines { m with heap } coroutines) ∧
      w.analysed.frame? pc = some g ∧
      w.Mirrors g entered { a with stack := [v], pc } { b with stack := [v], pc := w.start pc }) ∨
    a.raise t e m = (.done (.error (.thrown v)), { m with heap }) ∧
      b.raise t' e (m.withCoroutines coroutines) =
        (.going { b with stack := [v], pc := w.ending + 1 },
          Memory.withCoroutines { m with heap } coroutines) := by
  obtain ⟨x, g, hx, -, hleads⟩ := w.exists_step hf
  have he' : e.exception? (m.withCoroutines coroutines).heap = some (heap, v) := he
  have hafter {r' : LoadedHandler} (hr' : t.handlerFor? heap w.after (w.place a.pc) v = some r') :
      t'.handlerFor? heap b.method b.pc v = some r' := by
    rw [ht.handlerFor?, h.revised, hpc, hr']
  rcases hcareful.handlerFor?_after (List.getElem?_eq_some_iff.1 hx).1 hgoes hsignal with
    ⟨r, r', hr, hr', htarget⟩ | ⟨hr, r', hr', htarget⟩
  · obtain ⟨handler, hmem, hload⟩ := List.mem_filterMap.1 (List.mem_of_find?_eq_some hr)
    have hcovers : r.covers a.pc = true := by
      have hfound := List.find?_some hr
      simp only [Bool.and_eq_true] at hfound
      exact hfound.1
    obtain ⟨type, g', hg', hle⟩ := hleads.caught handler hmem r hload hcovers
    rw [← h.method] at hr
    refine .inl ⟨r.target, g', Activation.raise_of_handler he hr, ?_, hg', ?_⟩
    · rw [Activation.raise_of_handler he' (hafter hr'), htarget]
      rfl
    · have hcaught : w.Mirrors ⟨f.locals, [.reference type]⟩ entered a b :=
        ⟨h.method, h.revised, h.stack, h.length, h.length', h.locals, h.entered⟩
      exact (hcaught.of_le hle).go [v] r.target (w.start r.target)
  · rw [← h.method] at hr
    refine .inr ⟨Activation.raise_of_unhandled he hr, ?_⟩
    rw [Activation.raise_of_handler he' (hafter hr'), htarget]
    rfl

end Mirrors

end Revision

end Resumable
