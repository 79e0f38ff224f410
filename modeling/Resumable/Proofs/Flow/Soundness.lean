import Resumable.Proofs.Flow.Fixpoint
import Resumable.Proofs.Flow.Transfer
import Resumable.Proofs.Machine.Steps

/-!
# Soundness of the analysis

An activation of a method that has been analysed moves from instruction to instruction (`Goes`):
past an instruction, into a handler, or on with the answer to a call. In between, the memory may
change in any way.

The analysis promises that wherever the activation comes, there is a frame, and the operands and
locals are such as the frame says (`Conforms`). This holds as long as the run is `Clean`, and not
longer: `conforms_iff_clean`. A run without the conversion of a float to a double, whose slots hold
what they should, is clean.
-/

namespace Resumable

open List (Forall₂)

namespace Flow

/-! ## Runs -/

/-- What a call may come to: a call that has gone through was one, its result is of the promised
type, and what it throws is a reference. -/
def AnswerTyped (request : Call) : Except RunError (Option Value) → Prop
  | .ok result => request.op.isInvoke = true ∧ ∀ type t v,
      MethodType.parse request.member.desc = .ok type → type.result = some t → result = some v →
        (FlowValue.ofFieldType t).Admits v
  | .error e => e.IsFair

/-- What the instruction at the activation's place takes from the memory has its static type. -/
def ReadsTyped (frames : Array (Option Frame)) (a : Activation) (m : Memory) : Prop :=
  ∀ i f, a.method.method.code[a.pc]? = some i → frames[a.pc]?.join = some f → f.ReadsTyped a m i

/-- One move of an activation, with any memory in which reads have their static types: it executes an
instruction, or goes on with the answer to a call. -/
inductive Goes (classes : ClassTable) (frames : Array (Option Frame)) :
    Activation → Activation → Prop where
  | instr {a b : Activation} {m m' : Memory} (hreads : ReadsTyped frames a m)
      (hstep : a.step classes m = (.going b, m')) : Goes classes frames a b
  | call {a w b : Activation} {request : Call} {answer : Except RunError (Option Value)}
      {m₁ m₁' m₂ m₂' : Memory} (hreads : ReadsTyped frames a m₁)
      (hstep : a.step classes m₁ = (.calling w request, m₁'))
      (hanswer : AnswerTyped request answer)
      (hresume : w.resume classes request answer m₂ = (.going b, m₂')) : Goes classes frames a b

/-- There is a frame in front of the instruction at the activation's place, and the activation is as
it says: there are as many operands as it has, and operands and locals are such as it tells. -/
def Conforms (frames : Array (Option Frame)) (a : Activation) : Prop :=
  ∀ i, a.method.method.code[a.pc]? = some i → ∃ f, frames[a.pc]?.join = some f ∧ f.Holds a

/-- From `a` to `b` nothing comes on top that the frame at `b` does not expect there: behind the
conversion of a float to a double it does not expect a long, and what has been taken out of a
reference slot is what it expects. -/
def Clean (frames : Array (Option Frame)) (a b : Activation) : Prop :=
  ∀ i f, a.method.method.code[a.pc]? = some i → frames[b.pc]?.join = some f →
    (i = .simple .f2d → f.stack.head? ≠ some .long) ∧
    ∀ slot, i = .frame (.restore .ref slot) →
      ∀ t v, f.stack.head? = some t → b.stack.head? = some v → t.Admits v

/-! ## One move -/

variable {owner : String} {m : Method} {frames : Array (Option Frame)} {classes : ClassTable}
  {a b : Activation}

/-- The frame at the place to which control has come, and what may be told of the activation there,
make it conform if nothing strays. -/
theorem holds_of_truth {i : Instr} {before after g : Frame} (hstep : before.step a.pc i = .ok after)
    (hi : a.method.method.code[a.pc]? = some i) (htruth : (after.truth i).Holds b)
    (hg : frames[b.pc]?.join = some g) (hle : after ≤ g) (hclean : Clean frames a b) :
    g.Holds b := by
  cases hstray : i.strays with
  | false =>
    rw [Frame.truth_of_not_strays hstray] at htruth
    exact htruth.mono hle
  | true =>
    obtain ⟨t, ts, hts, hlong⟩ := exists_top_of_strays hstep hstray
    obtain ⟨hf2d, hslot⟩ := hclean i g hi hg
    have htruth' : (⟨after.locals, .unknown :: ts⟩ : Frame).Holds b := by
      unfold Frame.truth at htruth
      rw [if_pos hstray, hts] at htruth
      exact htruth
    refine ⟨Frame.admits_mono htruth'.locals hle.locals, ?_⟩
    have hstack := hle.stack
    rw [hts] at hstack
    obtain ⟨t', ts', htt', htail, hgs⟩ := List.forall₂_cons_left_iff.1 hstack
    obtain ⟨v, vs, -, hvs, hbs⟩ := List.forall₂_cons_left_iff.1 htruth'.stack
    rw [hgs, hbs]
    refine .cons ?_ (Frame.admits_mono hvs htail)
    unfold Instr.strays at hstray
    split at hstray
    · rcases FlowValue.eq_of_long_le (hlong rfl ▸ htt') with rfl | rfl
      · exact absurd (by rw [hgs]; rfl) (hf2d rfl)
      · trivial
    · exact hslot _ rfl t' v (by rw [hgs]; rfl) (by rw [hbs]; rfl)
    · cases hstray

/-- At a handler the activation is as the frame there says. -/
theorem holds_of_raise {i : Instr} {before after : Frame} {e : RunError} {mem mem' : Memory}
    (hm : a.method = .load owner m) (hlocals : Forall₂ FlowValue.Admits before.locals a.locals)
    (hleads : Leads m frames a.pc i before after) (he : e.IsFair)
    (h : a.raise classes e mem = (.going b, mem')) :
    b.method = .load owner m ∧ ∃ g, frames[b.pc]?.join = some g ∧ g.Holds b := by
  obtain ⟨heap, exception, handler, hexception, hmem, hcovers, rfl⟩ := raise_eq_going h
  rw [hm] at hmem
  obtain ⟨hd, hhd, hload⟩ := List.mem_filterMap.1 hmem
  obtain ⟨type, g, hg, hle⟩ := hleads.caught hd hhd handler hload hcovers
  have hcaught : Frame.Holds ⟨before.locals, [.reference type]⟩
      { a with stack := [exception], pc := handler.target } :=
    ⟨hlocals, .cons (isReference_of_exception? he hexception) .nil⟩
  exact ⟨hm, g, hg, hcaught.mono hle⟩

/-- An activation that asks for a call stands in front of one, and goes on behind it with what the
analysis tells. -/
theorem holds_of_answer {i : Instr} {before after : Frame} {w : Activation} {request : Call}
    {answer : Except RunError (Option Value)} {mem mem' : Memory} (hm : a.method = .load owner m)
    (hlocals : Forall₂ FlowValue.Admits before.locals a.locals)
    (hleads : Leads m frames a.pc i before after)
    (hsound : (Move.call request).Sound i after a w) (hanswer : AnswerTyped request answer)
    (h : w.resume classes request answer mem = (.going b, mem')) :
    b.method = .load owner m ∧ ∃ g, frames[b.pc]?.join = some g ∧ g.Holds b := by
  obtain ⟨rfl, hmethod, hwlocals, hpc, type, htype, hresult⟩ := hsound
  rw [← hpc] at hleads
  rw [← hwlocals] at hlocals
  have hraise : ∀ e, RunError.IsFair e → w.raise classes e mem = (.going b, mem') →
      b.method = .load owner m ∧ ∃ g, frames[b.pc]?.join = some g ∧ g.Holds b := fun _ he h =>
    holds_of_raise (hmethod.trans hm) hlocals hleads he h
  -- Behind the call there is what the analysis tells, if the result is of its type.
  have hbehind : request.op.isInvoke = true → ∀ vs,
      Forall₂ FlowValue.Admits (type.result.map FlowValue.ofFieldType).toList vs →
      b = { w with stack := vs ++ w.stack, pc := w.pc + 1 } →
      b.method = .load owner m ∧ ∃ g, frames[b.pc]?.join = some g ∧ g.Holds b := by
    intro hinvoke vs hvs hb
    have hfalls : (Instr.invoke request.op request.member).fallsThrough = true := by
      rcases request with ⟨op, member, args⟩
      cases op <;> first | rfl | cases hinvoke
    obtain ⟨g, hg, hle⟩ := hleads.falls hfalls
    rw [hb]
    have hholds := (hresult vs hvs).mono hle
    exact ⟨hmethod.trans hm, g, hg, ⟨hholds.locals, hholds.stack⟩⟩
  unfold Activation.resume at h
  cases answer with
  | error e => exact hraise e hanswer h
  | ok result =>
    obtain ⟨hinvoke, htyped⟩ := hanswer
    simp only [Exec.methodType, htype, Except.mapError] at h
    split at h
    · rename_i hnone
      cases h
      exact hbehind hinvoke [] (by rw [hnone]; exact .nil) rfl
    · rename_i t v hsome
      cases h
      refine hbehind hinvoke [v] ?_ rfl
      rw [hsome]
      exact .cons (htyped type t v htype hsome rfl) .nil
    · exact hraise (.code (.noResult request.member)) nofun h

variable (classes) in
/-- What `a` may do next, seen by the analysis: if the instruction at its place succeeds, it has done
so as the analysis tells, and control goes where the frames expect it. -/
theorem Conforms.instr (hanalyzed : Analyzed owner m frames) (hm : a.method = .load owner m)
    (ha : Conforms frames a) {mem : Memory} (hreads : ReadsTyped frames a mem) {i : Instr}
    (hi : a.method.method.code[a.pc]? = some i) :
    ∃ before after, before.step a.pc i = .ok after ∧ before.Holds a ∧
      Leads m frames a.pc i before after ∧ ∀ move a' mem',
        (Exec.instr classes i).Does a mem move a' mem' → move.Sound i after a a' := by
  obtain ⟨before, hbefore, hholds⟩ := ha i hi
  have hi' : m.code[a.pc]? = some i := by
    rw [hm] at hi
    exact hi
  obtain ⟨after, hafter, hleads⟩ := hanalyzed.settled a.pc i before hi' hbefore
  exact ⟨before, after, hafter, hholds, hleads, fun move a' mem' hrun =>
    instr_sound hholds hafter (hreads i before hi hbefore) hrun⟩

/-- One move keeps what is known, unless something strays. -/
theorem Conforms.goes (hanalyzed : Analyzed owner m frames) (hm : a.method = .load owner m)
    (ha : Conforms frames a) (hgoes : Goes classes frames a b) :
    b.method = .load owner m ∧ (Clean frames a b → Conforms frames b) := by
  suffices h : b.method = .load owner m ∧ ∃ g, frames[b.pc]?.join = some g ∧
      (Clean frames a b → g.Holds b) by
    obtain ⟨hmb, g, hg, hholds⟩ := h
    exact ⟨hmb, fun hclean _ _ => ⟨g, hg, hholds hclean⟩⟩
  cases hgoes with
  | @instr _ mem mem' hreads hstep =>
    rcases hi : a.method.method.code[a.pc]? with _ | i
    · rw [Activation.step_of_none hi] at hstep
      cases hstep
    obtain ⟨before, after, hafter, hholds, hleads, hsound⟩ :=
      ha.instr classes hanalyzed hm hreads hi
    rcases Activation.step_cases hi hstep with ⟨e, mem₁, hrun, hraise⟩ | ⟨move, a', hdoes, hprogress⟩
    · have hfair := Exec.fair_instr classes i a mem e mem₁ hrun
      obtain ⟨hmb, g, hg, hb⟩ := holds_of_raise hm hholds.locals hleads hfair hraise
      exact ⟨hmb, g, hg, fun _ => hb⟩
    · replace hsound := hsound move a' mem' hdoes
      cases move with
      | next =>
        cases hprogress
        obtain ⟨hfalls, hmethod, htruth⟩ := hsound
        obtain ⟨g, hg, hle⟩ := hleads.falls hfalls
        refine ⟨hmethod.trans hm, g, hg, fun hclean => ?_⟩
        exact holds_of_truth hafter hi ⟨htruth.locals, htruth.stack⟩ hg hle hclean
      | goto pc =>
        cases hprogress
        obtain ⟨⟨l, hl, hpos⟩, hmethod, htruth⟩ := hsound
        rw [hm] at hpos
        obtain ⟨target, htarget, g, hg, hle⟩ := hleads.jumps l hl
        cases hpos.symm.trans htarget
        refine ⟨hmethod.trans hm, g, hg, fun hclean => ?_⟩
        exact holds_of_truth hafter hi ⟨htruth.locals, htruth.stack⟩ hg hle hclean
      | leave => cases hprogress
      | call => cases hprogress
  | @call w _ request answer mem mem₁ mem₂ mem₃ hreads hstep hanswer hresume =>
    rcases hi : a.method.method.code[a.pc]? with _ | i
    · rw [Activation.step_of_none hi] at hstep
      cases hstep
    obtain ⟨before, after, hafter, hholds, hleads, hsound⟩ :=
      ha.instr classes hanalyzed hm hreads hi
    rcases Activation.step_cases hi hstep with ⟨e, mem', hrun, hraise⟩ | ⟨move, a', hdoes, hprogress⟩
    · exact (raise_ne_calling hraise).elim
    · replace hsound := hsound move a' mem₁ hdoes
      cases move <;> cases hprogress
      obtain ⟨hmb, g, hg, hb⟩ := holds_of_answer hm hholds.locals hleads hsound hanswer hresume
      exact ⟨hmb, g, hg, fun _ => hb⟩

/-- Where the conversion of a float to a double leads, there is no long on top. -/
theorem top_of_f2d (hi : a.method.method.code[a.pc]? = some (.simple .f2d))
    (hgoes : Goes classes frames a b) : ∃ v rest, b.stack = v :: rest ∧ v.kind ≠ .long := by
  cases hgoes with
  | @instr _ mem mem' hreads hstep =>
    rcases Activation.step_cases hi hstep with ⟨e, mem₁, hrun, hraise⟩ | ⟨move, a', hdoes, hprogress⟩
    · obtain ⟨heap, exception, handler, hexception, -, -, rfl⟩ := raise_eq_going hraise
      have href := isReference_of_exception?
        (Exec.fair_instr classes _ a mem e mem₁ hrun) hexception
      refine ⟨exception, [], rfl, fun hlong => ?_⟩
      unfold Value.isReference at href
      rw [hlong] at href
      cases href
    · obtain ⟨rfl, bits, rest, hstack⟩ := f2d_result hdoes
      cases hprogress
      exact ⟨.double bits, rest, hstack, nofun⟩
  | @call w _ request answer mem mem₁ mem₂ mem₃ hreads hstep hanswer hresume =>
    rcases Activation.step_cases hi hstep with ⟨e, mem', -, hraise⟩ | ⟨move, a', hdoes, hprogress⟩
    · exact (raise_ne_calling hraise).elim
    · obtain ⟨rfl, -⟩ := f2d_result hdoes
      cases hprogress

/-- What conforms has been reached cleanly. -/
theorem clean_of_conforms (hanalyzed : Analyzed owner m frames) (hm : b.method = .load owner m)
    (hb : Conforms frames b) (hgoes : Goes classes frames a b) : Clean frames a b := by
  intro i f hi hf
  have hlt : b.pc < m.code.length := by
    rw [← hanalyzed.size]
    by_contra hge
    rw [Array.getElem?_eq_none (by omega)] at hf
    cases hf
  have hcode : b.method.method.code[b.pc]? = some m.code[b.pc] := by
    rw [hm]
    exact List.getElem?_eq_getElem hlt
  obtain ⟨g, hg, hholds⟩ := hb _ hcode
  cases hf.symm.trans hg
  refine ⟨?_, ?_⟩
  · rintro rfl hlong
    obtain ⟨v, rest, hstack, hv⟩ := top_of_f2d hi hgoes
    obtain ⟨t, ts, hts, ht, -⟩ := hholds.stack_cons hstack
    rw [hts] at hlong
    cases hlong
    exact hv ht
  · rintro slot rfl t v ht hv
    obtain ⟨rest, hstack⟩ := List.head?_eq_some_iff.1 hv
    obtain ⟨t', ts, hts, ht', -⟩ := hholds.stack_cons hstack
    rw [hts] at ht
    cases ht
    exact ht'

/-! ## Runs -/

theorem conforms_enter {type : MethodType} {args : List Value} (hanalyzed : Analyzed owner m frames)
    (htype : MethodType.parse m.desc = .ok type)
    (hargs : Forall₂ FlowValue.Admits (arguments owner m type) args)
    (henter : Activation.enter (.load owner m) args = .ok a) :
    a.method = .load owner m ∧ Conforms frames a := by
  unfold Activation.enter at henter
  dsimp only at henter
  split at henter
  · cases henter
  · cases henter
    refine ⟨rfl, fun i hi => ?_⟩
    have hcode : m.code ≠ [] := by
      intro hnil
      have hi' : m.code[0]? = some i := hi
      rw [hnil] at hi'
      cases hi'
    obtain ⟨type', htype', hlen, g, hg, hle⟩ := hanalyzed.entry hcode
    cases htype.symm.trans htype'
    refine ⟨g, hg, Frame.Holds.mono ⟨?_, .nil⟩ hle⟩
    refine List.rel_append hargs ?_
    rw [Forall₂.length_eq hargs]
    exact forall₂_replicate trivial _

/-- **The analysis is right about a run exactly as long as nothing strays.** For every method that is
analysed and every run of it from arguments of the declared types, there is a frame wherever the run
comes, with as many operands as there are and as it tells of them and of the locals, if and only if
the run is clean. -/
theorem conforms_iff_clean {db db' : Database} {type : MethodType} {args : List Value}
    {run : List Activation} (hanalyze : (analyze owner m).run.run db = (.ok frames, db'))
    (htype : MethodType.parse m.desc = .ok type)
    (hargs : Forall₂ FlowValue.Admits (arguments owner m type) args)
    (henter : Activation.enter (.load owner m) args = .ok a)
    (hrun : List.IsChain (Goes classes frames) (a :: run)) :
    (∀ b ∈ a :: run, Conforms frames b) ↔ List.IsChain (Clean frames) (a :: run) := by
  have hanalyzed : Analyzed owner m frames := analyzed_of_analyze ⟨db, db', hanalyze⟩
  obtain ⟨hm, ha⟩ := conforms_enter hanalyzed htype hargs henter
  clear henter hargs
  induction run generalizing a with
  | nil => simpa using ha
  | cons b run ih =>
    rw [List.isChain_cons_cons] at hrun ⊢
    obtain ⟨hmb, hb⟩ := ha.goes hanalyzed hm hrun.1
    constructor
    · intro hall
      have hconforms : Conforms frames b := hall b (List.mem_cons_of_mem _ List.mem_cons_self)
      refine ⟨clean_of_conforms hanalyzed hmb hconforms hrun.1, ?_⟩
      exact (ih hrun.2 hmb hconforms).1 fun c hc => hall c (List.mem_cons_of_mem _ hc)
    · rintro ⟨hclean, hrest⟩ c hc
      rcases List.mem_cons.1 hc with rfl | hc
      · exact ha
      · exact (ih hrun.2 hmb (hb hclean)).2 hrest c hc

/-! ### The conversion that strays -/

/-- Converts a float to a double and returns it. -/
def widening : Method :=
  { name := "widen", desc := "()D", access := .static
    code := [.const (.float 0), .simple .f2d, .simple .dreturn] }

/-- What the analysis finds in front of its instructions. -/
def wideningFrames : Array (Option Frame) :=
  #[some ⟨[], []⟩, some ⟨[], [.float]⟩, some ⟨[], [.long]⟩]

/-- The activation of `widening` at an instruction. -/
def wideningAt (pc : Nat) (stack : List Value) : Activation :=
  { method := .load "app/A" widening, locals := [], stack, pc }

/-- A run that is not clean, and so does not conform. -/
theorem widening_strays :
    ((analyze "app/A" widening).run.run (.new {} .empty)).1 = .ok wideningFrames ∧
      List.IsChain (Goes {} wideningFrames) [wideningAt 0 [], wideningAt 1 [.float 0],
        wideningAt 2 [.double (Single.toDouble 0)]] ∧
      ¬ ∀ b ∈ [wideningAt 0 [], wideningAt 1 [.float 0],
        wideningAt 2 [.double (Single.toDouble 0)]], Conforms wideningFrames b := by
  have hanalyze : ((analyze "app/A" widening).run.run (.new {} .empty)).1 = .ok wideningFrames := by
    decide +kernel
  have hfirst : Goes {} wideningFrames (wideningAt 0 []) (wideningAt 1 [.float 0]) :=
    @Goes.instr _ _ _ _ {} {} (fun i f hi hf t v ht => by cases hi; cases ht) rfl
  have hsecond : Goes {} wideningFrames (wideningAt 1 [.float 0])
      (wideningAt 2 [.double (Single.toDouble 0)]) :=
    @Goes.instr _ _ _ _ {} {} (fun i f hi hf t v ht => by cases hi; cases ht) rfl
  have hrun := List.IsChain.cons_cons hfirst (.cons_cons hsecond (.singleton _))
  refine ⟨hanalyze, hrun, fun hall => ?_⟩
  have htype : MethodType.parse widening.desc = .ok ⟨[], some .double⟩ := by decide +kernel
  have hclean := (conforms_iff_clean (Prod.ext hanalyze rfl) htype .nil rfl hrun).1 hall
  rw [List.isChain_cons_cons, List.isChain_cons_cons] at hclean
  exact (hclean.2.1 (.simple .f2d) ⟨[], [.long]⟩ rfl rfl).1 rfl rfl

end Flow

end Resumable
