import Resumable.Proofs.Flow.Fixpoint

/-!
# What the analysis keeps

A property of frames that the entry has, that instructions and joins keep and that does not fail at
handlers holds of every frame that an analysis finds (`Closed.of_analyze`). So it is enough to look
at one instruction at a time.

The first use is the history of objects under construction: an operand or local that is known to be
one was put there by an allocation or by a `dup`, and remembers which (`made_of_analyze`).
-/

namespace Resumable

namespace Flow

variable {owner : String} {m : Method} {Q : Frame → Prop} {s s' : State}
  {frames : Array (Option Frame)}

/-! ## One property for all frames -/

/-- The entry has the property, and no way of making one frame from others loses it. -/
structure Closed (owner : String) (m : Method) (Q : Frame → Prop) : Prop where
  entry : ∀ {f}, Gives (entryFrame owner m) f → Q f
  step : ∀ {index i f g}, m.code[index]? = some i → f.step index i = .ok g → Q f → Q g
  merge : ∀ {f g h : Frame}, Gives (f.merged g) h → Q f → Q g → Q h
  caught : ∀ {f : Frame} (type : String), Q f → Q ⟨f.locals, [.reference type]⟩

/-- Every frame found so far has the property. -/
def Throughout (Q : Frame → Prop) (frames : Array (Option Frame)) : Prop :=
  ∀ (j : Nat) (f : Frame), frames[j]?.join = some f → Q f

theorem throughout_put {target : Nat} {f : Frame} (h : Throughout Q frames) (hf : Q f) :
    Throughout Q (frames.setIfInBounds target (some f)) := by
  intro j g hg
  rcases cases_of_put hg with ⟨-, rfl⟩ | ⟨-, hg⟩
  · exact hf
  · exact h j g hg

namespace Closed

theorem flowInto (hQ : Closed owner m Q) {source target : Nat} {f : Frame}
    (hs : Throughout Q s.frames) (hf : Q f)
    (h : Gives (Flow.flowInto owner m source target f s) s') : Throughout Q s'.frames := by
  have hput {g : Frame} (hg : Q g)
      (h : Gives (pure (if s.pending.contains target then
          ({ s with frames := s.frames.setIfInBounds target (some g) } : State)
        else { frames := s.frames.setIfInBounds target (some g)
               pending := target :: s.pending }) : Attempt State) s') : Throughout Q s'.frames := by
    rw [h.pure]
    split
    · exact throughout_put hs hg
    · exact throughout_put hs hg
  unfold Flow.flowInto at h
  split at h
  · exact hput hf h
  · rename_i old hold
    obtain ⟨db, hrest⟩ := h.lift
    rcases hmerge : (old.merge f).run db with ⟨⟨answer, merged⟩, db'⟩
    rw [hmerge] at hrest
    obtain ⟨changed, hanswer, hlast⟩ := hrest.bind
    obtain rfl := gives_attempt hanswer
    have hmerged : (old.merged f).run.run db = (.ok merged, db') := by
      rw [Frame.merged_run, hmerge]
      rfl
    cases changed with
    | false =>
      rw [hlast.pure]
      exact hs
    | true => exact hput (hQ.merge ⟨db, db', hmerged⟩ (hs target old hold) hf) hlast

theorem flowIntoAll (hQ : Closed owner m Q) {source : Nat} {brought : List (Nat × Frame)}
    (hs : Throughout Q s.frames) (hb : ∀ b ∈ brought, Q b.2)
    (h : Gives (Flow.flowIntoAll owner m source brought s) s') : Throughout Q s'.frames := by
  induction brought generalizing s with
  | nil =>
    rw [Gives.pure h]
    exact hs
  | cons b rest ih =>
    obtain ⟨s₁, h₁, h⟩ := Gives.bind h
    have hs₁ := hQ.flowInto hs (hb b List.mem_cons_self) h₁
    exact ih hs₁ (fun b' hb' => hb b' (List.mem_cons_of_mem _ hb')) h

/-- One look at an instruction keeps the property. -/
theorem visit (hQ : Closed owner m Q) {ranges : List HandlerRange} {index : Nat} {i : Instr}
    {before : Frame} (hs : Throughout Q s.frames) (hi : m.code[index]? = some i)
    (hbefore : Q before) (h : Gives (Flow.visit owner m ranges index i before s) s') :
    Throughout Q s'.frames := by
  unfold Flow.visit at h
  obtain ⟨after, hafter, h⟩ := Gives.bind h
  obtain ⟨targets, -, h⟩ := Gives.bind h
  obtain ⟨s₁, h₁, h⟩ := Gives.bind h
  have hQafter : Q after := hQ.step hi (gives_attempt hafter) hbefore
  have hs₁ : Throughout Q s₁.frames := by
    refine hQ.flowIntoAll hs (fun b hb => ?_) h₁
    obtain ⟨target, -, rfl⟩ := List.mem_map.1 hb
    exact hQafter
  -- What is brought to the handlers has the property, whatever became of the instruction behind.
  have hcaught {s₂ : State} (hs₂ : Throughout Q s₂.frames)
      (h : Gives (Flow.flowIntoAll owner m index ((ranges.filter (·.covers index)).flatMap fun r =>
        [before.locals, after.locals].map fun locals => (r.target, ⟨locals, [.reference r.type]⟩))
        s₂) s') : Throughout Q s'.frames := by
    refine hQ.flowIntoAll hs₂ (fun b hb => ?_) h
    obtain ⟨range, -, hb⟩ := List.mem_flatMap.1 hb
    simp only [List.map_cons, List.map_nil, List.mem_cons, List.not_mem_nil, or_false] at hb
    rcases hb with rfl | rfl
    · exact hQ.caught range.type hbefore
    · exact hQ.caught range.type hQafter
  dsimp only at h
  split at h
  · split at h
    · obtain ⟨_, hthrow, -⟩ := Gives.bind h
      exact (Gives.not_throw hthrow).elim
    · obtain ⟨s₂, h₂, h⟩ := Gives.bind h
      exact hcaught (hQ.flowInto hs₁ hQafter h₂) h
  · exact hcaught hs₁ h

theorem settle (hQ : Closed owner m Q) {ranges : List HandlerRange} {steps : Nat}
    (hs : Throughout Q s.frames)
    (h : Gives (Flow.settle owner m ranges m.code.toArray steps s) frames) :
    Throughout Q frames := by
  induction steps generalizing s with
  | zero =>
    obtain ⟨found, pending⟩ := s
    cases pending with
    | nil =>
      rw [Gives.pure h]
      exact hs
    | cons => exact (Gives.not_throw h).elim
  | succ steps ih =>
    obtain ⟨found, pending⟩ := s
    cases pending with
    | nil =>
      rw [Gives.pure h]
      exact hs
    | cons index pending =>
      rw [Flow.settle] at h
      split at h
      · rename_i i before hi hbefore
        rw [List.getElem?_toArray] at hi
        obtain ⟨s₁, h₁, h⟩ := Gives.bind h
        exact ih (hQ.visit (s := ⟨found, pending⟩) hs hi (hs index before hbefore) h₁) h
      · exact ih (s := ⟨found, pending⟩) hs h

/-- Every frame of an analysis has the property. -/
theorem of_analyze (hQ : Closed owner m Q) (h : Gives (analyze owner m) frames) :
    Throughout Q frames := by
  unfold analyze at h
  obtain ⟨ranges, -, h⟩ := Gives.bind h
  split at h
  · intro j f hf
    rw [Gives.pure h] at hf
    simp at hf
  · obtain ⟨entry, hentry, h⟩ := Gives.bind h
    obtain ⟨db, -, h⟩ := Gives.bind h
    refine hQ.settle (throughout_put (fun j f hf => ?_) (hQ.entry hentry)) h
    rw [Array.getElem?_replicate] at hf
    split at hf <;> cases hf

end Closed

end Flow

/-! ## One property for all values -/

namespace Frame

variable {P : FlowValue → Prop} {f g : Frame}

/-- The property holds of every local and of every operand. -/
def Each (P : FlowValue → Prop) (f : Frame) : Prop :=
  (∀ v ∈ f.locals, P v) ∧ ∀ v ∈ f.stack, P v

namespace Each

theorem push {v : FlowValue} (hf : f.Each P) (hv : P v) : (f.push v).Each P :=
  ⟨hf.1, fun w hw => (List.mem_cons.1 hw).elim (· ▸ hv) (hf.2 w)⟩

/-- What is left when some operands have been dropped. -/
theorem tail {count : Nat} (hf : f.Each P) : Each P { f with stack := f.stack.drop count } :=
  ⟨hf.1, fun w hw => hf.2 w (List.mem_of_mem_drop hw)⟩

theorem of_push {v : FlowValue} (hf : (f.push v).Each P) : P v ∧ f.Each P :=
  ⟨hf.2 v List.mem_cons_self, hf.1, fun w hw => hf.2 w (List.mem_cons_of_mem _ hw)⟩

theorem setLocal {index : UInt16} {v : FlowValue} (hf : f.Each P) (hv : P v)
    (h : f.setLocal index v = .ok g) : g.Each P := by
  obtain ⟨-, rfl⟩ := setLocal_eq_ok.1 h
  refine ⟨fun w hw => ?_, hf.2⟩
  rcases List.mem_or_eq_of_mem_set hw with hw | rfl
  · exact hf.1 w hw
  · exact hv

theorem drop {count : Nat} (hf : f.Each P) (h : f.drop count = .ok g) : g.Each P := by
  obtain ⟨-, rfl⟩ := drop_eq_ok.1 h
  exact hf.tail

theorem replace {count : Nat} {v : FlowValue} (hf : f.Each P) (hv : P v)
    (h : f.replace count v = .ok g) : g.Each P := by
  obtain ⟨-, rfl⟩ := replace_eq_ok.1 h
  exact hf.tail.push hv

theorem convert {t : FlowValue} {op : Opcode} (hf : f.Each P) (ht : P t)
    (h : f.convert t op = .ok g) : g.Each P := by
  obtain ⟨v, -, rest, hstack, rfl⟩ := convert_eq_ok h
  refine ⟨hf.1, fun w hw => ?_⟩
  rcases List.mem_cons.1 hw with rfl | hw
  · exact ht
  · exact hf.2 w (hstack ▸ List.mem_cons_of_mem _ hw)

end Each

end Frame

namespace FlowValue

variable {P : FlowValue → Prop}

/-- Merging makes no object under construction. -/
theorem merge_keeps (hP : ∀ v : FlowValue, v.isFresh = false → P v) {a b : FlowValue} (ha : P a)
    (db : Database) : P ((a.merge b).run db).1 := by
  unfold merge
  by_cases hab : a = b
  · rw [if_pos hab]
    exact ha
  · rw [if_neg hab]
    split
    · exact hP _ rfl
    · exact hP _ rfl
    · split
      · exact hP _ rfl
      · exact hP _ rfl
    · exact hP _ rfl

theorem isFresh_ofFieldType (type : FieldType) : (ofFieldType type).isFresh = false := by
  cases type <;> rfl

theorem isFresh_ofSlotKind (kind : SlotKind) : (ofSlotKind kind).isFresh = false := by
  cases kind <;> rfl

theorem isFresh_ofDescriptor? {desc : String} {v : FlowValue} (h : ofDescriptor? desc = some v) :
    v.isFresh = false := by
  unfold ofDescriptor? at h
  split at h
  · cases h
    exact isFresh_ofFieldType _
  · cases h

theorem isFresh_element (v : FlowValue) : v.element.isFresh = false := by
  cases v with
  | reference type =>
    show (((elementDescriptor? type).bind ofDescriptor?).getD (.reference Names.object)).isFresh =
      false
    rcases h : (elementDescriptor? type).bind ofDescriptor? with _ | w
    · rfl
    · obtain ⟨desc, -, hdesc⟩ := Option.bind_eq_some_iff.1 h
      exact isFresh_ofDescriptor? hdesc
  | _ => rfl

/-- What is known of a value once the object allocated at `alloc` has been constructed. -/
def settled (v : FlowValue) (alloc : Nat) (type : String) : FlowValue :=
  match v with
  | .fresh _ alloc' _ _ => if alloc' = alloc then .reference type else v
  | _ => v

end FlowValue

namespace Frame

variable {P : FlowValue → Prop} {f g : Frame}

theorem mergeValues_keeps (hP : ∀ v : FlowValue, v.isFresh = false → P v)
    {as bs : List FlowValue} (has : ∀ v ∈ as, P v) (db : Database) :
    ∀ v ∈ ((mergeValues as bs).run db).1.1, P v := by
  induction as generalizing bs db with
  | nil =>
    intro v hv
    cases hv
  | cons a as ih =>
    cases bs with
    | nil => exact has
    | cons b bs =>
      intro v hv
      rcases List.mem_cons.1 hv with rfl | hv
      · exact FlowValue.merge_keeps hP (has a List.mem_cons_self) db
      · exact ih (fun w hw => has w (List.mem_cons_of_mem _ hw)) _ v hv

namespace Each

theorem merged (hP : ∀ v : FlowValue, v.isFresh = false → P v) {h : Frame} (hf : f.Each P)
    (hmerge : Gives (f.merged g) h) : h.Each P := by
  obtain ⟨db, db', hmerge⟩ := hmerge
  by_cases hstack : f.stack.length = g.stack.length
  · rw [merged_of_eq hstack] at hmerge
    cases hmerge
    refine ⟨mergeValues_keeps hP hf.1 db, fun v hv => ?_⟩
    exact mergeValues_keeps hP (fun w hw => hf.2 w (List.mem_reverse.1 hw)) _ v
      (List.mem_reverse.1 hv)
  · rw [merged_of_ne hstack] at hmerge
    cases hmerge

/-- What a copy knows of an object under construction, and that nothing else is copied anew. -/
theorem duplicate {index : Nat} (hf : f.Each P) (hdup : ∀ type alloc insn,
    P (.fresh type alloc insn false) → P (.fresh type alloc index true))
    (h : f.duplicate index = .ok g) : g.Each P := by
  unfold Frame.duplicate at h
  obtain ⟨v, hpeek, h⟩ := bind_eq_ok.1 h
  have hv : P v := by
    unfold Frame.peek at hpeek
    split at hpeek <;> cases hpeek
    rename_i rest hstack
    exact hf.2 v (hstack ▸ List.mem_cons_self)
  split at h
  · cases h
    exact hf.push (hdup _ _ _ hv)
  · cases h
    exact hf.push hv

theorem stepSimple {index : Nat} {op : Opcode} (hP : ∀ v : FlowValue, v.isFresh = false → P v)
    (hdup : op = .dup → ∀ type alloc insn, P (.fresh type alloc insn false) →
      P (.fresh type alloc index true))
    (hf : f.Each P) (h : f.stepSimple index op = .ok g) : g.Each P := by
  unfold Frame.stepSimple at h
  split at h
  case h_1 | h_2 => cases h; exact hf
  case h_3 => cases h; exact hf.push (hP _ rfl)
  case h_5 => exact hf.duplicate (hdup rfl) h
  case h_6 =>
    obtain ⟨v₁, f₁, rfl, h₁⟩ := pop_bind h
    obtain ⟨v₂, f₂, rfl, h₂⟩ := pop_bind h₁
    obtain ⟨hv₁, hf₁⟩ := hf.of_push
    obtain ⟨hv₂, hf₂⟩ := hf₁.of_push
    cases h₂
    exact ((hf₂.push hv₁).push hv₂).push hv₁
  case h_7 =>
    obtain ⟨v₁, f₁, rfl, h₁⟩ := pop_bind h
    obtain ⟨v₂, f₂, rfl, h₂⟩ := pop_bind h₁
    obtain ⟨hv₁, hf₁⟩ := hf.of_push
    obtain ⟨hv₂, hf₂⟩ := hf₁.of_push
    cases h₂
    exact (hf₂.push hv₁).push hv₂
  case h_29 | h_30 | h_31 | h_32 =>
    obtain ⟨v, f₁, rfl, h₁⟩ := pop_bind h
    cases h₁
    exact hf
  case h_52 =>
    obtain ⟨position, f₁, rfl, h₁⟩ := pop_bind h
    obtain ⟨array, f₂, rfl, h₂⟩ := pop_bind h₁
    cases h₂
    exact hf.of_push.2.of_push.2.push (hP _ (FlowValue.isFresh_element array))
  case h_56 => cases h
  all_goals first
    | exact hf.drop h
    | exact hf.replace (hP _ rfl) h
    | exact hf.convert (hP _ rfl) h

/-- Where a construction has ended, there is an ordinary reference. -/
theorem settleFresh (hP : ∀ v : FlowValue, v.isFresh = false → P v) (hf : f.Each P) (alloc : Nat)
    (type : String) : (f.settleFresh alloc type).Each P := by
  have hsettle (v : FlowValue) (hv : P v) : P (v.settled alloc type) := by
    unfold FlowValue.settled
    split
    · split
      · exact hP _ rfl
      · exact hv
    · exact hv
  constructor
  · intro w hw
    obtain ⟨v, hv, rfl⟩ := List.mem_map.1 hw
    exact hsettle v (hf.1 v hv)
  · intro w hw
    obtain ⟨v, hv, rfl⟩ := List.mem_map.1 hw
    exact hsettle v (hf.2 v hv)

theorem stepInvoke {op : Opcode} {member : MemberRef}
    (hP : ∀ v : FlowValue, v.isFresh = false → P v) (hf : f.Each P)
    (h : f.stepInvoke op member = .ok g) : g.Each P := by
  unfold Frame.stepInvoke at h
  obtain ⟨type, -, h⟩ := bind_eq_ok.1 h
  obtain ⟨f₁, hdrop, h⟩ := bind_eq_ok.1 h
  have hf₁ := hf.drop hdrop
  -- However the receiver is taken, the result goes on top of what has the property.
  have hresult {f₂ : Frame} (hf₂ : f₂.Each P) (h : f₂.withResult type.result = .ok g) :
      g.Each P := by
    unfold withResult at h
    split at h
    · cases h
      exact hf₂.push (hP _ (FlowValue.isFresh_ofFieldType _))
    · cases h
      exact hf₂
  by_cases hop : op = .invokestatic
  · rw [if_pos hop, pure_bind] at h
    exact hresult hf₁ h
  · rw [if_neg hop] at h
    obtain ⟨receiver, f₂, rfl, h₂⟩ := pop_bind h
    obtain ⟨-, hf₂⟩ := hf₁.of_push
    dsimp only at h₂
    split at h₂
    · split at h₂
      · exact hresult (hf₂.settleFresh hP _ _) h₂
      · exact hresult hf₂ h₂
    · exact hresult hf₂ h₂

/-- What an instruction makes of its operands: everything that is no object under construction has
the property, and so have the objects that the instruction itself makes. -/
theorem step {index : Nat} {i : Instr} (hP : ∀ v : FlowValue, v.isFresh = false → P v)
    (hnew : ∀ type, i = .type .new type → P (.fresh type index index false))
    (hdup : i = .simple .dup → ∀ type alloc insn, P (.fresh type alloc insn false) →
      P (.fresh type alloc index true))
    (hf : f.Each P) (h : f.step index i = .ok g) : g.Each P := by
  cases i with
  | label => cases h; exact hf
  | simple op => exact hf.stepSimple hP (fun heq => hdup (by rw [heq])) h
  | const c => cases c <;> cases h <;> exact hf.push (hP _ rfl)
  | «local» op slot =>
    simp only [Frame.step] at h
    split at h
    case h_6 =>
      obtain ⟨v, f₁, rfl, h⟩ := pop_bind h
      exact hf.of_push.2.setLocal hf.of_push.1 h
    all_goals
      obtain ⟨v, hv, h⟩ := bind_eq_ok.1 h
      cases h
      exact hf.push (hf.1 v (List.mem_of_getElem? (getLocal_eq_ok.1 hv)))
  | inc slot => exact hf.setLocal (hP _ rfl) h
  | jump op =>
    simp only [Frame.step] at h
    split at h
    case h_1 => cases h; exact hf
    all_goals exact hf.drop h
  | switch => exact hf.drop h
  | field op member =>
    simp only [Frame.step] at h
    split at h
    · cases h
    · rename_i v hv
      have hPv := hP v (FlowValue.isFresh_ofDescriptor? hv)
      split at h
      · exact hf.replace hPv h
      · exact hf.drop h
      · cases h; exact hf.push hPv
      · exact hf.drop h
  | invoke op member => exact hf.stepInvoke hP h
  | type op desc =>
    simp only [Frame.step] at h
    split at h
    · cases h
      exact hf.push (hnew desc rfl)
    · obtain ⟨v, f₁, rfl, h⟩ := pop_bind h
      cases h
      refine hf.of_push.2.push (hP _ ?_)
      split <;> rfl
    · exact hf.replace (hP _ rfl) h
    · exact hf.replace (hP _ rfl) h
  | frame op =>
    cases op with
    | entry => cases h; exact hf.push (hP _ rfl)
    | restore kind => cases h; exact hf.push (hP _ (FlowValue.isFresh_ofSlotKind kind))
    | save => exact hf.drop h
    | _ => cases h; exact hf

end Each

end Frame

/-! ## Objects under construction -/

/-- An object under construction remembers its allocation and, if it is a copy, the instruction that
copied it. -/
def FlowValue.Made (code : List Instr) : FlowValue → Prop
  | .fresh type alloc insn dupped => code[alloc]? = some (.type .new type) ∧
      if dupped then code[insn]? = some (.simple .dup) else insn = alloc
  | _ => True

theorem FlowValue.made_of_not_fresh {code : List Instr} {v : FlowValue} (h : v.isFresh = false) :
    v.Made code := by
  cases v with
  | fresh => cases h
  | _ => trivial

namespace Flow

variable {owner : String} {m : Method} {frames : Array (Option Frame)}

/-- On entry nothing is under construction. -/
theorem entryFrame_each {P : FlowValue → Prop} (hP : ∀ v : FlowValue, v.isFresh = false → P v)
    {f : Frame} (h : Gives (entryFrame owner m) f) : f.Each P := by
  obtain ⟨type, -, -, rfl⟩ := entryFrame_spec h
  refine ⟨fun v hv => hP v ?_, by simp⟩
  rcases List.mem_append.1 hv with hv | hv
  · rcases List.mem_append.1 hv with hv | hv
    · split at hv
      · cases hv
      · rw [List.mem_singleton.1 hv]
        rfl
    · obtain ⟨param, -, rfl⟩ := List.mem_map.1 hv
      exact FlowValue.isFresh_ofFieldType param
  · rw [List.eq_of_mem_replicate hv]
    rfl

theorem closed_made (owner : String) (m : Method) :
    Closed owner m (Frame.Each (FlowValue.Made m.code)) where
  entry h := entryFrame_each (fun _ => FlowValue.made_of_not_fresh) h
  step hi h hf := by
    refine Frame.Each.step (fun _ => FlowValue.made_of_not_fresh) ?_ ?_ hf h
    · rintro type rfl
      exact ⟨hi, rfl⟩
    · rintro rfl type alloc insn ⟨halloc, -⟩
      exact ⟨halloc, hi⟩
  merge h hf _ := hf.merged (fun _ => FlowValue.made_of_not_fresh) h
  caught type hf := ⟨hf.1, by simp [FlowValue.Made]⟩

/-- Whatever is known to be under construction was put there by an allocation or by a `dup`. -/
theorem made_of_analyze (h : Gives (analyze owner m) frames) {j : Nat} {f : Frame}
    (hf : frames[j]?.join = some f) : f.Each (FlowValue.Made m.code) :=
  (closed_made owner m).of_analyze h j f hf

end Flow

end Resumable
