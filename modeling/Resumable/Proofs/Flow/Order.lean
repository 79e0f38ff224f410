import Mathlib.Data.List.Forall2
import Resumable.Proofs.Outcome

/-!
# How much is known

What is known of a value is ordered: `a ≤ b` says that `b` is what may be left of `a` once paths
have joined. The order is made for two facts:

* **Merging goes up** (`FlowValue.le_merge`, `Frame.le_merged`): what is known of one of two values
  is above both of them, whatever the database answers.
* **Going up admits more** (`FlowValue.Admits.mono`, `Frame.Holds.mono`): what may stand in a place
  may still stand there when less is known of the place.

Nothing is below an object under construction but itself, so the order also keeps track of those.
-/

namespace Resumable

open List (Forall₂)

/-! ## Values -/

namespace FlowValue

/-- The value may stand in a place of which this is known. -/
def Admits : FlowValue → Value → Prop
  | .unknown, _ => True
  | .int, v => v.kind = .int
  | .long, v => v.kind = .long
  | .float, v => v.kind = .float
  | .double, v => v.kind = .double
  | .null, v => v = .null
  | .reference _, v => v.isReference = true
  | .fresh .., v => v.isReference = true

instance (t : FlowValue) (v : Value) : Decidable (t.Admits v) := by
  cases t <;> simp only [Admits] <;> infer_instance

/-- What is known in the first place may have become what is known in the second. -/
inductive Le : FlowValue → FlowValue → Prop where
  | refl (t : FlowValue) : Le t t
  | unknown (t : FlowValue) : Le t .unknown
  | null (type : String) : Le .null (.reference type)
  | reference (type type' : String) : Le (.reference type) (.reference type')

instance : LE FlowValue := ⟨Le⟩

@[refl]
protected theorem le_refl (t : FlowValue) : t ≤ t := Le.refl t

theorem le_of_eq {a b : FlowValue} (h : a = b) : a ≤ b := h ▸ Le.refl a

protected theorem le_trans {a b c : FlowValue} (hab : a ≤ b) (hbc : b ≤ c) : a ≤ c := by
  cases hab with
  | refl => exact hbc
  | unknown => cases hbc; exact .unknown _; exact .unknown _
  | null => cases hbc; exacts [.null _, .unknown _, .null _]
  | reference => cases hbc; exacts [.reference _ _, .unknown _, .reference _ _]

/-- Only what can be kept as a long, or nothing at all, is above a long. -/
theorem eq_of_long_le {t : FlowValue} (h : long ≤ t) : t = long ∨ t = unknown := by
  cases h with
  | refl => exact .inl rfl
  | unknown => exact .inr rfl

theorem Admits.mono {a b : FlowValue} {v : Value} (h : a.Admits v) (hab : a ≤ b) :
    b.Admits v := by
  cases hab with
  | refl => exact h
  | unknown => trivial
  | null => rw [show v = .null from h]; rfl
  | reference => exact h

/-- What is known of one of two values is above both. -/
theorem le_merge (a b : FlowValue) (db : Database) :
    a ≤ ((a.merge b).run db).1 ∧ b ≤ ((a.merge b).run db).1 := by
  unfold merge
  by_cases hab : a = b
  · subst hab
    simp only [if_true]
    exact ⟨.refl a, .refl a⟩
  · simp only [if_neg hab]
    split
    · exact ⟨.null _, .refl _⟩
    · exact ⟨.refl _, .null _⟩
    · split
      · exact ⟨.reference _ _, .reference _ _⟩
      · exact ⟨.reference _ _, .reference _ _⟩
    · exact ⟨.unknown _, .unknown _⟩

end FlowValue

/-! ## Frames -/

namespace Frame

/-- The second frame knows no more than the first, place by place. -/
structure Le (f g : Frame) : Prop where
  locals : Forall₂ (· ≤ ·) f.locals g.locals
  stack : Forall₂ (· ≤ ·) f.stack g.stack

instance : LE Frame := ⟨Le⟩

theorem forall₂_le_refl (as : List FlowValue) : Forall₂ (· ≤ ·) as as :=
  List.forall₂_same.2 fun t _ => FlowValue.le_refl t

theorem forall₂_le_trans {as bs cs : List FlowValue} (hab : Forall₂ (· ≤ ·) as bs)
    (hbc : Forall₂ (· ≤ ·) bs cs) : Forall₂ (· ≤ ·) as cs :=
  (forall₂_join hab.flip hbc).imp fun _ _ ⟨_, h, h'⟩ => FlowValue.le_trans h h'

protected theorem le_refl (f : Frame) : f ≤ f :=
  ⟨forall₂_le_refl f.locals, forall₂_le_refl f.stack⟩

protected theorem le_trans {f g h : Frame} (hfg : f ≤ g) (hgh : g ≤ h) : f ≤ h :=
  ⟨forall₂_le_trans hfg.locals hgh.locals, forall₂_le_trans hfg.stack hgh.stack⟩

theorem Le.locals_length {f g : Frame} (h : f ≤ g) : f.locals.length = g.locals.length :=
  Forall₂.length_eq h.locals

theorem le_mergeValues {as bs : List FlowValue} (h : as.length = bs.length) (db : Database) :
    Forall₂ (· ≤ ·) as ((mergeValues as bs).run db).1.1 ∧
      Forall₂ (· ≤ ·) bs ((mergeValues as bs).run db).1.1 := by
  induction as generalizing bs db with
  | nil =>
    cases bs with
    | nil => exact ⟨.nil, .nil⟩
    | cons => simp at h
  | cons a as ih =>
    cases bs with
    | nil => simp at h
    | cons b bs =>
      have hlen : as.length = bs.length := by simpa using h
      obtain ⟨ha, hb⟩ := FlowValue.le_merge a b db
      obtain ⟨has, hbs⟩ := ih hlen ((a.merge b).run db).2
      exact ⟨.cons ha has, .cons hb hbs⟩

/-- Values are said to have changed exactly if they have. -/
theorem mergeValues_changed_iff (as bs : List FlowValue) (db : Database) :
    ((mergeValues as bs).run db).1.2 = true ↔ ((mergeValues as bs).run db).1.1 ≠ as := by
  induction as generalizing bs db with
  | nil => exact ⟨nofun, fun h => absurd rfl h⟩
  | cons a as ih =>
    cases bs with
    | nil => exact ⟨nofun, fun h => absurd rfl h⟩
    | cons b bs =>
      have hrest := ih bs ((a.merge b).run db).2
      show (((a.merge b).run db).1 != a ||
          ((mergeValues as bs).run ((a.merge b).run db).2).1.2) = true ↔
        ((a.merge b).run db).1 :: ((mergeValues as bs).run ((a.merge b).run db).2).1.1 ≠ a :: as
      simp only [Bool.or_eq_true, bne_iff_ne, hrest, ne_eq, List.cons.injEq, not_and_or]

section Merge

variable {f g h : Frame} {db db' : Database}

/-- Frames with operand stacks of different height cannot be merged. -/
theorem merge_of_ne (hstack : f.stack.length ≠ g.stack.length) (db : Database) :
    (f.merge g).run db = ((.error (.heightsDiffer f.stack.length g.stack.length), f), db) := by
  unfold merge
  rw [if_pos hstack]
  rfl

/-- All other frames can be merged, locals first. -/
theorem merge_of_eq (hstack : f.stack.length = g.stack.length) (db : Database) :
    (f.merge g).run db =
      let locals := (mergeValues f.locals g.locals).run db
      let stack := (mergeValues f.stack.reverse g.stack.reverse).run locals.2
      ((.ok (locals.1.2 || stack.1.2), ⟨locals.1.1, stack.1.1.reverse⟩), stack.2) := by
  unfold merge
  rw [if_neg (not_not.2 hstack)]
  rfl

/-- **A frame is said to have changed exactly if it has.** -/
theorem merge_changed_iff {changed : Bool}
    (hmerge : (f.merge g).run db = ((.ok changed, h), db')) : changed = true ↔ h ≠ f := by
  by_cases hstack : f.stack.length = g.stack.length
  · rw [merge_of_eq hstack] at hmerge
    cases hmerge
    have hreverse (vs : List FlowValue) : vs.reverse ≠ f.stack ↔ vs ≠ f.stack.reverse :=
      not_congr List.reverse_eq_iff
    obtain ⟨locals, stack⟩ := f
    simp only [Bool.or_eq_true, mergeValues_changed_iff, ne_eq, mk.injEq, not_and_or] at hreverse ⊢
    rw [hreverse]
  · rw [merge_of_ne hstack] at hmerge
    cases hmerge

/-- The frame that merging leaves behind, if it succeeds. -/
def merged (f g : Frame) : ExceptT FlowError Inquiry Frame :=
  ExceptT.mk do
    let (answer, h) ← f.merge g
    return answer.map fun _ => h

theorem merged_run (f g : Frame) (db : Database) : (f.merged g).run.run db =
    (((f.merge g).run db).1.1.map fun _ => ((f.merge g).run db).1.2, ((f.merge g).run db).2) :=
  rfl

theorem merged_of_ne (hstack : f.stack.length ≠ g.stack.length) (db : Database) :
    (f.merged g).run.run db = (.error (.heightsDiffer f.stack.length g.stack.length), db) := by
  rw [merged_run, merge_of_ne hstack]
  rfl

theorem merged_of_eq (hstack : f.stack.length = g.stack.length) (db : Database) :
    (f.merged g).run.run db =
      let locals := (mergeValues f.locals g.locals).run db
      let stack := (mergeValues f.stack.reverse g.stack.reverse).run locals.2
      (.ok ⟨locals.1.1, stack.1.1.reverse⟩, stack.2) := by
  rw [merged_run, merge_of_eq hstack]
  rfl

/-- A frame that two frames have been merged into knows no more than either. -/
theorem le_merged (hlen : f.locals.length = g.locals.length)
    (hmerge : (f.merged g).run.run db = (.ok h, db')) : f ≤ h ∧ g ≤ h := by
  by_cases hstack : f.stack.length = g.stack.length
  · rw [merged_of_eq hstack] at hmerge
    cases hmerge
    obtain ⟨hl, hl'⟩ := le_mergeValues hlen db
    have hrev : f.stack.reverse.length = g.stack.reverse.length := by simpa using hstack
    obtain ⟨hs, hs'⟩ := le_mergeValues hrev ((mergeValues f.locals g.locals).run db).2
    refine ⟨⟨hl, ?_⟩, hl', ?_⟩
    · have h := List.rel_reverse hs
      rw [List.reverse_reverse] at h
      exact h
    · have h := List.rel_reverse hs'
      rw [List.reverse_reverse] at h
      exact h
  · rw [merged_of_ne hstack] at hmerge
    cases hmerge

end Merge

/-- Every place of the activation holds a value that may stand there. -/
structure Holds (f : Frame) (a : Activation) : Prop where
  locals : Forall₂ FlowValue.Admits f.locals a.locals
  stack : Forall₂ FlowValue.Admits f.stack a.stack

instance (f : Frame) (a : Activation) : Decidable (f.Holds a) :=
  decidable_of_iff (Forall₂ FlowValue.Admits f.locals a.locals ∧
    Forall₂ FlowValue.Admits f.stack a.stack) ⟨fun h => ⟨h.1, h.2⟩, fun h => ⟨h.1, h.2⟩⟩

theorem admits_mono {as bs : List FlowValue} {vs : List Value} (h : Forall₂ FlowValue.Admits as vs)
    (hab : Forall₂ (· ≤ ·) as bs) : Forall₂ FlowValue.Admits bs vs := by
  induction hab generalizing vs with
  | nil => exact h
  | cons hle _ ih =>
    cases h with
    | cons hv hrest => exact .cons (hv.mono hle) (ih hrest)

theorem Holds.mono {f g : Frame} {a : Activation} (h : f.Holds a) (hfg : f ≤ g) : g.Holds a :=
  ⟨admits_mono h.locals hfg.locals, admits_mono h.stack hfg.stack⟩

/-! ## Operations on frames -/

variable {f g : Frame}

@[simp]
theorem locals_push (v : FlowValue) : (f.push v).locals = f.locals := rfl

@[simp]
theorem stack_push (v : FlowValue) : (f.push v).stack = v :: f.stack := rfl

theorem pop_eq_ok {v : FlowValue} : f.pop = .ok (v, g) ↔ f = g.push v := by
  obtain ⟨locals, stack⟩ := f
  cases stack with
  | nil => simp [pop, push]
  | cons w rest =>
    obtain ⟨locals', stack'⟩ := g
    simp only [pop, push, Except.ok.injEq, Prod.mk.injEq, mk.injEq, List.cons.injEq]
    tauto

theorem pop_bind {α : Type} {k : FlowValue × Frame → Except FlowError α} {r : α}
    (h : f.pop >>= k = .ok r) : ∃ v f', f = f'.push v ∧ k (v, f') = .ok r := by
  obtain ⟨⟨v, f'⟩, hpop, h⟩ := bind_eq_ok.1 h
  exact ⟨v, f', pop_eq_ok.1 hpop, h⟩

theorem drop_eq_ok {count : Nat} : f.drop count = .ok g ↔
    count ≤ f.stack.length ∧ g = { f with stack := f.stack.drop count } := by
  unfold drop
  split
  · simp only [reduceCtorEq, false_iff, not_and]
    intro h
    omega
  · simp only [Except.ok.injEq]
    constructor
    · rintro rfl
      exact ⟨by omega, rfl⟩
    · rintro ⟨-, rfl⟩
      rfl

theorem replace_eq_ok {count : Nat} {v : FlowValue} : f.replace count v = .ok g ↔
    count ≤ f.stack.length ∧ g = { f with stack := v :: f.stack.drop count } := by
  unfold replace
  rw [bind_eq_ok]
  constructor
  · rintro ⟨h, hdrop, hg⟩
    obtain ⟨hlen, rfl⟩ := drop_eq_ok.1 hdrop
    cases hg
    exact ⟨hlen, rfl⟩
  · rintro ⟨hlen, rfl⟩
    exact ⟨_, drop_eq_ok.2 ⟨hlen, rfl⟩, rfl⟩

theorem convert_eq_ok {t : FlowValue} {op : Opcode} (h : f.convert t op = .ok g) :
    ∃ v, v.isReference = false ∧ ∃ rest, f.stack = v :: rest ∧ g = { f with stack := t :: rest } := by
  unfold convert at h
  obtain ⟨⟨v, f'⟩, hpop, h⟩ := bind_eq_ok.1 h
  rw [pop_eq_ok.1 hpop]
  cases hv : v.isReference with
  | true => simp [hv, throw, throwThe, MonadExceptOf.throw, bind, Except.bind] at h
  | false =>
    simp only [hv, Bool.false_eq_true, if_false] at h
    cases h
    exact ⟨v, hv, f'.stack, rfl, rfl⟩

/-- The copy on top tells as much as the operand that has been copied. -/
theorem duplicate_eq_ok {index : Nat} (h : f.duplicate index = .ok g) :
    ∃ t rest t', f.stack = t :: rest ∧ g = f.push t' ∧ ∀ v : Value, t.Admits v → t'.Admits v := by
  unfold duplicate at h
  obtain ⟨t, hpeek, h⟩ := bind_eq_ok.1 h
  have hstack : ∃ rest, f.stack = t :: rest := by
    unfold peek at hpeek
    split at hpeek <;> cases hpeek
    exact ⟨_, ‹_›⟩
  obtain ⟨rest, hrest⟩ := hstack
  split at h
  · cases h
    exact ⟨_, rest, _, hrest, rfl, fun v hv => hv⟩
  · cases h
    exact ⟨t, rest, t, hrest, rfl, fun v hv => hv⟩

/-- Ending a construction changes nothing but what is known of the object. -/
theorem settleFresh_eq (alloc : Nat) (type : String) : ∃ settle : FlowValue → FlowValue,
    (∀ t v, t.Admits v → (settle t).Admits v) ∧
      f.settleFresh alloc type = ⟨f.locals.map settle, f.stack.map settle⟩ := by
  refine ⟨_, fun t v h => ?_, rfl⟩
  split
  · split
    · exact h
    · exact h
  · exact h

/-- The frame with the result of a call on top, if there is one. -/
def withResult (f : Frame) (result : Option FieldType) : Except FlowError Frame :=
  match result with
  | some result => pure (f.push (.ofFieldType result))
  | none => pure f

theorem withResult_eq_ok {result : Option FieldType} (h : f.withResult result = .ok g) :
    g = ⟨f.locals, (result.map FlowValue.ofFieldType).toList ++ f.stack⟩ := by
  cases result <;> cases h <;> rfl

/-- What a call leaves: arguments and receiver are gone, the result is on top, and nothing else has
changed unless a construction has ended. -/
theorem stepInvoke_eq_ok {op : Opcode} {m : MemberRef} (h : f.stepInvoke op m = .ok g) :
    ∃ type, MethodType.parse m.desc = .ok type ∧
      type.arity + (if op = .invokestatic then 0 else 1) ≤ f.stack.length ∧
      ∃ settle : FlowValue → FlowValue, (∀ t v, t.Admits v → (settle t).Admits v) ∧
        g = ⟨f.locals.map settle, (type.result.map FlowValue.ofFieldType).toList ++
          (f.stack.drop (type.arity + if op = .invokestatic then 0 else 1)).map settle⟩ := by
  unfold stepInvoke at h
  obtain ⟨type, htype, h⟩ := bind_eq_ok.1 h
  obtain ⟨f₁, hdrop, h⟩ := bind_eq_ok.1 h
  obtain ⟨hlen, rfl⟩ := drop_eq_ok.1 hdrop
  refine ⟨type, mapError_eq_ok.1 htype, ?_⟩
  have hid : ∀ (t : FlowValue) (v : Value), t.Admits v → (id t).Admits v := fun _ _ h => h
  have hpushed (f' : Frame) (h : f'.withResult type.result = .ok g) := withResult_eq_ok h
  by_cases hop : op = .invokestatic
  · simp only [if_pos hop, pure_bind] at h ⊢
    refine ⟨hlen, id, hid, ?_⟩
    rw [hpushed _ h, List.map_id, List.map_id]
    rfl
  · simp only [if_neg hop] at h ⊢
    obtain ⟨receiver, f₂, hpush, h⟩ := pop_bind h
    obtain ⟨hlocals, hstack⟩ := Frame.mk.inj hpush
    have hlt : type.arity + 1 ≤ f.stack.length := by
      have := congrArg List.length hstack
      rw [List.length_drop, List.length_cons] at this
      omega
    have hrest : f.stack.drop (type.arity + 1) = f₂.stack := by
      rw [← List.drop_drop, hstack]
      rfl
    refine ⟨hlt, ?_⟩
    rw [hrest, hlocals]
    dsimp only at h
    split at h
    · split at h
      · rename_i name alloc _ _ _
        obtain ⟨settle, hsettle, heq⟩ := settleFresh_eq (f := f₂) alloc name
        refine ⟨settle, hsettle, ?_⟩
        rw [hpushed _ h, heq]
      · refine ⟨id, hid, ?_⟩
        rw [hpushed _ h, List.map_id, List.map_id]
    · refine ⟨id, hid, ?_⟩
      rw [hpushed _ h, List.map_id, List.map_id]

theorem setLocal_eq_ok {index : UInt16} {v : FlowValue} : f.setLocal index v = .ok g ↔
    index.toNat < f.locals.length ∧ g = { f with locals := f.locals.set index.toNat v } := by
  unfold setLocal
  split
  · rename_i h
    simp [h, eq_comm]
  · rename_i h
    simp [h]

theorem getLocal_eq_ok {index : UInt16} {v : FlowValue} :
    f.getLocal index = .ok v ↔ f.locals[index.toNat]? = some v := by
  unfold getLocal
  split <;> simp_all

end Frame

end Resumable
