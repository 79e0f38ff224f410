import Resumable.Proofs.Flow.Settling

/-!
# Merging is joining

The types above a type form a line up to the root (`Database.upward`): those of a class are its
ancestors, and an array type has the root alone above it, like a class whose ancestors cannot all be
had. Two lines that meet go on together, so the types form a tree, and what two types have in common
is the line of one type (`Database.mem_upward_of_merge`).

This makes an order of what is known of values (`FlowValue.Under`), and merging gives the least upper
bound in it (`FlowValue.under_join_iff`). That it does not matter in which order values are merged,
nor what the database learns in between, is only what it means to be a least upper bound
(`FlowValue.eq_join_of_under_iff`). Frames are joined place by place (`Frame.merge_run`).

If a class had an array type as its ancestor, two lines could part again, because nothing is said to
lie above an array type but the root; `Database.Plain` excludes that.
-/

namespace Resumable

open List (Forall₂)

variable {db db' : Database}

/-! ## Types above a type -/

namespace Database

/-- No class has an array type as its ancestor. -/
def Plain (db : Database) : Prop :=
  ∀ name above, db.parent? name = some above → FlowValue.elementDescriptor? above = none

theorem Keeps.plain (h : db.Keeps db') (hplain : db.Plain) : db'.Plain := by
  unfold Plain
  rw [h.parent]
  exact hplain

/-- Before anything is asked, this is so if it is so for the classes that can be had. -/
theorem plain_new (options : Options) {resolver : Resolver}
    (h : ∀ name c above, resolver.find name = some c → c.superName = some above →
      FlowValue.elementDescriptor? above = none) : (new options resolver).Plain := by
  have hsupers : ∀ entry ∈ platformSupers, FlowValue.elementDescriptor? entry.2 = none := by
    decide
  intro name above hup
  unfold parent? at hup
  split at hup
  · rename_i facts hfact
    -- Facts are known only of the suspend call's class and of its signal.
    have hfacts : ∀ entry ∈ (new options resolver).facts, ∀ facts, entry.2 = .known facts →
        ∀ above ∈ facts.superName, FlowValue.elementDescriptor? above = none := by
      simp only [new, List.mem_cons, List.not_mem_nil, or_false, ClassFacts.set]
      rintro entry (rfl | rfl) facts heq above habove
      all_goals
        cases heq
        cases habove
        decide
    obtain ⟨pre, post, heq, -⟩ := List.lookup_eq_some_iff.1 hfact
    exact hfacts (name, .known facts) (by rw [heq]; simp) facts rfl above hup
  · split at hup
    · rename_i above' hlookup
      cases hup
      obtain ⟨pre, post, heq, -⟩ := List.lookup_eq_some_iff.1 hlookup
      exact hsupers (name, above) (show _ ∈ (new options resolver).supers by rw [heq]; simp)
    · obtain ⟨c, hc, hup⟩ := Option.bind_eq_some_iff.1 hup
      exact h name c above hc hup

theorem plain_ofList (options : Options) {entries : List (String × ClassDef)}
    (h : ∀ entry ∈ entries, ∀ above ∈ entry.2.superName,
      FlowValue.elementDescriptor? above = none) : (new options (.ofList entries)).Plain := by
  refine plain_new options fun name c above hfind hsuper => ?_
  obtain ⟨entry, hentry, rfl⟩ := Option.map_eq_some_iff.1 hfind
  exact h entry (List.mem_of_find?_eq_some hentry) above hsuper

/-- A type and the types above it, the root last. -/
def upward (db : Database) (type : String) : List String :=
  match FlowValue.elementDescriptor? type, db.ancestry type with
  | none, some line => line
  | _, _ => [type, Names.object]

theorem Keeps.upward (h : db.Keeps db') : db'.upward = db.upward := by
  funext type
  unfold Database.upward
  rw [h.ancestry]

/-- The type is a class with a line up to the root. -/
def HasLine (db : Database) (type : String) (line : List String) : Prop :=
  FlowValue.elementDescriptor? type = none ∧ db.ancestry type = some line

theorem HasLine.upward {type : String} {line : List String} (h : db.HasLine type line) :
    db.upward type = line := by
  rw [Database.upward, h.1, h.2]

theorem upward_of_not_hasLine {type : String} (h : ∀ line, ¬db.HasLine type line) :
    db.upward type = [type, Names.object] := by
  unfold upward
  split
  · rename_i line harray hline
    exact absurd ⟨harray, hline⟩ (h line)
  · rfl

theorem hasLine_object (db : Database) : db.HasLine Names.object [Names.object] :=
  ⟨by decide, lineage_succ_eq_some.2 (.inl ⟨rfl, rfl⟩)⟩

theorem upward_object (db : Database) : db.upward Names.object = [Names.object] :=
  (hasLine_object db).upward

/-- Either a type has a line, or there is the root alone above it. -/
theorem upward_cases (db : Database) (type : String) :
    (∃ line, db.HasLine type line ∧ db.upward type = line) ∨
      (∀ line, ¬db.HasLine type line) ∧ db.upward type = [type, Names.object] := by
  by_cases h : ∃ line, db.HasLine type line
  · obtain ⟨line, hline⟩ := h
    exact .inl ⟨line, hline, hline.upward⟩
  · have hnone := fun line hline => h ⟨line, hline⟩
    exact .inr ⟨hnone, upward_of_not_hasLine hnone⟩

theorem exists_cons_of_upward (db : Database) (type : String) :
    ∃ rest, db.upward type = type :: rest := by
  rcases db.upward_cases type with ⟨line, hline, heq⟩ | ⟨-, heq⟩
  · obtain ⟨rest, rfl⟩ := exists_cons_of_lineage hline.2
    exact ⟨rest, heq⟩
  · exact ⟨_, heq⟩

theorem mem_upward_self (db : Database) (type : String) : type ∈ db.upward type := by
  obtain ⟨rest, heq⟩ := db.exists_cons_of_upward type
  rw [heq]
  exact List.mem_cons_self

theorem object_mem_upward (db : Database) (type : String) : Names.object ∈ db.upward type := by
  rcases db.upward_cases type with ⟨line, hline, heq⟩ | ⟨-, heq⟩
  · rw [heq]
    exact object_mem_of_lineage hline.2
  · rw [heq]
    exact List.mem_cons_of_mem _ List.mem_cons_self

/-- The types behind a type on a line are those above that type. -/
theorem upward_of_append (hplain : db.Plain) {s t : String} {pre post : List String}
    (h : db.upward s = pre ++ t :: post) : db.upward t = t :: post := by
  rcases db.upward_cases s with ⟨line, hline, heq⟩ | ⟨-, heq⟩
  · rw [heq] at h
    subst h
    obtain ⟨k, hk⟩ := lineage_of_append hline.2
    have harray : FlowValue.elementDescriptor? t = none := by
      rcases eq_or_parent_of_mem_lineage hline.2 (List.mem_append_right pre List.mem_cons_self)
        with rfl | ⟨below, hbelow⟩
      · exact hline.1
      · exact hplain below t hbelow
    exact HasLine.upward ⟨harray, lineage_of_length_le hk (length_lineage_le hk)⟩
  · rw [heq] at h
    rcases pre with _ | ⟨first, _ | ⟨second, rest⟩⟩
    · cases h
      exact heq
    · cases h
      exact db.upward_object
    · simp at h

/-- A type that lies above another and has no line of its own is that other. -/
theorem eq_of_mem_upward (hplain : db.Plain) {s t : String} (h : t ∈ db.upward s)
    (hnone : ∀ line, ¬db.HasLine t line) : t = s := by
  rcases db.upward_cases s with ⟨line, hline, heq⟩ | ⟨-, heq⟩
  · rw [heq] at h
    by_contra hne
    rcases eq_or_parent_of_mem_lineage hline.2 h with rfl | ⟨below, hbelow⟩
    · exact hne rfl
    · obtain ⟨pre, post, rfl⟩ := List.append_of_mem h
      obtain ⟨k, hk⟩ := lineage_of_append hline.2
      exact hnone _ ⟨hplain below t hbelow, lineage_of_length_le hk (length_lineage_le hk)⟩
  · rw [heq, List.mem_cons, List.mem_singleton] at h
    rcases h with rfl | rfl
    · rfl
    · exact absurd (hasLine_object db) (hnone _)

theorem mem_upward_trans (hplain : db.Plain) {r s t : String} (hs : s ∈ db.upward r)
    (ht : t ∈ db.upward s) : t ∈ db.upward r := by
  obtain ⟨pre, post, heq⟩ := List.append_of_mem hs
  rw [upward_of_append hplain heq] at ht
  rw [heq]
  exact List.mem_append_right pre ht

/-- Two types do not lie above each other. -/
theorem mem_upward_antisymm (hplain : db.Plain) {s t : String} (ht : t ∈ db.upward s)
    (hs : s ∈ db.upward t) : s = t := by
  obtain ⟨pre, post, heq⟩ := List.append_of_mem ht
  obtain ⟨pre', post', heq'⟩ := List.append_of_mem hs
  have hlen := congrArg List.length ((upward_of_append hplain heq').symm.trans heq)
  have hlen' := congrArg List.length ((upward_of_append hplain heq).symm.trans heq')
  simp only [List.length_append, List.length_cons] at hlen hlen'
  obtain rfl : pre = [] := List.eq_nil_of_length_eq_zero (by omega)
  obtain ⟨rest, hrest⟩ := db.exists_cons_of_upward s
  exact (List.cons.inj (hrest.symm.trans heq)).1

theorem object_prefix_upward (hplain : db.Plain) (type : String) :
    [Names.object] <+: (db.upward type).reverse := by
  obtain ⟨pre, post, heq⟩ := List.append_of_mem (db.object_mem_upward type)
  have hpost := (upward_of_append hplain heq).symm.trans db.upward_object
  rw [heq, hpost, List.reverse_append]
  exact List.prefix_append _ _

/-- Two lines meet, if only in the root. -/
theorem exists_meeting (hplain : db.Plain) (s t : String) : ∃ c,
    (Inquiry.commonStart (db.upward s).reverse (db.upward t).reverse).getLast? = some c := by
  have hroot := Inquiry.prefix_commonStart (object_prefix_upward hplain s)
    (object_prefix_upward hplain t)
  exact ⟨_, List.getLast?_eq_some_getLast (List.ne_nil_of_mem (hroot.subset List.mem_cons_self))⟩

/-- The types above both of two types are those above the one where their lines meet. -/
theorem mem_upward_of_meeting (hplain : db.Plain) {s t c : String}
    (hc : (Inquiry.commonStart (db.upward s).reverse (db.upward t).reverse).getLast? = some c)
    (x : String) : x ∈ db.upward c ↔ x ∈ db.upward s ∧ x ∈ db.upward t :=
  Inquiry.mem_of_meeting db.upward (upward_of_append hplain) hc x

/-- A type without a line has nothing in common with another type but the root. -/
theorem mem_upward_of_not_hasLine (hplain : db.Plain) {s t : String} (hne : s ≠ t)
    (hnone : ∀ line, ¬db.HasLine s line) (x : String) :
    x ∈ db.upward Names.object ↔ x ∈ db.upward s ∧ x ∈ db.upward t := by
  rw [db.upward_object, List.mem_singleton, upward_of_not_hasLine hnone, List.mem_cons,
    List.mem_singleton]
  constructor
  · rintro rfl
    exact ⟨.inr rfl, db.object_mem_upward t⟩
  · rintro ⟨rfl | rfl, ht⟩
    · exact absurd (eq_of_mem_upward hplain ht hnone) hne
    · rfl

end Database

/-! ## Values -/

namespace FlowValue

/-- **References merge into the least type above both.** -/
theorem merge_reference (hplain : db.Plain) {s t : String} (hne : s ≠ t) :
    ∃ r, (((reference s).merge (.reference t)).run db).1 = .reference r ∧
      ∀ x, x ∈ db.upward r ↔ x ∈ db.upward s ∧ x ∈ db.upward t := by
  have hne' : reference s ≠ reference t := fun heq => hne (reference.inj heq)
  -- Where one of the types has no line, the answer is the root.
  have hroot (h : (∀ line, ¬db.HasLine s line) ∨ ∀ line, ¬db.HasLine t line) (x : String) :
      x ∈ db.upward Names.object ↔ x ∈ db.upward s ∧ x ∈ db.upward t := by
    rcases h with hs | ht
    · exact Database.mem_upward_of_not_hasLine hplain hne hs x
    · rw [Database.mem_upward_of_not_hasLine hplain hne.symm ht x, and_comm]
  unfold merge
  rw [if_neg hne']
  dsimp only
  split
  · rename_i harray
    refine ⟨Names.object, rfl, hroot ?_⟩
    rcases Bool.or_eq_true_iff.1 harray with hs | ht
    · exact .inl fun line hline => by simp [hline.1] at hs
    · exact .inr fun line hline => by simp [hline.1] at ht
  · rename_i harray
    simp only [Bool.or_eq_true, not_or, Option.not_isSome_iff_eq_none] at harray
    refine ⟨((Inquiry.commonSuper s t).run db).1.getD Names.object, rfl, fun x => ?_⟩
    rw [(Inquiry.commonSuper_answer db s t).1]
    rcases hs : db.ancestry s with _ | as
    · exact hroot (.inl fun line hline => nomatch hs.symm.trans hline.2) x
    rcases ht : db.ancestry t with _ | bs
    · exact hroot (.inr fun line hline => nomatch ht.symm.trans hline.2) x
    have hupward : db.upward s = as := Database.HasLine.upward ⟨harray.1, hs⟩
    have hupward' : db.upward t = bs := Database.HasLine.upward ⟨harray.2, ht⟩
    rw [Option.bind_some, Option.bind_some, ← hupward, ← hupward']
    obtain ⟨c, hc⟩ := Database.exists_meeting hplain s t
    rw [hc]
    exact Database.mem_upward_of_meeting hplain hc x

/-- The second tells no more than the first, and what the first may be the second may be. -/
inductive Under (db : Database) : FlowValue → FlowValue → Prop where
  | refl (a : FlowValue) : Under db a a
  | unknown (a : FlowValue) : Under db a .unknown
  | null (type : String) : Under db .null (.reference type)
  | reference {s t : String} (h : t ∈ db.upward s) : Under db (.reference s) (.reference t)

variable {a b c : FlowValue}

theorem reference_under_iff {s : String} : (reference s).Under db c ↔
    c = .unknown ∨ ∃ t, c = .reference t ∧ t ∈ db.upward s := by
  constructor
  · intro h
    cases h with
    | refl => exact .inr ⟨s, rfl, db.mem_upward_self s⟩
    | unknown => exact .inl rfl
    | reference ht => exact .inr ⟨_, rfl, ht⟩
  · rintro (rfl | ⟨t, rfl, ht⟩)
    · exact .unknown _
    · exact .reference ht

theorem Under.trans (hplain : db.Plain) (hab : a.Under db b) (hbc : b.Under db c) :
    a.Under db c := by
  cases hab with
  | refl => exact hbc
  | unknown => cases hbc <;> exact .unknown _
  | null =>
    cases hbc
    exacts [.null _, .unknown _, .null _]
  | reference h =>
    cases hbc with
    | refl => exact .reference h
    | unknown => exact .unknown _
    | reference h' => exact .reference (Database.mem_upward_trans hplain h h')

theorem Under.antisymm (hplain : db.Plain) (hab : a.Under db b) (hba : b.Under db a) : a = b := by
  cases hab with
  | refl => rfl
  | unknown => cases hba <;> rfl
  | null => cases hba
  | reference h =>
    cases hba with
    | refl => rfl
    | reference h' => rw [Database.mem_upward_antisymm hplain h h']

/-- The order is finer than the one of which values are admitted. -/
theorem Under.le (h : a.Under db b) : a ≤ b := by
  cases h with
  | refl => exact .refl _
  | unknown => exact .unknown _
  | null => exact .null _
  | reference => exact .reference _ _

/-- What the database learns does not change the order. -/
theorem under_of_keeps (h : db.Keeps db') : a.Under db' b ↔ a.Under db b := by
  have hmono {db db' : Database} (hupward : db'.upward = db.upward) (hab : a.Under db b) :
      a.Under db' b := by
    cases hab with
    | refl => exact .refl _
    | unknown => exact .unknown _
    | null => exact .null _
    | reference ht => exact .reference (hupward ▸ ht)
  exact ⟨hmono h.upward.symm, hmono h.upward⟩

/-- Only references and null have something known above them that is not themselves. -/
theorem eq_unknown_of_under (hac : a.Under db c) (hbc : b.Under db c) (hab : a ≠ b)
    (hnull : ∀ type, a = .null → b ≠ .reference type)
    (hnull' : ∀ type, a = .reference type → b ≠ .null)
    (hreference : ∀ s t, a = .reference s → b ≠ .reference t) : c = .unknown := by
  cases hac with
  | refl =>
    cases hbc with
    | refl => exact absurd rfl hab
    | unknown => rfl
    | null type => exact absurd rfl (hnull' type rfl)
    | reference => exact absurd rfl (hreference _ _ rfl)
  | unknown => rfl
  | null type =>
    cases hbc with
    | refl => exact absurd rfl (hnull type rfl)
    | null => exact absurd rfl hab
    | reference => exact absurd rfl (hnull _ rfl)
  | reference =>
    cases hbc with
    | refl => exact absurd rfl (hreference _ _ rfl)
    | null => exact absurd rfl (hnull' _ rfl)
    | reference => exact absurd rfl (hreference _ _ rfl)

/-- What is known of a value that is one of two, as the database answers. -/
def join (db : Database) (a b : FlowValue) : FlowValue := ((a.merge b).run db).1

theorem merge_self (a : FlowValue) : a.merge a = pure a := by
  unfold merge
  rw [if_pos rfl]

/-- **Merging gives the least upper bound.** -/
theorem under_join_iff (hplain : db.Plain) :
    (a.join db b).Under db c ↔ a.Under db c ∧ b.Under db c := by
  by_cases hab : a = b
  · subst hab
    rw [join, merge_self]
    exact and_self_iff.symm
  unfold join
  unfold merge
  rw [if_neg hab]
  split
  -- Null lies below every reference.
  · exact ⟨fun h => ⟨.trans hplain (.null _) h, h⟩, And.right⟩
  · exact ⟨fun h => ⟨h, .trans hplain (.null _) h⟩, And.left⟩
  · -- Above both references is what is above the class in which their lines of ancestors meet.
    rename_i s t
    obtain ⟨r, hr, hmem⟩ := merge_reference hplain (s := s) (t := t) fun heq => hab (heq ▸ rfl)
    rw [merge, if_neg hab] at hr
    rw [hr, reference_under_iff, reference_under_iff, reference_under_iff]
    constructor
    · rintro (rfl | ⟨x, rfl, hx⟩)
      · exact ⟨.inl rfl, .inl rfl⟩
      · obtain ⟨hs, ht⟩ := (hmem x).1 hx
        exact ⟨.inr ⟨x, rfl, hs⟩, .inr ⟨x, rfl, ht⟩⟩
    · rintro ⟨rfl | ⟨x, rfl, hs⟩, h⟩
      · exact .inl rfl
      · obtain ⟨y, heq, ht⟩ := h.resolve_left nofun
        cases heq
        exact .inr ⟨x, rfl, (hmem x).2 ⟨hs, ht⟩⟩
  · -- Above all other pairs there is only what is not known.
    rename_i hnull hnull' hreference
    constructor
    · intro h
      cases h <;> exact ⟨.unknown _, .unknown _⟩
    · rintro ⟨ha, hb⟩
      rw [eq_unknown_of_under ha hb hab hnull hnull' hreference]
      exact .refl _

/-- There is only one least upper bound. -/
theorem eq_join_of_under_iff (hplain : db.Plain) {u : FlowValue}
    (h : ∀ c, u.Under db c ↔ a.Under db c ∧ b.Under db c) : u = a.join db b :=
  Under.antisymm hplain ((h _).2 ((under_join_iff hplain).1 (.refl _)))
    ((under_join_iff hplain).2 ((h _).1 (.refl _)))

theorem join_of_keeps (hplain : db.Plain) (h : db.Keeps db') : a.join db' b = a.join db b :=
  eq_join_of_under_iff hplain fun c => by
    rw [← under_of_keeps h, ← under_of_keeps h, ← under_of_keeps h]
    exact under_join_iff (h.plain hplain)

theorem join_comm (hplain : db.Plain) : a.join db b = b.join db a :=
  eq_join_of_under_iff hplain fun c => by rw [under_join_iff hplain, and_comm]

theorem join_assoc (hplain : db.Plain) : (a.join db b).join db c = a.join db (b.join db c) :=
  eq_join_of_under_iff hplain fun x => by
    rw [under_join_iff hplain, under_join_iff hplain, under_join_iff hplain, and_assoc]

/-- With what is not known nothing is known. -/
theorem merge_unknown (a : FlowValue) (db : Database) :
    (a.merge .unknown).run db = (.unknown, db) ∧ (unknown.merge a).run db = (.unknown, db) := by
  cases a <;> exact ⟨rfl, rfl⟩

end FlowValue

/-! ## Frames -/

namespace Frame

open FlowValue (Under)

variable {f g h : Frame}

/-- Lists of equal length are merged place by place, each place as if nothing had been learnt from
those before. -/
theorem mergeValues_run (hplain : db.Plain) {as bs : List FlowValue} (hlen : as.length = bs.length)
    (hkeeps : db.Keeps db') :
    ((mergeValues as bs).run db').1.1 = List.zipWith (FlowValue.join db) as bs ∧
      db.Keeps ((mergeValues as bs).run db').2 := by
  refine ⟨?_, (ranks_mergeValues hkeeps as bs).1⟩
  induction as generalizing bs db' with
  | nil => cases bs <;> rfl
  | cons a as ih =>
    cases bs with
    | nil => cases hlen
    | cons b bs =>
      show a.join db' b :: ((mergeValues as bs).run ((a.merge b).run db').2).1.1 =
        a.join db b :: List.zipWith (FlowValue.join db) as bs
      rw [FlowValue.join_of_keeps hplain hkeeps,
        ih (Nat.succ.inj hlen) (FlowValue.rank_merge hkeeps a b).1]

/-- What is known in front of an instruction that is reached with one of two frames. -/
def join (db : Database) (f g : Frame) : Frame :=
  ⟨List.zipWith (FlowValue.join db) f.locals g.locals,
    List.zipWith (FlowValue.join db) f.stack g.stack⟩

/-- The frames have as many locals and as many operands. -/
def SameShape (f g : Frame) : Prop :=
  f.locals.length = g.locals.length ∧ f.stack.length = g.stack.length

/-- **Frames of one shape are merged place by place**, and it is said whether that has changed the
first one. -/
theorem merge_run (hplain : db.Plain) (hshape : f.SameShape g) (hkeeps : db.Keeps db') :
    ∃ db'', db.Keeps db'' ∧
      (f.merge g).run db' = ((.ok (decide (f.join db g ≠ f)), f.join db g), db'') := by
  obtain ⟨hlocals, hkeeps₁⟩ := mergeValues_run hplain hshape.1 hkeeps
  have hlen : f.stack.reverse.length = g.stack.reverse.length := by simpa using hshape.2
  obtain ⟨hstack, hkeeps₂⟩ := mergeValues_run hplain hlen hkeeps₁
  have hrun := merge_of_eq hshape.2 db'
  dsimp only at hrun
  rw [hlocals, hstack, ← List.reverse_zipWith hshape.2, List.reverse_reverse] at hrun
  have hchanged := merge_changed_iff (h := f.join db g) hrun
  refine ⟨_, hkeeps₂, hrun.trans ?_⟩
  rw [Bool.eq_iff_iff.2 (hchanged.trans decide_eq_true_iff.symm)]
  rfl

theorem merged_run_join (hplain : db.Plain) (hshape : f.SameShape g) (hkeeps : db.Keeps db') :
    ∃ db'', db.Keeps db'' ∧ (f.merged g).run.run db' = (.ok (f.join db g), db'') := by
  obtain ⟨db'', hkeeps', hrun⟩ := merge_run hplain hshape hkeeps
  exact ⟨db'', hkeeps', by rw [merged_run, hrun]; rfl⟩

/-- The second frame tells no more than the first in any place. -/
structure Under (db : Database) (f g : Frame) : Prop where
  locals : Forall₂ (FlowValue.Under db) f.locals g.locals
  stack : Forall₂ (FlowValue.Under db) f.stack g.stack

theorem Under.sameShape (h : f.Under db g) : f.SameShape g :=
  ⟨h.locals.length_eq, h.stack.length_eq⟩

theorem Under.refl (db : Database) (f : Frame) : f.Under db f :=
  ⟨List.forall₂_same.2 fun a _ => .refl a, List.forall₂_same.2 fun a _ => .refl a⟩

theorem Under.trans (hplain : db.Plain) (hfg : f.Under db g) (hgh : g.Under db h) : f.Under db h where
  locals := (forall₂_join hfg.locals.flip hgh.locals).imp fun _ _ ⟨_, h, h'⟩ => h.trans hplain h'
  stack := (forall₂_join hfg.stack.flip hgh.stack).imp fun _ _ ⟨_, h, h'⟩ => h.trans hplain h'

/-- Joining lists place by place gives the least list above both. -/
theorem under_zipWith_iff (hplain : db.Plain) {as bs cs : List FlowValue}
    (hlen : as.length = bs.length) :
    Forall₂ (FlowValue.Under db) (List.zipWith (FlowValue.join db) as bs) cs ↔
      Forall₂ (FlowValue.Under db) as cs ∧ Forall₂ (FlowValue.Under db) bs cs := by
  induction as generalizing bs cs with
  | nil =>
    obtain rfl := List.eq_nil_of_length_eq_zero hlen.symm
    exact and_self_iff.symm
  | cons a as ih =>
    cases bs with
    | nil => cases hlen
    | cons b bs =>
      cases cs with
      | nil => simp
      | cons c cs =>
        rw [List.zipWith_cons_cons, List.forall₂_cons, List.forall₂_cons, List.forall₂_cons,
          FlowValue.under_join_iff hplain, ih (Nat.succ.inj hlen)]
        exact and_and_and_comm

/-- **Merging gives the least frame above both.** -/
theorem under_join_iff (hplain : db.Plain) (hshape : f.SameShape g) :
    (f.join db g).Under db h ↔ f.Under db h ∧ g.Under db h := by
  constructor
  · rintro ⟨hlocals, hstack⟩
    obtain ⟨hfl, hgl⟩ := (under_zipWith_iff hplain hshape.1).1 hlocals
    obtain ⟨hfs, hgs⟩ := (under_zipWith_iff hplain hshape.2).1 hstack
    exact ⟨⟨hfl, hfs⟩, ⟨hgl, hgs⟩⟩
  · rintro ⟨hf, hg⟩
    exact ⟨(under_zipWith_iff hplain hshape.1).2 ⟨hf.locals, hg.locals⟩,
      (under_zipWith_iff hplain hshape.2).2 ⟨hf.stack, hg.stack⟩⟩

theorem Under.antisymm (hplain : db.Plain) (hfg : f.Under db g) (hgf : g.Under db f) : f = g := by
  have heq {as bs : List FlowValue} (h : Forall₂ (FlowValue.Under db) as bs)
      (h' : Forall₂ (FlowValue.Under db) bs as) : as = bs := by
    induction h with
    | nil => rfl
    | cons hab _ ih =>
      cases h' with
      | cons hba hrest => rw [hab.antisymm hplain hba, ih hrest]
  exact congrArg₂ Frame.mk (heq hfg.locals hgf.locals) (heq hfg.stack hgf.stack)

/-- Merging the first frame into the second does not change the second, whatever the database has
learnt in between. -/
def Below (db : Database) (f g : Frame) : Prop :=
  ∀ db', db.Keeps db' → ((g.merge f).run db').1 = (.ok false, g)

theorem below_iff_under (hplain : db.Plain) (hlen : f.locals.length = g.locals.length) :
    f.Below db g ↔ f.Under db g := by
  constructor
  · intro h
    have hmerge := h db (.refl db)
    by_cases hstack : g.stack.length = f.stack.length
    · have hshape : g.SameShape f := ⟨hlen.symm, hstack⟩
      obtain ⟨db', -, hrun⟩ := merge_run hplain hshape (.refl db)
      rw [hrun] at hmerge
      have hjoin : g.join db f = g := congrArg Prod.snd hmerge
      have hunder : (g.join db f).Under db g := by
        rw [hjoin]
        exact .refl db g
      exact ((under_join_iff hplain hshape).1 hunder).2
    · rw [merge_of_ne hstack] at hmerge
      cases hmerge
  · intro h db' hkeeps
    have hshape : g.SameShape f := ⟨hlen.symm, h.sameShape.2.symm⟩
    obtain ⟨db'', -, hrun⟩ := merge_run hplain hshape hkeeps
    have hjoin : g.join db f = g := by
      apply Under.antisymm hplain
      · exact (under_join_iff hplain hshape).2 ⟨.refl db g, h⟩
      · exact ((under_join_iff hplain hshape).1 (.refl db _)).1
    rw [hrun, hjoin]
    simp

theorem Under.below (hplain : db.Plain) (h : f.Under db g) : f.Below db g :=
  (below_iff_under hplain h.sameShape.1).2 h

end Frame

/-! ## What merging is -/

namespace Flow

/-- **Merging is joining.** Whatever a database says of which no class has an array type as its
ancestor: values are merged commutatively and associatively, a value merged with itself is itself,
and with what is not known nothing is known. Frames of one shape are merged place by place, and the
answer is whether that has changed the first one; where the operand stacks differ in height merging
fails, the first frame stays as it is, and nothing is learnt. -/
theorem merging_joins (db : Database) (hplain : db.Plain) :
    (∀ a b : FlowValue, ((a.merge b).run db).1 = ((b.merge a).run db).1) ∧
    (∀ a b c : FlowValue, ((a.merge b >>= fun ab => ab.merge c).run db).1 =
      ((b.merge c >>= fun bc => a.merge bc).run db).1) ∧
    (∀ a : FlowValue, (a.merge a).run db = (a, db)) ∧
    (∀ a : FlowValue, (a.merge .unknown).run db = (.unknown, db) ∧
      (FlowValue.unknown.merge a).run db = (.unknown, db)) ∧
    (∀ f g : Frame, f.SameShape g → ∃ changed h db',
      (f.merge g).run db = ((.ok changed, h), db') ∧ h = f.join db g ∧
        (changed = true ↔ h ≠ f)) ∧
    ∀ f g : Frame, f.stack.length ≠ g.stack.length →
      (f.merge g).run db = ((.error (.heightsDiffer f.stack.length g.stack.length), f), db) := by
  refine ⟨fun a b => FlowValue.join_comm hplain, fun a b c => ?_, fun a => ?_, fun a => ?_,
    fun f g hshape => ?_, fun f g hne => Frame.merge_of_ne hne db⟩
  · -- Each of the two merges meets the database that the one before has left.
    show (a.join db b).join ((a.merge b).run db).2 c = a.join ((b.merge c).run db).2 (b.join db c)
    rw [FlowValue.join_of_keeps hplain (FlowValue.rank_merge (.refl db) a b).1,
      FlowValue.join_of_keeps hplain (FlowValue.rank_merge (.refl db) b c).1,
      FlowValue.join_assoc hplain]
  · rw [FlowValue.merge_self]
    rfl
  · exact FlowValue.merge_unknown a db
  · obtain ⟨db', -, hrun⟩ := Frame.merge_run hplain hshape (.refl db)
    exact ⟨_, _, db', hrun, rfl, Frame.merge_changed_iff hrun⟩

/-- Classes of which one has no ancestor that can be had. -/
def family : Database :=
  .new {} (.ofList [("app/Shape", { name := "app/Shape", superName := some Names.object }),
    ("app/Circle", { name := "app/Circle", superName := some "app/Shape" }),
    ("app/Square", { name := "app/Square", superName := some "app/Shape" }),
    ("app/Stray", { name := "app/Stray", superName := some "lib/Gone" })])

theorem plain_family : family.Plain := by
  refine Database.plain_ofList _ ?_
  simp only [List.mem_cons, List.not_mem_nil, or_false]
  rintro entry (rfl | rfl | rfl | rfl) above habove <;> cases habove <;> decide

theorem merging_joins_family : family.Plain ∧
    (((FlowValue.reference "app/Circle").merge (.reference "app/Square")).run family).1 =
      .reference "app/Shape" ∧
    (((FlowValue.reference "app/Square").merge (.reference "app/Circle")).run family).1 =
      .reference "app/Shape" := by
  have hmerge : (((FlowValue.reference "app/Circle").merge (.reference "app/Square")).run
      family).1 = .reference "app/Shape" := by
    decide +kernel
  exact ⟨plain_family, hmerge, ((merging_joins family plain_family).1 _ _).symm.trans hmerge⟩

end Flow

end Resumable
