import Mathlib.Data.List.Perm.Subperm
import Resumable.Suspendable.Database

/-!
# The class hierarchy

Which ancestor a class has does not depend on when it is asked for: what a question adds to the
database, the database could have found out before (`Database.Keeps`). So the line of a class up to
the root is the same whenever it is walked along (`Inquiry.ancestors_spec`).

A line meets no class twice, so the number of steps that the database allows is enough for every line
that reaches the root at all (`Database.length_ancestry_le`). The class in which two lines meet lies
on both, so it has a shorter line than either, unless it is that class itself
(`Inquiry.commonSuper_spec`).
-/

namespace Resumable

/-! ## Lines -/

section Lines

variable {parent : String → Option String} {n k : Nat} {name : String} {l l' : List String}

/-- The line from a class to the root, the class itself first, if it has one of at most `n` classes. -/
def lineage (parent : String → Option String) : Nat → String → Option (List String)
  | 0, _ => none
  | n + 1, name =>
    if name = Names.object then some [name]
    else (parent name).bind fun above => (lineage parent n above).map (name :: ·)

/-- A line that goes on from a class goes on from its parent. -/
theorem lineage_succ_eq_some : lineage parent (n + 1) name = some l ↔
    name = Names.object ∧ l = [name] ∨ name ≠ Names.object ∧
      ∃ above rest, parent name = some above ∧ lineage parent n above = some rest ∧
        l = name :: rest := by
  rw [lineage]
  by_cases hroot : name = Names.object
  · simp [hroot, eq_comm]
  · rw [if_neg hroot, Option.bind_eq_some_iff]
    simp only [Option.map_eq_some_iff, hroot, false_and, false_or, ne_eq, not_false_eq_true,
      true_and]
    constructor
    · rintro ⟨above, habove, rest, hrest, rfl⟩
      exact ⟨above, rest, habove, hrest, rfl⟩
    · rintro ⟨above, rest, habove, hrest, rfl⟩
      exact ⟨above, habove, rest, hrest, rfl⟩

theorem exists_cons_of_lineage (h : lineage parent n name = some l) : ∃ rest, l = name :: rest := by
  cases n with
  | zero => cases h
  | succ n =>
    rcases lineage_succ_eq_some.1 h with ⟨-, rfl⟩ | ⟨-, above, rest, -, -, rfl⟩
    · exact ⟨[], rfl⟩
    · exact ⟨rest, rfl⟩

/-- A class has one line, however many steps are allowed. -/
theorem lineage_unique (h : lineage parent n name = some l)
    (h' : lineage parent k name = some l') : l' = l := by
  induction n generalizing name k l l' with
  | zero => cases h
  | succ n ih =>
    cases k with
    | zero => cases h'
    | succ k =>
      rcases lineage_succ_eq_some.1 h with ⟨hroot, rfl⟩ | ⟨hroot, above, rest, habove, hrest, rfl⟩ <;>
        rcases lineage_succ_eq_some.1 h' with
          ⟨hroot', rfl⟩ | ⟨hroot', above', rest', habove', hrest', rfl⟩
      · rfl
      · exact absurd hroot hroot'
      · exact absurd hroot' hroot
      · cases habove.symm.trans habove'
        rw [ih hrest hrest']

/-- As many steps as a line has classes are enough to walk along it. -/
theorem lineage_of_length_le (h : lineage parent n name = some l) (hk : l.length ≤ k) :
    lineage parent k name = some l := by
  induction n generalizing name k l with
  | zero => cases h
  | succ n ih =>
    obtain ⟨rest, rfl⟩ := exists_cons_of_lineage h
    obtain ⟨k, rfl⟩ : ∃ k', k = k' + 1 := ⟨k - 1, by rw [List.length_cons] at hk; omega⟩
    rcases lineage_succ_eq_some.1 h with ⟨hroot, heq⟩ | ⟨hroot, above, rest', habove, hrest, heq⟩
    · exact lineage_succ_eq_some.2 (.inl ⟨hroot, heq⟩)
    · cases heq
      refine lineage_succ_eq_some.2 (.inr ⟨hroot, above, rest, habove, ih hrest ?_, rfl⟩)
      rw [List.length_cons] at hk
      omega

/-- The line of a class on a line is the rest of that line. -/
theorem lineage_of_append {pre post : List String} {above : String}
    (h : lineage parent n name = some (pre ++ above :: post)) :
    ∃ k, lineage parent k above = some (above :: post) := by
  induction pre generalizing n name with
  | nil =>
    obtain ⟨rest, heq⟩ := exists_cons_of_lineage h
    cases heq
    exact ⟨n, h⟩
  | cons x pre ih =>
    cases n with
    | zero => cases h
    | succ n =>
      rcases lineage_succ_eq_some.1 h with ⟨-, heq⟩ | ⟨-, next, rest, -, hrest, heq⟩
      · simp at heq
      · cases heq
        exact ih hrest

/-- A line meets no class twice. -/
theorem nodup_of_lineage (h : lineage parent n name = some l) : l.Nodup := by
  induction n generalizing name l with
  | zero => cases h
  | succ n ih =>
    rcases lineage_succ_eq_some.1 h with ⟨-, rfl⟩ | ⟨-, above, rest, -, hrest, rfl⟩
    · simp
    · refine List.nodup_cons.2 ⟨fun hmem => ?_, ih hrest⟩
      -- Otherwise the line from there would be the whole line and a part of it.
      obtain ⟨pre, post, rfl⟩ := List.append_of_mem hmem
      obtain ⟨k, hk⟩ := lineage_of_append hrest
      have hlen := congrArg List.length (lineage_unique h hk)
      simp only [List.length_cons, List.length_append] at hlen
      omega

/-- Every class on a line has an ancestor, but for the root. -/
theorem parent_of_mem_lineage (h : lineage parent n name = some l) {x : String} (hx : x ∈ l) :
    x = Names.object ∨ ∃ above, parent x = some above := by
  induction n generalizing name l with
  | zero => cases h
  | succ n ih =>
    rcases lineage_succ_eq_some.1 h with ⟨hroot, rfl⟩ | ⟨-, above, rest, habove, hrest, rfl⟩
    · exact .inl ((List.mem_singleton.1 hx).trans hroot)
    · rcases List.mem_cons.1 hx with rfl | hx
      · exact .inr ⟨above, habove⟩
      · exact ih hrest hx

/-- Every class on a line but the first is the parent of another. -/
theorem eq_or_parent_of_mem_lineage (h : lineage parent n name = some l) {x : String}
    (hx : x ∈ l) : x = name ∨ ∃ below, parent below = some x := by
  induction n generalizing name l with
  | zero => cases h
  | succ n ih =>
    rcases lineage_succ_eq_some.1 h with ⟨-, rfl⟩ | ⟨-, above, rest, habove, hrest, rfl⟩
    · exact .inl (List.mem_singleton.1 hx)
    · rcases List.mem_cons.1 hx with rfl | hx
      · exact .inl rfl
      · rcases ih hrest hx with rfl | hbelow
        · exact .inr ⟨name, habove⟩
        · exact .inr hbelow

theorem object_mem_of_lineage (h : lineage parent n name = some l) : Names.object ∈ l := by
  induction n generalizing name l with
  | zero => cases h
  | succ n ih =>
    rcases lineage_succ_eq_some.1 h with ⟨rfl, rfl⟩ | ⟨-, above, rest, -, hrest, rfl⟩
    · exact List.mem_cons_self
    · exact List.mem_cons_of_mem _ (ih hrest)

end Lines

/-! ## What the database knows of it -/

namespace Database

variable {db db' db'' : Database} {name : String}

/-- The direct ancestor of a class, as far as the database knows or can find out. -/
def parent? (db : Database) (name : String) : Option String :=
  match db.fact? name with
  | some (.known facts) => facts.superName
  | _ =>
    match db.supers.lookup name with
    | some above => some above
    | none => (db.resolver.find name).bind (·.superName)

theorem parent?_of_known {facts : ClassFacts} (h : db.fact? name = some (.known facts)) :
    db.parent? name = facts.superName := by
  rw [parent?, h]

theorem parent?_of_unknown (h : ∀ facts, db.fact? name ≠ some (.known facts)) :
    db.parent? name = match db.supers.lookup name with
      | some above => some above
      | none => (db.resolver.find name).bind (·.superName) := by
  unfold parent?
  split
  · exact absurd ‹_› (h _)
  · rfl

/-- Every class that has an ancestor is among those that are counted. -/
theorem mem_of_parent? {above : String} (h : db.parent? name = some above) :
    name ∈ db.facts.map Prod.fst ++ db.supers.map Prod.fst ++ db.resolver.names := by
  have hlookup {β : Type} {entries : List (String × β)} {b : β}
      (h : entries.lookup name = some b) : name ∈ entries.map Prod.fst := by
    obtain ⟨pre, post, heq, -⟩ := List.lookup_eq_some_iff.1 h
    rw [heq]
    simp
  rw [List.mem_append, List.mem_append]
  unfold parent? at h
  split at h
  · exact .inl (.inl (hlookup ‹_›))
  · split at h
    · exact .inl (.inr (hlookup ‹_›))
    · obtain ⟨c, hc, -⟩ := Option.bind_eq_some_iff.1 h
      exact .inr (db.resolver.find_mem hc)

/-- The line of a class up to the root, if it reaches the root. -/
def ancestry (db : Database) (name : String) : Option (List String) :=
  lineage db.parent? db.reach name

/-- A line is never longer than the number of steps that are made along it. -/
theorem length_lineage_le {n : Nat} {l : List String} (h : lineage db.parent? n name = some l) :
    l.length ≤ db.reach := by
  have hsub : l ⊆ Names.object ::
      (db.facts.map Prod.fst ++ db.supers.map Prod.fst ++ db.resolver.names) := by
    intro x hx
    rcases parent_of_mem_lineage h hx with rfl | ⟨above, habove⟩
    · exact List.mem_cons_self
    · exact List.mem_cons_of_mem _ (mem_of_parent? habove)
  have hle := ((nodup_of_lineage h).subperm hsub).length_le
  simp only [List.length_cons, List.length_append, List.length_map] at hle
  exact hle

/-- With more steps no other lines are found. -/
theorem lineage_eq_ancestry {n : Nat} (hn : db.reach ≤ n) (name : String) :
    lineage db.parent? n name = db.ancestry name := by
  unfold ancestry
  rcases h : lineage db.parent? n name with _ | l
  · rcases h' : lineage db.parent? db.reach name with _ | l
    · rfl
    · rw [lineage_of_length_le h' (Nat.le_trans (length_lineage_le h') hn)] at h
      cases h
  · exact (lineage_of_length_le h (length_lineage_le h)).symm

/-- What has been learnt has changed no ancestor. -/
structure Keeps (db db' : Database) : Prop where
  parent : db'.parent? = db.parent?
  reach : db.reach ≤ db'.reach

namespace Keeps

theorem refl (db : Database) : db.Keeps db := ⟨rfl, Nat.le_refl _⟩

theorem trans (h : db.Keeps db') (h' : db'.Keeps db'') : db.Keeps db'' :=
  ⟨h'.parent.trans h.parent, Nat.le_trans h.reach h'.reach⟩

theorem log (db : Database) (level : Level) (n : Notice) : db.Keeps (db.log level n) := by
  unfold Database.log
  split
  · exact ⟨rfl, Nat.le_refl _⟩
  · exact .refl db

/-- Nor has it changed any line. -/
theorem ancestry (h : db.Keeps db') : db'.ancestry = db.ancestry := by
  funext name
  rw [← lineage_eq_ancestry h.reach name, ← h.parent]
  rfl

end Keeps

/-- How many classes lie on the line of a class; one that does not reach the root counts as if it
lay below all that do. -/
def depth (db : Database) (name : String) : Nat := (db.ancestry name).elim (db.reach + 1) List.length

theorem depth_le (db : Database) (name : String) : db.depth name ≤ db.reach + 1 := by
  unfold depth
  rcases h : db.ancestry name with _ | l
  · exact Nat.le_refl _
  · exact Nat.le_succ_of_le (length_lineage_le h)

theorem depth_object (db : Database) : db.depth Names.object = 1 := by
  have h : db.ancestry Names.object = some [Names.object] :=
    lineage_succ_eq_some.2 (.inl ⟨rfl, rfl⟩)
  rw [depth, h]
  rfl

/-- The root lies above every other class. -/
theorem one_lt_depth (db : Database) (h : name ≠ Names.object) : 1 < db.depth name := by
  unfold depth
  rcases hline : db.ancestry name with _ | l
  · show 1 < db.reach + 1
    unfold reach
    omega
  · rcases lineage_succ_eq_some.1 hline with ⟨hroot, -⟩ | ⟨-, above, rest, -, hrest, rfl⟩
    · exact absurd hroot h
    · obtain ⟨rest', rfl⟩ := exists_cons_of_lineage hrest
      simp

end Database

/-! ## Questions about it -/

namespace Inquiry

variable {db : Database} {name : String}

theorem run_bind_of_eq {α β : Type} {x : Inquiry α} {k : α → Inquiry β} {a : α} {db' : Database}
    (h : x.run db = (a, db')) : (x >>= k).run db = (k a).run db' := by
  rw [StateT.run_bind, h]
  rfl

/-- The answer is the ancestor of the class, and it changes none. -/
theorem superOf_spec (db : Database) (name : String) :
    ((superOf name).run db).1 = db.parent? name ∧ db.Keeps ((superOf name).run db).2 := by
  unfold superOf
  rw [run_bind_of_eq (show (get : Inquiry Database).run db = (db, db) from rfl)]
  split
  · rename_i facts hfact
    exact ⟨(Database.parent?_of_known hfact).symm, .refl db⟩
  · rename_i hfact
    have hparent := Database.parent?_of_unknown hfact
    split
    · rename_i above hlookup
      rw [hlookup] at hparent
      exact ⟨hparent.symm, .refl db⟩
    · rename_i hlookup
      rw [hlookup] at hparent
      split
      · rename_i above habove
        rw [habove] at hparent
        refine ⟨hparent.symm, funext fun other => ?_, ?_⟩
        · show ({ db with supers := (name, above) :: db.supers } : Database).parent? other = _
          -- For the class itself the resolver would have been asked again; others are not touched.
          by_cases hother : other = name
          · subst hother
            have hsame (facts : ClassFacts) : ({ db with
                supers := (other, above) :: db.supers } : Database).fact? other ≠
                some (.known facts) := hfact facts
            rw [hparent, Database.parent?_of_unknown hsame]
            simp
          · have hbeq : (other == name) = false := by simpa using hother
            unfold Database.parent?
            simp only [List.lookup_cons, hbeq]
            rfl
        · show db.reach ≤ db.facts.length + (db.supers.length + 1) + db.resolver.names.length + 1
          unfold Database.reach
          omega
      · rename_i hnone
        rw [hnone] at hparent
        exact ⟨hparent.symm, .refl db⟩

/-- The walk up from a class finds its line and changes none. -/
theorem ancestors_spec (n : Nat) (name : String) (db : Database) :
    ((ancestors n name).run db).1 = lineage db.parent? n name ∧
      db.Keeps ((ancestors n name).run db).2 := by
  induction n generalizing name db with
  | zero => exact ⟨rfl, .refl db⟩
  | succ n ih =>
    rw [ancestors, lineage]
    by_cases hroot : name = Names.object
    · rw [if_pos hroot, if_pos hroot]
      exact ⟨rfl, .refl db⟩
    · rw [if_neg hroot, if_neg hroot]
      obtain ⟨hparent, hkeeps⟩ := superOf_spec db name
      rcases hrun : (superOf name).run db with ⟨answer, db₁⟩
      rw [hrun] at hparent hkeeps
      rw [run_bind_of_eq hrun, ← hparent]
      rcases answer with _ | above
      · exact ⟨rfl, hkeeps.trans (.log db₁ .warning (.noAncestor name))⟩
      · obtain ⟨hrest, hkeeps'⟩ := ih above db₁
        rw [hkeeps.parent] at hrest
        rw [Option.bind_some, ← hrest]
        exact ⟨rfl, hkeeps.trans hkeeps'⟩

/-- What two lists have in common at their start is the start of the first. -/
theorem commonStart_prefix_left {α : Type} [DecidableEq α] (as bs : List α) :
    commonStart as bs <+: as := by
  induction as generalizing bs with
  | nil => cases bs <;> exact List.nil_prefix
  | cons a as ih =>
    cases bs with
    | nil => exact List.nil_prefix
    | cons b bs =>
      rw [commonStart]
      split
      · exact List.cons_prefix_cons.2 ⟨rfl, ih bs⟩
      · exact List.nil_prefix

theorem commonStart_comm {α : Type} [DecidableEq α] (as bs : List α) :
    commonStart as bs = commonStart bs as := by
  induction as generalizing bs with
  | nil => cases bs <;> rfl
  | cons a as ih =>
    cases bs with
    | nil => rfl
    | cons b bs =>
      rw [commonStart, commonStart, ih bs]
      by_cases hab : a = b
      · rw [if_pos hab, if_pos hab.symm, hab]
      · rw [if_neg hab, if_neg (Ne.symm hab)]

/-- It is the longest such start. -/
theorem prefix_commonStart {α : Type} [DecidableEq α] {l as bs : List α} (has : l <+: as)
    (hbs : l <+: bs) : l <+: commonStart as bs := by
  induction l generalizing as bs with
  | nil => exact List.nil_prefix
  | cons x l ih =>
    obtain ⟨as, rfl, hrest⟩ := List.cons_prefix_iff.1 has
    obtain ⟨bs, rfl, hrest'⟩ := List.cons_prefix_iff.1 hbs
    rw [commonStart, if_pos rfl]
    exact List.cons_prefix_cons.2 ⟨rfl, ih hrest hrest'⟩

/-- Two lines go on together from the class where they meet. -/
theorem append_of_meeting {as bs : List String} {c : String}
    (hc : (commonStart as.reverse bs.reverse).getLast? = some c) : ∃ pre rest,
      as = pre ++ c :: rest ∧ commonStart as.reverse bs.reverse = (c :: rest).reverse := by
  obtain ⟨init, hinit⟩ := List.getLast?_eq_some_iff.1 hc
  obtain ⟨post, hpost⟩ := commonStart_prefix_left as.reverse bs.reverse
  refine ⟨post.reverse, init.reverse, ?_, ?_⟩
  · rw [← List.reverse_inj, ← hpost, hinit]
    simp
  · rw [hinit]
    simp

/-- If the line of a class on a line is the rest of that line, then what two lines have in common is the
line of the class where they meet. -/
theorem mem_of_meeting (line : String → List String)
    (hrest : ∀ {s t pre post}, line s = pre ++ t :: post → line t = t :: post) {a b c : String}
    (hc : (commonStart (line a).reverse (line b).reverse).getLast? = some c) (x : String) :
    x ∈ line c ↔ x ∈ line a ∧ x ∈ line b := by
  obtain ⟨pre, rest, heq, hcommon⟩ := append_of_meeting hc
  have hmem : x ∈ line c ↔ x ∈ commonStart (line a).reverse (line b).reverse := by
    rw [hrest heq, hcommon, List.mem_reverse]
  rw [hmem]
  constructor
  · intro hx
    have hx' : x ∈ commonStart (line b).reverse (line a).reverse := by rwa [commonStart_comm]
    exact ⟨List.mem_reverse.1 ((commonStart_prefix_left _ _).subset hx),
      List.mem_reverse.1 ((commonStart_prefix_left _ _).subset hx')⟩
  · rintro ⟨ha, hb⟩
    -- From `x` on the two lines are the same.
    obtain ⟨pre, post, heq⟩ := List.append_of_mem ha
    obtain ⟨pre', post', heq'⟩ := List.append_of_mem hb
    cases (hrest heq).symm.trans (hrest heq')
    have hprefix : (x :: post).reverse <+: commonStart (line a).reverse (line b).reverse := by
      apply prefix_commonStart
      · rw [heq, List.reverse_append]
        exact List.prefix_append _ _
      · rw [heq', List.reverse_append]
        exact List.prefix_append _ _
    exact hprefix.subset (List.mem_reverse.2 List.mem_cons_self)

/-- A class is found by walking up the lines of both classes, and no line is changed by that. -/
theorem commonSuper_answer (db : Database) (a b : String) :
    ((commonSuper a b).run db).1 = ((db.ancestry a).bind fun as =>
        (db.ancestry b).bind fun bs => (commonStart as.reverse bs.reverse).getLast?) ∧
      db.Keeps ((commonSuper a b).run db).2 := by
  obtain ⟨hline, hkeeps⟩ := ancestors_spec db.reach a db
  unfold commonSuper
  rw [run_bind_of_eq (show (get : Inquiry Database).run db = (db, db) from rfl)]
  rcases ha : (ancestors db.reach a).run db with ⟨answer, db₁⟩
  rw [ha] at hline hkeeps
  rw [run_bind_of_eq ha, show db.ancestry a = answer from hline.symm]
  rcases answer with _ | as
  · exact ⟨rfl, hkeeps⟩
  obtain ⟨hline', hkeeps'⟩ := ancestors_spec db₁.reach b db₁
  dsimp only
  rw [run_bind_of_eq (show (get : Inquiry Database).run db₁ = (db₁, db₁) from rfl)]
  rcases hb : (ancestors db₁.reach b).run db₁ with ⟨answer', db₂⟩
  rw [hb] at hline' hkeeps'
  rw [run_bind_of_eq hb, ← hkeeps.ancestry, show db₁.ancestry b = answer' from hline'.symm]
  rcases answer' with _ | bs
  · exact ⟨rfl, hkeeps.trans hkeeps'⟩
  · exact ⟨rfl, hkeeps.trans hkeeps'⟩

/-- Where two classes meet, the line is shorter than that of the first, unless they meet in the
first. -/
theorem commonSuper_spec {db₀ : Database} (h : db₀.Keeps db) (a b : String) :
    db₀.Keeps ((commonSuper a b).run db).2 ∧ ∀ c, ((commonSuper a b).run db).1 = some c →
      c = a ∨ db₀.depth c < db₀.depth a := by
  obtain ⟨hanswer, hkeeps⟩ := commonSuper_answer db a b
  refine ⟨h.trans hkeeps, fun c hc => ?_⟩
  rw [hanswer] at hc
  obtain ⟨as, has, hc⟩ := Option.bind_eq_some_iff.1 hc
  obtain ⟨bs, -, hc⟩ := Option.bind_eq_some_iff.1 hc
  -- The line of `a` is the one of `c` with some classes in front of it.
  obtain ⟨pre, rest, rfl, -⟩ := append_of_meeting hc
  obtain ⟨k, hk⟩ := lineage_of_append has
  have hc' : db.ancestry c = some (c :: rest) :=
    lineage_of_length_le hk (Database.length_lineage_le hk)
  unfold Database.depth
  rw [← h.ancestry, hc', has]
  rcases pre with _ | ⟨first, pre⟩
  · obtain ⟨tail, htail⟩ := exists_cons_of_lineage has
    cases htail
    exact .inl rfl
  · right
    simp only [Option.elim_some, List.length_append, List.length_cons]
    omega

end Inquiry

end Resumable
