import Resumable.Proofs.Instrument.Layout

/-!
# The locals of a body

While a body is written, an account is kept of the locals that are added. The number of locals of the
body is what the account says in the end, so it has to say enough for everything written before: the
account never shrinks, and what has been written fits into the locals of the method and those on the
account (`Fits`).
-/

namespace Resumable

namespace Analysed

variable {a : Analysed} {plan : MethodPlan} {omitted : List Nat} {account account' : Account}
  {index : Nat}

/-- Every local that the code names is among the first `count`. -/
def Fits (count : Nat) (code : List Instr) : Prop :=
  ∀ i ∈ code, ∀ index, i.localIndex? = some index → index.toNat < count

namespace Fits

variable {count count' : Nat} {code code' : List Instr} {i : Instr}

theorem nil (count : Nat) : Fits count [] := by
  intro i hi
  cases hi

theorem append (h : Fits count code) (h' : Fits count code') : Fits count (code ++ code') :=
  fun i hi => (List.mem_append.1 hi).elim (h i) (h' i)

theorem mono (h : Fits count code) (hle : count ≤ count') : Fits count' code :=
  fun i hi index hindex => Nat.lt_of_lt_of_le (h i hi index hindex) hle

end Fits

/-- The code has been written for an account that has room for it. -/
structure Entered (a : Analysed) (account : Account) (code : List Instr) (account' : Account) :
    Prop where
  grows : account.extraLocals ≤ account'.extraLocals
  fits : Fits (a.method.maxLocals.toNat + account'.extraLocals) code

theorem Entered.append {account₁ : Account} {code code' : List Instr}
    (h : a.Entered account code account₁) (h' : a.Entered account₁ code' account') :
    a.Entered account (code ++ code') account' :=
  ⟨Nat.le_trans h.grows h'.grows,
    (h.fits.mono (Nat.add_le_add_left h'.grows _)).append h'.fits⟩

/-- Code that needs no room can be entered anywhere. -/
theorem Entered.of_fits {code : List Instr} (h : Fits a.method.maxLocals.toNat code)
    (account : Account) : a.Entered account code account :=
  ⟨Nat.le_refl _, h.mono (Nat.le_add_right _ _)⟩

/-- The account is raised to what an allocation needs for the arguments. -/
theorem entered_of_deferredAllocation {desc : String} {front : List Instr}
    (h : Accounts (a.deferredAllocation omitted index desc) account front account') :
    a.Entered account front account' := by
  rcases deferredAllocation_cases h with ⟨rfl, rfl, -⟩ |
    ⟨f, type, copy, name, alloc, insn, rest, -, -, hdrop, -, hroom, rfl, rfl⟩
  · exact .of_fits (.nil _) _
  · have hlen := length_argumentKinds hdrop
    refine ⟨Nat.le_max_left _ _, fun i hi index hindex => ?_⟩
    obtain ⟨-, hlt⟩ := localIndex?_allocationCode (by rwa [hlen]) hi hindex
    rw [hlen] at hlt
    exact Nat.lt_of_lt_of_le hlt (Nat.add_le_add_left (Nat.le_max_right _ _) _)

theorem entered_of_leadIn {i : Instr} {front : List Instr}
    (h : Accounts (a.leadIn omitted index i) account front account') :
    a.Entered account front account' := by
  have hnothing {account : Account} : a.Entered account [] account := .of_fits (.nil _) account
  unfold leadIn at h
  split at h
  · split at h
    · obtain ⟨rfl, rfl⟩ := h.pure
      refine .of_fits (fun i hi index hindex => ?_) _
      rw [List.mem_singleton.1 hi] at hindex
      cases hindex
    · split at h
      · obtain ⟨db, account₁, hdb, h₁⟩ := h.bind
        have hsame : account₁ = account := by
          obtain ⟨db₁, db₁', hdb⟩ := hdb
          cases hdb
          rfl
        subst hsame
        split at h₁
        · obtain ⟨_, _, hthrow, -⟩ := h₁.bind
          exact (Accounts.not_throw hthrow).elim
        · obtain ⟨account₂, account₃, hget, h₂⟩ := h₁.bind
          obtain ⟨rfl, rfl⟩ := hget.get
          split at h₂
          · obtain ⟨_, account₄, hwarned, h₃⟩ := h₂.bind
            obtain ⟨_, account₅, hnotice, h₄⟩ := h₃.bind
            obtain ⟨rfl, rfl⟩ := h₄.pure
            obtain rfl := hnotice.notice
            obtain ⟨db₂, db₂', hwarned⟩ := hwarned
            cases hwarned
            exact ⟨Nat.le_refl _, .nil _⟩
          · obtain ⟨rfl, rfl⟩ := h₂.pure
            exact hnothing
      · obtain ⟨rfl, rfl⟩ := h.pure
        exact hnothing
  · split at h
    · exact entered_of_deferredAllocation h
    · obtain ⟨rfl, rfl⟩ := h.pure
      exact hnothing
  · obtain ⟨rfl, rfl⟩ := h.pure
    exact hnothing

/-- A segment needs no more room than its instructions and what leads to them. -/
theorem entered_of_segment {xs : List (Instr × Nat)} {out : List Instr}
    (hxs : Fits a.method.maxLocals.toNat (xs.map Prod.fst))
    (h : Accounts (a.segment omitted xs) account out account') :
    a.Entered account out account' := by
  induction xs generalizing account out with
  | nil =>
    rw [segment] at h
    obtain ⟨rfl, rfl⟩ := h.pure
    exact .of_fits (.nil _) _
  | cons x xs ih =>
    obtain ⟨i, index⟩ := x
    have hfirst : Fits a.method.maxLocals.toNat [i] := fun i' hi' =>
      hxs i' (by rw [List.mem_singleton.1 hi']; exact List.mem_cons_self)
    have hrest : Fits a.method.maxLocals.toNat (xs.map Prod.fst) := fun i' hi' =>
      hxs i' (List.mem_cons_of_mem _ hi')
    rw [segment] at h
    split at h
    · exact ih hrest h
    · obtain ⟨front, account₁, hfront, h₁⟩ := h.bind
      obtain ⟨tail, account₂, htail, h₂⟩ := h₁.bind
      obtain ⟨rfl, rfl⟩ := h₂.pure
      have hone := (entered_of_leadIn hfront).append (.of_fits hfirst account₁)
      rw [List.append_cons]
      exact hone.append (ih hrest htail)

theorem fits_stretch {p : SuspensionPoint} {count : Nat} {entry : UInt32}
    {before resume after : Label} (hp : ∀ x ∈ p.locals, x.1.toNat < count) :
    Fits count (p.stretch entry before resume after) := by
  intro i hi index hindex
  unfold SuspensionPoint.stretch SuspensionPoint.saveCode SuspensionPoint.restoreCode at hi
  simp only [List.cons_append, List.append_assoc, List.mem_cons, List.mem_append, List.mem_flatMap,
    List.not_mem_nil, or_false] at hi
  rcases hi with rfl | rfl | ⟨action, -, hi⟩ | ⟨⟨local', action⟩, hmem, hi⟩ | hi | rfl |
    ⟨⟨local', action⟩, hmem, hi⟩ | ⟨action, -, hi⟩ | rfl
  · cases hindex
  · cases hindex
  · cases action <;> simp at hi <;> subst hi <;> cases hindex
  · cases action <;> simp at hi
    rcases hi with rfl | rfl
    · cases hindex
      exact hp _ hmem
    · cases hindex
  · split at hi
    · rw [List.mem_singleton.1 hi] at hindex
      cases hindex
    · cases hi
  · cases hindex
  · cases action <;> simp at hi
    all_goals
      rcases hi with rfl | rfl
      · cases hindex
      · cases hindex
        exact hp _ hmem
  · cases action <;> simp at hi <;> subst hi <;> cases hindex
  · cases hindex

/-- So do the points with what follows each of them. -/
theorem entered_of_pointsCode {entry : Nat} {points : List SuspensionPoint}
    {resumes befores afters : List Label} {out : List Instr}
    (hcode : Fits a.method.maxLocals.toNat a.method.code)
    (hpoints : ∀ p ∈ points, ∀ x ∈ p.locals, x.1.toNat < a.method.maxLocals.toNat)
    (h : Accounts (a.pointsCode omitted entry points resumes befores afters) account out account') :
    a.Entered account out account' := by
  have hslice (start stop : Nat) :
      Fits a.method.maxLocals.toNat ((a.slice start stop).map Prod.fst) := by
    intro i hi
    obtain ⟨x, hx, rfl⟩ := List.mem_map.1 hi
    exact hcode _ (List.mem_of_getElem? (mem_slice hx).1)
  induction points generalizing entry resumes befores afters account out with
  | nil =>
    rw [pointsCode] at h
    · obtain ⟨rfl, rfl⟩ := h.pure
      exact .of_fits (.nil _) _
    · simp
  | cons p points ih =>
    unfold pointsCode at h
    split at h
    · rename_i heq
      obtain ⟨rfl, rfl⟩ := List.cons.inj heq
      obtain ⟨tail, account₁, htail, h₁⟩ := h.bind
      obtain ⟨more, account₂, hmore, h₂⟩ := h₁.bind
      obtain ⟨rfl, rfl⟩ := h₂.pure
      have hmore := ih (fun q hq => hpoints q (List.mem_cons_of_mem _ hq)) hmore
      refine Entered.append (Entered.append (.of_fits ?_ account) ?_) hmore
      · exact fits_stretch (hpoints p List.mem_cons_self)
      · exact entered_of_segment (hslice _ _) htail
    · obtain ⟨rfl, rfl⟩ := h.pure
      exact .of_fits (.nil _) _

/-! ## What leads to instructions -/

/-- What leads to the instruction has been written, and the account has not shrunk since. -/
def LedTo (a : Analysed) (omitted : List Nat) (account : Account) (x : Instr × Nat) : Prop :=
  ∃ account₁ front account₂, Accounts (a.leadIn omitted x.2 x.1) account₁ front account₂ ∧
    account₂.extraLocals ≤ account.extraLocals

theorem LedTo.mono {x : Instr × Nat} (h : a.LedTo omitted account x)
    (hle : account.extraLocals ≤ account'.extraLocals) : a.LedTo omitted account' x := by
  obtain ⟨account₁, front, account₂, hfront, hgrows⟩ := h
  exact ⟨account₁, front, account₂, hfront, Nat.le_trans hgrows hle⟩

/-- In a segment this holds of all instructions that are not left out. -/
theorem ledTo_of_segment {xs : List (Instr × Nat)} {out : List Instr}
    (h : Accounts (a.segment omitted xs) account out account') :
    account.extraLocals ≤ account'.extraLocals ∧
      ∀ x ∈ xs, omitted.contains x.2 = false → a.LedTo omitted account' x := by
  induction xs generalizing account out with
  | nil =>
    rw [segment] at h
    obtain ⟨-, rfl⟩ := h.pure
    exact ⟨Nat.le_refl _, List.forall_mem_nil _⟩
  | cons x xs ih =>
    obtain ⟨i, index⟩ := x
    rw [segment] at h
    split at h
    · rename_i hout
      obtain ⟨hgrows, hled⟩ := ih h
      refine ⟨hgrows, fun x hx hin => ?_⟩
      rcases List.mem_cons.1 hx with rfl | hx
      · rw [hout] at hin
        cases hin
      · exact hled x hx hin
    · obtain ⟨front, account₁, hfront, h₁⟩ := h.bind
      obtain ⟨tail, account₂, htail, h₂⟩ := h₁.bind
      obtain ⟨-, rfl⟩ := h₂.pure
      obtain ⟨hgrows, hled⟩ := ih htail
      refine ⟨Nat.le_trans (entered_of_leadIn hfront).grows hgrows, fun x hx hin => ?_⟩
      rcases List.mem_cons.1 hx with rfl | hx
      · exact ⟨account, front, account₁, hfront, hgrows⟩
      · exact hled x hx hin

/-- From the first of some points on, it holds of all but the suspend calls. -/
theorem ledTo_of_pointsCode {entry : Nat} {points : List SuspensionPoint}
    {resumes befores afters : List Label} {out : List Instr}
    (hresumes : points.length ≤ resumes.length) (hbefores : points.length ≤ befores.length)
    (hafters : points.length ≤ afters.length)
    (h : Accounts (a.pointsCode omitted entry points resumes befores afters) account out account') :
    account.extraLocals ≤ account'.extraLocals ∧ ∀ x : Instr × Nat,
      a.method.code[x.2]? = some x.1 → a.nextIndex points ≤ x.2 →
      (∀ p ∈ points, p.index = x.2 → p.isYield = false) → omitted.contains x.2 = false →
      a.LedTo omitted account' x := by
  induction points generalizing entry resumes befores afters account out with
  | nil =>
    rw [pointsCode] at h
    · obtain ⟨-, rfl⟩ := h.pure
      refine ⟨Nat.le_refl _, fun x hx hbehind => ?_⟩
      have hlt := (List.getElem?_eq_some_iff.1 hx).1
      exact absurd hlt (Nat.not_lt.2 hbehind)
    · simp
  | cons p points ih =>
    obtain ⟨resume, resumes, rfl⟩ := List.exists_cons_of_length_pos (Nat.zero_lt_of_lt hresumes)
    obtain ⟨before, befores, rfl⟩ := List.exists_cons_of_length_pos (Nat.zero_lt_of_lt hbefores)
    obtain ⟨after, afters, rfl⟩ := List.exists_cons_of_length_pos (Nat.zero_lt_of_lt hafters)
    unfold pointsCode at h
    obtain ⟨tail, account₁, htail, h₁⟩ := h.bind
    obtain ⟨more, account₂, hmore, h₂⟩ := h₁.bind
    obtain ⟨-, rfl⟩ := h₂.pure
    replace htail : Accounts (a.segment omitted
        (a.slice (p.index + if p.isYield then 1 else 0) (a.nextIndex points))) account tail
        account₁ := by
      cases points <;> exact htail
    obtain ⟨hgrows, hled⟩ := ledTo_of_segment htail
    obtain ⟨hgrows', hled'⟩ := ih (Nat.le_of_succ_le_succ hresumes)
      (Nat.le_of_succ_le_succ hbefores) (Nat.le_of_succ_le_succ hafters) hmore
    refine ⟨Nat.le_trans hgrows hgrows', fun x hx hbehind hyield hin => ?_⟩
    by_cases hnext : a.nextIndex points ≤ x.2
    · exact hled' x hx hnext (fun q hq => hyield q (List.mem_cons_of_mem _ hq)) hin
    · replace hbehind : p.index ≤ x.2 := hbehind
      have hstart : (p.index + if p.isYield then 1 else 0) ≤ x.2 := by
        split
        · rename_i his
          have hne : p.index ≠ x.2 := fun heq => by
            rw [hyield p List.mem_cons_self heq] at his
            cases his
          omega
        · omega
      exact (hled x (mem_slice_of hx hstart (Nat.lt_of_not_le hnext)) hin).mono hgrows'

/-! ## Handlers -/

/-- Nothing is put on the account. -/
def Still {α : Type} (x : Writing α) : Prop :=
  ∀ account r account', Accounts x account r account' → account' = account

theorem Still.bind {α β : Type} {x : Writing α} {k : α → Writing β} (hx : Still x)
    (hk : ∀ r, Still (k r)) : Still (x >>= k) := by
  intro account r account' h
  obtain ⟨_, account₁, hfirst, hrest⟩ := h.bind
  rw [hk _ _ _ _ hrest, hx _ _ _ hfirst]

theorem Still.pure {α : Type} (r : α) : Still (Pure.pure r : Writing α) :=
  fun _ _ _ h => h.pure.2

theorem Still.mapM {α β : Type} {f : α → Writing β} (hf : ∀ a, Still (f a)) (as : List α) :
    Still (as.mapM f) := by
  induction as with
  | nil =>
    rw [List.mapM_nil]
    exact .pure _
  | cons a as ih =>
    rw [List.mapM_cons]
    exact (hf a).bind fun _ => ih.bind fun _ => .pure _

theorem still_cutRange {code : List Instr} {before after : Label} {range : Label × Label} :
    Still (a.cutRange code before after range) := by
  have hposition (l : Label) : Still (a.cutPlace code l) := by
    unfold cutPlace
    split
    · exact .pure _
    · exact fun _ _ _ h => (Accounts.not_throw h).elim
  unfold cutRange
  refine (hposition _).bind fun first => (hposition _).bind fun last => ?_
  refine (hposition _).bind fun start => ?_
  split
  · refine (hposition _).bind fun stop => ?_
    split
    · exact Still.bind (fun _ _ _ => Accounts.notice) fun _ => .pure _
    · exact .pure _
  · exact .pure _

theorem still_cutRanges {code : List Instr} {stretches ranges : List (Label × Label)} :
    Still (a.cutRanges code stretches ranges) := by
  induction stretches generalizing ranges with
  | nil =>
    rw [cutRanges]
    exact .pure _
  | cons stretch stretches ih =>
    obtain ⟨before, after⟩ := stretch
    rw [cutRanges]
    exact (Still.mapM (fun _ => still_cutRange) _).bind fun _ => ih

theorem still_cutHandlers {code : List Instr} {labels : BodyLabels} :
    Still (a.cutHandlers code labels) := by
  unfold cutHandlers
  exact (Still.mapM (fun _ => still_cutRanges.bind fun _ => .pure _) _).bind fun _ => .pure _

/-- A transformed body has room for what leads to the instructions that it repeats. -/
theorem room_of_transformed {first : SuspensionPoint} {rest : List SuspensionPoint} {m : Method}
    {x : Instr × Nat} (hpoints : plan.points = first :: rest)
    (h : Accounts (a.transformed plan first) account m account')
    (hx : a.method.code[x.2]? = some x.1)
    (hyield : ∀ p ∈ plan.points, p.index = x.2 → p.isYield = false)
    (hin : plan.omitted.contains x.2 = false) :
    ∃ account₁ front account₂, Accounts (a.leadIn plan.omitted x.2 x.1) account₁ front account₂ ∧
      a.method.maxLocals.toNat + account₂.extraLocals ≤ m.maxLocals.toNat := by
  obtain ⟨front, points, cut, _, account₁, account₂, account₃, hfront, hpointsCode, hcut, hmax, hm⟩ :=
    transformed_cases h
  obtain ⟨-, hled⟩ := ledTo_of_segment hfront
  rw [Method.forMethod_eq] at hpointsCode
  obtain ⟨hgrows, hled'⟩ := ledTo_of_pointsCode (by simp) (by simp) (by simp) hpointsCode
  have hlast : a.LedTo plan.omitted account₃ x := by
    rw [still_cutHandlers _ _ _ hcut]
    by_cases hbefore : x.2 < first.index
    · exact (hled x (mem_slice_of hx (Nat.zero_le _) hbefore) hin).mono hgrows
    · refine hled' x hx ?_ hyield hin
      rw [hpoints]
      exact Nat.le_of_not_lt hbefore
  obtain ⟨account₄, lead, account₅, hlead, hle⟩ := hlast
  have hcount : m.maxLocals.toNat = a.method.maxLocals.toNat + account₃.extraLocals := by
    rw [hm]
    exact UInt16.toNat_ofNat_of_lt' hmax
  exact ⟨account₄, lead, account₅, hlead, by omega⟩

/-- **A transformed body has room for all of its locals.** -/
theorem fits_of_transformed {first : SuspensionPoint} {m : Method}
    (hcode : Fits a.method.maxLocals.toNat a.method.code)
    (hpoints : ∀ p ∈ plan.points, ∀ x ∈ p.locals, x.1.toNat < a.method.maxLocals.toNat)
    (h : Accounts (a.transformed plan first) account m account') :
    Fits m.maxLocals.toNat m.code := by
  obtain ⟨front, points, cut, _, account₁, account₂, account₃, hfront, hpointsCode, hcut, hmax, hm⟩ :=
    transformed_cases h
  have hslice : Fits a.method.maxLocals.toNat ((a.slice 0 first.index).map Prod.fst) := by
    intro i hi
    obtain ⟨x, hx, rfl⟩ := List.mem_map.1 hi
    exact hcode _ (List.mem_of_getElem? (mem_slice hx).1)
  have hfits := ((entered_of_segment hslice hfront).append
    (entered_of_pointsCode hcode hpoints hpointsCode)).fits
  rw [← still_cutHandlers _ _ _ hcut] at hfits
  have hends {code : List Instr} (hcode : code = a.head plan ∨ code = a.tail) (count : Nat) :
      Fits count code := by
    rintro i hi index hindex
    rcases hcode with rfl | rfl
    all_goals
      simp only [head, tail, List.mem_cons, List.not_mem_nil, or_false] at hi
      rcases hi with rfl | rfl | rfl | rfl | rfl <;> cases hindex
  rw [hm]
  show Fits (UInt16.ofNat _).toNat (a.head plan ++ front ++ points ++ a.tail)
  rw [UInt16.toNat_ofNat_of_lt' hmax, List.append_assoc (a.head plan)]
  exact ((hends (.inl rfl) _).append hfits).append (hends (.inr rfl) _)

end Analysed

end Resumable
