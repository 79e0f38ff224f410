import Resumable.Proofs.Binary.RoundTrip

/-!
# What a reader accepts

`Takes` says that a reader takes what its writer has put down. This is the other direction: of all
bytes, which does a reader make a value of?

    Accepts read grammar

says that whatever the reader takes off the front belongs to the value by the grammar. Most parts of
a class file have one form, so the grammar is an equation with what the writer puts down. Where
there is more than one form, `Spells` says that there are as many bytes as the writer would put
down, and when they are the same.
-/

namespace Resumable.Binary

variable {ε α β : Type}

/-- Whatever the reader takes off the front, and makes a value of, belongs to the value. -/
def Accepts (read : ExceptT ε (StateM Cursor) α) (grammar : List UInt8 → α → Prop) : Prop :=
  ∀ c c' a, read.run.run c = (.ok a, c') → ∃ bytes, c.rest = bytes ++ c'.rest ∧
    c'.position = c.position + bytes.length ∧ grammar bytes a

/-- A reading with two parts has read both. -/
theorem exists_of_run_bind {read : ExceptT ε (StateM Cursor) α}
    {k : α → ExceptT ε (StateM Cursor) β} {c c'' : Cursor} {b : β}
    (h : (read >>= k).run.run c = (.ok b, c'')) :
    ∃ a c', read.run.run c = (.ok a, c') ∧ (k a).run.run c' = (.ok b, c'') := by
  rw [ExceptT.run_bind, StateT.run_bind] at h
  rcases hread : read.run.run c with ⟨_ | a, c'⟩ <;> rw [hread] at h
  · cases h
  · exact ⟨a, c', rfl, h⟩

namespace Accepts

variable {read : ExceptT ε (StateM Cursor) α} {G : List UInt8 → α → Prop}
  {H : List UInt8 → β → Prop} {a : α}

theorem pure (h : G [] a) : Accepts (Pure.pure a : ExceptT ε (StateM Cursor) α) G := by
  intro c c' b hrun
  cases hrun
  exact ⟨[], rfl, rfl, h⟩

theorem throw (e : ε) : Accepts (throw e : ExceptT ε (StateM Cursor) α) G := by
  intro c c' a hrun
  cases hrun

/-- One reading after the other. -/
theorem bind {k : α → ExceptT ε (StateM Cursor) β} (h : Accepts read G)
    (h' : ∀ a x, G x a → Accepts (k a) fun y b => H (x ++ y) b) : Accepts (read >>= k) H := by
  intro c c'' b hrun
  obtain ⟨a, c', hread, hrun⟩ := exists_of_run_bind hrun
  obtain ⟨x, hx, hpos, hG⟩ := h c c' a hread
  obtain ⟨y, hy, hpos', hH⟩ := h' a x hG c' c'' b hrun
  refine ⟨x ++ y, by rw [hx, hy, List.append_assoc], ?_, hH⟩
  rw [hpos', hpos, List.length_append, Nat.add_assoc]

theorem mono {G' : List UInt8 → α → Prop} (h : Accepts read G) (himp : ∀ x a, G x a → G' x a) :
    Accepts read G' := by
  intro c c' a hrun
  obtain ⟨x, hx, hpos, hG⟩ := h c c' a hrun
  exact ⟨x, hx, hpos, himp x a hG⟩

/-- The last reading is followed by one that takes nothing. -/
theorem bind_pure {f : α → β} (h : Accepts read fun x a => H x (f a)) :
    Accepts (read >>= fun a => Pure.pure (f a)) H :=
  h.bind fun a x hH => .pure (by rwa [List.append_nil])

theorem map {f : α → β} (h : Accepts read fun x a => H x (f a)) : Accepts (f <$> read) H := by
  rw [map_eq_pure_bind]
  exact h.bind_pure

end Accepts

/-! ## Forms -/

/-- The bytes are as many as those that are written, and the same just if `clean` holds. -/
structure Spells (bytes written : List UInt8) (clean : Prop) : Prop where
  length : bytes.length = written.length
  eq_iff : bytes = written ↔ clean

namespace Spells

variable {x x' w w' : List UInt8} {p q : Prop}

theorem self (w : List UInt8) : Spells w w True := ⟨rfl, by simp⟩

theorem eq (h : Spells x w p) (hp : p) : x = w := h.eq_iff.2 hp

theorem append (h : Spells x w p) (h' : Spells x' w' q) : Spells (x ++ x') (w ++ w') (p ∧ q) where
  length := by rw [List.length_append, List.length_append, h.length, h'.length]
  eq_iff := by
    constructor
    · intro heq
      obtain ⟨hx, hx'⟩ := List.append_inj heq h.length
      exact ⟨h.eq_iff.1 hx, h'.eq_iff.1 hx'⟩
    · rintro ⟨hp, hq⟩
      rw [h.eq hp, h'.eq hq]

theorem congr (h : Spells x w p) (hpq : p ↔ q) : Spells x w q := ⟨h.length, h.eq_iff.trans hpq⟩

/-- What is in front has one form. -/
theorem behind (front : List UInt8) (h : Spells x w p) : Spells (front ++ x) (front ++ w) p :=
  ((self front).append h).congr (by simp)

end Spells

namespace Reader

/-! ## Numbers and texts -/

theorem accepts_take (count : Nat) :
    Accepts (take count) fun x bytes => x = bytes ∧ bytes.length = count := by
  intro c c' bytes hrun
  rw [run_take] at hrun
  split at hrun
  · next hlength =>
    cases hrun
    exact ⟨_, (List.take_append_drop count c.rest).symm, by rw [hlength], rfl, hlength⟩
  · cases hrun

theorem accepts_number (w : Nat) :
    Accepts (number w) fun x n => x = toBytes w n ∧ n < Nat.pow 256 w := by
  refine (Accepts.mono (accepts_take w) ?_).map
  rintro x _ ⟨rfl, rfl⟩
  exact ⟨(toBytes_ofBytes x).symm, ofBytes_lt x⟩

theorem accepts_length : Accepts (number 4) fun x n => x = ofLength n ∧ Fits n := accepts_number 4

theorem accepts_uint8 : Accepts uint8 fun x v => x = [v] := by
  refine (Accepts.mono (accepts_number 1) ?_).map
  rintro _ n ⟨rfl, -⟩
  simp [toBytes]

theorem accepts_uint16 : Accepts uint16 fun x v => x = ofUInt16 v := by
  refine (Accepts.mono (accepts_number 2) ?_).map
  rintro _ n ⟨rfl, hn⟩
  rw [ofUInt16, UInt16.toNat_ofNat_of_lt' hn]

theorem accepts_uint32 : Accepts uint32 fun x v => x = ofUInt32 v := by
  refine (Accepts.mono (accepts_number 4) ?_).map
  rintro _ n ⟨rfl, hn⟩
  rw [ofUInt32, UInt32.toNat_ofNat_of_lt' hn]

theorem accepts_uint64 : Accepts uint64 fun x v => x = ofUInt64 v := by
  refine (Accepts.mono (accepts_number 8) ?_).map
  rintro _ n ⟨rfl, hn⟩
  rw [ofUInt64, UInt64.toNat_ofNat_of_lt' hn]

theorem accepts_int32 : Accepts int32 fun x v => x = ofInt32 v := by
  refine (Accepts.mono accepts_uint32 ?_).map
  rintro _ v rfl
  rfl

theorem accepts_int64 : Accepts int64 fun x v => x = ofInt64 v := by
  refine (Accepts.mono accepts_uint64 ?_).map
  rintro _ v rfl
  rfl

theorem accepts_label : Accepts label fun x l => x = ofUInt32 l.id :=
  Accepts.map (f := Label.mk) accepts_uint32

theorem accepts_position {k : Nat → Reader α} {G : List UInt8 → α → Prop}
    (h : ∀ start, Accepts (k start) G) : Accepts (position >>= k) G :=
  fun c c' a hrun => h c.position c c' a hrun

theorem utf8_of_fromUTF8? {bytes : List UInt8} {s : String}
    (h : String.fromUTF8? ⟨bytes.toArray⟩ = some s) : utf8 s = bytes := by
  unfold String.fromUTF8? at h
  split at h
  · cases h
    rfl
  · cases h

theorem accepts_string : Accepts string fun x s => x = ofString s ∧ FitsText s := by
  refine accepts_length.bind fun length _ hlength => accepts_position fun start => ?_
  obtain ⟨rfl, hfits⟩ := hlength
  refine (accepts_take length).bind fun bytes _ hbytes => ?_
  obtain ⟨rfl, rfl⟩ := hbytes
  split
  · next s hs =>
    have hutf8 := utf8_of_fromUTF8? hs
    refine .pure ⟨?_, ?_⟩
    · rw [List.append_nil, ofString, hutf8]
    · rwa [FitsText, hutf8]
  · exact .throw _

/-! ## Lists -/

section Lists

variable {read : Reader α} {write : α → List UInt8} {clean P : α → Prop}

theorem accepts_times (count : Nat)
    (h : Accepts read fun x a => Spells x (write a) (clean a) ∧ P a) :
    Accepts (times count read) fun x items =>
      items.length = count ∧ Spells x (items.flatMap write) (∀ a ∈ items, clean a) ∧
        ∀ a ∈ items, P a := by
  induction count with
  | zero => exact .pure ⟨rfl, (Spells.self []).congr (by simp), by simp⟩
  | succ count ih =>
    refine h.bind fun a x hx => (Accepts.mono ih ?_).bind_pure
    rintro y items ⟨rfl, hy, hP⟩
    refine ⟨rfl, ?_, List.forall_mem_cons.2 ⟨hx.2, hP⟩⟩
    exact (hx.1.append hy).congr List.forall_mem_cons.symm

theorem accepts_list (h : Accepts read fun x a => Spells x (write a) (clean a) ∧ P a) :
    Accepts (list read) fun x items =>
      Spells x (ofList write items) (∀ a ∈ items, clean a) ∧ FitsList P items := by
  refine accepts_length.bind fun count _ hcount => (accepts_times count h).mono ?_
  obtain ⟨rfl, hfits⟩ := hcount
  rintro x items ⟨rfl, hx, hP⟩
  exact ⟨hx.behind _, hfits, hP⟩

/-- A list of items, each of which comes with something to be kept of it. -/
theorem accepts_list_kept {κ : Type} {read : Reader (α × κ)} {clean : κ → Prop}
    (h : Accepts read fun x p => Spells x (write p.1) (clean p.2) ∧ P p.1) :
    Accepts (list read) fun x items =>
      Spells x (ofList write (items.map (·.1))) (∀ kept ∈ items.map (·.2), clean kept) ∧
        FitsList P (items.map (·.1)) := by
  have hlist : Accepts (list read) fun x items =>
      Spells x (ofList (write ·.1) items) (∀ p ∈ items, clean p.2) ∧
        FitsList (P ·.1) items := accepts_list h
  refine hlist.mono ?_
  rintro x items ⟨hx, hfits⟩
  have hbytes : ofList (write ·.1) items = ofList write (items.map (·.1)) := by
    simp [ofList, List.flatMap_map]
  exact ⟨hbytes ▸ hx.congr List.forall_mem_map.symm, by simpa using hfits.1, by simpa using hfits.2⟩

/-- A list of items that have one form each has one form. -/
theorem accepts_list_of_eq (h : Accepts read fun x a => x = write a ∧ P a) :
    Accepts (list read) fun x items => x = ofList write items ∧ FitsList P items := by
  have hspells : Accepts read fun x a => Spells x (write a) True ∧ P a := by
    refine h.mono ?_
    rintro x a ⟨rfl, hP⟩
    exact ⟨.self _, hP⟩
  refine (accepts_list hspells).mono fun x items hx => ⟨hx.1.eq fun _ _ => trivial, hx.2⟩

end Lists

end Reader

end Resumable.Binary
