import Resumable.Binary.Code

/-!
# What a reader takes

A writer and a reader belong together if the reader takes exactly what the writer has put down,
whatever stands behind it:

    Takes read bytes a

The relation is closed under doing one reading after the other, so the reader of a record takes the
record once each of its parts is taken. Lengths are written with four bytes. Everything that is
written behind its length comes back if the length fits into them (`Fits`).
-/

namespace Resumable.Binary

variable {ε α β : Type}

/-- The length can be written with four bytes. -/
def Fits (length : Nat) : Prop := length < UInt32.size

instance (length : Nat) : Decidable (Fits length) := inferInstanceAs (Decidable (_ < _))

/-- The reader takes these bytes off the front, makes `a` of them, and leaves all that follows. -/
def Takes (read : ExceptT ε (StateM Cursor) α) (bytes : List UInt8) (a : α) : Prop :=
  ∀ position rest,
    read.run.run ⟨position, bytes ++ rest⟩ = (.ok a, ⟨position + bytes.length, rest⟩)

namespace Takes

variable {read : ExceptT ε (StateM Cursor) α} {bytes bytes' : List UInt8} {a : α} {b : β}

theorem pure (a : α) : Takes (Pure.pure a : ExceptT ε (StateM Cursor) α) [] a := fun _ _ => rfl

/-- What follows a reading goes on behind the bytes that it has taken. -/
theorem run_bind (h : Takes read bytes a) (k : α → ExceptT ε (StateM Cursor) β) (position : Nat)
    (rest : List UInt8) : (read >>= k).run.run ⟨position, bytes ++ rest⟩ =
      (k a).run.run ⟨position + bytes.length, rest⟩ := by
  rw [ExceptT.run_bind, StateT.run_bind, h position rest]
  rfl

/-- One reading after the other. -/
theorem bind {k : α → ExceptT ε (StateM Cursor) β} (h : Takes read bytes a)
    (h' : Takes (k a) bytes' b) : Takes (read >>= k) (bytes ++ bytes') b := by
  intro position rest
  rw [List.append_assoc, h.run_bind, h', List.length_append, Nat.add_assoc]

/-- The last reading is followed by one that takes nothing. -/
theorem bind_nil {k : α → ExceptT ε (StateM Cursor) β} (h : Takes read bytes a)
    (h' : Takes (k a) [] b) : Takes (read >>= k) bytes b := by
  have hboth := h.bind h'
  rwa [List.append_nil] at hboth

theorem bind_pure {f : α → β} (h : Takes read bytes a) :
    Takes (read >>= fun a => Pure.pure (f a)) bytes (f a) :=
  h.bind_nil (.pure (f a))

theorem map {f : α → β} (h : Takes read bytes a) : Takes (f <$> read) bytes (f a) := by
  rw [map_eq_pure_bind]
  exact h.bind_pure

end Takes

theorem run_get_bind (k : Cursor → ExceptT ε (StateM Cursor) α) (c : Cursor) :
    (get >>= k).run.run c = (k c).run.run c := rfl

namespace Reader

/-! ## Numbers and texts -/

theorem run_take (count : Nat) (c : Cursor) : (take count).run.run c =
    if (c.rest.take count).length = count then
      (.ok (c.rest.take count), ⟨c.position + count, c.rest.drop count⟩)
    else (.error (.unexpectedEnd c.position), c) := by
  let taken : Reader (List UInt8) :=
    if (c.rest.take count).length = count then do
      set (⟨c.position + count, c.rest.drop count⟩ : Cursor)
      return c.rest.take count
    else throw (.unexpectedEnd c.position)
  show taken.run.run c = _
  by_cases h : (c.rest.take count).length = count
  · simp only [taken, if_pos h]
    rfl
  · simp only [taken, if_neg h]
    rfl

theorem takes_take (bytes : List UInt8) : Takes (take bytes.length) bytes bytes := by
  intro position rest
  have h : (bytes ++ rest).take bytes.length = bytes := List.take_left
  rw [run_take, if_pos (congrArg List.length h), h, List.drop_left]

theorem takes_number {w n : Nat} (h : n < Nat.pow 256 w) :
    Takes (number w) (toBytes w n) n := by
  have htake := takes_take (toBytes w n)
  rw [length_toBytes] at htake
  have hmap := htake.map (f := ofBytes)
  rwa [ofBytes_toBytes, Nat.mod_eq_of_lt h] at hmap

theorem takes_length {n : Nat} (h : Fits n) : Takes (number 4) (ofLength n) n :=
  takes_number h

theorem takes_uint8 (v : UInt8) : Takes uint8 [v] v := by
  have h := (takes_number (w := 1) v.toNat_lt).map (f := UInt8.ofNat)
  rw [UInt8.ofNat_toNat] at h
  have hbytes : toBytes 1 v.toNat = [v] := by simp [toBytes]
  rwa [hbytes] at h

theorem takes_uint16 (v : UInt16) : Takes uint16 (ofUInt16 v) v := by
  have h := (takes_number (w := 2) v.toNat_lt).map (f := UInt16.ofNat)
  rwa [UInt16.ofNat_toNat] at h

theorem takes_uint32 (v : UInt32) : Takes uint32 (ofUInt32 v) v := by
  have h := (takes_number (w := 4) v.toNat_lt).map (f := UInt32.ofNat)
  rwa [UInt32.ofNat_toNat] at h

theorem takes_uint64 (v : UInt64) : Takes uint64 (ofUInt64 v) v := by
  have h := (takes_number (w := 8) v.toNat_lt).map (f := UInt64.ofNat)
  rwa [UInt64.ofNat_toNat] at h

theorem takes_int32 (v : Int32) : Takes int32 (ofInt32 v) v :=
  (takes_uint32 v.toUInt32).map

theorem takes_int64 (v : Int64) : Takes int64 (ofInt64 v) v :=
  (takes_uint64 v.toUInt64).map

theorem takes_label (l : Label) : Takes label (ofUInt32 l.id) l :=
  (takes_uint32 l.id).map

theorem takes_position (read : Nat → Reader α) {bytes : List UInt8} {a : α}
    (h : ∀ start, Takes (read start) bytes a) : Takes (position >>= read) bytes a := by
  intro start rest
  exact h start start rest

theorem fromUTF8?_utf8 (s : String) : String.fromUTF8? ⟨(utf8 s).toArray⟩ = some s := by
  have hbytes : (⟨(utf8 s).toArray⟩ : ByteArray) = s.toByteArray := by simp [utf8]
  rw [hbytes, String.fromUTF8?, dif_pos s.isValidUTF8]
  rfl

theorem takes_string {s : String} (h : Fits (utf8 s).length) : Takes string (ofString s) s := by
  refine (takes_length h).bind (takes_position _ fun start => ?_)
  refine (takes_take (utf8 s)).bind_nil ?_
  rw [fromUTF8?_utf8]
  exact .pure s

theorem takes_string? {s : Option String} (h : ∀ t ∈ s, Fits (utf8 t).length) :
    Takes string? (ofString? s) s := by
  cases s with
  | none => exact (takes_uint8 0).bind (.pure none)
  | some t => exact (takes_uint8 1).bind (takes_string (h t rfl)).map

/-! ## Lists -/

theorem takes_times {read : Reader α} {write : α → List UInt8} {items : List α}
    (h : ∀ a ∈ items, Takes read (write a) a) :
    Takes (times items.length read) (items.flatMap write) items := by
  induction items with
  | nil => exact .pure []
  | cons a items ih =>
    refine (h a List.mem_cons_self).bind (Takes.bind_pure (ih fun b hb => ?_))
    exact h b (List.mem_cons_of_mem _ hb)

theorem takes_list {read : Reader α} {write : α → List UInt8} {items : List α}
    (hlength : Fits items.length) (h : ∀ a ∈ items, Takes read (write a) a) :
    Takes (list read) (ofLength items.length ++ items.flatMap write) items :=
  (takes_length hlength).bind (takes_times h)

end Reader

end Resumable.Binary
