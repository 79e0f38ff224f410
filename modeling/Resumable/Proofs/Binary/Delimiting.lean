import Resumable.Proofs.Binary.Canonical

/-!
# Where a class file ends

A checksum cannot tell for certain that a file has lost its end, or that something has been put
behind it: other bytes may have the same checksum. The format does not rely on it. Every reader
knows by itself where to stop,

    SelfDelimiting read

so whatever it makes of some bytes, it makes of them with more behind them, unless it has run out of
bytes. A reader that takes all that its writer has put down therefore runs out on anything shorter
(`SelfDelimiting.runs_out`). So a class file that has been cut runs out, and one that has been
extended leaves something over.
-/

namespace Resumable.Binary

variable {α β : Type}

/-- The same place, with more bytes behind those that are left. -/
def Cursor.append (c : Cursor) (more : List UInt8) : Cursor := ⟨c.position, c.rest ++ more⟩

/-- On these bytes the reader fails for want of more. -/
def RunsOut (read : Reader α) (c : Cursor) : Prop :=
  ∃ offset, (read.run.run c).1 = .error (.unexpectedEnd offset)

/-- Unless the reader runs out of bytes, it makes the same of them with more behind them, and leaves
what is behind them. -/
def SelfDelimiting (read : Reader α) : Prop :=
  ∀ c more, RunsOut read c ∨
    read.run.run (c.append more) = ((read.run.run c).1, (read.run.run c).2.append more)

namespace SelfDelimiting

variable {read : Reader α}

theorem pure (a : α) : SelfDelimiting (Pure.pure a) := fun _ _ => .inr rfl

theorem throw (e : DecodeError) : SelfDelimiting (throw e : Reader α) := fun _ _ => .inr rfl

/-- One reading after the other. -/
theorem bind {k : α → Reader β} (h : SelfDelimiting read) (h' : ∀ a, SelfDelimiting (k a)) :
    SelfDelimiting (read >>= k) := by
  intro c more
  have hrun (c : Cursor) : (read >>= k).run.run c = match read.run.run c with
      | (.ok a, c') => (k a).run.run c'
      | (.error e, c') => (.error e, c') := by
    rw [ExceptT.run_bind, StateT.run_bind]
    rcases read.run.run c with ⟨_ | a, c'⟩ <;> rfl
  rw [RunsOut, hrun, hrun]
  rcases h c more with ⟨offset, hout⟩ | hmore
  · rcases hread : read.run.run c with ⟨r, c'⟩
    rw [hread] at hout
    subst hout
    exact .inl ⟨offset, rfl⟩
  · rcases hread : read.run.run c with ⟨_ | a, c'⟩ <;> rw [hmore, hread]
    · exact .inr rfl
    · exact h' a c' more

theorem bind_pure {f : α → β} (h : SelfDelimiting read) :
    SelfDelimiting (read >>= fun a => Pure.pure (f a)) :=
  h.bind fun a => .pure (f a)

theorem map {f : α → β} (h : SelfDelimiting read) : SelfDelimiting (f <$> read) := by
  rw [map_eq_pure_bind]
  exact h.bind_pure

/-- A reader that takes all of some bytes runs out on anything shorter. If it did not, it would stop
in the same place with the rest behind it. -/
theorem runs_out {bytes cut : List UInt8} {a : α} (h : SelfDelimiting read)
    (htakes : Takes read bytes a) (hcut : cut <+: bytes) (hlt : cut.length < bytes.length)
    (position : Nat) : RunsOut read ⟨position, cut⟩ := by
  obtain ⟨more, rfl⟩ := hcut
  refine (h ⟨position, cut⟩ more).resolve_right fun hmore => ?_
  have hall := htakes position []
  rw [List.append_nil] at hall
  have hrest := congrArg (fun r => r.2.rest) (hmore.symm.trans hall)
  have hnil : more = [] := (List.append_eq_nil_iff.1 hrest).2
  rw [hnil, List.append_nil] at hlt
  exact Nat.lt_irrefl _ hlt

end SelfDelimiting

namespace Reader

/-! ## Numbers, texts and lists -/

theorem selfDelimiting_take (count : Nat) : SelfDelimiting (take count) := by
  intro c more
  rw [RunsOut, run_take, run_take]
  by_cases h : (c.rest.take count).length = count
  · have hle : count ≤ c.rest.length := by
      rw [List.length_take] at h
      omega
    have htake : (c.append more).rest.take count = c.rest.take count :=
      List.take_append_of_le_length hle
    have hdrop : (c.append more).rest.drop count = c.rest.drop count ++ more :=
      List.drop_append_of_le_length hle
    rw [htake, hdrop, if_pos h, if_pos h]
    exact .inr rfl
  · rw [if_neg h]
    exact .inl ⟨c.position, rfl⟩

theorem selfDelimiting_position : SelfDelimiting position := fun _ _ => .inr rfl

theorem selfDelimiting_number (w : Nat) : SelfDelimiting (number w) := (selfDelimiting_take w).map

theorem selfDelimiting_uint8 : SelfDelimiting uint8 := (selfDelimiting_number 1).map

theorem selfDelimiting_uint16 : SelfDelimiting uint16 := (selfDelimiting_number 2).map

theorem selfDelimiting_uint32 : SelfDelimiting uint32 := (selfDelimiting_number 4).map

theorem selfDelimiting_label : SelfDelimiting label := selfDelimiting_uint32.map

/-- A text that is no UTF-8 is known by its own bytes. -/
theorem selfDelimiting_string : SelfDelimiting string := by
  refine (selfDelimiting_number 4).bind fun length => selfDelimiting_position.bind fun start => ?_
  refine (selfDelimiting_take length).bind fun bytes => ?_
  split
  · exact .pure _
  · exact .throw _

theorem selfDelimiting_string? : SelfDelimiting string? := by
  refine selfDelimiting_uint8.bind fun mark => ?_
  split
  · exact .pure none
  · exact selfDelimiting_string.map

theorem selfDelimiting_times {read : Reader α} (count : Nat) (h : SelfDelimiting read) :
    SelfDelimiting (times count read) := by
  induction count with
  | zero => exact .pure []
  | succ count ih => exact h.bind fun a => ih.bind_pure

theorem selfDelimiting_list {read : Reader α} (h : SelfDelimiting read) :
    SelfDelimiting (list read) :=
  (selfDelimiting_number 4).bind fun count => selfDelimiting_times count h

/-! ## Members and classes -/

theorem selfDelimiting_access : SelfDelimiting access := selfDelimiting_uint16.map

/-- A body is read on its own, so only its length and its bytes have to be there. -/
theorem selfDelimiting_body : SelfDelimiting body := by
  refine (selfDelimiting_number 4).bind fun length =>
    (selfDelimiting_take length).bind fun code => ?_
  split
  · exact .pure _
  · exact .throw _

theorem selfDelimiting_handler : SelfDelimiting handler :=
  selfDelimiting_label.bind fun _ => selfDelimiting_label.bind fun _ =>
    selfDelimiting_label.bind fun _ => selfDelimiting_string?.bind_pure

theorem selfDelimiting_field : SelfDelimiting field :=
  selfDelimiting_string.bind fun _ => selfDelimiting_string.bind fun _ =>
    selfDelimiting_access.bind_pure

theorem selfDelimiting_method : SelfDelimiting method :=
  selfDelimiting_string.bind fun _ => selfDelimiting_string.bind fun _ =>
    selfDelimiting_access.bind fun _ => (selfDelimiting_list selfDelimiting_string).bind fun _ =>
      selfDelimiting_uint16.bind fun _ => selfDelimiting_body.bind fun _ =>
        (selfDelimiting_list selfDelimiting_handler).bind_pure

theorem selfDelimiting_classDef (flags : UInt32) : SelfDelimiting (classDef flags) := by
  have htexts := selfDelimiting_list selfDelimiting_string
  have hmembers {k : List Field → List Method → ClassDef} :
      SelfDelimiting (do return k (← list field) (← list method)) :=
    (selfDelimiting_list selfDelimiting_field).bind fun _ =>
      (selfDelimiting_list selfDelimiting_method).bind_pure
  refine selfDelimiting_string.bind fun name => selfDelimiting_string?.bind fun superName => ?_
  refine selfDelimiting_access.bind fun access => htexts.bind fun interfaces => ?_
  refine htexts.bind fun markers => ?_
  dsimp only
  split
  · exact selfDelimiting_string.map.bind fun file => hmembers
  · exact hmembers

end Reader

/-! ## Files -/

/-- The header of a class file. -/
def header (flags stored : UInt32) : List UInt8 :=
  magic ++ (ofUInt32 version ++ (ofUInt32 flags ++ ofUInt32 stored))

theorem length_header (flags stored : UInt32) : (header flags stored).length = 16 := rfl

theorem ofClass_eq_header (c : ClassDef) :
    ofClass c = header (headerFlags c) (checksum (payload c)) ++ payload c := by
  simp only [ofClass, header, List.append_assoc]

namespace FileReader

/-- A reader's end is one of the file. -/
theorem run_lift_bind_of_runsOut {read : Reader α} {c : Cursor} (h : RunsOut read c)
    (k : α → FileReader β) :
    ∃ offset, ((lift read >>= k).run.run c).1 = .error (.decode (.unexpectedEnd offset)) := by
  obtain ⟨offset, hout⟩ := h
  have hrun : (liftM read.run : FileReader _).run.run c =
      (.ok (read.run.run c).1, (read.run.run c).2) := rfl
  refine ⟨offset, ?_⟩
  rw [lift, bind_assoc, ExceptT.run_bind, StateT.run_bind, hrun, hout]
  rfl

theorem run_lift_bind {read : Reader α} {c c' : Cursor} {a : α}
    (h : read.run.run c = (.ok a, c')) (k : α → FileReader β) :
    (lift read >>= k).run.run c = (k a).run.run c' := by
  rw [ExceptT.run_bind, StateT.run_bind, run_lift h]
  rfl

/-- The class behind the header, which has to be all that is there. -/
def rest (flags : UInt32) : FileReader ClassDef := do
  let c ← lift (.classDef flags)
  let cursor ← get
  if !cursor.isAtEnd then throw (.trailingData cursor.position)
  return c

/-- Behind a header with the letters and the version, the checksum is compared first. -/
theorem toClass_header (flags stored : UInt32) (bytes : List UInt8) :
    toClass (header flags stored ++ bytes) =
      if checksum bytes = stored then ((rest flags).run.run ⟨16, bytes⟩).1
      else .error (.checksumMismatch stored (checksum bytes)) := by
  have hletters := takes_lift (Reader.takes_take magic)
  have hnumber (v : UInt32) := takes_lift (Reader.takes_uint32 v)
  show (file.run.run ⟨0, header flags stored ++ bytes⟩).1 = _
  unfold file header
  simp only [List.append_assoc]
  rw [show 4 = magic.length from rfl, hletters.run_bind, if_neg (by simp)]
  rw [(hnumber version).run_bind, if_neg (by simp)]
  rw [(hnumber flags).run_bind, (hnumber stored).run_bind, run_get_bind]
  by_cases hsum : checksum bytes = stored
  · rw [if_pos hsum, if_neg (by simp [hsum])]
    rfl
  · rw [if_neg hsum, if_pos (by simpa using Ne.symm hsum)]
    rfl

end FileReader

/-- What has been cut off begins in the first part, or behind it. -/
theorem cut_append {cut first rest : List UInt8} (h : cut <+: first ++ rest)
    (hlt : cut.length < (first ++ rest).length) :
    (cut <+: first ∧ cut.length < first.length) ∨
      ∃ cut', cut = first ++ cut' ∧ cut' <+: rest ∧ cut'.length < rest.length := by
  rcases Nat.lt_or_ge cut.length first.length with hshort | hle
  · exact .inl ⟨List.prefix_of_prefix_length_le h (List.prefix_append ..) (Nat.le_of_lt hshort),
      hshort⟩
  · obtain ⟨cut', rfl⟩ := List.prefix_of_prefix_length_le (List.prefix_append ..) h hle
    refine .inr ⟨cut', rfl, (List.prefix_append_right_inj first).1 h, ?_⟩
    rw [List.length_append, List.length_append] at hlt
    omega

/-- A header that has been cut runs out. -/
theorem FileReader.toClass_of_cut {flags stored : UInt32} {cut : List UInt8}
    (h : cut <+: header flags stored) (hlt : cut.length < (header flags stored).length) :
    ∃ offset, toClass cut = .error (.decode (.unexpectedEnd offset)) := by
  have hletters := takes_lift (Reader.takes_take magic)
  have hnumber (v : UInt32) := takes_lift (Reader.takes_uint32 v)
  have hout (v : UInt32) {cut : List UInt8} (h : cut <+: ofUInt32 v)
      (hlt : cut.length < (ofUInt32 v).length) (position : Nat) :=
    Reader.selfDelimiting_uint32.runs_out (Reader.takes_uint32 v) h hlt position
  show ∃ offset, (file.run.run ⟨0, cut⟩).1 = _
  unfold file
  rcases cut_append h hlt with ⟨h, hlt⟩ | ⟨cut, rfl, h, hlt⟩
  · exact run_lift_bind_of_runsOut
      ((Reader.selfDelimiting_take _).runs_out (Reader.takes_take magic) h hlt 0) _
  rw [show 4 = magic.length from rfl, hletters.run_bind, if_neg (by simp)]
  rcases cut_append h hlt with ⟨h, hlt⟩ | ⟨cut, rfl, h, hlt⟩
  · exact run_lift_bind_of_runsOut (hout version h hlt _) _
  rw [(hnumber version).run_bind, if_neg (by simp)]
  rcases cut_append h hlt with ⟨h, hlt⟩ | ⟨cut, rfl, h, hlt⟩
  · exact run_lift_bind_of_runsOut (hout flags h hlt _) _
  rw [(hnumber flags).run_bind]
  exact run_lift_bind_of_runsOut (hout stored h hlt _) _

/-- **A class file ends where it ends.** What remains of a file that has been cut is refused for
want of bytes, and what has been put behind a file is refused as left over: where the checksum tells
by itself that bytes are missing or added, it is what the file is refused for, and where it does not,
the file is refused all the same. -/
theorem toClass_cut_or_extended {c : ClassDef} (h : c.IsWritable) :
    (∀ cut, cut <+: ofClass c → cut ≠ ofClass c → ∃ offset, toClass cut = .error
      (if cut.length < 16 ∨ checksum (cut.drop 16) = checksum (payload c) then
        .decode (.unexpectedEnd offset)
      else .checksumMismatch (checksum (payload c)) (checksum (cut.drop 16)))) ∧
    ∀ extra, extra ≠ [] → toClass (ofClass c ++ extra) = .error
      (if checksum (payload c ++ extra) = checksum (payload c) then
        .trailingData (ofClass c).length
      else .checksumMismatch (checksum (payload c)) (checksum (payload c ++ extra))) := by
  have htakes := Reader.takes_classDef h
  rw [ofClass_eq_header]
  constructor
  · intro cut hcut hne
    have hlt := Nat.lt_of_le_of_ne hcut.length_le (mt hcut.eq_of_length hne)
    rcases cut_append hcut hlt with ⟨hcut, hlt⟩ | ⟨cut, rfl, hcut, hlt⟩
    · obtain ⟨offset, hout⟩ := FileReader.toClass_of_cut hcut hlt
      exact ⟨offset, by rw [if_pos (.inl hlt), hout]⟩
    · have hout := (Reader.selfDelimiting_classDef _).runs_out htakes hcut hlt 16
      obtain ⟨offset, hout⟩ := FileReader.run_lift_bind_of_runsOut hout _
      have hlt : ¬ (header (headerFlags c) (checksum (payload c)) ++ cut).length < 16 := by
        rw [List.length_append, length_header]
        omega
      refine ⟨offset, ?_⟩
      rw [FileReader.toClass_header, List.drop_left' (length_header ..), FileReader.rest, hout]
      simp only [hlt, false_or]
      split <;> rfl
  · intro extra hextra
    have htrailing : ((FileReader.rest (headerFlags c)).run.run ⟨16, payload c ++ extra⟩).1 =
        .error (.trailingData (16 + (payload c).length)) := by
      rw [FileReader.rest, FileReader.run_lift_bind (htakes 16 extra), run_get_bind, if_pos]
      · rfl
      · simpa [Cursor.isAtEnd] using hextra
    rw [List.append_assoc, FileReader.toClass_header, htrailing, List.length_append, length_header]
    split <;> rfl

/-- A class whose fields have such flags that the register of the checksum is empty behind them. The
four zero bytes that follow leave it empty, and so do fewer or more of them. -/
def colliding : ClassDef where
  name := "µ"
  access := .everywhere
  fields := [{ name := "a", desc := "I", access := ⟨35273⟩ },
    { name := "b", desc := "J", access := ⟨36722⟩ }]

theorem toClass_cut_or_extended_colliding : colliding.IsWritable ∧
    checksum (((ofClass colliding).take 64).drop 16) = checksum (payload colliding) ∧
    (∃ offset, toClass ((ofClass colliding).take 64) = .error (.decode (.unexpectedEnd offset))) ∧
    checksum (payload colliding ++ [0]) = checksum (payload colliding) ∧
    toClass (ofClass colliding ++ [0]) = .error (.trailingData 65) := by
  have hwritable : colliding.IsWritable := by decide +kernel
  have hlength : (ofClass colliding).length = 65 := by
    rw [ofClass_eq, length_fileOf]
    decide +kernel
  have hshort : checksum (((ofClass colliding).take 64).drop 16) =
      checksum (payload colliding) := by
    rw [List.drop_take, ofClass_eq, drop_fileOf]
    decide +kernel
  have hlong : checksum (payload colliding ++ [0]) = checksum (payload colliding) := by
    decide +kernel
  obtain ⟨hcut, hextended⟩ := toClass_cut_or_extended hwritable
  obtain ⟨offset, hout⟩ := hcut ((ofClass colliding).take 64) (List.take_prefix ..)
    fun heq => by simpa [hlength] using congrArg List.length heq
  have hleft := hextended [0] (by simp)
  rw [if_pos (.inr hshort)] at hout
  rw [if_pos hlong, hlength] at hleft
  exact ⟨hwritable, hshort, ⟨offset, hout⟩, hlong, hleft⟩

end Resumable.Binary
