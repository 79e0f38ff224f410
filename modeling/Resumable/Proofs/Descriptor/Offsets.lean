import Resumable.Binary.Bytes
import Resumable.Proofs.Descriptor.Grammar
import Resumable.Proofs.Outcome

/-!
# Reading descriptors by their offsets

`FieldType.read` goes over the characters of a text. A parser may as well go over its bytes: look at
the byte at an offset, and cut names out between two offsets. A text cannot be cut inside a
character, so such a parser can fail in a way that the other cannot (`OffsetFault.inside`).

`FieldType.readAt` and `MethodType.parseAt` are that parser. It never cuts inside a character: it
only stops in front of a character that is read, or behind one that takes a single byte, and the
first byte of a character tells whether it is one of those (`byteAt?_ofList_cons`). So it comes to
the same as the parser that goes over the characters, on every text.
-/

namespace Resumable

/-- Why the bytes of a text are not read. -/
inductive OffsetFault where
  | refused (cause : DescriptorError)
  /-- The text would be cut inside a character, behind its end, or backwards. -/
  | inside (start stop : Nat)
  deriving DecidableEq, Repr

/-- The byte at an offset, as a character. -/
def byteAt? (desc : String) (offset : Nat) : Option Char :=
  (Binary.utf8 desc)[offset]?.map fun b => Char.ofNat b.toNat

/-- The text between two offsets. -/
def cut (desc : String) (start stop : Nat) : Except OffsetFault String :=
  if h : (⟨start⟩ : String.Pos.Raw).IsValid desc ∧ (⟨stop⟩ : String.Pos.Raw).IsValid desc ∧
      start ≤ stop then
    .ok (String.extract (⟨⟨start⟩, h.1⟩ : desc.Pos) ⟨⟨stop⟩, h.2.1⟩)
  else .error (.inside start stop)

/-- The offset of the first semicolon of a text. -/
def semicolon? (text : String) : Option Nat :=
  if ';' ∈ text.toList then
    some (String.ofList (text.toList.takeWhile (· != ';'))).utf8ByteSize
  else none

/-! ## Bytes and cuts -/

theorem length_utf8 (s : String) : (Binary.utf8 s).length = s.utf8ByteSize := rfl

theorem utf8_append (s t : String) : Binary.utf8 (s ++ t) = Binary.utf8 s ++ Binary.utf8 t := by
  simp [Binary.utf8]

theorem lt_of_byteAt? {desc : String} {offset : Nat} {c : Char} (h : byteAt? desc offset = some c) :
    offset < desc.utf8ByteSize := by
  obtain ⟨b, hb, -⟩ := Option.map_eq_some_iff.1 h
  exact (List.getElem?_eq_some_iff.1 hb).1

theorem byteAt?_append (front rest : String) :
    byteAt? (front ++ rest) front.utf8ByteSize = byteAt? rest 0 := by
  unfold byteAt?
  rw [utf8_append, List.getElem?_append_right (Nat.le_of_eq (length_utf8 front)), length_utf8,
    Nat.sub_self]

theorem utf8_ofList_cons (c : Char) (cs : List Char) :
    Binary.utf8 (String.ofList (c :: cs)) =
      String.utf8EncodeChar c ++ Binary.utf8 (String.ofList cs) := by
  have hchar : Binary.utf8 (String.ofList [c]) = String.utf8EncodeChar c := by
    simp [Binary.utf8, List.utf8Encode]
  rw [← hchar, ← utf8_append, ← String.ofList_append]
  rfl

theorem toNat_ofNat_toNat (b : UInt8) : (Char.ofNat b.toNat).toNat = b.toNat := by
  have hvalid : b.toNat.isValidChar := .inl (Nat.lt_trans b.toNat_lt (by decide))
  rw [Char.ofNat, dif_pos hvalid]
  rfl

/-- The first byte of a character is the character itself, if that takes a single byte, and else no
such character. -/
theorem utf8EncodeChar_eq_cons (c : Char) : ∃ b bytes, String.utf8EncodeChar c = b :: bytes ∧
    (b.toNat = c.toNat ∨ 128 ≤ b.toNat ∧ 128 ≤ c.toNat) := by
  have hc : c.toNat = c.val.toNat := rfl
  have hlast := c.val.toNat_lt
  unfold String.utf8EncodeChar
  dsimp only
  split
  · refine ⟨_, _, rfl, .inl ?_⟩
    rw [UInt8.toNat_ofNat', hc]
    omega
  · have hlarge : 128 ≤ c.toNat := by omega
    split
    · refine ⟨_, _, rfl, .inr ⟨?_, hlarge⟩⟩
      rw [UInt8.toNat_ofNat']
      omega
    · split
      · refine ⟨_, _, rfl, .inr ⟨?_, hlarge⟩⟩
        rw [UInt8.toNat_ofNat']
        omega
      · refine ⟨_, _, rfl, .inr ⟨?_, hlarge⟩⟩
        rw [UInt8.toNat_ofNat']
        omega

/-- A character that takes a single byte is known by its first byte. -/
theorem byteAt?_ofList_cons (c : Char) (cs : List Char) :
    ∃ d, byteAt? (String.ofList (c :: cs)) 0 = some d ∧
      ∀ a : Char, a.toNat < 128 → (d = a ↔ c = a) := by
  obtain ⟨b, bytes, hbytes, hb⟩ := utf8EncodeChar_eq_cons c
  refine ⟨Char.ofNat b.toNat, ?_, fun a ha => ?_⟩
  · rw [byteAt?, utf8_ofList_cons, hbytes]
    rfl
  · rw [← Char.toNat_inj, ← Char.toNat_inj, toNat_ofNat_toNat]
    omega

theorem ofList_cons (c : Char) (cs : List Char) :
    String.ofList (c :: cs) = String.ofList [c] ++ String.ofList cs := by
  rw [← String.ofList_append]
  rfl

theorem append_ofList_cons (front : String) (c : Char) (cs : List Char) :
    front ++ String.ofList (c :: cs) = (front ++ String.ofList [c]) ++ String.ofList cs := by
  rw [ofList_cons, String.append_assoc]

theorem byteAt?_nil (front : String) :
    byteAt? (front ++ String.ofList []) front.utf8ByteSize = none := by
  rw [byteAt?_append]
  rfl

theorem byteAt?_cons (front : String) {c : Char} (hc : c.toNat < 128) (cs : List Char) :
    byteAt? (front ++ String.ofList (c :: cs)) front.utf8ByteSize = some c := by
  obtain ⟨d, hbyte, hd⟩ := byteAt?_ofList_cons c cs
  rw [byteAt?_append, hbyte, (hd c hc).2 rfl]

/-- A byte is no more taken for another character than the character that it begins. -/
theorem exists_byteAt?_ne (front : String) {c a : Char} (ha : a.toNat < 128) (hc : c ≠ a)
    (cs : List Char) :
    ∃ d, byteAt? (front ++ String.ofList (c :: cs)) front.utf8ByteSize = some d ∧ d ≠ a := by
  obtain ⟨d, hbyte, hd⟩ := byteAt?_ofList_cons c cs
  exact ⟨d, by rw [byteAt?_append, hbyte], mt (hd a ha).1 hc⟩

theorem utf8ByteSize_append_char (front : String) {c : Char} (hc : c.toNat < 128) :
    (front ++ String.ofList [c]).utf8ByteSize = front.utf8ByteSize + 1 := by
  have hone : c.utf8Size = 1 := by
    rw [Char.utf8Size_eq_one_iff]
    exact UInt32.le_iff_toNat_le.2 (Nat.le_of_lt_succ hc)
  rw [String.utf8ByteSize_append]
  simp [hone]

theorem cut_append (front text rest : String) :
    cut (front ++ text ++ rest) front.utf8ByteSize (front.utf8ByteSize + text.utf8ByteSize) =
      .ok text := by
  have hstart : (⟨front.utf8ByteSize⟩ : String.Pos.Raw).IsValid (front ++ text ++ rest) :=
    String.Pos.Raw.isValid_iff_exists_append.2
      ⟨front, text ++ rest, String.append_assoc .., rfl⟩
  have hstop : (⟨front.utf8ByteSize + text.utf8ByteSize⟩ : String.Pos.Raw).IsValid
      (front ++ text ++ rest) := by
    refine String.Pos.Raw.isValid_iff_exists_append.2 ⟨front ++ text, rest, rfl, ?_⟩
    rw [← String.utf8ByteSize_append]
    rfl
  rw [cut, dif_pos ⟨hstart, hstop, Nat.le_add_right ..⟩, Except.ok.injEq, ← String.toByteArray_inj,
    String.toByteArray_extract, String.toByteArray_append, String.toByteArray_append,
    ByteArray.append_assoc]
  show (front.toByteArray ++ (text.toByteArray ++ rest.toByteArray)).extract
    (front.utf8ByteSize + 0) (front.utf8ByteSize + text.utf8ByteSize) = _
  rw [ByteArray.extract_append_size_add' String.size_toByteArray.symm]
  exact ByteArray.extract_append_eq_left String.size_toByteArray.symm

theorem cut_rest (front rest : String) :
    cut (front ++ rest) front.utf8ByteSize (front ++ rest).utf8ByteSize = .ok rest := by
  have hcut := cut_append front rest ""
  rwa [String.append_empty, ← String.utf8ByteSize_append] at hcut

/-! ## Offsets -/

/-- The number of bytes in front of the rest of a text. -/
def offsetOf (desc : String) (rest : List Char) : Nat :=
  desc.utf8ByteSize - (String.ofList rest).utf8ByteSize

theorem offsetOf_append (front : String) (rest : List Char) :
    offsetOf (front ++ String.ofList rest) rest = front.utf8ByteSize := by
  rw [offsetOf, String.utf8ByteSize_append, Nat.add_sub_cancel]

/-- What is read off the front of the rest of a text, told by offsets into the text. -/
def located {α : Type} (desc : String) :
    Except DescriptorStop (α × List Char) → Except OffsetFault (α × Nat)
  | .ok (a, rest) => .ok (a, offsetOf desc rest)
  | .error stop => .error (.refused (stop.inside desc))

theorem offsetOf_eq_size_iff {desc : String} {rest : List Char} (h : rest <:+ desc.toList) :
    offsetOf desc rest = desc.utf8ByteSize ↔ rest = [] := by
  obtain ⟨front, hfront⟩ := h
  have hdesc : desc = String.ofList front ++ String.ofList rest := by
    rw [← String.ofList_append, hfront, String.ofList_toList]
  rw [hdesc, offsetOf_append, String.utf8ByteSize_append, Nat.left_eq_add,
    String.utf8ByteSize_eq_zero_iff, String.ofList_eq_empty_iff]

/-- The text may have nothing left over. -/
def complete {α : Type} (desc : String) :
    Except DescriptorStop (α × List Char) → Except DescriptorError α
  | .ok (a, []) => .ok a
  | .ok (_, _ :: _) => .error (.trailing desc)
  | .error stop => .error (stop.inside desc)

/-- The text may have nothing left over behind the offset. -/
def completeAt {α : Type} (desc : String) (taken : Except OffsetFault (α × Nat)) :
    Except OffsetFault α := do
  let (a, stop) ← taken
  if stop ≠ desc.utf8ByteSize then throw (.refused (.trailing desc))
  return a

theorem completeAt_located {α : Type} {desc : String}
    {taken : Except DescriptorStop (α × List Char)}
    (h : ∀ a rest, taken = .ok (a, rest) → rest <:+ desc.toList) :
    completeAt desc (located desc taken) = (complete desc taken).mapError .refused := by
  rcases taken with stop | ⟨a, rest⟩
  · rfl
  · have hsize := offsetOf_eq_size_iff (h a rest rfl)
    simp only [completeAt, located, bind, Except.bind, ne_eq, hsize]
    cases rest with
    | nil => rfl
    | cons c rest => rfl

/-! ## Field types -/

namespace FieldType

/-- Takes the class whose `L` stands at the offset. -/
def classAt (desc : String) (start : Nat) : Except OffsetFault (FieldType × Nat) := do
  let text ← cut desc start desc.utf8ByteSize
  match semicolon? text with
  | none => throw (.refused (.unexpectedEnd desc))
  | some length =>
    if start + length = start + 1 then throw (.refused (.malformed desc))
    let name ← cut desc (start + 1) (start + length)
    return (.object name, start + length + 1)

/-- Takes the type that the byte at the offset stands for by itself. -/
def oneAt (desc : String) (start : Nat) : Char → Except OffsetFault (FieldType × Nat)
  | 'I' | 'Z' | 'B' | 'C' | 'S' => .ok (.int, start + 1)
  | 'J' => .ok (.long, start + 1)
  | 'F' => .ok (.float, start + 1)
  | 'D' => .ok (.double, start + 1)
  | _ => do
    let text ← cut desc start desc.utf8ByteSize
    throw (.refused (.invalidChar desc (text.toList.headD '?') start))

/-- Takes one type, from the offset on, and tells the offset behind it. -/
def readAt (desc : String) (start : Nat) : Except OffsetFault (FieldType × Nat) :=
  match _at : byteAt? desc start with
  | none => .error (.refused (.unexpectedEnd desc))
  | some '[' =>
    match readAt desc (start + 1) with
    | .ok (element, stop) => .ok (.array element, stop)
    | .error fault => .error fault
  | some 'L' => classAt desc start
  | some c => oneAt desc start c
termination_by desc.utf8ByteSize - start
decreasing_by
  have := lt_of_byteAt? _at
  omega

/-- The type that is named by the whole of `desc`. -/
def parseAt (desc : String) : Except OffsetFault FieldType := completeAt desc (readAt desc 0)

/-! ### What is taken -/

theorem lt_of_classAt {desc : String} {start stop : Nat} {type : FieldType}
    (h : classAt desc start = .ok (type, stop)) : start < stop := by
  obtain ⟨text, -, h⟩ := bind_eq_ok.1 h
  split at h
  · cases h
  · next length =>
    split at h
    · cases h
    · obtain ⟨name, -, h⟩ := bind_eq_ok.1 h
      cases h
      omega

theorem lt_of_oneAt {desc : String} {start stop : Nat} {c : Char} {type : FieldType}
    (h : oneAt desc start c = .ok (type, stop)) : start < stop := by
  unfold oneAt at h
  split at h
  case h_9 =>
    obtain ⟨text, -, h⟩ := bind_eq_ok.1 h
    cases h
  all_goals
    cases h
    exact Nat.lt_succ_self start

/-- A type takes at least one byte. -/
theorem lt_of_readAt {desc : String} {start stop : Nat} {type : FieldType}
    (h : readAt desc start = .ok (type, stop)) : start < stop := by
  fun_induction readAt desc start generalizing stop type with
  | case1 | case3 => cases h
  | case2 start _ element stop' hread ih =>
    cases h
    exact Nat.lt_of_succ_lt (ih hread)
  | case4 => exact lt_of_classAt h
  | case5 => exact lt_of_oneAt h

/-! ### Both parsers agree -/

theorem semicolon?_class {name : List Char} (h : ';' ∉ name) (after : List Char) :
    semicolon? (String.ofList ('L' :: (name ++ ';' :: after))) =
      some (1 + (String.ofList name).utf8ByteSize) := by
  have hname : ('L' :: name ++ ';' :: after).takeWhile (· != ';') = 'L' :: name :=
    takeWhile_name (by simpa using h) after
  rw [semicolon?, String.toList_ofList, if_pos (by simp), ← List.cons_append, hname, ofList_cons,
    String.utf8ByteSize_append]
  rfl

/-- A text that begins with a class falls into what stands in front of the name, the name, and what
stands behind it. -/
theorem cut_name (front : String) (name after : List Char) :
    cut (front ++ String.ofList ('L' :: (name ++ ';' :: after))) (front.utf8ByteSize + 1)
      (front.utf8ByteSize + (1 + (String.ofList name).utf8ByteSize)) =
        .ok (String.ofList name) := by
  have htext : front ++ String.ofList ('L' :: (name ++ ';' :: after)) =
      (front ++ "L") ++ String.ofList name ++ String.ofList (';' :: after) := by
    rw [ofList_cons, String.ofList_append, String.append_assoc, String.append_assoc]
  have hstart : (front ++ "L").utf8ByteSize = front.utf8ByteSize + 1 := String.utf8ByteSize_append
  have hcut := cut_append (front ++ "L") (String.ofList name) (String.ofList (';' :: after))
  rwa [← htext, hstart, Nat.add_assoc] at hcut

theorem offsetOf_class (front : String) (name after : List Char) :
    offsetOf (front ++ String.ofList ('L' :: (name ++ ';' :: after))) after =
      front.utf8ByteSize + (1 + (String.ofList name).utf8ByteSize) + 1 := by
  have htext : front ++ String.ofList ('L' :: (name ++ ';' :: after)) =
      (front ++ "L" ++ String.ofList name ++ ";") ++ String.ofList after := by
    rw [ofList_cons, String.ofList_append, ofList_cons ';']
    simp only [String.append_assoc]
  rw [htext, offsetOf_append]
  simp only [String.utf8ByteSize_append, Nat.add_assoc]
  rfl

theorem classAt_eq (front : String) (cs : List Char) :
    classAt (front ++ String.ofList ('L' :: cs)) front.utf8ByteSize =
      located (front ++ String.ofList ('L' :: cs)) (read ('L' :: cs)) := by
  rw [classAt, cut_rest, read]
  rcases hdrop : cs.dropWhile (· != ';') with _ | ⟨c, after⟩
  · have hmem : ';' ∉ 'L' :: cs := by
      intro hmem
      rw [List.dropWhile_eq_nil_iff] at hdrop
      simpa using hdrop ';' (by simpa using hmem)
    have hnone : semicolon? (String.ofList ('L' :: cs)) = none := by
      rw [semicolon?, String.toList_ofList, if_neg hmem]
    simp only [bind, Except.bind, hnone]
    rfl
  · obtain ⟨hcs, hname⟩ := eq_name_append hdrop
    generalize cs.takeWhile (· != ';') = name at hcs hname
    subst hcs
    simp only [bind, Except.bind, semicolon?_class hname]
    cases name with
    | nil =>
      rw [if_pos (by simp)]
      rfl
    | cons d name =>
      have hsize : (String.ofList (d :: name)).utf8ByteSize ≠ 0 := by
        rw [ofList_cons, String.utf8ByteSize_append]
        have := d.utf8Size_pos
        simp
        omega
      rw [if_neg (by omega), cut_name, located, offsetOf_class]
      rfl

theorem readAt_of_byteAt? {desc : String} {start : Nat} {c : Char}
    (h : byteAt? desc start = some c) (harray : c ≠ '[') (hclass : c ≠ 'L') :
    readAt desc start = oneAt desc start c := by
  rw [readAt]
  split
  · next hnone => simp [h] at hnone
  · next hsome => exact absurd (Option.some.inj (h.symm.trans hsome)) harray
  · next hsome => exact absurd (Option.some.inj (h.symm.trans hsome)) hclass
  · next hsome =>
    cases h.symm.trans hsome
    rfl

theorem readAt_array {desc : String} {start : Nat} (h : byteAt? desc start = some '[') :
    readAt desc start = match readAt desc (start + 1) with
      | .ok (element, stop) => .ok (.array element, stop)
      | .error fault => .error fault := by
  rw [readAt]
  split <;> simp_all

theorem readAt_class {desc : String} {start : Nat} (h : byteAt? desc start = some 'L') :
    readAt desc start = classAt desc start := by
  rw [readAt]
  split <;> simp_all

theorem readAt_one (front : String) {c : Char} (cs : List Char) (hc : c.toNat < 128)
    (harray : c ≠ '[') (hclass : c ≠ 'L') {type : FieldType}
    (hone : ∀ desc start, oneAt desc start c = .ok (type, start + 1)) :
    readAt (front ++ String.ofList (c :: cs)) front.utf8ByteSize =
      located (front ++ String.ofList (c :: cs)) (.ok (type, cs)) := by
  rw [readAt_of_byteAt? (byteAt?_cons front hc cs) harray hclass, hone, located,
    append_ofList_cons, offsetOf_append, utf8ByteSize_append_char front hc]

/-- A byte that begins no type is refused with the character that it begins. -/
theorem readAt_other (front : String) {c : Char} (cs : List Char)
    (hc : c ∉ ['[', 'L', 'I', 'Z', 'B', 'C', 'S', 'J', 'F', 'D']) :
    readAt (front ++ String.ofList (c :: cs)) front.utf8ByteSize =
      located (front ++ String.ofList (c :: cs)) (.error (.invalid c (c :: cs))) := by
  obtain ⟨d, hbyte, hd⟩ := byteAt?_ofList_cons c cs
  rw [← byteAt?_append front] at hbyte
  have hne {a : Char} (ha : a.toNat < 128) (h : c ≠ a) : d ≠ a := mt (hd a ha).1 h
  simp only [List.mem_cons, List.not_mem_nil, or_false, not_or] at hc
  obtain ⟨harray, hclass, hI, hZ, hB, hC, hS, hJ, hF, hD⟩ := hc
  have hone : oneAt (front ++ String.ofList (c :: cs)) front.utf8ByteSize d =
      .error (.refused (.invalidChar (front ++ String.ofList (c :: cs)) c front.utf8ByteSize)) := by
    rw [oneAt, cut_rest]
    · simp only [bind, Except.bind, String.toList_ofList]
      rfl
    · exact hne (by decide) hI
    · exact hne (by decide) hZ
    · exact hne (by decide) hB
    · exact hne (by decide) hC
    · exact hne (by decide) hS
    · exact hne (by decide) hJ
    · exact hne (by decide) hF
    · exact hne (by decide) hD
  have hoffset := offsetOf_append front (c :: cs)
  rw [readAt_of_byteAt? hbyte (hne (by decide) harray) (hne (by decide) hclass), hone, located,
    DescriptorStop.inside]
  rw [offsetOf] at hoffset
  rw [hoffset]

theorem readAt_eq (front : String) (cs : List Char) :
    readAt (front ++ String.ofList cs) front.utf8ByteSize =
      located (front ++ String.ofList cs) (read cs) := by
  induction cs generalizing front with
  | nil =>
    have hnone := byteAt?_nil front
    rw [readAt]
    split <;> simp_all
    rfl
  | cons c cs ih =>
    by_cases hc : c ∈ ['[', 'L', 'I', 'Z', 'B', 'C', 'S', 'J', 'F', 'D']
    · simp only [List.mem_cons, List.not_mem_nil, or_false] at hc
      rcases hc with rfl | rfl | rfl | rfl | rfl | rfl | rfl | rfl | rfl | rfl
      · have hnext := ih (front ++ String.ofList ['['])
        rw [utf8ByteSize_append_char front (by decide), ← append_ofList_cons] at hnext
        rw [readAt_array (byteAt?_cons front (by decide) cs), hnext, read]
        rcases read cs with stop | ⟨element, rest⟩ <;> rfl
      · rw [readAt_class (byteAt?_cons front (by decide) cs), classAt_eq]
      all_goals exact readAt_one front _ (by decide) (by decide) (by decide) fun _ _ => rfl
    · rw [readAt_other front cs hc, read]
      all_goals exact fun h => hc (by simp [h])

theorem parse_eq_complete (desc : String) : parse desc = complete desc (read desc.toList) := by
  rw [parse]
  rcases read desc.toList with stop | ⟨type, _ | _⟩ <;> rfl

theorem parseAt_eq (desc : String) : parseAt desc = (parse desc).mapError .refused := by
  have hread := readAt_eq "" desc.toList
  rw [String.ofList_toList, String.empty_append] at hread
  rw [parseAt, show 0 = "".utf8ByteSize from rfl, hread, parse_eq_complete]
  refine completeAt_located fun type rest hrest => ?_
  obtain ⟨text, htext, -⟩ := describes_of_read hrest
  exact ⟨text, htext.symm⟩

end FieldType

/-! ## Method types -/

namespace MethodType

/-- Takes parameter types up to the closing parenthesis, from the offset on. -/
def paramsAt (desc : String) (start : Nat) : Except OffsetFault (List FieldType × Nat) :=
  match _at : byteAt? desc start with
  | none => .error (.refused (.unexpectedEnd desc))
  | some ')' => .ok ([], start + 1)
  | some _ =>
    match _read : FieldType.readAt desc start with
    | .error fault => .error fault
    | .ok (type, next) =>
      match paramsAt desc next with
      | .error fault => .error fault
      | .ok (types, stop) => .ok (type :: types, stop)
termination_by desc.utf8ByteSize - start
decreasing_by
  have := lt_of_byteAt? _at
  have := FieldType.lt_of_readAt _read
  omega

/-- Takes a result type, from the offset on. -/
def resultAt (desc : String) (start : Nat) : Except OffsetFault (Option FieldType × Nat) :=
  match byteAt? desc start with
  | none => .error (.refused (.unexpectedEnd desc))
  | some 'V' => .ok (none, start + 1)
  | some _ =>
    match FieldType.readAt desc start with
    | .error fault => .error fault
    | .ok (type, stop) => .ok (some type, stop)

/-- Takes a method descriptor off the front of a text. -/
def readAt (desc : String) : Except OffsetFault (MethodType × Nat) := do
  if desc.toList.head? ≠ some '(' then throw (.refused (.malformed desc))
  let (params, stop) ← paramsAt desc 1
  let (result, stop) ← resultAt desc stop
  return (⟨params, result⟩, stop)

/-- The method type that is described by the whole of `desc`. -/
def parseAt (desc : String) : Except OffsetFault MethodType := completeAt desc (readAt desc)

/-! ### Both parsers agree -/

theorem paramsAt_close {desc : String} {start : Nat} (h : byteAt? desc start = some ')') :
    paramsAt desc start = .ok ([], start + 1) := by
  rw [paramsAt]
  split
  · next hnone => cases h.symm.trans hnone
  · rfl
  · next hne hsome => exact absurd (Option.some.inj (h.symm.trans hsome)).symm hne

theorem paramsAt_cons {desc : String} {start : Nat} {c : Char} (h : byteAt? desc start = some c)
    (hc : c ≠ ')') : paramsAt desc start = match FieldType.readAt desc start with
      | .error fault => .error fault
      | .ok (type, next) =>
        match paramsAt desc next with
        | .error fault => .error fault
        | .ok (types, stop) => .ok (type :: types, stop) := by
  rw [paramsAt]
  split
  · next hnone => cases h.symm.trans hnone
  · next hsome => exact absurd (Option.some.inj (h.symm.trans hsome)) hc
  · split <;> simp_all

theorem resultAt_cons {desc : String} {start : Nat} {c : Char} (h : byteAt? desc start = some c)
    (hc : c ≠ 'V') : resultAt desc start = match FieldType.readAt desc start with
      | .error fault => .error fault
      | .ok (type, stop) => .ok (some type, stop) := by
  rw [resultAt]
  split
  · next hnone => cases h.symm.trans hnone
  · next hsome => exact absurd (Option.some.inj (h.symm.trans hsome)) hc
  · rfl

/-- What is left over stands behind what was in front, and what has been taken. -/
theorem exists_front (front : String) {cs rest : List Char} {type : FieldType}
    (h : FieldType.read cs = .ok (type, rest)) :
    ∃ front', front ++ String.ofList cs = front' ++ String.ofList rest := by
  obtain ⟨text, rfl, -⟩ := FieldType.describes_of_read h
  exact ⟨front ++ String.ofList text, by rw [String.ofList_append, String.append_assoc]⟩

theorem paramsAt_eq (front : String) (cs : List Char) :
    paramsAt (front ++ String.ofList cs) front.utf8ByteSize =
      located (front ++ String.ofList cs) (readParams cs) := by
  fun_induction readParams cs generalizing front with
  | case1 =>
    have hnone := byteAt?_nil front
    rw [paramsAt]
    split <;> simp_all
    rfl
  | case2 rest =>
    rw [paramsAt_close (byteAt?_cons front (by decide) rest), located, append_ofList_cons,
      offsetOf_append, utf8ByteSize_append_char front (by decide)]
  | case3 c cs hc stop hread =>
    obtain ⟨d, hbyte, hd⟩ := exists_byteAt?_ne front (by decide) hc cs
    rw [paramsAt_cons hbyte hd, FieldType.readAt_eq, hread]
    rfl
  | case4 c cs hc type rest hread stop hrest ih
  | case5 c cs hc type rest hread types after hrest ih =>
    obtain ⟨d, hbyte, hd⟩ := exists_byteAt?_ne front (by decide) hc cs
    obtain ⟨front', hfront⟩ := exists_front front hread
    rw [paramsAt_cons hbyte hd, FieldType.readAt_eq, hread, hfront, located]
    dsimp only
    rw [offsetOf_append, ih front', hrest]
    rfl

theorem resultAt_eq (front : String) (cs : List Char) :
    resultAt (front ++ String.ofList cs) front.utf8ByteSize =
      located (front ++ String.ofList cs) (readResult cs) := by
  rcases cs with _ | ⟨c, cs⟩
  · rw [resultAt, byteAt?_nil]
    rfl
  by_cases hc : c = 'V'
  · subst hc
    rw [resultAt, byteAt?_cons front (by decide), readResult, located, append_ofList_cons,
      offsetOf_append, utf8ByteSize_append_char front (by decide)]
    rfl
  · obtain ⟨d, hbyte, hd⟩ := exists_byteAt?_ne front (by decide) hc cs
    rw [resultAt_cons hbyte hd, FieldType.readAt_eq, readResult]
    · rcases FieldType.read (c :: cs) with stop | ⟨type, rest⟩ <;> rfl
    · simp
    · simpa using hc

theorem readAt_eq (desc : String) : readAt desc = located desc (read desc.toList) := by
  rcases hdesc : desc.toList with _ | ⟨c, cs⟩
  · rw [readAt, hdesc]
    rfl
  by_cases hc : c = '('
  · subst hc
    have hfront : desc = "(" ++ String.ofList cs := by
      rw [← String.ofList_toList (s := desc), hdesc, ofList_cons]
    have hparams := paramsAt_eq "(" cs
    rw [← hfront, show "(".utf8ByteSize = 1 from rfl] at hparams
    rw [readAt, hdesc, if_neg (by simp), read, hparams]
    rcases hread : readParams cs with stop | ⟨params, rest⟩
    · rfl
    obtain ⟨texts, hcs, -⟩ := describes_of_readParams hread
    have hrest : desc =
        ("(" ++ String.ofList texts ++ String.ofList [')']) ++ String.ofList rest := by
      rw [hfront, hcs, String.ofList_append, ofList_cons]
      simp only [String.append_assoc]
    show (resultAt desc (offsetOf desc rest) >>= _) = located desc (readResult rest >>= _)
    have hresult := resultAt_eq ("(" ++ String.ofList texts ++ String.ofList [')']) rest
    rw [← offsetOf_append _ rest, ← hrest] at hresult
    rw [hresult]
    rcases readResult rest with stop | ⟨result, rest'⟩ <;> rfl
  · rw [readAt, hdesc, if_pos (by simpa using hc), read]
    · rfl
    · simpa using hc

theorem parse_eq_complete (desc : String) : parse desc = complete desc (read desc.toList) := by
  rw [parse]
  rcases read desc.toList with stop | ⟨type, _ | _⟩ <;> rfl

theorem parseAt_eq (desc : String) : parseAt desc = (parse desc).mapError .refused := by
  rw [parseAt, readAt_eq, parse_eq_complete]
  refine completeAt_located fun type rest hrest => ?_
  obtain ⟨text, htext, -⟩ := describes_of_read hrest
  exact ⟨text, htext.symm⟩

end MethodType

/-! ## Descriptors -/

theorem mapError_refused_ne_inside {α : Type} (parsed : Except DescriptorError α)
    (start stop : Nat) :
    parsed.mapError OffsetFault.refused ≠ .error (OffsetFault.inside start stop) := by
  cases parsed <;> simp [Except.mapError]

/-- **A descriptor is read just if the grammar has it.** What is read is the one type that the text
describes, for method types and for field types. The descriptor of a type is read as that type just
if the classes in it have names that a descriptor can hold. The parser that goes by offsets comes to
the same on every text, so it never cuts one inside a character. -/
theorem parse_eq_ok_iff_describes :
    (∀ desc type, MethodType.parse desc = .ok type ↔ MethodType.Describes desc.toList type ∧
      ∀ type', MethodType.Describes desc.toList type' → type' = type) ∧
    (∀ desc type, FieldType.parse desc = .ok type ↔ FieldType.Describes desc.toList type ∧
      ∀ type', FieldType.Describes desc.toList type' → type' = type) ∧
    (∀ type : MethodType, MethodType.parse type.descriptor = .ok type ↔ type.WellNamed) ∧
    (∀ type : FieldType, FieldType.parse type.descriptor = .ok type ↔ type.WellNamed) ∧
    (∀ desc, MethodType.parseAt desc = (MethodType.parse desc).mapError .refused ∧
      ∀ start stop, MethodType.parseAt desc ≠ .error (.inside start stop)) ∧
    ∀ desc, FieldType.parseAt desc = (FieldType.parse desc).mapError .refused ∧
      ∀ start stop, FieldType.parseAt desc ≠ .error (.inside start stop) := by
  refine ⟨fun desc type => ?_, fun desc type => ?_, fun type => ?_, fun type => ?_, fun desc => ?_,
    fun desc => ?_⟩
  · rw [MethodType.parse_eq_ok_iff]
    exact ⟨fun h => ⟨h, fun type' h' => MethodType.reads_exactly.unique h' h⟩, And.left⟩
  · rw [FieldType.parse_eq_ok_iff]
    exact ⟨fun h => ⟨h, fun type' h' => FieldType.reads_exactly.unique h' h⟩, And.left⟩
  · exact MethodType.parse_descriptor_eq_ok_iff
  · exact FieldType.parse_descriptor_eq_ok_iff
  · have hsame := MethodType.parseAt_eq desc
    exact ⟨hsame, fun start stop => hsame ▸ mapError_refused_ne_inside _ start stop⟩
  · have hsame := FieldType.parseAt_eq desc
    exact ⟨hsame, fun start stop => hsame ▸ mapError_refused_ne_inside _ start stop⟩

/-- A method type with names that are not ASCII, or look like descriptors themselves. -/
def outlandish : MethodType where
  params := [.int, .object "dé(x)V", .array (.array .long)]
  result := some (.object "ö[")

theorem parse_eq_ok_iff_describes_outlandish :
    MethodType.parse "(ILdé(x)V;[[J)Lö[;" = .ok outlandish ∧
    MethodType.Describes "(ILdé(x)V;[[J)Lö[;".toList outlandish ∧
    MethodType.parseAt "(ILdé(x)V;[[J)Lö[;" = .ok outlandish ∧
    FieldType.parseAt "[é" = .error (.refused (.invalidChar "[é" 'é' 1)) := by
  obtain ⟨hmethod, -, hdescriptor, -, hmethodAt, hfieldAt⟩ := parse_eq_ok_iff_describes
  have hparse : MethodType.parse "(ILdé(x)V;[[J)Lö[;" = .ok outlandish :=
    (hdescriptor outlandish).2 ⟨by simp [outlandish, FieldType.WellNamed], by
      simp [outlandish, FieldType.WellNamed]⟩
  refine ⟨hparse, ((hmethod _ _).1 hparse).1, ?_, ?_⟩
  · rw [(hmethodAt _).1, hparse]
    rfl
  · rw [(hfieldAt _).1]
    rfl

end Resumable
