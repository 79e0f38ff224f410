import Mathlib
import Resumable.ClassDef.Json
import Resumable.Json.Tagged
import Resumable.Proofs.Json.Reading

/-!
# Decoding what has been written

A decoder recovers a value from its JSON form (`Recovers`) if the form has no numbers but whole ones
and the decoder makes the value of what it says. There is one rule for each way to put decoders
together, so that the decoder of a record recovers it as soon as those of its fields do.
-/

namespace Resumable

namespace Json

/-- The decoder makes `a` of what `j` says. -/
structure Recovers {α : Type} (decode : Decoder α) (j : Json) (a : α) : Prop where
  whole : j.IsWhole
  decoded : decode j.draft = .ok a

variable {α β : Type} {decode : Decoder α} {j : Json} {a : α}

/-- A value is recovered from its text on one line. -/
theorem Recovers.run_compact (h : Recovers decode j a) : decode.run j.compact = .ok a := by
  rw [Json.run_compact decode h.whole, h.decoded]

/-- A value is recovered from its text over indented lines. -/
theorem Recovers.run_pretty (h : Recovers decode j a) : decode.run j.pretty = .ok a := by
  rw [Json.run_pretty decode h.whole, h.decoded]

theorem Recovers.map (f : α → β) (h : Recovers decode j a) :
    Recovers (fun d => f <$> decode d) j (f a) :=
  ⟨h.whole, by rw [h.decoded]; rfl⟩

/-! ## Numbers and texts -/

theorem recovers_string (s : String) : Recovers Decoder.string (.str s) s := ⟨trivial, rfl⟩

/-- A number of at most 64 bits is taken exactly. -/
theorem toInt?_whole {v : Int} (hlow : -2 ^ 63 ≤ v) (hhigh : v < 2 ^ 64) :
    NumberText.toInt? ⟨decide (v < 0), Draft.digitValues (Nat.toDigits 10 v.natAbs), [], 0, true⟩ =
      some v := by
  have hlow' : Nat.pow 2 63 = 9223372036854775808 := rfl
  have hhigh' : Nat.pow 2 64 = 18446744073709551616 := rfl
  simp only [NumberText.toInt?, Draft.ofDigits_toDigits, hlow', hhigh']
  by_cases h : v < 0
  · have hrange : 0 < v.natAbs ∧ v.natAbs ≤ 9223372036854775808 := by omega
    simp only [decide_eq_true h, if_pos hrange, Bool.not_true, Bool.false_eq_true, if_false, if_true]
    exact congrArg some (by omega)
  · have hrange : v.natAbs < 18446744073709551616 := by omega
    simp only [decide_eq_false h, if_pos hrange, Bool.not_true, Bool.false_eq_true, if_false]
    exact congrArg some (by omega)

theorem isWhole_int {v : Int} (hlow : -2 ^ 63 ≤ v) (hhigh : v < 2 ^ 64) : (Json.int v).IsWhole :=
  ⟨v, hlow, hhigh, rfl⟩

theorem recovers_integer (low high : Int) {v : Int} (hlow : -2 ^ 63 ≤ low) (hhigh : high < 2 ^ 64)
    (hv : low ≤ v ∧ v ≤ high) : Recovers (Decoder.integer low high) (.int v) v where
  whole := isWhole_int (by omega) (by omega)
  decoded := by
    rw [draft_int, Draft.whole, Decoder.integer, toInt?_whole (by omega) (by omega)]
    exact if_pos hv

theorem recovers_natural (bits : Nat) {n : Nat} (hbits : bits ≤ 64) (hn : n < 2 ^ bits) :
    Recovers (Decoder.natural bits) (.nat n) n := by
  have hpow : Nat.pow 2 bits ≤ Nat.pow 2 64 := Nat.pow_le_pow_right (by decide) hbits
  have hmax : Nat.pow 2 64 = 18446744073709551616 := rfl
  have hn : n < Nat.pow 2 bits := hn
  have h : Recovers (Decoder.integer 0 (Nat.pow 2 bits - 1)) (.int n) n :=
    recovers_integer 0 _ (by omega) (by omega) (by omega)
  exact h.map Int.toNat

theorem recovers_uint16 (n : UInt16) : Recovers Decoder.uint16 (.nat n.toNat) n := by
  have h := (recovers_natural 16 (by decide) n.toNat_lt).map UInt16.ofNat
  rw [UInt16.ofNat_toNat] at h
  exact h

theorem recovers_uint32 (n : UInt32) : Recovers Decoder.uint32 (.nat n.toNat) n := by
  have h := (recovers_natural 32 (by decide) n.toNat_lt).map UInt32.ofNat
  rw [UInt32.ofNat_toNat] at h
  exact h

theorem recovers_uint64 (n : UInt64) : Recovers Decoder.uint64 (.nat n.toNat) n := by
  have h := (recovers_natural 64 (by decide) n.toNat_lt).map UInt64.ofNat
  rw [UInt64.ofNat_toNat] at h
  exact h

theorem recovers_int32 (v : Int32) : Recovers Decoder.int32 (.int v.toInt) v := by
  have h := (recovers_integer Int32.minValue.toInt Int32.maxValue.toInt (by decide) (by decide)
    ⟨v.minValue_le_toInt, v.toInt_le⟩).map Int32.ofInt
  rw [Int32.ofInt_toInt] at h
  exact h

theorem recovers_int64 (v : Int64) : Recovers Decoder.int64 (.int v.toInt) v := by
  have h := (recovers_integer Int64.minValue.toInt Int64.maxValue.toInt (by decide) (by decide)
    ⟨v.minValue_le_toInt, v.toInt_le⟩).map Int64.ofInt
  rw [Int64.ofInt_toInt] at h
  exact h

/-! ## Options and lists -/

/-- A text is recovered whether it is there or null stands for it. -/
theorem recovers_option (s : Option String) :
    Recovers (Decoder.option Decoder.string) (.str? s) s := by
  cases s with
  | none => exact ⟨trivial, rfl⟩
  | some s => exact ⟨trivial, rfl⟩

/-- A list is recovered item by item. -/
theorem Recovers.list {write : α → Json} {as : List α}
    (h : ∀ a ∈ as, Recovers decode (write a) a) :
    Recovers (Decoder.list decode) (.arr (as.map write)) as := by
  suffices AreWhole (as.map write) ∧ (draftItems (as.map write)).mapM decode = .ok as from
    ⟨this.1, this.2⟩
  induction as with
  | nil => exact ⟨trivial, rfl⟩
  | cons a as ih =>
    have ha := h a List.mem_cons_self
    obtain ⟨hwhole, hread⟩ := ih fun b hb => h b (List.mem_cons_of_mem a hb)
    refine ⟨⟨ha.whole, hwhole⟩, ?_⟩
    rw [List.map_cons, draftItems, List.mapM_cons, ha.decoded, hread]
    rfl

theorem recovers_strings (items : List String) :
    Recovers (Decoder.list Decoder.string) (.strings items) items :=
  .list fun s _ => recovers_string s

/-! ## Records -/

section

open Decoder (RecordField recordMembers missingField? required optional)

variable {σ : Type} {fields : List (RecordField σ)} {seen : List String} {s s' t : σ}
  {key : String} {members : List (String × Json)}

/-- The members that are left make `t` of what has been made of the ones before. -/
structure Completes (fields : List (RecordField σ)) (seen : List String) (s : σ)
    (members : List (String × Json)) (t : σ) : Prop where
  whole : HasWhole members
  decoded : recordMembers fields seen s (draftMembers members) = .ok t

/-- Nothing is left if no field is missing. -/
theorem completes_nil (h : missingField? fields seen = none) : Completes fields seen s [] s where
  whole := trivial
  decoded := by
    rw [draftMembers, recordMembers, h]

/-- The first of the members is a field that has not been seen. -/
theorem completes_cons {set : σ → α → σ} {isRequired : Bool}
    (hf : fields.find? (·.key == key) = some ⟨key, isRequired, fun s d => set s <$> decode d⟩)
    (hseen : seen.contains key = false) (ha : Recovers decode j a)
    (h : Completes fields (key :: seen) (set s a) members t) :
    Completes fields seen s ((key, j) :: members) t where
  whole := ⟨ha.whole, h.whole⟩
  decoded := by
    rw [draftMembers, recordMembers, hf]
    simp only [hseen, ha.decoded]
    exact h.decoded

/-- A record is recovered if its members complete it. -/
theorem Completes.recovers (h : Completes fields [] s members t) :
    Recovers (Decoder.record fields s) (.obj members) t :=
  ⟨h.whole, h.decoded⟩

end

/-- A record of two fields is recovered if both are. -/
theorem recovers_pair {α β : Type} [Inhabited α] [Inhabited β] {key₁ key₂ : String}
    (hkeys : key₁ ≠ key₂) {first : Decoder α} {second : Decoder β} {j k : Json} {a : α} {b : β}
    (ha : Recovers first j a) (hb : Recovers second k b) :
    Recovers (Decoder.pair key₁ first key₂ second) (.obj [(key₁, j), (key₂, k)]) (a, b) := by
  let setFirst : α × β → α → α × β := fun s a => (a, s.2)
  let setSecond : α × β → β → α × β := fun s b => (s.1, b)
  let fields := [Decoder.required key₁ first setFirst, Decoder.required key₂ second setSecond]
  have hfirst : fields.find? (·.key == key₁) = some (Decoder.required key₁ first setFirst) := by
    simp [fields, Decoder.required]
  have hsecond : fields.find? (·.key == key₂) = some (Decoder.required key₂ second setSecond) := by
    simp [fields, Decoder.required, hkeys]
  have hall : Decoder.missingField? fields [key₂, key₁] = none := by
    simp [fields, Decoder.missingField?, Decoder.required]
  refine Completes.recovers ?_
  refine completes_cons hfirst rfl ha ?_
  refine completes_cons hsecond (by simp [hkeys.symm]) hb ?_
  exact completes_nil hall

/-! ## Alternatives -/

section

variable {alternative? : String → Option (Option Draft → Except Fault α)} {tag : String}

/-- An alternative is recovered from its tag alone. -/
theorem recovers_bare (h : alternative? tag = some (Decoder.bare a)) :
    Recovers (Decoder.choice alternative?) (.str tag) a where
  whole := trivial
  decoded := by
    rw [draft, Decoder.choice, h]
    rfl

/-- An alternative is recovered with its value. -/
theorem recovers_carrying (h : alternative? tag = some (Decoder.carrying decode))
    (ha : Recovers decode j a) : Recovers (Decoder.choice alternative?) (.tagged tag j) a where
  whole := ⟨ha.whole, trivial⟩
  decoded := by
    have hd : Decoder.carrying decode (some j.draft) = .ok a := ha.decoded
    rw [tagged, draft, draftMembers, Decoder.choice, h]
    simp only [hd]
    rfl

end

/-! ## Alternatives with a tag of their own -/

section

theorem ok_bind (a : α) (f : α → Except Fault β) : (Except.ok a >>= f) = f a := rfl

theorem nextMember_cons {wanted : List String} {key : String} (h : wanted.contains key = true)
    (d : Draft) (rest : List (Except Fault String × Draft)) :
    Decoder.nextMember wanted ((.ok key, d) :: rest) = .ok (some (key, d, rest)) := by
  rw [Decoder.nextMember, if_pos h]

theorem nextMember_nil (wanted : List String) : Decoder.nextMember wanted [] = .ok none := rfl

variable {alternative? : String → Option (Option Draft → Except Fault α)} {tag : String}
  {depth : Nat} {tagKey valueKey : String}

theorem choice_tag {f : Option Draft → Except Fault α} (h : alternative? tag = some f) :
    Decoder.choice (fun t => (alternative? t).map Decoder.bare) (.str tag) = .ok f := by
  rw [Decoder.choice, h]
  rfl

/-- An alternative is recovered from its tag under a key. -/
theorem recovers_beside_bare (h : alternative? tag = some (Decoder.bare a)) :
    Recovers (Decoder.beside depth tagKey valueKey alternative?) (.obj [(tagKey, .str tag)]) a where
  whole := ⟨trivial, trivial⟩
  decoded := by
    have hkey : [tagKey, valueKey].contains tagKey = true := by simp
    simp only [draft, draftMembers, Decoder.beside, nextMember_cons hkey, ok_bind, BEq.rfl,
      if_true, choice_tag h, nextMember_nil, Decoder.bare]

/-- An alternative is recovered from its tag under a key and its value under another. -/
theorem recovers_beside_carrying (hkeys : valueKey ≠ tagKey)
    (h : alternative? tag = some (Decoder.carrying decode)) (ha : Recovers decode j a) :
    Recovers (Decoder.beside depth tagKey valueKey alternative?)
      (.obj [(tagKey, .str tag), (valueKey, j)]) a where
  whole := ⟨trivial, ha.whole, trivial⟩
  decoded := by
    have hkey : [tagKey, valueKey].contains tagKey = true := by simp
    have hvalue : [tagKey, valueKey].contains valueKey = true := by simp
    have hne : (valueKey == tagKey) = false := by simp [hkeys]
    simp only [draft, draftMembers, Decoder.beside, nextMember_cons hkey, ok_bind, BEq.rfl,
      if_true, choice_tag h, nextMember_cons hvalue, hne, Decoder.carrying, ha.decoded]
    rfl

end

/-! Members in front of the tag are held back. -/

mutual

/-- How deep arrays and objects are nested. -/
def depth : Json → Nat
  | .arr items => depthItems items + 1
  | .obj members => depthMembers members + 1
  | _ => 0

def depthItems : List Json → Nat
  | [] => 0
  | item :: rest => max item.depth (depthItems rest)

def depthMembers : List (String × Json) → Nat
  | [] => 0
  | (_, value) :: rest => max value.depth (depthMembers rest)

end

theorem holdFault?_whole {v : Int} (hlow : -2 ^ 63 ≤ v) (hhigh : v < 2 ^ 64) (room : Nat) :
    (Draft.whole v).holdFault? room = none := by
  simp [Draft.whole, Draft.holdFault?, Draft.misfit, toInt?_whole hlow hhigh]

mutual

/-- A value of whole numbers can be held back wherever it is not nested too deeply. -/
theorem holdFault?_draft : ∀ {j : Json}, j.IsWhole → ∀ {room : Nat}, j.depth ≤ room →
    j.draft.holdFault? room = none
  | .null, _, _, _ | .bool _, _, _, _ | .str _, _, _, _ => by simp [draft, Draft.holdFault?]
  | .num _, ⟨v, hlow, hhigh, rfl⟩, room, _ => by
    rw [← Json.int, draft_int, holdFault?_whole hlow hhigh]
  | .arr items, hj, room, hroom => by
    rw [depth] at hroom
    rw [draft, Draft.holdFault?, if_neg (by omega), holdItems?_draft hj (by omega)]
  | .obj members, hj, room, hroom => by
    rw [depth] at hroom
    rw [draft, Draft.holdFault?, if_neg (by omega), holdMembers?_draft hj (by omega)]

theorem holdItems?_draft : ∀ {items : List Json}, AreWhole items → ∀ {room : Nat},
    depthItems items ≤ room → Draft.holdItems? room (draftItems items) = none
  | [], _, _, _ => by rw [draftItems, Draft.holdItems?]
  | item :: rest, ⟨hitem, hrest⟩, room, hroom => by
    rw [depthItems] at hroom
    rw [draftItems, Draft.holdItems?, holdFault?_draft hitem (by omega)]
    exact holdItems?_draft hrest (by omega)

theorem holdMembers?_draft : ∀ {members : List (String × Json)}, HasWhole members →
    ∀ {room : Nat}, depthMembers members ≤ room →
      Draft.holdMembers? room (draftMembers members) = none
  | [], _, _, _ => by rw [draftMembers, Draft.holdMembers?]
  | (key, value) :: rest, ⟨hvalue, hrest⟩, room, hroom => by
    rw [depthMembers] at hroom
    rw [draftMembers, Draft.holdMembers?, holdFault?_draft hvalue (by omega)]
    exact holdMembers?_draft hrest (by omega)

end

theorem depthItems_map {write : α → Json} {as : List α} {n : Nat} (h : ∀ a, (write a).depth ≤ n) :
    depthItems (as.map write) ≤ n := by
  induction as with
  | nil => exact Nat.zero_le n
  | cons a as ih => exact Nat.max_le.2 ⟨h a, ih⟩

section

variable {alternative? : String → Option (Decoder α)} {tag tagKey : String} {n : Nat}
  {members : List (String × Json)}

/-- Behind the tag, all other members are held back. -/
theorem splitTag_members (isTag : String → Bool) (t : Option String)
    (hkeys : ∀ member ∈ members, member.1 ≠ tagKey) (hwhole : HasWhole members)
    (hdepth : depthMembers members ≤ maxNesting - n) :
    Decoder.splitTag n tagKey isTag t (draftMembers members) = .ok (t, draftMembers members) := by
  induction members with
  | nil => rfl
  | cons member rest ih =>
    obtain ⟨key, value⟩ := member
    obtain ⟨hvalue, hrest⟩ := hwhole
    rw [depthMembers] at hdepth
    have hkey : (key == tagKey) = false := by simpa using hkeys (key, value) List.mem_cons_self
    have hhold : value.draft.hold n = .ok () := by
      rw [Draft.hold, holdFault?_draft hvalue (by omega)]
    have hmore := ih (fun m hm => hkeys m (List.mem_cons_of_mem _ hm)) hrest (by omega)
    simp only [draftMembers, Decoder.splitTag, hkey, hhold, hmore, ok_bind]
    rfl

/-- A record is recovered with its tag among its members. -/
theorem recovers_within (h : alternative? tag = some decode)
    (hkeys : ∀ member ∈ members, member.1 ≠ tagKey)
    (hdepth : depthMembers members ≤ maxNesting - n) (ha : Recovers decode (.obj members) a) :
    Recovers (Decoder.within n tagKey alternative?) (.obj ((tagKey, .str tag) :: members)) a where
  whole := ⟨trivial, ha.whole⟩
  decoded := by
    let isTag (t : String) : Bool := (alternative? t).isSome
    have hfirst : Decoder.splitTag n tagKey isTag none (draftMembers ((tagKey, .str tag) :: members))
        = .ok (some tag, draftMembers members) := by
      have hsplit := splitTag_members isTag (some tag) hkeys ha.whole hdepth
      have htag : isTag tag = true := by simp [isTag, h]
      simp only [draftMembers, draft, Decoder.splitTag, BEq.rfl, if_true, Decoder.string, ok_bind,
        htag]
      exact hsplit
    have hdecode : decode (.obj (draftMembers members)) = .ok a := ha.decoded
    rw [draft, Decoder.within, hfirst, ok_bind]
    simp only [h, hdecode]
    rfl

end

end Json

end Resumable
