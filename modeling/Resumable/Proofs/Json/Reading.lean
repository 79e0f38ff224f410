import Mathlib
import Resumable.Proofs.Json.Spelling

/-!
# Reading what has been written

A spelled value is read back, whatever blanks it has been spelled with: `Draft.value` takes exactly
its characters and makes of them what the value says (`value_spell`). So the whole of a text that a
value is written as is read as this value (`document_compact`, `document_pretty`).

Numbers are only looked at here as far as they are whole and not too large (`Json.IsWhole`).
-/

namespace Resumable

namespace Json

namespace Draft

/-! ## Texts -/

/-- The characters that are escaped by a letter or by themselves. -/
def escaped : List Char := ['"', '\\', '\n', '\r', '\t', '\x08', '\x0c']

/-- A control character is written with four digits. -/
theorem toList_control : ∀ n < 32,
    ("\\u00" ++ (if n < 0x10 then "0" else "") ++ Text.hexDigits n).toList =
        ['\\', 'u', '0', '0', Nat.digitChar (n / 16), Nat.digitChar (n % 16)] ∧
      hexUnit? '0' '0' (Nat.digitChar (n / 16)) (Nat.digitChar (n % 16)) = some n := by
  decide

theorem escapeChar_of_control {c : Char} (hc : c ∉ escaped) (h : c.toNat < 32) :
    (escapeChar c).toList =
      ['\\', 'u', '0', '0', Nat.digitChar (c.toNat / 16), Nat.digitChar (c.toNat % 16)] := by
  simp only [escaped, List.mem_cons, List.not_mem_nil, or_false, not_or] at hc
  rw [← (toList_control c.toNat h).1]
  simp [escapeChar, hc, h]

theorem escapeChar_of_plain {c : Char} (hc : c ∉ escaped) (h : ¬ c.toNat < 32) :
    (escapeChar c).toList = [c] := by
  simp only [escaped, List.mem_cons, List.not_mem_nil, or_false, not_or] at hc
  simp [escapeChar, hc, h]

/-- A character without an escape is a piece. -/
theorem pieces_plain {c : Char} (hc : c ∉ escaped) (h : ¬ c.toNat < 32) (cs : List Char) :
    pieces (c :: cs) = (.char c :: (pieces cs).1, (pieces cs).2) := by
  simp only [escaped, List.mem_cons, List.not_mem_nil, or_false, not_or] at hc
  rw [pieces.eq_def]
  split
  all_goals simp_all

/-- A unit outside the surrogate ranges is a character by itself. -/
theorem joinPieces_unit {n : Nat} (hn : n < 0xD800) (isOpen : Bool) (ps : List Piece) :
    joinPieces isOpen (.unit n :: ps) = (Char.ofNat n :: ·) <$> joinPieces isOpen ps := by
  have hlow : ¬(0xD800 ≤ n ∧ n ≤ 0xDFFF) := by omega
  cases ps with
  | nil =>
    simp only [joinPieces, if_neg hlow]
    rfl
  | cons p ps =>
    rw [joinPieces.eq_def]
    simp only [if_neg (show ¬(0xDC00 ≤ n ∧ n ≤ 0xDFFF) by omega),
      if_neg (show ¬(0xD800 ≤ n ∧ n ≤ 0xDBFF) by omega)]

/-- An escaped character is one piece, which is joined to the character again. -/
theorem pieces_escapeChar (c : Char) (cs : List Char) :
    ∃ p, pieces ((escapeChar c).toList ++ cs) = (p :: (pieces cs).1, (pieces cs).2) ∧
      ∀ isOpen ps, joinPieces isOpen (p :: ps) = (c :: ·) <$> joinPieces isOpen ps := by
  by_cases hc : c ∈ escaped
  · refine ⟨.char c, ?_, fun isOpen ps => by rw [joinPieces]⟩
    simp only [escaped, List.mem_cons, List.not_mem_nil, or_false] at hc
    rcases hc with rfl | rfl | rfl | rfl | rfl | rfl | rfl <;> rfl
  · by_cases h : c.toNat < 32
    · refine ⟨.unit c.toNat, ?_, fun isOpen ps => ?_⟩
      · rw [escapeChar_of_control hc h]
        simp [pieces, (toList_control c.toNat h).2]
      · rw [joinPieces_unit (by omega), Char.ofNat_toNat]
    · refine ⟨.char c, ?_, fun isOpen ps => by rw [joinPieces]⟩
      rw [escapeChar_of_plain hc h]
      exact pieces_plain hc h cs

/-- A text between quotes is cut and joined again. -/
theorem pieces_spelled (s rest : List Char) :
    ∃ ps, pieces (s.flatMap (escapeChar · |>.toList) ++ '"' :: rest) = (ps, .ok rest) ∧
      joinPieces false ps = some s := by
  induction s with
  | nil => exact ⟨[], rfl, rfl⟩
  | cons c s ih =>
    obtain ⟨ps, hps, hjoin⟩ := ih
    obtain ⟨p, hp, hfirst⟩ :=
      pieces_escapeChar c (s.flatMap (escapeChar · |>.toList) ++ '"' :: rest)
    refine ⟨p :: ps, ?_, ?_⟩
    · rw [List.flatMap_cons, List.append_assoc, hp, hps]
    · rw [hfirst, hjoin]
      rfl

/-- Behind the opening quote, a text is read up to its closing one. -/
theorem text_spelled (s : String) (rest : List Char) :
    text (s.toList.flatMap (escapeChar · |>.toList) ++ '"' :: rest) = (.ok s, .ok rest) := by
  obtain ⟨ps, hps, hjoin⟩ := pieces_spelled s.toList rest
  unfold text
  rw [hps]
  dsimp only
  rw [hjoin]
  dsimp only
  rw [String.ofList_toList]

/-! ## Numbers -/

/-- Nothing here makes a number longer. -/
def Stops (cs : List Char) : Prop :=
  ∀ c ∈ cs.head?, isDigit c = false ∧ c ≠ '.' ∧ c ≠ 'e' ∧ c ≠ 'E'

theorem stops_nil : Stops [] := nofun

theorem stops_cons {c : Char} {cs : List Char} (h : c ∈ [',', ']', '}']) : Stops (c :: cs) := by
  rintro _ ⟨⟩
  simp only [List.mem_cons, List.not_mem_nil, or_false] at h
  rcases h with rfl | rfl | rfl <;> decide

theorem Stops.blanks {gap cs : List Char} (h : ∀ c ∈ gap, isBlank c = true) (hs : Stops cs) :
    Stops (gap ++ cs) := by
  cases gap with
  | nil => exact hs
  | cons b gap =>
    rintro _ ⟨⟩
    have hb := h b List.mem_cons_self
    simp only [isBlank, Bool.or_eq_true, decide_eq_true_eq] at hb
    rcases hb with ((rfl | rfl) | rfl) | rfl <;> decide

theorem isDigit_toDigits {n : Nat} : ∀ c ∈ Nat.toDigits 10 n, isDigit c = true := by
  intro c hc
  have := Nat.isDigit_of_mem_toDigits (by decide) (by decide) hc
  simp only [Char.isDigit, Bool.and_eq_true, decide_eq_true_eq] at this
  simp only [isDigit, Bool.and_eq_true, decide_eq_true_eq]
  exact this

/-- Only zero is written with a zero in front. -/
theorem head_toDigits {n : Nat} (h : 0 < n) : (Nat.toDigits 10 n).head? ≠ some '0' := by
  induction n using Nat.strongRecOn with
  | ind n ih =>
    rcases Nat.lt_or_ge n 10 with hlt | hge
    · rw [Nat.toDigits_of_lt_base hlt]
      have : ∀ n < 10, 0 < n → [Nat.digitChar n].head? ≠ some '0' := by decide
      exact this n hlt h
    · have hsplit := Nat.toDigits_append_toDigits (b := 10) (n := n / 10) (d := n % 10) (by decide)
        (by omega) (by omega)
      rw [Nat.div_add_mod] at hsplit
      rw [← hsplit, List.head?_append_of_ne_nil]
      · exact ih (n / 10) (by omega) (by omega)
      · exact Nat.toDigits_ne_nil

theorem Stops.takeWhile {cs : List Char} (h : Stops cs) : cs.takeWhile isDigit = [] := by
  cases cs with
  | nil => rfl
  | cons c cs => rw [List.takeWhile_cons_of_neg (by simp [(h c rfl).1])]

theorem Stops.dropWhile {cs : List Char} (h : Stops cs) : cs.dropWhile isDigit = cs := by
  cases cs with
  | nil => rfl
  | cons c cs => rw [List.dropWhile_cons_of_neg (by simp [(h c rfl).1])]

/-- No exponent is taken where nothing makes a number longer. -/
theorem Stops.exponent? {cs : List Char} (h : Stops cs) (n : NumberText) :
    exponent? n cs = (.num n, some cs) := by
  rw [Draft.exponent?.eq_def]
  split
  · exact absurd rfl (h _ rfl).2.2.1
  · exact absurd rfl (h _ rfl).2.2.2
  · rfl

/-- The digits of a whole number are taken up to where they stop. -/
theorem number_toDigits (negative : Bool) (n : Nat) {rest : List Char} (h : Stops rest) :
    number negative (Nat.toDigits 10 n ++ rest) =
      (.num ⟨negative, digitValues (Nat.toDigits 10 n), [], 0, true⟩, some rest) := by
  have htake : (Nat.toDigits 10 n ++ rest).takeWhile isDigit = Nat.toDigits 10 n := by
    rw [List.takeWhile_append_of_pos isDigit_toDigits, h.takeWhile, List.append_nil]
  have hdrop : (Nat.toDigits 10 n ++ rest).dropWhile isDigit = rest := by
    rw [List.dropWhile_append_of_pos isDigit_toDigits, h.dropWhile]
  have hzero : ¬((Nat.toDigits 10 n).head? == some '0' && (Nat.toDigits 10 n).length != 1) := by
    rcases Nat.eq_zero_or_pos n with rfl | hpos
    · decide
    · simp [head_toDigits hpos]
  simp only [number, htake, hdrop, List.isEmpty_iff, Nat.toDigits_ne_nil, if_false, if_neg hzero]
  split
  · exact absurd rfl (h _ rfl).2.1
  · exact h.exponent? _

theorem ofDigits_toDigits (n : Nat) : NumberText.ofDigits (digitValues (Nat.toDigits 10 n)) = n :=
  calc NumberText.ofDigits (digitValues (Nat.toDigits 10 n))
    _ = Nat.ofDigitChars 10 (Nat.toDigits 10 n) 0 := by
      simp [NumberText.ofDigits, digitValues, Nat.ofDigitChars, List.foldl_map]
    _ = n := Nat.ofDigitChars_toDigits (by decide) (by decide)

/-- A whole number as a draft. -/
def whole (v : Int) : Draft :=
  .num ⟨decide (v < 0), digitValues (Nat.toDigits 10 v.natAbs), [], 0, true⟩

end Draft

/-! ## What a value says -/

/-- The number that a text of digits is, with or without a sign. -/
def numberText : List Char → NumberText
  | '-' :: digits => ⟨true, Draft.digitValues digits, [], 0, true⟩
  | digits => ⟨false, Draft.digitValues digits, [], 0, true⟩

mutual

/-- What is read where a value has been written. -/
def draft : Json → Draft
  | .null => .null
  | .bool value => .bool value
  | .num text => .num (numberText text.toList)
  | .str value => .str value
  | .arr items => .arr (draftItems items)
  | .obj members => .obj (draftMembers members)

def draftItems : List Json → List Draft
  | [] => []
  | item :: rest => item.draft :: draftItems rest

def draftMembers : List (String × Json) → List (Except Fault String × Draft)
  | [] => []
  | (key, value) :: rest => (.ok key, value.draft) :: draftMembers rest

end

mutual

/-- All numbers of the value are whole, and 64 bits are enough for them. -/
def IsWhole : Json → Prop
  | .num text => ∃ v : Int, -2 ^ 63 ≤ v ∧ v < 2 ^ 64 ∧ text = toString v
  | .arr items => AreWhole items
  | .obj members => HasWhole members
  | _ => True

def AreWhole : List Json → Prop
  | [] => True
  | item :: rest => item.IsWhole ∧ AreWhole rest

def HasWhole : List (String × Json) → Prop
  | [] => True
  | (_, value) :: rest => value.IsWhole ∧ HasWhole rest

end

/-- The digits of an integer behind its sign. -/
theorem toList_toString (v : Int) :
    (toString v).toList = (if v < 0 then ['-'] else []) ++ Nat.toDigits 10 v.natAbs := by
  change (Int.repr v).toList = _
  rw [Int.repr_eq_if]
  by_cases h : v < 0
  · rw [if_neg (by omega), if_pos h, show (-v).toNat = v.natAbs by omega,
      Nat.repr_eq_ofList_toDigits, String.toList_append]
    exact congrArg ('-' :: ·) String.toList_ofList
  · rw [if_pos (by omega), if_neg h, show v.toNat = v.natAbs by omega,
      Nat.repr_eq_ofList_toDigits, String.toList_ofList]
    rfl

/-- A text that starts with a digit has no sign. -/
theorem numberText_toDigits (n : Nat) :
    numberText (Nat.toDigits 10 n) = ⟨false, Draft.digitValues (Nat.toDigits 10 n), [], 0, true⟩ := by
  rw [numberText.eq_def]
  split
  · rename_i digits heq
    have : Draft.isDigit '-' = true := Draft.isDigit_toDigits '-' (by rw [heq]; simp)
    cases this
  · rfl

@[simp]
theorem draft_int (v : Int) : (Json.int v).draft = .whole v := by
  rw [Json.int, draft, toList_toString, Draft.whole]
  by_cases h : v < 0
  · rw [if_pos h, decide_eq_true h]
    rfl
  · rw [if_neg h, decide_eq_false h, List.nil_append, numberText_toDigits]

@[simp]
theorem nat_eq_int (n : Nat) : Json.nat n = Json.int n := rfl

/-! ## Values -/

/-- What a value can start with: no blank, and nothing that ends an array. -/
def Starts (cs : List Char) : Prop := ∃ c tail, cs = c :: tail ∧ Draft.isBlank c = false ∧ c ≠ ']'

theorem Starts.cons {c : Char} (tail : List Char) (h : Draft.isBlank c = false) (hc : c ≠ ']') :
    Starts (c :: tail) :=
  ⟨c, tail, rfl, h, hc⟩

theorem Starts.append {cs : List Char} (h : Starts cs) (more : List Char) : Starts (cs ++ more) := by
  obtain ⟨c, tail, rfl, hc⟩ := h
  exact ⟨c, tail ++ more, rfl, hc⟩

theorem starts_of_isDigit {c : Char} (h : Draft.isDigit c = true) (tail : List Char) :
    Starts (c :: tail) := by
  refine .cons tail ?_ ?_
  · cases hb : Draft.isBlank c with
    | false => rfl
    | true =>
      simp only [Draft.isBlank, Bool.or_eq_true, decide_eq_true_eq] at hb
      rcases hb with ((rfl | rfl) | rfl) | rfl <;> cases h
  · rintro rfl
    cases h

/-- A value starts with a character of its own. -/
theorem starts_spell (σ : Spacing) (depth : Nat) {j : Json} (h : j.IsWhole) :
    Starts (spell σ depth j) := by
  cases j with
  | null => exact .cons _ rfl (by decide)
  | bool value => cases value <;> exact .cons _ rfl (by decide)
  | num text =>
    obtain ⟨v, -, -, rfl⟩ := h
    rw [spell, toList_toString]
    split
    · exact .cons _ rfl (by decide)
    · cases hds : Nat.toDigits 10 v.natAbs with
      | nil => exact absurd hds Nat.toDigits_ne_nil
      | cons c ds =>
        have hc : c ∈ Nat.toDigits 10 v.natAbs := by
          rw [hds]
          exact List.mem_cons_self
        exact starts_of_isDigit (Draft.isDigit_toDigits c hc) ds
  | str value => exact .cons _ rfl (by decide)
  | arr items => exact .cons _ rfl (by decide)
  | obj members => exact .cons _ rfl (by decide)

namespace Draft

theorem skipBlanks_append {gap : List Char} (h : ∀ c ∈ gap, isBlank c = true) (cs : List Char) :
    skipBlanks (gap ++ cs) = skipBlanks cs := by
  rw [skipBlanks, List.dropWhile_append_of_pos h, skipBlanks]

end Draft

theorem Starts.skipBlanks {cs : List Char} (h : Starts cs) : Draft.skipBlanks cs = cs := by
  obtain ⟨c, tail, rfl, hc, -⟩ := h
  have hc : ¬Draft.isBlank c = true := by simp [hc]
  rw [Draft.skipBlanks, List.dropWhile_cons_of_neg hc]

namespace Draft

/-! ### One step over a text -/

variable {fuel : Nat} {first : Bool} {cs rest after : List Char} {item : Draft}

theorem items_close (h : skipBlanks cs = ']' :: rest) :
    items (fuel + 1) first cs = ([], some rest) := by
  rw [items, h]
  rfl

/-- The first item of an array stands behind its bracket. -/
theorem items_first (hs : Starts (skipBlanks cs))
    (hv : value fuel (skipBlanks cs) = (item, some after)) :
    items (fuel + 1) true cs = (item :: (items fuel false after).1, (items fuel false after).2) := by
  obtain ⟨c, tail, hcs, -, hne⟩ := id hs
  rw [items.eq_def]
  dsimp only
  split
  · rename_i heq
    rw [heq] at hcs
    cases hcs
  · rename_i heq
    rw [heq] at hcs
    exact absurd (List.cons.inj hcs).1.symm hne
  · rename_i heq
    rw [← heq]
    simp [hs.skipBlanks, hv]

/-- Any other item stands behind a comma. -/
theorem items_next (hs : Starts (skipBlanks cs))
    (hv : value fuel (skipBlanks cs) = (item, some after)) :
    items (fuel + 1) false (',' :: cs) =
      (item :: (items fuel false after).1, (items fuel false after).2) := by
  obtain ⟨c, tail, hcs, -, hne⟩ := id hs
  rw [items, show skipBlanks (',' :: cs) = ',' :: cs from rfl]
  have hhead : ((skipBlanks cs).head? == some ']') = false := by simp [hcs, hne]
  simp [hv, hhead]

theorem members_close (h : skipBlanks cs = '}' :: rest) :
    members (fuel + 1) first cs = ([], some rest) := by
  rw [members, h]
  rfl

variable {key : String} {inside behind : List Char}

/-- The first member of an object stands behind its brace. -/
theorem members_first (hs : skipBlanks cs = '"' :: inside)
    (hk : text inside = (.ok key, .ok (':' :: behind)))
    (hv : value fuel behind = (item, some after)) :
    members (fuel + 1) true cs =
      ((.ok key, item) :: (members fuel false after).1, (members fuel false after).2) := by
  have hquote : skipBlanks ('"' :: inside) = '"' :: inside := rfl
  have hcolon : skipBlanks (':' :: behind) = ':' :: behind := rfl
  rw [members, hs]
  simp [hquote, hk, hcolon, hv]

/-- Any other member stands behind a comma. -/
theorem members_next (hs : skipBlanks cs = '"' :: inside)
    (hk : text inside = (.ok key, .ok (':' :: behind)))
    (hv : value fuel behind = (item, some after)) :
    members (fuel + 1) false (',' :: cs) =
      ((.ok key, item) :: (members fuel false after).1, (members fuel false after).2) := by
  have hcomma : skipBlanks (',' :: cs) = ',' :: cs := rfl
  have hcolon : skipBlanks (':' :: behind) = ':' :: behind := rfl
  rw [members, hcomma]
  simp [hs, hk, hcolon, hv]

/-- A value that starts with a digit is a number. -/
theorem value_digit {c : Char} (hc : isDigit c = true) (h : skipBlanks cs = c :: rest) :
    value (fuel + 1) cs = number false (c :: rest) := by
  rw [value.eq_def]
  dsimp only
  rw [h]
  split
  case h_9 =>
    rename_i heq
    cases heq
    rw [if_pos hc]
  all_goals
    rename_i heq
    cases heq
    try cases hc

/-- An integer is read up to where its digits stop. -/
theorem value_int (v : Int) (h : skipBlanks cs = (toString v).toList ++ rest) (hstop : Stops rest) :
    value (fuel + 1) cs = (whole v, some rest) := by
  rw [toList_toString] at h
  by_cases hv : v < 0
  · rw [if_pos hv] at h
    rw [value, h, whole, decide_eq_true hv]
    exact number_toDigits true _ hstop
  · rw [if_neg hv, List.nil_append] at h
    rw [whole, decide_eq_false hv, ← number_toDigits false _ hstop]
    have hdigits := @isDigit_toDigits v.natAbs
    cases hds : Nat.toDigits 10 v.natAbs with
    | nil => exact absurd hds Nat.toDigits_ne_nil
    | cons c ds =>
      rw [hds] at h hdigits
      exact value_digit (hdigits c List.mem_cons_self) h

end Draft

/-! ## The whole of a value -/

open Draft (Stops stops_cons skipBlanks skipBlanks_append)

/-- What follows an item does not make a number longer. -/
theorem stops_spellItems (σ : Spacing) (depth : Nat) (items : List Json) (rest : List Char) :
    Stops (spellItems σ depth false items ++ rest) := by
  cases items with
  | nil =>
    rw [spellItems, List.append_assoc]
    exact (stops_cons (by decide)).blanks (σ.gap_blank depth)
  | cons item more => exact stops_cons (by decide)

/-- What follows a member does not make a number longer. -/
theorem stops_spellMembers (σ : Spacing) (depth : Nat) (members : List (String × Json))
    (rest : List Char) : Stops (spellMembers σ depth false members ++ rest) := by
  cases members with
  | nil =>
    rw [spellMembers, List.append_assoc]
    exact (stops_cons (by decide)).blanks (σ.gap_blank depth)
  | cons member more => exact stops_cons (by decide)

theorem skipBlanks_gap (σ : Spacing) (depth : Nat) (cs : List Char) :
    skipBlanks (σ.gap depth ++ cs) = skipBlanks cs := skipBlanks_append (σ.gap_blank depth) cs

theorem skipBlanks_spell (σ : Spacing) (depth : Nat) {j : Json} (h : j.IsWhole) (rest : List Char) :
    skipBlanks (spell σ depth j ++ rest) = spell σ depth j ++ rest :=
  ((starts_spell σ depth h).append rest).skipBlanks

theorem length_spell_pos (σ : Spacing) (depth : Nat) {j : Json} (h : j.IsWhole) :
    0 < (spell σ depth j).length := by
  obtain ⟨c, tail, hc, -⟩ := starts_spell σ depth h
  simp [hc]

theorem length_spellItems_pos (σ : Spacing) (depth : Nat) (first : Bool) (items : List Json) :
    0 < (spellItems σ depth first items).length := by
  induction items generalizing first with
  | nil => simp [spellItems]
  | cons item more ih =>
    have := ih false
    simp only [spellItems, List.length_append]
    omega

theorem length_spellMembers_pos (σ : Spacing) (depth : Nat) (first : Bool)
    (members : List (String × Json)) : 0 < (spellMembers σ depth first members).length := by
  cases members with
  | nil => simp [spellMembers]
  | cons member more => simp [spellMembers, spellText]

mutual

/-- A value is read as what it says, wherever it is spelled. Two steps are enough for each of its
characters. -/
theorem value_spell (σ : Spacing) (depth : Nat) : ∀ {j : Json}, j.IsWhole →
    ∀ (fuel : Nat) {cs rest : List Char}, skipBlanks cs = spell σ depth j ++ rest →
      Stops rest → 2 * (spell σ depth j).length ≤ fuel + 1 →
        Draft.value (fuel + 1) cs = (j.draft, some rest)
  | .null, _, fuel, cs, rest, h, _, _ | .bool true, _, fuel, cs, rest, h, _, _
  | .bool false, _, fuel, cs, rest, h, _, _ => by
    rw [Draft.value, h]
    rfl
  | .num _, ⟨v, _, _, rfl⟩, fuel, cs, rest, h, hstop, _ => by
    rw [Draft.value_int v h hstop, ← draft_int, Json.int]
  | .str s, _, fuel, cs, rest, h, _, _ => by
    simp only [spell, spellText, List.cons_append, List.append_assoc, List.nil_append] at h
    simp [Draft.value, h, Draft.text_spelled, draft]
  | .arr items, hj, fuel, cs, rest, h, _, hfuel => by
    rw [spell] at h hfuel
    rw [List.length_cons] at hfuel
    have := length_spellItems_pos σ depth true items
    obtain ⟨fuel, rfl⟩ : ∃ n, fuel = n + 1 := Nat.exists_eq_add_one.2 (by omega)
    have hread := items_spell σ depth true hj fuel rest (by omega)
    simp [Draft.value, h, hread, draft]
  | .obj members, hj, fuel, cs, rest, h, _, hfuel => by
    rw [spell] at h hfuel
    rw [List.length_cons] at hfuel
    have := length_spellMembers_pos σ depth true members
    obtain ⟨fuel, rfl⟩ : ∃ n, fuel = n + 1 := Nat.exists_eq_add_one.2 (by omega)
    have hread := members_spell σ depth true hj fuel rest (by omega)
    simp [Draft.value, h, hread, draft]

theorem items_spell (σ : Spacing) (depth : Nat) (first : Bool) : ∀ {items : List Json},
    AreWhole items → ∀ (fuel : Nat) (rest : List Char),
      2 * (spellItems σ depth first items).length ≤ fuel + 1 →
        Draft.items (fuel + 1) first (spellItems σ depth first items ++ rest) =
          (draftItems items, some rest)
  | [], _, fuel, rest, _ => by
    refine Draft.items_close ?_
    cases first with
    | true => rfl
    | false =>
      rw [spellItems, List.append_assoc]
      exact skipBlanks_gap σ depth _
  | item :: more, ⟨hitem, hmore⟩, fuel, rest, hfuel => by
    have hpos := length_spell_pos σ (depth + 1) hitem
    have hposMore := length_spellItems_pos σ depth false more
    simp only [spellItems, List.length_append] at hfuel
    obtain ⟨fuel, rfl⟩ : ∃ n, fuel = n + 1 := Nat.exists_eq_add_one.2 (by omega)
    have hskip : skipBlanks (σ.gap (depth + 1) ++ (spell σ (depth + 1) item ++
        (spellItems σ depth false more ++ rest))) =
        spell σ (depth + 1) item ++ (spellItems σ depth false more ++ rest) := by
      rw [skipBlanks_gap, skipBlanks_spell σ (depth + 1) hitem]
    have hstarts := (starts_spell σ (depth + 1) hitem).append (spellItems σ depth false more ++ rest)
    have hvalue := value_spell σ (depth + 1) hitem fuel hstarts.skipBlanks
      (stops_spellItems σ depth more rest) (by omega)
    have hread := items_spell σ depth false hmore fuel rest (by omega)
    rw [← hskip] at hstarts hvalue
    simp only [spellItems, List.append_assoc]
    cases first with
    | true =>
      refine (Draft.items_first hstarts hvalue).trans ?_
      rw [hread, draftItems]
    | false =>
      refine (Draft.items_next hstarts hvalue).trans ?_
      rw [hread, draftItems]

theorem members_spell (σ : Spacing) (depth : Nat) (first : Bool) :
    ∀ {members : List (String × Json)}, HasWhole members →
      ∀ (fuel : Nat) (rest : List Char), 2 * (spellMembers σ depth first members).length ≤ fuel + 1 →
        Draft.members (fuel + 1) first (spellMembers σ depth first members ++ rest) =
          (draftMembers members, some rest)
  | [], _, fuel, rest, hfuel => by
    refine Draft.members_close ?_
    cases first with
    | true => rfl
    | false =>
      rw [spellMembers, List.append_assoc]
      exact skipBlanks_gap σ depth _
  | (key, value) :: more, ⟨hvalue, hmore⟩, fuel, rest, hfuel => by
    have hpos := length_spell_pos σ (depth + 1) hvalue
    have hposMore := length_spellMembers_pos σ depth false more
    simp only [spellMembers, List.length_append, List.length_cons] at hfuel
    obtain ⟨fuel, rfl⟩ : ∃ n, fuel = n + 1 := Nat.exists_eq_add_one.2 (by omega)
    have hskip : skipBlanks (σ.space ++ (spell σ (depth + 1) value ++
        (spellMembers σ depth false more ++ rest))) =
        spell σ (depth + 1) value ++ (spellMembers σ depth false more ++ rest) := by
      rw [skipBlanks_append σ.space_blank, skipBlanks_spell σ (depth + 1) hvalue]
    have hread := value_spell σ (depth + 1) hvalue fuel hskip
      (stops_spellMembers σ depth more rest) (by omega)
    have hmembers := members_spell σ depth false hmore fuel rest (by omega)
    have hkey := Draft.text_spelled key (':' :: (σ.space ++ (spell σ (depth + 1) value ++
      (spellMembers σ depth false more ++ rest))))
    simp only [spellMembers, spellText, List.append_assoc, List.cons_append, List.nil_append]
    cases first with
    | true =>
      refine (Draft.members_first (skipBlanks_gap σ (depth + 1) _) hkey hread).trans ?_
      rw [hmembers, draftMembers]
    | false =>
      refine (Draft.members_next (skipBlanks_gap σ (depth + 1) _) hkey hread).trans ?_
      rw [hmembers, draftMembers]

end

/-- A text that spells a value is read as this value, with nothing behind it. -/
theorem document_spell (σ : Spacing) {j : Json} (h : j.IsWhole) {s : String}
    (hs : s.toList = spell σ 0 j) : Draft.document s = ⟨j.draft, false⟩ := by
  have hlength : s.length = (spell σ 0 j).length := by rw [← hs, String.length_toList]
  have hread := value_spell σ 0 h (2 * s.length + 1) (skipBlanks_spell σ 0 h []) Draft.stops_nil
    (by omega)
  rw [List.append_nil, ← hs] at hread
  rw [Draft.document, hread]
  rfl

theorem document_compact {j : Json} (h : j.IsWhole) :
    Draft.document j.compact = ⟨j.draft, false⟩ := document_spell .none h (toList_compact 0 j)

theorem document_pretty {j : Json} (h : j.IsWhole) :
    Draft.document j.pretty = ⟨j.draft, false⟩ := document_spell .lines h (toList_pretty j)

/-- What is decoded from the text of a value on one line. -/
theorem run_compact {α : Type} (decode : Decoder α) {j : Json} (h : j.IsWhole) :
    decode.run j.compact = decode j.draft := by
  rw [Decoder.run, document_compact h]
  cases decode j.draft <;> rfl

/-- What is decoded from the text of a value over indented lines. -/
theorem run_pretty {α : Type} (decode : Decoder α) {j : Json} (h : j.IsWhole) :
    decode.run j.pretty = decode j.draft := by
  rw [Decoder.run, document_pretty h]
  cases decode j.draft <;> rfl

end Json

end Resumable
