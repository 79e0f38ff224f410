import Mathlib.Data.String.Basic
import Resumable.Json.Basic
import Resumable.Json.Draft

/-!
# How values are spelled

A value is written on one line or spread over indented lines. The two texts differ only in the blanks
between their parts. `Json.spell` writes a value with blanks as a `Spacing` says, one character after
the other, and both ways to write a value are cases of it (`toList_compact`, `toList_pretty`).
-/

namespace Resumable

namespace Json

/-- The blanks between the parts of a text. -/
structure Spacing where
  /-- In front of what stands at a nesting depth. -/
  gap : Nat → List Char
  /-- Behind a colon. -/
  space : List Char
  gap_blank : ∀ depth, ∀ c ∈ gap depth, Draft.isBlank c = true
  space_blank : ∀ c ∈ space, Draft.isBlank c = true

namespace Spacing

/-- No blanks. -/
def none : Spacing where
  gap _ := []
  space := []
  gap_blank := nofun
  space_blank := nofun

/-- A line for everything, indented by its depth. -/
def lines : Spacing where
  gap depth := '\n' :: List.replicate (2 * depth) ' '
  space := [' ']
  gap_blank depth c hc := by
    rcases List.mem_cons.1 hc with rfl | hc
    · rfl
    · rw [List.eq_of_mem_replicate hc]
      rfl
  space_blank c hc := by
    rw [List.mem_singleton.1 hc]
    rfl

@[simp]
theorem none_gap (depth : Nat) : none.gap depth = [] := rfl

@[simp]
theorem none_space : none.space = [] := rfl

@[simp]
theorem lines_space : lines.space = [' '] := rfl

end Spacing

/-- A text between quotes. -/
def spellText (s : String) : List Char := '"' :: (s.toList.flatMap (escapeChar · |>.toList) ++ ['"'])

mutual

/-- The characters of a value at a nesting depth. -/
def spell (σ : Spacing) (depth : Nat) : Json → List Char
  | .null => ['n', 'u', 'l', 'l']
  | .bool true => ['t', 'r', 'u', 'e']
  | .bool false => ['f', 'a', 'l', 's', 'e']
  | .num text => text.toList
  | .str value => spellText value
  | .arr items => '[' :: spellItems σ depth true items
  | .obj members => '{' :: spellMembers σ depth true members

/-- The items of an array up to its bracket. -/
def spellItems (σ : Spacing) (depth : Nat) : (first : Bool) → List Json → List Char
  | first, [] => (if first then [] else σ.gap depth) ++ [']']
  | first, item :: rest =>
    (if first then [] else [',']) ++
      (σ.gap (depth + 1) ++ (spell σ (depth + 1) item ++ spellItems σ depth false rest))

/-- The members of an object up to its brace. -/
def spellMembers (σ : Spacing) (depth : Nat) : (first : Bool) → List (String × Json) → List Char
  | first, [] => (if first then [] else σ.gap depth) ++ ['}']
  | first, (key, value) :: rest =>
    (if first then [] else [',']) ++
      (σ.gap (depth + 1) ++ (spellText key ++ (':' :: (σ.space ++
        (spell σ (depth + 1) value ++ spellMembers σ depth false rest)))))

end

theorem toList_quote (s : String) : (quote s).toList = spellText s := by
  simp [quote, spellText, List.flatMap_map]

theorem toList_pushn (s : String) (c : Char) (n : Nat) :
    (s.pushn c n).toList = s.toList ++ List.replicate n c := by
  unfold String.pushn
  induction n with
  | zero => simp [Nat.repeat]
  | succ n ih => simp [Nat.repeat, ih, List.replicate_succ']

theorem toList_newline (depth : Nat) : (newline depth).toList = Spacing.lines.gap depth := by
  simp [newline, toList_pushn, Spacing.lines]

mutual

/-- On one line there are no blanks. -/
theorem toList_compact (depth : Nat) : ∀ j : Json, j.compact.toList = spell .none depth j
  | .null | .bool true | .bool false => by simp [compact, spell]
  | .num text => by rw [compact, spell]
  | .str s => by rw [compact, spell, toList_quote]
  | .arr items => by simp [compact, spell, toList_compactItems depth true items]
  | .obj members => by simp [compact, spell, toList_compactMembers depth true members]

theorem toList_compactItems (depth : Nat) (first : Bool) : ∀ items : List Json,
    spellItems .none depth first items =
      (if first || items.isEmpty then [] else [',']) ++ ((compactItems items).toList ++ [']'])
  | [] => by simp [compactItems, spellItems]
  | [item] => by simp [compactItems, spellItems, toList_compact (depth + 1) item]
  | item :: next :: rest => by
    rw [spellItems, toList_compactItems depth false (next :: rest)]
    simp [compactItems, toList_compact (depth + 1) item]

theorem toList_compactMembers (depth : Nat) (first : Bool) : ∀ members : List (String × Json),
    spellMembers .none depth first members =
      (if first || members.isEmpty then [] else [',']) ++ ((compactMembers members).toList ++ ['}'])
  | [] => by simp [compactMembers, spellMembers]
  | [(key, value)] => by
    simp [compactMembers, spellMembers, toList_quote, toList_compact (depth + 1) value]
  | (key, value) :: next :: rest => by
    rw [spellMembers, toList_compactMembers depth false (next :: rest)]
    simp [compactMembers, toList_quote, toList_compact (depth + 1) value]

end

mutual

/-- Spread over lines, everything has a gap in front. -/
theorem toList_prettyAt (depth : Nat) : ∀ j : Json, (j.prettyAt depth).toList = spell .lines depth j
  | .null | .bool true | .bool false => by simp [prettyAt, spell]
  | .num text => by rw [prettyAt, spell]
  | .str s => by rw [prettyAt, spell, toList_quote]
  | .arr [] => by simp [prettyAt, spell, spellItems]
  | .arr (item :: rest) => by
    simp [prettyAt, spell, toList_prettyItems depth true (item :: rest), toList_newline]
  | .obj [] => by simp [prettyAt, spell, spellMembers]
  | .obj (member :: rest) => by
    simp [prettyAt, spell, toList_prettyMembers depth true (member :: rest), toList_newline]

theorem toList_prettyItems (depth : Nat) (first : Bool) : ∀ items : List Json,
    spellItems .lines depth first items =
      (if first || items.isEmpty then [] else [',']) ++ ((prettyItems (depth + 1) items).toList ++
        ((if first && items.isEmpty then [] else Spacing.lines.gap depth) ++ [']']))
  | [] => by cases first <;> simp [prettyItems, spellItems]
  | [item] => by
    simp [prettyItems, spellItems, toList_newline, toList_prettyAt (depth + 1) item]
  | item :: next :: rest => by
    rw [spellItems, toList_prettyItems depth false (next :: rest)]
    simp [prettyItems, toList_newline, toList_prettyAt (depth + 1) item]

theorem toList_prettyMembers (depth : Nat) (first : Bool) : ∀ members : List (String × Json),
    spellMembers .lines depth first members =
      (if first || members.isEmpty then [] else [',']) ++
        ((prettyMembers (depth + 1) members).toList ++
          ((if first && members.isEmpty then [] else Spacing.lines.gap depth) ++ ['}']))
  | [] => by cases first <;> simp [prettyMembers, spellMembers]
  | [(key, value)] => by
    simp [prettyMembers, spellMembers, toList_newline, toList_quote,
      toList_prettyAt (depth + 1) value]
  | (key, value) :: next :: rest => by
    rw [spellMembers, toList_prettyMembers depth false (next :: rest)]
    simp [prettyMembers, toList_newline, toList_quote, toList_prettyAt (depth + 1) value]

end

theorem toList_pretty (j : Json) : j.pretty.toList = spell .lines 0 j := toList_prettyAt 0 j

end Json

end Resumable
