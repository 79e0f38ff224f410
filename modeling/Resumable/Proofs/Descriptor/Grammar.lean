import Mathlib.Data.List.TakeWhile
import Resumable.Descriptor

/-!
# The grammar of descriptors

`FieldType.Describes` and `MethodType.Describes` say which texts describe which types, as a grammar
would: one rule for each way of writing a type. A reader takes such a text off the front of whatever
follows it, and takes nothing else, so the whole of a text is read just if it is one of the grammar,
and it is read as the one type that it describes.

A class may have any name that is not empty and has no semicolon in it, for that is where the name
ends. The descriptor of a type can be read back just if the classes in it have such names
(`WellNamed`).
-/

namespace Resumable

/-- The reader takes the texts of a grammar off the front of whatever follows them, and takes
nothing else. -/
structure ReadsExactly {α : Type} (read : List Char → Except DescriptorStop (α × List Char))
    (grammar : List Char → α → Prop) : Prop where
  complete : ∀ {text a}, grammar text a → ∀ rest, read (text ++ rest) = .ok (a, rest)
  sound : ∀ {cs a rest}, read cs = .ok (a, rest) → ∃ text, cs = text ++ rest ∧ grammar text a

namespace ReadsExactly

variable {α : Type} {read : List Char → Except DescriptorStop (α × List Char)}
  {grammar : List Char → α → Prop}

/-- The texts of which nothing is left over are those of the grammar. -/
theorem eq_ok_iff (h : ReadsExactly read grammar) {cs : List Char} {a : α} :
    read cs = .ok (a, []) ↔ grammar cs a := by
  constructor
  · intro hread
    obtain ⟨text, rfl, hgrammar⟩ := h.sound hread
    rwa [List.append_nil]
  · intro hgrammar
    have hread := h.complete hgrammar []
    rwa [List.append_nil] at hread

/-- No text of the grammar has two readings. -/
theorem unique (h : ReadsExactly read grammar) {cs : List Char} {a b : α} (ha : grammar cs a)
    (hb : grammar cs b) : a = b := by
  have hread := (h.eq_ok_iff.2 ha).symm.trans (h.eq_ok_iff.2 hb)
  cases hread
  rfl

end ReadsExactly

namespace FieldType

/-- The text describes the type. -/
inductive Describes : List Char → FieldType → Prop where
  | int {c : Char} (h : c ∈ ['I', 'Z', 'B', 'C', 'S']) : Describes [c] .int
  | long : Describes ['J'] .long
  | float : Describes ['F'] .float
  | double : Describes ['D'] .double
  | object {name : List Char} (hne : name ≠ []) (hname : ';' ∉ name) :
    Describes ('L' :: (name ++ [';'])) (.object (String.ofList name))
  | array {text : List Char} {element : FieldType} (h : Describes text element) :
    Describes ('[' :: text) (.array element)

/-- The classes in the type have names that a descriptor can hold. -/
def WellNamed : FieldType → Prop
  | .object name => name ≠ "" ∧ ';' ∉ name.toList
  | .array element => element.WellNamed
  | .int | .long | .float | .double => True

/-! ## Names -/

theorem ne_semicolon {name : List Char} (h : ';' ∉ name) : ∀ c ∈ name, (c != ';') = true := by
  intro c hc
  rw [bne_iff_ne]
  rintro rfl
  exact h hc

theorem takeWhile_name {name : List Char} (h : ';' ∉ name) (rest : List Char) :
    (name ++ ';' :: rest).takeWhile (· != ';') = name := by
  rw [List.takeWhile_append_of_pos (ne_semicolon h)]
  simp

theorem dropWhile_name {name : List Char} (h : ';' ∉ name) (rest : List Char) :
    (name ++ ';' :: rest).dropWhile (· != ';') = ';' :: rest := by
  rw [List.dropWhile_append_of_pos (ne_semicolon h)]
  simp

/-- A name ends at the first semicolon. -/
theorem eq_name_append {cs after : List Char} {c : Char}
    (h : cs.dropWhile (· != ';') = c :: after) :
    cs = cs.takeWhile (· != ';') ++ ';' :: after ∧ ';' ∉ cs.takeWhile (· != ';') := by
  have hc : c = ';' := by
    have hne : cs.dropWhile (· != ';') ≠ [] := by simp [h]
    have hhead := List.head_dropWhile_not (· != ';') hne
    simpa [h] using hhead
  constructor
  · have hsplit := (List.takeWhile_append_dropWhile (p := (· != ';')) (l := cs)).symm
    rwa [h, hc] at hsplit
  · intro hmem
    simpa using List.mem_takeWhile_imp hmem

/-! ## Field types -/

/-- A text of the grammar is taken off the front of whatever follows. -/
theorem read_of_describes {text : List Char} {type : FieldType} (h : Describes text type)
    (rest : List Char) : read (text ++ rest) = .ok (type, rest) := by
  induction h with
  | int hc =>
    simp only [List.mem_cons, List.not_mem_nil, or_false] at hc
    rcases hc with rfl | rfl | rfl | rfl | rfl <;> rfl
  | long | float | double => rfl
  | @object name hne hname =>
    have hbytes : 'L' :: (name ++ [';']) ++ rest = 'L' :: (name ++ ';' :: rest) := by simp
    rw [hbytes, read, dropWhile_name hname, takeWhile_name hname]
    cases name with
    | nil => exact absurd rfl hne
    | cons c name => rfl
  | array h ih =>
    rw [List.cons_append, read, ih]

/-- What is taken off the front is a text of the grammar. -/
theorem describes_of_read {cs rest : List Char} {type : FieldType}
    (h : read cs = .ok (type, rest)) : ∃ text, cs = text ++ rest ∧ Describes text type := by
  fun_induction read cs generalizing type rest with
  | case1 | case3 | case4 | case5 => cases h
  | case2 cs element rest' hread ih =>
    cases h
    obtain ⟨text, rfl, hdescribes⟩ := ih hread
    exact ⟨'[' :: text, rfl, .array hdescribes⟩
  | case6 cs c after hdrop hname =>
    cases h
    obtain ⟨hcs, hsemi⟩ := eq_name_append hdrop
    refine ⟨'L' :: (cs.takeWhile (· != ';') ++ [';']), ?_, .object hname hsemi⟩
    rw [List.cons_append, List.append_assoc]
    exact congrArg _ hcs
  | case7 | case8 | case9 | case10 | case11 =>
    cases h
    exact ⟨[_], rfl, .int (by decide)⟩
  | case12 =>
    cases h
    exact ⟨[_], rfl, .long⟩
  | case13 =>
    cases h
    exact ⟨[_], rfl, .float⟩
  | case14 =>
    cases h
    exact ⟨[_], rfl, .double⟩
  | case15 => cases h

theorem reads_exactly : ReadsExactly read Describes := ⟨read_of_describes, describes_of_read⟩

theorem parse_eq_ok_iff {desc : String} {type : FieldType} :
    parse desc = .ok type ↔ Describes desc.toList type := by
  rw [← reads_exactly.eq_ok_iff, parse]
  split <;> simp_all

/-- Neither the end of the parameters nor the lack of a result is mistaken for a type. -/
theorem Describes.exists_cons {text : List Char} {type : FieldType} (h : Describes text type) :
    ∃ c rest, text = c :: rest ∧ c ≠ ')' ∧ c ≠ 'V' := by
  cases h with
  | int hc =>
    refine ⟨_, [], rfl, ?_, ?_⟩ <;>
    · rintro rfl
      exact absurd hc (by decide)
  | long | float | double | object _ _ | array _ => exact ⟨_, _, rfl, by decide, by decide⟩

/-! ## Descriptors of field types -/

theorem Describes.wellNamed {text : List Char} {type : FieldType} (h : Describes text type) :
    type.WellNamed := by
  induction h with
  | int _ | long | float | double => trivial
  | @object name hne hname =>
    refine ⟨fun hempty => hne ?_, by rwa [String.toList_ofList]⟩
    rw [← String.toList_ofList (l := name), hempty, String.toList_empty]
  | array _ ih => exact ih

theorem describes_descriptor {type : FieldType} (h : type.WellNamed) :
    Describes type.descriptor.toList type := by
  induction type with
  | int => exact .int (by decide)
  | long => exact .long
  | float => exact .float
  | double => exact .double
  | object name =>
    have hne : name.toList ≠ [] := fun hnil => h.1 (String.toList_eq_nil_iff.1 hnil)
    have hdescribes := Describes.object hne h.2
    rw [String.ofList_toList] at hdescribes
    simpa [descriptor] using hdescribes
  | array element ih =>
    have hdescribes := Describes.array (ih h)
    simpa [descriptor] using hdescribes

theorem parse_descriptor_eq_ok_iff {type : FieldType} :
    parse type.descriptor = .ok type ↔ type.WellNamed :=
  parse_eq_ok_iff.trans ⟨Describes.wellNamed, describes_descriptor⟩

end FieldType

namespace MethodType

/-- The text describes the parameters, one behind the other. -/
inductive DescribesParams : List Char → List FieldType → Prop where
  | nil : DescribesParams [] []
  | cons {text texts : List Char} {type : FieldType} {types : List FieldType}
    (h : FieldType.Describes text type) (hs : DescribesParams texts types) :
    DescribesParams (text ++ texts) (type :: types)

/-- The text describes the result, if there is one. -/
inductive DescribesResult : List Char → Option FieldType → Prop where
  | none : DescribesResult ['V'] none
  | some {text : List Char} {type : FieldType} (h : FieldType.Describes text type) :
    DescribesResult text (some type)

/-- The text describes the method type. -/
inductive Describes : List Char → MethodType → Prop where
  | mk {texts text : List Char} {params : List FieldType} {result : Option FieldType}
    (hparams : DescribesParams texts params) (hresult : DescribesResult text result) :
    Describes ('(' :: (texts ++ ')' :: text)) ⟨params, result⟩

/-- All classes in the type have names that a descriptor can hold. -/
def WellNamed (type : MethodType) : Prop :=
  (∀ param ∈ type.params, param.WellNamed) ∧ ∀ result ∈ type.result, result.WellNamed

/-! ## Parameters and results -/

theorem readParams_of_describes {text : List Char} {types : List FieldType}
    (h : DescribesParams text types) (rest : List Char) :
    readParams (text ++ ')' :: rest) = .ok (types, rest) := by
  induction h with
  | nil =>
    rw [List.nil_append, readParams]
  | @cons text texts type types h hs ih =>
    have hread := FieldType.read_of_describes h (texts ++ ')' :: rest)
    obtain ⟨c, front, rfl, hc, -⟩ := h.exists_cons
    rw [List.append_assoc]
    simp only [List.cons_append] at hread ⊢
    rw [readParams]
    · split
      · next stop hstop =>
        rw [hread] at hstop
        cases hstop
      · next type' rest' hnext =>
        rw [hread] at hnext
        cases hnext
        rw [ih]
    · exact hc

theorem describes_of_readParams {cs rest : List Char} {types : List FieldType}
    (h : readParams cs = .ok (types, rest)) :
    ∃ text, cs = text ++ ')' :: rest ∧ DescribesParams text types := by
  fun_induction readParams cs generalizing types rest with
  | case1 | case3 | case4 => cases h
  | case2 =>
    cases h
    exact ⟨[], rfl, .nil⟩
  | case5 c cs hc type rest' hread types' after hrest ih =>
    cases h
    obtain ⟨text, htext, htype⟩ := FieldType.describes_of_read hread
    obtain ⟨texts, rfl, htypes⟩ := ih hrest
    exact ⟨text ++ texts, by rw [htext, List.append_assoc], .cons htype htypes⟩

theorem readResult_of_describes {text : List Char} {result : Option FieldType}
    (h : DescribesResult text result) (rest : List Char) :
    readResult (text ++ rest) = .ok (result, rest) := by
  cases h with
  | none => rfl
  | some h =>
    have hread := FieldType.read_of_describes h rest
    obtain ⟨c, front, rfl, -, hc⟩ := h.exists_cons
    rw [List.cons_append] at hread ⊢
    rw [readResult, hread]
    · simp
    · simpa using hc

theorem describes_of_readResult {cs rest : List Char} {result : Option FieldType}
    (h : readResult cs = .ok (result, rest)) :
    ∃ text, cs = text ++ rest ∧ DescribesResult text result := by
  unfold readResult at h
  split at h
  · cases h
  · cases h
    exact ⟨['V'], rfl, .none⟩
  · split at h
    · cases h
    · next type rest' hread =>
      cases h
      obtain ⟨text, rfl, htype⟩ := FieldType.describes_of_read hread
      exact ⟨text, rfl, .some htype⟩

/-! ## Method types -/

theorem read_of_describes {text : List Char} {type : MethodType} (h : Describes text type)
    (rest : List Char) : read (text ++ rest) = .ok (type, rest) := by
  obtain ⟨hparams, hresult⟩ := h
  rw [List.cons_append, List.append_assoc, List.cons_append, read, readParams_of_describes hparams]
  show (readResult _ >>= _) = _
  rw [readResult_of_describes hresult]
  rfl

theorem describes_of_read {cs rest : List Char} {type : MethodType}
    (h : read cs = .ok (type, rest)) : ∃ text, cs = text ++ rest ∧ Describes text type := by
  unfold read at h
  split at h
  · next cs =>
    rcases hparams : readParams cs with _ | ⟨params, after⟩ <;> rw [hparams] at h
    · cases h
    change (readResult after >>= _) = _ at h
    rcases hresult : readResult after with _ | ⟨result, last⟩ <;> rw [hresult] at h
    · cases h
    cases h
    obtain ⟨texts, rfl, htexts⟩ := describes_of_readParams hparams
    obtain ⟨text, rfl, htext⟩ := describes_of_readResult hresult
    exact ⟨'(' :: (texts ++ ')' :: text), by simp, .mk htexts htext⟩
  · cases h

theorem reads_exactly : ReadsExactly read Describes := ⟨read_of_describes, describes_of_read⟩

theorem parse_eq_ok_iff {desc : String} {type : MethodType} :
    parse desc = .ok type ↔ Describes desc.toList type := by
  rw [← reads_exactly.eq_ok_iff, parse]
  split <;> simp_all

/-! ## Descriptors of method types -/

theorem DescribesParams.wellNamed {text : List Char} {types : List FieldType}
    (h : DescribesParams text types) : ∀ param ∈ types, param.WellNamed := by
  induction h with
  | nil => simp
  | cons h _ ih => exact List.forall_mem_cons.2 ⟨h.wellNamed, ih⟩

theorem Describes.wellNamed {text : List Char} {type : MethodType} (h : Describes text type) :
    type.WellNamed := by
  obtain ⟨hparams, hresult⟩ := h
  refine ⟨hparams.wellNamed, ?_⟩
  cases hresult with
  | none => simp
  | some h => simpa using h.wellNamed

theorem describesParams_descriptors {types : List FieldType}
    (h : ∀ param ∈ types, param.WellNamed) :
    DescribesParams (String.join (types.map FieldType.descriptor)).toList types := by
  induction types with
  | nil => exact .nil
  | cons type types ih =>
    obtain ⟨htype, htypes⟩ := List.forall_mem_cons.1 h
    have hdescribes := DescribesParams.cons (FieldType.describes_descriptor htype) (ih htypes)
    simpa using hdescribes

theorem describes_descriptor {type : MethodType} (h : type.WellNamed) :
    Describes type.descriptor.toList type := by
  have hparams := describesParams_descriptors h.1
  obtain ⟨params, _ | result⟩ := type
  · have hdescribes := Describes.mk hparams .none
    simpa [descriptor] using hdescribes
  · have hresult := DescribesResult.some (FieldType.describes_descriptor (h.2 result rfl))
    have hdescribes := Describes.mk hparams hresult
    simpa [descriptor] using hdescribes

theorem parse_descriptor_eq_ok_iff {type : MethodType} :
    parse type.descriptor = .ok type ↔ type.WellNamed :=
  parse_eq_ok_iff.trans ⟨Describes.wellNamed, describes_descriptor⟩

end MethodType

end Resumable
