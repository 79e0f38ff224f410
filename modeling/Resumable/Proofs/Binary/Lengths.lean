import Mathlib
import Resumable.Proofs.Binary.RoundTrip

/-!
# Lengths in class files

The binary form writes the length of every text and list in four bytes. Each of them is bounded by the
length of the whole file, so a file of less than four gigabytes has no length that does not fit
(`ClassDef.isWritable_of_length`): a class can be read back from it if its instructions have the
operands that their opcodes call for.
-/

namespace Resumable

namespace Binary

theorem Fits.mono {n k : Nat} (h : Fits k) (hle : n ≤ k) : Fits n := Nat.lt_of_le_of_lt hle h

theorem fitsText_of_length {s : String} (h : Fits (ofString s).length) : FitsText s :=
  h.mono (by simp [ofString])

theorem fitsText_of_length? {s : Option String} (h : Fits (ofString? s).length) :
    ∀ text ∈ s, FitsText text := by
  rintro text rfl
  exact fitsText_of_length (h.mono (by simp [ofString?]))

/-- There are no more items than bytes, and no item is longer than all of them together. -/
theorem length_flatMap_le {α : Type} {write : α → List UInt8} {items : List α}
    (hpos : ∀ a ∈ items, 1 ≤ (write a).length) : items.length ≤ (items.flatMap write).length ∧
      ∀ a ∈ items, (write a).length ≤ (items.flatMap write).length := by
  constructor
  · have hle := List.length_le_sum_of_one_le (items.map fun a => (write a).length) (by simpa using hpos)
    rwa [List.length_map, ← List.length_flatMap] at hle
  · intro a ha
    rw [List.flatMap_def]
    exact (List.infix_of_mem_flatten (List.mem_map_of_mem ha)).length_le

/-- A list fits if what is written for it does, item by item. -/
theorem fitsList_of_length {α : Type} {write : α → List UInt8} {P : α → Prop} {items : List α}
    (hpos : ∀ a ∈ items, 1 ≤ (write a).length) (hitem : ∀ a ∈ items, Fits (write a).length → P a)
    (h : Fits (ofList write items).length) : FitsList P items := by
  obtain ⟨hcount, hlength⟩ := length_flatMap_le hpos
  have hwhole : Fits (items.flatMap write).length := h.mono (by simp [ofList])
  exact ⟨hwhole.mono hcount, fun a ha => hitem a ha (hwhole.mono (hlength a ha))⟩

theorem one_le_length_ofString (s : String) : 1 ≤ (ofString s).length := by
  rw [ofString, List.length_append, ofLength, length_toBytes]
  omega

theorem fitsTexts_of_length {texts : List String} (h : Fits (ofList ofString texts).length) :
    FitsList FitsText texts :=
  fitsList_of_length (fun s _ => one_le_length_ofString s) (fun _ _ => fitsText_of_length) h

theorem isWritable_member {m : MemberRef} (h : Fits (ofMember m).length) : m.IsWritable := by
  simp only [ofMember, List.length_append] at h
  exact ⟨fitsText_of_length (h.mono (by omega)), fitsText_of_length (h.mono (by omega)),
    fitsText_of_length (h.mono (by omega))⟩

theorem isWritable_instr {i : Instr} (hpaired : i.isPaired = true) (h : Fits (ofInstr i).length) :
    i.IsWritable := by
  refine ⟨hpaired, ?_⟩
  have hoperands : Fits (ofOperands i).length := h.mono (by simp [ofInstr])
  cases i with
  | const c =>
    cases c with
    | str s => exact fitsText_of_length hoperands
    | int | long | float | double => trivial
  | switch low default targets =>
    have hcount : targets.length ≤ (targets.flatMap fun l => ofUInt32 l.id).length :=
      (length_flatMap_le fun l _ => by simp [ofUInt32, length_toBytes]).1
    simp only [ofOperands, List.length_append] at hoperands
    exact hoperands.mono (by omega)
  | field op m => exact isWritable_member hoperands
  | invoke op m => exact isWritable_member hoperands
  | type op desc => exact fitsText_of_length hoperands
  | label | simple | «local» | inc | jump | frame => trivial

theorem isWritable_field {f : Field} (h : Fits (ofField f).length) : f.IsWritable := by
  simp only [ofField, List.length_append] at h
  exact ⟨fitsText_of_length (h.mono (by omega)), fitsText_of_length (h.mono (by omega))⟩

theorem isWritable_method {m : Method} (hpaired : ∀ i ∈ m.code, i.isPaired = true)
    (h : Fits (ofMethod m).length) : m.IsWritable := by
  simp only [ofMethod, List.length_append] at h
  have hcode : Fits (ofCode m.code).length := h.mono (by omega)
  have hinstrs : ∀ i ∈ m.code, (ofInstr i).length ≤ (ofCode m.code).length :=
    (length_flatMap_le fun i _ => by simp [ofInstr]).2
  have hhandler (handler : Handler) : Fits (ofHandler handler).length → handler.IsWritable := by
    intro hlength
    simp only [ofHandler, List.length_append] at hlength
    exact fitsText_of_length? (hlength.mono (by omega))
  exact {
    name := fitsText_of_length (h.mono (by omega))
    desc := fitsText_of_length (h.mono (by omega))
    throws := fitsTexts_of_length (h.mono (by omega))
    code := fun i hi => isWritable_instr (hpaired i hi) (hcode.mono (hinstrs i hi))
    codeLength := hcode
    handlers := fitsList_of_length
      (fun handler _ => by simp [ofHandler, ofUInt32, length_toBytes]; omega)
      (fun handler _ => hhandler handler) (h.mono (by omega)) }

end Binary

open Binary

/-- A class can be read back from a file that is not too long. -/
theorem ClassDef.isWritable_of_length {c : ClassDef}
    (hpaired : ∀ m ∈ c.methods, ∀ i ∈ m.code, i.isPaired = true) (h : Fits (ofClass c).length) :
    c.IsWritable := by
  have hfield (f : Field) : 1 ≤ (ofField f).length := by
    have hname := one_le_length_ofString f.name
    simp only [ofField, List.length_append]
    omega
  have hmethod (m : Method) : 1 ≤ (ofMethod m).length := by
    have hname := one_le_length_ofString m.name
    simp only [ofMethod, List.length_append]
    omega
  simp only [ofClass, payload, List.length_append] at h
  exact {
    name := fitsText_of_length (h.mono (by omega))
    superName := fitsText_of_length? (h.mono (by omega))
    interfaces := fitsTexts_of_length (h.mono (by omega))
    markers := fitsTexts_of_length (h.mono (by omega))
    sourceFile := by
      intro file hfile
      rw [Option.mem_def.1 hfile] at h
      exact fitsText_of_length (h.mono (by dsimp only; omega))
    fields := by
      have hfields : Fits (ofList ofField c.fields).length := h.mono (by omega)
      exact fitsList_of_length (fun f _ => hfield f) (fun f _ => isWritable_field) hfields
    methods := by
      have hmethods : Fits (ofList ofMethod c.methods).length := h.mono (by omega)
      exact fitsList_of_length (fun m _ => hmethod m) (fun m hm => isWritable_method (hpaired m hm))
        hmethods }

end Resumable
