import Resumable.Disk.UnitFile
import Resumable.Proofs.Binary.Canonical
import Resumable.Proofs.Binary.Lengths
import Resumable.Proofs.Instrument.Verified
import Resumable.Proofs.Json.RoundTrip

/-!
# What can be kept in a file

A file of a format keeps a class if the class can be read back from it (`UnitFormat.decode_encode`).
For the binary form all lengths have to fit, and operands have to be those that the opcodes call for;
for JSON there must be no floating-point constants.

The instrumenter adds nothing that a file could not keep (`UnitFormat.Keeps.instrument`), only the
binary form can become too long.
-/

namespace Resumable

/-- Nothing that is added is a floating-point constant. -/
theorem Instr.IsAdded.isExact {i : Instr} (h : i.IsAdded) : i.isExact = true := by cases h <;> rfl

namespace Inquiry

variable {c out : ClassDef} {P : Instr → Prop}

/-- Instrumenting changes the methods and the markers of a class, and nothing else. -/
theorem head_of_instrument (h : Gives (instrument c) out) :
    out = { c with methods := out.methods, markers := out.markers } := by
  unfold instrument at h
  obtain ⟨_, -, h⟩ := h.bind
  split at h
  · rw [h.pure]
  · obtain ⟨db, -, h⟩ := h.bind
    split at h
    · obtain ⟨_, -, h⟩ := h.bind
      rw [h.pure]
    · obtain ⟨methods, -, h⟩ := h.bind
      rw [h.pure]

/-- What holds of all instructions of a class, and of those that are added, holds of all instructions
after the class has been instrumented. -/
theorem forall_code_of_instrument (h : Gives (instrument c) out)
    (hswitch : ∀ low default targets, P (.switch low default targets)) (hadded : ∀ i, i.IsAdded → P i)
    (hall : ∀ m ∈ c.methods, ∀ i ∈ m.code, P i) : ∀ m ∈ out.methods, ∀ i ∈ m.code, P i := by
  intro m' hm' i hi
  rcases instrument_cases h with rfl | hmembers
  · exact hall m' hm' i hi
  obtain ⟨m, hm, hgives⟩ := exists_left_of_mem hmembers hm'
  rcases member_cases hgives with rfl | ⟨a, plan, hpoints, htransforms⟩
  · exact hall m' hm i hi
  obtain ⟨chunks, hlayout⟩ := htransforms.layout hpoints
  rcases hlayout.mem_code_cases hi with hold | ⟨low, default, targets, rfl⟩ | hnew
  · rw [htransforms.analyzed.2.1] at hold
    exact hall m hm i hold
  · exact hswitch low default targets
  · exact hadded i hnew

end Inquiry

namespace UnitFormat

variable {f : UnitFormat} {c out : ClassDef}

/-- A file of the format can keep the class. -/
def Keeps : UnitFormat → ClassDef → Prop
  | .binary, c => c.IsWritable
  | .json, c => c.IsExact

/-- What can be kept is read back. -/
theorem decode_encode (h : f.Keeps c) : f.decode (f.encode c) = .ok c := by
  cases f with
  | binary =>
    have hread : Binary.toClass (Binary.ofClass c) = .ok c := Binary.toClass_payload h
    rw [decode, encode, hread]
    rfl
  | json =>
    have hread : ClassDef.ofJson c.toJson.pretty = .ok c := (recovers_classDef h).run_pretty
    simp only [decode, encode, Binary.Reader.fromUTF8?_utf8, hread]
    rfl

/-- What has been read can be kept. -/
theorem keeps_of_decode {bytes : List UInt8} (h : f.decode bytes = .ok c)
    (hexact : f = .json → c.IsExact) : f.Keeps c := by
  cases f with
  | binary =>
    rw [decode] at h
    rcases hread : Binary.toClass bytes with cause | c' <;> rw [hread] at h <;> cases h
    exact Binary.isWritable_of_toClass hread
  | json => exact hexact rfl

/-- After it has been instrumented, a class can still be kept, if the binary form is not too long. -/
theorem Keeps.instrument (h : f.Keeps c) (hgives : Gives (Inquiry.instrument c) out)
    (hlength : f = .binary → Binary.Fits (Binary.ofClass out).length) : f.Keeps out := by
  cases f with
  | binary =>
    refine ClassDef.isWritable_of_length ?_ (hlength rfl)
    refine Inquiry.forall_code_of_instrument hgives (fun _ _ _ => rfl) (fun _ hi => hi.isPaired) ?_
    exact fun m hm i hi => ((h.methods.2 m hm).code i hi).1
  | json =>
    exact Inquiry.forall_code_of_instrument hgives (fun _ _ _ => rfl) (fun _ hi => hi.isExact) h

end UnitFormat

end Resumable
