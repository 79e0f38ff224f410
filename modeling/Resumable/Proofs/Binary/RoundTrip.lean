import Resumable.Binary.ClassFile
import Resumable.Proofs.Binary.Reading

/-!
# Reading back a class file

    toClass (ofClass c) = .ok c

The writer asks each instruction for the operands that are there, and the reader asks the opcode for
those that should be. A class comes back whole if the two agree on every instruction
(`Instr.isPaired`) and every length can be written with four bytes. `ClassDef.IsWritable` says so,
part by part.
-/

namespace Resumable

open Binary

/-! ## What can be written -/

/-- The text's length in bytes can be written. -/
def FitsText (s : String) : Prop := Fits (utf8 s).length

instance (s : String) : Decidable (FitsText s) := inferInstanceAs (Decidable (Fits _))

/-- There are not too many items, and each can be written. -/
def FitsList {α : Type} (P : α → Prop) (items : List α) : Prop :=
  Fits items.length ∧ ∀ a ∈ items, P a

instance {α : Type} (P : α → Prop) [DecidablePred P] (items : List α) :
    Decidable (FitsList P items) := inferInstanceAs (Decidable (_ ∧ _))

/-- The parts of the name can be written. -/
def MemberRef.IsWritable (m : MemberRef) : Prop :=
  FitsText m.owner ∧ FitsText m.name ∧ FitsText m.desc

instance (m : MemberRef) : Decidable m.IsWritable := inferInstanceAs (Decidable (_ ∧ _))

/-- The texts and lists among the operands can be written. -/
def Instr.HasWritableOperands : Instr → Prop
  | .const (.str s) => FitsText s
  | .switch _ _ targets => Fits targets.length
  | .field _ m | .invoke _ m => m.IsWritable
  | .type _ desc => FitsText desc
  | _ => True

instance : DecidablePred Instr.HasWritableOperands
  | .const (.str s) => inferInstanceAs (Decidable (FitsText s))
  | .switch _ _ targets => inferInstanceAs (Decidable (Fits targets.length))
  | .field _ m | .invoke _ m => inferInstanceAs (Decidable m.IsWritable)
  | .type _ desc => inferInstanceAs (Decidable (FitsText desc))
  | .label _ | .simple _ | .const (.int _) | .const (.long _) | .const (.float _)
  | .const (.double _) | .local .. | .inc .. | .jump .. | .frame _ => isTrue trivial

/-- The instruction has the operands that its opcode calls for, and they can be written. -/
def Instr.IsWritable (i : Instr) : Prop := i.isPaired ∧ i.HasWritableOperands

instance (i : Instr) : Decidable i.IsWritable := inferInstanceAs (Decidable (_ ∧ _))

def Handler.IsWritable (h : Handler) : Prop := ∀ type ∈ h.catchType, FitsText type

instance (h : Handler) : Decidable h.IsWritable :=
  inferInstanceAs (Decidable (∀ type ∈ h.catchType, FitsText type))

def Field.IsWritable (f : Field) : Prop := FitsText f.name ∧ FitsText f.desc

instance (f : Field) : Decidable f.IsWritable := inferInstanceAs (Decidable (_ ∧ _))

/-- The texts, lists and code of the method can be written. -/
structure Method.IsWritable (m : Method) : Prop where
  name : FitsText m.name
  desc : FitsText m.desc
  throws : FitsList FitsText m.throws
  code : ∀ i ∈ m.code, i.IsWritable
  codeLength : Fits (ofCode m.code).length
  handlers : FitsList Handler.IsWritable m.handlers

instance (m : Method) : Decidable m.IsWritable :=
  decidable_of_iff (FitsText m.name ∧ FitsText m.desc ∧ FitsList FitsText m.throws ∧
      (∀ i ∈ m.code, i.IsWritable) ∧ Fits (ofCode m.code).length ∧
      FitsList Handler.IsWritable m.handlers)
    ⟨fun ⟨name, desc, throws, code, codeLength, handlers⟩ =>
        { name, desc, throws, code, codeLength, handlers },
      fun h => ⟨h.name, h.desc, h.throws, h.code, h.codeLength, h.handlers⟩⟩

/-- The texts, lists and methods of the class can be written. -/
structure ClassDef.IsWritable (c : ClassDef) : Prop where
  name : FitsText c.name
  superName : ∀ parent ∈ c.superName, FitsText parent
  interfaces : FitsList FitsText c.interfaces
  markers : FitsList FitsText c.markers
  sourceFile : ∀ file ∈ c.sourceFile, FitsText file
  fields : FitsList Field.IsWritable c.fields
  methods : FitsList Method.IsWritable c.methods

instance (c : ClassDef) : Decidable c.IsWritable :=
  decidable_of_iff (FitsText c.name ∧ (∀ parent ∈ c.superName, FitsText parent) ∧
      FitsList FitsText c.interfaces ∧ FitsList FitsText c.markers ∧
      (∀ file ∈ c.sourceFile, FitsText file) ∧ FitsList Field.IsWritable c.fields ∧
      FitsList Method.IsWritable c.methods)
    ⟨fun ⟨name, superName, interfaces, markers, sourceFile, fields, methods⟩ =>
        { name, superName, interfaces, markers, sourceFile, fields, methods },
      fun h => ⟨h.name, h.superName, h.interfaces, h.markers, h.sourceFile, h.fields, h.methods⟩⟩

namespace Binary

namespace Reader

/-! ## Instructions -/

theorem takes_opcode (op : Opcode) : Takes opcode [op.toByte] op := by
  refine takes_position _ fun start => (takes_uint8 op.toByte).bind_nil ?_
  rw [Opcode.ofByte?_toByte]
  exact .pure op

theorem takes_slotKind (kind : SlotKind) : Takes slotKind [kind.toByte] kind := by
  refine takes_position _ fun start => (takes_uint8 kind.toByte).bind_nil ?_
  rw [SlotKind.ofByte?_toByte]
  exact .pure kind

theorem takes_member {m : MemberRef} (h : m.IsWritable) : Takes member (ofMember m) m := by
  unfold ofMember
  rw [List.append_assoc]
  exact (takes_string h.1).bind ((takes_string h.2.1).bind (takes_string h.2.2).bind_pure)

theorem takes_frameOp (f : FrameOp) :
    Takes (frameOp f.opcode) (ofOperands (.frame f)) f := by
  cases f with
  | entry | release | suspend => exact .pure _
  | reserve entry slots => exact (takes_uint32 entry).bind (takes_uint32 slots).bind_pure
  | save kind slot | restore kind slot =>
    exact (takes_slotKind kind).bind (takes_uint32 slot).bind_pure

/-- The operands are read as the opcode calls for them, which is how they were written. -/
theorem takes_operands {i : Instr} (h : i.IsWritable) :
    Takes (operandsOf i.opcode) (ofOperands i) i := by
  obtain ⟨hpaired, hfits⟩ := h
  have hoperands : i.opcode.operands = i.operands := by simpa [Instr.isPaired] using hpaired
  unfold operandsOf
  rw [hoperands]
  cases i with
  | label l => exact (takes_label l).bind_pure
  | simple op => exact .pure _
  | const value =>
    cases value with
    | int v => exact (takes_int32 v).bind_pure
    | long v => exact (takes_int64 v).bind_pure
    | float bits => exact (takes_uint32 bits).bind_pure
    | double bits => exact (takes_uint64 bits).bind_pure
    | str s => exact (takes_string hfits).bind_pure
  | «local» op index => exact (takes_uint16 index).bind_pure
  | inc index delta => exact (takes_uint16 index).bind (takes_int32 delta).bind_pure
  | jump op target => exact (takes_label target).bind_pure
  | switch low default targets =>
    simp only [ofOperands, List.append_assoc]
    refine (takes_int32 low).bind ((takes_label default).bind ?_)
    exact (takes_list hfits fun l _ => takes_label l).bind_pure
  | field op m | invoke op m => exact (takes_member hfits).bind_pure
  | type op desc => exact (takes_string hfits).bind_pure
  | frame f => exact (takes_frameOp f).bind_pure

theorem takes_instr {i : Instr} (h : i.IsWritable) : Takes instr (ofInstr i) i :=
  (takes_opcode i.opcode).bind (takes_operands h)

/-- With a step for each instruction, a body is read to its end. -/
theorem run_instrs {code : List Instr} (h : ∀ i ∈ code, i.IsWritable) {steps : Nat}
    (hsteps : code.length ≤ steps) (position : Nat) :
    (instrs steps).run.run ⟨position, ofCode code⟩ =
      (.ok code, ⟨position + (ofCode code).length, []⟩) := by
  induction code generalizing steps position with
  | nil => cases steps <;> rfl
  | cons i code ih =>
    obtain _ | steps := steps
    · cases hsteps
    · have hnext := takes_instr (h i List.mem_cons_self) position (ofCode code)
      have hrest := ih (fun j hj => h j (List.mem_cons_of_mem _ hj)) (Nat.le_of_succ_le_succ hsteps)
        (position + (ofInstr i).length)
      have hbytes : ofCode (i :: code) = ofInstr i ++ ofCode code := rfl
      have hrun : (instrs (steps + 1)).run.run ⟨position, ofInstr i ++ ofCode code⟩ =
          (do return (← instr) :: (← instrs steps) : Reader (List Instr)).run.run
            ⟨position, ofInstr i ++ ofCode code⟩ := rfl
      rw [hbytes, hrun, ExceptT.run_bind, StateT.run_bind, hnext]
      show ((instrs steps) >>= fun rest => pure (i :: rest) : Reader _).run.run _ = _
      rw [ExceptT.run_bind, StateT.run_bind, hrest, List.length_append, Nat.add_assoc]
      rfl

end Reader

/-- Each instruction takes a byte at least. -/
theorem length_le_length_ofCode (code : List Instr) : code.length ≤ (ofCode code).length := by
  induction code with
  | nil => exact Nat.le_refl _
  | cons i code ih =>
    have hbytes : ofCode (i :: code) = ofInstr i ++ ofCode code := rfl
    rw [hbytes, List.length_append, ofInstr, List.length_cons, List.length_cons]
    omega

theorem toCode_ofCode {code : List Instr} (h : ∀ i ∈ code, i.IsWritable) :
    toCode (ofCode code) = .ok code := by
  have hrun := Reader.run_instrs h (length_le_length_ofCode code) 0
  exact congrArg Prod.fst hrun

namespace Reader

/-! ## Members -/

theorem takes_body {code : List Instr} (h : ∀ i ∈ code, i.IsWritable)
    (hlength : Fits (ofCode code).length) :
    Takes body (ofLength (ofCode code).length ++ ofCode code) code := by
  refine (takes_length hlength).bind ((takes_take (ofCode code)).bind_nil ?_)
  rw [toCode_ofCode h]
  exact .pure code

theorem takes_texts {texts : List String} (h : FitsList FitsText texts) :
    Takes (list string) (ofList ofString texts) texts :=
  takes_list h.1 fun s hs => takes_string (h.2 s hs)

theorem takes_access (a : Access) : Takes access (ofUInt16 a.bits) a :=
  (takes_uint16 a.bits).map

theorem takes_handler {h : Handler} (hh : h.IsWritable) : Takes handler (ofHandler h) h := by
  unfold ofHandler
  simp only [List.append_assoc]
  refine (takes_label h.start).bind ((takes_label h.stop).bind ((takes_label h.target).bind ?_))
  exact (takes_string? hh).bind_pure

theorem takes_field {f : Field} (h : f.IsWritable) : Takes field (ofField f) f := by
  unfold ofField
  rw [List.append_assoc]
  exact (takes_string h.1).bind ((takes_string h.2).bind (takes_access f.access).bind_pure)

theorem takes_method {m : Method} (h : m.IsWritable) : Takes method (ofMethod m) m := by
  have hbytes : ofMethod m = ofString m.name ++ (ofString m.desc ++ (ofUInt16 m.access.bits ++
      (ofList ofString m.throws ++ (ofUInt16 m.maxLocals ++
        ((ofLength (ofCode m.code).length ++ ofCode m.code) ++ ofList ofHandler m.handlers))))) := by
    simp only [ofMethod, List.append_assoc]
  have hhandlers : Takes (list handler) (ofList ofHandler m.handlers) m.handlers :=
    takes_list h.handlers.1 fun t ht => takes_handler (h.handlers.2 t ht)
  rw [hbytes]
  refine (takes_string h.name).bind ((takes_string h.desc).bind ((takes_access m.access).bind ?_))
  refine (takes_texts h.throws).bind ((takes_uint16 m.maxLocals).bind ?_)
  exact (takes_body h.code h.codeLength).bind hhandlers.bind_pure

/-! ## Classes -/

/-- The header says whether a source file is there to be read. -/
theorem headerFlags_and (c : ClassDef) :
    (headerFlags c &&& sourceFileFlag != 0) = c.sourceFile.isSome := by
  unfold headerFlags
  cases c.sourceFile with
  | none => rfl
  | some file =>
    show (sourceFileFlag &&& sourceFileFlag != 0) = true
    decide

theorem takes_classDef {c : ClassDef} (h : c.IsWritable) :
    Takes (classDef (headerFlags c)) (payload c) c := by
  have hmembers {α : Type} {k : List Field → List Method → α} :
      Takes (do return k (← list field) (← list method))
        (ofList ofField c.fields ++ ofList ofMethod c.methods) (k c.fields c.methods) :=
    (takes_list h.fields.1 fun f hf => takes_field (h.fields.2 f hf)).bind
      (takes_list h.methods.1 fun m hm => takes_method (h.methods.2 m hm)).bind_pure
  unfold payload classDef
  simp only [List.append_assoc, headerFlags_and]
  refine (takes_string h.name).bind ((takes_string? h.superName).bind ?_)
  refine (takes_access c.access).bind ((takes_texts h.interfaces).bind ?_)
  refine (takes_texts h.markers).bind ?_
  obtain ⟨name, superName, access, interfaces, markers, fields, methods, _ | file⟩ := c
  · exact hmembers
  · exact (takes_string (h.sourceFile file rfl)).map.bind hmembers

end Reader

/-! ## Files -/

theorem FileReader.takes_lift {α : Type} {read : Reader α} {bytes : List UInt8} {a : α}
    (h : Takes read bytes a) : Takes (FileReader.lift read) bytes a := by
  have hrun : Takes (liftM read.run : FileReader _) bytes (.ok a) :=
    fun position rest => congrArg (fun r : _ × Cursor => (Except.ok r.1, r.2)) (h position rest)
  exact hrun.bind_nil (.pure a)

/-- **A class file holds its class.** -/
theorem toClass_ofClass {c : ClassDef} (h : c.IsWritable) : toClass (ofClass c) = .ok c := by
  have hletters := FileReader.takes_lift (Reader.takes_take magic)
  have hnumber (v : UInt32) := FileReader.takes_lift (Reader.takes_uint32 v)
  have hclass := FileReader.takes_lift (Reader.takes_classDef h)
  show (FileReader.file.run.run ⟨0, ofClass c⟩).1 = .ok c
  unfold FileReader.file ofClass
  simp only [List.append_assoc]
  -- Letters, version and checksum are those that the reader expects, so no check stops it.
  rw [show 4 = magic.length from rfl, hletters.run_bind, if_neg (by simp)]
  rw [(hnumber version).run_bind, if_neg (by simp)]
  rw [(hnumber (headerFlags c)).run_bind, (hnumber (checksum (payload c))).run_bind]
  rw [run_get_bind, if_neg (by simp)]
  rw [← List.append_nil (payload c), hclass.run_bind, run_get_bind]
  rfl

/-- A class with a source file, an optional name left out and one given, texts that are not ASCII,
and instructions of many shapes. -/
def assorted : ClassDef where
  name := "app/Größe"
  superName := some "sys/Object"
  access := .everywhere
  interfaces := ["app/Measured"]
  markers := [""]
  fields := [{ name := "wert", desc := "D" }]
  methods := [{
    name := "of"
    desc := "(I)D"
    access := .static
    throws := ["ravel/SuspendExecution", "sys/Exception"]
    maxLocals := 2
    code := [.label ⟨0⟩, .local .iload 0, .switch (-1) ⟨2⟩ [⟨1⟩, ⟨2⟩], .label ⟨1⟩,
      .const (.str "µ"), .invoke .invokestatic ⟨"app/Log", "note", "(Lsys/String;)V"⟩,
      .inc 0 (-7), .const (.long (-1)), .simple .l2d, .frame (.save .double 3),
      .const (.double 0x7FF8000000000001), .jump .goto ⟨1⟩, .label ⟨2⟩, .type .new "sys/Error",
      .simple .athrow]
    handlers := [⟨⟨0⟩, ⟨1⟩, ⟨2⟩, none⟩, ⟨⟨1⟩, ⟨2⟩, ⟨2⟩, some "sys/Exception"⟩] }]
  sourceFile := some "größe.src"

theorem toClass_ofClass_assorted :
    assorted.IsWritable ∧ toClass (ofClass assorted) = .ok assorted :=
  have h : assorted.IsWritable := by decide +kernel
  ⟨h, toClass_ofClass h⟩

end Binary

end Resumable
