import Resumable.Proofs.Binary.Accepting

/-!
# Class files have one form

Code has one form: bytes that are read as code are the bytes of that code. A class file has more
than one, in two places only. The byte in front of a name that may be missing, its mark, says by any
value but zero that there is a name, and of the header's flags one is looked at. So a file that is
read is as long as the one that is written for its class, and it is that file just if the marks and
the flags are the writer's (`ofClass_toClass`).

`Reader.markedClass` reads a class and keeps the marks that it comes across. Without them it is the
reader of classes (`Reader.fst_markedClass`).
-/

namespace Resumable

/-! ## Code -/

/-- The opcode that alone calls for these operands, if one does. -/
def Operands.only? : Operands → Option Opcode
  | .label => some .label
  | .int => some .iconst
  | .long => some .lconst
  | .float => some .fconst
  | .double => some .dconst
  | .string => some .sconst
  | .increment => some .iinc
  | .switch => some .tableswitch
  | .none | .local | .target | .field | .method | .type | .frame => Option.none

theorem Opcode.eq_of_only? {op only : Opcode} (h : op.operands.only? = some only) : only = op := by
  have hall : Opcode.all.all (fun op => op.operands.only?.all (· == op)) = true := by decide +kernel
  simpa [h] using List.all_eq_true.1 hall op op.mem_all

theorem Opcode.mem_of_frame {op : Opcode} (h : op.operands = .frame) :
    op ∈ [.frameEntry, .frameReserve, .frameRelease, .frameSave, .frameRestore, .frameSuspend] := by
  have hall : Opcode.all.all (fun op => op.operands != .frame || op ∈
      [.frameEntry, .frameReserve, .frameRelease, .frameSave, .frameRestore, .frameSuspend]) =
        true := by decide +kernel
  simpa [h] using List.all_eq_true.1 hall op op.mem_all

namespace Binary

namespace Reader

theorem accepts_opcode : Accepts opcode fun x op => x = [op.toByte] := by
  refine accepts_position fun start => accepts_uint8.bind fun byte x hx => ?_
  split
  · next op hop => exact .pure (by rw [hx, Opcode.ofByte?_eq_some_iff.1 hop, List.append_nil])
  · exact .throw _

theorem accepts_slotKind : Accepts slotKind fun x kind => x = [kind.toByte] := by
  refine accepts_position fun start => accepts_uint8.bind fun byte x hx => ?_
  split
  · next kind hkind =>
    exact .pure (by rw [hx, SlotKind.ofByte?_eq_some_iff.1 hkind, List.append_nil])
  · exact .throw _

theorem accepts_member : Accepts member fun x m => x = ofMember m ∧ m.IsWritable := by
  refine accepts_string.bind fun owner _ howner => accepts_string.bind fun name _ hname => ?_
  obtain ⟨rfl, howner⟩ := howner
  obtain ⟨rfl, hname⟩ := hname
  refine (Accepts.mono accepts_string ?_).bind_pure
  rintro _ desc ⟨rfl, hdesc⟩
  exact ⟨(List.append_assoc ..).symm, howner, hname, hdesc⟩

theorem accepts_frameOp {op : Opcode} (hop : op.operands = .frame) :
    Accepts (frameOp op) fun x f => x = ofOperands (.frame f) ∧ f.opcode = op := by
  have hslot {op : Opcode} {make : SlotKind → UInt32 → FrameOp} (hmake : ∀ kind slot,
      ofOperands (.frame (make kind slot)) = kind.toByte :: ofUInt32 slot ∧
        (make kind slot).opcode = op) :
      Accepts (do return make (← slotKind) (← uint32)) fun x f =>
        x = ofOperands (.frame f) ∧ f.opcode = op := by
    refine accepts_slotKind.bind fun kind _ hkind => (Accepts.mono accepts_uint32 ?_).bind_pure
    rintro _ slot rfl
    exact ⟨by rw [hkind, (hmake kind slot).1]; rfl, (hmake kind slot).2⟩
  have hmem := Opcode.mem_of_frame hop
  simp only [List.mem_cons, List.not_mem_nil, or_false] at hmem
  rcases hmem with rfl | rfl | rfl | rfl | rfl | rfl
  · exact .pure ⟨rfl, rfl⟩
  · refine accepts_uint32.bind fun entry _ hentry => (Accepts.mono accepts_uint32 ?_).bind_pure
    rintro _ slots rfl
    exact ⟨by rw [hentry]; rfl, rfl⟩
  · exact .pure ⟨rfl, rfl⟩
  · exact hslot fun _ _ => ⟨rfl, rfl⟩
  · exact hslot fun _ _ => ⟨rfl, rfl⟩
  · exact .pure ⟨rfl, rfl⟩

/-- The operands that are read are those of an instruction with the opcode, which calls for
them. -/
theorem accepts_operands (op : Opcode) : Accepts (operandsOf op) fun x i =>
    x = ofOperands i ∧ i.opcode = op ∧ i.IsWritable := by
  have hpaired {i : Instr} (h : i.opcode = op ∧ op.operands = i.operands)
      (hfits : i.HasWritableOperands) : i.opcode = op ∧ i.IsWritable :=
    ⟨h.1, by simp [Instr.isPaired, h], hfits⟩
  -- Most opcodes call for one thing.
  have hone {β : Type} {read : Reader β} {make : β → Instr}
      (hread : Accepts read fun x b => x = ofOperands (make b) ∧ (make b).HasWritableOperands)
      (hmake : ∀ b, (make b).opcode = op ∧ op.operands = (make b).operands) :
      Accepts (do return make (← read)) fun x i =>
        x = ofOperands i ∧ i.opcode = op ∧ i.IsWritable :=
    (hread.mono fun x b hb => ⟨hb.1, hpaired (hmake b) hb.2⟩).bind_pure
  have hplain {P : Prop} (h : P) : P ∧ True := ⟨h, trivial⟩
  have honly {only : Opcode} (h : op.operands.only? = some only) : only = op :=
    Opcode.eq_of_only? h
  unfold operandsOf
  rcases hop : op.operands <;> rw [hop] at honly <;> dsimp only
  case none => exact .pure ⟨rfl, hpaired ⟨rfl, hop⟩ trivial⟩
  case label => exact hone (accepts_label.mono fun _ _ => hplain) fun _ => ⟨honly rfl, hop⟩
  case int => exact hone (accepts_int32.mono fun _ _ => hplain) fun _ => ⟨honly rfl, hop⟩
  case long => exact hone (accepts_int64.mono fun _ _ => hplain) fun _ => ⟨honly rfl, hop⟩
  case float => exact hone (accepts_uint32.mono fun _ _ => hplain) fun _ => ⟨honly rfl, hop⟩
  case double => exact hone (accepts_uint64.mono fun _ _ => hplain) fun _ => ⟨honly rfl, hop⟩
  case string => exact hone accepts_string fun _ => ⟨honly rfl, hop⟩
  case «local» => exact hone (accepts_uint16.mono fun _ _ => hplain) fun _ => ⟨rfl, hop⟩
  case increment =>
    refine accepts_uint16.bind fun index _ hindex => (Accepts.mono accepts_int32 ?_).bind_pure
    rintro _ delta rfl
    exact ⟨by rw [hindex]; rfl, hpaired ⟨honly rfl, hop⟩ trivial⟩
  case target => exact hone (accepts_label.mono fun _ _ => hplain) fun _ => ⟨rfl, hop⟩
  case switch =>
    have htargets : Accepts (list label) fun x targets =>
        x = ofList (fun l => ofUInt32 l.id) targets ∧ FitsList (fun _ => True) targets :=
      accepts_list_of_eq (accepts_label.mono fun _ _ => hplain)
    refine accepts_int32.bind fun low _ hlow => accepts_label.bind fun default _ hdefault => ?_
    refine (Accepts.mono htargets ?_).bind_pure
    rintro _ targets ⟨rfl, hfits⟩
    refine ⟨?_, hpaired ⟨honly rfl, hop⟩ hfits.1⟩
    rw [hlow, hdefault]
    simp [ofOperands, ofList]
  case field => exact hone accepts_member fun _ => ⟨rfl, hop⟩
  case method => exact hone accepts_member fun _ => ⟨rfl, hop⟩
  case type => exact hone accepts_string fun _ => ⟨rfl, hop⟩
  case frame =>
    refine (Accepts.mono (accepts_frameOp hop) ?_).bind_pure
    rintro _ f ⟨rfl, hf⟩
    exact ⟨rfl, hpaired ⟨hf, hop⟩ trivial⟩

theorem accepts_instr : Accepts instr fun x i => x = ofInstr i ∧ i.IsWritable := by
  refine accepts_opcode.bind fun op _ hop => (accepts_operands op).mono ?_
  rintro x i ⟨rfl, rfl, hi⟩
  exact ⟨by rw [hop]; rfl, hi⟩

/-- With a step for each byte, all bytes are read. -/
theorem instrs_accepts {steps : Nat} {c c' : Cursor} {code : List Instr}
    (hsteps : c.rest.length ≤ steps) (h : (instrs steps).run.run c = (.ok code, c')) :
    c.rest = ofCode code ∧ ∀ i ∈ code, i.IsWritable := by
  induction steps generalizing c c' code with
  | zero =>
    cases h
    exact ⟨List.length_eq_zero_iff.1 (Nat.le_zero.1 hsteps), by simp⟩
  | succ steps ih =>
    rw [instrs, run_get_bind] at h
    split at h
    · next hend =>
      cases h
      exact ⟨List.isEmpty_iff.1 hend, by simp⟩
    · obtain ⟨i, c₁, hi, h⟩ := exists_of_run_bind h
      obtain ⟨code, c₂, hcode, h⟩ := exists_of_run_bind h
      cases h
      obtain ⟨x, hrest, -, rfl, hwritable⟩ := accepts_instr c c₁ i hi
      rw [hrest, ofInstr, List.length_append, List.length_cons] at hsteps
      obtain ⟨hbytes, hall⟩ := ih (by omega) hcode
      exact ⟨by rw [hrest, hbytes]; rfl, List.forall_mem_cons.2 ⟨hwritable, hall⟩⟩

end Reader

theorem toCode_accepts {bytes : List UInt8} {code : List Instr} (h : toCode bytes = .ok code) :
    bytes = ofCode code ∧ ∀ i ∈ code, i.IsWritable :=
  Reader.instrs_accepts (c := .start bytes) (Nat.le_refl _) (Prod.ext h rfl)

/-! ## Marks -/

/-- The byte in front of a name that may be missing is one that is written. -/
def IsMark (mark : UInt8) : Prop := mark = 0 ∨ mark = 1

instance (mark : UInt8) : Decidable (IsMark mark) := inferInstanceAs (Decidable (_ ∨ _))

namespace Reader

/-- Takes a text that may be missing, and keeps the byte in front of it. -/
def markedString? : Reader (Option String × UInt8) := do
  let mark ← uint8
  if mark = 0 then return (none, mark) else return (some (← string), mark)

def markedHandler : Reader (Handler × UInt8) := do
  let start ← label
  let stop ← label
  let target ← label
  let (catchType, mark) ← markedString?
  return ({ start, stop, target, catchType }, mark)

/-- Takes a method, and keeps the marks of its handlers. -/
def markedMethod : Reader (Method × List UInt8) := do
  let name ← string
  let desc ← string
  let access ← access
  let throws ← list string
  let maxLocals ← uint16
  let code ← body
  let handlers ← list markedHandler
  return ({ name, desc, access, throws, maxLocals, code, handlers := handlers.map (·.1) },
    handlers.map (·.2))

/-- Takes the name of the source file, if the flags say that there is one. -/
def sourceText (flags : UInt32) : Reader (Option String) :=
  if flags &&& sourceFileFlag != 0 then some <$> string else pure none

/-- Takes the payload of a class file, and keeps the mark of the ancestor and those of all
handlers. -/
def markedClass (flags : UInt32) : Reader (ClassDef × List UInt8) := do
  let name ← string
  let (superName, mark) ← markedString?
  let access ← access
  let interfaces ← list string
  let markers ← list string
  let sourceFile ← sourceText flags
  let fields ← list field
  let methods ← list markedMethod
  return ({ name, superName, access, interfaces, markers, fields, methods := methods.map (·.1),
            sourceFile }, mark :: methods.flatMap (·.2))

theorem fst_markedString? : Prod.fst <$> markedString? = string? := by
  simp only [markedString?, string?, map_bind]
  congr 1
  funext mark
  split
  · simp
  · simp

theorem fst_markedHandler : Prod.fst <$> markedHandler = handler := by
  simp only [markedHandler, handler, map_bind, map_pure]
  simp only [← fst_markedString?, bind_map_left]

theorem fst_times {α β : Type} {read : Reader (α × β)} (count : Nat) :
    List.map Prod.fst <$> times count read = times count (Prod.fst <$> read) := by
  induction count with
  | zero => simp [times]
  | succ count ih => simp [times, ← ih, map_bind, bind_map_left]

theorem fst_list {α β : Type} {read : Reader (α × β)} :
    List.map Prod.fst <$> list read = list (Prod.fst <$> read) := by
  simp [list, map_bind, fst_times]

theorem fst_markedMethod : Prod.fst <$> markedMethod = method := by
  simp only [markedMethod, method, map_bind, map_pure, ← fst_markedHandler, ← fst_list,
    bind_map_left]

/-- What is kept of a class takes nothing away from it. -/
theorem fst_markedClass (flags : UInt32) : Prod.fst <$> markedClass flags = classDef flags := by
  simp only [markedClass, classDef, sourceText, map_bind, map_pure, ← fst_markedString?,
    ← fst_markedMethod, ← fst_list, bind_map_left]
  split <;> simp only [bind_map_left]

theorem accepts_markedString? : Accepts markedString? fun x p =>
    Spells x (ofString? p.1) (IsMark p.2) ∧ ∀ s ∈ p.1, FitsText s := by
  refine accepts_uint8.bind fun mark x hx => ?_
  subst hx
  split
  · next hmark =>
    subst hmark
    exact .pure ⟨(Spells.self [0]).congr (by simp [IsMark]), by simp⟩
  · next hmark =>
    refine (Accepts.mono accepts_string ?_).bind_pure
    rintro _ s ⟨rfl, hs⟩
    exact ⟨⟨rfl, by simp [ofString?, IsMark, hmark]⟩, by simpa using hs⟩

theorem accepts_markedHandler : Accepts markedHandler fun x p =>
    Spells x (ofHandler p.1) (IsMark p.2) ∧ p.1.IsWritable := by
  refine accepts_label.bind fun start _ hstart => accepts_label.bind fun stop _ hstop => ?_
  refine accepts_label.bind fun target _ htarget => ?_
  refine (Accepts.mono accepts_markedString? ?_).bind_pure
  rintro x ⟨catchType, mark⟩ ⟨hx, hfits⟩
  subst hstart hstop htarget
  refine ⟨?_, hfits⟩
  have hall := hx.behind (ofUInt32 start.id ++ ofUInt32 stop.id ++ ofUInt32 target.id)
  simpa only [ofHandler, List.append_assoc] using hall

theorem accepts_body : Accepts body fun x code =>
    x = ofLength (ofCode code).length ++ ofCode code ∧ (∀ i ∈ code, i.IsWritable) ∧
      Fits (ofCode code).length := by
  refine accepts_length.bind fun length _ hlength => ?_
  obtain ⟨rfl, hfits⟩ := hlength
  refine (accepts_take length).bind fun bytes _ hbytes => ?_
  obtain ⟨rfl, rfl⟩ := hbytes
  split
  · next code hcode =>
    obtain ⟨rfl, hwritable⟩ := toCode_accepts hcode
    exact .pure ⟨by rw [List.append_nil], hwritable, hfits⟩
  · exact .throw _

theorem accepts_access : Accepts access fun x a => x = ofUInt16 a.bits :=
  Accepts.map (f := Access.mk) accepts_uint16

theorem accepts_texts : Accepts (list string) fun x texts =>
    x = ofList ofString texts ∧ FitsList FitsText texts := accepts_list_of_eq accepts_string

theorem accepts_field : Accepts field fun x f => x = ofField f ∧ f.IsWritable := by
  refine accepts_string.bind fun name _ hname => accepts_string.bind fun desc _ hdesc => ?_
  obtain ⟨rfl, hname⟩ := hname
  obtain ⟨rfl, hdesc⟩ := hdesc
  refine (Accepts.mono accepts_access ?_).bind_pure
  rintro _ access rfl
  exact ⟨(List.append_assoc ..).symm, hname, hdesc⟩

theorem accepts_markedMethod : Accepts markedMethod fun x p =>
    Spells x (ofMethod p.1) (∀ mark ∈ p.2, IsMark mark) ∧ p.1.IsWritable := by
  refine accepts_string.bind fun name _ hname => accepts_string.bind fun desc _ hdesc => ?_
  refine accepts_access.bind fun access _ haccess => accepts_texts.bind fun throws _ hthrows => ?_
  refine accepts_uint16.bind fun maxLocals _ hlocals => accepts_body.bind fun code _ hcode => ?_
  refine (Accepts.mono (accepts_list_kept accepts_markedHandler) ?_).bind_pure
  rintro x handlers ⟨hx, hhandlers⟩
  obtain ⟨rfl, hname⟩ := hname
  obtain ⟨rfl, hdesc⟩ := hdesc
  subst haccess
  obtain ⟨rfl, hthrows⟩ := hthrows
  subst hlocals
  obtain ⟨rfl, hcode, hlength⟩ := hcode
  refine ⟨?_, ⟨hname, hdesc, hthrows, hcode, hlength, hhandlers⟩⟩
  have hall := hx.behind (ofString name ++ ofString desc ++ ofUInt16 access.bits ++
    ofList ofString throws ++ ofUInt16 maxLocals ++ ofLength (ofCode code).length ++ ofCode code)
  simpa only [ofMethod, List.append_assoc] using hall

theorem accepts_markedMethods : Accepts (list markedMethod) fun x items =>
    Spells x (ofList ofMethod (items.map (·.1)))
      (∀ kept ∈ items.map (·.2), ∀ mark ∈ kept, IsMark mark) ∧
      FitsList Method.IsWritable (items.map (·.1)) :=
  accepts_list_kept accepts_markedMethod

/-- The name of the source file as it is written: nothing if it is missing. -/
def ofSource : Option String → List UInt8
  | some file => ofString file
  | none => []

theorem payload_eq (c : ClassDef) : payload c = ofString c.name ++ ofString? c.superName ++
    ofUInt16 c.access.bits ++ ofList ofString c.interfaces ++ ofList ofString c.markers ++
    ofSource c.sourceFile ++ ofList ofField c.fields ++ ofList ofMethod c.methods := by
  unfold payload
  cases c.sourceFile <;> rfl

theorem accepts_sourceText (flags : UInt32) : Accepts (sourceText flags) fun x file =>
    x = ofSource file ∧ (∀ s ∈ file, FitsText s) ∧
      file.isSome = (flags &&& sourceFileFlag != 0) := by
  unfold sourceText
  split
  · next hflag =>
    refine (Accepts.mono accepts_string ?_).map
    rintro _ s ⟨rfl, hs⟩
    exact ⟨rfl, by simpa using hs, by rw [hflag]; rfl⟩
  · next hflag => exact .pure ⟨rfl, by simp, by simpa using hflag⟩

theorem accepts_markedClass (flags : UInt32) : Accepts (markedClass flags) fun x p =>
    Spells x (payload p.1) (∀ mark ∈ p.2, IsMark mark) ∧ p.1.IsWritable ∧
      p.1.sourceFile.isSome = (flags &&& sourceFileFlag != 0) := by
  refine accepts_string.bind fun name _ hname => ?_
  refine accepts_markedString?.bind fun ⟨superName, mark⟩ xSuper ⟨hsuper, hparent⟩ => ?_
  refine accepts_access.bind fun access _ haccess => ?_
  refine accepts_texts.bind fun interfaces _ hinterfaces => ?_
  refine accepts_texts.bind fun markers _ hmarkers => ?_
  refine (accepts_sourceText flags).bind fun file xFile hfile => ?_
  refine (accepts_list_of_eq accepts_field).bind fun fields _ hfields => ?_
  refine (Accepts.mono accepts_markedMethods ?_).bind_pure
  rintro x methods ⟨hx, hmethods⟩
  obtain ⟨rfl, hname⟩ := hname
  subst haccess
  obtain ⟨rfl, hinterfaces⟩ := hinterfaces
  obtain ⟨rfl, hmarkers⟩ := hmarkers
  obtain ⟨rfl, hfile, hflag⟩ := hfile
  obtain ⟨rfl, hfields⟩ := hfields
  refine ⟨?_, ⟨hname, hparent, hinterfaces, hmarkers, hfile, hfields, hmethods⟩, hflag⟩
  have hall := (hsuper.append (hx.behind (ofUInt16 access.bits ++ ofList ofString interfaces ++
    ofList ofString markers ++ ofSource file ++ ofList ofField fields))).behind (ofString name)
  have hmarks : (IsMark mark ∧ ∀ kept ∈ methods.map (·.2), ∀ m ∈ kept, IsMark m) ↔
      ∀ m ∈ mark :: methods.flatMap (·.2), IsMark m := by
    simp only [List.forall_mem_cons, List.forall_mem_map, List.forall_mem_flatMap]
  rw [payload_eq]
  simpa only [List.append_assoc] using hall.congr hmarks

end Reader

/-! ## Files -/

/-- The class file with these flags and this payload. -/
def fileOf (flags : UInt32) (rest : List UInt8) : List UInt8 :=
  magic ++ ofUInt32 version ++ ofUInt32 flags ++ ofUInt32 (checksum rest) ++ rest

/-- The flags in the header of a class file. -/
def fileFlags (bytes : List UInt8) : UInt32 := UInt32.ofNat (ofBytes ((bytes.drop 8).take 4))

/-- The marks of a class file, each of which says whether a name follows. -/
def fileMarks (bytes : List UInt8) : List UInt8 :=
  match (Reader.markedClass (fileFlags bytes)).run.run ⟨16, bytes.drop 16⟩ with
  | (.ok (_, marks), _) => marks
  | _ => []

theorem ofClass_eq (c : ClassDef) : ofClass c = fileOf (headerFlags c) (payload c) := rfl

theorem drop_fileOf (flags : UInt32) (rest : List UInt8) : (fileOf flags rest).drop 16 = rest :=
  rfl

theorem fileFlags_fileOf (flags : UInt32) (rest : List UInt8) :
    fileFlags (fileOf flags rest) = flags := by
  have hbytes : ((fileOf flags rest).drop 8).take 4 = ofUInt32 flags := rfl
  rw [fileFlags, hbytes, ofUInt32, ofBytes_toBytes, Nat.mod_eq_of_lt flags.toNat_lt,
    UInt32.ofNat_toNat]

theorem length_fileOf (flags : UInt32) (rest : List UInt8) :
    (fileOf flags rest).length = 16 + rest.length := by
  rw [fileOf, List.length_append]
  rfl

theorem fileOf_eq_iff {flags flags' : UInt32} {rest rest' : List UInt8} :
    fileOf flags rest = fileOf flags' rest' ↔ flags = flags' ∧ rest = rest' := by
  constructor
  · intro h
    have hflags := congrArg fileFlags h
    have hrest := congrArg (List.drop 16) h
    rw [fileFlags_fileOf, fileFlags_fileOf] at hflags
    rw [drop_fileOf, drop_fileOf] at hrest
    exact ⟨hflags, hrest⟩
  · rintro ⟨rfl, rfl⟩
    rfl

theorem FileReader.run_of_lift {α : Type} {read : Reader α} {c c' : Cursor} {a : α}
    (h : (FileReader.lift read).run.run c = (.ok a, c')) : read.run.run c = (.ok a, c') := by
  obtain ⟨r, c₁, hread, h⟩ := exists_of_run_bind h
  have hrun : (Except.ok (read.run.run c).1, (read.run.run c).2) =
      ((.ok r, c₁) : Except ClassFileError _ × Cursor) := hread
  rw [Prod.ext_iff, Except.ok.injEq] at hrun
  cases r with
  | error cause => cases h
  | ok a =>
    cases h
    exact Prod.ext hrun.1 hrun.2

theorem FileReader.run_lift {α : Type} {read : Reader α} {c c' : Cursor} {a : α}
    (h : read.run.run c = (.ok a, c')) : (FileReader.lift read).run.run c = (.ok a, c') := by
  have hrun : (liftM read.run : FileReader _).run.run c =
      (.ok (read.run.run c).1, (read.run.run c).2) := rfl
  rw [FileReader.lift, ExceptT.run_bind, StateT.run_bind, hrun, h]
  rfl

theorem FileReader.accepts_lift {α : Type} {read : Reader α} {G : List UInt8 → α → Prop}
    (h : Accepts read G) : Accepts (FileReader.lift read) G :=
  fun c c' a hrun => h c c' a (run_of_lift hrun)

/-- The header of a class file that is read has the letters, the version and the checksum, and the
payload is read to its end. -/
theorem exists_of_toClass {bytes : List UInt8} {c : ClassDef} (h : toClass bytes = .ok c) :
    ∃ flags rest position, bytes = fileOf flags rest ∧
      (Reader.classDef flags).run.run ⟨16, rest⟩ = (.ok c, ⟨position, []⟩) := by
  obtain ⟨last, hrun⟩ : ∃ last, FileReader.file.run.run (.start bytes) = (.ok c, last) :=
    ⟨_, Prod.ext h rfl⟩
  have htake := FileReader.accepts_lift (Reader.accepts_take 4)
  have hnumber := FileReader.accepts_lift Reader.accepts_uint32
  unfold FileReader.file at hrun
  obtain ⟨_, c₁, hletters, hrun⟩ := exists_of_run_bind hrun
  obtain ⟨letters, hrest₁, hpos₁, rfl, hlength⟩ := htake _ _ _ hletters
  split at hrun
  · cases hrun
  next hmagic =>
  obtain ⟨found, c₂, hfound, hrun⟩ := exists_of_run_bind hrun
  obtain ⟨_, hrest₂, hpos₂, rfl⟩ := hnumber _ _ _ hfound
  split at hrun
  · cases hrun
  next hversion =>
  obtain ⟨flags, c₃, hflags, hrun⟩ := exists_of_run_bind hrun
  obtain ⟨_, hrest₃, hpos₃, rfl⟩ := hnumber _ _ _ hflags
  obtain ⟨stored, c₄, hstored, hrun⟩ := exists_of_run_bind hrun
  obtain ⟨_, hrest₄, hpos₄, rfl⟩ := hnumber _ _ _ hstored
  rw [run_get_bind] at hrun
  dsimp only at hrun
  split at hrun
  · cases hrun
  next hchecksum =>
  obtain ⟨d, c₅, hclass, hrun⟩ := exists_of_run_bind hrun
  rw [run_get_bind] at hrun
  split at hrun
  · cases hrun
  next hend =>
  cases hrun
  -- Four parts of four bytes each stand in front of the payload.
  have hstart : c₄ = ⟨16, c₄.rest⟩ := by
    have hposition : c₄.position = 16 := by
      rw [hpos₄, hpos₃, hpos₂, hpos₁, hlength]
      rfl
    rw [← hposition]
  have hlast : last = ⟨last.position, []⟩ := by
    have hrest : last.rest = [] := by simpa [Cursor.isAtEnd] using hend
    rw [← hrest]
  have hclass := FileReader.run_of_lift hclass
  rw [hstart, hlast] at hclass
  refine ⟨flags, c₄.rest, last.position, ?_, hclass⟩
  have hletters : letters = magic := by simpa using hmagic
  have hfound : found = version := by simpa using hversion
  have hstored : stored = checksum c₄.rest := by simpa using hchecksum
  have hbytes : bytes = letters ++ c₁.rest := hrest₁
  rw [hbytes, hrest₂, hrest₃, hrest₄, hletters, hfound, hstored]
  simp only [fileOf, List.append_assoc]

/-- A header with the letters, the version and the checksum is passed. -/
theorem toClass_fileOf {flags : UInt32} {rest : List UInt8} {c : ClassDef} {position : Nat}
    (h : (Reader.classDef flags).run.run ⟨16, rest⟩ = (.ok c, ⟨position, []⟩)) :
    toClass (fileOf flags rest) = .ok c := by
  have hletters := FileReader.takes_lift (Reader.takes_take magic)
  have hnumber (v : UInt32) := FileReader.takes_lift (Reader.takes_uint32 v)
  have hclass := FileReader.run_lift h
  show (FileReader.file.run.run ⟨0, fileOf flags rest⟩).1 = .ok c
  unfold FileReader.file fileOf
  simp only [List.append_assoc]
  rw [show 4 = magic.length from rfl, hletters.run_bind, if_neg (by simp)]
  rw [(hnumber version).run_bind, if_neg (by simp)]
  rw [(hnumber flags).run_bind, (hnumber (checksum rest)).run_bind]
  rw [run_get_bind, if_neg (by simp)]
  show ((FileReader.lift (Reader.classDef flags) >>= _).run.run ⟨16, rest⟩).1 = .ok c
  rw [ExceptT.run_bind, StateT.run_bind, hclass]
  rfl

/-- The file with a class's own flags and payload is read as the class. -/
theorem toClass_payload {c : ClassDef} (h : c.IsWritable) :
    toClass (fileOf (headerFlags c) (payload c)) = .ok c := by
  have hclass := Reader.takes_classDef h 16 []
  rw [List.append_nil] at hclass
  exact toClass_fileOf hclass

/-- A class that has been read can be written. -/
theorem isWritable_of_toClass {bytes : List UInt8} {c : ClassDef} (h : toClass bytes = .ok c) :
    c.IsWritable := by
  obtain ⟨flags, rest, position, -, hclass⟩ := exists_of_toClass h
  rw [← Reader.fst_markedClass, map_eq_pure_bind] at hclass
  obtain ⟨⟨c, marks⟩, c', hmarked, hclass⟩ := exists_of_run_bind hclass
  cases hclass
  obtain ⟨_, -, -, -, hwritable, -⟩ := Reader.accepts_markedClass flags _ _ _ hmarked
  exact hwritable

theorem and_one_eq (f : UInt32) : f &&& 1 = 0 ∨ f &&& 1 = 1 := by
  have h : (f &&& 1).toNat = f.toNat % 2 := by simp [UInt32.toNat_and, Nat.and_one_is_mod]
  rcases Nat.mod_two_eq_zero_or_one f.toNat with h0 | h1
  · exact .inl (UInt32.toNat.inj (h.trans h0))
  · exact .inr (UInt32.toNat.inj (h.trans h1))

theorem and_not_eq_zero_iff (f mask : UInt32) : f &&& ~~~mask = 0 ↔ f &&& mask = f := by
  constructor
  · intro h
    have hall : (f &&& mask) ||| (f &&& ~~~mask) = f := by
      apply UInt32.toBitVec_inj.1
      rw [UInt32.toBitVec_or, UInt32.toBitVec_and, UInt32.toBitVec_and, UInt32.toBitVec_not,
        ← BitVec.and_or_distrib_left, BitVec.or_not_self, BitVec.and_allOnes]
    simpa [h] using hall
  · intro h
    rw [← h, UInt32.and_assoc, UInt32.and_not_self, UInt32.and_zero]

/-- The writer sets the one flag that is looked at. -/
theorem headerFlags_eq {c : ClassDef} {flags : UInt32}
    (h : c.sourceFile.isSome = (flags &&& sourceFileFlag != 0)) :
    headerFlags c = flags &&& sourceFileFlag := by
  rw [headerFlags, h, sourceFileFlag]
  rcases and_one_eq flags with h0 | h1
  · simp [h0]
  · simp [h1]

/-- **A class file has one form, but for its marks and flags.** Code that is read is the code that
is written. A class file that is read is as long as the one that is written for its class, and that
one holds the same class; the two are the same just if no flag is set but that of the source file,
and every mark is 0 or 1. -/
theorem ofClass_toClass : (∀ bytes code, toCode bytes = .ok code → ofCode code = bytes) ∧
    ∀ bytes c, toClass bytes = .ok c →
      (ofClass c).length = bytes.length ∧ toClass (ofClass c) = .ok c ∧
        (ofClass c = bytes ↔ fileFlags bytes &&& ~~~sourceFileFlag = 0 ∧
          ∀ mark ∈ fileMarks bytes, mark = 0 ∨ mark = 1) := by
  refine ⟨fun bytes code h => (toCode_accepts h).1.symm, fun bytes c h => ?_⟩
  obtain ⟨flags, rest, position, rfl, hclass⟩ := exists_of_toClass h
  rw [← Reader.fst_markedClass, map_eq_pure_bind] at hclass
  obtain ⟨⟨c, marks⟩, c', hmarked, hclass⟩ := exists_of_run_bind hclass
  cases hclass
  obtain ⟨x, hrest, -, hspells, hwritable, hflag⟩ := Reader.accepts_markedClass flags _ _ _ hmarked
  have hrest : rest = x := by simpa using hrest
  subst hrest
  have hmarks : fileMarks (fileOf flags rest) = marks := by
    rw [fileMarks, fileFlags_fileOf, drop_fileOf, hmarked]
  refine ⟨?_, toClass_payload hwritable, ?_⟩
  · rw [ofClass_eq, length_fileOf, length_fileOf, hspells.length]
  · rw [ofClass_eq, fileOf_eq_iff, fileFlags_fileOf, hmarks, headerFlags_eq hflag,
      and_not_eq_zero_iff, eq_comm (a := payload c), hspells.eq_iff]
    rfl

/-- A class whose file may be written in more than one way. -/
def guarded : ClassDef where
  name := "app/Größe"
  access := .static
  methods := [{
    name := "m"
    desc := "()V"
    access := .static
    code := [.label ⟨0⟩, .const (.str "µ"), .simple .athrow, .label ⟨1⟩, .simple .ret]
    handlers := [⟨⟨0⟩, ⟨1⟩, ⟨1⟩, some "sys/Error"⟩, ⟨⟨0⟩, ⟨1⟩, ⟨1⟩, none⟩] }]

/-- The payload of a file of `guarded`, but with 7 as the mark of its first handler. -/
def lenient : List UInt8 :=
  ofString guarded.name ++ 0 :: ofUInt16 8 ++ ofLength 0 ++ ofLength 0 ++ ofLength 0 ++
    ofLength 1 ++ ofString "m" ++ ofString "()V" ++ ofUInt16 8 ++ ofLength 0 ++ ofUInt16 0 ++
    ofLength 19 ++
    ofCode [.label ⟨0⟩, .const (.str "µ"), .simple .athrow, .label ⟨1⟩, .simple .ret] ++
    ofLength 2 ++ ofUInt32 0 ++ ofUInt32 1 ++ ofUInt32 1 ++ 7 :: ofString "sys/Error" ++
    ofUInt32 0 ++ ofUInt32 1 ++ ofUInt32 1 ++ [0]

theorem eq_ok_of_toOption {ε α : Type} {x : Except ε α} {a : α} (h : x.toOption = some a) :
    x = .ok a := by
  cases x <;> simp_all [Except.toOption]

theorem ofClass_toClass_lenient :
    toCode [6, 2, 0, 0, 0, 194, 181, 112, 1, 0, 0, 0] = .ok [.const (.str "µ"), .jump .goto ⟨1⟩] ∧
    ofCode [.const (.str "µ"), .jump .goto ⟨1⟩] = [6, 2, 0, 0, 0, 194, 181, 112, 1, 0, 0, 0] ∧
    toClass (fileOf 2 lenient) = .ok guarded ∧
    (ofClass guarded).length = (fileOf 2 lenient).length ∧
    toClass (ofClass guarded) = .ok guarded ∧ ofClass guarded ≠ fileOf 2 lenient := by
  have hcode : toCode [6, 2, 0, 0, 0, 194, 181, 112, 1, 0, 0, 0] =
      .ok [.const (.str "µ"), .jump .goto ⟨1⟩] := eq_ok_of_toOption (by decide +kernel)
  have hclass : (Reader.classDef 2).run.run ⟨16, lenient⟩ =
      (.ok guarded, ⟨16 + lenient.length, []⟩) :=
    Prod.ext (eq_ok_of_toOption (by decide +kernel)) (by decide +kernel)
  have hread := toClass_fileOf hclass
  obtain ⟨hlength, hagain, hsame⟩ := ofClass_toClass.2 _ _ hread
  refine ⟨hcode, ofClass_toClass.1 _ _ hcode, hread, hlength, hagain, fun heq => ?_⟩
  have hflags := (hsame.1 heq).1
  rw [fileFlags_fileOf] at hflags
  exact absurd hflags (by decide)

end Binary

end Resumable
