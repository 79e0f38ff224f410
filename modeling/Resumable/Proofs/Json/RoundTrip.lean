import Resumable.Coroutine.SnapshotJson
import Resumable.Proofs.Json.Decoding

/-!
# What is written as JSON is read back

    ofJson (toJson c) = .ok c

A class without floating-point constants is recovered from its text, whatever its instructions pair
an opcode with (`recovers_classDef`). A snapshot always is, since it keeps floating-point values as
their bits (`recovers_coroutineSnapshot`); its sizes and numbers are those of a machine with words of
64 bits.
-/

namespace Resumable

open Json

/-! ## Instructions -/

theorem recovers_label (l : Label) : Recovers Decoder.label l.toJson l :=
  (recovers_uint32 l.id).map Label.mk

theorem recovers_access (a : Access) : Recovers Decoder.access a.toJson a :=
  (recovers_uint16 a.bits).map Access.mk

theorem recovers_opcode (op : Opcode) : Recovers Decoder.opcode op.toJson op :=
  recovers_bare (by rw [Opcode.ofTag?_tag]; rfl)

theorem SlotKind.ofTag?_tag (k : SlotKind) : ofTag? k.tag = some k := by cases k <;> rfl

theorem recovers_slotKind (k : SlotKind) : Recovers Decoder.slotKind k.toJson k :=
  recovers_bare (by rw [SlotKind.ofTag?_tag]; rfl)

/-- The constant is a floating-point number. -/
def Constant.isFloating : Constant → Bool
  | .float _ | .double _ => true
  | _ => false

theorem recovers_constant {c : Constant} (h : c.isFloating = false) :
    Recovers Decoder.constant c.toJson c := by
  cases c with
  | int v => exact recovers_carrying rfl ((recovers_int32 v).map Constant.int)
  | long v => exact recovers_carrying rfl ((recovers_int64 v).map Constant.long)
  | float bits => cases h
  | double bits => cases h
  | str s => exact recovers_carrying rfl ((recovers_string s).map Constant.str)

theorem recovers_frameOp (f : FrameOp) : Recovers (Decoder.frameOp .listed) f.toJson f := by
  cases f with
  | entry => exact recovers_bare rfl
  | reserve entry slots =>
    have h := recovers_pair (by decide : "entry" ≠ "slots") (recovers_uint32 entry)
      (recovers_uint32 slots)
    exact recovers_carrying rfl (h.map fun p => FrameOp.reserve p.1 p.2)
  | release => exact recovers_bare rfl
  | save kind slot =>
    have h := recovers_pair (by decide : "kind" ≠ "slot") (recovers_slotKind kind)
      (recovers_uint32 slot)
    exact recovers_carrying rfl (h.map fun p => FrameOp.save p.1 p.2)
  | restore kind slot =>
    have h := recovers_pair (by decide : "kind" ≠ "slot") (recovers_slotKind kind)
      (recovers_uint32 slot)
    exact recovers_carrying rfl (h.map fun p => FrameOp.restore p.1 p.2)
  | suspend => exact recovers_bare rfl

theorem recovers_member (op : Opcode) (m : MemberRef) :
    Recovers Decoder.member (m.toJson op) (op, m) := by
  refine Completes.recovers ?_
  refine completes_cons rfl rfl (recovers_opcode op) ?_
  refine completes_cons rfl rfl (recovers_string m.owner) ?_
  refine completes_cons rfl rfl (recovers_string m.name) ?_
  refine completes_cons rfl rfl (recovers_string m.desc) ?_
  exact completes_nil rfl

/-- The instruction pushes no floating-point number. -/
def Instr.isExact : Instr → Bool
  | .const c => !c.isFloating
  | _ => true

theorem recovers_instr {i : Instr} (hi : i.isExact) :
    Recovers (Decoder.instr .listed) i.toJson i := by
  cases i with
  | label l => exact recovers_carrying rfl ((recovers_label l).map Instr.label)
  | simple op => exact recovers_carrying rfl ((recovers_opcode op).map Instr.simple)
  | const c =>
    exact recovers_carrying rfl
      ((recovers_constant (by simpa [Instr.isExact] using hi)).map Instr.const)
  | «local» op index =>
    have h := recovers_pair (by decide : "op" ≠ "index") (recovers_opcode op) (recovers_uint16 index)
    exact recovers_carrying rfl (h.map fun p => Instr.local p.1 p.2)
  | inc index delta =>
    have h := recovers_pair (by decide : "index" ≠ "delta") (recovers_uint16 index)
      (recovers_int32 delta)
    exact recovers_carrying rfl (h.map fun p => Instr.inc p.1 p.2)
  | jump op target =>
    have h := recovers_pair (by decide : "op" ≠ "target") (recovers_opcode op)
      (recovers_label target)
    exact recovers_carrying rfl (h.map fun p => Instr.jump p.1 p.2)
  | switch low default targets =>
    have h : Recovers Decoder.switch (.obj [("low", .int low.toInt), ("default", default.toJson),
        ("targets", .arr (targets.map Label.toJson))]) (low, default, targets) := by
      refine Completes.recovers ?_
      refine completes_cons rfl rfl (recovers_int32 low) ?_
      refine completes_cons rfl rfl (recovers_label default) ?_
      refine completes_cons rfl rfl (.list fun l _ => recovers_label l) ?_
      exact completes_nil rfl
    exact recovers_carrying rfl (h.map fun p => Instr.switch p.1 p.2.1 p.2.2)
  | field op m =>
    exact recovers_carrying rfl ((recovers_member op m).map fun p => Instr.field p.1 p.2)
  | invoke op m =>
    exact recovers_carrying rfl ((recovers_member op m).map fun p => Instr.invoke p.1 p.2)
  | type op desc =>
    have h := recovers_pair (by decide : "op" ≠ "desc") (recovers_opcode op) (recovers_string desc)
    exact recovers_carrying rfl (h.map fun p => Instr.type p.1 p.2)
  | frame f => exact recovers_carrying rfl ((recovers_frameOp f).map Instr.frame)

/-! ## Classes -/

theorem recovers_handler (h : Handler) : Recovers Decoder.handler h.toJson h := by
  refine Completes.recovers ?_
  refine completes_cons rfl rfl (recovers_label h.start) ?_
  refine completes_cons rfl rfl (recovers_label h.stop) ?_
  refine completes_cons rfl rfl (recovers_label h.target) ?_
  refine completes_cons rfl rfl (recovers_option h.catchType) ?_
  exact completes_nil rfl

theorem recovers_field (f : Field) : Recovers Decoder.field f.toJson f := by
  refine Completes.recovers ?_
  refine completes_cons rfl rfl (recovers_string f.name) ?_
  refine completes_cons rfl rfl (recovers_string f.desc) ?_
  refine completes_cons rfl rfl (recovers_access f.access) ?_
  exact completes_nil rfl

theorem recovers_method {m : Method} (h : ∀ i ∈ m.code, i.isExact) :
    Recovers (Decoder.method .listed) m.toJson m := by
  refine Completes.recovers ?_
  refine completes_cons rfl rfl (recovers_string m.name) ?_
  refine completes_cons rfl rfl (recovers_string m.desc) ?_
  refine completes_cons rfl rfl (recovers_access m.access) ?_
  refine completes_cons rfl rfl (recovers_strings m.throws) ?_
  refine completes_cons rfl rfl (recovers_uint16 m.maxLocals) ?_
  refine completes_cons rfl rfl (.list fun i hi => recovers_instr (h i hi)) ?_
  refine completes_cons rfl rfl (.list fun h _ => recovers_handler h) ?_
  exact completes_nil rfl

/-- No method pushes a floating-point number. -/
def ClassDef.IsExact (c : ClassDef) : Prop := ∀ m ∈ c.methods, ∀ i ∈ m.code, i.isExact

instance (c : ClassDef) : Decidable c.IsExact :=
  inferInstanceAs (Decidable (∀ m ∈ c.methods, ∀ i ∈ m.code, i.isExact))

theorem recovers_classDef {c : ClassDef} (h : c.IsExact) :
    Recovers (Decoder.classDef .listed) c.toJson c := by
  refine Completes.recovers ?_
  refine completes_cons rfl rfl (recovers_string c.name) ?_
  refine completes_cons rfl rfl (recovers_option c.superName) ?_
  refine completes_cons rfl rfl (recovers_access c.access) ?_
  refine completes_cons rfl rfl (recovers_strings c.interfaces) ?_
  refine completes_cons rfl rfl (recovers_strings c.markers) ?_
  refine completes_cons rfl rfl (.list fun f _ => recovers_field f) ?_
  refine completes_cons rfl rfl (.list fun m hm => recovers_method (h m hm)) ?_
  refine completes_cons rfl rfl (recovers_option c.sourceFile) ?_
  exact completes_nil rfl

/-! ## Snapshots -/

theorem recovers_flatValue {v : FlatValue} (h : ∀ n ∈ v.reference?, n < 2 ^ 64) :
    Recovers Decoder.flatValue v.toJson v := by
  have hkeys : "value" ≠ "kind" := by decide
  cases v with
  | null => exact recovers_beside_bare rfl
  | int v => exact recovers_beside_carrying hkeys rfl ((recovers_int32 v).map FlatValue.int)
  | long v => exact recovers_beside_carrying hkeys rfl ((recovers_int64 v).map FlatValue.long)
  | float bits => exact recovers_beside_carrying hkeys rfl ((recovers_uint32 bits).map FlatValue.float)
  | double bits =>
    exact recovers_beside_carrying hkeys rfl ((recovers_uint64 bits).map FlatValue.double)
  | str s => exact recovers_beside_carrying hkeys rfl ((recovers_string s).map FlatValue.str)
  | ref index =>
    have hindex := recovers_natural 64 (Nat.le_refl 64) (h index rfl)
    exact recovers_beside_carrying hkeys rfl (hindex.map FlatValue.ref)

theorem depth_flatValue (v : FlatValue) : v.toJson.depth = 1 := by cases v <;> rfl

theorem recovers_flatField {name : String} {v : FlatValue} (h : ∀ n ∈ v.reference?, n < 2 ^ 64) :
    Recovers Decoder.flatField (.arr [.str name, v.toJson]) (name, v) := by
  have hv := recovers_flatValue h
  refine ⟨⟨trivial, hv.whole, trivial⟩, ?_⟩
  simp only [draft, draftItems, Decoder.flatField, Decoder.string, hv.decoded]
  rfl

/-- What stands beside the tag of a cell is nested far less deeply than is allowed. -/
theorem depth_le_room {n : Nat} (h : n ≤ 4) : n ≤ maxNesting - Decoder.snapshotDepth :=
  h.trans (by decide)

theorem recovers_flatCell {c : FlatCell} (h : ∀ v ∈ c.values, ∀ n ∈ v.reference?, n < 2 ^ 64) :
    Recovers Decoder.flatCell c.toJson c := by
  cases c with
  | object type fields =>
    have hfields : Recovers (Decoder.list Decoder.flatField)
        (.arr (fields.map fun field => .arr [.str field.1, field.2.toJson])) fields :=
      .list fun field hfield => recovers_flatField (h field.2 (List.mem_map_of_mem hfield))
    have hdepth : depthItems (fields.map fun field => .arr [.str field.1, field.2.toJson]) ≤ 2 :=
      depthItems_map fun field => by simp [depth, depthItems, depth_flatValue]
    have hpair := recovers_pair (by decide : "class" ≠ "fields") (recovers_string type) hfields
    refine recovers_within rfl (by simp) (depth_le_room ?_)
      (hpair.map fun p => FlatCell.object p.1 p.2)
    simp only [depthMembers, depth]
    omega
  | array items =>
    have hitems : Recovers (Decoder.list Decoder.flatValue) (.arr (items.map FlatValue.toJson))
        items := .list fun v hv => recovers_flatValue (h v hv)
    have hdepth : depthItems (items.map FlatValue.toJson) ≤ 1 :=
      depthItems_map fun v => (depth_flatValue v).le
    have hrecord : Recovers (Decoder.record
        [Decoder.required "items" (Decoder.list Decoder.flatValue) fun _ items => items] [])
        (.obj [("items", .arr (items.map FlatValue.toJson))]) items := by
      refine Completes.recovers ?_
      refine completes_cons rfl rfl hitems ?_
      exact completes_nil rfl
    refine recovers_within rfl (by simp) (depth_le_room ?_) (hrecord.map FlatCell.array)
    simp only [depthMembers, depth]
    omega

theorem recovers_frameMark {f : FrameMark} (h : f.base < 2 ^ 64) :
    Recovers Decoder.frameMark f.toJson f := by
  refine Completes.recovers ?_
  refine completes_cons rfl rfl (recovers_uint32 f.resumeIndex) ?_
  refine completes_cons rfl rfl (recovers_natural 64 (Nat.le_refl 64) h) ?_
  exact completes_nil rfl

theorem recovers_pauseState (p : PauseState) : Recovers Decoder.pauseState (.str p.tag) p := by
  cases p <;> exact recovers_bare rfl

/-- The sizes and numbers in the snapshot are those of a machine with words of 64 bits. -/
structure StackSnapshot.FitsWords (s : StackSnapshot) : Prop where
  top : s.top < 2 ^ 64
  bases : ∀ f ∈ s.frames, f.base < 2 ^ 64
  references : ∀ n ∈ s.references, n < 2 ^ 64

theorem recovers_stackSnapshot {s : StackSnapshot} (h : s.FitsWords) :
    Recovers Decoder.stackSnapshot s.toJson s := by
  have hrefs : ∀ v ∈ s.refs, ∀ n ∈ v.reference?, n < 2 ^ 64 := fun v hv n hn =>
    h.references n (List.mem_filterMap.2 ⟨v, List.mem_append_right _ hv, hn⟩)
  have hheap : ∀ c ∈ s.heap, ∀ v ∈ c.values, ∀ n ∈ v.reference?, n < 2 ^ 64 :=
    fun c hc v hv n hn => h.references n (List.mem_filterMap.2
      ⟨v, List.mem_append_left _ (List.mem_flatMap_of_mem hc hv), hn⟩)
  refine Completes.recovers ?_
  refine completes_cons rfl rfl (.list fun f hf => recovers_frameMark (h.bases f hf)) ?_
  refine completes_cons rfl rfl (recovers_natural 64 (Nat.le_refl 64) h.top) ?_
  refine completes_cons rfl rfl (.list fun n _ => recovers_uint64 n) ?_
  refine completes_cons rfl rfl (.list fun v hv => recovers_flatValue (hrefs v hv)) ?_
  refine completes_cons rfl rfl (.list fun c hc => recovers_flatCell (hheap c hc)) ?_
  exact completes_nil rfl

theorem recovers_coroutineSnapshot {s : CoroutineSnapshot} (h : s.stack.FitsWords) :
    Recovers Decoder.coroutineSnapshot s.toJson s := by
  have hpair := recovers_pair (by decide : "state" ≠ "stack") (recovers_pauseState s.state)
    (recovers_stackSnapshot h)
  exact hpair.map fun p => CoroutineSnapshot.mk p.1 p.2

/-! ## Both texts -/

/-- A class without floating-point constants comes back from its text over indented lines, and a
snapshot from its text on one line. -/
theorem ofJson_toJson :
    (∀ c : ClassDef, c.IsExact → ClassDef.ofJson c.toJson.pretty = .ok c) ∧
    ∀ s : CoroutineSnapshot, s.stack.FitsWords →
      CoroutineSnapshot.ofJson s.toJson.compact = .ok s :=
  ⟨fun _ h => (recovers_classDef h).run_pretty,
    fun _ h => (recovers_coroutineSnapshot h).run_compact⟩

/-- A class with a jump among the field accesses, the largest numbers and a name of escapes. -/
def oddClass : ClassDef where
  name := "a\"b\\c\n\x01é"
  methods := [{
    name := "m", desc := "()V"
    code := [.label ⟨0xffffffff⟩, .field .goto ⟨"", "\t", "/"⟩, .const (.long Int64.minValue),
      .switch Int32.minValue ⟨7⟩ [⟨1⟩, ⟨1⟩]]
    handlers := [⟨⟨3⟩, ⟨2⟩, ⟨1⟩, none⟩] }]

/-- A snapshot with an array that holds itself and floating-point values that are not numbers. -/
def knottedSnapshot : CoroutineSnapshot where
  state := .suspended
  stack := {
    frames := [⟨0xffffffff, 2⟩], top := 2 ^ 64 - 1, prims := [0xffffffffffffffff]
    refs := [.ref 0, .null, .double 0x7ff8000000000001, .str "\x00"]
    heap := [.array [.ref 0, .float 0x7fc00000], .object "C" [("x", .ref (2 ^ 64 - 1))]] }

theorem ofJson_toJson_knotted :
    oddClass.IsExact ∧ ClassDef.ofJson oddClass.toJson.pretty = .ok oddClass ∧
    knottedSnapshot.stack.FitsWords ∧
      CoroutineSnapshot.ofJson knottedSnapshot.toJson.compact = .ok knottedSnapshot := by
  have hclass : oddClass.IsExact := by decide
  have hwords : knottedSnapshot.stack.FitsWords := ⟨by decide, by decide, by decide⟩
  exact ⟨hclass, ofJson_toJson.1 oddClass hclass, hwords, ofJson_toJson.2 knottedSnapshot hwords⟩

end Resumable
