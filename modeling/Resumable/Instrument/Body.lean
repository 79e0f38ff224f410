import Resumable.Instrument.Plan

/-!
# Re-entrant bodies

A method with suspension points is transformed so that it can be left at each of them and entered
again later:

    frame.entry
    tableswitch 1 default Lstart [Lresume₁ … Lresumeₙ]
    Lstart:        the code in front of the first point
    Lbefore₁:      frame.reserve 1, save operands and locals; for a suspend call: frame.suspend
    Lresume₁:      restore locals and operands
    Lafter₁:       the code from the call on, or behind a suspend call, up to the next point
    …
    Lend:
    LcatchAll:     frame.release
    LcatchSignal:  athrow

Returns release the frame first. The signal passes through untouched: its handler comes before
those of the method, while the handler for everything else comes last and releases the frame. The
method's own handlers are cut around each stretch from `Lbefore` to `Lafter`.
-/

namespace Resumable

/-- The labels that a transformed body adds. All are above the labels of the method. -/
structure BodyLabels where
  start : Label
  stop : Label
  catchSignal : Label
  catchAll : Label
  resume : List Label
  before : List Label
  after : List Label
  deriving Repr

/-- `count` labels with numbers from `first` on. -/
def labelsFrom (first : UInt32) (count : Nat) : List Label :=
  (List.range count).map fun k => ⟨first + UInt32.ofNat k⟩

/-- The labels for `count` suspension points in a method. -/
def BodyLabels.forMethod (m : Method) (count : Nat) : BodyLabels :=
  let first := match m.maxLabel? with
    | some label => label + 1
    | none => 0
  let n := UInt32.ofNat count
  { start := ⟨first⟩, stop := ⟨first + 1⟩, catchSignal := ⟨first + 2⟩, catchAll := ⟨first + 3⟩
    resume := labelsFrom (first + 4) count
    before := labelsFrom (first + 4 + n) count
    after := labelsFrom (first + 4 + n + n) count }

namespace SuspensionPoint

/-- Saves operands, the top first, and then locals. -/
def saveCode (p : SuspensionPoint) (entry : UInt32) : List Instr :=
  let operand : SlotAction → List Instr
    | .saved kind slot => [.frame (.save kind slot)]
    | .null => [.simple .pop]
    | .omitted => []
  let saveLocal : UInt16 × SlotAction → List Instr
    | (index, .saved kind slot) => [.local kind.loadOpcode index, .frame (.save kind slot)]
    | _ => []
  .frame (.reserve entry p.slots) ::
    (p.stack.reverse.flatMap operand ++ p.locals.flatMap saveLocal)

/-- Restores locals and then operands, from the bottom up. -/
def restoreCode (p : SuspensionPoint) : List Instr :=
  let restoreLocal : UInt16 × SlotAction → List Instr
    | (index, .saved kind slot) => [.frame (.restore kind slot), .local kind.storeOpcode index]
    | (index, .null) => [.simple .aconstNull, .local .astore index]
    | (_, .omitted) => []
  let operand : SlotAction → List Instr
    | .saved kind slot => [.frame (.restore kind slot)]
    | .null => [.simple .aconstNull]
    | .omitted => []
  p.locals.flatMap restoreLocal ++ p.stack.flatMap operand

/-- The code from the label in front of a point up to the one behind it. -/
def stretch (p : SuspensionPoint) (entry : UInt32) (before resume after : Label) : List Instr :=
  .label before :: p.saveCode entry ++ (if p.isYield then [.frame .suspend] else []) ++
    .label resume :: p.restoreCode ++ [.label after]

end SuspensionPoint

namespace Analysed

/-- What writing a body keeps account of: locals added, and whether monitors were warned of. -/
structure Account where
  extraLocals : Nat := 0
  warnedMonitors : Bool := false

/-- Writing a body may ask, may fail and keeps an account. -/
abbrev Writing := ExceptT InstrumentError (StateT Account Inquiry)

def notice (level : Level) (n : Notice) : Writing Unit :=
  (Inquiry.log level n : Inquiry Unit)

/-- The code that sets arguments aside, allocates the object twice and takes the arguments back.
`kinds` are those of the arguments in order, `base` is the first local to use. -/
def allocationCode (type : String) (base : UInt16) (kinds : List SlotKind) : List Instr :=
  let temps := kinds.zipIdx.map fun (kind, k) => (kind, base + UInt16.ofNat k)
  temps.reverse.map (fun (kind, index) => .local kind.storeOpcode index) ++
    [.type .new type, .simple .dup] ++
    temps.map fun (kind, index) => .local kind.loadOpcode index

/-- The allocation that has been put off to the constructor call at `index`, if one has. The object
and its duplicate lie below the arguments. -/
def deferredAllocation (a : Analysed) (omitted : List Nat) (index : Nat) (desc : String) :
    Writing (List Instr) := do
  match a.frame? index with
  | none => return []
  | some f =>
    let argc ← match MethodType.parse desc with
      | .ok type => pure type.arity
      | .error cause => throw (.descriptor cause)
    match f.stack.drop argc with
    | receiver :: below :: _ =>
      match below, receiver with
      | .fresh type _ allocInsn false, .fresh _ _ dupInsn true =>
        if !(omitted.contains allocInsn || omitted.contains dupInsn) then return []
        if 0x10000 < a.method.maxLocals.toNat + argc ∨ 0xFFFF < argc then
          throw (a.unable .tooManyLocals)
        let kinds := (f.stack.take argc).reverse.map fun v => v.slotKind?.getD .ref
        modify fun account => { account with extraLocals := max account.extraLocals argc }
        return allocationCode type a.method.maxLocals kinds
      | _, _ =>
        notice .warning (.noObjectAt (f.stack.length - argc - 1) f.render)
        return []
    | _ =>
      notice .warning (.noReceiverBelow argc f.render)
      return []

/-- What goes in front of the instruction at `index`. -/
def leadIn (a : Analysed) (omitted : List Nat) (index : Nat) (i : Instr) :
    Writing (List Instr) := do
  match i with
  | .simple op =>
    if op.isReturn then return [.frame .release]
    else if op = .monitorenter ∨ op = .monitorexit then
      if !(← getThe Database).options.allowMonitors then throw (a.unable .synchronisation)
      if !(← getThe Account).warnedMonitors then
        modify fun account => { account with warnedMonitors := true }
        notice .warning (.monitors a.owner a.method.name a.method.desc)
      return []
    else return []
  | .invoke .invokespecial callee =>
    if callee.name = Names.constructor then a.deferredAllocation omitted index callee.desc
    else return []
  | _ => return []

/-- Some instructions of the method with what goes in front of each; those left out are left out. -/
def segment (a : Analysed) (omitted : List Nat) : List (Instr × Nat) → Writing (List Instr)
  | [] => return []
  | (i, index) :: rest => do
    if omitted.contains index then a.segment omitted rest
    else
      let front ← a.leadIn omitted index i
      return front ++ i :: (← a.segment omitted rest)

/-- The instructions from `start` on and in front of `stop`, with their indices. -/
def slice (a : Analysed) (start stop : Nat) : List (Instr × Nat) :=
  (a.method.code.zipIdx.take stop).drop start

/-- The code from each suspension point up to the next one, the first of which is number `entry`. -/
def pointsCode (a : Analysed) (omitted : List Nat) : (entry : Nat) → List SuspensionPoint →
    (resume before after : List Label) → Writing (List Instr)
  | entry, p :: rest, resume :: resumes, before :: befores, after :: afters => do
    let stop := match rest with
      | next :: _ => next.index
      | [] => a.method.code.length
    let start := p.index + if p.isYield then 1 else 0
    let tail ← a.segment omitted (a.slice start stop)
    let more ← a.pointsCode omitted (entry + 1) rest resumes befores afters
    return p.stretch (UInt32.ofNat entry) before resume after ++ tail ++ more
  | _, _, _, _, _ => return []

/-! ### Handlers -/

/-- Cuts a range in two if the stretch from `before` to `after` lies inside it. -/
def cutRange (a : Analysed) (code : List Instr) (before after : Label) (range : Label × Label) :
    Writing (List (Label × Label)) := do
  let position (l : Label) : Writing Nat :=
    match labelPosition? code l with
    | some position => return position
    | none => throw (Flow.failure a.owner a.method 0 (.undefinedLabel l))
  let first ← position before
  let last ← position after
  let (start, stop) := range
  if (← position start) < first then
    if last < (← position stop) then
      notice .debug
        (.splitting (toString start) (toString stop) (toString before) (toString after))
      return [(start, before), (after, stop)]
  return [range]

/-- Cuts ranges around each stretch in turn. -/
def cutRanges (a : Analysed) (code : List Instr) :
    List (Label × Label) → List (Label × Label) → Writing (List (Label × Label))
  | [], ranges => return ranges
  | (before, after) :: stretches, ranges => do
    let pieces ← ranges.mapM (a.cutRange code before after)
    a.cutRanges code stretches pieces.flatten

/-- The handlers of the method, cut around every stretch. -/
def cutHandlers (a : Analysed) (code : List Instr) (labels : BodyLabels) :
    Writing (List Handler) := do
  let pieces ← a.method.handlers.mapM fun h => do
    let ranges ← a.cutRanges code (labels.before.zip labels.after) [(h.start, h.stop)]
    return ranges.map fun (start, stop) => { h with start, stop }
  return pieces.flatten

/-! ### The whole method -/

/-- The method transformed for at least one suspension point. -/
def transformed (a : Analysed) (plan : MethodPlan) (first : SuspensionPoint) : Writing Method := do
  let m := a.method
  notice .info (.instrumenting a.owner m.name m.desc)
  if m.handlers.any (·.catchType == some Names.suspendExecution) then
    throw (a.unable .catchesSignal)
  let labels := BodyLabels.forMethod m plan.points.length
  let front ← a.segment plan.omitted (a.slice 0 first.index)
  let points ← a.pointsCode plan.omitted 1 plan.points labels.resume labels.before labels.after
  let code :=
    [.frame .entry, .switch 1 labels.start labels.resume, .label labels.start] ++ front ++ points ++
      [.label labels.stop, .label labels.catchAll, .frame .release, .label labels.catchSignal,
        .simple .athrow]
  let cut ← a.cutHandlers code labels
  let signal : Handler :=
    ⟨labels.start, labels.stop, labels.catchSignal, some Names.suspendExecution⟩
  let rest : Handler := ⟨labels.start, labels.stop, labels.catchAll, none⟩
  let maxLocals := m.maxLocals.toNat + (← getThe Account).extraLocals
  if 0xFFFF < maxLocals then throw (a.unable .tooManyLocals)
  return { m with maxLocals := UInt16.ofNat maxLocals, code, handlers := signal :: cut ++ [rest] }

/-- The re-entrant form of the method: itself if it never suspends. -/
def body (a : Analysed) (plan : MethodPlan) : Flow.Attempt Method := do
  match plan.points with
  | [] => return a.method
  | first :: _ =>
    let (outcome, _) ← ((a.transformed plan first).run.run {} : Inquiry _)
    match outcome with
    | .ok m => return m
    | .error e => throw e

end Analysed

/-- The re-entrant form of a method of a class. -/
def instrumentMethod (owner : String) (m : Method) : Flow.Attempt Method := do
  let a ← Analysed.of owner m
  let (plan, outcome) ← (a.plan : Inquiry _)
  match outcome with
  | .error e => throw e
  | .ok () => a.body plan

end Resumable
