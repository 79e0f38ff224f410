/-!
# Options and notices

What a user may ask of the instrumenter, and what it has to tell. A notice has a level; warnings are
always kept, progress only on request, and detail only for debugging.
-/

namespace Resumable

/-- Switches for checking, instrumenting and reporting. -/
structure Options where
  /-- Accept calls that are known to block. -/
  allowBlocking : Bool := false
  /-- Accept monitors in methods that suspend. -/
  allowMonitors : Bool := false
  /-- Keep notices about progress. -/
  verbose : Bool := false
  /-- Keep all notices. -/
  debug : Bool := false
  /-- Instrument classes that carry the marker already. -/
  force : Bool := false
  deriving DecidableEq, Repr, Inhabited

/-- How important a notice is. -/
inductive Level where
  | debug
  | info
  | warning
  deriving DecidableEq, Repr

namespace Level

def name : Level → String
  | .debug => "debug"
  | .info => "info"
  | .warning => "warning"

/-- Whether notices of the level are kept. -/
def isEnabled (options : Options) : Level → Bool
  | .warning => true
  | .info => options.verbose || options.debug
  | .debug => options.debug

end Level

/-- What the instrumenter has to tell. Methods are named by class, name and descriptor. -/
inductive Notice where
  | readingClass (name : String)
  | classNotFound (name : String)
  | methodNotFound (owner name desc : String)
  | contradiction (owner : String)
  | noAncestor (name : String)
  | found (name : String)
  | foundInstrumented (name : String)
  | skipped (name : String)
  | instrumentingMember (owner name : String)
  | instrumenting (owner name desc : String)
  | suspendableCall (index : Nat) (owner name desc : String)
  | blocking (owner name desc : String) (calleeOwner callee calleeDesc : String)
  | monitors (owner name desc : String)
  | noReceiverBelow (count : Nat) (frame : String)
  | noObjectAt (position : Nat) (frame : String)
  | splitting (start stop before after : String)
  /-- A notice of the embedding program. -/
  | other (text : String)
  deriving DecidableEq, Repr

def Notice.text : Notice → String
  | .readingClass name => s!"Trying to read class: {name}"
  | .classNotFound name => s!"Class not found assuming suspendable: {name}"
  | .methodNotFound owner name desc =>
    s!"Method not found in class - assuming suspendable: {owner}#{name}{desc}"
  | .contradiction owner => s!"Duplicate class entries with different data for class: {owner}"
  | .noAncestor name => s!"Can't determine super class of {name}"
  | .found name => s!"Found class: {name}"
  | .foundInstrumented name => s!"Found instrumented class: {name}"
  | .skipped name => s!"Skipping already instrumented class: {name}"
  | .instrumentingMember owner name => s!"Instrumenting method {owner}#{name}"
  | .instrumenting owner name desc => s!"Instrumenting method {owner}#{name}{desc}"
  | .suspendableCall index owner name desc =>
    s!"Method call at instruction {index} to {owner}#{name}{desc} is suspendable"
  | .blocking owner name desc calleeOwner callee calleeDesc =>
    s!"Method {owner}#{name}{desc} contains potentially blocking call to " ++
      s!"{calleeOwner}#{callee}{calleeDesc}"
  | .monitors owner name desc => s!"Method {owner}#{name}{desc} contains synchronisation"
  | .noReceiverBelow count frame =>
    s!"Expected to find a new object below {count} arguments: {frame}"
  | .noObjectAt position frame =>
    s!"Expected to find a new object on stack index {position}: {frame}"
  | .splitting start stop before after =>
    s!"Splitting handler {start} .. {stop} around {before} .. {after}"
  | .other text => text

end Resumable
