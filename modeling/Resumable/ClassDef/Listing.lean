import Resumable.ClassDef.Basic

/-!
# Listings

A class as text for readers. Every line ends in a line break; a blank line stands in front of each
method.
-/

namespace Resumable

/-- The line for one entry of a handler table. -/
def Handler.listing (h : Handler) : String :=
  let caught := h.catchType.getD "*"
  s!"    try {h.start} .. {h.stop} -> {h.target} catch {caught}"

/-- The lines for one method: labels stand out to the left of the other instructions. -/
def Method.listing (m : Method) : List String :=
  let throwing := if m.throws.isEmpty then "" else " throws " ++ ", ".intercalate m.throws
  let head := s!"  method {m.signature} [{m.access.render}] locals={m.maxLocals}{throwing}"
  let line (i : Instr) := (if i.isLabel then "   " else "      ") ++ i.render
  head :: m.code.map line ++ m.handlers.map Handler.listing

/-- The lines for a class. -/
def ClassDef.listing (c : ClassDef) : List String :=
  let parent := match c.superName with
    | some parent => s!" extends {parent}"
    | none => ""
  let field (f : Field) := s!"  field {f.name}:{f.desc} [{f.access.render}]"
  s!"class {c.name}{parent}" :: c.markers.map ("  @" ++ ·) ++ c.fields.map field ++
    c.methods.flatMap fun m => "" :: m.listing

/-- The lines of a listing in one text. -/
def renderListing (lines : List String) : String :=
  String.join (lines.map (· ++ "\n"))

end Resumable
