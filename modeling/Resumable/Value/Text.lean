import Resumable.Value.Basic

/-!
# The text of a value

`Heap.display` is what a program prints: an object shows its class and its message, an array only
its length. `Heap.describe` is what a report shows, with the kind of the value in front.
-/

namespace Resumable.Heap

/-- The text of a value for the user of a program. -/
def display (h : Heap) : Value → String
  | .null => "null"
  | .int v => toString v.toInt
  | .long v => toString v.toInt
  | .float bits => Decimal.renderSingle .plain bits
  | .double bits => Decimal.renderDouble .plain bits
  | .str s => s
  | .object id =>
    let type := (h.object id).type
    match h.getField? id "message" with
    | some (.str message) => s!"{type}: {message}"
    | _ => type
  | .array id => s!"[array; {(h.items id).size}]"

/-- The text of a value for a reader of reports. -/
def describe (h : Heap) : Value → String
  | .null => "Value::Null"
  | .str s => s!"Value::Str({Text.quoted s})"
  | .object id => s!"Value::Object({(h.object id).type})"
  | .array id => s!"Value::Array(len={(h.items id).size})"
  | v => s!"Value::{v.kind.tag}({h.display v})"

end Resumable.Heap
