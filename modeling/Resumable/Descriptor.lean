/-!
# Descriptors

A field descriptor names a type: `I`, `Z`, `B`, `C` or `S` for an int, `J` for a long, `F`, `D`, a
class as `L` name `;`, and `[` in front of an element type for an array. A method descriptor lists
the parameter types in parentheses, with the result type or `V` behind them.

`FieldType.read` and `MethodType.read` take a descriptor off the front of a text and return the
rest; `FieldType.parse` and `MethodType.parse` want the whole text.
-/

namespace Resumable

/-- The type of a field, parameter or result. -/
inductive FieldType where
  | int
  | long
  | float
  | double
  | object (name : String)
  | array (element : FieldType)
  deriving DecidableEq, Repr, Inhabited

/-- Why a text is no descriptor. -/
inductive DescriptorError where
  /-- The text ends inside a type. -/
  | unexpectedEnd (desc : String)
  /-- No type starts with the character `ch`, which stands `offset` bytes into the text. -/
  | invalidChar (desc : String) (ch : Char) (offset : Nat)
  /-- A method descriptor does not start with a parenthesis, or a class has no name. -/
  | malformed (desc : String)
  /-- Text is left over. -/
  | trailing (desc : String)
  deriving DecidableEq, Repr

def DescriptorError.message : DescriptorError → String
  | .unexpectedEnd desc => s!"Unexpected end of descriptor '{desc}'"
  | .invalidChar desc ch offset =>
    s!"Invalid type character '{ch}' at offset {offset} in '{desc}'"
  | .malformed desc => s!"Malformed method descriptor '{desc}'"
  | .trailing desc => s!"Trailing characters in descriptor '{desc}'"

/-- Where reading stopped, before the whole text is known. -/
inductive DescriptorStop where
  | ended
  | invalid (ch : Char) (rest : List Char)
  | malformed

/-- The error for a stop inside `desc`: an offset is what lies in front of the rest. -/
def DescriptorStop.inside (stop : DescriptorStop) (desc : String) : DescriptorError :=
  match stop with
  | .ended => .unexpectedEnd desc
  | .invalid ch rest =>
    .invalidChar desc ch (desc.utf8ByteSize - (String.ofList rest).utf8ByteSize)
  | .malformed => .malformed desc

namespace FieldType

/-- Takes one type off the front of a text. -/
def read : List Char → Except DescriptorStop (FieldType × List Char)
  | [] => .error .ended
  | '[' :: rest =>
    match read rest with
    | .ok (element, rest) => .ok (.array element, rest)
    | .error stop => .error stop
  | 'L' :: rest =>
    match rest.dropWhile (· != ';') with
    | [] => .error .ended
    | _ :: after =>
      match rest.takeWhile (· != ';') with
      | [] => .error .malformed
      | name => .ok (.object (String.ofList name), after)
  | c :: rest =>
    match c with
    | 'I' | 'Z' | 'B' | 'C' | 'S' => .ok (.int, rest)
    | 'J' => .ok (.long, rest)
    | 'F' => .ok (.float, rest)
    | 'D' => .ok (.double, rest)
    | _ => .error (.invalid c (c :: rest))

/-- The type that is named by the whole of `desc`. -/
def parse (desc : String) : Except DescriptorError FieldType :=
  match read desc.toList with
  | .ok (type, []) => .ok type
  | .ok (_, _ :: _) => .error (.trailing desc)
  | .error stop => .error (stop.inside desc)

/-- The descriptor of a type. -/
def descriptor : FieldType → String
  | .int => "I"
  | .long => "J"
  | .float => "F"
  | .double => "D"
  | .object name => "L" ++ name ++ ";"
  | .array element => "[" ++ element.descriptor

def isReference : FieldType → Bool
  | .object _ | .array _ => true
  | _ => false

/-- The name under which the analysis knows the type: a class by its plain name, anything else by
its descriptor. -/
def internalName : FieldType → String
  | .object name => name
  | type => type.descriptor

/-- Reading a type uses up at least one character. -/
theorem length_lt_of_read {cs rest : List Char} {type : FieldType}
    (h : read cs = .ok (type, rest)) : rest.length < cs.length := by
  fun_induction read cs generalizing type rest with
  | case2 cs element rest' hread ih =>
    simp only [Except.ok.injEq, Prod.mk.injEq] at h
    have := ih hread
    obtain ⟨-, rfl⟩ := h
    simp only [List.length_cons]
    omega
  | case6 cs c after hdrop hname =>
    simp only [Except.ok.injEq, Prod.mk.injEq] at h
    obtain ⟨-, rfl⟩ := h
    have := (List.dropWhile_sublist (l := cs) (· != ';')).length_le
    rw [hdrop] at this
    simp only [List.length_cons] at this ⊢
    omega
  | _ => simp_all

end FieldType

/-- The types of a method's parameters and of its result, none for `V`. -/
structure MethodType where
  params : List FieldType
  result : Option FieldType
  deriving DecidableEq, Repr, Inhabited

namespace MethodType

/-- Takes parameter types up to the closing parenthesis. -/
def readParams (cs : List Char) : Except DescriptorStop (List FieldType × List Char) :=
  match cs with
  | [] => .error .ended
  | ')' :: rest => .ok ([], rest)
  | c :: rest =>
    match _read : FieldType.read (c :: rest) with
    | .error stop => .error stop
    | .ok (type, rest') =>
      match readParams rest' with
      | .error stop => .error stop
      | .ok (types, after) => .ok (type :: types, after)
termination_by cs.length
decreasing_by exact FieldType.length_lt_of_read _read

/-- Takes a result type. -/
def readResult : List Char → Except DescriptorStop (Option FieldType × List Char)
  | [] => .error .ended
  | 'V' :: rest => .ok (none, rest)
  | cs =>
    match FieldType.read cs with
    | .error stop => .error stop
    | .ok (type, rest) => .ok (some type, rest)

/-- Takes a method descriptor off the front of a text. -/
def read : List Char → Except DescriptorStop (MethodType × List Char)
  | '(' :: rest => do
    let (params, rest) ← readParams rest
    let (result, rest) ← readResult rest
    return (⟨params, result⟩, rest)
  | _ => .error .malformed

/-- The method type that is described by the whole of `desc`. -/
def parse (desc : String) : Except DescriptorError MethodType :=
  match read desc.toList with
  | .ok (type, []) => .ok type
  | .ok (_, _ :: _) => .error (.trailing desc)
  | .error stop => .error (stop.inside desc)

/-- The descriptor of a method type. -/
def descriptor (type : MethodType) : String :=
  "(" ++ String.join (type.params.map FieldType.descriptor) ++ ")" ++
    match type.result with
    | some result => result.descriptor
    | none => "V"

/-- How many arguments a call takes, the receiver apart. -/
def arity (type : MethodType) : Nat := type.params.length

end MethodType

end Resumable
