/-!
# Numbers and text as bytes

Numbers are written with their least significant byte first, texts as UTF-8 behind their length.
`ofBytes_toBytes` and `toBytes_ofBytes` say that both directions of the number format are inverse.
-/

namespace Resumable.Binary

/-- The `width` least significant bytes of `n`, the lowest first. -/
def toBytes : (width n : Nat) → List UInt8
  | 0, _ => []
  | width + 1, n => UInt8.ofNat n :: toBytes width (n / 256)

/-- The number whose bytes are given, the lowest first. -/
def ofBytes : List UInt8 → Nat
  | [] => 0
  | b :: rest => b.toNat + 256 * ofBytes rest

theorem length_toBytes (width n : Nat) : (toBytes width n).length = width := by
  induction width generalizing n with
  | zero => rfl
  | succ width ih => simp [toBytes, ih]

theorem ofBytes_toBytes (width n : Nat) : ofBytes (toBytes width n) = n % Nat.pow 256 width := by
  induction width generalizing n with
  | zero => simp [toBytes, ofBytes, Nat.mod_one]
  | succ width ih =>
    simp only [toBytes, ofBytes, ih, UInt8.toNat_ofNat']
    rw [show Nat.pow 256 (width + 1) = 256 * Nat.pow 256 width from Nat.pow_succ', Nat.mod_mul]

theorem toBytes_ofBytes (bytes : List UInt8) : toBytes bytes.length (ofBytes bytes) = bytes := by
  induction bytes with
  | nil => rfl
  | cons b rest ih =>
    have h : (b.toNat + 256 * ofBytes rest) / 256 = ofBytes rest := by
      have := b.toNat_lt
      omega
    have hb : UInt8.ofNat (b.toNat + 256 * ofBytes rest) = b := by
      apply UInt8.toNat.inj
      have := b.toNat_lt
      rw [UInt8.toNat_ofNat']
      omega
    simp [toBytes, ofBytes, h, hb, ih]

theorem ofBytes_lt (bytes : List UInt8) : ofBytes bytes < Nat.pow 256 bytes.length := by
  induction bytes with
  | nil => simp [ofBytes]
  | cons b rest ih =>
    have := b.toNat_lt
    have hpow : Nat.pow 256 (rest.length + 1) = 256 * Nat.pow 256 rest.length := Nat.pow_succ'
    simp only [ofBytes, List.length_cons, hpow]
    omega

def ofUInt8 (v : UInt8) : List UInt8 := [v]

def ofUInt16 (v : UInt16) : List UInt8 := toBytes 2 v.toNat

def ofUInt32 (v : UInt32) : List UInt8 := toBytes 4 v.toNat

def ofUInt64 (v : UInt64) : List UInt8 := toBytes 8 v.toNat

def ofInt32 (v : Int32) : List UInt8 := ofUInt32 v.toUInt32

def ofInt64 (v : Int64) : List UInt8 := ofUInt64 v.toUInt64

/-- The length of a list as a 32-bit number. -/
def ofLength (length : Nat) : List UInt8 := toBytes 4 length

/-- The UTF-8 bytes of a text. -/
def utf8 (s : String) : List UInt8 := s.toUTF8.data.toList

/-- A text behind its length in bytes. -/
def ofString (s : String) : List UInt8 := ofLength (utf8 s).length ++ utf8 s

/-- A byte that tells whether a text follows, and the text. -/
def ofString? : Option String → List UInt8
  | none => [0]
  | some s => 1 :: ofString s

/-- Writes `v` over the four bytes from `offset` on. -/
def patch (bytes : List UInt8) (offset : Nat) (v : UInt32) : List UInt8 :=
  bytes.take offset ++ ofUInt32 v ++ bytes.drop (offset + 4)

end Resumable.Binary
