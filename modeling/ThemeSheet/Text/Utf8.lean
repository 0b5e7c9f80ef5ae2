/-
# UTF-8

`encode` writes a text as bytes.  `units` reads bytes: each well-formed piece gives
its character, each longest beginning of a well-formed piece that breaks off, and
each byte that begins none, gives an empty unit.  A strict reading refuses empty
units; a lenient one puts the replacement character in their place.
-/

import ThemeSheet.Text.Basic

namespace ThemeSheet
namespace Utf8

/-- A continuation byte with six bits of a code point. -/
def tailByte (n : Nat) : UInt8 := UInt8.ofNat (0x80 + n % 64)

/-- The bytes of a character. -/
def encodeChar (c : Char) : List UInt8 :=
  let n := c.toNat
  if n < 0x80 then [UInt8.ofNat n]
  else if n < 0x800 then [UInt8.ofNat (0xC0 + n / 64), tailByte n]
  else if n < 0x10000 then [UInt8.ofNat (0xE0 + n / 4096), tailByte (n / 64), tailByte n]
  else [UInt8.ofNat (0xF0 + n / 262144), tailByte (n / 4096), tailByte (n / 64), tailByte n]

/-- The bytes of a text. -/
def encode (t : Text) : List UInt8 := t.flatMap encodeChar

/-- What a first byte announces. -/
structure Lead where
  /-- How many bytes follow. -/
  more : Nat
  /-- The bounds of the next byte; the others lie between `0x80` and `0xBF`. -/
  low : Nat
  high : Nat
  /-- The bits of the code point in the first byte. -/
  bits : Nat

/-- What the byte announces, if a piece can begin with it. -/
def lead? (n : Nat) : Option Lead :=
  if n < 0x80 then some ⟨0, 0x80, 0xBF, n⟩
  else if n < 0xC2 then none
  else if n < 0xE0 then some ⟨1, 0x80, 0xBF, n - 0xC0⟩
  else if n = 0xE0 then some ⟨2, 0xA0, 0xBF, 0⟩
  else if n = 0xED then some ⟨2, 0x80, 0x9F, 0xD⟩
  else if n < 0xF0 then some ⟨2, 0x80, 0xBF, n - 0xE0⟩
  else if n = 0xF0 then some ⟨3, 0x90, 0xBF, 0⟩
  else if n < 0xF4 then some ⟨3, 0x80, 0xBF, n - 0xF0⟩
  else if n = 0xF4 then some ⟨3, 0x80, 0x8F, 4⟩
  else none

/-- Reads `more` further bytes, the first of them between `low` and `high`. -/
def tail (more low high bits : Nat) (bytes : List UInt8) : Option Nat × List UInt8 :=
  match more, bytes with
  | 0, bytes => (some bits, bytes)
  | _ + 1, [] => (none, [])
  | more + 1, b :: bytes =>
    if low ≤ b.toNat ∧ b.toNat ≤ high then tail more 0x80 0xBF (64 * bits + b.toNat % 64) bytes
    else (none, b :: bytes)

/-- Following bytes leave no more than the bytes they were read from. -/
theorem tail_length (more low high bits : Nat) (bytes : List UInt8) :
    (tail more low high bits bytes).2.length ≤ bytes.length := by
  fun_induction tail more low high bits bytes with
  | case1 => simp
  | case2 => simp
  | case3 => simp; omega
  | case4 => simp

/-- The units of a run of bytes; an empty one stands for bytes that are not well-formed. -/
def units : List UInt8 → List (Option Char)
  | [] => []
  | b :: bytes =>
    match lead? b.toNat with
    | none => none :: units bytes
    | some l =>
      let r := tail l.more l.low l.high l.bits bytes
      r.1.map Char.ofNat :: units r.2
termination_by bytes => bytes.length
decreasing_by
  · simp
  · have := tail_length l.more l.low l.high l.bits bytes; simp; omega

/-- The text that the bytes write, if they are well-formed. -/
def decode? (bytes : List UInt8) : Option Text := (units bytes).mapM id

/-- The text that the bytes write, with the replacement character for what is not well-formed. -/
def decodeLenient (bytes : List UInt8) : Text := (units bytes).map (·.getD '\uFFFD')

end Utf8

namespace Text

/-- Line ends of every kind become line feeds. -/
def unixLines : Text → Text
  | [] => []
  | '\r' :: '\n' :: t => '\n' :: unixLines t
  | c :: t => (if c = '\r' then '\n' else c) :: unixLines t

end Text
end ThemeSheet
