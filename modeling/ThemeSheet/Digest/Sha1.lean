/-
# SHA-1

The digest of a run of bytes, 160 bits long.  The message is padded to blocks of
sixteen words; each block is stretched to eighty words, which are mixed one by one
into five words of state.
-/

import ThemeSheet.Text.Numeral

namespace ThemeSheet
namespace Sha1

/-- The five words of state. -/
structure State where
  a : UInt32
  b : UInt32
  c : UInt32
  d : UInt32
  e : UInt32
deriving DecidableEq, Repr

/-- The state before the first block. -/
def start : State := ⟨0x67452301, 0xEFCDAB89, 0x98BADCFE, 0x10325476, 0xC3D2E1F0⟩

/-- The word with its bits moved round by `n` places to the left. -/
def rotate (n : UInt32) (w : UInt32) : UInt32 := (w <<< n) ||| (w >>> (32 - n))

/-- The bytes of a number, highest first, in `width` places. -/
def bigEndian (width n : Nat) : List UInt8 :=
  (List.range width).reverse.map fun i => UInt8.ofNat (n >>> (8 * i))

/-- The message with a mark behind it, zeros, and its length in bits, a whole number of blocks. -/
def padded (message : List UInt8) : List UInt8 :=
  message ++ 0x80 :: List.replicate ((119 - message.length % 64) % 64) 0 ++ bigEndian 8 (8 * message.length)

/-- The words that bytes form, four to a word. -/
def words : List UInt8 → List UInt32
  | a :: b :: c :: d :: rest =>
    ((a.toUInt32 <<< 24) ||| (b.toUInt32 <<< 16) ||| (c.toUInt32 <<< 8) ||| d.toUInt32) :: words rest
  | _ => []

/-- Adds `n` words to a block; the latest word stands first. -/
def stretch : Nat → List UInt32 → List UInt32
  | 0, ws => ws
  | n + 1, ws =>
    let w i := ws.getD i 0
    stretch n (rotate 1 (w 2 ^^^ w 7 ^^^ w 13 ^^^ w 15) :: ws)

/-- The mixing function and the constant of a step. -/
def stepParts (i : Nat) (s : State) : UInt32 × UInt32 :=
  if i < 20 then ((s.b &&& s.c) ||| (~~~s.b &&& s.d), 0x5A827999)
  else if i < 40 then (s.b ^^^ s.c ^^^ s.d, 0x6ED9EBA1)
  else if i < 60 then ((s.b &&& s.c) ||| (s.b &&& s.d) ||| (s.c &&& s.d), 0x8F1BBCDC)
  else (s.b ^^^ s.c ^^^ s.d, 0xCA62C1D6)

/-- Mixes a word into the state. -/
def step (s : State) (i : Nat) (w : UInt32) : State :=
  let (f, k) := stepParts i s
  ⟨rotate 5 s.a + f + s.e + k + w, s.a, rotate 30 s.b, s.c, s.d⟩

/-- Mixes a block of sixteen words into the state. -/
def block (s : State) (ws : List UInt32) : State :=
  let mixed := (stretch 64 ws.reverse).reverse.zipIdx.foldl (fun t (w, i) => step t i w) s
  ⟨s.a + mixed.a, s.b + mixed.b, s.c + mixed.c, s.d + mixed.d, s.e + mixed.e⟩

/-- Mixes `n` blocks into the state. -/
def blocks : Nat → State → List UInt32 → State
  | 0, s, _ => s
  | n + 1, s, ws => blocks n (block s (ws.take 16)) (ws.drop 16)

/-- The digest of the bytes in hexadecimal digits. -/
def hexDigest (message : List UInt8) : Text :=
  let ws := words (padded message)
  let s := blocks (ws.length / 16) start ws
  [s.a, s.b, s.c, s.d, s.e].flatMap fun w => hexDigits 8 w.toNat

end Sha1
end ThemeSheet
