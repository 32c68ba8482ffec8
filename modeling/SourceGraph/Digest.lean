/-!
# Digests

The SHA-256 digest of some bytes, written in hexadecimal. A message is padded to blocks of 64 bytes,
and each block changes a state of eight words.

* `Digest.compress`: the state after a block.
* `Digest.sha256`: the digest of some bytes.
-/

set_option autoImplicit false

namespace SourceGraph.Digest

/-- The constants of the 64 rounds. -/
def roundConstants : Array UInt32 :=
  #[0x428a2f98, 0x71374491, 0xb5c0fbcf, 0xe9b5dba5, 0x3956c25b, 0x59f111f1, 0x923f82a4, 0xab1c5ed5,
    0xd807aa98, 0x12835b01, 0x243185be, 0x550c7dc3, 0x72be5d74, 0x80deb1fe, 0x9bdc06a7, 0xc19bf174,
    0xe49b69c1, 0xefbe4786, 0x0fc19dc6, 0x240ca1cc, 0x2de92c6f, 0x4a7484aa, 0x5cb0a9dc, 0x76f988da,
    0x983e5152, 0xa831c66d, 0xb00327c8, 0xbf597fc7, 0xc6e00bf3, 0xd5a79147, 0x06ca6351, 0x14292967,
    0x27b70a85, 0x2e1b2138, 0x4d2c6dfc, 0x53380d13, 0x650a7354, 0x766a0abb, 0x81c2c92e, 0x92722c85,
    0xa2bfe8a1, 0xa81a664b, 0xc24b8b70, 0xc76c51a3, 0xd192e819, 0xd6990624, 0xf40e3585, 0x106aa070,
    0x19a4c116, 0x1e376c08, 0x2748774c, 0x34b0bcb5, 0x391c0cb3, 0x4ed8aa4a, 0x5b9cca4f, 0x682e6ff3,
    0x748f82ee, 0x78a5636f, 0x84c87814, 0x8cc70208, 0x90befffa, 0xa4506ceb, 0xbef9a3f7, 0xc67178f2]

/-- The eight words of a state. -/
structure State where
  (a b c d e f g h : UInt32)

/-- The state before the first block. -/
def State.initial : State :=
  ⟨0x6a09e667, 0xbb67ae85, 0x3c6ef372, 0xa54ff53a, 0x510e527f, 0x9b05688c, 0x1f83d9ab, 0x5be0cd19⟩

/-- A word turned to the right by `n` bits. -/
def rotate (x : UInt32) (n : UInt32) : UInt32 := (x >>> n) ||| (x <<< (32 - n))

/-- The word of four bytes, the first one highest. -/
def wordAt (m : ByteArray) (i : Nat) : UInt32 :=
  (m.get! i).toUInt32 <<< 24 ||| (m.get! (i + 1)).toUInt32 <<< 16 |||
    (m.get! (i + 2)).toUInt32 <<< 8 ||| (m.get! (i + 3)).toUInt32

/-- The next word of a schedule that has at least 16 words. -/
def nextWord (w : Array UInt32) : UInt32 :=
  let x := w[w.size - 15]!
  let y := w[w.size - 2]!
  let s := rotate x 7 ^^^ rotate x 18 ^^^ (x >>> 3)
  let t := rotate y 17 ^^^ rotate y 19 ^^^ (y >>> 10)
  w[w.size - 16]! + s + w[w.size - 7]! + t

/-- The 64 words that the block at a byte offset gives. -/
def schedule (m : ByteArray) (start : Nat) : Array UInt32 :=
  let first := (Array.range 16).map fun i => wordAt m (start + 4 * i)
  (List.range 48).foldl (fun w _ => w.push (nextWord w)) first

/-- One round. -/
def round (s : State) (k w : UInt32) : State :=
  let big := rotate s.e 6 ^^^ rotate s.e 11 ^^^ rotate s.e 25
  let choice := (s.e &&& s.f) ^^^ (~~~s.e &&& s.g)
  let t := s.h + big + choice + k + w
  let small := rotate s.a 2 ^^^ rotate s.a 13 ^^^ rotate s.a 22
  let majority := (s.a &&& s.b) ^^^ (s.a &&& s.c) ^^^ (s.b &&& s.c)
  ⟨t + (small + majority), s.a, s.b, s.c, s.d + t, s.e, s.f, s.g⟩

/-- The state after the block at a byte offset. -/
def compress (m : ByteArray) (s : State) (start : Nat) : State :=
  let w := schedule m start
  let t := (List.range 64).foldl (fun t i => round t roundConstants[i]! w[i]!) s
  ⟨s.a + t.a, s.b + t.b, s.c + t.c, s.d + t.d, s.e + t.e, s.f + t.f, s.g + t.g, s.h + t.h⟩

/-- A message with a mark, zeros and its length in bits, so that it fills whole blocks. -/
def pad (m : ByteArray) : ByteArray :=
  let zeros := (119 - m.size % 64) % 64
  let marked := (List.replicate zeros (0 : UInt8)).foldl ByteArray.push (m.push 0x80)
  let bits := m.size * 8
  (List.range 8).foldl (fun acc i => acc.push (bits >>> (8 * (7 - i))).toUInt8) marked

/-- The words of a state, from the first on. -/
def State.words (s : State) : List UInt32 := [s.a, s.b, s.c, s.d, s.e, s.f, s.g, s.h]

/-- The `n` lowest hexadecimal digits of a number. -/
def hexDigits (n v : Nat) : List Char :=
  (List.range n).map fun i =>
    let d := (v >>> (4 * (n - 1 - i))) % 16
    Char.ofNat (if d < 10 then 48 + d else 87 + d)

/-- The SHA-256 digest in hexadecimal. -/
def sha256 (m : ByteArray) : String :=
  let padded := pad m
  let s := (List.range (padded.size / 64)).foldl (fun s i => compress padded s (64 * i)) .initial
  String.ofList (s.words.flatMap fun w => hexDigits 8 w.toNat)

end SourceGraph.Digest
