import FactGraph.Digest
import FactGraph.Word

/-!
# SHA-256

The hash function that makes digests. The message is padded to whole blocks of 64 bytes, and every
block takes the chaining state of eight words through 64 rounds. The schedule of a block is kept as
a window of sixteen words that moves along by one word a round.
-/

namespace FactGraph

namespace Sha256

/-- The chaining state. -/
structure State where
  (a b c d e f g h : UInt32)

/-- The next sixteen words of the schedule. -/
structure Window where
  (w0 w1 w2 w3 w4 w5 w6 w7 w8 w9 w10 w11 w12 w13 w14 w15 : UInt32)

/-- A word turned to the right. -/
def rotateRight (x : UInt32) (n : UInt32) : UInt32 := (x >>> n) ||| (x <<< (32 - n))

/-- The state before the first block. -/
def initial : State :=
  ⟨0x6a09e667, 0xbb67ae85, 0x3c6ef372, 0xa54ff53a, 0x510e527f, 0x9b05688c, 0x1f83d9ab, 0x5be0cd19⟩

/-- The constants of the 64 rounds. -/
def constants : List UInt32 :=
  [0x428a2f98, 0x71374491, 0xb5c0fbcf, 0xe9b5dba5, 0x3956c25b, 0x59f111f1, 0x923f82a4, 0xab1c5ed5,
   0xd807aa98, 0x12835b01, 0x243185be, 0x550c7dc3, 0x72be5d74, 0x80deb1fe, 0x9bdc06a7, 0xc19bf174,
   0xe49b69c1, 0xefbe4786, 0x0fc19dc6, 0x240ca1cc, 0x2de92c6f, 0x4a7484aa, 0x5cb0a9dc, 0x76f988da,
   0x983e5152, 0xa831c66d, 0xb00327c8, 0xbf597fc7, 0xc6e00bf3, 0xd5a79147, 0x06ca6351, 0x14292967,
   0x27b70a85, 0x2e1b2138, 0x4d2c6dfc, 0x53380d13, 0x650a7354, 0x766a0abb, 0x81c2c92e, 0x92722c85,
   0xa2bfe8a1, 0xa81a664b, 0xc24b8b70, 0xc76c51a3, 0xd192e819, 0xd6990624, 0xf40e3585, 0x106aa070,
   0x19a4c116, 0x1e376c08, 0x2748774c, 0x34b0bcb5, 0x391c0cb3, 0x4ed8aa4a, 0x5b9cca4f, 0x682e6ff3,
   0x748f82ee, 0x78a5636f, 0x84c87814, 0x8cc70208, 0x90befffa, 0xa4506ceb, 0xbef9a3f7, 0xc67178f2]

/-- One round. -/
def round (s : State) (constant word : UInt32) : State :=
  let sum1 := rotateRight s.e 6 ^^^ rotateRight s.e 11 ^^^ rotateRight s.e 25
  let choice := (s.e &&& s.f) ^^^ (~~~s.e &&& s.g)
  let t1 := s.h + sum1 + choice + constant + word
  let sum0 := rotateRight s.a 2 ^^^ rotateRight s.a 13 ^^^ rotateRight s.a 22
  let majority := (s.a &&& s.b) ^^^ (s.a &&& s.c) ^^^ (s.b &&& s.c)
  ⟨t1 + (sum0 + majority), s.a, s.b, s.c, s.d + t1, s.e, s.f, s.g⟩

/-- The window one word further. -/
def Window.next (w : Window) : Window :=
  let s0 := rotateRight w.w1 7 ^^^ rotateRight w.w1 18 ^^^ (w.w1 >>> 3)
  let s1 := rotateRight w.w14 17 ^^^ rotateRight w.w14 19 ^^^ (w.w14 >>> 10)
  ⟨w.w1, w.w2, w.w3, w.w4, w.w5, w.w6, w.w7, w.w8, w.w9, w.w10, w.w11, w.w12, w.w13, w.w14, w.w15,
    w.w0 + s0 + w.w9 + s1⟩

/-- The rounds with the given constants. -/
def rounds : List UInt32 → Window → State → State
  | [], _, s => s
  | constant :: rest, w, s => rounds rest w.next (round s constant w.w0)

/-- The word at the front of a text. -/
def word : Text → UInt32
  | a :: b :: c :: d :: _ =>
    a.toUInt32 <<< 24 ||| b.toUInt32 <<< 16 ||| c.toUInt32 <<< 8 ||| d.toUInt32
  | _ => 0

/-- The sixteen words of the block at the front of a text. -/
def Window.ofBlock (t : Text) : Window :=
  ⟨word t, word (t.drop 4), word (t.drop 8), word (t.drop 12), word (t.drop 16), word (t.drop 20),
    word (t.drop 24), word (t.drop 28), word (t.drop 32), word (t.drop 36), word (t.drop 40),
    word (t.drop 44), word (t.drop 48), word (t.drop 52), word (t.drop 56), word (t.drop 60)⟩

/-- The state after the block at the front of a text. -/
def compress (s : State) (text : Text) : State :=
  let t := rounds constants (Window.ofBlock text) s
  ⟨s.a + t.a, s.b + t.b, s.c + t.c, s.d + t.d, s.e + t.e, s.f + t.f, s.g + t.g, s.h + t.h⟩

/-- The state after a number of blocks. -/
def compressAll : Nat → State → Text → State
  | 0, s, _ => s
  | count + 1, s, t => compressAll count (compress s t) (t.drop 64)

/-- The message with a one bit, zero bits up to the end of a block, and its length in bits. -/
def pad (message : Text) : Text :=
  message ++ 0x80 :: (List.replicate ((119 - message.length % 64) % 64) 0 ++
    Word.bigEndian 8 (8 * message.length))

/-- The bytes of a state. -/
def State.bytes (s : State) : Text :=
  [s.a, s.b, s.c, s.d, s.e, s.f, s.g, s.h].flatMap fun w => Word.bigEndian 4 w.toNat

theorem State.length_bytes (s : State) : s.bytes.length = 32 := by
  simp [State.bytes]

end Sha256

/-- The SHA-256 digest of a message. -/
def sha256 (message : Text) : Digest :=
  let padded := Sha256.pad message
  let s := Sha256.compressAll (padded.length / 64) Sha256.initial padded
  ⟨s.bytes, s.length_bytes⟩

end FactGraph
