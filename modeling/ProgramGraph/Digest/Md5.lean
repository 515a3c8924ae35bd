import ProgramGraph.Text.Hex

set_option autoImplicit false

/-! # The MD5 digest

A digest of 128 bits. A message is padded to blocks of 64 bytes, and each block stirs four
words of 32 bits in 64 steps. Long identifiers are cut and told apart by the first digits of
this digest (`Node/Identifier`).
-/

namespace ProgramGraph.Digest.Md5

open ProgramGraph.Text

/-- The four words that the blocks stir. -/
structure State where
  a : UInt32
  b : UInt32
  c : UInt32
  d : UInt32
  deriving Repr, DecidableEq

/-- The words before the first block. -/
def start : State := ⟨0x67452301, 0xefcdab89, 0x98badcfe, 0x10325476⟩

/-- How far each of the 64 steps rotates. -/
def rotations : List UInt32 :=
  let round (amounts : List UInt32) := amounts ++ amounts ++ amounts ++ amounts
  round [7, 12, 17, 22] ++ round [5, 9, 14, 20] ++ round [4, 11, 16, 23] ++ round [6, 10, 15, 21]

/-- The constant that each of the 64 steps adds: the whole part of `2 ^ 32 * |sin i|` for the
`i`-th step, counted from one. -/
def sines : List UInt32 :=
  [0xd76aa478, 0xe8c7b756, 0x242070db, 0xc1bdceee, 0xf57c0faf, 0x4787c62a, 0xa8304613,
   0xfd469501, 0x698098d8, 0x8b44f7af, 0xffff5bb1, 0x895cd7be, 0x6b901122, 0xfd987193,
   0xa679438e, 0x49b40821, 0xf61e2562, 0xc040b340, 0x265e5a51, 0xe9b6c7aa, 0xd62f105d,
   0x02441453, 0xd8a1e681, 0xe7d3fbc8, 0x21e1cde6, 0xc33707d6, 0xf4d50d87, 0x455a14ed,
   0xa9e3e905, 0xfcefa3f8, 0x676f02d9, 0x8d2a4c8a, 0xfffa3942, 0x8771f681, 0x6d9d6122,
   0xfde5380c, 0xa4beea44, 0x4bdecfa9, 0xf6bb4b60, 0xbebfbc70, 0x289b7ec6, 0xeaa127fa,
   0xd4ef3085, 0x04881d05, 0xd9d4d039, 0xe6db99e5, 0x1fa27cf8, 0xc4ac5665, 0xf4292244,
   0x432aff97, 0xab9423a7, 0xfc93a039, 0x655b59c3, 0x8f0ccc92, 0xffeff47d, 0x85845dd1,
   0x6fa87e4f, 0xfe2ce6e0, 0xa3014314, 0x4e0811a1, 0xf7537e82, 0xbd3af235, 0x2ad7d2bb,
   0xeb86d391]

/-- The step's number with its rotation and its constant. -/
def schedule : List (Nat × UInt32 × UInt32) := (List.range 64).zip (rotations.zip sines)

/-- A word rotated to the left. -/
def rotateLeft (word amount : UInt32) : UInt32 := (word <<< amount) ||| (word >>> (32 - amount))

/-- What a step mixes from three of the words, and which word of the block it adds. -/
def mix (s : State) (step : Nat) : UInt32 × Nat :=
  if step < 16 then ((s.b &&& s.c) ||| (~~~s.b &&& s.d), step)
  else if step < 32 then ((s.d &&& s.b) ||| (~~~s.d &&& s.c), (5 * step + 1) % 16)
  else if step < 48 then (s.b ^^^ s.c ^^^ s.d, (3 * step + 5) % 16)
  else (s.c ^^^ (s.b ||| ~~~s.d), 7 * step % 16)

/-- One step on a block of sixteen words. -/
def stir (block : Array UInt32) (s : State) (step : Nat × UInt32 × UInt32) : State :=
  let (number, amount, sine) := step
  let (mixed, index) := mix s number
  let sum := s.a + mixed + sine + block.getD index 0
  ⟨s.d, s.b + rotateLeft sum amount, s.b, s.c⟩

/-- The words after a block: each is the old word plus the stirred one. -/
def absorb (s : State) (block : Array UInt32) : State :=
  let t := schedule.foldl (stir block) s
  ⟨s.a + t.a, s.b + t.b, s.c + t.c, s.d + t.d⟩

/-- The `count` lowest bytes of a number, lowest first. -/
def littleEndian : Nat → Nat → Bytes
  | 0, _ => []
  | count + 1, n => UInt8.ofNat n :: littleEndian count (n / 256)

/-- The message, a one bit, zeros up to 56 bytes of a block, and the length in bits. -/
def pad (message : Bytes) : Bytes :=
  message ++ [0x80] ++ List.replicate ((119 - message.length % 64) % 64) 0 ++
    littleEndian 8 (8 * message.length)

/-- The bytes in groups of four, each a word with its lowest byte first. -/
def words : Bytes → List UInt32
  | b0 :: b1 :: b2 :: b3 :: rest =>
      (b0.toUInt32 ||| b1.toUInt32 <<< 8 ||| b2.toUInt32 <<< 16 ||| b3.toUInt32 <<< 24) ::
        words rest
  | _ => []

/-- The first `count` groups of sixteen words. -/
def blocks : Nat → List UInt32 → List (Array UInt32)
  | 0, _ => []
  | count + 1, all => (all.take 16).toArray :: blocks count (all.drop 16)

/-- The sixteen bytes of the digest. -/
def digest (message : Bytes) : Bytes :=
  let padded := pad message
  let s := (blocks (padded.length / 64) (words padded)).foldl absorb start
  [s.a, s.b, s.c, s.d].flatMap fun word => littleEndian 4 word.toNat

/-- The digest of a text as 32 lower-case digits of base sixteen. -/
def hexDigest (text : String) : List Char :=
  hexDigits (digest (utf8 text))

end ProgramGraph.Digest.Md5
