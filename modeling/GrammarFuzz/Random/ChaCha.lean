import GrammarFuzz.Random.Source

/-!
# The ChaCha stream

The seeded source of random words is the key stream of ChaCha with twelve rounds.
The sixteen words of a block are arranged in four rows; a round works on the four
columns at once, and every second round on the diagonals, which are columns after
the rows have been rotated.
-/

namespace GrammarFuzz
namespace ChaCha

def rotateLeft (x : UInt32) (k : UInt32) : UInt32 :=
  x <<< k ||| x >>> (32 - k)

structure Row where
  a : UInt32
  b : UInt32
  c : UInt32
  d : UInt32

namespace Row

def map (f : UInt32 → UInt32) (r : Row) : Row :=
  ⟨f r.a, f r.b, f r.c, f r.d⟩

def zipWith (f : UInt32 → UInt32 → UInt32) (r s : Row) : Row :=
  ⟨f r.a s.a, f r.b s.b, f r.c s.c, f r.d s.d⟩

instance : Add Row :=
  ⟨zipWith (· + ·)⟩

instance : XorOp Row :=
  ⟨zipWith (· ^^^ ·)⟩

def rotate1 (r : Row) : Row :=
  ⟨r.b, r.c, r.d, r.a⟩

def rotate2 (r : Row) : Row :=
  ⟨r.c, r.d, r.a, r.b⟩

def rotate3 (r : Row) : Row :=
  ⟨r.d, r.a, r.b, r.c⟩

def toList (r : Row) : List UInt32 :=
  [r.a, r.b, r.c, r.d]

end Row

structure Block where
  r0 : Row
  r1 : Row
  r2 : Row
  r3 : Row

namespace Block

def columnRound (x : Block) : Block :=
  let a := x.r0 + x.r1
  let d := (x.r3 ^^^ a).map (rotateLeft · 16)
  let c := x.r2 + d
  let b := (x.r1 ^^^ c).map (rotateLeft · 12)
  let a := a + b
  let d := (d ^^^ a).map (rotateLeft · 8)
  let c := c + d
  let b := (b ^^^ c).map (rotateLeft · 7)
  ⟨a, b, c, d⟩

def diagonalRound (x : Block) : Block :=
  let y := columnRound ⟨x.r0, x.r1.rotate1, x.r2.rotate2, x.r3.rotate3⟩
  ⟨y.r0, y.r1.rotate3, y.r2.rotate2, y.r3.rotate1⟩

def doubleRounds : Nat → Block → Block
  | 0, x => x
  | n + 1, x => doubleRounds n x.columnRound.diagonalRound

def toList (x : Block) : List UInt32 :=
  x.r0.toList ++ x.r1.toList ++ x.r2.toList ++ x.r3.toList

end Block

def constants : Row :=
  ⟨0x61707865, 0x3320646e, 0x79622d32, 0x6b206574⟩

structure Key where
  low : Row
  high : Row

def block (key : Key) (counter : UInt64) : List UInt32 :=
  let start : Block :=
    ⟨constants, key.low, key.high, ⟨counter.toUInt32, (counter >>> 32).toUInt32, 0, 0⟩⟩
  let mixed := start.doubleRounds 6
  Block.toList ⟨mixed.r0 + start.r0, mixed.r1 + start.r1, mixed.r2 + start.r2, mixed.r3 + start.r3⟩

/-!
## Seeds

A seed of one double word is stretched to a key by a linear congruential generator
whose state is permuted on output.
-/

def advance (s : UInt64) : UInt64 :=
  s * 6364136223846793005 + 11634580027462260723

def permute (s : UInt64) : UInt32 :=
  let x := ((s >>> 18 ^^^ s) >>> 27).toUInt32
  let k := (s >>> 59).toUInt32
  x >>> k ||| x <<< (32 - k)

def rowOfSeed (s : UInt64) : Row × UInt64 :=
  let s1 := advance s
  let s2 := advance s1
  let s3 := advance s2
  let s4 := advance s3
  (⟨permute s1, permute s2, permute s3, permute s4⟩, s4)

def keyOfSeed (seed : UInt64) : Key :=
  let (low, s) := rowOfSeed seed
  let (high, _) := rowOfSeed s
  ⟨low, high⟩

end ChaCha

/-- A key stream: its key, the number of the next block and what is left of the last one. -/
structure ChaCha where
  key : ChaCha.Key
  counter : UInt64 := 0
  pending : List UInt32 := []

namespace ChaCha

def ofSeed (seed : UInt64) : ChaCha :=
  { key := keyOfSeed seed }

def next (s : ChaCha) : UInt32 × ChaCha :=
  match s.pending with
  | w :: rest => (w, { s with pending := rest })
  | [] =>
      match block s.key s.counter with
      | w :: rest => (w, { s with counter := s.counter + 1, pending := rest })
      | [] => (0, s)

instance : WordSource ChaCha :=
  ⟨next⟩

end ChaCha
end GrammarFuzz
