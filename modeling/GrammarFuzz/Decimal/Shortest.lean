import GrammarFuzz.Word

/-!
# The shortest decimal that reads back

A finite positive binary floating-point number stands for an interval: the
reals that round to it.  Its shortest decimal is the point of the coarsest
decimal grid that hits the interval; of two hits the one nearer to the number
is taken, and of two equally near the even one.

The interval is treated exactly, in natural numbers.  The ends are counted in
quarters of the last binary place, so that the midpoints to both neighbours are
whole.
-/

namespace GrammarFuzz
namespace Decimal

/-- A positive binary number `mantissa * 2 ^ exponent`. -/
structure Binary where
  mantissa : Nat
  exponent : Int
  /-- The next smaller number is only half as far away as the next larger one. -/
  closeBelow : Bool

/-- The decimal `digits * 10 ^ exponent`. -/
structure Point where
  digits : Nat
  exponent : Int
deriving DecidableEq, Inhabited

def powerOf (base : Nat) (exponent : Int) : Nat :=
  Nat.pow base exponent.toNat

def hiddenBit : Nat :=
  0x10000000000000

/-- The magnitude of a finite nonzero binary64 number. -/
def Binary.ofBits (bits : UInt64) : Binary :=
  let fraction : Nat := bits.toNat % hiddenBit
  let biased : Nat := bits.toNat / hiddenBit % 2048
  if biased = 0 then ⟨fraction, -1074, false⟩
  else ⟨fraction + hiddenBit, (biased : Int) - 1075, fraction == 0 && biased != 1⟩

namespace Binary

def low (b : Binary) : Nat :=
  if b.closeBelow then 4 * b.mantissa - 1 else 4 * b.mantissa - 2

def high (b : Binary) : Nat :=
  4 * b.mantissa + 2

def onScale (b : Binary) (grid : Int) (quarters : Nat) : Nat :=
  quarters * powerOf 2 (b.exponent - 2) * powerOf 10 (-grid)

def step (b : Binary) (grid : Int) : Nat :=
  powerOf 10 grid * powerOf 2 (2 - b.exponent)

/-- Whether a point of the scale lies in the interval; its ends belong to an even mantissa. -/
def covers (b : Binary) (grid : Int) (point : Nat) : Bool :=
  let low := b.onScale grid b.low
  let high := b.onScale grid b.high
  if b.mantissa % 2 = 0 then low ≤ point && point ≤ high
  else low < point && point < high

def hit? (b : Binary) (grid : Int) : Option Point :=
  let value := b.onScale grid (4 * b.mantissa)
  let step := b.step grid
  let below := value / step
  let above := below + 1
  let decimal (digits : Nat) : Option Point := some ⟨digits, grid⟩
  match below != 0 && b.covers grid (below * step), b.covers grid (above * step) with
  | true, true =>
      match compare (value - below * step) (above * step - value) with
      | .lt => decimal below
      | .gt => decimal above
      | .eq => if below % 2 = 0 then decimal below else decimal above
  | true, false => decimal below
  | false, true => decimal above
  | false, false => none

def leading (b : Binary) : Int :=
  let scaled :=
    b.mantissa * powerOf 10 400 * powerOf 2 b.exponent / powerOf 2 (-b.exponent)
  (Nat.toDigits 10 scaled).length - 401

def shortest (b : Binary) : Point :=
  let leading := b.leading
  ((List.range 17).findSome? fun (k : Nat) => b.hit? (leading - k)).getD default

end Binary

def Point.trim (d : Point) : Point :=
  go 20 d
where
  go : Nat → Point → Point
    | 0, d => d
    | n + 1, d =>
        if d.digits ≠ 0 ∧ d.digits % 10 = 0 then go n ⟨d.digits / 10, d.exponent + 1⟩ else d

def shortestDigits (x : Float) : Word × Int :=
  let d := (Binary.ofBits x.toBits).shortest.trim
  let digits := Nat.toDigits 10 d.digits
  (digits, d.exponent + digits.length - 1)

end Decimal
end GrammarFuzz
