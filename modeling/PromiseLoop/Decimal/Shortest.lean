import PromiseLoop.Decimal.Binary

/-!
# Shortest decimals

The digits of a double are the fewest that read back as the same double, and among those the
decimal nearest to it; a tie between two neighbours goes to the larger one.  The search walks the
decimal grids `10 ^ k` from coarse to fine.  If any point of a grid lies in the rounding interval,
then one of the value's two neighbours on that grid does, so only these two are tried.
-/

namespace PromiseLoop.Decimal

/-- A decimal `digits * 10 ^ exponent`. -/
structure Digits where
  digits : Nat
  exponent : Int
deriving DecidableEq, Repr

namespace Binary

/-- Scales a number of quarters of the last place so that one step of the grid `10 ^ k` is
`gridStep b k`. -/
def scale (b : Binary) (k : Int) (quarters : Nat) : Nat :=
  quarters * Nat.pow 2 (b.exponent - 2).toNat * Nat.pow 10 (-k).toNat

/-- One step of the grid `10 ^ k` on the common scale of `scale`. -/
def gridStep (b : Binary) (k : Int) : Nat :=
  Nat.pow 2 (2 - b.exponent).toNat * Nat.pow 10 k.toNat

/-- Whether the grid point `d * 10 ^ k` reads back as the value. -/
def readsBack (b : Binary) (k : Int) (d : Nat) : Bool :=
  let point := d * b.gridStep k
  let low := b.scale k b.lowerQuarters
  let high := b.scale k b.upperQuarters
  if b.closed then low ≤ point && point ≤ high else low < point && point < high

/-- The neighbour of the value on the grid `10 ^ k` that reads back, the nearer one if both do. -/
def neighbour? (b : Binary) (k : Int) : Option Nat :=
  let value := b.scale k b.quarters
  let below := value / b.gridStep k
  match b.readsBack k below, b.readsBack k (below + 1) with
  | false, false => none
  | true, false => some below
  | false, true => some (below + 1)
  | true, true =>
    -- the nearer one, and the larger one if the value lies half way
    if value - below * b.gridStep k < (below + 1) * b.gridStep k - value then some below
    else some (below + 1)

/-- Tries the grids from `10 ^ k` downwards, at most `count + 1` of them. -/
def shortestFrom (b : Binary) : Nat → Int → Digits
  | 0, k => { digits := b.scale k b.quarters / b.gridStep k, exponent := k }
  | count + 1, k =>
    match b.neighbour? k with
    | some d => { digits := d, exponent := k }
    | none => b.shortestFrom count (k - 1)

/-- An exponent `k` with the value below `10 ^ k`: a binary place is worth less than 0.30103
decimal ones. -/
def coarsestGrid (b : Binary) : Int :=
  ((b.significand.log2 + 1 + b.exponent) * 30103).fdiv 100000 + 2

/-- The fewest decimal digits that read back as the value.  Seventeen always suffice; the margin
covers the estimate of the coarsest grid. -/
def shortest (b : Binary) : Digits := b.shortestFrom 24 b.coarsestGrid

end Binary

example : (Binary.ofBits 0x3fb999999999999a).shortest = { digits := 1, exponent := -1 } := by
  decide +kernel

example : (Binary.ofBits 0x0000000000000001).shortest = { digits := 5, exponent := -324 } := by
  decide +kernel

example : (Binary.ofBits 0x7fefffffffffffff).shortest =
    { digits := 17976931348623157, exponent := 292 } := by
  decide +kernel

end PromiseLoop.Decimal
