namespace NameResolution.Decimal

/-- A positive number among those that a format holds: `value / scale`, with the ends of the interval
of all numbers that round to it. -/
structure Interval where
  scale : Nat
  low : Nat
  value : Nat
  high : Nat
  /-- Whether the two ends round to the value as well. -/
  closed : Bool

structure Number where
  digits : Nat
  exponent : Int

namespace Interval

/-- Whether `n / d` rounds to the value, for a value over the denominator `d`. -/
def holds (i : Interval) (n : Nat) : Bool :=
  if i.closed then decide (i.low ≤ n) && decide (n ≤ i.high)
  else decide (i.low < n) && decide (n < i.high)

def magnitude (i : Interval) : Int :=
  if i.scale ≤ i.value then (Nat.toDigits 10 (i.value / i.scale)).length - 1
  else
    let k := (Nat.toDigits 10 (i.scale / i.value)).length - 1
    if i.scale ≤ i.value * Nat.pow 10 k then -k else -(k + 1)

def inUnits (i : Interval) (exponent : Int) : Interval :=
  match exponent with
  | .ofNat e => { i with scale := i.scale * Nat.pow 10 e }
  | .negSucc e =>
    let factor := Nat.pow 10 (e + 1)
    { i with low := i.low * factor, value := i.value * factor, high := i.high * factor }

/-- The nearest whole number of units that rounds to the value; of two at the same distance the
larger. -/
def nearest? (i : Interval) : Option Nat :=
  let below := i.value / i.scale
  let above := below + 1
  match i.holds (below * i.scale), i.holds (above * i.scale) with
  | true, true =>
    some (if i.value - below * i.scale < above * i.scale - i.value then below else above)
  | true, false => some below
  | false, true => some above
  | false, false => none

def shortestFrom (i : Interval) : Nat → Nat → Number
  | count, 0 =>
    let exponent := i.magnitude - count + 1
    let units := i.inUnits exponent
    ⟨units.value / units.scale, exponent⟩
  | count, more + 1 =>
    let exponent := i.magnitude - count + 1
    match (i.inUnits exponent).nearest? with
    | some digits => ⟨digits, exponent⟩
    | none => i.shortestFrom (count + 1) more

/-- Seventeen digits tell all numbers of 64 bits apart. -/
def shortest (i : Interval) : Number := i.shortestFrom 1 17

end Interval

end NameResolution.Decimal
