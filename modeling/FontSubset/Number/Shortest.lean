import FontSubset.Number.Binary64

/-!
# Shortest decimal digits

`Binary64.shortest` gives the fewest digits that read back as the same double. A double owns the
interval of reals that round to it; the coarsest of the grids of powers of ten that has a point in
the interval gives the digits, and of two such points the nearer one, a tie going up.
-/

namespace FontSubset.Binary64

/-- The reals that round to a double, as multiples of `1 / unit`. -/
structure Interval where
  low : Nat
  value : Nat
  high : Nat
  unit : Nat
  /-- Whether the two ends round to the double as well. -/
  closed : Bool

def interval (x : Binary64) : Interval :=
  let step := 1 <<< x.exponent.toNat
  let value := 4 * x.significand * step
  -- Below a power of two the doubles are twice as dense.
  let below := if x.significand = leadingBit ∧ -1074 < x.exponent then step else 2 * step
  ⟨value - below, value, value + 2 * step, 4 <<< (-x.exponent).toNat, x.significand % 2 = 0⟩

namespace Interval

/-- The exponent of the leading decimal digit of the value. -/
def leading (i : Interval) : Int :=
  if i.unit ≤ i.value then ((Nat.toDigits 10 (i.value / i.unit)).length : Int) - 1
  else
    match (List.range 400).find? fun k => i.unit ≤ i.value * Nat.pow 10 k with
    | some k => -k
    | none => -400

/-- Whether `point * 10 ^ place` lies in the interval. -/
def contains (i : Interval) (point : Nat) (place : Int) : Bool :=
  let scaled := point * Nat.pow 10 place.toNat * i.unit
  let low := i.low * Nat.pow 10 (-place).toNat
  let high := i.high * Nat.pow 10 (-place).toNat
  if i.closed then low ≤ scaled ∧ scaled ≤ high else low < scaled ∧ scaled < high

/-- The point of the grid of multiples of `10 ^ place` that reads back, if there is one. -/
def point? (i : Interval) (place : Int) : Option Nat :=
  let num := i.value * Nat.pow 10 (-place).toNat
  let den := i.unit * Nat.pow 10 place.toNat
  let floor := num / den
  match i.contains floor place, i.contains (floor + 1) place with
  | true, true => some (if 2 * (num % den) < den then floor else floor + 1)
  | true, false => some floor
  | false, true => some (floor + 1)
  | false, false => none

end Interval

/-- The fewest digits of a finite number other than zero, and the place of the last of them. The
first grid is one place above the leading digit, for a number just below a power of ten may read
back from that power. -/
def shortest (x : Binary64) : Nat × Int :=
  let i := x.interval
  let top := i.leading + 1
  ((List.range 18).findSome? fun (n : Nat) =>
    let place := top - n
    (i.point? place).map (·, place)).getD (0, 0)

example : (nearest false 1 10).shortest = (1, -1) := by decide +kernel
example : (nearest false (Nat.pow 10 23) 1).shortest = (1, 23) := by decide +kernel
example : Binary64.shortest ⟨1⟩ = (5, -324) := by decide +kernel

/-- A number as it is shown in a message. Digits are written positionally from `1e-4` up to below
`1e16`, with at least one digit after the point, and with an exponent elsewhere. -/
def shown (x : Binary64) : String :=
  let sign := if x.isNegative then "-" else ""
  if ¬ x.isFinite then (if x.isInfinite then sign ++ "inf" else "NaN")
  else if x.isZero then sign ++ "0.0"
  else
    let (number, place) := x.shortest
    let digits := Nat.toDigits 10 number
    let point : Int := digits.length + place
    let body :=
      if -4 < point ∧ point ≤ 16 then
        if point ≤ 0 then '0' :: '.' :: (List.replicate (-point).toNat '0' ++ digits)
        else
          let whole := (digits.take point.toNat).rightpad point.toNat '0'
          let rest := digits.drop point.toNat
          whole ++ '.' :: (if rest.isEmpty then ['0'] else rest)
      else
        let rest := digits.drop 1
        digits.take 1 ++ (if rest.isEmpty then [] else '.' :: rest) ++
          'e' :: (toString (point - 1)).toList
    sign ++ String.ofList body

end FontSubset.Binary64
