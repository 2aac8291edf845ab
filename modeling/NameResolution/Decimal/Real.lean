import NameResolution.Decimal.Shortest

namespace NameResolution.Decimal

structure Format where
  /-- The smallest and the largest exponent of the leading digit without a written exponent. -/
  leastPositional : Int
  greatestPositional : Int
  notANumber : String
  infinity : String
  zero : String

/-- Positional from `10 ^ -4` up to, but not including, `10 ^ 16`. -/
def realFormat : Format := ⟨-4, 15, "NaN", "inf", "0.0"⟩

def intervalOfBits (exponent fraction : Nat) : Interval :=
  let mantissa := if exponent = 0 then fraction else Nat.pow 2 52 + fraction
  -- in units of a quarter of the last bit: the value, and the ends half a bit away
  let low := if fraction = 0 ∧ 1 < exponent then 4 * mantissa - 1 else 4 * mantissa - 2
  let binaryExponent : Int := (max exponent 1 : Nat) - 1077
  let factor := Nat.pow 2 binaryExponent.toNat
  { scale := Nat.pow 2 (-binaryExponent).toNat
    low := low * factor
    value := 4 * mantissa * factor
    high := (4 * mantissa + 2) * factor
    closed := mantissa % 2 = 0 }

namespace Format

def positive (format : Format) (digits : List Char) (magnitude : Int) : String :=
  String.ofList <|
    if format.leastPositional ≤ magnitude ∧ magnitude ≤ format.greatestPositional then
      match magnitude with
      | .ofNat m =>
        let whole := digits.take (m + 1)
        let rest := digits.drop (m + 1)
        whole ++ List.replicate (m + 1 - whole.length) '0' ++ ['.'] ++
          (if rest.isEmpty then ['0'] else rest)
      | .negSucc m => ['0', '.'] ++ List.replicate m '0' ++ digits
    else
      let rest := digits.drop 1
      digits.take 1 ++ (if rest.isEmpty then [] else '.' :: rest) ++ ['e'] ++
        (toString magnitude).toList

def ofBits (format : Format) (bits : UInt64) : String :=
  let n := bits.toNat
  let exponent := n / Nat.pow 2 52 % Nat.pow 2 11
  let fraction := n % Nat.pow 2 52
  let sign := if n / Nat.pow 2 63 = 1 then "-" else ""
  if exponent = 2047 then
    if fraction = 0 then sign ++ format.infinity else format.notANumber
  else if exponent = 0 ∧ fraction = 0 then sign ++ format.zero
  else
    let number := (intervalOfBits exponent fraction).shortest
    let written := Nat.toDigits 10 number.digits
    let digits := (written.reverse.dropWhile (· = '0')).reverse
    sign ++ format.positive digits (number.exponent + written.length - 1)

end Format

end NameResolution.Decimal
