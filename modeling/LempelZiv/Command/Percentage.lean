namespace LempelZiv

/-- `num / den` to the nearest whole number; halfway it goes to the even one. -/
def roundHalfEven (num den : Nat) : Nat :=
  let q := num / den
  let r := num % den
  if 2 * r < den then q
  else if den < 2 * r then q + 1
  else q + q % 2

/-- The hundredths in a finite positive number, rounded from its exact value. -/
def hundredths (x : Float) : Nat :=
  let bits := x.toBits.toNat
  let exponent := bits >>> 52 % 2048
  let fraction := bits % 1 <<< 52
  let significand := if exponent = 0 then fraction else fraction + 1 <<< 52
  let exponent := max exponent 1
  if 1075 ≤ exponent then significand <<< (exponent - 1075) * 100
  else roundHalfEven (significand * 100) (1 <<< (1075 - exponent))

/-- A number of hundredths with a point and two places. -/
def twoPlaces (n : Nat) : String :=
  s!"{n / 100}." ++ String.ofList [Nat.digitChar (n / 10 % 10), Nat.digitChar (n % 10)]

/-- How much `part` is of `whole`, in percent; nothing of nothing is zero. -/
def percentage (part whole : Nat) : String :=
  twoPlaces (if whole = 0 then 0 else hundredths (part.toFloat / whole.toFloat * 100))

end LempelZiv
