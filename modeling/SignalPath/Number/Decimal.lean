/-!
# Decimal texts of floating-point numbers

`Decimal.shortest` writes the fewest digits that read back as the same number, and of those the
nearest to it; a half goes up. `Decimal.fixed` writes a given number of places, rounded to nearest;
a half goes to the even neighbour. Both are always positional: there is no exponent, and a whole
number has no point.

A finite number is `mantissa * 2 ^ exponent`. The numbers that read back as it lie between the
midpoints to its neighbours, and the fewest digits are those of the coarsest decimal grid that has a
point there.
-/

namespace SignalPath.Decimal

/-- The magnitude of a finite number, and the midpoints to its neighbours, as multiples of
`1 / denominator`. -/
structure Surround where
  /-- The number. -/
  value : Nat
  /-- The midpoint to the neighbour below. -/
  lower : Nat
  /-- The midpoint to the neighbour above. -/
  upper : Nat
  /-- The common denominator, a power of two. -/
  denominator : Nat
  /-- Whether the midpoints themselves read back as the number. -/
  closed : Bool
deriving Repr

/-- The surroundings of the number with these bits, whose sign is left out. -/
def Surround.ofBits (bits : UInt64) : Surround :=
  let field := ((bits >>> 52) &&& 0x7FF).toNat
  let fraction := (bits &&& 0xFFFFFFFFFFFFF).toNat
  let mantissa := if field = 0 then fraction else fraction + 0x10000000000000
  -- The number is `4 * mantissa * 2 ^ (power - 1076)`.
  let power := field - 1
  let below := if fraction = 0 ∧ 1 < field then 1 else 2
  let up := 1 <<< (power - 1076)
  { value := 4 * mantissa * up
    lower := (4 * mantissa - below) * up
    upper := (4 * mantissa + 2) * up
    denominator := 1 <<< (1076 - power)
    closed := mantissa % 2 = 0 }

/-- The surroundings measured in units of `10 ^ -places`. -/
def Surround.scale (s : Surround) (places : Nat) : Surround :=
  let factor := Nat.pow 10 places
  { s with value := s.value * factor, lower := s.lower * factor, upper := s.upper * factor }

/-- The surroundings measured in units of `10 ^ power`. -/
def Surround.coarsen (s : Surround) (power : Nat) : Surround :=
  { s with denominator := s.denominator * Nat.pow 10 power }

/-- Whether a whole number of units reads back as the number. -/
def Surround.holds (s : Surround) (n : Nat) : Bool :=
  let x := n * s.denominator
  if s.closed then s.lower ≤ x && x ≤ s.upper else s.lower < x && x < s.upper

/-- The whole number of units nearest to the number, among those that read back as it. -/
def Surround.nearest? (s : Surround) : Option Nat :=
  let below := s.value / s.denominator
  let rest := s.value % s.denominator
  match s.holds below, s.holds (below + 1) with
  | true, true => some (if 2 * rest < s.denominator then below else below + 1)
  | true, false => some below
  | false, true => some (below + 1)
  | false, false => none

/-- A magnitude as `digits / 10 ^ places`, or `digits * 10 ^ zeros`. One of `places` and `zeros`
is 0. -/
structure Digits where
  /-- The significant digits, and perhaps zeros after them. -/
  digits : Nat
  /-- The number of digits after the point. -/
  places : Nat
  /-- The number of zeros to append. -/
  zeros : Nat
deriving Repr

/-- Looks for the coarsest fitting grid among `10 ^ -places` and the `fuel - 1` grids after it. -/
def finest (s : Surround) (places : Nat) : Nat → Digits
  | 0 => ⟨0, 0, 0⟩
  | fuel + 1 =>
    match (s.scale places).nearest? with
    | some n => ⟨n, places, 0⟩
    | none => finest s (places + 1) fuel

/-- Looks for the coarsest fitting grid among `10 ^ (power - 1)` and the finer ones. -/
def coarsest (s : Surround) : Nat → Digits
  | 0 => finest s 1 345
  | power + 1 =>
    match (s.coarsen power).nearest? with
    | some n => ⟨n, 0, power⟩
    | none => coarsest s power

/-- A text of decimal digits with zeros in front up to a length. -/
def padded (length : Nat) (digits : List Char) : List Char :=
  List.replicate (length - digits.length) '0' ++ digits

/-- A magnitude of `digits / 10 ^ places` with all its places. -/
def withPlaces (digits places : Nat) : List Char :=
  let units := Nat.toDigits 10 (digits / Nat.pow 10 places)
  if places = 0 then units
  else units ++ '.' :: padded places (Nat.toDigits 10 (digits % Nat.pow 10 places))

/-- The text of a magnitude. -/
def Digits.text (d : Digits) : List Char :=
  if d.digits = 0 then ['0']
  else withPlaces (d.digits * Nat.pow 10 d.zeros) d.places

/-- The text of a number whose magnitude is written by `magnitude` if it is finite. -/
def signed (x : Float) (magnitude : Surround → List Char) : String :=
  if x.isNaN then "NaN"
  else
    let bits := x.toBits
    let sign := if bits >>> 63 = 0 then [] else ['-']
    let text := if x.isInf then ['i', 'n', 'f'] else magnitude (.ofBits bits)
    String.ofList (sign ++ text)

/-- The fewest digits that read back as the same number. -/
def shortest (x : Float) : String :=
  signed x fun s => if s.value = 0 then ['0'] else (coarsest s 310).text

/-- `n / d` rounded to the nearest whole number, a half to the even one. -/
def divideToEven (n d : Nat) : Nat :=
  let below := n / d
  let twice := 2 * (n % d)
  if twice < d ∨ (twice = d ∧ below % 2 = 0) then below else below + 1

/-- The number with a given number of places. -/
def fixed (places : Nat) (x : Float) : String :=
  signed x fun s => withPlaces (divideToEven (s.value * Nat.pow 10 places) s.denominator) places

end SignalPath.Decimal
