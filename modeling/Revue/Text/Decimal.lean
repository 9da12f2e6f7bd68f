import Revue.Text.Hex

/-!
# Numbers as text

A number as a program spells it, rounded to a double, and written with the fewest digits that read
back as the same double, without an exponent. A double is a whole significand and a power of two;
everything is computed in whole numbers.
-/

namespace Revue.Text

def pow2 (e : Nat) : Nat :=
  Nat.pow 2 e

def pow10 (p : Nat) : Nat :=
  Nat.pow 10 p

/-- A double that is not negative: zero, `m · 2 ^ (e - 1074)`, or infinity. -/
inductive Double where
  | finite (m e : Nat)
  | infinity
deriving DecidableEq, Repr

namespace Double

/-- The quotient, rounded to the nearest whole number, a half to the even one. -/
def roundDiv (n d : Nat) : Nat :=
  let q := n / d
  let r := n % d
  if 2 * r < d then q
  else if d < 2 * r then q + 1
  else q + q % 2

/-- The least power of two, counted from `e`, at which a ratio takes at most 53 bits. -/
def fit (n d : Nat) : Nat → Nat → Nat
  | 0, e => e
  | fuel + 1, e => if n < d * pow2 (53 + e) then e else fit n d fuel (e + 1)

def ofRatio (n d : Nat) : Double :=
  let n := n * pow2 1074
  let e := fit n d 2100 0
  let m := roundDiv n (d * pow2 e)
  let (m, e) := if m = pow2 53 then (pow2 52, e + 1) else (m, e)
  if e > 2045 then .infinity else .finite m e

/-- The double nearest to `n · 10 ^ (p - q)`. Powers far out of range are cut short. -/
def ofDecimal (n p q : Nat) : Double :=
  let digits := (Nat.toDigits 10 n).length
  if n = 0 then .finite 0 0
  else if p ≥ q then
    if digits + (p - q) > 400 then .infinity else ofRatio (n * pow10 (p - q)) 1
  else if q - p > digits + 400 then .finite 0 0
  else ofRatio n (pow10 (q - p))

end Double

def digitValue (c : Char) : Nat :=
  (hexDigit? c).getD 0

def natOfDigits (base : Nat) (cs : List Char) : Nat :=
  cs.foldl (fun n c => base * n + digitValue c) 0

/-- The double that digits in a base spell, rounded after every digit. -/
def Double.ofRadix (base : Nat) (cs : List Char) : Double :=
  cs.foldl
    (fun x c =>
      match x with
      | .finite m e => ofRatio (m * pow2 e * base + digitValue c * pow2 1074) (pow2 1074)
      | .infinity => .infinity)
    (.finite 0 0)

/-- The double that a decimal spelling means: digits, a fraction and an exponent. -/
def Double.ofSpelling (cs : List Char) : Double :=
  let (mantissa, rest) := cs.span fun c => c != 'e' && c != 'E'
  let (whole, fraction) := mantissa.span (· != '.')
  let fraction := fraction.drop 1
  let n := natOfDigits 10 (whole ++ fraction)
  match rest.drop 1 with
  | '-' :: digits => ofDecimal n 0 (fraction.length + natOfDigits 10 digits)
  | '+' :: digits => ofDecimal n (natOfDigits 10 digits) fraction.length
  | digits => ofDecimal n (natOfDigits 10 digits) fraction.length

def Double.ofLiteral (spelling : String) : Double :=
  match spelling.toList.filter (· != '_') with
  | '0' :: letter :: digits =>
    match letter.toLower with
    | 'x' => ofRadix 16 digits
    | 'o' => ofRadix 8 digits
    | 'b' => ofRadix 2 digits
    | _ => ofSpelling ('0' :: letter :: digits)
  | cs => ofSpelling cs

namespace Double

def reads (x : Double) (n p q : Nat) : Bool :=
  ofDecimal n p q = x

/-- The power of ten of the first digit of a ratio, counted from `-q`. -/
def leading (n d q : Nat) : Nat :=
  (Nat.toDigits 10 (n * pow10 q / d)).length - 1

/-- Digits and their power of ten, counted from `-q`, that read back as the double `n / d`: on the
grids of 1, 2, … digits the first that has a point which does, the nearer of two. -/
def shortestOn (x : Double) (n d q lead : Nat) : Nat → Nat → Nat × Nat
  | 0, count => (n * pow10 q / (d * pow10 (lead + 1 - count)), lead + 1 - count)
  | fuel + 1, count =>
    let p := lead + 1 - count
    let below := n * pow10 q / (d * pow10 p)
    let rest := n * pow10 q - below * (d * pow10 p)
    let isLowerNearer := 2 * rest ≤ d * pow10 p
    let lowerReads := x.reads below p q
    let upperReads := x.reads (below + 1) p q
    if lowerReads && (isLowerNearer || !upperReads) then (below, p)
    else if upperReads then (below + 1, p)
    else shortestOn x n d q lead fuel (count + 1)

def dropZeros : Nat → Nat → Nat → Nat × Nat
  | 0, n, p => (n, p)
  | fuel + 1, n, p => if n % 10 = 0 ∧ n ≠ 0 then dropZeros fuel (n / 10) (p + 1) else (n, p)

/-- Writes `n · 10 ^ (p - q)` without an exponent. -/
def positional (n p q : Nat) : String :=
  let digits := Nat.toDigits 10 n
  if q ≤ p then String.ofList (digits ++ List.replicate (p - q) '0')
  else
    let places := q - p
    let padded := List.replicate (places + 1 - digits.length) '0' ++ digits
    let cut := padded.length - places
    String.ofList (padded.take cut ++ '.' :: padded.drop cut)

def render (x : Double) : String :=
  match x with
  | .infinity => "inf"
  | .finite 0 _ => "0"
  | .finite m e =>
    let q := 350
    let n := m * pow2 e
    let d := pow2 1074
    let lead := leading n d q
    let (digits, p) := shortestOn x n d q lead 20 1
    let (digits, p) := dropZeros 400 digits p
    positional digits p q

end Double

def numberKey (spelling : String) : String :=
  (Double.ofLiteral spelling).render

end Revue.Text
