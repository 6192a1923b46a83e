import FormulaMachine.Number.Units

/-!
Reading decimal numbers.
-/
namespace FormulaMachine.Decimal

/-- The number that a run of digits denotes. -/
def ofDigits (cs : List Char) : Nat := cs.foldl (fun n c => 10 * n + (c.toNat - '0'.toNat)) 0

/-- How many digits a number has; zero has none. -/
def digitCount (n : Nat) : Nat := if n = 0 then 0 else (Nat.toDigits 10 n).length

/-- The double nearest to `m * 10 ^ e`. Beyond the range of a double nothing is computed. -/
def nearest (m : Nat) (e : Int) : Float :=
  let size := digitCount m + e
  if m = 0 ∨ size < -324 then 0
  else if 310 < size then Number.infinity
  else Float.ofScientific m (e < 0) e.natAbs

/-- Reads `1`, `1.`, `.5` or `1.5`: its digits, how many of them follow the point, and the rest. -/
def readMantissa (cs : List Char) : List Char × Nat × List Char :=
  let whole := cs.takeWhile Char.isDigit
  match cs.dropWhile Char.isDigit with
  | '.' :: rest =>
    let fraction := rest.takeWhile Char.isDigit
    (whole ++ fraction, fraction.length, rest.dropWhile Char.isDigit)
  | rest => (whole, 0, rest)

def readDigits? (cs : List Char) : Option Nat :=
  if cs.isEmpty || !cs.all Char.isDigit then none else some (ofDigits cs)

def readInt? : List Char → Option Int
  | '+' :: cs => (readDigits? cs).map (↑·)
  | '-' :: cs => (readDigits? cs).map fun n => -(n : Int)
  | cs => (readDigits? cs).map (↑·)

/-- Nothing, or an `e` and a whole number. -/
def readExponent? : List Char → Option Int
  | [] => some 0
  | c :: cs => if c == 'e' || c == 'E' then readInt? cs else none

/-- Reads a decimal number without a sign. -/
def read? (cs : List Char) : Option Float :=
  let (digits, places, rest) := readMantissa cs
  if digits.isEmpty then none
  else (readExponent? rest).map fun e => nearest (ofDigits digits) (e - places)

/-- Reads a number without a sign, also one that no digits can write. -/
def readExtended? (cs : List Char) : Option Float :=
  match String.ofList (cs.map Char.toLower) with
  | "inf" | "infinity" => some Number.infinity
  | "nan" => some Number.nan
  | _ => read? cs

def readSigned? : List Char → Option Float
  | '+' :: cs => readExtended? cs
  | '-' :: cs => (readExtended? cs).map (-·)
  | cs => readExtended? cs

/-- Reads a 64-bit natural number, with or without a plus sign. -/
def readWord? (cs : List Char) : Option UInt64 :=
  let digits := match cs with
    | '+' :: rest => rest
    | _ => cs
  (readDigits? digits).bind fun n => if n < UInt64.size then some (UInt64.ofNat n) else none

end FormulaMachine.Decimal
