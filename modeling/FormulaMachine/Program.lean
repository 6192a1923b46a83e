import FormulaMachine.Decimal.Shortest
import FormulaMachine.Error
import FormulaMachine.Opcode

/-!
Programs of the stack machine.
-/
namespace FormulaMachine

/-- Instructions, and the constants that their numbers load, in order. -/
structure Program where
  code : List Opcode
  constants : List Float
deriving DecidableEq

namespace Program

def damaged (detail : String) : Error := { kind := .damagedCode, detail }

/-- Whether no instruction leads beyond the `size` instructions of a program; the first of those
here has the given address. -/
def targetsWithin (size address : Nat) : List Opcode → Bool
  | [] => true
  | op :: code =>
    op.skip?.all (address + 1 + · ≤ size) && targetsWithin size (address + 1) code

/-- Refuses code with more or fewer numbers than constants, and code that leads beyond its end. -/
def ofCode? (code : List Opcode) (constants : List Float) : Except Error Program :=
  if code.countP Opcode.isNumber ≠ constants.length then .error (damaged "CONSTANT POOL MISMATCH")
  else if !targetsWithin code.length 0 code then .error (damaged "JUMP OUT OF RANGE")
  else .ok { code, constants }

def size (p : Program) : Nat := p.code.length

/-- An address has at least four digits. -/
def addressText (address : Nat) : String :=
  let digits := toString address
  String.ofList (List.replicate (4 - digits.length) '0') ++ digits

/-- One line per instruction; a number shows the constant it loads. -/
def linesFrom (address : Nat) : List Opcode → List Float → List String
  | [], _ => []
  | .number :: code, value :: constants =>
    s!"{addressText address} NUMERIC {Decimal.text value}" :: linesFrom (address + 1) code constants
  | .number :: code, [] =>
    s!"{addressText address} NUMERIC ?" :: linesFrom (address + 1) code []
  | op :: code, constants =>
    s!"{addressText address} {op.text}" :: linesFrom (address + 1) code constants

def listing (p : Program) : List String := linesFrom 0 p.code p.constants

end Program
end FormulaMachine
