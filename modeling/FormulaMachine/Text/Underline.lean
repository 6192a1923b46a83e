import FormulaMachine.Column

/-!
Marking a column of a text on a terminal.
-/
namespace FormulaMachine.Text

def underlineOn : List Char := ['\x1b', '[', '4', 'm']

def underlineOff : List Char := ['\x1b', '[', '0', 'm']

/-- An empty column marks the character behind it. -/
def marked (column : Column) (i : Nat) : Bool :=
  column.contains i || (column.isEmpty && column.start == i)

/-- Writes the text from character `i` on, where `lit` tells whether the underline is on. A column
behind the text marks a blank at its end. -/
def underlineFrom (column : Column) (i : Nat) (lit : Bool) : List Char → List Char
  | [] =>
    if lit then underlineOff
    else if i ≤ column.start then underlineOn ++ ' ' :: underlineOff
    else []
  | c :: cs =>
    let mark := marked column i
    let change := if lit && !mark then underlineOff else if !lit && mark then underlineOn else []
    change ++ c :: underlineFrom column (i + 1) mark cs

def underline (text : String) (column : Column) : String :=
  String.ofList (underlineFrom column 0 false text.toList)

end FormulaMachine.Text
