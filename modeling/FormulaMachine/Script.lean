import FormulaMachine.Error
import FormulaMachine.Token.Lexer

/-!
The outline of a source: definitions `name:expression`, each ended by a semicolon, and a main
expression after them.
-/
namespace FormulaMachine

/-- A stretch of the source, with the number of characters before it. -/
structure Segment where
  text : String
  offset : Nat
deriving DecidableEq

structure Definition extends Segment where
  name : String
  nameColumn : Column
deriving DecidableEq

/-- A segment as the source is cut into them, with the name and its column if it is a definition. -/
structure Part extends Segment where
  name? : Option (Column × String) := none
deriving DecidableEq

def Definition.toPart (d : Definition) : Part :=
  { d.toSegment with name? := some (d.nameColumn, d.name) }

namespace Script

/-- The first piece and the others, cut at each semicolon that no open parenthesis protects.
Superfluous closing parentheses protect nothing, and a cut forgets them. -/
def pieces (depth : Int) : List Char → List Char × List (List Char)
  | [] => ([], [])
  | c :: cs =>
    if c = ';' ∧ depth ≤ 0 then
      let (piece, more) := pieces 0 cs
      ([], piece :: more)
    else
      let depth := if c = '(' then depth + 1 else if c = ')' then depth - 1 else depth
      let (piece, more) := pieces depth cs
      (c :: piece, more)

end Script

/-- Reads a definition from a piece that begins at `offset`. -/
def Definition.ofPiece? (offset : Nat) (piece : List Char) : Except Error Definition :=
  let before := piece.takeWhile (· != ':')
  match piece.dropWhile (· != ':') with
  | [] => .error { kind := .separatorMissing, column := ⟨offset, offset + piece.length⟩ }
  | _ :: text =>
    let start := offset + (before.takeWhile Text.isBlank).length
    let name := Text.trim before
    let nameColumn := ⟨start, start + name.length⟩
    if isName name then
      .ok { text := String.ofList text, offset := offset + before.length + 1,
            name := String.ofList name, nameColumn }
    else
      .error { kind := .nameExpected, column := nameColumn }

namespace Script

/-- The pieces, each with the number of characters before it. -/
def located (offset : Nat) : List (List Char) → List (Nat × List Char)
  | [] => []
  | piece :: more => (offset, piece) :: located (offset + piece.length + 1) more

/-- The piece at `index` is a definition unless it is the last one. -/
def part? (last index : Nat) (offset : Nat) (piece : List Char) : Except Error Part :=
  if index = last then .ok { text := String.ofList piece, offset }
  else do return (← Definition.ofPiece? offset piece).toPart

/-- The segments of a source, in order. Nothing follows the first error. -/
def split? (source : String) : Except Error (List Part) :=
  let (piece, more) := pieces 0 source.toList
  let all := located 0 (piece :: more)
  all.zipIdx.mapM fun ((offset, piece), index) => part? (all.length - 1) index offset piece

end Script
end FormulaMachine
