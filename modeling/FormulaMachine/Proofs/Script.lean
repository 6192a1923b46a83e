import FormulaMachine.Script

/-!
The segments of a source, told apart: definitions, and a main expression after them. There always is
a last segment, so there always is a main expression.
-/
namespace FormulaMachine

structure Script where
  definitions : List Definition
  main : Segment
deriving DecidableEq

namespace Script

/-- Every piece but the last is a definition. -/
def ofPieces? (offset : Nat) (piece : List Char) : List (List Char) → Except Error Script
  | [] => .ok { definitions := [], main := ⟨String.ofList piece, offset⟩ }
  | next :: more => do
    let definition ← Definition.ofPiece? offset piece
    let script ← ofPieces? (offset + piece.length + 1) next more
    return { script with definitions := definition :: script.definitions }

/-- The segments of a source, told apart. -/
def ofSource? (source : String) : Except Error Script :=
  let (piece, more) := pieces 0 source.toList
  ofPieces? 0 piece more

def parts (s : Script) : List Part :=
  s.definitions.map Definition.toPart ++ [{ toSegment := s.main }]

theorem length_located (offset : Nat) (ps : List (List Char)) :
    (located offset ps).length = ps.length := by
  induction ps generalizing offset with
  | nil => rfl
  | cons piece more ih => simp only [located, List.length_cons, ih]

/-- The pieces from the one at `index` on; the last is as far behind as there are more of them. -/
theorem mapM_part? (index offset : Nat) (piece : List Char) (more : List (List Char)) :
    ((located offset (piece :: more)).zipIdx index).mapM
        (fun ((offset, piece), i) => part? (index + more.length) i offset piece) =
      (ofPieces? offset piece more).map parts := by
  induction more generalizing index offset piece with
  | nil =>
    simp [located, part?, ofPieces?, parts, Except.map, pure, Except.pure, bind, Except.bind]
  | cons next more ih =>
    have hne : index ≠ index + (next :: more).length := by simp
    rw [located, List.zipIdx_cons, List.mapM_cons, ofPieces?]
    change part? _ index offset piece >>= _ = Except.map parts (Definition.ofPiece? _ _ >>= _)
    rw [part?, if_neg hne]
    cases Definition.ofPiece? offset piece with
    | error e => rfl
    | ok d =>
      have ih := ih (index + 1) (offset + piece.length + 1) next
      rw [show index + 1 + more.length = index + (next :: more).length by
        simp only [List.length_cons]; omega] at ih
      change (((located _ (next :: more)).zipIdx (index + 1)).mapM _ >>= _) =
        Except.map parts (ofPieces? (offset + piece.length + 1) next more >>= _)
      rw [ih]
      cases ofPieces? (offset + piece.length + 1) next more <;> rfl

/-- The segments of a source are the parts of its script. -/
theorem split?_eq (source : String) : split? source = (ofSource? source).map parts := by
  have h := mapM_part? 0 0 (pieces 0 source.toList).1 (pieces 0 source.toList).2
  simpa only [split?, ofSource?, length_located, List.length_cons, Nat.add_sub_cancel,
    Nat.zero_add] using h

end Script
end FormulaMachine
