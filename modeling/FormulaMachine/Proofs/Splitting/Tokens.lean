import FormulaMachine.Proofs.Lexing.Seams
import FormulaMachine.Proofs.Parsing.Layout
import Mathlib.Data.List.TakeWhile

/-!
How a source is split is settled by its tokens. More blanks between them leave the segments with the
tokens that they have, under the names that they have.
-/
namespace FormulaMachine

open Token (ink)

namespace Script

variable {w gap : List Char}

/-- A stretch without semicolons stays in one piece. -/
theorem pieces_append (h : ';' ∉ w) (depth : Int) : ∃ depth', ∀ rest,
    pieces depth (w ++ rest) = (w ++ (pieces depth' rest).1, (pieces depth' rest).2) := by
  induction w generalizing depth with
  | nil => exact ⟨depth, fun rest => rfl⟩
  | cons c w ih =>
    have hc : c ≠ ';' := fun hc => h (hc ▸ List.mem_cons_self)
    obtain ⟨depth', ih⟩ := ih (fun hm => h (List.mem_cons_of_mem _ hm))
      (if c = '(' then depth + 1 else if c = ')' then depth - 1 else depth)
    refine ⟨depth', fun rest => ?_⟩
    simp only [List.cons_append, pieces, hc, false_and, if_false, ih]

theorem pieces_append_of_isBlank (hg : ∀ c ∈ gap, Text.isBlank c) (depth : Int)
    (rest : List Char) : pieces depth (gap ++ rest) =
      (gap ++ (pieces depth rest).1, (pieces depth rest).2) := by
  induction gap with
  | nil => rfl
  | cons c gap ih =>
    obtain ⟨hc, hg⟩ := List.forall_mem_cons.mp hg
    have hne {d : Char} (hd : Text.isBlank d = false) : c ≠ d := by
      rintro rfl
      rw [hc] at hd
      cases hd
    simp only [List.cons_append, pieces, hne (d := ';') rfl, hne (d := '(') rfl,
      hne (d := ')') rfl, false_and, if_false, ih hg]

theorem pieces_isPrefix (depth : Int) (cs : List Char) : (pieces depth cs).1 <+: cs := by
  have hj := join_pieces depth cs
  cases hm : (pieces depth cs).2 with
  | nil =>
    rw [hm] at hj
    exact ⟨[], by rw [List.append_nil]; exact hj⟩
  | cons next more =>
    rw [hm] at hj
    exact ⟨_, hj⟩

end Script

/-- A word with a semicolon in it is nothing else. -/
theorem Token.semicolon_or_not_mem {c : Char} {cs w : List Char}
    (hw : c :: cs = w ++ (first c cs).2) :
    (c = ';' ∧ w = [';'] ∧ (first c cs).2 = cs) ∨ ';' ∉ w := by
  obtain ⟨v, -, -, hs⟩ := word_of_eq hw
  by_cases hsemi : c = ';'
  · subst hsemi
    have hfirst := first_outline (.inr rfl) cs
    rw [hfirst] at hw
    refine .inl ⟨rfl, ?_, by rw [hfirst]⟩
    exact List.append_cancel_right (hw.symm : w ++ cs = [';'] ++ cs)
  · refine .inr fun hm => ?_
    generalize (first c cs).1 = t at hs
    cases t with
    | blank => cases hs.2 _ hm
    | unknown d =>
      obtain ⟨rfl, -⟩ := hs
      obtain rfl := List.mem_singleton.mp hm
      exact hsemi (List.cons.inj hw).1
    | _ => cases hs.2 _ hm

namespace Spread

variable {cs cs' w gap rest front : List Char} {c : Char}

theorem cons_of_isPrefix (hg : ∀ c ∈ gap, Text.isBlank c) (hw : c :: cs = w ++ (Token.first c cs).2)
    (hf : front <+: (Token.first c cs).2) (h : Spread front rest) :
    Spread (w ++ front) (gap ++ (w ++ rest)) := by
  obtain ⟨v, rfl, hv, -⟩ := Token.word_of_eq hw
  have hfirst := congrArg Prod.snd (Token.first_of_isPrefix hv hf)
  rw [← List.append_assoc, List.cons_append]
  exact .cons hg (hfirst ▸ rfl) (hfirst ▸ h)

/-- By induction on the words: a word stays in one piece, or it is the semicolon that is cut at. -/
theorem pieces (h : Spread cs cs') (depth : Int) :
    Spread (Script.pieces depth cs).1 (Script.pieces depth cs').1 ∧
      (Script.pieces depth cs').2.map ink = (Script.pieces depth cs).2.map ink := by
  induction h generalizing depth with
  | @nil gap hg =>
    have hgap := Script.pieces_append_of_isBlank hg depth []
    rw [List.append_nil] at hgap
    rw [hgap]
    exact ⟨.nil (by simpa [Script.pieces] using hg), rfl⟩
  | @cons c cs w gap rest hg hw hr ih =>
    have keep (depth' : Int) (hkeep : ∀ rest, Script.pieces depth (w ++ rest) =
        (w ++ (Script.pieces depth' rest).1, (Script.pieces depth' rest).2)) :
        Spread (Script.pieces depth (c :: cs)).1 (Script.pieces depth (gap ++ w ++ rest)).1 ∧
          (Script.pieces depth (gap ++ w ++ rest)).2.map ink =
            (Script.pieces depth (c :: cs)).2.map ink := by
      obtain ⟨hfirst, hmore⟩ := ih depth'
      rw [List.append_assoc, Script.pieces_append_of_isBlank hg, hw, hkeep, hkeep]
      exact ⟨cons_of_isPrefix hg hw (Script.pieces_isPrefix _ _) hfirst, hmore⟩
    rcases Token.semicolon_or_not_mem hw with ⟨rfl, rfl, hcs⟩ | hsemi
    · by_cases hd : depth ≤ 0
      · obtain ⟨hfirst, hmore⟩ := ih 0
        rw [hcs] at hfirst hmore
        rw [List.append_assoc, Script.pieces_append_of_isBlank hg]
        simp only [List.singleton_append, Script.pieces, hd, and_self, if_true, List.append_nil,
          List.map_cons, hfirst.ink_eq, hmore]
        exact ⟨.nil hg, trivial⟩
      · exact keep depth fun rest => by simp [Script.pieces, hd]
    · obtain ⟨depth', hkeep⟩ := Script.pieces_append hsemi depth
      exact keep depth' hkeep

end Spread

/-- What a definition is in tokens: an identifier, a colon and the tokens of a text. -/
def Definition.ofInk? (ts : List Token) :
    Except (ErrorKind × String) (String × List Token) :=
  match ts.dropWhile (· != .unknown ':') with
  | [] => .error (.separatorMissing, "")
  | _ :: text =>
    match ts.takeWhile (· != .unknown ':') with
    | [.identifier name] => .ok (name, text)
    | _ => .error (.nameExpected, "")

/-- A definition without its columns. -/
def Definition.bare (d : Definition) : String × List Token := (d.name, ink d.text.toList)

theorem Definition.bare_ofPiece? (offset : Nat) (piece : List Char) :
    Except.bare bare (ofPiece? offset piece) = ofInk? (ink piece) := by
  have hp := List.takeWhile_append_dropWhile (p := (· != ':')) (l := piece)
  have hc := List.head?_dropWhile_not (· != ':') piece
  have hbefore : ∀ t ∈ ink (piece.takeWhile (· != ':')), (t != .unknown ':') = true := by
    intro t ht
    rw [bne_iff_ne]
    rintro rfl
    refine Token.unknown_not_mem_ink (fun hm => ?_) ht
    simpa using List.all_eq_true.mp List.all_takeWhile _ hm
  simp only [ofPiece?]
  generalize piece.takeWhile (· != ':') = before at hp hbefore ⊢
  cases hd : piece.dropWhile (· != ':') with
  | nil =>
    rw [hd, List.append_nil] at hp
    have hdrop : (ink before).dropWhile (· != .unknown ':') = [] :=
      List.dropWhile_eq_nil_iff.mpr hbefore
    rw [ofInk?, ← hp, hdrop]
    rfl
  | cons colon text =>
    rw [hd] at hp hc
    obtain rfl : colon = ':' := by simpa using hc
    have hhead : ∀ t ∈ (Token.unknown ':' :: ink text).head?, (t != .unknown ':') = false := by simp
    obtain ⟨ht, hdrop⟩ := span_append hbefore hhead
    rw [ofInk?, ← hp, Token.ink_outline (.inl rfl), ht, hdrop]
    by_cases hn : isName (Text.trim before)
    · rw [Token.ink_eq_identifier_iff.mpr ⟨hn, rfl⟩]
      simp [hn, Except.bare, bare]
    · simp only [if_neg hn, Except.bare]
      split
      · next name hname => exact absurd (Token.ink_eq_identifier_iff.mp hname).1 hn
      · rfl

namespace Script

/-- A script without its columns. -/
def bare (s : Script) : List (String × List Token) × List Token :=
  (s.definitions.map Definition.bare, ink s.main.text.toList)

theorem bare_ofPieces? {offset offset' : Nat} {piece piece' : List Char}
    {more more' : List (List Char)} (hp : ink piece' = ink piece)
    (hm : more'.map ink = more.map ink) :
    Except.bare bare (ofPieces? offset' piece' more') =
      Except.bare bare (ofPieces? offset piece more) := by
  induction more generalizing offset offset' piece piece' more' with
  | nil =>
    obtain rfl := List.map_eq_nil_iff.mp hm
    simp [ofPieces?, Except.bare, bare, hp]
  | cons next more ih =>
    obtain ⟨next', more', rfl, hnext, hmore⟩ := List.map_eq_cons_iff.mp hm
    have hdefinition : Except.bare Definition.bare (Definition.ofPiece? offset' piece') =
        Except.bare Definition.bare (Definition.ofPiece? offset piece) := by
      rw [Definition.bare_ofPiece?, Definition.bare_ofPiece?, hp]
    refine Except.bare_bind hdefinition fun d d' hd => ?_
    refine Except.bare_bind (ih hnext hmore) fun s s' hs => congrArg Except.ok ?_
    obtain ⟨hdefinitions, hmain⟩ := Prod.mk.inj hs
    simp only [bare, List.map_cons, hd, hdefinitions, hmain]

/-- A text that is spread is split into the same tokens, or cannot be split for the same reason. -/
theorem bare_ofSource? {source source' : String} (h : Spread source.toList source'.toList) :
    Except.bare bare (ofSource? source') = Except.bare bare (ofSource? source) := by
  obtain ⟨hfirst, hmore⟩ := h.pieces 0
  exact bare_ofPieces? hfirst.ink_eq hmore

end Script
end FormulaMachine
