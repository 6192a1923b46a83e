import FormulaMachine.Proofs.Trimming
import Mathlib.Data.List.Chain

/-!
Tokens can be written down and read back. All that is lost of a text is which blank stood where.
-/
namespace FormulaMachine

/-- A blank of any kind becomes a space. -/
def Text.plain (c : Char) : Char := if isBlank c then ' ' else c

/-- What tokens are written as, one right after another. -/
def Token.print (ts : List Token) : String := String.join (ts.map text)

namespace Text

variable {c : Char} {cs : List Char}

theorem plain_of_isBlank (h : isBlank c) : plain c = ' ' := if_pos h

theorem plain_of_not_isBlank (h : isBlank c = false) : plain c = c := by
  simp [plain, h]

theorem isBlank_plain (c : Char) : isBlank (plain c) = isBlank c := by
  cases h : isBlank c with
  | true =>
    rw [plain_of_isBlank h]
    rfl
  | false => rw [plain_of_not_isBlank h, h]

theorem map_plain_of_isBlank (h : ∀ c ∈ cs, isBlank c) :
    cs.map plain = List.replicate cs.length ' ' := by
  rw [← List.map_const']
  exact List.map_congr_left fun c hc => plain_of_isBlank (h c hc)

theorem map_plain_of_not_isBlank (h : ∀ c ∈ cs, isBlank c = false) : cs.map plain = cs := by
  rw [List.map_congr_left fun c hc => plain_of_not_isBlank (h c hc), List.map_id']

/-- The blanks of a text stay where they are. -/
theorem isBlank_comp_plain : isBlank ∘ plain = isBlank := funext isBlank_plain

end Text

namespace Token

open Text (plain isBlank_comp_plain isBlank_plain)

variable {t : Token} {c : Char} {w cs : List Char}

theorem Spells.not_isBlank (h : t.Spells w) (hb : t.isBlank = false) :
    ∀ c ∈ w, Text.isBlank c = false := by
  intro c hc
  cases t with
  | blank => cases hb
  | unknown d =>
    rw [h.1] at hc
    rw [List.mem_singleton.mp hc]
    exact h.2
  | literal | identifier | operator | leftParen | rightParen | comma =>
    exact not_isBlank_of_isInner (h.2 c hc)

theorem Spells.isBlank (h : t.Spells w) (hb : t.isBlank) : ∀ c ∈ w, Text.isBlank c := by
  cases t with
  | blank => exact h.2
  | _ => cases hb

theorem Spells.map_plain (h : t.Spells w) : w.map plain = t.text.toList := by
  cases hb : t.isBlank with
  | false => rw [h.text_eq hb, Text.map_plain_of_not_isBlank (h.not_isBlank hb)]
  | true =>
    cases t with
    | blank count =>
      obtain ⟨rfl, hw⟩ := h
      rw [Text.map_plain_of_isBlank hw, text, String.toList_ofList]
    | _ => cases hb

theorem Spelling.print_eq {ts : List Token} (h : Spelling ts cs) :
    (print ts).toList = cs.map plain := by
  induction h with
  | nil => simp [print]
  | cons _ hs _ ih =>
    rw [print, String.toList_join, List.map_cons, List.flatMap_cons, List.map_append, hs.map_plain,
      ← ih, print, String.toList_join]

theorem isBlank_first (c : Char) (cs : List Char) :
    (first c cs).1.isBlank = Text.isBlank c := by
  obtain ⟨w, -, hs⟩ := first_word c cs
  cases hb : (first c cs).1.isBlank with
  | false => exact (hs.not_isBlank hb c List.mem_cons_self).symm
  | true => exact (hs.isBlank hb c List.mem_cons_self).symm

/-- Up to its first blank a text is plain, and there is a seam. -/
theorem plain_seam (cs : List Char) :
    ∃ front follow, cs.map plain = front ++ follow ∧ front <+: cs ∧ AtSeam follow := by
  have hfront : (cs.takeWhile (!Text.isBlank ·)).map plain = cs.takeWhile (!Text.isBlank ·) :=
    Text.map_plain_of_not_isBlank fun c hc => by
      simpa using List.all_eq_true.mp List.all_takeWhile c hc
  refine ⟨cs.takeWhile (!Text.isBlank ·), (cs.dropWhile (!Text.isBlank ·)).map plain, ?_,
    List.takeWhile_prefix _, ?_⟩
  · conv_rhs => rw [← hfront, ← List.map_append, List.takeWhile_append_dropWhile]
  · intro d hd
    rw [List.head?_map] at hd
    obtain ⟨c, hc, rfl⟩ := Option.map_eq_some_iff.mp hd
    exact isInner_of_isBlank ((isBlank_plain c).trans (Text.isBlank_head_dropWhile cs c hc))

/-- The first token of the plain text is the same, since it goes no further than to a seam. -/
theorem first_plain (c : Char) (cs : List Char) :
    first (plain c) (cs.map plain) = ((first c cs).1, (first c cs).2.map plain) := by
  cases hb : Text.isBlank c with
  | true =>
    have hb' : Text.isBlank (plain c) := (isBlank_plain c).trans hb
    simp only [first, hb, hb', if_true, List.takeWhile_map, List.dropWhile_map, isBlank_comp_plain,
      List.length_map]
  | false =>
    have ht : (first c cs).1.isBlank = false := (isBlank_first c cs).trans hb
    obtain ⟨w, hcs, hs⟩ := first_word c cs
    have hplain : w.map plain = w := Text.map_plain_of_not_isBlank fun d hd =>
      hs.not_isBlank ht d (List.mem_cons_of_mem _ hd)
    have hmap : cs.map plain = w ++ (first c cs).2.map plain := by
      conv_lhs => rw [hcs, List.map_append, hplain]
    obtain ⟨front, follow, hrest, hfront, hseam⟩ := plain_seam (first c cs).2
    rw [Text.plain_of_not_isBlank hb, hmap, hrest]
    exact first_of_seam hseam ht hcs hfront

theorem lex_plain (cs : List Char) : lex (cs.map plain) = lex cs := by
  induction cs using lex.induct with
  | case1 => rfl
  | case2 c cs ih => rw [List.map_cons, lex, first_plain, lex, ih]

/-- A blank token takes all blanks there are. -/
theorem not_isBlank_after {d : Char} (hb : (first c cs).1.isBlank)
    (hd : d ∈ (first c cs).2.head?) : Text.isBlank d = false := by
  rw [isBlank_first] at hb
  have hn := List.head?_dropWhile_not Text.isBlank cs
  simp only [first, hb, if_true] at hd
  rwa [hd] at hn

theorem isChain_lex (cs : List Char) :
    (lex cs).IsChain fun t u => ¬ (t.isBlank ∧ u.isBlank) := by
  induction cs using lex.induct with
  | case1 =>
    rw [lex]
    exact .nil
  | case2 c cs ih =>
    rw [lex]
    refine List.isChain_cons.mpr ⟨?_, ih⟩
    rintro u hu ⟨hb, hu'⟩
    generalize hr : (first c cs).2 = rest at hu
    cases rest with
    | nil =>
      rw [lex] at hu
      cases hu
    | cons d rest =>
      rw [lex] at hu
      obtain rfl := Option.some.inj hu
      rw [isBlank_first, not_isBlank_after hb (by rw [hr]; rfl)] at hu'
      cases hu'

theorem Spelling.mem_of_unknown {ts : List Token} (h : Spelling ts cs) (hm : unknown c ∈ ts) :
    c ∈ cs ∧ Text.isBlank c = false := by
  induction h with
  | nil => cases hm
  | cons _ hs _ ih =>
    rcases List.mem_cons.mp hm with rfl | hm
    · obtain ⟨rfl, hb⟩ := hs
      exact ⟨List.mem_append_left _ (List.mem_singleton.mpr rfl), hb⟩
    · obtain ⟨hc, hb⟩ := ih hm
      exact ⟨List.mem_append_right _ hc, hb⟩

/-- The tokens of a source are written as the source with plain blanks, and are read back from that.
A token of blanks has no other beside it, and an unknown token is one character of the source. -/
theorem print_lex (source : String) :
    print (lex source.toList) = source.map plain ∧
    (print (lex source.toList)).length = source.length ∧
    lex (print (lex source.toList)).toList = lex source.toList ∧
    (lex source.toList).IsChain (fun t u => ¬ (t.isBlank ∧ u.isBlank)) ∧
    ∀ c, unknown c ∈ lex source.toList →
      (unknown c).text.length = 1 ∧ c ∈ source.toList ∧ Text.isBlank c = false := by
  have hs := spelling_lex source.toList
  have hp : print (lex source.toList) = source.map plain := by
    rw [← String.toList_inj, hs.print_eq, String.toList_map]
  refine ⟨hp, ?_, ?_, isChain_lex _, fun c hc => ⟨?_, hs.mem_of_unknown hc⟩⟩
  · rw [hp, String.length_map]
  · rw [hp, String.toList_map, lex_plain]
  · simp [text]

end Token
end FormulaMachine
