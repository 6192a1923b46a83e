import FormulaMachine.Proofs.Columns
import FormulaMachine.Proofs.Script

/-! How a source is written, and what splitting finds in it. -/
namespace FormulaMachine

/-- A definition in the characters from `offset` on: a name with blanks around it, a colon and a
text. -/
inductive Definition.Written : (offset : Nat) → List Char → Definition → Prop
  | intro {offset : Nat} {before name after text : List Char} :
    (∀ c ∈ before, Text.isBlank c) → isName name → (∀ c ∈ after, Text.isBlank c) →
    Written offset (before ++ name ++ after ++ ':' :: text)
      { text := String.ofList text
        offset := offset + (before ++ name ++ after).length + 1
        name := String.ofList name
        nameColumn := ⟨offset + before.length, offset + before.length + name.length⟩ }

/-- Definitions with a semicolon after each, and a main expression. -/
inductive Script.Written : (offset : Nat) → List Char → Script → Prop
  | main {offset : Nat} {text : List Char} :
    Written offset text { definitions := [], main := ⟨String.ofList text, offset⟩ }
  | definition {offset : Nat} {piece rest : List Char} {d : Definition} {s : Script} :
    Definition.Written offset piece d → Written (offset + piece.length + 1) rest s →
    Written offset (piece ++ ';' :: rest) { s with definitions := d :: s.definitions }

/-- Blanks can be found around what is left of a trimmed text. -/
theorem Text.eq_append_trim (cs : List Char) : ∃ after, (∀ c ∈ after, isBlank c) ∧
    cs = cs.takeWhile isBlank ++ trim cs ++ after := by
  refine ⟨((trimStart cs).reverse.takeWhile isBlank).reverse, fun c hc => ?_, ?_⟩
  · exact List.all_eq_true.mp List.all_takeWhile c (List.mem_reverse.mp hc)
  · rw [List.append_assoc, trim, trimEnd, ← List.reverse_append, List.takeWhile_append_dropWhile,
      List.reverse_reverse, trimStart, List.takeWhile_append_dropWhile]

namespace Definition

variable {offset : Nat} {piece : List Char} {d d' : Definition}

theorem written_of_ofPiece? (h : ofPiece? offset piece = .ok d) : Written offset piece d := by
  have hp := List.takeWhile_append_dropWhile (p := (· != ':')) (l := piece)
  have hc := List.head?_dropWhile_not (· != ':') piece
  obtain ⟨after, ha, ht⟩ := Text.eq_append_trim (piece.takeWhile (· != ':'))
  simp only [ofPiece?] at h
  split at h
  · cases h
  · next colon text hd =>
    rw [hd] at hp hc
    obtain rfl : colon = ':' := by simpa using hc
    split at h
    · next hn =>
      cases h
      have hb : ∀ c ∈ (piece.takeWhile (· != ':')).takeWhile Text.isBlank, Text.isBlank c :=
        fun c hm => List.all_eq_true.mp List.all_takeWhile c hm
      have hw : Written offset (_ ++ _ ++ _ ++ ':' :: text) _ := .intro hb hn ha
      rw [← ht, hp] at hw
      exact hw
    · cases h

theorem blamed_ofPiece? (offset : Nat) (piece : List Char) :
    Blamed (offset + piece.length) (Written offset piece) (ofPiece? offset piece) := by
  cases h : ofPiece? offset piece with
  | ok d => exact written_of_ofPiece? h
  | error e =>
    obtain ⟨after, ha, ht⟩ := Text.eq_append_trim (piece.takeWhile (· != ':'))
    have hl := congrArg List.length ht
    have hp := (List.takeWhile_sublist (l := piece) (· != ':')).length_le
    simp only [List.length_append] at hl
    simp only [ofPiece?] at h
    split at h
    · cases h
      exact ⟨rfl, Nat.le_add_right _ _, Nat.le_refl _, List.mem_cons_self⟩
    · split at h
      · cases h
      · cases h
        exact ⟨rfl, Nat.le_add_right _ _, by simp only; omega, List.mem_cons_self⟩

end Definition

namespace Script

variable {offset : Nat} {cs : List Char} {s : Script}

/-- Pieces with semicolons between them. -/
def join (piece : List Char) : List (List Char) → List Char
  | [] => piece
  | next :: more => piece ++ ';' :: join next more

theorem join_cons (c : Char) (piece : List Char) (more : List (List Char)) :
    join (c :: piece) more = c :: join piece more := by
  cases more <;> rfl

theorem join_pieces (depth : Int) (cs : List Char) :
    join (pieces depth cs).1 (pieces depth cs).2 = cs := by
  induction cs generalizing depth with
  | nil => rfl
  | cons c cs ih =>
    simp only [pieces]
    split
    · next h =>
      rw [h.1]
      exact congrArg (';' :: ·) (ih 0)
    · exact (join_cons ..).trans (congrArg (c :: ·) (ih _))

theorem blamed_ofPieces? (offset : Nat) (piece : List Char) (more : List (List Char)) :
    Blamed (offset + (join piece more).length) (Written offset (join piece more))
      (ofPieces? offset piece more) := by
  induction more generalizing offset piece with
  | nil => exact .main
  | cons next more ih =>
    have hl : (join piece (next :: more)).length =
        piece.length + ((join next more).length + 1) := by
      simp [join]
    apply blamed_bind ((Definition.blamed_ofPiece? offset piece).mono (by omega))
    intro d hd
    apply blamed_bind ((ih (offset + piece.length + 1) next).mono (by omega))
    intro s hs
    exact .definition hd hs

/-- A source that cannot be split is to blame itself; otherwise the script is written in it. -/
theorem blamed_ofSource? (source : String) :
    Blamed source.length (Written 0 source.toList) (ofSource? source) := by
  have h := blamed_ofPieces? 0 (pieces 0 source.toList).1 (pieces 0 source.toList).2
  rw [join_pieces, Nat.zero_add, String.length_toList] at h
  exact h

end Script

theorem Definition.Written.stop_le {offset : Nat} {piece : List Char} {d : Definition}
    (h : Written offset piece d) : d.offset + d.text.length ≤ offset + piece.length := by
  cases h
  simp only [List.length_append, List.length_cons, String.length_ofList]
  omega

/-- No segment goes beyond the end of the source. -/
theorem Script.Written.stop_le {offset : Nat} {cs : List Char} {s : Script}
    (h : Written offset cs s) :
    (∀ d ∈ s.definitions, d.offset + d.text.length ≤ offset + cs.length) ∧
      s.main.offset + s.main.text.length ≤ offset + cs.length := by
  induction h with
  | main => exact ⟨nofun, by simp⟩
  | @definition offset piece rest d s hd _ ih =>
    have hl : (piece ++ ';' :: rest).length = piece.length + (rest.length + 1) := by simp
    have hd := hd.stop_le
    refine ⟨fun d' hm => ?_, by have := ih.2; simp only; omega⟩
    rcases List.mem_cons.mp hm with rfl | hm
    · omega
    · have := ih.1 d' hm
      omega

/-! Colons and semicolons are found in no expression, so a source can be read in one way only. -/

theorem Derives.known {room : Nat} {k : Rank} {xs : List Placed} {x : Phrase}
    (h : Derives room k xs x) {p : Placed} (hp : p ∈ xs) (d : Char) : p.token ≠ .unknown d := by
  have known_of_sign (q : Placed) (hq : q.isSign) : q.token ≠ .unknown d := by
    intro ht
    simp [Placed.isSign, Placed.operator?, ht] at hq
  induction h with
  | lone _ _ ih => exact ih hp
  | signed hs _ _ ih | negated hs _ _ _ ih =>
    rcases List.mem_append.mp hp with hp | hp
    · exact known_of_sign p (hs p hp)
    · exact ih hp
  | join _ _ _ _ ihx ihy | compare _ _ _ ihx ihy | exponent _ _ ihx ihy =>
    simp only [List.mem_append, List.mem_cons] at hp
    rcases hp with hp | rfl | hp
    · exact ihx hp
    · exact nofun
    · exact ihy hp
  | literal | pi | euler | name =>
    rw [List.mem_singleton.mp hp]
    exact nofun
  | parenthesized _ ih =>
    simp only [List.mem_append, List.mem_cons, List.not_mem_nil, or_false] at hp
    rcases hp with (rfl | hp) | rfl
    · exact nofun
    · exact ih hp
    · exact nofun
  | call _ ih =>
    simp only [List.mem_append, List.mem_cons, List.not_mem_nil, or_false] at hp
    rcases hp with (rfl | rfl | hp) | rfl
    · exact nofun
    · exact nofun
    · exact ih hp
    · exact nofun
  | call₂ _ _ ihx ihy =>
    simp only [List.mem_append, List.mem_cons, List.not_mem_nil, or_false] at hp
    rcases hp with ((rfl | rfl | hp) | rfl | hp) | rfl
    · exact nofun
    · exact nofun
    · exact ihx hp
    · exact nofun
    · exact ihy hp
    · exact nofun
  | choice _ _ _ ihx ihy ihz =>
    simp only [List.mem_append, List.mem_cons, List.not_mem_nil, or_false] at hp
    rcases hp with (((rfl | rfl | hp) | rfl | hp) | rfl | hp) | rfl
    · exact nofun
    · exact nofun
    · exact ihx hp
    · exact nofun
    · exact ihy hp
    · exact nofun
    · exact ihz hp
    · exact nofun

theorem Placed.exists_mem_all {ts : List Token} {t : Token} (h : t ∈ ts) (hb : t.isBlank = false)
    (offset : Nat) : ∃ p ∈ all offset ts, p.token = t := by
  induction ts generalizing offset with
  | nil => cases h
  | cons u ts ih =>
    rcases List.mem_cons.mp h with rfl | h
    · simp only [all, hb, Bool.false_eq_true, if_false]
      exact ⟨_, List.mem_cons_self, rfl⟩
    · obtain ⟨p, hp, ht⟩ := ih h (offset + u.width)
      simp only [all]
      split
      · exact ⟨p, hp, ht⟩
      · exact ⟨p, List.mem_cons_of_mem _ hp, ht⟩

theorem Segment.not_mem_of_derives {s : Segment} {room : Nat} {k : Rank} {x : Phrase}
    (h : Derives room k s.tokens x) {d : Char} (hd : d = ':' ∨ d = ';') : d ∉ s.text.toList := by
  intro hm
  have hu := (Token.spelling_lex s.text.toList).unknown_mem hd hm
  obtain ⟨p, hp, ht⟩ := Placed.exists_mem_all hu rfl s.offset
  exact h.known hp d ht

theorem isNameChar_of_isName {name : List Char} (h : isName name) : ∀ c ∈ name, isNameChar c := by
  intro c hc
  cases name with
  | nil => cases hc
  | cons d ds =>
    obtain ⟨hd, hds⟩ := Bool.and_eq_true_iff.mp h
    rcases List.mem_cons.mp hc with rfl | hc
    · exact Bool.or_eq_true_iff.mpr (.inl hd)
    · exact List.all_eq_true.mp hds c hc

/-- A text can be cut in one way only between characters of a class and one that is not of it. -/
theorem span_unique {p : Char → Bool} {xs ys us vs : List Char} (hx : ∀ c ∈ xs, p c)
    (hy : ∀ c ∈ ys, p c) (hu : ∀ c ∈ us.head?, p c = false) (hv : ∀ c ∈ vs.head?, p c = false)
    (h : xs ++ us = ys ++ vs) : xs = ys ∧ us = vs := by
  induction xs generalizing ys with
  | nil =>
    cases ys with
    | nil => exact ⟨rfl, h⟩
    | cons y ys =>
      have hf := hu y (by rw [List.nil_append] at h; rw [h]; rfl)
      rw [hy y List.mem_cons_self] at hf
      cases hf
  | cons x xs ih =>
    cases ys with
    | nil =>
      have hf := hv x (by rw [List.nil_append] at h; rw [← h]; rfl)
      rw [hx x List.mem_cons_self] at hf
      cases hf
    | cons y ys =>
      obtain ⟨rfl, ht⟩ := List.cons.inj h
      obtain ⟨rfl, hs⟩ := ih (fun c hc => hx c (List.mem_cons_of_mem _ hc))
        (fun c hc => hy c (List.mem_cons_of_mem _ hc)) ht
      exact ⟨rfl, hs⟩

section
variable {before name after before' name' after' : List Char}

theorem isBlank_head_name (hn : isName name) :
    ∀ c ∈ (name ++ after).head?, Text.isBlank c = false := by
  intro c hc
  have hs := isNameChar_of_isName hn
  cases name with
  | nil => cases hn
  | cons d ds =>
    rw [← Option.some.inj hc]
    exact not_isBlank_of_isInner (isInner_of_isNameChar (hs d List.mem_cons_self))

theorem isNameChar_head_blank (ha : ∀ c ∈ after, Text.isBlank c) :
    ∀ c ∈ after.head?, isNameChar c = false := by
  intro c hc
  have hb := ha c (List.mem_of_mem_head? hc)
  cases hn : isNameChar c with
  | false => rfl
  | true =>
    rw [not_isBlank_of_isInner (isInner_of_isNameChar hn)] at hb
    cases hb

/-- A name between blanks can be told from them. -/
theorem name_unique (hb : ∀ c ∈ before, Text.isBlank c) (hn : isName name)
    (ha : ∀ c ∈ after, Text.isBlank c) (hb' : ∀ c ∈ before', Text.isBlank c) (hn' : isName name')
    (ha' : ∀ c ∈ after', Text.isBlank c)
    (h : before ++ name ++ after = before' ++ name' ++ after') :
    before = before' ∧ name = name' ∧ after = after' := by
  rw [List.append_assoc, List.append_assoc] at h
  obtain ⟨rfl, ht⟩ := span_unique hb hb' (isBlank_head_name hn) (isBlank_head_name hn') h
  obtain ⟨rfl, rfl⟩ := span_unique (isNameChar_of_isName hn) (isNameChar_of_isName hn')
    (isNameChar_head_blank ha) (isNameChar_head_blank ha') ht
  exact ⟨rfl, rfl, rfl⟩

theorem not_mem_name (hb : ∀ c ∈ before, Text.isBlank c) (hn : isName name)
    (ha : ∀ c ∈ after, Text.isBlank c) {d : Char} (hd : d = ':' ∨ d = ';') :
    d ∉ before ++ name ++ after := by
  have hbd : Text.isBlank d = false := by rcases hd with rfl | rfl <;> rfl
  have hnd : isNameChar d = false := by rcases hd with rfl | rfl <;> rfl
  intro hm
  rcases List.mem_append.mp hm with hm | hm
  · rcases List.mem_append.mp hm with hm | hm
    · simp [hb d hm] at hbd
    · simp [isNameChar_of_isName hn d hm] at hnd
  · simp [ha d hm] at hbd

end

theorem bne_of_not_mem {a : Char} {cs : List Char} (h : a ∉ cs) : ∀ c ∈ cs, (c != a) = true := by
  intro c hc
  rw [bne_iff_ne]
  rintro rfl
  exact h hc

theorem cut_unique {a : Char} {xs ys us vs : List Char} (hx : a ∉ xs) (hy : a ∉ ys)
    (h : xs ++ a :: us = ys ++ a :: vs) : xs = ys ∧ us = vs := by
  obtain ⟨hs, ht⟩ := span_unique (bne_of_not_mem hx) (bne_of_not_mem hy) (by simp) (by simp) h
  exact ⟨hs, (List.cons.inj ht).2⟩

theorem Definition.Written.unique {offset : Nat} {piece : List Char} {d d' : Definition}
    (h : Written offset piece d) (h' : Written offset piece d') : d = d' := by
  generalize hp : piece = piece' at h'
  cases h with
  | @intro before name after text hb hn ha =>
    cases h' with
    | @intro before' name' after' text' hb' hn' ha' =>
      obtain ⟨hh, rfl⟩ := cut_unique (not_mem_name hb hn ha (.inl rfl))
        (not_mem_name hb' hn' ha' (.inl rfl)) hp
      obtain ⟨rfl, rfl, rfl⟩ := name_unique hb hn ha hb' hn' ha' hh
      rfl

theorem Definition.Written.not_mem {offset : Nat} {piece : List Char} {d : Definition}
    (h : Written offset piece d) (hd : ';' ∉ d.text.toList) : ';' ∉ piece := by
  cases h with
  | @intro before name after text hb hn ha =>
    intro hm
    rcases List.mem_append.mp hm with hm | hm
    · exact not_mem_name hb hn ha (.inr rfl) hm
    · rw [String.toList_ofList] at hd
      rcases List.mem_cons.mp hm with hm | hm
      · cases hm
      · exact hd hm

/-- A source whose segments have no semicolons can be taken apart in one way only. -/
theorem Script.Written.unique {offset : Nat} {cs : List Char} {s s' : Script}
    (h : Written offset cs s) (h' : Written offset cs s')
    (hs : ∀ d ∈ s.definitions, ';' ∉ d.text.toList) (hm : ';' ∉ s.main.text.toList)
    (hs' : ∀ d ∈ s'.definitions, ';' ∉ d.text.toList) (hm' : ';' ∉ s'.main.text.toList) :
    s = s' := by
  induction h generalizing s' with
  | @main offset text =>
    rw [String.toList_ofList] at hm
    cases h' with
    | main => rfl
    | definition => simp at hm
  | @definition offset piece rest d s hd _ ih =>
    have hp := hd.not_mem (hs d List.mem_cons_self)
    generalize hc : piece ++ ';' :: rest = cs at h'
    cases h' with
    | main =>
      rw [String.toList_ofList, ← hc] at hm'
      simp at hm'
    | @definition _ piece' rest' d' s' hd' hw' =>
      have hp' := hd'.not_mem (hs' d' List.mem_cons_self)
      obtain ⟨rfl, rfl⟩ := cut_unique hp hp' hc
      obtain rfl := hd.unique hd'
      obtain rfl := ih hw' (fun d hd => hs d (List.mem_cons_of_mem _ hd)) hm
        (fun d hd => hs' d (List.mem_cons_of_mem _ hd)) hm'
      rfl

end FormulaMachine
