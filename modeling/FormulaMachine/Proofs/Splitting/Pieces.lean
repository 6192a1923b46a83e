import FormulaMachine.Proofs.Compilation.Segments
import Mathlib.Data.List.Forall2

/-!
Splitting takes a source apart and loses nothing. The pieces are told by the parentheses and
semicolons in them, and in a source that compiles every semicolon is the end of one.
-/
namespace FormulaMachine

namespace Script

/-- How many parentheses more are opened than closed. -/
def opened (cs : List Char) : Int := cs.count '(' - cs.count ')'

/-- Each semicolon of a piece stands where parentheses are open, `depth` of them in front of the
piece. -/
def Guarded (depth : Int) (piece : List Char) : Prop :=
  ∀ front back, piece = front ++ ';' :: back → 0 < depth + opened front

/-- The pieces of a text. They end at semicolons where no parentheses are open. -/
inductive Cut : (depth : Int) → List Char → List (List Char) → Prop
  | last {depth : Int} {piece : List Char} : Guarded depth piece → Cut depth piece [piece]
  | next {depth : Int} {piece rest : List Char} {more : List (List Char)} :
    Guarded depth piece → depth + opened piece ≤ 0 → Cut 0 rest more →
    Cut depth (piece ++ ';' :: rest) (piece :: more)

end Script

namespace Definition

/-- A name with blanks around it stands before the first colon. -/
def IsPiece (piece : List Char) : Prop :=
  ∃ raw text, piece = raw ++ ':' :: text ∧ ':' ∉ raw ∧ isName (Text.trim raw)

/-- What is wrong with a piece that begins at `offset`: there is no colon in it, or what stands
before the first one is no name. -/
inductive Misfit (offset : Nat) : List Char → Error → Prop
  | separator {piece : List Char} : ':' ∉ piece →
    Misfit offset piece { kind := .separatorMissing, column := ⟨offset, offset + piece.length⟩ }
  | name {raw text : List Char} {start : Nat} : ':' ∉ raw → ¬ isName (Text.trim raw) →
    start = offset + (raw.takeWhile Text.isBlank).length →
    Misfit offset (raw ++ ':' :: text)
      { kind := .nameExpected, column := ⟨start, start + (Text.trim raw).length⟩ }

/-- What stands before the colon of a definition: the name among blanks, and in its column. -/
structure RawName (d : Definition) (raw : List Char) : Prop where
  not_mem : ':' ∉ raw
  trim_eq : Text.trim raw = d.name.toList
  isName : isName d.name.toList
  column : d.nameColumn.start + raw.length + 1 = d.offset + (raw.takeWhile Text.isBlank).length

end Definition

namespace Script

/-- How many characters pieces take up, with a semicolon behind each. -/
def extent (pieces : List (List Char)) : Nat := (pieces.flatMap (· ++ [';'])).length

/-- An error blames the first piece that is no definition, and stands in it. The last piece need not
be a definition. -/
def FirstMisfit (pieces : List (List Char)) (e : Error) : Prop :=
  ∃ before piece after offset, pieces = before ++ piece :: after ∧ after ≠ [] ∧
    (∀ p ∈ before, Definition.IsPiece p) ∧ offset = extent before ∧
    Definition.Misfit offset piece e ∧
    offset ≤ e.column.start ∧ e.column.start ≤ e.column.stop ∧
    e.column.stop ≤ offset + piece.length

/-- What stands before the colons of the definitions. -/
def RawNames (s : Script) (raws : List (List Char)) : Prop :=
  List.Forall₂ (fun raw d => d.RawName raw) raws s.definitions

/-- The definitions and the main expression as they are written. -/
def restore (s : Script) (raws : List (List Char)) : List (List Char) :=
  List.zipWith (fun raw d => raw ++ ':' :: d.text.toList) raws s.definitions ++ [s.main.text.toList]

end Script

namespace Script

variable {depth : Int} {cs piece rest front : List Char} {ps qs more : List (List Char)} {c : Char}

theorem opened_append (cs ds : List Char) : opened (cs ++ ds) = opened cs + opened ds := by
  simp only [opened, List.count_append]
  omega

theorem opened_cons (c : Char) (cs : List Char) : opened (c :: cs) = opened [c] + opened cs :=
  opened_append [c] cs

/-- One character more is one step of the count. -/
theorem add_opened (depth : Int) (c : Char) : depth + opened [c] =
    if c = '(' then depth + 1 else if c = ')' then depth - 1 else depth := by
  by_cases hl : c = '('
  · subst hl
    rfl
  · by_cases hr : c = ')'
    · subst hr
      rfl
    · simp [opened, hl, hr]

theorem Guarded.cons (h : Guarded (depth + opened [c]) piece) (hc : c = ';' → 0 < depth) :
    Guarded depth (c :: piece) := by
  intro front back hp
  cases front with
  | nil => simpa [opened] using hc (List.cons.inj hp).1
  | cons d front =>
    obtain ⟨rfl, rfl⟩ := List.cons.inj hp
    have hd := h front back rfl
    rw [opened_cons]
    omega

theorem guarded_cons : Guarded depth (c :: piece) ↔
    Guarded (depth + opened [c]) piece ∧ (c = ';' → 0 < depth) := by
  refine ⟨fun h => ⟨fun front back hp => ?_, ?_⟩, fun h => h.1.cons h.2⟩
  · have hd := h (c :: front) back (by rw [hp, List.cons_append])
    rw [opened_cons] at hd
    omega
  · rintro rfl
    simpa [opened] using h [] piece rfl

theorem guarded_nil (depth : Int) : Guarded depth [] := by
  intro front back hp
  cases front <;> cases hp

theorem Cut.cons (h : Cut (depth + opened [c]) cs (piece :: more)) (hc : c = ';' → 0 < depth) :
    Cut depth (c :: cs) ((c :: piece) :: more) := by
  cases h with
  | last hg => exact .last (hg.cons hc)
  | next hg hd hr =>
    refine .next (hg.cons hc) ?_ hr
    rw [opened_cons]
    omega

theorem cut_pieces (depth : Int) (cs : List Char) :
    Cut depth cs ((pieces depth cs).1 :: (pieces depth cs).2) := by
  induction cs generalizing depth with
  | nil => exact .last (guarded_nil depth)
  | cons c cs ih =>
    simp only [pieces]
    split
    · next h =>
      obtain ⟨rfl, hd⟩ := h
      exact .next (guarded_nil depth) (by simpa [opened] using hd) (ih 0)
    · next h =>
      rw [← add_opened]
      refine (ih _).cons fun hc => ?_
      have hd : ¬ depth ≤ 0 := fun hd => h ⟨hc, hd⟩
      omega

theorem pieces_of_guarded (h : Guarded depth piece) (rest : List Char) :
    pieces depth (piece ++ rest) = (piece ++ (pieces (depth + opened piece) rest).1,
      (pieces (depth + opened piece) rest).2) := by
  induction piece generalizing depth with
  | nil => simp [opened]
  | cons c piece ih =>
    obtain ⟨hg, hc⟩ := guarded_cons.mp h
    have hcut : ¬(c = ';' ∧ depth ≤ 0) := fun hd => by
      have := hc hd.1
      omega
    simp only [List.cons_append, pieces, if_neg hcut, ← add_opened, ih hg, opened_cons c piece,
      Int.add_assoc]

/-- Where a text is cut is settled by the text. -/
theorem Cut.eq_pieces (h : Cut depth cs ps) : ps = (pieces depth cs).1 :: (pieces depth cs).2 := by
  induction h with
  | last hg =>
    have hp := pieces_of_guarded hg []
    rw [List.append_nil] at hp
    simp [hp, pieces]
  | next hg hd _ ih =>
    rw [pieces_of_guarded hg, pieces, if_pos ⟨rfl, hd⟩, ih]
    simp

-- The parenthesis that nothing opens does not guard the semicolon behind it.
example : pieces 0 "f(a;b);c);d".toList =
    ("f(a;b)".toList, ["c)".toList, "d".toList]) := by decide

theorem intercalate_eq_join (piece : List Char) (more : List (List Char)) :
    [';'].intercalate (piece :: more) = join piece more := by
  induction more generalizing piece with
  | nil => simp [join]
  | cons next more ih => rw [List.intercalate_cons_cons, ih, join, List.append_assoc]; rfl

theorem Cut.intercalate_eq (h : Cut depth cs ps) : [';'].intercalate ps = cs := by
  rw [h.eq_pieces, intercalate_eq_join, join_pieces]

end Script

namespace Definition

variable {offset : Nat} {raw text piece : List Char} {e : Error}

theorem ofPiece?_of_not_mem (offset : Nat) (h : ':' ∉ piece) : ofPiece? offset piece =
    .error { kind := .separatorMissing, column := ⟨offset, offset + piece.length⟩ } := by
  have hd : (piece ++ []).dropWhile (· != ':') = [] :=
    (span_append (bne_of_not_mem h) (by simp)).2
  rw [List.append_nil] at hd
  simp only [ofPiece?, hd]

theorem ofPiece?_raw (offset : Nat) (h : ':' ∉ raw) (text : List Char) :
    ofPiece? offset (raw ++ ':' :: text) =
      let start := offset + (raw.takeWhile Text.isBlank).length
      let nameColumn := ⟨start, start + (Text.trim raw).length⟩
      if isName (Text.trim raw) then
        .ok { text := String.ofList text, offset := offset + raw.length + 1,
              name := String.ofList (Text.trim raw), nameColumn }
      else .error { kind := .nameExpected, column := nameColumn } := by
  have hspan : (raw ++ ':' :: text).takeWhile (· != ':') = raw ∧
      (raw ++ ':' :: text).dropWhile (· != ':') = ':' :: text :=
    span_append (bne_of_not_mem h) (by simp)
  simp only [ofPiece?, hspan]

/-- A piece is read as a definition, or it does not fit. -/
theorem ofPiece?_cases (offset : Nat) (piece : List Char) :
    (∃ raw d, ofPiece? offset piece = .ok d ∧ piece = raw ++ ':' :: d.text.toList ∧
      d.RawName raw) ∨
    ∃ e, ofPiece? offset piece = .error e ∧ Misfit offset piece e := by
  by_cases hc : ':' ∈ piece
  · obtain ⟨raw, text, rfl, hr⟩ := List.eq_append_cons_of_mem hc
    have hp := ofPiece?_raw offset hr text
    by_cases hn : isName (Text.trim raw)
    · simp only [if_pos hn] at hp
      refine .inl ⟨raw, _, hp, by simp, hr, by simp, by simpa using hn, ?_⟩
      simp only
      omega
    · simp only [if_neg hn] at hp
      exact .inr ⟨_, hp, .name hr hn rfl⟩
  · exact .inr ⟨_, ofPiece?_of_not_mem offset hc, .separator hc⟩

theorem Misfit.within (h : Misfit offset piece e) : offset ≤ e.column.start ∧
    e.column.start ≤ e.column.stop ∧ e.column.stop ≤ offset + piece.length := by
  cases h with
  | separator => exact ⟨Nat.le_refl _, Nat.le_add_right _ _, Nat.le_refl _⟩
  | @name raw text start _ _ hs =>
    obtain ⟨after, -, ht⟩ := Text.eq_append_trim raw
    have hl := congrArg List.length ht
    simp only [List.length_append, List.length_cons] at hl ⊢
    omega

theorem Written.stop_eq {d : Definition} (h : Written offset piece d) :
    d.offset + d.text.length = offset + piece.length := by
  cases h
  simp only [List.length_append, List.length_cons, String.length_ofList]
  omega

end Definition

namespace Script

variable {offset : Nat} {piece : List Char} {more : List (List Char)} {s : Script} {e : Error}

@[simp] theorem extent_nil : extent [] = 0 := rfl

@[simp] theorem extent_cons (piece : List Char) (more : List (List Char)) :
    extent (piece :: more) = piece.length + 1 + extent more := by
  rw [extent, List.flatMap_cons, List.length_append, List.length_append]
  rfl

theorem restore_of_ofPieces? (h : ofPieces? offset piece more = .ok s) :
    ∃ raws, s.RawNames raws ∧ piece :: more = s.restore raws := by
  induction more generalizing offset piece s with
  | nil =>
    cases h
    exact ⟨[], .nil, by simp [restore]⟩
  | cons next more ih =>
    obtain ⟨d, hd, h⟩ := Except.ok_of_bind h
    obtain ⟨s, hs, h⟩ := Except.ok_of_bind h
    cases h
    obtain ⟨raws, hraws, hmore⟩ := ih hs
    rcases Definition.ofPiece?_cases offset piece with ⟨raw, d', hd', rfl, hraw⟩ | ⟨e, he, -⟩
    · obtain rfl := Except.ok.inj (hd.symm.trans hd')
      exact ⟨raw :: raws, .cons hraw hraws, by rw [hmore]; rfl⟩
    · rw [hd] at he
      cases he

/-- A text ends where its piece does. -/
theorem stop_of_ofPieces? (h : ofPieces? offset piece more = .ok s) {i : Nat} {t : Segment}
    (ht : s.segments[i]? = some t) : t.offset + t.text.length + 1 =
      offset + extent ((piece :: more).take (i + 1)) := by
  induction more generalizing offset piece s i with
  | nil =>
    cases h
    cases i with
    | zero =>
      obtain rfl := Option.some.inj ht
      simp [Nat.add_assoc]
    | succ i => cases ht
  | cons next more ih =>
    obtain ⟨d, hd, h⟩ := Except.ok_of_bind h
    obtain ⟨s, hs, h⟩ := Except.ok_of_bind h
    cases h
    cases i with
    | zero =>
      obtain rfl := Option.some.inj ht
      have hstop := (Definition.written_of_ofPiece? hd).stop_eq
      rw [List.take_succ_cons, List.take_zero, extent_cons]
      simp only [extent_nil]
      omega
    | succ i =>
      have hmore := ih hs ht
      rw [List.take_succ_cons, extent_cons]
      omega

/-- By induction on the pieces: what comes before the first misfit is counted for its place. -/
theorem firstMisfit_of_ofPieces? (h : ofPieces? offset piece more = .error e) :
    ∃ before misfit after, piece :: more = before ++ misfit :: after ∧ after ≠ [] ∧
      (∀ p ∈ before, Definition.IsPiece p) ∧
      Definition.Misfit (offset + extent before) misfit e := by
  induction more generalizing offset piece with
  | nil => cases h
  | cons next more ih =>
    rcases Definition.ofPiece?_cases offset piece with ⟨raw, d, hd, hp, hraw⟩ | ⟨e', he, hm⟩
    · have hpiece : Definition.IsPiece piece :=
        ⟨raw, _, hp, hraw.not_mem, hraw.trim_eq ▸ hraw.isName⟩
      rw [ofPieces?, hd] at h
      cases hs : ofPieces? (offset + piece.length + 1) next more with
      | ok s =>
        rw [hs] at h
        cases h
      | error e' =>
        rw [hs] at h
        cases h
        obtain ⟨before, misfit, after, heq, hne, hb, hm⟩ := ih hs
        refine ⟨piece :: before, misfit, after, by rw [heq, List.cons_append], hne,
          List.forall_mem_cons.mpr ⟨hpiece, hb⟩, ?_⟩
        simpa [Nat.add_assoc] using hm
    · rw [ofPieces?, he] at h
      cases h
      exact ⟨[], piece, next :: more, rfl, List.cons_ne_nil _ _, List.forall_mem_nil _, hm⟩

theorem firstMisfit_of_ofSource? {source : String} (h : ofSource? source = .error e) :
    FirstMisfit ((pieces 0 source.toList).1 :: (pieces 0 source.toList).2) e := by
  obtain ⟨before, misfit, after, heq, hne, hb, hm⟩ := firstMisfit_of_ofPieces? h
  rw [Nat.zero_add] at hm
  exact ⟨before, misfit, after, _, heq, hne, hb, rfl, hm, hm.within⟩

end Script

/-! ### What stands in the source -/

theorem Segment.StandsIn.slice_text {s : Segment} {cs : List Char} (h : s.StandsIn 0 cs) :
    Column.slice ⟨s.offset, s.offset + s.text.length⟩ cs = s.text.toList := by
  obtain ⟨front, back, rfl, ho⟩ := h
  rw [ho, Nat.zero_add, ← String.length_toList]
  exact Column.slice_append front _ back

/-- A name stands in its column as a text does at its offset. -/
def Definition.NamedIn (d : Definition) (offset : Nat) (cs : List Char) : Prop :=
  Segment.StandsIn ⟨d.name, d.nameColumn.start⟩ offset cs ∧
    d.nameColumn.stop = d.nameColumn.start + d.name.length

theorem Definition.Written.namedIn {offset : Nat} {piece : List Char} {d : Definition}
    (h : Written offset piece d) (rest : List Char) : d.NamedIn offset (piece ++ rest) := by
  cases h with
  | @intro before name after text _ _ _ =>
    exact ⟨⟨before, after ++ ':' :: text ++ rest, by simp, rfl⟩, by simp⟩

theorem Script.Written.namedIn {offset : Nat} {cs : List Char} {s : Script}
    (h : Written offset cs s) : ∀ d ∈ s.definitions, d.NamedIn offset cs := by
  induction h with
  | main => exact List.forall_mem_nil _
  | @definition offset piece rest d s hd _ ih =>
    refine List.forall_mem_cons.mpr ⟨hd.namedIn _, fun d' hd' => ?_⟩
    obtain ⟨hs, hstop⟩ := ih d' hd'
    exact ⟨hs.widen piece, hstop⟩

theorem Definition.NamedIn.slice_eq {d : Definition} {cs : List Char} (h : d.NamedIn 0 cs) :
    d.nameColumn.slice cs = d.name.toList := by
  obtain ⟨hs, hstop⟩ := h
  rw [← hs.slice_text, ← hstop]

namespace Script

variable {s : Script} {raws : List (List Char)}

theorem written_of_ofSource? {source : String} (h : ofSource? source = .ok s) :
    Written 0 source.toList s := by
  have hw := blamed_ofSource? source
  rwa [h] at hw

/-- Blanks and names have no semicolons, so those of the pieces are in the texts. -/
theorem RawNames.not_mem_restore (h : s.RawNames raws)
    (hs : ∀ t ∈ s.segments, ';' ∉ t.text.toList) : ∀ piece ∈ s.restore raws, ';' ∉ piece := by
  obtain ⟨ds, main⟩ := s
  have hmain := hs main (mem_segments.mpr (.inr rfl))
  replace hs : ∀ d ∈ ds, ';' ∉ d.text.toList :=
    fun d hd => hs d.toSegment (mem_segments.mpr (.inl ⟨d, hd, rfl⟩))
  simp only [RawNames] at h
  induction h with
  | nil => simpa [restore] using hmain
  | @cons raw d raws ds hraw _ ih =>
    obtain ⟨hd, hds⟩ := List.forall_mem_cons.mp hs
    obtain ⟨after, ha, hsplit⟩ := Text.eq_append_trim raw
    have hraw : ';' ∉ raw := by
      rw [hsplit]
      exact not_mem_name (List.all_eq_true.mp List.all_takeWhile) (hraw.trim_eq ▸ hraw.isName) ha
        (.inr rfl)
    refine List.forall_mem_cons.mpr ⟨?_, ih hds⟩
    simpa [hraw] using hd

end Script

/-- In a source that compiles no piece has a semicolon in it. -/
theorem Compiler.pieces_of_compile {c : Compiler} {source : String} {f : Formula}
    (h : c.compile source = .ok f) {pieces : List (List Char)}
    (hc : Script.Cut 0 source.toList pieces) : ∀ piece ∈ pieces, ';' ∉ piece := by
  obtain ⟨script, hscript, hl, hsegments⟩ := segments_of_compile h
  obtain ⟨raws, hraws, hrestore⟩ := Script.restore_of_ofPieces? hscript
  rw [hc.eq_pieces, hrestore]
  refine hraws.not_mem_restore fun t ht => ?_
  obtain ⟨i, p, hi, hp⟩ := exists_counterpart ht hl
  obtain ⟨e, before, after, hparse, -⟩ := hsegments i t p hi hp
  obtain ⟨x, hx, -⟩ := Expr.derives_of_parse hparse
  exact Segment.not_mem_of_derives hx (.inr rfl)

namespace Script

/-- Splitting is faithful. The pieces of a source are settled by its text and give it back when they
are joined. A script gives back the pieces it was read from, and its texts and names stand where it
says. An error blames the first piece that is no definition. In a source that compiles every
semicolon is cut at. -/
theorem ofSource?_faithful (source : String) : ∃ pieces, Cut 0 source.toList pieces ∧
    (∀ others, Cut 0 source.toList others → others = pieces) ∧
    [';'].intercalate pieces = source.toList ∧
    (∀ s, ofSource? source = .ok s →
      (∃ raws, s.RawNames raws ∧ s.restore raws = pieces) ∧
      (∀ i t, s.segments[i]? = some t →
        t.offset + t.text.length + 1 = extent (pieces.take (i + 1)) ∧
        Column.slice ⟨t.offset, t.offset + t.text.length⟩ source.toList = t.text.toList) ∧
      ∀ d ∈ s.definitions, d.nameColumn.slice source.toList = d.name.toList) ∧
    (∀ e, ofSource? source = .error e → FirstMisfit pieces e) ∧
    ∀ c f, Compiler.compile c source = .ok f →
      (∃ s, ofSource? source = .ok s) ∧ pieces = source.toList.splitOn ';' := by
  have hcut := cut_pieces 0 source.toList
  refine ⟨_, hcut, fun others h => h.eq_pieces, hcut.intercalate_eq, fun s hs => ⟨?_, ?_, ?_⟩,
    fun e => firstMisfit_of_ofSource?, fun c f hf => ⟨?_, ?_⟩⟩
  · obtain ⟨raws, hraws, hrestore⟩ := restore_of_ofPieces? hs
    exact ⟨raws, hraws, hrestore.symm⟩
  · obtain ⟨hdefinitions, hmain⟩ := (written_of_ofSource? hs).standsIn
    intro i t ht
    refine ⟨by simpa using stop_of_ofPieces? hs ht, ?_⟩
    rcases mem_segments.mp (List.mem_of_getElem? ht) with ⟨d, hd, rfl⟩ | rfl
    · exact (hdefinitions d hd).slice_text
    · exact hmain.slice_text
  · exact fun d hd => ((written_of_ofSource? hs).namedIn d hd).slice_eq
  · obtain ⟨s, hs, -⟩ := Compiler.segments_of_compile hf
    exact ⟨s, hs⟩
  · have hsplit := List.splitOn_intercalate ';' (Compiler.pieces_of_compile hf hcut)
      (List.cons_ne_nil _ _)
    rw [← hsplit, hcut.intercalate_eq]

end Script
end FormulaMachine
