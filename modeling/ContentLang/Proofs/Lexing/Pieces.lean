import ContentLang.Proofs.Printing.Content

/-!
# Pieces and what follows them

Which piece stands at the front of a text depends on the characters after it. For each kind of
piece this file says on which ones: a blank or a symbol stands whatever follows, a run in quotes
that was closed too, and a plain run goes on into what follows as if nothing had been before it
(`ContentLang.Piece.cutPlain_append`), unless a slash at its end makes a comment with what is new.
The last is excluded by a condition on the first character alone (`ContentLang.Piece.Follows`).
-/

namespace ContentLang

namespace Piece

/-- Whether a piece is a comment. -/
def isComment : Piece → Bool
  | lineComment _ | blockComment .. => true
  | _ => false

/-- The characters of some pieces. -/
def textOfAll (pieces : List Piece) : List Char := (pieces.map text).flatten

@[simp] theorem textOfAll_nil : textOfAll [] = [] := rfl

@[simp] theorem textOfAll_cons (piece : Piece) (pieces : List Piece) :
    textOfAll (piece :: pieces) = piece.text ++ textOfAll pieces := rfl

@[simp] theorem textOfAll_append (ps qs : List Piece) :
    textOfAll (ps ++ qs) = textOfAll ps ++ textOfAll qs := by
  simp [textOfAll]

/-- Whether a piece is one that a text can have: a blank is a blank character, and a run is not
empty. -/
def Sound : Piece → Prop
  | blank c => isBlank c = true
  | plain body => body ≠ []
  | _ => True

theorem Sound.text_ne_nil {piece : Piece} (h : piece.Sound) : piece.text ≠ [] := by
  cases piece with
  | plain body => exact h
  | blank c => simp [text]
  | lineComment body => simp [text]
  | blockComment body closed => simp [text]
  | symbol c => simp [text]
  | quoted q body closed => simp [text]

theorem sound_cut (c : Char) (r : List Char) : (cut c r).1.Sound := by
  have hne := text_cut_ne_nil c r
  unfold cut at hne ⊢
  split
  · assumption
  split
  · trivial
  split
  · split <;> trivial
  split
  · trivial
  split
  · split <;> trivial
  · simp_all [Sound, text]

theorem sound_of_mem_split {cs : List Char} {piece : Piece} (h : piece ∈ split cs) :
    piece.Sound := by
  induction cs using split.induct with
  | case1 => simp [split] at h
  | case2 c r ih =>
    rw [split, List.mem_cons] at h
    rcases h with rfl | h
    · exact sound_cut c r
    · exact ih h

/-! ### The kinds of pieces -/

/-- A quote has no other rôle. -/
theorem isQuote_apart {c : Char} (h : isQuote c = true) :
    isBlank c = false ∧ isStructural c = false ∧ c ≠ '/' ∧ c ≠ '\\' := by
  have hc : c = '"' ∨ c = '\'' := by simpa [isQuote] using h
  rcases hc with rfl | rfl <;> decide

theorem cut_comment {c : Char} {r : List Char} (h : opensComment c r = true) :
    (cut c r).1.isComment = true := by
  have hc : c = '/' ∧ (r.head? = some '/' ∨ r.head? = some '*') := by
    simpa [opensComment] using h
  obtain ⟨rfl, hr⟩ := hc
  rw [cut, if_neg (by decide)]
  split
  · rfl
  · rename_i hl
    rw [if_pos ⟨rfl, hr.resolve_left fun h => hl ⟨rfl, h⟩⟩]
    split <;> rfl

theorem cut_closed {c : Char} {r body rest : List Char} (h : isQuote c = true)
    (hr : cutQuoted c r = (body, some rest)) : cut c r = (quoted c body true, rest) := by
  obtain ⟨hb, hs, hne, -⟩ := isQuote_apart h
  simp [cut, hb, hs, h, hne, hr]

theorem cut_open {c : Char} {r body : List Char} (h : isQuote c = true)
    (hr : cutQuoted c r = (body, none)) : cut c r = (quoted c body false, []) := by
  obtain ⟨hb, hs, hne, -⟩ := isQuote_apart h
  simp [cut, hb, hs, h, hne, hr]

theorem cut_run {c : Char} {r : List Char} (h : endsPlain c r = false) :
    cut c r = (plain (cutPlain (c :: r)).1, (cutPlain (c :: r)).2) := by
  simp only [endsPlain, Bool.or_eq_false_iff] at h
  obtain ⟨⟨⟨hb, hs⟩, hq⟩, hc⟩ := h
  have hl : ¬ (c = '/' ∧ r.head? = some '/') := by
    rintro ⟨rfl, hr⟩
    simp [opensComment, hr] at hc
  have hst : ¬ (c = '/' ∧ r.head? = some '*') := by
    rintro ⟨rfl, hr⟩
    simp [opensComment, hr] at hc
  rw [cut, if_neg (by simp [hb]), if_neg hl, if_neg hst, if_neg (by simp [hs]),
    if_neg (by simp [hq])]

theorem endsPlain_backslash (r : List Char) : endsPlain '\\' r = false := rfl

/-- What a plain run takes, if anything, is a piece. -/
theorem split_run {cs : List Char} (h : (cutPlain cs).1 ≠ []) :
    split cs = plain (cutPlain cs).1 :: split (cutPlain cs).2 := by
  cases cs with
  | nil => exact absurd rfl h
  | cons c r =>
    cases hc : endsPlain c r with
    | false => rw [split, cut_run hc]
    | true =>
      have hne : c ≠ '\\' := by
        rintro rfl
        exact Bool.false_ne_true ((endsPlain_backslash r).symm.trans hc)
      exact absurd (by simp [cutPlain, hne, hc]) h

/-! ### Runs and what follows them -/

/-- A run in quotes that was closed is closed, whatever follows. -/
theorem cutQuoted_append {q : Char} (hq : q ≠ '\\') {cs body rest : List Char}
    (h : cutQuoted q cs = (body, some rest)) (x : List Char) :
    cutQuoted q (body ++ q :: x) = (body, some x) := by
  fun_induction cutQuoted q cs generalizing body with
  | case1 => simp at h
  | case2 c r body' rest' hr ih =>
    obtain ⟨rfl, rfl⟩ := Prod.mk.inj h
    simp [cutQuoted, ih hr]
  | case3 r =>
    obtain ⟨rfl, -⟩ := Prod.mk.inj h
    simp [cutQuoted, hq]
  | case4 c r hesc hc body' rest' hr ih =>
    obtain ⟨rfl, rfl⟩ := Prod.mk.inj h
    -- A backslash with nothing after it leaves the run open.
    have hne : c ≠ '\\' := by
      rintro rfl
      cases r with
      | nil => simp [cutQuoted] at hr
      | cons d r => exact hesc d r rfl rfl
    simp [cutQuoted, hne, hc, ih hr]

/-- A quote that was not closed takes all that is left. -/
theorem cutQuoted_none {q : Char} {cs body : List Char} (h : cutQuoted q cs = (body, none)) :
    body = cs := by
  have := cutQuoted_eq q cs
  simpa [h] using this.symm

/-- Whether a text `x` may stand where `rest` stood, behind a plain run that ended there: it begins
in the same way, or the run ended for a comment. -/
def Follows (rest x : List Char) : Prop := rest.head? = some '/' ∨ x.head? = rest.head?

/-- Whether a run ends is seen on the next two characters. -/
theorem endsPlain_congr {c : Char} {r r' : List Char} (h : r.head? = r'.head?) :
    endsPlain c r = endsPlain c r' := by
  simp [endsPlain, opensComment, h]

/-- A run does not end earlier for what follows it. -/
theorem endsPlain_append {c : Char} {body rest x : List Char} (h : Follows rest x)
    (hc : endsPlain c (body ++ rest) = false) : endsPlain c (body ++ x) = false := by
  cases body with
  | cons d body =>
    have hhead : (d :: body ++ x).head? = (d :: body ++ rest).head? := rfl
    rwa [endsPlain_congr hhead]
  | nil =>
    rcases h with h | h
    -- A slash before the comment would have been the first of it.
    · have hne : c ≠ '/' := by
        rintro rfl
        simp [endsPlain, opensComment, h] at hc
      simpa [endsPlain, opensComment, hne] using hc
    · rwa [List.nil_append, endsPlain_congr h]

/-- **A plain run goes on into what follows** as if nothing had been before it. -/
theorem cutPlain_append {cs x : List Char} (h : Follows (cutPlain cs).2 x) :
    cutPlain ((cutPlain cs).1 ++ x) = ((cutPlain cs).1 ++ (cutPlain x).1, (cutPlain x).2) := by
  fun_induction cutPlain cs with
  | case1 => rfl
  | case2 c r body rest hr ih =>
    simp only [hr] at h ih
    simp [cutPlain, ih h]
  | case3 c r hesc hc => rfl
  | case4 c r hesc hc body rest hr ih =>
    simp only [hr] at h ih
    have hsplit : r = body ++ rest := by simpa [hr] using cutPlain_eq r
    by_cases hne : c = '\\'
    -- A backslash with nothing after it ends the text.
    · obtain rfl : r = [] := by
        cases r with
        | nil => rfl
        | cons d r => exact absurd rfl (hesc d r hne)
      obtain ⟨rfl, rfl⟩ := List.append_eq_nil_iff.mp hsplit.symm
      obtain rfl : x = [] := by simpa [Follows] using h
      simp [cutPlain, hc]
    · rw [hsplit, Bool.not_eq_true] at hc
      have hend := endsPlain_append h hc
      simp [cutPlain, hne, hend, ih h]

end Piece

end ContentLang
