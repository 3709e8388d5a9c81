import ContentLang.Proofs.Grammar.Blame
import ContentLang.Proofs.Lexing.Pieces
import Mathlib.Data.List.Chain

/-!
# Tokens tile their text

Where the tokens of a text stand. Each stands on a stretch of its own and says where that begins
and how long it is; the stretches are in order, and between them there is nothing but blanks and
comments (`ContentLang.Tiles`). What is reported concerns a stretch of the text, too: a piece that
was not closed, or the stretch of a token (`ContentLang.tokens_tile`).

A symbol is a token at once, but a run of content is not: more content can come, and then the gap
between the two becomes a part of the token, or a symbol, and then the gap is left out. So while the
pieces are read the last of them are held back (`ContentLang.Piece.Held`): a run with the gap behind
it, or a gap alone. Only when the run is complete it is known on which of them its token stands
(`ContentLang.Piece.Held.tiling`).

Offsets, lines and columns are counted along with the pieces. That they are the numbers of
characters and newlines in front of a token (`ContentLang.locationAt`) is a fact about places alone.
-/

namespace ContentLang

/-! ### Places -/

/-- The location of what has so many characters of a text before it. -/
def locationAt (file : String) (text : List Char) (n : Nat) : Location :=
  ⟨file, (text.take n).count '\n' + 1, ((text.take n).reverse.takeWhile (· ≠ '\n')).length + 1⟩

theorem Place.start_after_reverse (cs : List Char) : Place.start.after cs.reverse =
    ⟨cs.length, cs.count '\n' + 1, (cs.takeWhile (· ≠ '\n')).length + 1⟩ := by
  induction cs with
  | nil => rfl
  | cons c cs ih =>
    rw [List.reverse_cons, Place.after_append, ih]
    by_cases hc : c = '\n'
    · simp [Place.after, Place.next, hc]
    · simp [Place.after, Place.next, hc]

/-- The place after some characters has so many before it. -/
theorem Place.offset_start_after (cs : List Char) : (Place.start.after cs).offset = cs.length := by
  have h := Place.start_after_reverse cs.reverse
  rw [List.reverse_reverse] at h
  rw [h, List.length_reverse]

theorem Place.location_start_after (file : String) (cs ds : List Char) :
    (Place.start.after cs).location file = locationAt file (cs ++ ds) cs.length := by
  have h := Place.start_after_reverse cs.reverse
  rw [List.reverse_reverse] at h
  simp [h, Place.location, locationAt]

example : locationAt "f" "ab\ncd".toList 4 = ⟨"f", 2, 2⟩ := by decide

/-! ### Tilings -/

/-- A token, and the offset of its first character. -/
structure Placed where
  start : Nat
  token : Token

/-- The offset after the last character of a token. -/
def Placed.stop (s : Placed) : Nat := s.start + s.token.origin.length

namespace Piece

/-- The place behind a piece is that behind all pieces up to it. -/
theorem after_textOfAll (before : List Piece) (piece : Piece) :
    (Place.start.after (textOfAll before)).after piece.text =
      Place.start.after (textOfAll (before ++ [piece])) := by
  simp [Place.after_append]

/-- Whether a piece is no part of a token by itself. -/
def IsGap (piece : Piece) : Prop :=
  piece.isComment = true ∨ ∃ c, piece = blank c ∧ isBlank c = true

/-- **Whether tokens stand on some pieces** that others were read before: a token stands on one or
more, and between tokens there are gaps alone. -/
inductive Tiling (file : String) : List Piece → List Piece → List Placed → Prop
  | done (before : List Piece) : Tiling file before [] []
  | gap {before after : List Piece} {spans : List Placed} (piece : Piece) (hp : piece.IsGap)
      (tail : Tiling file (before ++ [piece]) after spans) :
      Tiling file before (piece :: after) spans
  | token {before after : List Piece} {spans : List Placed} (t : Token) (w : List Piece)
      (hw : textOfAll w ≠ [])
      (ht : t.origin = .written ((Place.start.after (textOfAll before)).location file)
        (textOfAll w).length)
      (hsymbol : t.isContent = false → ∃ c, textOfAll w = [c] ∧ t.value = String.singleton c)
      (hnext : t.isContent = true → ∀ s ∈ spans.head?, s.token.isContent = false)
      (tail : Tiling file (before ++ w) after spans) :
      Tiling file before (w ++ after) (⟨(textOfAll before).length, t⟩ :: spans)

theorem Tiling.gaps {file : String} {before gap after : List Piece} {spans : List Placed}
    (hgap : ∀ piece ∈ gap, piece.IsGap) (h : Tiling file (before ++ gap) after spans) :
    Tiling file before (gap ++ after) spans := by
  induction gap generalizing before with
  | nil => simpa using h
  | cons piece gap ih =>
    obtain ⟨hp, hgap⟩ := List.forall_mem_cons.mp hgap
    exact .gap piece hp (ih hgap (by simpa using h))

/-- **Whether an open run stands on some pieces** with gaps behind it. -/
structure Covers (run : OpenRun) (before w gap : List Piece) : Prop where
  start : run.start = Place.start.after (textOfAll before)
  stop : run.stop = (textOfAll (before ++ w)).length
  ne_nil : textOfAll w ≠ []
  gap : ∀ piece ∈ gap, piece.IsGap

/-- Whether some pieces are held back for a run that may be open. -/
def Held (before held : List Piece) : Option OpenRun → Prop
  | none => ∀ piece ∈ held, piece.IsGap
  | some run => ∃ w gap, held = w ++ gap ∧ Covers run before w gap

variable {file : String} {uniqueId : List Char} {before held : List Piece}
  {run : Option OpenRun}

theorem Covers.origin {run : OpenRun} {w gap : List Piece} (h : Covers run before w gap) :
    (run.token file).origin = .written ((Place.start.after (textOfAll before)).location file)
      (textOfAll w).length := by
  have hlength : run.stop - run.start.offset = (textOfAll w).length := by
    rw [h.start, h.stop, Place.offset_start_after]
    simp
  rw [OpenRun.token, hlength, h.start]

/-- A run that was held back is a token before what follows, unless that is content. -/
theorem Held.tiling (h : Held before held run) {after : List Piece} {spans : List Placed}
    (hnext : ∀ s ∈ spans.head?, s.token.isContent = false)
    (htail : Tiling file (before ++ held) after spans) :
    ∃ spans', spans'.map (·.token) = (run.map (OpenRun.token file)).toList ++
      spans.map (·.token) ∧ Tiling file before (held ++ after) spans' := by
  cases run with
  | none => exact ⟨spans, rfl, htail.gaps h⟩
  | some run =>
    obtain ⟨w, gap, rfl, hrun⟩ := h
    rw [← List.append_assoc] at htail
    rw [List.append_assoc]
    exact ⟨_, rfl, .token (run.token file) w hrun.ne_nil hrun.origin (fun h => by cases h)
      (fun _ => hnext) (htail.gaps hrun.gap)⟩

theorem Held.gap (h : Held before held run) {piece : Piece} (hp : piece.IsGap) :
    Held before (held ++ [piece]) run := by
  cases run with
  | none => exact List.forall_mem_append.mpr ⟨h, by simpa using hp⟩
  | some run =>
    obtain ⟨w, gap, rfl, hrun⟩ := h
    refine ⟨w, gap ++ [piece], by simp, hrun.start, hrun.stop, hrun.ne_nil, ?_⟩
    exact List.forall_mem_append.mpr ⟨hrun.gap, by simpa using hp⟩

/-- To note a blank does not move a run. -/
theorem Held.blank (h : Held before held run) (c : Char) :
    Held before held (run.map (OpenRun.blank · c)) := by
  cases run with
  | none => exact h
  | some run =>
    obtain ⟨w, gap, rfl, hrun⟩ := h
    exact ⟨w, gap, rfl, hrun.start, hrun.stop, hrun.ne_nil, hrun.gap⟩

/-! ### Tokens of pieces -/

variable (file uniqueId) in
/-- **Whether the tokens of some pieces stand on them**, with pieces before them that may be held
back for an open run. -/
def Stand (before held : List Piece) (run : Option OpenRun) (pieces : List Piece) : Prop :=
  ∃ spans, spans.map (·.token) =
      tokensFrom file uniqueId (Place.start.after (textOfAll (before ++ held))) run pieces ∧
    Tiling file before (held ++ pieces) spans

theorem Stand.gaps {gap pieces : List Piece} (hgap : ∀ piece ∈ gap, piece.IsGap)
    (h : Stand file uniqueId (before ++ gap) held run pieces) :
    Stand file uniqueId before (gap ++ held) run pieces := by
  obtain ⟨spans, hspans, htiling⟩ := h
  refine ⟨spans, by rw [hspans, List.append_assoc], ?_⟩
  rw [List.append_assoc]
  exact htiling.gaps hgap

/-- A run of content goes on over a gap, or begins behind it. -/
theorem Held.stand_content (h : Held before held run) {piece : Piece} {pieces : List Piece}
    (hne : piece.text ≠ [])
    (ih : ∀ {before held run}, Held before held run → Stand file uniqueId before held run pieces)
    (value : String) (quoted : Bool) :
    Stand file uniqueId before (held ++ [piece])
      (some (OpenRun.join run (Place.start.after (textOfAll (before ++ held)))
        (Place.start.after (textOfAll (before ++ (held ++ [piece])))) value quoted)) pieces := by
  cases run with
  | none =>
    refine Stand.gaps h (ih ⟨[piece], [], rfl, rfl, ?_, by simpa using hne, by simp⟩)
    simp [OpenRun.join, Place.offset_start_after]
  | some run =>
    obtain ⟨w, gap, rfl, hrun⟩ := h
    refine ih ⟨w ++ gap ++ [piece], [], by simp, hrun.start, ?_, ?_, by simp⟩
    · simp [OpenRun.join, Place.offset_start_after]
    · simp [hrun.ne_nil]

/-- **The tokens of pieces stand on the pieces.** -/
theorem stand_of_held {pieces : List Piece} (hsound : ∀ piece ∈ pieces, piece.Sound)
    (h : Held before held run) : Stand file uniqueId before held run pieces := by
  -- A piece is held back, or its token ends what was: so the pieces before and held vary.
  induction pieces generalizing before held run with
  | nil =>
    have hdone : Tiling file (before ++ held) [] [] := .done _
    obtain ⟨spans, hspans, htiling⟩ := h.tiling (by simp) hdone
    exact ⟨spans, by rw [hspans, List.map_nil, List.append_nil, tokensFrom], htiling⟩
  | cons piece pieces ih =>
    obtain ⟨hp, hsound⟩ := List.forall_mem_cons.mp hsound
    have hrest {before held run} (h : Held before held run) := ih hsound h
    rw [Stand, tokensFrom.eq_def]
    simp only [after_textOfAll, List.append_assoc]
    cases piece with
    | blank c => simpa [Stand] using hrest ((h.blank c).gap (Or.inr ⟨c, rfl, hp⟩))
    | lineComment body => simpa [Stand] using hrest (h.gap (Or.inl rfl))
    | blockComment body closed => simpa [Stand] using hrest (h.gap (Or.inl rfl))
    | quoted q body closed => simpa [Stand] using h.stand_content hp.text_ne_nil hrest _ true
    | plain body => simpa [Stand] using h.stand_content hp.text_ne_nil hrest _ false
    | symbol c =>
      -- What was held back is a token, the symbol is one, and nothing is held back behind it.
      have hnone : Held (before ++ (held ++ [symbol c])) [] none := by simp [Held]
      obtain ⟨spans, hspans, htiling⟩ := hrest hnone
      have hsymbol : Tiling file (before ++ held) ([symbol c] ++ pieces) (_ :: spans) :=
        .token (.symbol c (.written
            ((Place.start.after (textOfAll (before ++ held))).location file) 1))
          [symbol c] (by simp [text]) rfl (fun _ => ⟨c, rfl, rfl⟩) (fun h => by cases h)
          (by simpa using htiling)
      obtain ⟨spans', hspans', htiling'⟩ := h.tiling (by simp [TokenOf.symbol]) hsymbol
      rw [List.append_nil] at hspans
      exact ⟨spans', by rw [hspans', List.map_cons, hspans], htiling'⟩

/-- **The tokens of a text stand on its pieces.** -/
theorem tiling_tokenize (text file uniqueId : String) : ∃ spans,
    spans.map (·.token) = (tokenize text file uniqueId).1 ∧
      Tiling file [] (split text.toList) spans :=
  stand_of_held (fun _ => sound_of_mem_split) (show Held [] [] none by simp [Held])

/-! ### Offsets -/

/-- Whether a character of a text is inside a comment. -/
def InComment (cs : List Char) (n : Nat) : Prop :=
  ∃ before piece after, split cs = before ++ piece :: after ∧ piece.isComment = true ∧
    (textOfAll before).length ≤ n ∧ n < (textOfAll before).length + piece.text.length

end Piece

/-- Whether a token stands where it says in a text. -/
structure Placed.Fits (file : String) (text : List Char) (s : Placed) : Prop where
  inside : s.start < s.stop ∧ s.stop ≤ text.length
  located : s.token.origin.location = locationAt file text s.start
  symbol : s.token.isContent = false → s.stop = s.start + 1 ∧
    text[s.start]?.map String.singleton = some s.token.value

/-- **Whether tokens tile a text**: each stands where it says, one behind the other, two of content
never next to each other, and where no token is there is a blank or a comment. -/
structure Tiles (file : String) (text : List Char) (spans : List Placed) : Prop where
  fits : ∀ s ∈ spans, s.Fits file text
  ordered : spans.Pairwise fun s s' => s.stop ≤ s'.start
  apart : spans.IsChain fun s s' => ¬ (s.token.isContent = true ∧ s'.token.isContent = true)
  between : ∀ n c, text[n]? = some c → (∀ s ∈ spans, ¬ (s.start ≤ n ∧ n < s.stop)) →
    isBlank c = true ∨ Piece.InComment text n

namespace Piece

variable {file : String} {before after : List Piece} {spans : List Placed} {cs : List Char}

theorem Tiling.fits (h : Tiling file before after spans) (hcs : cs = textOfAll (before ++ after)) :
    ∀ s ∈ spans, s.Fits file cs := by
  induction h with
  | done before => simp
  | gap piece hp tail ih => exact ih (by simpa using hcs)
  | @token before after spans t w hw ht hsymbol hnext tail ih =>
    refine List.forall_mem_cons.mpr ⟨?_, ih (by simpa using hcs)⟩
    have hlength : t.origin.length = (textOfAll w).length := congrArg OriginOf.length ht
    have hpos : 0 < (textOfAll w).length := List.length_pos_iff.mpr hw
    constructor
    · simp [Placed.stop, hlength, hcs]
      omega
    · rw [ht, hcs, textOfAll_append]
      exact Place.location_start_after file _ _
    · intro hc
      obtain ⟨c, hwc, hvalue⟩ := hsymbol hc
      simp [Placed.stop, hlength, hcs, hwc, hvalue]

/-- Tokens stand behind the pieces that were read before them. -/
theorem Tiling.start_le (h : Tiling file before after spans) :
    ∀ s ∈ spans, (textOfAll before).length ≤ s.start := by
  induction h with
  | done before => simp
  | gap piece hp tail ih =>
    intro s hs
    have := ih s hs
    simp only [textOfAll_append, List.length_append] at this
    omega
  | token t w hw ht hsymbol hnext tail ih =>
    refine List.forall_mem_cons.mpr ⟨Nat.le_refl _, fun s hs => ?_⟩
    have := ih s hs
    simp only [textOfAll_append, List.length_append] at this
    omega

theorem Tiling.ordered (h : Tiling file before after spans) :
    spans.Pairwise fun s s' => s.stop ≤ s'.start := by
  induction h with
  | done before => exact .nil
  | gap piece hp tail ih => exact ih
  | token t w hw ht hsymbol hnext tail ih =>
    refine .cons (fun s hs => ?_) ih
    have := tail.start_le s hs
    simpa [Placed.stop, ht, OriginOf.written] using this

theorem Tiling.apart (h : Tiling file before after spans) :
    spans.IsChain fun s s' => ¬ (s.token.isContent = true ∧ s'.token.isContent = true) := by
  induction h with
  | done before => exact .nil
  | gap piece hp tail ih => exact ih
  | token t w hw ht hsymbol hnext tail ih =>
    refine List.isChain_cons.mpr ⟨fun s hs hc => ?_, ih⟩
    exact absurd hc.2 (by simp [hnext hc.1 s hs])

theorem Tiling.between (h : Tiling file before after spans) (hcs : split cs = before ++ after)
    {n : Nat} {c : Char} (hn : (textOfAll before).length ≤ n) (hc : cs[n]? = some c)
    (hout : ∀ s ∈ spans, ¬ (s.start ≤ n ∧ n < s.stop)) : isBlank c = true ∨ InComment cs n := by
  have htext : textOfAll (before ++ after) = cs := by rw [← hcs]; exact flatten_split cs
  induction h with
  | done before =>
    rw [List.append_nil] at htext
    rw [htext] at hn
    exact absurd (List.getElem?_eq_none hn) (by simp [hc])
  | @gap before after spans piece hp tail ih =>
    rw [List.append_cons] at hcs
    by_cases hlater : (textOfAll (before ++ [piece])).length ≤ n
    · exact ih hcs hlater hout (by rwa [← List.append_cons])
    · have hlt : n < (textOfAll before).length + piece.text.length := by
        simpa using hlater
      rcases hp with hp | ⟨b, rfl, hb⟩
      · exact Or.inr ⟨before, piece, after, by rw [hcs, ← List.append_cons], hp, hn, hlt⟩
      · -- The piece is one character, and this is the one.
        obtain rfl : n = (textOfAll before).length := by
          simp only [text, List.length_singleton] at hlt
          omega
        rw [← htext, textOfAll_append, List.getElem?_append_right (Nat.le_refl _)] at hc
        obtain rfl : b = c := by simpa [text] using hc
        exact Or.inl hb
  | token t w hw ht hsymbol hnext tail ih =>
    obtain ⟨hself, hout⟩ := List.forall_mem_cons.mp hout
    rw [← List.append_assoc] at hcs htext
    refine ih hcs ?_ hout htext
    have hlength : t.origin.length = (textOfAll w).length := congrArg OriginOf.length ht
    simp only [Placed.stop, hlength] at hself
    simp only [textOfAll_append, List.length_append]
    omega

end Piece

/-! ### Reports -/

/-- Whether a diagnostic concerns one or more characters of a text, from its location on. -/
def Diagnostic.Within (file : String) (text : List Char) (d : Diagnostic) : Prop :=
  ∃ n, d.location = locationAt file text n ∧ 0 < d.length ∧ n + d.length ≤ text.length

/-- A report about a token concerns the stretch that the token stands on. -/
theorem Placed.Fits.within {file : String} {text : List Char} {s : Placed} (h : s.Fits file text)
    (problem : Problem) : (Diagnostic.about s.token.origin problem).Within file text := by
  obtain ⟨hpos, hlength⟩ := h.inside
  simp only [Placed.stop] at hpos hlength
  refine ⟨s.start, h.located, ?_, ?_⟩
  · simp only [Diagnostic.about]
    omega
  · simp only [Diagnostic.about]
    omega

/-- A report about a piece concerns the piece. -/
theorem Piece.within_diagnosticsFrom {file : String} {text : List Char} {after : List Piece}
    (before : List Piece) (hsound : ∀ piece ∈ after, piece.Sound)
    (htext : text = textOfAll (before ++ after)) :
    ∀ d ∈ diagnosticsFrom file (Place.start.after (textOfAll before)) after,
      d.Within file text := by
  induction after generalizing before with
  | nil => simp [diagnosticsFrom]
  | cons piece after ih =>
    obtain ⟨hp, hsound⟩ := List.forall_mem_cons.mp hsound
    rw [diagnosticsFrom, after_textOfAll]
    refine List.forall_mem_append.mpr ⟨?_, ih _ hsound (by rwa [← List.append_cons])⟩
    intro d hd
    obtain ⟨problem, -, rfl⟩ : ∃ problem, piece.problem? = some problem ∧ _ = d := by
      simpa using hd
    refine ⟨(textOfAll before).length, ?_, List.length_pos_iff.mpr hp.text_ne_nil, ?_⟩
    · rw [htext, textOfAll_append]
      exact Place.location_start_after file _ _
    · simp [htext]

/-- **Tokens tile their text**, and whatever is reported of a text concerns a stretch of it. -/
theorem tokens_tile (text file uniqueId : String) :
    (∃ spans, spans.map (·.token) = (tokenize text file uniqueId).1 ∧
      Tiles file text.toList spans) ∧
    ∀ d ∈ (parseText text file uniqueId).2, d.Within file text.toList := by
  obtain ⟨spans, hspans, htiling⟩ := Piece.tiling_tokenize text file uniqueId
  have hfits : ∀ s ∈ spans, s.Fits file text.toList :=
    htiling.fits (Piece.flatten_split _).symm
  refine ⟨⟨spans, hspans, hfits, htiling.ordered, htiling.apart, ?_⟩, ?_⟩
  · exact fun n c hc hout => htiling.between rfl (Nat.zero_le n) hc hout
  · have hreports : (parseText text file uniqueId).2 =
        (tokenize text file uniqueId).2 ++ (parse (tokenize text file uniqueId).1).2 := rfl
    rw [hreports]
    refine List.forall_mem_append.mpr ⟨?_, fun d hd => ?_⟩
    · exact Piece.within_diagnosticsFrom [] (fun _ => Piece.sound_of_mem_split)
        (Piece.flatten_split _).symm
    · obtain ⟨t, ht, hd⟩ := about_parse _ d hd
      rw [← hspans] at ht
      obtain ⟨s, hs, rfl⟩ := List.mem_map.mp ht
      rw [hd]
      exact (hfits s hs).within d.problem

end ContentLang
