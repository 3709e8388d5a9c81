import ContentLang.Proofs.Lexing.Pieces

/-!
# Comments are neutral

To take the comments out of a text changes no token but in its place
(`ContentLang.comments_neutral`). What is in front of a comment and what is behind it come together
then, and could become something else: a slash and a star a comment, a backslash and a quote an
escaped quote. They do not, because a plain run that ends before a comment ends neither in a slash
nor in a backslash that has nothing to escape.

What does happen is that two plain runs become one, `a/**/b` and `ab`. So the pieces of the text
without comments are those of the text with comments left out and plain runs joined
(`ContentLang.Piece.Rejoined`), and the value of two runs with nothing between them is that of the
joined run.
-/

namespace ContentLang

/-- **A text without its comments.** -/
def withoutComments (cs : List Char) : List Char :=
  Piece.textOfAll ((Piece.split cs).filter fun piece => !piece.isComment)

theorem withoutComments_nil : withoutComments [] = [] := by
  simp [withoutComments, Piece.split]

theorem withoutComments_cons (c : Char) (r : List Char) :
    withoutComments (c :: r) =
      (if (Piece.cut c r).1.isComment then [] else (Piece.cut c r).1.text) ++
        withoutComments (Piece.cut c r).2 := by
  rw [withoutComments, Piece.split, List.filter_cons]
  by_cases h : (Piece.cut c r).1.isComment = true
  · simp [h, withoutComments]
  · simp [h, withoutComments]

namespace Piece

/-- A comment begins with a slash. -/
theorem head?_text_of_isComment {piece : Piece} (h : piece.isComment = true) :
    piece.text.head? = some '/' := by
  cases piece with
  | lineComment body => rfl
  | blockComment body closed => rfl
  | blank c => cases h
  | symbol c => cases h
  | quoted q body closed => cases h
  | plain body => cases h

theorem head?_text_cut (c : Char) (r : List Char) : (cut c r).1.text.head? = some c := by
  obtain ⟨d, ds, h⟩ := List.exists_cons_of_ne_nil (text_cut_ne_nil c r)
  have htext := text_cut c r
  rw [h] at htext ⊢
  exact congrArg some (List.cons.inj htext).1

/-- A text without its comments may stand where the text stood. -/
theorem follows_withoutComments (cs : List Char) : Follows cs (withoutComments cs) := by
  cases cs with
  | nil => exact Or.inr (by rw [withoutComments_nil])
  | cons c r =>
    have hhead := head?_text_cut c r
    by_cases hc : (cut c r).1.isComment = true
    · rw [head?_text_of_isComment hc] at hhead
      exact Or.inl hhead.symm
    · rw [withoutComments_cons, if_neg hc]
      exact Or.inr (by simp [List.head?_append, hhead])

/-! ### Joined runs -/

/-- **Whether some pieces are others** without the comments among them, and with plain runs joined
that have come together. -/
inductive Rejoined (uniqueId : List Char) : List Piece → List Piece → Prop
  | nil : Rejoined uniqueId [] []
  | comment {piece : Piece} {ps qs : List Piece} (hc : piece.isComment = true)
      (h : Rejoined uniqueId ps qs) : Rejoined uniqueId (piece :: ps) qs
  | keep {ps qs : List Piece} (piece : Piece) (hc : piece.isComment = false)
      (h : Rejoined uniqueId ps qs) : Rejoined uniqueId (piece :: ps) (piece :: qs)
  | join {v w : List Char} {ps qs : List Piece}
      (hv : decode uniqueId (v ++ w) = decode uniqueId v ++ decode uniqueId w)
      (h : Rejoined uniqueId ps (plain w :: qs)) :
      Rejoined uniqueId (plain v :: ps) (plain (v ++ w) :: qs)

/-- A plain run that something follows does not end within an escaped character. -/
theorem decode_cutPlain_append (uniqueId : List Char) {cs : List Char} (h : (cutPlain cs).2 ≠ [])
    (x : List Char) : decode uniqueId ((cutPlain cs).1 ++ x) =
      decode uniqueId (cutPlain cs).1 ++ decode uniqueId x := by
  fun_induction cutPlain cs with
  | case1 => rfl
  | case2 c r body rest hr ih =>
    simp only [hr] at h ih
    simp [decode, ih h]
  | case3 c r hesc hc => rfl
  | case4 c r hesc hc body rest hr ih =>
    simp only [hr] at h ih
    have hne : c ≠ '\\' := by
      rintro rfl
      cases r with
      | nil => exact h (Prod.mk.inj hr).2.symm
      | cons d r => exact hesc d r rfl rfl
    by_cases hu : c = '&'
    · simp [decode, hu, ih h]
    · simp [decode, hne, hu, ih h]

/-- A plain run is joined to the one that comes to stand behind it, if there is one. -/
theorem rejoined_plain {uniqueId cs : List Char} (hne : (cutPlain cs).1 ≠ [])
    (h : Rejoined uniqueId (split (cutPlain cs).2) (split (withoutComments (cutPlain cs).2))) :
    Rejoined uniqueId (plain (cutPlain cs).1 :: split (cutPlain cs).2)
      (split ((cutPlain cs).1 ++ withoutComments (cutPlain cs).2)) := by
  have hcut := cutPlain_append (follows_withoutComments (cutPlain cs).2)
  have hsplit : split ((cutPlain cs).1 ++ withoutComments (cutPlain cs).2) =
      plain ((cutPlain cs).1 ++ (cutPlain (withoutComments (cutPlain cs).2)).1) ::
        split (cutPlain (withoutComments (cutPlain cs).2)).2 := by
    rw [split_run (by simp [hcut, hne]), hcut]
  rw [hsplit]
  by_cases hw : (cutPlain (withoutComments (cutPlain cs).2)).1 = []
  · have hrest := cutPlain_eq (withoutComments (cutPlain cs).2)
    rw [hw, List.nil_append] at hrest
    rw [hw, List.append_nil, ← hrest]
    exact h.keep _ rfl
  · -- The run behind it was read from something, and so was the run before it not the last.
    have hrest : (cutPlain cs).2 ≠ [] := by
      intro hnil
      rw [hnil, withoutComments_nil] at hw
      exact hw rfl
    rw [split_run hw] at h
    exact .join (decode_cutPlain_append uniqueId hrest _) h

/-- A run in quotes is kept as it is. -/
theorem rejoined_quoted {uniqueId : List Char} {c : Char} {r : List Char} (hq : isQuote c = true)
    (h : Rejoined uniqueId (split (cut c r).2) (split (withoutComments (cut c r).2))) :
    Rejoined uniqueId ((cut c r).1 :: split (cut c r).2)
      (split ((cut c r).1.text ++ withoutComments (cut c r).2)) := by
  rcases hcut : cutQuoted c r with ⟨body, _ | rest⟩
  · rw [cut_open hq hcut] at h ⊢
    rw [withoutComments_nil] at h ⊢
    have hsplit : split ((quoted c body false).text ++ []) = [quoted c body false] := by
      obtain rfl := cutQuoted_none hcut
      simp [text, split, cut_open hq hcut]
    rw [hsplit]
    simpa [split] using Rejoined.nil.keep (quoted c body false) rfl
  · rw [cut_closed hq hcut] at h ⊢
    have hsplit : split ((quoted c body true).text ++ withoutComments rest) =
        quoted c body true :: split (withoutComments rest) := by
      have happend := cutQuoted_append (isQuote_apart hq).2.2.2 hcut (withoutComments rest)
      simp [text, split, cut_closed hq happend]
    rw [hsplit]
    exact h.keep _ rfl

/-- **The pieces of a text without comments** are its pieces with plain runs joined. -/
theorem rejoined_split (uniqueId cs : List Char) :
    Rejoined uniqueId (split cs) (split (withoutComments cs)) := by
  induction cs using split.induct with
  | case1 => simpa [withoutComments_nil, split] using Rejoined.nil
  | case2 c r ih =>
    rw [withoutComments_cons, split]
    by_cases hcom : opensComment c r = true
    · have hpiece := cut_comment hcom
      rw [if_pos hpiece]
      exact .comment hpiece ih
    by_cases hb : isBlank c = true
    · rw [cut_blank hb] at ih ⊢
      simpa [text, isComment, split, cut_blank hb] using ih.keep (.blank c) rfl
    by_cases hs : isStructural c = true
    · rw [cut_symbol hs] at ih ⊢
      simpa [text, isComment, split, cut_symbol hs] using ih.keep (.symbol c) rfl
    by_cases hq : isQuote c = true
    · have hpiece : (cut c r).1.isComment = false := by
        refine Bool.eq_false_iff.mpr fun hc => (isQuote_apart hq).2.2.1 ?_
        exact Option.some.inj ((head?_text_cut c r).symm.trans (head?_text_of_isComment hc))
      rw [hpiece]
      exact rejoined_quoted hq ih
    · have hend : endsPlain c r = false := by simp [endsPlain, hcom, hb, hs, hq]
      rw [cut_run hend] at ih ⊢
      exact rejoined_plain (cutPlain_ne_nil hend) ih

end Piece

/-! ### Tokens without their places -/

/-- What a token says, without its place. -/
def TokenOf.spelling (t : Token) : String × Bool × Bool := (t.value, t.isContent, t.quoted)

/-- What an open run says, without its place. -/
def OpenRun.spelling (run : OpenRun) : String × Bool × String := (run.value, run.quoted, run.gap)

namespace Piece

variable {file : String} {uniqueId : List Char}

theorem spelling_token {run run' : Option OpenRun}
    (h : run.map (·.spelling) = run'.map (·.spelling)) :
    (run.map (OpenRun.token file)).toList.map (·.spelling) =
      (run'.map (OpenRun.token file)).toList.map (·.spelling) := by
  cases run <;> cases run' <;> simp_all [OpenRun.token, OpenRun.spelling, TokenOf.spelling]

theorem spelling_blank {run run' : Option OpenRun}
    (h : run.map (·.spelling) = run'.map (·.spelling)) (c : Char) :
    (run.map (OpenRun.blank · c)).map (·.spelling) =
      (run'.map (OpenRun.blank · c)).map (·.spelling) := by
  cases run <;> cases run' <;> simp_all [OpenRun.blank, OpenRun.spelling]

theorem spelling_join {run run' : Option OpenRun}
    (h : run.map (·.spelling) = run'.map (·.spelling)) (p q p' q' : Place) (value : String)
    (quoted : Bool) :
    (OpenRun.join run p q value quoted).spelling =
      (OpenRun.join run' p' q' value quoted).spelling := by
  cases run <;> cases run' <;> simp_all [OpenRun.join, OpenRun.spelling]

/-- **What tokens say does not depend on where they stand.** -/
theorem spelling_tokensFrom (pieces : List Piece) (p p' : Place) {run run' : Option OpenRun}
    (h : run.map (·.spelling) = run'.map (·.spelling)) :
    (tokensFrom file uniqueId p run pieces).map (·.spelling) =
      (tokensFrom file uniqueId p' run' pieces).map (·.spelling) := by
  induction pieces generalizing p p' run run' with
  | nil => exact spelling_token h
  | cons piece pieces ih =>
    cases piece with
    | blank c => exact ih _ _ (spelling_blank h c)
    | lineComment body => exact ih _ _ h
    | blockComment body closed => exact ih _ _ h
    | symbol c =>
      have hrest := ih (p.after (symbol c).text) (p'.after (symbol c).text)
        (rfl : Option.map OpenRun.spelling none = Option.map OpenRun.spelling none)
      simp only [tokensFrom, List.map_append, List.map_cons]
      rw [spelling_token h, hrest]
      rfl
    | quoted q body closed => exact ih _ _ (congrArg some (spelling_join h _ _ _ _ _ _))
    | plain body => exact ih _ _ (congrArg some (spelling_join h _ _ _ _ _ _))

theorem tokensFrom_comment {piece : Piece} (h : piece.isComment = true) (p : Place)
    (run : Option OpenRun) (pieces : List Piece) :
    tokensFrom file uniqueId p run (piece :: pieces) =
      tokensFrom file uniqueId (p.after piece.text) run pieces := by
  cases piece <;> first | rfl | cases h

variable (file uniqueId) in
/-- A piece gives some tokens and leaves a run open or not, whatever follows. -/
theorem tokensFrom_cons (piece : Piece) (p : Place) (run : Option OpenRun) :
    ∃ ts run', ∀ pieces, tokensFrom file uniqueId p run (piece :: pieces) =
      ts ++ tokensFrom file uniqueId (p.after piece.text) run' pieces := by
  cases piece with
  | blank c => exact ⟨[], _, fun _ => rfl⟩
  | lineComment body => exact ⟨[], _, fun _ => rfl⟩
  | blockComment body closed => exact ⟨[], _, fun _ => rfl⟩
  | symbol c =>
    refine ⟨(run.map (OpenRun.token file)).toList ++ [.symbol c (.written (p.location file) 1)],
      none, fun pieces => ?_⟩
    rw [tokensFrom, List.append_assoc]
    rfl
  | quoted q body closed => exact ⟨[], _, fun _ => rfl⟩
  | plain body => exact ⟨[], _, fun _ => rfl⟩

/-- Two runs with nothing between them say what the joined run says. -/
theorem spelling_join_append {v w : List Char}
    (hv : decode uniqueId (v ++ w) = decode uniqueId v ++ decode uniqueId w)
    (run : Option OpenRun) (p q p' q' p'' q'' : Place) :
    (OpenRun.join run p q (String.ofList (decode uniqueId (v ++ w))) false).spelling =
      (OpenRun.join (some (.join run p' q' (String.ofList (decode uniqueId v)) false)) p'' q''
        (String.ofList (decode uniqueId w)) false).spelling := by
  cases run <;> simp [OpenRun.join, OpenRun.spelling, hv, String.append_assoc]

/-- **Pieces that are others with runs joined** say the same. -/
theorem Rejoined.spelling {ps qs : List Piece} (h : Rejoined uniqueId ps qs) (p : Place)
    (run : Option OpenRun) : (tokensFrom file uniqueId p run qs).map (·.spelling) =
      (tokensFrom file uniqueId p run ps).map (·.spelling) := by
  induction h generalizing p run with
  | nil => rfl
  | comment hc h ih =>
    rw [tokensFrom_comment hc, ← ih]
    exact spelling_tokensFrom _ _ _ rfl
  | keep piece hc h ih =>
    obtain ⟨ts, run', hstep⟩ := tokensFrom_cons file uniqueId piece p run
    rw [hstep, hstep, List.map_append, List.map_append, ih]
  | join hv h ih =>
    -- The run is joined in one step or in two.
    rw [tokensFrom, tokensFrom, ← ih, tokensFrom]
    exact spelling_tokensFrom _ _ _ (congrArg some (spelling_join_append hv _ _ _ _ _ _ _))

/-! ### Reports -/

theorem problems_diagnosticsFrom (pieces : List Piece) (p : Place) :
    (diagnosticsFrom file p pieces).map (·.problem) = pieces.filterMap problem? := by
  induction pieces generalizing p with
  | nil => rfl
  | cons piece pieces ih =>
    rw [diagnosticsFrom, List.map_append, ih, List.filterMap_cons]
    cases piece.problem? <;> rfl

/-- A comment is reported if it was not closed, and nothing else is reported as such. -/
theorem problem?_of_isComment {piece : Piece} (h : piece.isComment = true) :
    piece.problem? = none ∨ piece.problem? = some .unterminatedComment := by
  cases piece with
  | lineComment body => exact Or.inl rfl
  | blockComment body closed =>
    cases closed with
    | false => exact Or.inr rfl
    | true => exact Or.inl rfl
  | blank c => cases h
  | symbol c => cases h
  | quoted q body closed => cases h
  | plain body => cases h

theorem problem?_of_not_isComment {piece : Piece} (h : piece.isComment = false) :
    piece.problem? ≠ some .unterminatedComment := by
  cases piece with
  | quoted q body closed => cases closed <;> simp [problem?]
  | lineComment body => cases h
  | blockComment body closed => cases h
  | blank c => simp [problem?]
  | symbol c => simp [problem?]
  | plain body => simp [problem?]

/-- Only comments that were not closed are no longer reported. -/
theorem Rejoined.problems {ps qs : List Piece} (h : Rejoined uniqueId ps qs) :
    qs.filterMap problem? = (ps.filterMap problem?).filter (· ≠ .unterminatedComment) := by
  induction h with
  | nil => rfl
  | comment hc h ih =>
    rw [ih]
    rcases problem?_of_isComment hc with hp | hp <;> simp [hp]
  | keep piece hc h ih =>
    have hne := problem?_of_not_isComment hc
    rw [List.filterMap_cons, List.filterMap_cons, ih]
    cases hp : piece.problem? with
    | none => rfl
    | some problem =>
      rw [hp] at hne
      exact (List.filter_cons_of_pos (by simpa using hne)).symm
  | join hv h ih => exact ih

end Piece

/-- **Comments are neutral**: a text without its comments has the same tokens, but for their places,
and the same reports, but for comments that were not closed. -/
theorem comments_neutral (text file uniqueId : String) :
    let bare := String.ofList (withoutComments text.toList)
    (tokenize bare file uniqueId).1.map (·.spelling) =
        (tokenize text file uniqueId).1.map (·.spelling) ∧
      (tokenize bare file uniqueId).2.map (·.problem) =
        ((tokenize text file uniqueId).2.map (·.problem)).filter (· ≠ .unterminatedComment) := by
  intro bare
  have hpieces := Piece.rejoined_split uniqueId.toList text.toList
  have hbare : Piece.split bare.toList = Piece.split (withoutComments text.toList) := by
    rw [String.toList_ofList]
  constructor
  · simp only [tokenize, Piece.tokens, hbare]
    exact hpieces.spelling _ _
  · simp only [tokenize, Piece.diagnostics, hbare, Piece.problems_diagnosticsFrom]
    exact hpieces.problems

-- What stands in quotes is no comment, nor is a slash after one that is escaped.
example : withoutComments "a/**/b \"//\" \\// c // d\ne".toList =
    "ab \"//\" \\// c \ne".toList := by
  cbv

end ContentLang
