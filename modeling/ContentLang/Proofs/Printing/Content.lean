import ContentLang.Node.Printer
import ContentLang.Tokenize

/-!
# Reading written content

Content that was written is read as one token, with its own value
(`ContentLang.Written.of_content`). How a text is cut depends on what follows it, so the
statements are about a text with more text behind it: `ContentLang.Written` says that the
first stretch gives some tokens and no report, and that the rest is read as if nothing had
been before it. Stretches that are written one after the other are read one after the other
(`ContentLang.Written.append`).

Content ends where a structural symbol comes, with or without blanks before it
(`ContentLang.Stops`). What stands between two words of one value is kept as the blanks
that it was, which is why a value without quotes can hold blanks.
-/

namespace ContentLang

/-! ### Special characters -/

/-- No structural symbol is a blank. -/
theorem isBlank_of_isStructural {c : Char} (h : isStructural c = true) : isBlank c = false := by
  have hall : structuralSymbols.all (fun c => !isBlank c) = true := by decide
  have hc : c ∈ structuralSymbols := by simpa [isStructural] using h
  simpa using List.all_eq_true.mp hall c hc

/-- No structural symbol is a slash. -/
theorem ne_slash_of_isStructural {c : Char} (h : isStructural c = true) : c ≠ '/' := by
  rintro rfl
  exact absurd h (by decide)

/-- Whether content ends at once where some characters follow. -/
def Stops : List Char → Prop
  | [] => True
  | c :: r => isStructural c = true ∨ (isBlank c = true ∧ Stops r)

theorem stops_of_isStructural {c : Char} (h : isStructural c = true) (r : List Char) :
    Stops (c :: r) := Or.inl h

/-- A text in which content ends begins with no comment. -/
theorem Stops.head? {r : List Char} (h : Stops r) : r.head? ≠ some '/' ∧ r.head? ≠ some '*' := by
  cases r with
  | nil => simp
  | cons c r =>
    rcases h with h | ⟨h, -⟩
    · constructor <;> rintro ⟨⟩ <;> exact absurd h (by decide)
    · constructor <;> rintro ⟨⟩ <;> exact absurd h (by decide)

/-! ### Plain content -/

/-- Whether a text holds nothing that content would have to be quoted for, but for blanks
at its ends. -/
def Plain (cs : List Char) : Prop :=
  (∀ c ∈ cs, isSpecial c = false) ∧ hasPair '/' '/' cs = false ∧ hasPair '/' '*' cs = false

theorem Plain.of_cons {c : Char} {cs : List Char} (h : Plain (c :: cs)) : Plain cs := by
  obtain ⟨hs, hl, hb⟩ := h
  refine ⟨fun d hd => hs d (List.mem_cons_of_mem c hd), ?_, ?_⟩
  · cases cs with
    | nil => rfl
    | cons d cs => exact (Bool.or_eq_false_iff.mp hl).2
  · cases cs with
    | nil => rfl
    | cons d cs => exact (Bool.or_eq_false_iff.mp hb).2

theorem Plain.of_append {cs ds : List Char} (h : Plain (cs ++ ds)) : Plain ds := by
  induction cs with
  | nil => exact h
  | cons c cs ih => exact ih h.of_cons

/-- No comment begins in plain content, nor where it ends. -/
theorem Plain.opensComment {c : Char} {cs r : List Char} (h : Plain (c :: cs)) (hr : Stops r) :
    Piece.opensComment c (cs ++ r) = false := by
  by_cases hc : c = '/'
  · subst hc
    cases cs with
    | nil => simp [Piece.opensComment, hr.head?]
    | cons d cs =>
      obtain ⟨-, hl, hb⟩ := h
      simp only [hasPair, beq_self_eq_true, Bool.true_and, Bool.or_eq_false_iff,
        beq_eq_false_iff_ne] at hl hb
      simp [Piece.opensComment, hl.1, hb.1]
  · simp [Piece.opensComment, hc]

theorem Plain.head {c : Char} {cs : List Char} (h : Plain (c :: cs)) :
    isStructural c = false ∧ isQuote c = false ∧ c ≠ '\\' := by
  have hc := h.1 c (List.mem_cons_self ..)
  simp only [isSpecial, Bool.or_eq_false_iff, beq_eq_false_iff_ne] at hc
  exact ⟨hc.1.1.1, hc.1.1.2, hc.1.2⟩

/-- Content without quotes is plain, and neither empty nor with a blank at an end. -/
theorem plain_of_needsQuotes {cs : List Char} (h : needsQuotes cs = false) :
    Plain cs ∧ (∃ c ds, cs = c :: ds ∧ isBlank c = false) ∧
      (cs.getLast?.map isBlank).getD false = false := by
  simp only [needsQuotes, Bool.or_eq_false_iff] at h
  obtain ⟨⟨⟨⟨⟨hne, hfirst⟩, hlast⟩, hl⟩, hb⟩, hs⟩ := h
  refine ⟨⟨by simpa using hs, hl, hb⟩, ?_, hlast⟩
  cases cs with
  | nil => exact absurd hne (by decide)
  | cons c ds => exact ⟨c, ds, rfl, hfirst⟩

/-! ### Escaped content -/

/-- A text as it stands between double quotes. -/
def escaped (cs : List Char) : List Char :=
  cs.flatMap fun c => if isEscaped c then ['\\', c] else [c]

theorem writeQuoted_eq (cs : List Char) : writeQuoted cs = '"' :: (escaped cs ++ ['"']) := rfl

/-! ### Pieces at the front of a text -/

namespace Piece

theorem cut_blank {c : Char} (h : isBlank c = true) (r : List Char) :
    cut c r = (blank c, r) := by
  simp [cut, h]

theorem cut_symbol {c : Char} (h : isStructural c = true) (r : List Char) :
    cut c r = (symbol c, r) := by
  simp [cut, h, isBlank_of_isStructural h, ne_slash_of_isStructural h]

/-- A plain run takes the first word of plain content. -/
theorem cutPlain_word {cs r : List Char} (h : Plain cs) (hr : Stops r) :
    cutPlain (cs ++ r) =
      (cs.takeWhile (fun c => !isBlank c), cs.dropWhile (fun c => !isBlank c) ++ r) := by
  induction cs with
  | nil =>
    cases r with
    | nil => rfl
    | cons c r =>
      have hne : c ≠ '\\' := by
        rintro rfl
        rcases hr with hr | ⟨hr, -⟩ <;> exact absurd hr (by decide)
      -- What follows is a symbol or a blank, and ends the run.
      have hend : endsPlain c r = true := by
        rcases hr with hr | ⟨hr, -⟩ <;> simp [endsPlain, hr]
      simp [cutPlain, hne, hend]
  | cons c cs ih =>
    obtain ⟨hs, hq, hne⟩ := h.head
    have hend : endsPlain c (cs ++ r) = isBlank c := by
      simp [endsPlain, hs, hq, h.opensComment hr]
    by_cases hb : isBlank c = true
    · simp [cutPlain, hne, hend, hb]
    · simp [cutPlain, hne, hend, hb, ih h.of_cons]

/-- The piece at the front of plain content is its first word. -/
theorem cut_plain {c : Char} {cs r : List Char} (h : Plain (c :: cs)) (hb : isBlank c = false)
    (hr : Stops r) :
    cut c (cs ++ r) = (plain (c :: cs.takeWhile fun c => !isBlank c),
      cs.dropWhile (fun c => !isBlank c) ++ r) := by
  obtain ⟨hs, hq, -⟩ := h.head
  have hcom := h.opensComment hr
  simp only [opensComment, Bool.and_eq_false_iff, Bool.or_eq_false_iff, beq_eq_false_iff_ne]
    at hcom
  -- No comment begins here, neither within the text nor across its end.
  have hl : ¬ (c = '/' ∧ (cs ++ r).head? = some '/') :=
    fun hl => hcom.elim (fun hne => hne hl.1) fun hne => hne.1 hl.2
  have hst : ¬ (c = '/' ∧ (cs ++ r).head? = some '*') :=
    fun hst => hcom.elim (fun hne => hne hst.1) fun hne => hne.2 hst.2
  have hword := cutPlain_word h hr
  rw [List.cons_append] at hword
  rw [cut, if_neg (by simp [hb]), if_neg hl, if_neg hst, if_neg (by simp [hs]),
    if_neg (by simp [hq]), hword]
  simp [hb]

/-- Plain content is its first word and what follows it. -/
theorem exists_word {c : Char} {cs r : List Char} (h : Plain (c :: cs)) (hb : isBlank c = false)
    (hr : Stops r) : ∃ w v, c :: cs = (c :: w) ++ v ∧
      cut c (w ++ (v ++ r)) = (plain (c :: w), v ++ r) ∧ v.length ≤ cs.length := by
  refine ⟨cs.takeWhile fun c => !isBlank c, cs.dropWhile fun c => !isBlank c, ?_, ?_, ?_⟩
  · simp
  · rw [← List.append_assoc, List.takeWhile_append_dropWhile]
    exact cut_plain h hb hr
  · exact (List.dropWhile_sublist _).length_le

/-- Nothing that stands escaped in double quotes ends them. -/
theorem cutQuoted_escaped (cs r : List Char) :
    cutQuoted '"' (escaped cs ++ '"' :: r) = (escaped cs, some r) := by
  induction cs with
  | nil => simp [escaped, cutQuoted]
  | cons c cs ih =>
    unfold escaped at ih ⊢
    by_cases hc : isEscaped c = true
    · simp [hc, cutQuoted, ih]
    · have hne : c ≠ '"' ∧ c ≠ '\\' := by
        constructor <;> rintro rfl <;> exact hc (by decide)
      simp [hc, cutQuoted, ih, hne]

theorem cut_quoted (cs r : List Char) :
    cut '"' (escaped cs ++ '"' :: r) = (quoted '"' (escaped cs) true, r) := by
  have hb : isBlank '"' = false := by decide
  have hs : isStructural '"' = false := by decide
  simp [cut, hb, hs, isQuote, cutQuoted_escaped]

end Piece

/-- **To escape a text and to decode it gives the text back**, whatever the pack is. -/
theorem decode_escaped (uniqueId cs : List Char) : decode uniqueId (escaped cs) = cs := by
  induction cs with
  | nil => rfl
  | cons c cs ih =>
    unfold escaped at ih ⊢
    by_cases hc : isEscaped c = true
    · simp [hc, decode, ih]
    -- A backslash or a `&` would have been escaped.
    · have hne : c ≠ '\\' ∧ c ≠ '&' := by
        constructor <;> rintro rfl <;> exact hc (by decide)
      simp [hc, decode, ih, hne]

/-- A text without backslashes and `&` is its own value. -/
theorem decode_plain (uniqueId : List Char) {cs : List Char}
    (h : ∀ c ∈ cs, isSpecial c = false) : decode uniqueId cs = cs := by
  induction cs with
  | nil => rfl
  | cons c cs ih =>
    have hc := h c (List.mem_cons_self ..)
    have hne : c ≠ '\\' ∧ c ≠ '&' := by
      constructor <;> rintro rfl <;> exact absurd hc (by decide)
    have hcs := ih fun d hd => h d (List.mem_cons_of_mem c hd)
    simp [decode, hne, hcs]

/-! ### Stretches of a text -/

theorem Place.after_append (p : Place) (cs ds : List Char) :
    p.after (cs ++ ds) = (p.after cs).after ds := List.foldl_append ..

/-- **Whether a stretch of a text is read as some tokens**, after content that may still be
open: it gives these tokens and no report, and what follows is read as if nothing had been
before it. -/
structure Written (file : String) (uniqueId : List Char) (p : Place) (run : Option OpenRun)
    (w : List Char) (ts : List Token) (r : List Char) : Prop where
  tokens : Piece.tokensFrom file uniqueId p run (Piece.split (w ++ r)) =
    ts ++ Piece.tokensFrom file uniqueId (p.after w) none (Piece.split r)
  clean : Piece.diagnosticsFrom file p (Piece.split (w ++ r)) =
    Piece.diagnosticsFrom file (p.after w) (Piece.split r)

namespace Written

variable {file : String} {uniqueId : List Char} {p : Place} {run : Option OpenRun}
  {r : List Char}

theorem nil : Written file uniqueId p none [] [] r := ⟨rfl, rfl⟩

theorem append {w w' : List Char} {ts ts' : List Token}
    (h : Written file uniqueId p run w ts (w' ++ r))
    (h' : Written file uniqueId (p.after w) none w' ts' r) :
    Written file uniqueId p run (w ++ w') (ts ++ ts') r where
  tokens := by
    rw [List.append_assoc, h.tokens, h'.tokens, Place.after_append, List.append_assoc]
  clean := by rw [List.append_assoc, h.clean, h'.clean, Place.after_append]

variable (file) (uniqueId) in
/-- A structural symbol is a token of its own. -/
theorem symbol {c : Char} (h : isStructural c = true) (p : Place) (r : List Char) :
    ∃ t : Token, t.isSymbol c = true ∧ t.quoted = false ∧
      Written file uniqueId p none [c] [t] r := by
  refine ⟨.symbol c (.written (p.location file) 1), ?_, rfl, ?_, ?_⟩
  · simp [TokenOf.symbol, TokenOf.isSymbol]
  · rw [List.singleton_append, Piece.split, Piece.cut_symbol h]
    rfl
  · rw [List.singleton_append, Piece.split, Piece.cut_symbol h]
    rfl

/-- Blanks are no tokens. -/
theorem blanks {bs : List Char} (h : ∀ b ∈ bs, isBlank b = true) :
    Written file uniqueId p none bs [] r := by
  induction bs generalizing p with
  | nil => exact nil
  | cons b bs ih =>
    have hb := h b (List.mem_cons_self ..)
    have hstep : Written file uniqueId p none [b] [] (bs ++ r) := by
      constructor
      · rw [List.singleton_append, Piece.split, Piece.cut_blank hb]
        rfl
      · rw [List.singleton_append, Piece.split, Piece.cut_blank hb]
        rfl
    exact hstep.append (ih fun c hc => h c (List.mem_cons_of_mem b hc))

variable (file) (uniqueId) in
/-- An open run is a token where content ends. -/
theorem stopped (run : OpenRun) (h : Stops r) (p : Place) :
    Written file uniqueId p (some run) [] [run.token file] r := by
  refine ⟨?_, rfl⟩
  induction r generalizing p run with
  | nil =>
    rw [List.nil_append, Piece.split]
    rfl
  | cons c r ih =>
    rw [List.nil_append, Piece.split]
    rcases h with hc | ⟨hc, hr⟩
    · rw [Piece.cut_symbol hc]
      rfl
    · rw [Piece.cut_blank hc]
      exact ih (run.blank c) hr _

end Written

/-! ### Words -/

/-- The value of a run, with more content after the blanks since. -/
def OpenRun.continued (run : OpenRun) (cs : List Char) : String :=
  if cs = [] then run.value else run.value ++ run.gap ++ String.ofList cs

/-- A blank between words belongs to the value. -/
theorem OpenRun.continued_blank (run : OpenRun) (c : Char) {cs : List Char} (h : cs ≠ []) :
    (run.blank c).continued cs = run.continued (c :: cs) := by
  apply String.toList_injective
  simp [OpenRun.continued, OpenRun.blank, h]

/-- The words of a value are joined. -/
theorem OpenRun.continued_join (run : OpenRun) (start stop : Place) {w v : List Char}
    (h : w ≠ []) :
    (OpenRun.join (some run) start stop (String.ofList w) false).continued v =
      run.continued (w ++ v) := by
  apply String.toList_injective
  by_cases hv : v = []
  · simp [OpenRun.continued, OpenRun.join, h, hv]
  · simp [OpenRun.continued, OpenRun.join, h, hv]

namespace Written

variable (file : String) (uniqueId : List Char)

/-- The words of a plain value, after a run that is still open. -/
theorem words (run : OpenRun) (cs : List Char) {r : List Char} (h : Plain cs)
    (hlast : (cs.getLast?.map isBlank).getD false = false) (hr : Stops r) (p : Place) :
    ∃ o : Origin,
      Written file uniqueId p (some run) cs [⟨run.continued cs, true, run.quoted, o⟩] r := by
  match cs with
  | [] => exact ⟨_, stopped file uniqueId run hr p⟩
  | c :: cs =>
    by_cases hb : isBlank c = true
    -- A blank belongs to the value only with a word after it, which the last character is.
    · have hne : cs ≠ [] := by
        rintro rfl
        simp [hb] at hlast
      have hlast' : (cs.getLast?.map isBlank).getD false = false := by
        rwa [List.getLast?_cons_of_ne_nil hne] at hlast
      obtain ⟨o, ho⟩ := words (run.blank c) cs h.of_cons hlast' hr (p.next c)
      refine ⟨o, ?_, ?_⟩
      · rw [List.cons_append, Piece.split, Piece.cut_blank hb, ← run.continued_blank c hne]
        exact ho.tokens
      · rw [List.cons_append, Piece.split, Piece.cut_blank hb]
        exact ho.clean
    · -- The first word is a run of its own, and joined to the one before.
      obtain ⟨w, v, hwv, hcut, hlen⟩ := Piece.exists_word h (by simpa using hb) hr
      rw [hwv] at h hlast ⊢
      have hlast' : (v.getLast?.map isBlank).getD false = false := by
        cases v with
        | nil => rfl
        | cons d v => simpa [List.getLast?_append, List.getLast?_cons] using hlast
      obtain ⟨o, ho⟩ := words
        (.join (some run) p (p.after (c :: w)) (String.ofList (c :: w)) false) v h.of_append
        hlast' hr (p.after (c :: w))
      have hvalue : decode uniqueId (c :: w) = c :: w :=
        decode_plain uniqueId fun d hd => h.1 d (List.mem_append_left v hd)
      have hquoted : (OpenRun.join (some run) p (p.after (c :: w)) (String.ofList (c :: w))
          false).quoted = run.quoted := Bool.or_false _
      rw [OpenRun.continued_join run _ _ (List.cons_ne_nil c w), hquoted] at ho
      refine ⟨o, ?_, ?_⟩
      · rw [List.append_assoc, List.cons_append, Piece.split, hcut, Place.after_append]
        simp only [Piece.tokensFrom, Piece.text, hvalue]
        exact ho.tokens
      · rw [List.append_assoc, List.cons_append, Piece.split, hcut, Place.after_append]
        exact ho.clean
termination_by cs.length

/-- Content that needs no quotes is read as it stands. -/
theorem plain {cs r : List Char} (h : needsQuotes cs = false) (hr : Stops r) (p : Place) :
    ∃ o : Origin, Written file uniqueId p none cs [⟨String.ofList cs, true, false, o⟩] r := by
  obtain ⟨hp, ⟨c, ds, rfl, hb⟩, hlast⟩ := plain_of_needsQuotes h
  -- A first word is read as one that is joined to nothing.
  obtain ⟨o, ho⟩ := words file uniqueId ⟨p, 0, "", false, ""⟩ _ hp hlast hr p
  have hvalue : OpenRun.continued ⟨p, 0, "", false, ""⟩ (c :: ds) = String.ofList (c :: ds) := by
    apply String.toList_injective
    simp [OpenRun.continued]
  rw [hvalue] at ho
  refine ⟨o, ?_, ho.clean⟩
  rw [← ho.tokens]
  obtain ⟨w, v, hwv, hcut, -⟩ := Piece.exists_word hp hb hr
  rw [hwv, List.append_assoc, List.cons_append, Piece.split, hcut]
  simp only [Piece.tokensFrom, OpenRun.join]
  congr 3

/-- Content in quotes is read as what stands between them. -/
theorem quoted (cs : List Char) {r : List Char} (hr : Stops r) (p : Place) :
    ∃ o : Origin,
      Written file uniqueId p none (writeQuoted cs) [⟨String.ofList cs, true, true, o⟩] r := by
  have hsplit : Piece.split (writeQuoted cs ++ r) =
      .quoted '"' (escaped cs) true :: Piece.split r := by
    rw [writeQuoted_eq, List.cons_append, Piece.split, List.append_assoc, List.singleton_append,
      Piece.cut_quoted]
  have htext : (Piece.quoted '"' (escaped cs) true).text = writeQuoted cs := by
    simp [Piece.text, writeQuoted_eq]
  -- The quoted piece opens a run that nothing is joined to.
  let run : OpenRun := ⟨p, (p.after (writeQuoted cs)).offset, String.ofList cs, true, ""⟩
  have hrun := stopped file uniqueId run hr (p.after (writeQuoted cs))
  refine ⟨(run.token file).origin, ?_, ?_⟩
  · rw [hsplit]
    simp only [Piece.tokensFrom, htext, decode_escaped, OpenRun.join]
    exact hrun.tokens
  · rw [hsplit]
    simp only [Piece.diagnosticsFrom, htext]
    rfl

/-- **Written content is read as one token**, with its own value; it comes back quoted if it
was, or if it had to be. -/
theorem content (q : Bool) (value : String) {r : List Char} (hr : Stops r) (p : Place) :
    ∃ o : Origin, Written file uniqueId p none (writeContent q value)
      [⟨value, true, q || needsQuotes value.toList, o⟩] r := by
  by_cases hq : (q || needsQuotes value.toList) = true
  · obtain ⟨o, ho⟩ := quoted file uniqueId value.toList hr p
    refine ⟨o, ?_⟩
    rw [String.ofList_toList] at ho
    rw [writeContent, if_pos hq, hq]
    exact ho
  · have hn : needsQuotes value.toList = false := by simp_all
    obtain ⟨o, ho⟩ := plain file uniqueId hn hr p
    refine ⟨o, ?_⟩
    rw [String.ofList_toList] at ho
    rw [writeContent, if_neg hq, Bool.eq_false_iff.mpr hq]
    exact ho

end Written

end ContentLang
