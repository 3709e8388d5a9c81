import ContentLang.Proofs.Grammar.Skipping

/-!
# Malformed entries are contained

An entry of a block that does not fit costs one report, at its first token, and nothing else: the
elements of the file are read as without it (`ContentLang.Grammar.malformed_entry_contained`).

What makes up such an entry is a matter of counting (`ContentLang.Grammar.Malformed`), since the
reader skips it without looking at kinds of brackets. Behind it the reader is in the state that it
was in before, up to the report, and an earlier report makes no difference to what is read after it
(`ContentLang.Assembly.read_after`).
-/

namespace ContentLang

namespace Assembly

variable {a : Assembly} {t : Token} {ds : List Diagnostic}

/-! ### An earlier report makes no difference -/

/-- The same state after some more reports at the beginning, the last one first. -/
def after (a : Assembly) (ds : List Diagnostic) : Assembly :=
  { a with reversedDiagnostics := a.reversedDiagnostics ++ ds }

theorem finish_after (n : Node) : (a.after ds).finish n = (a.finish n).after ds := by
  simp [after, finish]

theorem begin_after : (a.after ds).begin t = (a.begin t).after ds := by
  unfold begin
  split
  · rfl
  split
  · rfl
  split
  · rfl
  split
  · exact finish_after _
  · exact finish_after (a := a.report t.origin (.unexpectedToken t.value)) _

theorem inSequence_after (s : OpenSequence) :
    (a.after ds).inSequence s t = (a.inSequence s t).after ds := by
  have hother : inSequence.other (a.after ds) s t = (inSequence.other a s t).after ds := by
    unfold inSequence.other
    split
    · rfl
    · exact begin_after (a := a.expect _)
  unfold inSequence
  split
  · split
    · exact finish_after _
    · exact hother
  · split
    · rfl
    · exact hother
  · exact hother

theorem inBlock_after (b : OpenBlock) : (a.after ds).inBlock b t = (a.inBlock b t).after ds := by
  unfold inBlock
  split
  · exact finish_after _
  split
  · rfl
  split
  · rfl
  · rfl

theorem skip_after (b : OpenBlock) (depth : Nat) :
    (a.after ds).skip b depth t = (a.skip b depth t).after ds := by
  unfold skip
  split
  · exact inBlock_after b
  · rfl

theorem inBetween_after (b : Between) :
    (a.after ds).inBetween b t = (a.inBetween b t).after ds := by
  cases b with
  | elements s => exact inSequence_after s
  | entries b => exact inBlock_after b

theorem finishBefore_after (n : Node) :
    (a.after ds).finishBefore n t = (a.finishBefore n t).after ds := by
  rw [finishBefore_eq, finishBefore_eq, finish_after]
  exact inBetween_after _

theorem feed_after : (a.after ds).feed t = (a.feed t).after ds := by
  have hphase : (a.after ds).phase = a.phase := rfl
  unfold feed
  rw [hphase]
  split
  · exact inBetween_after _
  · split
    · rfl
    · exact finishBefore_after _
  · split
    · exact finishBefore_after _
    · exact begin_after (a := a.expect _)
  · split
    · rfl
    · exact skip_after (a := a.report _ _) _ _
  · split
    · exact inBlock_after (a := a.report _ _) _
    · exact begin_after (a := a.expect _)
  · exact skip_after _ _

/-- **What was reported before makes no difference to what is read.** -/
theorem read_after (ts : List Token) :
    (a.after ds).read ts = ((a.read ts).1, ds.reverse ++ (a.read ts).2) := by
  induction ts generalizing a with
  | nil => simp [result, after, close, closeBlock]
  | cons t ts ih => rw [read_cons, read_cons, feed_after, ih]

theorem report_of_clean (h : a.Clean) (o : Origin) (p : Problem) :
    a.report o p = a.after [.about o p] := by
  have h' : a.reversedDiagnostics = [] := h
  simp [report, after, h']

end Assembly

namespace Grammar

/-! ### Entries that do not fit -/

/-- **Whether a run of tokens is an entry that does not fit, and nothing else**: it is balanced,
with brackets counted regardless of kind, it begins with no closing bracket and has no separator
outside of its brackets, and if it begins with content no colon follows. -/
structure Malformed (first : Token) (rest : List Token) : Prop where
  enclosed : Enclosed 0 (first :: rest)
  balanced : (first :: rest).countP TokenOf.isOpening = (first :: rest).countP TokenOf.isClosing
  keyless : first.isContent = true → ∀ t ∈ rest.head?, t.isSymbol ':' = false

theorem malformed_iff {first : Token} {rest : List Token} : Malformed first rest ↔
    Enclosed 0 (first :: rest) ∧
      (first :: rest).countP TokenOf.isOpening = (first :: rest).countP TokenOf.isClosing ∧
      (first.isContent = true → ∀ t ∈ rest.head?, t.isSymbol ':' = false) :=
  ⟨fun h => ⟨h.enclosed, h.balanced, h.keyless⟩, fun ⟨he, hb, hk⟩ => ⟨he, hb, hk⟩⟩

instance (first : Token) (rest : List Token) : Decidable (Malformed first rest) :=
  decidable_of_iff _ malformed_iff.symm

/-- What is wrong with an entry that does not fit. -/
def entryProblem (first : Token) : Problem :=
  if first.isContent then .missingSeparator first.value else .missingKey first.value

variable {a : Assembly} {b : OpenBlock} {first t next : Token} {rest u v : List Token}

/-- The first token of an entry that does not fit is reported, and the entry skipped. -/
theorem read_malformed (ha : a.phase = .between (.entries b)) (h : Malformed first rest)
    (hnext : next.isSymbol ':' = false) :
    a.read (first :: (rest ++ next :: v)) =
      ((a.report first.origin (entryProblem first)).goto (.skipping b 0)).read (next :: v) := by
  obtain ⟨hs, hc⟩ := h.enclosed.head
  have hbrace : first.isSymbol '}' = false := by
    rw [TokenOf.isClosing, Bool.or_eq_false_iff] at hc
    exact hc.2
  have hskipped : Skipped (Assembly.depthAfter 0 first) rest 0 := by
    refine h.enclosed.tail.skipped ?_
    have := count_depthAfter (h.enclosed.closes [first] ⟨rest, rfl⟩) rest
    have := h.balanced
    omega
  -- The report comes with the first token, or with the one after it if that is not a colon.
  have hstart : a.read (first :: (rest ++ next :: v)) =
      ((a.report first.origin (entryProblem first)).goto
        (.skipping b (Assembly.depthAfter 0 first))).read (rest ++ next :: v) := by
    rcases hk : first.isContent with _ | _
    · simp [Assembly.feed, ha, Assembly.inBetween, Assembly.inBlock, hbrace, hs, hk, entryProblem]
    · obtain ⟨t, ts, hts, ht⟩ : ∃ t ts, rest ++ next :: v = t :: ts ∧ t.isSymbol ':' = false := by
        cases hr : rest with
        | nil => exact ⟨next, v, rfl, hnext⟩
        | cons t ts => exact ⟨t, ts ++ next :: v, rfl, h.keyless hk t (by simp [hr])⟩
      have hdepth : Assembly.depthAfter 0 first = 0 := by
        simp [Assembly.depthAfter, TokenOf.isOpening_of_isContent hk,
          TokenOf.isClosing_of_isContent hk]
      have hfirst : a.feed first = a.goto (.keyed b first) := by
        simp [Assembly.feed, ha, Assembly.inBetween, Assembly.inBlock, hbrace, hs, hk]
      have hsecond : (a.goto (.keyed b first)).feed t =
          ((a.report first.origin (entryProblem first)).goto (.skipping b 0)).feed t := by
        simp only [Assembly.feed, Assembly.goto, ht, Bool.false_eq_true, if_false, entryProblem, hk,
          if_true]
        rfl
      rw [hts, hdepth, Assembly.read_cons, hfirst, Assembly.read_cons, hsecond, Assembly.read_cons]
  calc a.read (first :: (rest ++ next :: v))
      = (((a.report first.origin (entryProblem first)).goto
          (.skipping b (Assembly.depthAfter 0 first))).feedAll rest).read (next :: v) := by
        rw [hstart, Assembly.read_append]
    _ = ((a.report first.origin (entryProblem first)).goto (.skipping b 0)).read (next :: v) := by
        rw [hskipped.feedAll]

/-- Behind an opening brace or a separator of a block an entry of it is due. -/
theorem entries_due (h : (Assembly.start.feedAll (u ++ [t])).Clean)
    (hblock : (openIn (u ++ [t])).head? = some '{')
    (ht : t.isSeparator = true ∨ t.isSymbol '{' = true) :
    ∃ b, (Assembly.start.feedAll (u ++ [t])).phase = .between (.entries b) := by
  obtain ⟨b, hb⟩ := (Assembly.takes_last h).between ht
  have hwithin := Assembly.within_feedAll h
  rw [Assembly.Within, hb] at hwithin
  cases b with
  | elements s =>
    exact absurd hblock (Assembly.head_of_item hwithin)
  | entries b => exact ⟨b, hb⟩

/-- **A malformed entry is contained**: in a block of tokens that are read without a report, it is
reported once, at its first token, and the elements are those that are read without it. -/
theorem malformed_entry_contained (h : (parse (u ++ [t] ++ next :: v)).2 = [])
    (hblock : (openIn (u ++ [t])).head? = some '{')
    (ht : t.isSeparator = true ∨ t.isSymbol '{' = true)
    (hnext : next.isSeparator = true ∨ next.isSymbol '}' = true) (hrun : Malformed first rest) :
    parse (u ++ [t] ++ (first :: rest) ++ next :: v) =
      ((parse (u ++ [t] ++ next :: v)).1, [.about first.origin (entryProblem first)]) := by
  rw [parse_append] at h
  have hclean : (Assembly.start.feedAll (u ++ [t])).Clean := Assembly.clean_of_read h
  obtain ⟨b, hb⟩ := entries_due hclean hblock ht
  rw [List.append_assoc, parse_append, parse_append]
  generalize Assembly.start.feedAll (u ++ [t]) = a at h hclean hb
  have hcolon : next.isSymbol ':' = false := by
    rcases hnext with hn | hn
    · exact TokenOf.isSymbol_of_isSeparator hn (by decide)
    · exact TokenOf.isSymbol_eq_false hn (by decide)
  -- The entry ends before `next`, which is taken by the state before, but for the report.
  calc a.read ((first :: rest) ++ next :: v)
      = ((a.report first.origin (entryProblem first)).goto (.skipping b 0)).read (next :: v) :=
        read_malformed hb hrun hcolon
    _ = (a.report first.origin (entryProblem first)).read (next :: v) := by
        rw [Assembly.read_cons, feed_skipping _ b hnext,
          Assembly.goto_of_phase (a := a.report _ _) hb]
        rfl
    _ = (a.after [.about first.origin (entryProblem first)]).read (next :: v) := by
        rw [Assembly.report_of_clean hclean]
    _ = ((a.read (next :: v)).1, [.about first.origin (entryProblem first)]) := by
        rw [Assembly.read_after, h]
        rfl

/-- Content without a colon costs a block no other entry, whatever stands in its brackets. -/
theorem malformed_entry_contained_content :
    let o : Origin := .unwritten
    let u : List Token := [.symbol '{' o, .content "k" o, .symbol ':' o, .content "v" o]
    let run : List Token := [.symbol '[' o, .symbol ';' o, .symbol ')' o]
    (parse (u ++ [.symbol ';' o] ++ [.symbol '}' o])).2 = [] ∧
      (openIn (u ++ [.symbol ';' o])).head? = some '{' ∧ Malformed (.content "x" o) run ∧
      parse (u ++ [.symbol ';' o] ++ (.content "x" o :: run) ++ [.symbol '}' o]) =
        ([.block [(.content "k" o, .token (.content "v" o))] o],
          [.about o (.missingSeparator "x")]) := by
  intro o u run
  have hread : (parse (u ++ [.symbol ';' o] ++ [.symbol '}' o])).2 = [] := rfl
  have hopen : (openIn (u ++ [.symbol ';' o])).head? = some '{' := rfl
  have hrun : Malformed (.content "x" o) run := by decide
  exact ⟨hread, hopen, hrun,
    malformed_entry_contained hread hopen (Or.inl rfl) (Or.inr rfl) hrun⟩

end Grammar

end ContentLang
