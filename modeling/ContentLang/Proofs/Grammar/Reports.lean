import ContentLang.Node.Assembly

/-!
# Reports of the reader

What the reader reports is about the text, and no report is ever taken back
(`ContentLang.Assembly.adds_feed`), so that whatever is wrong with a text is there before any
reduction (`ContentLang.textual_parseText`).
-/

namespace ContentLang

/-- Whether all of some diagnostics are about a text. -/
def Textual (ds : List Diagnostic) : Prop := ∀ d ∈ ds, d.problem.isTextual = true

theorem textual_nil : Textual [] := by simp [Textual]

theorem textual_cons {d : Diagnostic} {ds : List Diagnostic} (h : d.problem.isTextual = true)
    (hs : Textual ds) : Textual (d :: ds) :=
  List.forall_mem_cons.mpr ⟨h, hs⟩

theorem textual_append {ds es : List Diagnostic} (h : Textual ds) (h' : Textual es) :
    Textual (ds ++ es) :=
  List.forall_mem_append.mpr ⟨h, h'⟩

theorem textual_reverse {ds : List Diagnostic} (h : Textual ds) : Textual ds.reverse :=
  fun d hd => h d (List.mem_reverse.mp hd)

/-- An entry does not change where its block was opened. -/
theorem opening_enter (b : OpenBlock) (k : Token) (n : Node) :
    (b.enter k n).1.opening = b.opening := by
  unfold OpenBlock.enter
  split <;> rfl

/-- An entry is reported for its key alone. -/
theorem textual_enter (b : OpenBlock) (k : Token) (n : Node) : Textual (b.enter k n).2 := by
  unfold OpenBlock.enter
  split
  · exact textual_cons rfl textual_nil
  · exact textual_nil

theorem textual_fill (n : Node) (hs : List Hole) : Textual (fill n hs).2.2 := by
  induction hs generalizing n with
  | nil => exact textual_nil
  | cons h hs ih =>
    cases h with
    | item s => exact textual_nil
    | value b k => exact textual_enter b k n
    | data c => exact ih _

theorem textual_closeWith (n : Node) (hs : List Hole) : Textual (closeWith n hs).2 := by
  induction hs generalizing n with
  | nil => exact textual_nil
  | cons h hs ih =>
    cases h with
    | item s =>
      obtain ⟨of, reversed⟩ := s
      cases of with
      | file => exact textual_nil
      | array o => exact textual_cons rfl (ih _)
      | params f => exact textual_cons rfl (ih _)
    | value b k => exact textual_append (textual_enter b k n) (textual_cons rfl (ih _))
    | data c => exact ih _

namespace Assembly

/-! ### One token -/

/-- **Whether a state has all the reports of another one**, and beyond them none but about
the text. -/
def Adds (a a' : Assembly) : Prop :=
  ∃ ds, Textual ds ∧ a'.reversedDiagnostics = ds ++ a.reversedDiagnostics

theorem Adds.refl (a : Assembly) : Adds a a := ⟨[], textual_nil, rfl⟩

theorem Adds.trans {a b c : Assembly} (h : Adds a b) (h' : Adds b c) : Adds a c := by
  obtain ⟨ds, hds, hb⟩ := h
  obtain ⟨es, hes, hc⟩ := h'
  exact ⟨es ++ ds, textual_append hes hds, by rw [hc, hb, List.append_assoc]⟩

theorem adds_report (a : Assembly) (o : Origin) {p : Problem} (h : p.isTextual = true) :
    Adds a (a.report o p) :=
  ⟨[.about o p], textual_cons h textual_nil, rfl⟩

theorem adds_finish (a : Assembly) (n : Node) : Adds a (a.finish n) :=
  ⟨(fill n a.holes).2.2.reverse, textual_reverse (textual_fill n a.holes), rfl⟩

theorem adds_begin (a : Assembly) (t : Token) : Adds a (a.begin t) := by
  unfold begin
  split
  · exact Adds.refl a
  split
  · exact Adds.refl a
  split
  · exact Adds.refl a
  split
  · exact adds_finish a _
  · exact (adds_report a _ rfl).trans (adds_finish _ _)

theorem adds_inSequence (a : Assembly) (s : OpenSequence) (t : Token) :
    Adds a (a.inSequence s t) := by
  have hother : Adds a (inSequence.other a s t) := by
    unfold inSequence.other
    split
    · exact Adds.refl a
    · exact adds_begin (a.expect _) t
  unfold inSequence
  split
  · split
    · exact adds_finish a _
    · exact hother
  · split
    · exact Adds.refl a
    · exact hother
  · exact hother

theorem adds_inBlock (a : Assembly) (b : OpenBlock) (t : Token) : Adds a (a.inBlock b t) := by
  unfold inBlock
  split
  · exact adds_finish a _
  split
  · exact Adds.refl a
  split
  · exact Adds.refl a
  · exact adds_report a _ rfl

theorem adds_skip (a : Assembly) (b : OpenBlock) (depth : Nat) (t : Token) :
    Adds a (a.skip b depth t) := by
  unfold skip
  split
  · exact adds_inBlock a b t
  · exact Adds.refl a

theorem adds_inBetween (a : Assembly) (b : Between) (t : Token) : Adds a (a.inBetween b t) := by
  cases b with
  | elements s => exact adds_inSequence a s t
  | entries b => exact adds_inBlock a b t

/-- To finish a node before a token is to finish it and then to take the token. -/
theorem finishBefore_eq (a : Assembly) (n : Node) (t : Token) :
    a.finishBefore n t = (a.finish n).inBetween (fill n a.holes).2.1 t := rfl

theorem adds_finishBefore (a : Assembly) (n : Node) (t : Token) :
    Adds a (a.finishBefore n t) := by
  rw [finishBefore_eq]
  exact (adds_finish a n).trans (adds_inBetween _ _ t)

/-- **A token takes back no report**, and adds none but about the text. -/
theorem adds_feed (a : Assembly) (t : Token) : Adds a (a.feed t) := by
  unfold feed
  split
  · exact adds_inBetween a _ t
  · split
    · exact Adds.refl a
    · exact adds_finishBefore a _ t
  · split
    · exact adds_finishBefore a _ t
    · exact adds_begin (a.expect _) t
  · split
    · exact Adds.refl a
    · exact (adds_report a _ rfl).trans (adds_skip _ _ _ t)
  · split
    · exact (adds_report a _ rfl).trans (adds_inBlock _ _ t)
    · exact adds_begin (a.expect _) t
  · exact adds_skip a _ _ t

theorem adds_feedAll (a : Assembly) (ts : List Token) : Adds a (a.feedAll ts) := by
  induction ts generalizing a with
  | nil => exact Adds.refl a
  | cons t ts ih => exact (adds_feed a t).trans (ih (a.feed t))

/-! ### The end of the file -/

theorem textual_closeBlock (a : Assembly) (b : OpenBlock) : Textual (a.closeBlock b).2 :=
  textual_cons rfl (textual_closeWith b.node a.holes)

theorem textual_close (a : Assembly) : Textual a.close.2 := by
  unfold close
  split
  · split
    · exact textual_nil
    -- Only arrays and parameters are left open, and both are reported as such.
    · rename_i hs
      refine textual_cons ?_ (textual_closeWith _ _)
      unfold OpenSequence.close? at hs
      split at hs <;> simp only [Option.some.injEq, Prod.mk.injEq, reduceCtorEq] at hs
      · rw [← hs.2]; rfl
      · rw [← hs.2]; rfl
  · exact textual_closeBlock a _
  · exact textual_closeWith _ _
  · exact textual_closeWith _ _
  · exact textual_cons rfl (textual_closeBlock a _)
  · exact textual_cons rfl (textual_closeBlock a _)
  · exact textual_closeBlock a _

end Assembly

theorem textual_parse (ts : List Token) : Textual (parse ts).2 := by
  obtain ⟨ds, hds, h⟩ := Assembly.adds_feedAll .start ts
  have hreversed : Textual (Assembly.start.feedAll ts).reversedDiagnostics := by
    rw [h]
    exact textual_append hds textual_nil
  exact textual_append (textual_reverse hreversed) (Assembly.textual_close _)

theorem textual_diagnosticsFrom (file : String) (p : Place) (pieces : List Piece) :
    Textual (Piece.diagnosticsFrom file p pieces) := by
  induction pieces generalizing p with
  | nil => exact textual_nil
  | cons piece pieces ih =>
    refine textual_append ?_ (ih _)
    unfold Piece.problem?
    split
    · exact textual_cons rfl textual_nil
    · exact textual_cons rfl textual_nil
    · exact textual_nil

/-- **What is wrong with a text** is about the text. -/
theorem textual_parseText (text file uniqueId : String) :
    Textual (parseText text file uniqueId).2 :=
  textual_append (textual_diagnosticsFrom file _ _) (textual_parse _)

end ContentLang
