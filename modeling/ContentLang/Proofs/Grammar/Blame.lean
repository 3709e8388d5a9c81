import ContentLang.Proofs.Grammar.Reports

/-!
# Reports and their tokens

Whatever the reader reports is about a token that it was given
(`ContentLang.about_parse`): the token that was not expected, the key that misses something, or the
token that opened what was not closed. The first is at hand when it is reported. The others are kept
in the state, from when they were read to when the entry or the file ends, so the invariant is about
all tokens that a state keeps for this (`ContentLang.Assembly.Keeps`).
-/

namespace ContentLang

/-- **Whether some diagnostics are each about a token** of a kind. -/
def AboutTokens (P : Token → Prop) (ds : List Diagnostic) : Prop :=
  ∀ d ∈ ds, ∃ t, P t ∧ d = .about t.origin d.problem

section AboutTokens

variable {P : Token → Prop} {ds es : List Diagnostic}

theorem aboutTokens_nil : AboutTokens P [] := by simp [AboutTokens]

theorem aboutTokens_cons {t : Token} (h : P t) (problem : Problem) (hs : AboutTokens P ds) :
    AboutTokens P (.about t.origin problem :: ds) :=
  List.forall_mem_cons.mpr ⟨⟨t, h, rfl⟩, hs⟩

theorem aboutTokens_append (h : AboutTokens P ds) (h' : AboutTokens P es) :
    AboutTokens P (ds ++ es) :=
  List.forall_mem_append.mpr ⟨h, h'⟩

theorem aboutTokens_reverse (h : AboutTokens P ds) : AboutTokens P ds.reverse :=
  fun d hd => h d (List.mem_reverse.mp hd)

end AboutTokens

/-! ### Tokens that are kept -/

/-- Whether the token that opened a sequence is of a kind. -/
def Sequence.Keeps (P : Token → Prop) : Sequence → Prop
  | .file => True
  | .array opening => P opening
  | .params name => P name

/-- Whether the tokens kept for a hole are of a kind. -/
def Hole.Keeps (P : Token → Prop) : Hole → Prop
  | .item s => s.of.Keeps P
  | .value b key => P b.opening ∧ P key
  | .data _ => True

/-- Whether the token kept between two elements or entries is of a kind. -/
def Between.Keeps (P : Token → Prop) : Between → Prop
  | .elements s => s.of.Keeps P
  | .entries b => P b.opening

/-- Whether the tokens kept in a phase are of a kind. -/
def Phase.Keeps (P : Token → Prop) : Phase → Prop
  | .between b => b.Keeps P
  | .named name => P name
  | .called _ => True
  | .keyed b key => P b.opening ∧ P key
  | .valued b key => P b.opening ∧ P key
  | .skipping b _ => P b.opening

/-- **Whether all tokens that a state keeps are of a kind**, and those of its reports. -/
structure Assembly.Keeps (P : Token → Prop) (a : Assembly) : Prop where
  holes : ∀ h ∈ a.holes, h.Keeps P
  phase : a.phase.Keeps P
  reports : AboutTokens P a.reversedDiagnostics

variable {P : Token → Prop}

/-! ### Filling holes -/

theorem about_enter (b : OpenBlock) {k : Token} (h : P k) (n : Node) :
    AboutTokens P (b.enter k n).2 := by
  unfold OpenBlock.enter
  split
  · exact aboutTokens_cons h _ aboutTokens_nil
  · exact aboutTokens_nil

theorem keeps_fill (n : Node) {hs : List Hole} (h : ∀ x ∈ hs, x.Keeps P) :
    (∀ x ∈ (fill n hs).1, x.Keeps P) ∧ (fill n hs).2.1.Keeps P ∧
      AboutTokens P (fill n hs).2.2 := by
  induction hs generalizing n with
  | nil => exact ⟨by simp [fill], trivial, aboutTokens_nil⟩
  | cons x hs ih =>
    obtain ⟨hx, hs⟩ := List.forall_mem_cons.mp h
    cases x with
    | item s => exact ⟨hs, hx, aboutTokens_nil⟩
    | value b k =>
      have hopening : P (b.enter k n).1.opening := (opening_enter b k n).symm ▸ hx.1
      exact ⟨hs, hopening, about_enter b hx.2 n⟩
    | data c => exact ih _ hs

theorem about_closeWith (n : Node) {hs : List Hole} (h : ∀ x ∈ hs, x.Keeps P) :
    AboutTokens P (closeWith n hs).2 := by
  induction hs generalizing n with
  | nil => exact aboutTokens_nil
  | cons x hs ih =>
    obtain ⟨hx, hs⟩ := List.forall_mem_cons.mp h
    cases x with
    | item s =>
      obtain ⟨of, reversed⟩ := s
      cases of with
      | file => exact aboutTokens_nil
      | array o => exact aboutTokens_cons hx _ (ih _ hs)
      | params f => exact aboutTokens_cons hx _ (ih _ hs)
    | value b k =>
      have hopening : P (b.enter k n).1.opening := (opening_enter b k n).symm ▸ hx.1
      exact aboutTokens_append (about_enter b hx.2 n) (aboutTokens_cons hopening _ (ih _ hs))
    | data c => exact ih _ hs

namespace Assembly

variable {a : Assembly} {t : Token}

/-! ### One token -/

theorem Keeps.goto (h : a.Keeps P) {phase : Phase} (hp : phase.Keeps P) :
    (a.goto phase).Keeps P :=
  ⟨h.holes, hp, h.reports⟩

theorem Keeps.report (h : a.Keeps P) (ht : P t) (problem : Problem) :
    (a.report t.origin problem).Keeps P :=
  ⟨h.holes, h.phase, aboutTokens_cons ht problem h.reports⟩

theorem Keeps.expect (h : a.Keeps P) (x : Hole) (hx : x.Keeps P) : (a.expect x).Keeps P :=
  ⟨List.forall_mem_cons.mpr ⟨hx, h.holes⟩, h.phase, h.reports⟩

theorem Keeps.finish (h : a.Keeps P) (n : Node) : (a.finish n).Keeps P := by
  obtain ⟨hholes, hbetween, hreports⟩ := keeps_fill n h.holes
  exact ⟨hholes, hbetween, aboutTokens_append (aboutTokens_reverse hreports) h.reports⟩

theorem Keeps.begin (h : a.Keeps P) (ht : P t) : (a.begin t).Keeps P := by
  unfold Assembly.begin
  split
  · exact h.goto ht
  split
  · exact h.goto ht
  split
  · exact h.goto ht
  split
  · exact h.finish _
  · exact (h.report ht _).finish _

theorem Keeps.inSequence {s : OpenSequence} (h : a.Keeps P) (hs : s.of.Keeps P) (ht : P t) :
    (a.inSequence s t).Keeps P := by
  have hother : (inSequence.other a s t).Keeps P := by
    unfold inSequence.other
    split
    · exact h.goto hs
    · exact (h.expect (.item s) hs).begin ht
  unfold Assembly.inSequence
  split
  · split
    · exact h.finish _
    · exact hother
  · split
    · exact h.goto trivial
    · exact hother
  · exact hother

theorem Keeps.inBlock {b : OpenBlock} (h : a.Keeps P) (hb : P b.opening) (ht : P t) :
    (a.inBlock b t).Keeps P := by
  unfold Assembly.inBlock
  split
  · exact h.finish _
  split
  · exact h.goto hb
  split
  · exact h.goto ⟨hb, ht⟩
  · exact (h.report ht _).goto hb

theorem Keeps.skip {b : OpenBlock} (h : a.Keeps P) (hb : P b.opening) (depth : Nat) (ht : P t) :
    (a.skip b depth t).Keeps P := by
  unfold Assembly.skip
  split
  · exact h.inBlock hb ht
  · exact h.goto hb

theorem Keeps.inBetween {b : Between} (h : a.Keeps P) (hb : b.Keeps P) (ht : P t) :
    (a.inBetween b t).Keeps P := by
  cases b with
  | elements s => exact h.inSequence hb ht
  | entries b => exact h.inBlock hb ht

theorem Keeps.finishBefore (h : a.Keeps P) (n : Node) (ht : P t) :
    (a.finishBefore n t).Keeps P := by
  rw [finishBefore_eq]
  exact (h.finish n).inBetween (keeps_fill n h.holes).2.1 ht

/-- **A state keeps no token but those it has read.** -/
theorem Keeps.feed (h : a.Keeps P) (ht : P t) : (a.feed t).Keeps P := by
  have hphase := h.phase
  unfold Assembly.feed
  split <;> rename_i hp <;> rw [hp] at hphase
  · exact h.inBetween hphase ht
  · split
    · exact h.goto hphase
    · exact h.finishBefore _ ht
  · split
    · exact h.finishBefore _ ht
    · exact (h.expect (.data _) trivial).begin ht
  · split
    · exact h.goto hphase
    · exact (h.report hphase.2 _).skip hphase.1 0 ht
  · split
    · exact (h.report hphase.2 _).inBlock hphase.1 ht
    · exact (h.expect (.value _ _) hphase).begin ht
  · exact h.skip hphase _ ht

theorem Keeps.feedAll (h : a.Keeps P) {ts : List Token} (ht : ∀ t ∈ ts, P t) :
    (a.feedAll ts).Keeps P := by
  induction ts generalizing a with
  | nil => exact h
  | cons t ts ih =>
    obtain ⟨ht, hts⟩ := List.forall_mem_cons.mp ht
    exact ih (h.feed ht) hts

/-! ### The end of the file -/

theorem Keeps.closeBlock (h : a.Keeps P) {b : OpenBlock} (hb : P b.opening) :
    AboutTokens P (a.closeBlock b).2 :=
  aboutTokens_cons hb _ (about_closeWith b.node h.holes)

theorem Keeps.close (h : a.Keeps P) : AboutTokens P a.close.2 := by
  have hphase := h.phase
  unfold Assembly.close
  split <;> rename_i hp <;> rw [hp] at hphase
  · rename_i s
    obtain ⟨of, reversed⟩ := s
    cases of with
    | file => exact aboutTokens_nil
    | array o => exact aboutTokens_cons hphase _ (about_closeWith _ h.holes)
    | params f => exact aboutTokens_cons hphase _ (about_closeWith _ h.holes)
  · exact h.closeBlock hphase
  · exact about_closeWith _ h.holes
  · exact about_closeWith _ h.holes
  · exact aboutTokens_cons hphase.2 _ (h.closeBlock hphase.1)
  · exact aboutTokens_cons hphase.2 _ (h.closeBlock hphase.1)
  · exact h.closeBlock hphase

end Assembly

/-- **Each report of the reader is about a token** that it was given. -/
theorem about_parse (ts : List Token) : AboutTokens (· ∈ ts) (parse ts).2 := by
  have hstart : Assembly.start.Keeps (· ∈ ts) :=
    ⟨by simp [Assembly.start], trivial, aboutTokens_nil⟩
  have h := hstart.feedAll fun t ht => ht
  exact aboutTokens_append (aboutTokens_reverse h.reports) h.close

end ContentLang
