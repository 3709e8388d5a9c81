import ContentLang.Proofs.Grammar.Skipping

/-!
# Stray closing brackets

A closing bracket too many, put somewhere into tokens that are read without a report. It costs one
report, at the bracket, as long as it does not part tokens that belong together
(`ContentLang.Grammar.stray_reported_once_iff`): a key, its colon and its value, or the name of a
call and its parenthesis (`ContentLang.Grammar.Severed`). Parted from its colon, a key is reported
itself; parted from its parenthesis, a name is an element of its own, and the parenthesis is
reported too. Only in the value of a block does that parenthesis go unnoticed: there the stray
bracket is what should be the next key, and whatever comes before the next separator is skipped.

Wherever the bracket stands, a node that only waits for the token behind it is finished first
(`ContentLang.Assembly.settled`), and what was missing from the state is still to come, perhaps with
the data or the parameters of that node in front (`ContentLang.Grammar.residual_settled`).
-/

namespace ContentLang

open Assembly

namespace Grammar

variable {a : Assembly} {G : Goal} {s : OpenSequence} {b : OpenBlock} {c t : Token}
  {brackets : List Char} {p r u v : List Token}

/-! ### The state that the bracket finds -/

/-- What was missing around a hole is missing once it is filled. -/
theorem residual_finish (n : Node) (h : Fills a.holes r) :
    Residual (a.finish n) r ∧ (a.Clean → (a.finish n).Clean) := by
  obtain ⟨holes, phase, ds⟩ := a
  induction holes generalizing n with
  | nil => exact ⟨h, id⟩
  | cons hole hs ih =>
    cases hole with
    | item s => exact ⟨h, id⟩
    | value b k =>
      obtain ⟨hk, m, q, c, r', rfl, hq, hfresh, hc, hr⟩ := h
      have hfin := finish_value ⟨hs, phase, ds⟩ hk n
      rw [OpenBlock.insert_new b hk] at hfin
      show Residual ((expect ⟨hs, phase, ds⟩ (.value b k)).finish n) _ ∧
        (_ → ((expect ⟨hs, phase, ds⟩ (.value b k)).finish n).Clean)
      rw [hfin]
      exact ⟨⟨q, c, r', rfl, hq, fresh_extend_value hfresh n, hc, hr⟩, id⟩
    | data c => exact ih (.ofStatement c n) h

theorem ElementThen.imp {G' : Goal} (hG : ∀ r, G r → G' r) (h : ElementThen G r) :
    ElementThen G' r := by
  obtain ⟨e, r', hr, he, h⟩ := h
  exact ⟨e, r', hr, he, hG r' h⟩

/-- The parameters of a call are skipped, with its data if there is any. -/
theorem skipped_params {o f : Token} (ho : o.isSymbol '(' = true)
    (h : InElements (.params f) G r) :
    ∃ p r', o :: r = p ++ r' ∧ (∀ d, Skipped d p d) ∧ G r' := by
  obtain ⟨q, r', rfl, hq, c, r'', rfl, hc, h⟩ := h
  have hparams := fun d => Elements.skipped_params q ho hq hc d
  rcases h with ⟨-, h⟩ | ⟨e, r', rfl, he, h⟩
  · exact ⟨o :: (q.tokens ++ [c]), r'', by simp, hparams, h⟩
  · exact ⟨o :: (q.tokens ++ [c]) ++ e.tokens, r', by simp,
      fun d => (hparams d).append (Element.skipped e he d), h⟩

/-- A node that waits for the next token is finished in every phase but within an entry. -/
theorem settled_phase (a : Assembly) : (∃ b, a.settled.phase = .between b) ∨
    (∃ b k, a.phase = .keyed b k) ∨ (∃ b k, a.phase = .valued b k) ∨
      ∃ b depth, a.phase = .skipping b depth := by
  match hp : a.phase with
  | .between b => exact Or.inl ⟨b, by simp only [settled, hp]⟩
  | .named f => exact Or.inl ⟨_, by simp only [settled, hp]; rfl⟩
  | .called call => exact Or.inl ⟨_, by simp only [settled, hp]; rfl⟩
  | .keyed b k => exact Or.inr (Or.inl ⟨b, k, rfl⟩)
  | .valued b k => exact Or.inr (Or.inr (Or.inl ⟨b, k, rfl⟩))
  | .skipping b depth => exact Or.inr (Or.inr (Or.inr ⟨b, depth, rfl⟩))

/-- **What is missing once a node that waits for the next token is finished**: the same as before,
or what comes behind the data of a call or behind the parameters of a name. -/
theorem residual_settled (ha : a.Clean) (h : Residual a v) {b : Between}
    (hb : a.settled.phase = .between b) :
    a.settled.Clean ∧ (Residual a.settled v ∨ ElementThen (Residual a.settled) v ∨
      ∃ o p r, o.isSymbol '(' = true ∧ v.head? = some o ∧ v = p ++ r ∧ (∀ d, Skipped d p d) ∧
        Residual a.settled r) := by
  match hp : a.phase with
  | .between b =>
    have hsettled : a.settled = a := by simp only [settled, hp]
    rw [hsettled]
    exact ⟨ha, Or.inl h⟩
  | .named f =>
    have hsettled : a.settled = a.finish (.token f) := by simp only [settled, hp]
    rw [Residual, hp] at h
    rw [hsettled]
    rcases h with h | ⟨o, r, rfl, ho, h⟩
    · obtain ⟨hres, hclean⟩ := residual_finish (.token f) h
      exact ⟨hclean ha, Or.inl hres⟩
    · obtain ⟨p, r', hr, hskipped, h⟩ := skipped_params ho h
      obtain ⟨hres, hclean⟩ := residual_finish (.token f) h
      exact ⟨hclean ha, Or.inr (Or.inr ⟨o, p, r', ho, rfl, hr, hskipped, hres⟩)⟩
  | .called call =>
    have hsettled : a.settled = a.finish (.ofCall call) := by simp only [settled, hp]
    have hfinish := fun r h => residual_finish (a := a) (r := r) (.ofCall call) h
    rw [Residual, hp] at h
    rw [hsettled]
    rcases h with ⟨-, h⟩ | h
    · exact ⟨(hfinish v h).2 ha, Or.inl (hfinish v h).1⟩
    · have hdata := h.imp fun r h => (hfinish r h).1
      obtain ⟨e, r, -, -, h⟩ := h
      exact ⟨(hfinish r h).2 ha, Or.inr (Or.inl hdata)⟩
  | .keyed b k => simp only [settled, hp, reduceCtorEq] at hb
  | .valued b k => simp only [settled, hp, reduceCtorEq] at hb
  | .skipping b depth => simp only [settled, hp, reduceCtorEq] at hb

/-- A closing bracket is taken where the settled state is. -/
theorem feed_closing (hc : c.isClosing = true) {b : Between}
    (hb : a.settled.phase = .between b) : a.feed c = a.settled.inBetween b c := by
  have hender := TokenOf.isEnder_of_isClosing hc
  match hp : a.phase with
  | .between b' =>
    simp only [settled, hp] at hb ⊢
    obtain rfl : b' = b := Phase.between.inj hb
    rw [feed, hp]
  | .named f =>
    simp only [settled, hp] at hb ⊢
    obtain rfl : (fill (.token f) a.holes).2.1 = b := Phase.between.inj hb
    simp only [feed, hp, TokenOf.isSymbol_of_isClosing hc (c := '(') (by decide),
      Bool.false_eq_true, if_false]
    rw [finishBefore_eq]
  | .called call =>
    simp only [settled, hp] at hb ⊢
    obtain rfl : (fill (.ofCall call) a.holes).2.1 = b := Phase.between.inj hb
    simp only [feed, hp, hender, if_true]
    rw [finishBefore_eq]
  | .keyed b k => simp only [settled, hp, reduceCtorEq] at hb
  | .valued b k => simp only [settled, hp, reduceCtorEq] at hb
  | .skipping b depth => simp only [settled, hp, reduceCtorEq] at hb

/-! ### Where the bracket is reported -/

/-- A symbol that fits nowhere in a sequence becomes an element of it. -/
theorem inSequence_unexpected (ht : t.beginsElement = false) (hs : t.isSeparator = false)
    (hcloses : (∀ o, s.of = .array o → t.isSymbol ']' = false) ∧
      ∀ f, s.of = .params f → t.isSymbol ')' = false) :
    a.inSequence s t = (a.report t.origin (.unexpectedToken t.value)).goto
      (.between (.elements (s.push (.token t)))) := by
  have hnot : t.isContent = false ∧ t.isSymbol '~' = false ∧ t.isSymbol '[' = false ∧
      t.isSymbol '{' = false := by
    simpa only [TokenOf.beginsElement, Bool.or_eq_false_iff, and_assoc] using ht
  have hother : inSequence.other a s t = (a.report t.origin (.unexpectedToken t.value)).goto
      (.between (.elements (s.push (.token t)))) := by
    simp only [inSequence.other, begin, hs, hnot, TokenOf.isNull_eq_isSymbol, Bool.false_eq_true,
      if_false]
    rfl
  unfold inSequence
  cases hof : s.of with
  | file => exact hother
  | array o =>
    simp only [hcloses.1 o hof, Bool.false_eq_true, if_false]
    exact hother
  | params f =>
    simp only [hcloses.2 f hof, Bool.false_eq_true, if_false]
    exact hother

/-- A bracket that does not close the innermost one closes no sequence that it stands in. -/
theorem closes_no_sequence {holes : List Hole} (h : Around (.item s :: holes) brackets)
    (hopen : ∀ o ∈ brackets.head?, c.isSymbol (closerOf o) = false) :
    (∀ o, s.of = .array o → c.isSymbol ']' = false) ∧
      ∀ f, s.of = .params f → c.isSymbol ')' = false := by
  cases h with
  | file h => simp [h]
  | array h _ => exact ⟨fun _ _ => hopen '[' rfl, by simp [h]⟩
  | params h _ => exact ⟨by simp [h], fun _ _ => hopen '(' rfl⟩

/-- What is wrong with a closing bracket too many, within some brackets. -/
def strayProblem (brackets : List Char) (c : Token) : Problem :=
  if brackets.head? = some '{' then .missingKey c.value else .unexpectedToken c.value

theorem inSequence_stray (hc : c.isClosing = true) {holes : List Hole}
    (h : Around (.item s :: holes) brackets)
    (hopen : ∀ o ∈ brackets.head?, c.isSymbol (closerOf o) = false) :
    a.inSequence s c = (a.report c.origin (strayProblem brackets c)).goto
      (.between (.elements (s.push (.token c)))) := by
  have hcontent := TokenOf.isContent_of_isClosing hc
  have hbegins : c.beginsElement = false := by
    simp [TokenOf.beginsElement, hcontent, TokenOf.isSymbol_of_isClosing hc]
  have hseparator : c.isSeparator = false := by
    simp [TokenOf.isSeparator, TokenOf.isSymbol_of_isClosing hc]
  rw [inSequence_unexpected hbegins hseparator (closes_no_sequence h hopen), strayProblem,
    if_neg (head_of_item h)]

theorem inBlock_stray (hc : c.isClosing = true) (h : brackets.head? = some '{')
    (hopen : ∀ o ∈ brackets.head?, c.isSymbol (closerOf o) = false) :
    a.inBlock b c = (a.report c.origin (strayProblem brackets c)).goto (.skipping b 0) := by
  have hcontent := TokenOf.isContent_of_isClosing hc
  have hbrace : c.isSymbol '}' = false := hopen '{' h
  have hdepth : depthAfter 0 c = 0 := by
    simp [depthAfter, TokenOf.isOpening_of_isClosing hc, hc]
  simp [inBlock, hbrace, hcontent, hdepth, TokenOf.isSeparator, TokenOf.isSymbol_of_isClosing hc,
    strayProblem, h]

/-! ### The tokens behind the bracket -/

/-- Between two elements the bracket becomes one of them, and what was missing is read, be it with
another element in front. -/
theorem read_stray_element (ha : a.Clean) (hc : c.isClosing = true)
    (hw : Around (.item s :: a.holes) brackets)
    (hopen : ∀ o ∈ brackets.head?, c.isSymbol (closerOf o) = false)
    (h : InElements s.of (Fills a.holes) v ∨ ElementThen (InElements s.of (Fills a.holes)) v) :
    ((a.inSequence s c).read v).2 = [.about c.origin (strayProblem brackets c)] := by
  -- Elements need no separator between them, and so the data of a call is one more of them.
  have hv : InElements s.of (Fills a.holes) v := by
    rcases h with h | ⟨e, r, rfl, he, q, r', rfl, hq, h⟩
    · exact h
    · refine ⟨.element e q, r', by rw [Elements.tokens, List.append_assoc], ⟨?_, hq⟩, h⟩
      simpa using he
  have hread := (suffices_fills (a.report c.origin (strayProblem brackets c))).read_elements
    (s.push (.token c)) hv
  rw [inSequence_stray hc hw hopen, hread, report, show a.reversedDiagnostics = [] from ha]
  rfl

/-- Between two entries the bracket begins one that does not fit, and tokens in front of what was
missing are skipped with it. -/
theorem read_stray_entry (ha : a.Clean) (hc : c.isClosing = true)
    (hbrace : brackets.head? = some '{')
    (hopen : ∀ o ∈ brackets.head?, c.isSymbol (closerOf o) = false)
    (hp : ∀ d, Skipped d p d) (h : InEntries b (Fills a.holes) r) :
    ((a.inBlock b c).read (p ++ r)).2 = [.about c.origin (strayProblem brackets c)] := by
  obtain ⟨q, e, r', rfl, hq, hfresh, he, hr⟩ := h
  have hread := Fields.read_skipping q
    (suffices_fills (a.report c.origin (strayProblem brackets c))) hq hfresh he hr
  rw [inBlock_stray hc hbrace hopen, read_append, (hp 0).feedAll, hread, report,
    show a.reversedDiagnostics = [] from ha]
  rfl

/-- **Where the bracket parts nothing, it is the only report.** -/
theorem read_stray (ha : a.Clean) (hc : c.isClosing = true) (hw : a.Within brackets)
    (hopen : ∀ o ∈ brackets.head?, c.isSymbol (closerOf o) = false) {b : Between}
    (hb : a.phase = .between b) (h : Residual a v ∨ ElementThen (Residual a) v) :
    ((a.inBetween b c).read v).2 = [.about c.origin (strayProblem brackets c)] := by
  rw [Within, hb] at hw
  cases b with
  | elements s =>
    have hres : Residual a = InElements s.of (Fills a.holes) := by rw [Residual, hb]
    rw [hres] at h
    exact read_stray_element ha hc hw hopen h
  | entries b =>
    have hres : Residual a = InEntries b (Fills a.holes) := by rw [Residual, hb]
    rw [hres] at h
    rcases h with h | ⟨e, r, rfl, he, h⟩
    · exact read_stray_entry (p := []) ha hc (head_of_value (hw c)) hopen (fun _ => .nil) h
    · exact read_stray_entry ha hc (head_of_value (hw c)) hopen (Element.skipped e he) h

/-! ### What the bracket may part -/

/-- **Whether two lists of tokens part what belongs together**: a colon from the key in front or
from the value behind, or, but in the value of a block, the parenthesis of a call from the name. -/
def Severed (u v : List Token) : Prop :=
  (∃ t ∈ u.getLast?, t.isSymbol ':' = true) ∨ (∃ t ∈ v.head?, t.isSymbol ':' = true) ∨
    ((∃ t ∈ v.head?, t.isSymbol '(' = true) ∧ (openIn u).head? ≠ some '{')

/-- What was reported stays in front of what is reported later. -/
theorem reports_of_read (a : Assembly) (ts : List Token) :
    ∃ more, (a.read ts).2 = a.reversedDiagnostics.reverse ++ more := by
  obtain ⟨ds, -, h⟩ := adds_feedAll a ts
  have hresult : (a.read ts).2 =
      (a.feedAll ts).reversedDiagnostics.reverse ++ (a.feedAll ts).close.2 := rfl
  exact ⟨ds.reverse ++ (a.feedAll ts).close.2,
    by rw [hresult, h, List.reverse_append, List.append_assoc]⟩

/-- A report with nothing in front comes first. -/
theorem first_report (ha : a.Clean) {o : Origin} {problem : Problem} {a' : Assembly}
    (h : Adds (a.report o problem) a') (ts : List Token) :
    ∃ more, (a'.read ts).2 = .about o problem :: more := by
  obtain ⟨ds, -, hds⟩ := h
  obtain ⟨more, hmore⟩ := reports_of_read a' ts
  refine ⟨ds.reverse ++ more, ?_⟩
  rw [hmore, hds, report, show a.reversedDiagnostics = [] from ha]
  simp

/-- Parted from its colon or its value, a key is reported, and before the bracket. -/
theorem read_severed_key (ha : a.Clean) (hc : c.isClosing = true) {k : Token}
    (hp : a.phase = .keyed b k ∨ a.phase = .valued b k) (ts : List Token) :
    ∃ problem more, (problem = .missingSeparator k.value ∨ problem = .missingValue k.value) ∧
      ((a.feed c).read ts).2 = .about k.origin problem :: more := by
  rcases hp with hp | hp
  · have hfeed : a.feed c = (a.report k.origin (.missingSeparator k.value)).skip b 0 c := by
      simp only [feed, hp, TokenOf.isSymbol_of_isClosing hc (c := ':') (by decide),
        Bool.false_eq_true, if_false]
    obtain ⟨more, hmore⟩ := first_report ha (adds_skip _ b 0 c) ts
    exact ⟨_, more, Or.inl rfl, by rw [hfeed, hmore]⟩
  · have hfeed : a.feed c = (a.report k.origin (.missingValue k.value)).inBlock b c := by
      simp only [feed, hp, TokenOf.isEnder_of_isClosing hc, if_true]
    obtain ⟨more, hmore⟩ := first_report ha (adds_inBlock _ b c) ts
    exact ⟨_, more, Or.inr rfl, by rw [hfeed, hmore]⟩

/-- Parted from its name, a parenthesis is reported as well as the bracket. -/
theorem read_severed_name (hc : c.isClosing = true) (hw : Around (.item s :: a.holes) brackets)
    (hopen : ∀ o ∈ brackets.head?, c.isSymbol (closerOf o) = false) {o : Token}
    (ho : o.isSymbol '(' = true) (ts : List Token) :
    2 ≤ ((a.inSequence s c).read (o :: ts)).2.length := by
  have hstray := inSequence_stray (a := a) hc hw hopen
  generalize hs : s.push (.token c) = s' at hstray
  have hbegins : o.beginsElement = false := by
    simp [TokenOf.beginsElement, TokenOf.isContent_of_isSymbol ho, TokenOf.isSymbol_eq_false ho]
  have hseparator : o.isSeparator = false := by
    simp [TokenOf.isSeparator, TokenOf.isSymbol_eq_false ho]
  have hcloses : (∀ t, s'.of = .array t → o.isSymbol ']' = false) ∧
      ∀ f, s'.of = .params f → o.isSymbol ')' = false :=
    ⟨fun _ _ => TokenOf.isSymbol_eq_false ho (by decide),
      fun _ _ => TokenOf.isSymbol_eq_false ho (by decide)⟩
  have hparen : (a.inSequence s c).feed o =
      ((a.inSequence s c).report o.origin (.unexpectedToken o.value)).goto
        (.between (.elements (s'.push (.token o)))) := by
    rw [hstray]
    exact inSequence_unexpected hbegins hseparator hcloses
  obtain ⟨more, hmore⟩ := reports_of_read ((a.inSequence s c).feed o) ts
  rw [read_cons, hmore, hparen, hstray]
  simp [goto, report]
  omega

/-- A colon comes last exactly where a value is due. -/
theorem colon_last_iff (h : (start.feedAll u).Clean) :
    (∃ t ∈ u.getLast?, t.isSymbol ':' = true) ↔ ∃ b k, (start.feedAll u).phase = .valued b k := by
  rcases List.eq_nil_or_concat u with rfl | ⟨u, t, rfl⟩
  · constructor
    · simp
    · rintro ⟨b, k, hp⟩
      exact nomatch hp
  · rw [List.concat_eq_append] at h ⊢
    rw [← (takes_last h).last.2]
    simp

/-- A colon that is read without a report comes after a key. -/
theorem colon_first (hskip : ∀ b depth, a.phase ≠ .skipping b depth) (h : (a.read v).2 = [])
    (hv : ∃ t ∈ v.head?, t.isSymbol ':' = true) : ∃ b k, a.phase = .keyed b k := by
  obtain ⟨t, ht, hcolon⟩ := hv
  cases v with
  | nil => simp at ht
  | cons t' ts =>
    obtain rfl : t' = t := by simpa using ht
    have hread : ((a.feed t').read ts).2 = [] := h
    exact (takes_of_clean hskip (clean_of_read hread)).first.1 hcolon

theorem residual_noCall {b : Between} (hb : a.phase = .between b) (h : Residual a r) :
    NoCall r := by
  rw [Residual, hb] at h
  cases b with
  | elements s => exact InElements.noCall h
  | entries b => exact InEntries.noCall h

/-- Behind a node that is finished or only waits for the next token, the bracket is the only report
unless it parts a name from its parenthesis, outside of the values of blocks. -/
theorem read_stray_iff (ha : a.Clean) (hc : c.isClosing = true) (hw : a.Within brackets)
    (hopen : ∀ o ∈ brackets.head?, c.isSymbol (closerOf o) = false) (h : Residual a v)
    {b : Between} (hb : a.settled.phase = .between b) :
    ((a.feed c).read v).2 = [.about c.origin (strayProblem brackets c)] ↔
      ¬ ((∃ t ∈ v.head?, t.isSymbol '(' = true) ∧ brackets.head? ≠ some '{') := by
  obtain ⟨hclean, hrest⟩ := residual_settled ha h hb
  have hsettled := within_settled hw
  rw [feed_closing hc hb]
  have hone : NoCall v → Residual a.settled v ∨ ElementThen (Residual a.settled) v →
      (((a.settled.inBetween b c).read v).2 = [.about c.origin (strayProblem brackets c)] ↔
        ¬ ((∃ t ∈ v.head?, t.isSymbol '(' = true) ∧ brackets.head? ≠ some '{')) := by
    intro hcall hrest
    refine iff_of_true (read_stray hclean hc hsettled hopen hb hrest) ?_
    rintro ⟨⟨t, ht, hparen⟩, -⟩
    rw [hcall t ht] at hparen
    exact nomatch hparen
  rcases hrest with hrest | hrest | ⟨o, p, r, ho, hv, hsplit, hskipped, hr⟩
  · exact hone (residual_noCall hb hrest) (Or.inl hrest)
  · exact hone hrest.noCall (Or.inr hrest)
  · have hparen : ∃ t, t ∈ v.head? ∧ t.isSymbol '(' = true := ⟨o, hv, ho⟩
    rw [Within, hb] at hsettled
    cases b with
    -- Among elements the parenthesis is reported as well; in a block it is skipped with the bracket.
    | elements s =>
      obtain ⟨ts, rfl⟩ := List.head?_eq_some_iff.mp hv
      have htwo := read_severed_name hc hsettled hopen ho ts
      refine iff_of_false (fun hone => ?_) (fun hnot => hnot ⟨hparen, head_of_item hsettled⟩)
      rw [show a.settled.inBetween (.elements s) c = a.settled.inSequence s c from rfl] at hone
      rw [hone] at htwo
      simp at htwo
    | entries b =>
      have hbrace := head_of_value (hsettled c)
      have hentries : InEntries b (Fills a.settled.holes) r := by
        rw [Residual, hb] at hr
        exact hr
      rw [hsplit]
      exact iff_of_true (read_stray_entry hclean hc hbrace hopen hskipped hentries)
        fun hnot => hnot.2 hbrace

/-- **A stray closing bracket costs exactly one report, at the bracket, if and only if it parts
nothing that belongs together.** -/
theorem stray_reported_once_iff (h : (parse (u ++ v)).2 = []) (hc : c.isClosing = true)
    (hopen : ∀ o ∈ (openIn u).head?, c.isSymbol (closerOf o) = false) :
    (parse (u ++ c :: v)).2 = [.about c.origin (strayProblem (openIn u) c)] ↔ ¬ Severed u v := by
  rw [parse_append] at h
  rw [parse_append, read_cons]
  have hclean : (start.feedAll u).Clean := clean_of_read h
  have hw : (start.feedAll u).Within (openIn u) := within_feedAll hclean
  have hlast := colon_last_iff hclean
  have hfirst := colon_first hw.not_skipping h
  have hres := residual_of_read h
  unfold Severed
  rw [hlast]
  generalize start.feedAll u = a at h hclean hw hfirst hres
  generalize openIn u = brackets at hopen hw
  -- Within an entry the first report is about the key.
  have hkey : ∀ {b k}, a.phase = .keyed b k ∨ a.phase = .valued b k →
      ((a.feed c).read v).2 ≠ [.about c.origin (strayProblem brackets c)] := by
    intro b k hp hone
    obtain ⟨problem, more, hproblem, hmore⟩ := read_severed_key hclean hc hp v
    have hreport := (List.cons.inj (hmore.symm.trans hone)).1
    have hstray : problem = strayProblem brackets c := congrArg Diagnostic.problem hreport
    unfold strayProblem at hstray
    split at hstray <;> rcases hproblem with rfl | rfl <;> exact nomatch hstray
  rcases settled_phase a with ⟨b, hb⟩ | ⟨b, k, hp⟩ | ⟨b, k, hp⟩ | ⟨b, depth, hp⟩
  · have hphase : ∀ b k, a.phase ≠ .keyed b k ∧ a.phase ≠ .valued b k := by
      intro b' k
      constructor <;> intro hp <;> simp [settled, hp] at hb
    refine (read_stray_iff hclean hc hw hopen hres hb).trans (not_congr ?_)
    constructor
    · exact fun hparen => Or.inr (Or.inr hparen)
    · rintro (⟨b, k, hp⟩ | hcolon | hparen)
      · exact absurd hp (hphase b k).2
      · obtain ⟨b, k, hp⟩ := hfirst hcolon
        exact absurd hp (hphase b k).1
      · exact hparen
  · refine iff_of_false (hkey (Or.inl hp)) fun hnot => hnot (Or.inr (Or.inl ?_))
    rw [Residual, hp] at hres
    obtain ⟨colon, r, rfl, hcolon, -⟩ := hres
    exact ⟨colon, rfl, hcolon⟩
  · exact iff_of_false (hkey (Or.inr hp)) fun hnot => hnot (Or.inl ⟨b, k, hp⟩)
  · exact absurd hp (hw.not_skipping b depth)

/-- In the value of a block, even the parenthesis of a call is skipped behind the bracket. -/
theorem stray_reported_once_iff_value :
    let o : Origin := .unwritten
    let u : List Token := [.symbol '{' o, .content "k" o, .symbol ':' o, .content "F" o]
    let v : List Token := [.symbol '(' o, .content "x" o, .symbol ')' o, .symbol '}' o]
    let c : Token := .symbol ']' o
    (parse (u ++ v)).2 = [] ∧ c.isClosing = true ∧
      (∀ b ∈ (openIn u).head?, c.isSymbol (closerOf b) = false) ∧ ¬ Severed u v ∧
        (parse (u ++ c :: v)).2 = [.about o (.missingKey "]")] := by
  intro o u v c
  have hread : (parse (u ++ v)).2 = [] := rfl
  have hopen : ∀ b ∈ (openIn u).head?, c.isSymbol (closerOf b) = false := by
    intro b hb
    obtain rfl : '{' = b := Option.some.inj hb
    decide
  have hsevered : ¬ Severed u v := by
    rintro (⟨t, ht, hcolon⟩ | ⟨t, ht, hcolon⟩ | ⟨-, hne⟩)
    · obtain rfl : TokenOf.content "F" o = t := Option.some.inj ht
      exact nomatch hcolon
    · obtain rfl : TokenOf.symbol '(' o = t := Option.some.inj ht
      exact absurd hcolon (by decide)
    · exact hne rfl
  exact ⟨hread, rfl, hopen, hsevered, (stray_reported_once_iff hread rfl hopen).mpr hsevered⟩

/-- Between a name and its parenthesis a stray bracket costs three reports, between a colon and a
value two, and between a key and its colon a report of the key in place of its own. -/
theorem severed_reports :
    let o : Nat → Origin := fun column => .written ⟨"a.txt", 1, column⟩ 1
    let call : List Token := [.symbol '(' (o 5), .content "x" (o 6), .symbol ')' (o 7)]
    let key : List Token := [.symbol '{' (o 1), .content "a" (o 3)]
    let value : List Token := [.content "1" (o 8), .symbol '}' (o 10)]
    (openIn [.content "F" (o 1)] = [] ∧ (parse (.content "F" (o 1) :: call)).2 = [] ∧
      (parse (.content "F" (o 1) :: .symbol ']' (o 3) :: call)).2 =
        [.about (o 3) (.unexpectedToken "]"), .about (o 5) (.unexpectedToken "("),
          .about (o 7) (.unexpectedToken ")")]) ∧
    (openIn (key ++ [.symbol ':' (o 4)]) = ['{'] ∧
      (parse (key ++ .symbol ':' (o 4) :: value)).2 = [] ∧
      (parse (key ++ .symbol ':' (o 4) :: .symbol ']' (o 6) :: value)).2 =
        [.about (o 3) (.missingValue "a"), .about (o 6) (.missingKey "]")]) ∧
    openIn key = ['{'] ∧ (parse (key ++ .symbol ':' (o 6) :: value)).2 = [] ∧
      (parse (key ++ .symbol ']' (o 5) :: .symbol ':' (o 6) :: value)).2 =
        [.about (o 3) (.missingSeparator "a")] := by
  refine ⟨⟨rfl, rfl, rfl⟩, ⟨rfl, rfl, rfl⟩, rfl, rfl, rfl⟩

end Grammar

end ContentLang
