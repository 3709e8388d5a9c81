import ContentLang.Proofs.Grammar.Brackets
import ContentLang.Proofs.Grammar.Completing

/-!
# Skipping an entry

An entry that does not fit is skipped up to a separator or closing brace that no bracket in it
encloses. The reader only counts brackets for that and does not look at their kinds
(`ContentLang.Grammar.Skipped`). Two sorts of tokens are skipped as a whole: a run whose brackets
enclose each other when counted (`ContentLang.Grammar.Enclosed`), and whatever is derived as an
element. Where an entry that is skipped was in order, the rest of the block is read without a
further report (`ContentLang.Grammar.Fields.read_skipping`).
-/

namespace ContentLang

/-! ### Reading in two parts -/

namespace Assembly

theorem read_append (a : Assembly) (ts us : List Token) :
    a.read (ts ++ us) = (a.feedAll ts).read us := by
  simp [read, feedAll]

end Assembly

theorem parse_append (ts us : List Token) :
    parse (ts ++ us) = (Assembly.start.feedAll ts).read us :=
  Assembly.read_append .start ts us

namespace Grammar

/-! ### Tokens that are skipped -/

variable {t : Token} {ts us : List Token} {d d' d'' : Nat}

/-- **Tokens that are skipped** from one depth of brackets to another: outside of all brackets,
none that ends an entry. -/
inductive Skipped : Nat → List Token → Nat → Prop
  | nil {d : Nat} : Skipped d [] d
  | cons {d d' : Nat} {t : Token} {ts : List Token}
    (ht : d = 0 → t.isSeparator = false ∧ t.isSymbol '}' = false)
    (h : Skipped (Assembly.depthAfter d t) ts d') : Skipped d (t :: ts) d'

theorem Skipped.append (h : Skipped d ts d') (h' : Skipped d' us d'') :
    Skipped d (ts ++ us) d'' := by
  induction h with
  | nil => exact h'
  | cons ht _ ih => exact .cons ht (ih h')

/-- Tokens that are skipped change nothing but the depth. -/
theorem Skipped.feedAll (h : Skipped d ts d') (a : Assembly) (b : OpenBlock) :
    (a.goto (.skipping b d)).feedAll ts = a.goto (.skipping b d') := by
  induction h with
  | nil => rfl
  | @cons d d' t ts ht h ih =>
    have hgo : ¬ (d = 0 ∧ (t.isSeparator = true ∨ t.isSymbol '}' = true)) := by
      rintro ⟨hd, hs | hs⟩
      · rw [(ht hd).1] at hs
        exact nomatch hs
      · rw [(ht hd).2] at hs
        exact nomatch hs
    have hstep : (a.goto (.skipping b d)).feed t =
        a.goto (.skipping b (Assembly.depthAfter d t)) := by
      simp only [Assembly.feed, Assembly.goto, Assembly.skip, if_neg hgo]
    calc (a.goto (.skipping b d)).feedAll (t :: ts)
        = ((a.goto (.skipping b d)).feed t).feedAll ts := rfl
      _ = a.goto (.skipping b d') := by rw [hstep, ih]

/-! ### Runs whose brackets enclose each other -/

/-- **Whether a run of tokens stays within so many brackets**: counted regardless of kind, it
closes no more than these and those that it opened, and each of its separators stands in one. -/
structure Enclosed (depth : Nat) (run : List Token) : Prop where
  closes : ∀ p, p <+: run →
    p.countP TokenOf.isClosing ≤ depth + p.countP TokenOf.isOpening
  separates : ∀ p t, p ++ [t] <+: run → t.isSeparator = true →
    p.countP TokenOf.isClosing < depth + p.countP TokenOf.isOpening

/-- What a token adds to the counts is what it changes the depth by, unless it closes more than
is open. -/
theorem count_depthAfter
    (h : [t].countP TokenOf.isClosing ≤ d + [t].countP TokenOf.isOpening) (ts : List Token) :
    (t :: ts).countP TokenOf.isClosing + Assembly.depthAfter d t + ts.countP TokenOf.isOpening =
      ts.countP TokenOf.isClosing + d + (t :: ts).countP TokenOf.isOpening := by
  rcases ho : t.isOpening with _ | _
  · rcases hc : t.isClosing with _ | _
    · simp [Assembly.depthAfter, ho, hc]
    · simp only [List.countP_cons, List.countP_nil, ho, hc, Bool.false_eq_true, if_true,
        if_false] at h
      simp only [Assembly.depthAfter, List.countP_cons, ho, hc, Bool.false_eq_true, if_true,
        if_false]
      omega
  · simp only [Assembly.depthAfter, List.countP_cons, ho, TokenOf.isClosing_of_isOpening ho,
      Bool.false_eq_true, if_true, if_false]
    omega

/-- Behind the first token a run stays within the brackets that are open then. -/
theorem Enclosed.tail (h : Enclosed d (t :: ts)) : Enclosed (Assembly.depthAfter d t) ts := by
  have hcount := count_depthAfter (h.closes [t] ⟨ts, rfl⟩)
  refine ⟨fun p hp => ?_, fun p u hp hu => ?_⟩
  · have hle := h.closes (t :: p) (List.cons_prefix_cons.mpr ⟨rfl, hp⟩)
    have := hcount p
    omega
  · have hlt := h.separates (t :: p) u (List.cons_prefix_cons.mpr ⟨rfl, hp⟩) hu
    have := hcount p
    omega

theorem enclosed_nil (d : Nat) : Enclosed d [] := by
  refine ⟨fun p hp => ?_, fun p t hp => ?_⟩
  · rw [List.prefix_nil.mp hp]
    simp
  · exact absurd (List.prefix_nil.mp hp) (by simp)

/-- Whether a run stays within its brackets can be seen token by token. -/
theorem enclosed_cons : Enclosed d (t :: ts) ↔
    [t].countP TokenOf.isClosing ≤ d + [t].countP TokenOf.isOpening ∧
      (t.isSeparator = true → 0 < d) ∧ Enclosed (Assembly.depthAfter d t) ts := by
  refine ⟨fun h => ⟨h.closes [t] ⟨ts, rfl⟩, fun hs => ?_, h.tail⟩, fun ⟨hfirst, hs, h⟩ => ?_⟩
  · simpa using h.separates [] t ⟨ts, rfl⟩ hs
  have hcount := count_depthAfter hfirst
  refine ⟨fun p hp => ?_, fun p u hp hu => ?_⟩
  · rcases List.prefix_cons_iff.mp hp with rfl | ⟨p, rfl, hp'⟩
    · simp
    · have hle := h.closes p hp'
      have := hcount p
      omega
  · cases p with
    | nil =>
      obtain rfl : u = t := (List.cons_prefix_cons.mp hp).1
      simpa using hs hu
    | cons t' p =>
      obtain ⟨rfl, hp'⟩ := List.cons_prefix_cons.mp hp
      have hlt := h.separates p u hp' hu
      have := hcount p
      omega

instance decidableEnclosed : (d : Nat) → (ts : List Token) → Decidable (Enclosed d ts)
  | d, [] => isTrue (enclosed_nil d)
  | d, t :: ts =>
    have := decidableEnclosed (Assembly.depthAfter d t) ts
    decidable_of_iff _ enclosed_cons.symm

/-- Outside of all brackets a run ends no entry. -/
theorem Enclosed.head (h : Enclosed 0 (t :: ts)) :
    t.isSeparator = false ∧ t.isClosing = false := by
  refine ⟨Bool.eq_false_iff.mpr fun hs => ?_, Bool.eq_false_iff.mpr fun hc => ?_⟩
  · exact absurd (h.separates [] t ⟨ts, rfl⟩ hs) (by simp)
  · have hfirst := h.closes [t] ⟨ts, rfl⟩
    rcases ho : t.isOpening with _ | _
    · simp [ho, hc] at hfirst
    · rw [TokenOf.isClosing_of_isOpening ho] at hc
      exact nomatch hc

/-- **A run that stays within its brackets is skipped**, to the depth that the counts give. -/
theorem Enclosed.skipped (h : Enclosed d ts)
    (hd : d + ts.countP TokenOf.isOpening = d' + ts.countP TokenOf.isClosing) :
    Skipped d ts d' := by
  induction ts generalizing d with
  | nil =>
    obtain rfl : d = d' := hd
    exact .nil
  | cons t ts ih =>
    refine .cons (fun h0 => ?_) (ih h.tail ?_)
    · obtain ⟨hs, hc⟩ := (h0 ▸ h).head
      rw [TokenOf.isClosing, Bool.or_eq_false_iff] at hc
      exact ⟨hs, hc.2⟩
    · have := count_depthAfter (h.closes [t] ⟨ts, rfl⟩) ts
      omega

/-! ### What is derived -/

theorem skipped_other (ho : t.isOpening = false) (hc : t.isClosing = false)
    (hs : d = 0 → t.isSeparator = false) : Skipped d [t] d := by
  refine .cons (fun h0 => ⟨hs h0, ?_⟩) ?_
  · rw [TokenOf.isClosing, Bool.or_eq_false_iff] at hc
    exact hc.2
  · simp only [Assembly.depthAfter, ho, hc, Bool.false_eq_true, if_false]
    exact .nil

theorem skipped_content (h : t.isContent = true) : Skipped d [t] d :=
  skipped_other (TokenOf.isOpening_of_isContent h) (TokenOf.isClosing_of_isContent h)
    fun _ => TokenOf.isSeparator_of_isContent h

theorem skipped_separator (h : t.isSeparator = true) : Skipped (d + 1) [t] (d + 1) :=
  skipped_other (TokenOf.isOpening_of_isSeparator h) (TokenOf.isClosing_of_isSeparator h) nofun

theorem skipped_opening (h : t.isOpening = true) : Skipped d [t] (d + 1) := by
  refine .cons (fun _ => ?_) ?_
  · rcases TokenOf.isOpening_iff.mp h with h | h | h <;>
      simp [TokenOf.isSeparator, TokenOf.isSymbol_eq_false h]
  · simp only [Assembly.depthAfter, h, if_true]
    exact .nil

theorem skipped_closing (h : t.isClosing = true) : Skipped (d + 1) [t] d := by
  refine .cons nofun ?_
  simp only [Assembly.depthAfter, h, TokenOf.isOpening_of_isClosing h, Bool.false_eq_true, if_true,
    if_false]
  exact .nil

/-- What stands between two brackets is skipped with them. -/
theorem skipped_enclosed {o c : Token} (ho : o.isOpening = true) (hc : c.isClosing = true)
    (h : Skipped (d + 1) ts (d + 1)) : Skipped d (o :: (ts ++ [c])) d :=
  (skipped_opening ho).append (h.append (skipped_closing hc))

mutual

/-- **An element is skipped as a whole.** -/
theorem Element.skipped (e : Element) {next : Option Token} (h : e.Valid next) (d : Nat) :
    Skipped d e.tokens d := by
  match e with
  | .content t => exact skipped_content h
  | .null t =>
    have ht : t.isSymbol '~' = true := h
    refine skipped_other (TokenOf.isOpening_of_isSymbol ht (by decide))
      (TokenOf.isClosing_of_isSymbol ht (by decide)) fun _ => ?_
    exact TokenOf.isSeparator_of_beginsElement (Element.beginsElement_head (e := .null t) h)
  | .array o b c =>
    obtain ⟨ho, hb, hc⟩ := h
    exact skipped_enclosed (TokenOf.isOpening_iff.mpr (Or.inr (Or.inl ho)))
      (TokenOf.isClosing_iff.mpr (Or.inr (Or.inl hc))) (Elements.skipped b hb d)
  | .block o b c =>
    obtain ⟨ho, hb, -, hc⟩ := h
    exact skipped_enclosed (TokenOf.isOpening_iff.mpr (Or.inr (Or.inr ho)))
      (TokenOf.isClosing_iff.mpr (Or.inr (Or.inr hc))) (Fields.skipped b hb d)
  | .call f o ps c =>
    obtain ⟨hf, ho, hps, hc, -⟩ := h
    exact (skipped_content hf).append (Elements.skipped_params ps ho hps hc d)
  | .statement f o ps c e =>
    obtain ⟨hf, ho, hps, hc, he⟩ := h
    have hcall : Skipped d (f :: o :: (ps.tokens ++ [c])) d :=
      (skipped_content hf).append (Elements.skipped_params ps ho hps hc d)
    have hdata := hcall.append (Element.skipped e he d)
    simpa [Element.tokens] using hdata

/-- The parameters of a call are skipped with their parentheses. -/
theorem Elements.skipped_params (ps : Elements) {o c : Token} (ho : o.isSymbol '(' = true)
    (h : ps.Valid (some c)) (hc : c.isSymbol ')' = true) (d : Nat) :
    Skipped d (o :: (ps.tokens ++ [c])) d :=
  skipped_enclosed (TokenOf.isOpening_iff.mpr (Or.inl ho))
    (TokenOf.isClosing_iff.mpr (Or.inl hc)) (Elements.skipped ps h d)

/-- Within a bracket elements are skipped with their separators. -/
theorem Elements.skipped (q : Elements) {next : Option Token} (h : q.Valid next) (d : Nat) :
    Skipped (d + 1) q.tokens (d + 1) := by
  match q with
  | .nil => exact .nil
  | .separator t q => exact (skipped_separator h.1).append (Elements.skipped q h.2 d)
  | .element e q => exact (Element.skipped e h.1 (d + 1)).append (Elements.skipped q h.2 d)

/-- Within a bracket entries are skipped with their separators. -/
theorem Fields.skipped (q : Fields) {next : Option Token} (h : q.Valid next) (d : Nat) :
    Skipped (d + 1) q.tokens (d + 1) := by
  match q with
  | .nil => exact .nil
  | .separator t q => exact (skipped_separator h.1).append (Fields.skipped q h.2 d)
  | .field k c v q =>
    obtain ⟨hk, hc, hv, hq⟩ := h
    exact (Fields.skipped_field hk hc v hv (d + 1)).append (Fields.skipped q hq d)

/-- A key with its value is skipped as a whole. -/
theorem Fields.skipped_field {k c : Token} (hk : k.isContent = true) (hc : c.isSymbol ':' = true)
    (v : Element) {next : Option Token} (hv : v.Valid next) (d : Nat) :
    Skipped d (k :: c :: v.tokens) d := by
  have hcolon : Skipped d [c] d := by
    refine skipped_other (TokenOf.isOpening_of_isSymbol hc (by decide))
      (TokenOf.isClosing_of_isSymbol hc (by decide)) fun _ => ?_
    simp [TokenOf.isSeparator, TokenOf.isSymbol_eq_false hc]
  exact (skipped_content hk).append (hcolon.append (Element.skipped v hv d))

end

/-! ### The end of the entry -/

/-- The token that an entry ends at is taken as if no entry had been skipped. -/
theorem feed_skipping (a : Assembly) (b : OpenBlock)
    (h : t.isSeparator = true ∨ t.isSymbol '}' = true) :
    (a.goto (.skipping b 0)).feed t = (a.goto (.between (.entries b))).feed t := by
  simp only [Assembly.feed, Assembly.goto, Assembly.inBetween, Assembly.skip, true_and, if_pos h,
    Assembly.inBlock]
  rcases h with h | h
  · have hc : t.isSymbol '}' = false := TokenOf.isSymbol_of_isSeparator h (by decide)
    simp only [h, hc, Bool.false_eq_true, if_true, if_false]
  · simp only [h, if_true]
    rfl

/-- **Where entries are skipped that were in order, the rest of the block is read without a
further report.** -/
theorem Fields.read_skipping (q : Fields) {a : Assembly} {G : Goal} {b : OpenBlock} {c : Token}
    {r : List Token} (hG : Suffices a G) (h : q.Valid (some c))
    (hfresh : Fresh b (Entries.keys q.entries)) (hc : c.isSymbol '}' = true) (hr : G r) :
    ((a.goto (.skipping b 0)).read (q.tokens ++ c :: r)).2 = a.reversedDiagnostics.reverse := by
  match q with
  | .nil =>
    have hread := hG.read_entries b ⟨.nil, c, r, rfl, h, hfresh, hc, hr⟩
    simp only [Fields.tokens, List.nil_append, Assembly.read_cons] at hread ⊢
    rw [feed_skipping a b (Or.inr hc)]
    exact hread
  | .separator t q =>
    have hread := hG.read_entries b ⟨.separator t q, c, r, rfl, h, hfresh, hc, hr⟩
    simp only [Fields.tokens, List.cons_append, Assembly.read_cons] at hread ⊢
    rw [feed_skipping a b (Or.inl h.1)]
    exact hread
  | .field k colon v q =>
    -- The field is lost with what is skipped, and the entries behind it are as fresh without it.
    obtain ⟨hk, hcolon, hv, hq⟩ := h
    have hfresh' : Fresh b (Entries.keys q.entries) :=
      ⟨(List.pairwise_cons.mp hfresh.1).2, fun l hl => hfresh.2 l (List.mem_cons_of_mem k hl)⟩
    have hskip := (Fields.skipped_field hk hcolon v hv 0).feedAll a b
    calc ((a.goto (.skipping b 0)).read ((Fields.field k colon v q).tokens ++ c :: r)).2
        = (((a.goto (.skipping b 0)).feedAll (k :: colon :: v.tokens)).read
            (q.tokens ++ c :: r)).2 := by
          rw [← Assembly.read_append]
          simp [Fields.tokens]
      _ = ((a.goto (.skipping b 0)).read (q.tokens ++ c :: r)).2 := by rw [hskip]
      _ = a.reversedDiagnostics.reverse := Fields.read_skipping q hG hq hfresh' hc hr

end Grammar

end ContentLang
