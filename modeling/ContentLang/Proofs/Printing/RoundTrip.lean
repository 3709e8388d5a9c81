import ContentLang.Proofs.Grammar.Reading
import ContentLang.Proofs.Printing.Content
import ContentLang.Proofs.Printing.Rewritten

/-!
# Writing and reading

A file that is written is read without a report, as the same elements
(`ContentLang.parseText_fileText`). The proof gives a derivation of what is written: each
node is written as the tokens of an element that stands for it
(`ContentLang.Node.written`), in either layout and at any depth, as long as content ends
where the node does. What is written behind a node is a separator or a closing bracket,
so that a call without data gets none (`ContentLang.Grammar.Element.Ended`).
-/

namespace ContentLang

namespace Grammar

/-- Whether an element is derived wherever an ender or nothing follows. -/
def Element.Ended (e : Element) : Prop :=
  ∀ next : Option Token, (∀ t ∈ next, t.isEnder = true) → e.Valid next

/-- Whether elements are derived wherever an ender or nothing follows. -/
def Elements.Ended (q : Elements) : Prop :=
  ∀ next : Option Token, (∀ t ∈ next, t.isEnder = true) → q.Valid next

/-- Whether entries are derived wherever an ender or nothing follows. -/
def Fields.Ended (q : Fields) : Prop :=
  ∀ next : Option Token, (∀ t ∈ next, t.isEnder = true) → q.Valid next

theorem isEnder_of_isSeparator {t : Token} (h : t.isSeparator = true) :
    ∀ u ∈ some t, u.isEnder = true := by
  rintro u ⟨⟩
  exact TokenOf.isEnder_iff.mpr (Or.inl h)

theorem isEnder_of_paren {t : Token} (h : t.isSymbol ')' = true) :
    ∀ u ∈ some t, u.isEnder = true := by
  rintro u ⟨⟩
  exact TokenOf.isEnder_iff.mpr (Or.inr (Or.inl h))

theorem Elements.ended_single {e : Element} (h : e.Ended) : (Elements.element e .nil).Ended :=
  fun next hn => ⟨h next hn, trivial⟩

/-- An element with a separator behind it and more elements. -/
theorem Elements.ended_cons {e : Element} {t : Token} {q : Elements} (h : e.Ended)
    (ht : t.isSeparator = true) (hq : q.Ended) :
    (Elements.element e (.separator t q)).Ended :=
  fun next hn => ⟨h (some t) (isEnder_of_isSeparator ht), ht, hq next hn⟩

theorem Fields.ended_single {k c : Token} {v : Element} (hk : k.isContent = true)
    (hc : c.isSymbol ':' = true) (h : v.Ended) : (Fields.field k c v .nil).Ended :=
  fun next hn => ⟨hk, hc, h next hn, trivial⟩

/-- An entry with a separator behind it and more entries. -/
theorem Fields.ended_cons {k c t : Token} {v : Element} {q : Fields} (hk : k.isContent = true)
    (hc : c.isSymbol ':' = true) (h : v.Ended) (ht : t.isSeparator = true) (hq : q.Ended) :
    (Fields.field k c v (.separator t q)).Ended :=
  fun next hn => ⟨hk, hc, h (some t) (isEnder_of_isSeparator ht), ht, hq next hn⟩

end Grammar

open Grammar

/-! ### Stretches between nodes -/

theorem isBlank_of_mem_indentation {depth : Nat} {c : Char} (h : c ∈ indentation depth) :
    isBlank c = true := by
  obtain rfl := List.eq_of_mem_replicate h
  decide

theorem isBlank_of_mem_space : ∀ b ∈ [' '], isBlank b = true :=
  List.forall_mem_singleton.mpr (by decide)

theorem isBlank_of_mem_newline : ∀ b ∈ ['\n'], isBlank b = true :=
  List.forall_mem_singleton.mpr (by decide)

namespace Written

variable {file : String} {uniqueId : List Char} {p : Place}

variable (file) (uniqueId) in
/-- A structural symbol with blanks behind it. -/
theorem symbol_blanks {c : Char} {bs : List Char} (h : isStructural c = true)
    (hb : ∀ b ∈ bs, isBlank b = true) (p : Place) (r : List Char) :
    ∃ t : Token, t.isSymbol c = true ∧ t.quoted = false ∧
      Written file uniqueId p none (c :: bs) [t] r := by
  obtain ⟨t, hc, hq, ht⟩ := symbol file uniqueId h p (bs ++ r)
  exact ⟨t, hc, hq, ht.append (blanks hb)⟩

/-- Blanks in front of a stretch. -/
theorem after_blanks {bs w r : List Char} {ts : List Token} (hb : ∀ b ∈ bs, isBlank b = true)
    (h : Written file uniqueId (p.after bs) none w ts r) :
    Written file uniqueId p none (bs ++ w) ts r :=
  (blanks (p := p) (r := w ++ r) hb).append h

variable (file) (uniqueId) in
/-- A token is written as itself. -/
theorem token {s : Token} (h : s.isContent = true ∨ s.isNull = true) {r : List Char}
    (hr : Stops r) (p : Place) :
    ∃ t : Token, s.Rewritten t ∧ Written file uniqueId p none s.write [t] r := by
  rcases h with hs | hs
  · obtain ⟨o, ho⟩ := content file uniqueId s.quoted s.value hr p
    refine ⟨⟨s.value, true, s.quoted || needsQuotes s.value.toList, o⟩, ⟨rfl, hs.symm, ?_⟩, ?_⟩
    · simp [TokenOf.quotedAgain, hs]
    · rw [TokenOf.write, if_pos hs]
      exact ho
  · obtain ⟨t, ht, hq, ho⟩ := symbol file uniqueId (c := '~') (by decide) p r
    rw [← TokenOf.write_of_isNull hs] at ho
    simp only [TokenOf.isSymbol, TokenOf.isNull, Bool.and_eq_true, Bool.not_eq_true',
      beq_iff_eq] at ht hs
    refine ⟨t, ⟨?_, ?_, ?_⟩, ho⟩
    · rw [ht.2, hs.2]
      rfl
    · rw [ht.1, hs.1]
    · rw [hq, TokenOf.quotedAgain, hs.1, Bool.false_and]

end Written

/-! ### The induction -/

namespace Node

variable (file : String) (uniqueId : List Char)

/-- What is written is a separator and blanks. -/
theorem written_separator {c : Char} (hc : c = ',' ∨ c = ';') {b : Char} (hb : isBlank b = true)
    (p : Place) (r : List Char) :
    ∃ t : Token, t.isSeparator = true ∧ Written file uniqueId p none [c, b] [t] r := by
  have hs : isStructural c = true := by rcases hc with rfl | rfl <;> decide
  obtain ⟨t, ht, -, hw⟩ := Written.symbol_blanks file uniqueId hs
    (List.forall_mem_singleton.mpr hb) p r
  refine ⟨t, TokenOf.isSeparator_iff.mpr ?_, hw⟩
  rcases hc with rfl | rfl
  · exact Or.inr ht
  · exact Or.inl ht

/-- An array is written as one if what is written between its brackets is written as its
items. -/
theorem written_array {bs w cs r : List Char} {is : List Node} (o : Origin)
    (hb : ∀ b ∈ bs, isBlank b = true) (hc : ∀ b ∈ cs, isBlank b = true)
    (hw : ∀ p, ∃ q : Elements, Written file uniqueId p none w q.tokens (cs ++ [']'] ++ r) ∧
      q.Ended ∧ RewrittenAll is q.nodes) (p : Place) :
    ∃ e : Element,
      Written file uniqueId p none (('[' :: bs) ++ (w ++ (cs ++ [']']))) e.tokens r ∧
        e.Ended ∧ (array is o).Rewritten e.node := by
  obtain ⟨opening, hopen, -, hO⟩ := Written.symbol_blanks file uniqueId (c := '[') (by decide)
    hb p (w ++ (cs ++ [']']) ++ r)
  obtain ⟨q, hQ, hq, hre⟩ := hw (p.after ('[' :: bs))
  obtain ⟨closing, hclose, -, hC⟩ := Written.symbol file uniqueId (c := ']') (by decide)
    (((p.after ('[' :: bs)).after w).after cs) r
  refine ⟨.array opening q closing, hO.append (hQ.append (hC.after_blanks hc)),
    fun _ _ => ⟨hopen, hq _ ?_, hclose⟩, hre⟩
  rintro t ⟨⟩
  exact TokenOf.isEnder_iff.mpr (Or.inr (Or.inr (Or.inl hclose)))

/-- A block is written as one if what is written between its brackets is written as its
entries. -/
theorem written_block {bs w cs r : List Char} {es : List (TokenOf Node × Node)} (o : Origin)
    (hb : ∀ b ∈ bs, isBlank b = true) (hc : ∀ b ∈ cs, isBlank b = true)
    (hd : Distinct (Entries.keys es))
    (hw : ∀ p, ∃ q : Fields, Written file uniqueId p none w q.tokens (cs ++ ['}'] ++ r) ∧
      q.Ended ∧ RewrittenEntries es q.entries) (p : Place) :
    ∃ e : Element,
      Written file uniqueId p none (('{' :: bs) ++ (w ++ (cs ++ ['}']))) e.tokens r ∧
        e.Ended ∧ (block es o).Rewritten e.node := by
  obtain ⟨opening, hopen, -, hO⟩ := Written.symbol_blanks file uniqueId (c := '{') (by decide)
    hb p (w ++ (cs ++ ['}']) ++ r)
  obtain ⟨q, hQ, hq, hre⟩ := hw (p.after ('{' :: bs))
  obtain ⟨closing, hclose, -, hC⟩ := Written.symbol file uniqueId (c := '}') (by decide)
    (((p.after ('{' :: bs)).after w).after cs) r
  refine ⟨.block opening q closing, hO.append (hQ.append (hC.after_blanks hc)),
    fun _ _ => ⟨hopen, hq _ ?_, distinct_of_rewritten hre hd, hclose⟩, hre⟩
  rintro t ⟨⟩
  exact TokenOf.isEnder_iff.mpr (Or.inr (Or.inr (Or.inr hclose)))

mutual

/-- **A node is written as an element that stands for it.** -/
theorem written (n : Node) (h : n.Writable) (layout : Layout) (depth : Nat) {r : List Char}
    (hr : Stops r) (p : Place) :
    ∃ e : Element, Written file uniqueId p none (n.write layout depth) e.tokens r ∧
      e.Ended ∧ n.Rewritten e.node := by
  match n with
  | .token s =>
    obtain ⟨t, hst, ht⟩ := Written.token file uniqueId h hr p
    rcases h with hs | hs
    · exact ⟨.content t, ht, fun _ _ => hst.2.1.trans hs, hst⟩
    -- The null value is a symbol and comes back as one.
    · refine ⟨.null t, ht, fun _ _ => ?_, hst⟩
      rw [TokenOf.isNull_eq_isSymbol] at hs
      rw [Element.Valid, TokenOf.isSymbol, hst.1, hst.2.1]
      exact hs
  | .call f ps o =>
    have htext : (call f ps o).write layout depth =
        writeContent false f ++ '(' :: (writeItems layout depth ps ++ [')']) := by
      simp [Node.write]
    obtain ⟨name, opening, q, closing, hname, hopen, hq, hclose, hF, hre⟩ :=
      written_front f ps h layout depth r p
    -- Nothing but an ender follows, so the call has no data.
    refine ⟨.call name opening q closing, ?_,
      fun next hn => ⟨hname.1, hopen, hq, hclose, hn⟩, hname.2, hre⟩
    rw [htext]
    exact hF
  | .statement f ps o d =>
    have htext : (statement f ps o d).write layout depth =
        (writeContent false f ++ '(' :: (writeItems layout depth ps ++ [')'])) ++
          ([' '] ++ d.write layout depth) := by
      simp [Node.write]
    obtain ⟨name, opening, q, closing, hname, hopen, hq, hclose, hF, hre⟩ :=
      written_front f ps h.1 layout depth ([' '] ++ d.write layout depth ++ r) p
    obtain ⟨e, hE, he, hred⟩ := written d h.2 layout depth hr
      ((p.after (writeContent false f ++ '(' :: (writeItems layout depth ps ++ [')']))).after [' '])
    refine ⟨.statement name opening q closing e, ?_,
      fun next hn => ⟨hname.1, hopen, hq, hclose, he next hn⟩, hname.2, hre, hred⟩
    rw [htext]
    -- One blank stands between the parameters and the data.
    have htokens := hF.append (hE.after_blanks isBlank_of_mem_space)
    simpa [Element.tokens] using htokens
  | .block [] o =>
    have hnil : ∀ b ∈ ([] : List Char), isBlank b = true := by simp
    have hbody : ∀ p, ∃ q : Fields,
        Written file uniqueId p none [] q.tokens ([] ++ ['}'] ++ r) ∧ q.Ended ∧
          RewrittenEntries [] q.entries :=
      fun p => ⟨.nil, Written.nil, fun _ _ => trivial, trivial⟩
    have hdistinct : Distinct (Entries.keys ([] : Entries Token Node)) := List.Pairwise.nil
    exact written_block file uniqueId o hnil hnil hdistinct hbody p
  | .block (e :: es) o =>
    cases layout with
    | compact =>
      have htext : (block (e :: es) o).write .compact depth =
          ['{', ' '] ++ (writeEntries depth (e :: es) ++ ([' '] ++ ['}'])) := by
        simp [Node.write]
      rw [htext]
      have hstop : Stops ([' '] ++ ['}'] ++ r) := Or.inr ⟨by decide, Or.inl (by decide)⟩
      exact written_block file uniqueId o isBlank_of_mem_space isBlank_of_mem_space h.2
        (fun p => written_entries (e :: es) h.1 depth hstop p) p
    | spread =>
      have htext : (block (e :: es) o).write .spread depth = ['{', '\n'] ++
          (writeEntryLines (depth + 1) (e :: es) ++ (indentation depth ++ ['}'])) := by
        simp [Node.write]
      rw [htext]
      exact written_block file uniqueId o isBlank_of_mem_newline
        (fun _ => isBlank_of_mem_indentation) h.2
        (fun p => written_entryLines (e :: es) h.1 (depth + 1) _ p) p
  | .array is o =>
    -- An array of tokens alone stays on one line in either layout.
    by_cases hone : layout = .compact ∨ is.all isToken = true
    · have htext : (array is o).write layout depth =
          ['['] ++ (writeItems layout depth is ++ ([] ++ [']'])) := by
        rw [Node.write, if_pos hone]
        rfl
      rw [htext]
      exact written_array file uniqueId o (by simp) (by simp) (fun p =>
        written_items is h layout depth (stops_of_isStructural (by decide) r) p) p
    · have htext : (array is o).write layout depth =
          ['[', '\n'] ++ (writeItemLines (depth + 1) is ++ (indentation depth ++ [']'])) := by
        rw [Node.write, if_neg hone]
        simp
      rw [htext]
      exact written_array file uniqueId o isBlank_of_mem_newline
        (fun _ => isBlank_of_mem_indentation) (fun p => written_itemLines is h (depth + 1) _ p) p
termination_by (sizeOf n, 0)
decreasing_by
  all_goals
    simp only [Prod.lex_def, call.sizeOf_spec, statement.sizeOf_spec, block.sizeOf_spec,
      array.sizeOf_spec]
    omega

/-- A call is written as its name and its parameters between parentheses. -/
theorem written_front (f : String) (ps : List Node) (h : WritableAll ps) (layout : Layout)
    (depth : Nat) (r : List Char) (p : Place) :
    ∃ (name o : Token) (q : Elements) (c : Token), (name.isContent = true ∧ name.value = f) ∧
      o.isSymbol '(' = true ∧ q.Valid (some c) ∧ c.isSymbol ')' = true ∧
        Written file uniqueId p none
          (writeContent false f ++ '(' :: (writeItems layout depth ps ++ [')']))
          (name :: o :: (q.tokens ++ [c])) r ∧ RewrittenAll ps q.nodes := by
  obtain ⟨of, hF⟩ := Written.content file uniqueId false f
    (r := '(' :: (writeItems layout depth ps ++ [')']) ++ r)
    (stops_of_isStructural (by decide) _) p
  obtain ⟨o, ho, -, hO⟩ := Written.symbol file uniqueId (c := '(') (by decide)
    (p.after (writeContent false f)) ((writeItems layout depth ps ++ [')']) ++ r)
  obtain ⟨q, hQ, hq, hre⟩ := written_items ps h layout depth (r := [')'] ++ r)
    (stops_of_isStructural (by decide) r) ((p.after (writeContent false f)).after ['('])
  obtain ⟨c, hc, -, hC⟩ := Written.symbol file uniqueId (c := ')') (by decide)
    (((p.after (writeContent false f)).after ['(']).after (writeItems layout depth ps)) r
  exact ⟨⟨f, true, false || needsQuotes f.toList, of⟩, o, q, c, ⟨rfl, rfl⟩, ho,
    hq _ (isEnder_of_paren hc), hc, hF.append (hO.append (hQ.append hC)), hre⟩
termination_by (sizeOf ps, 1)
decreasing_by exact Prod.Lex.right _ Nat.zero_lt_one

/-- Items on one line are written as elements. -/
theorem written_items (ns : List Node) (h : WritableAll ns) (layout : Layout) (depth : Nat)
    {r : List Char} (hr : Stops r) (p : Place) :
    ∃ q : Elements, Written file uniqueId p none (writeItems layout depth ns) q.tokens r ∧
      q.Ended ∧ RewrittenAll ns q.nodes := by
  match ns with
  | [] => exact ⟨.nil, Written.nil, fun _ _ => trivial, trivial⟩
  | [n] =>
    obtain ⟨e, hE, he, hre⟩ := written n h.1 layout depth hr p
    refine ⟨.element e .nil, ?_, Elements.ended_single he, hre, trivial⟩
    rw [writeItems, Elements.tokens, Elements.tokens, List.append_nil]
    exact hE
  | n :: m :: ns =>
    obtain ⟨e, hE, he, hre⟩ := written n h.1 layout depth
      (r := [',', ' '] ++ writeItems layout depth (m :: ns) ++ r)
      (stops_of_isStructural (by decide) _) p
    obtain ⟨t, ht, hT⟩ := written_separator file uniqueId (c := ',') (Or.inl rfl) (b := ' ')
      (by decide) (p.after (n.write layout depth)) (writeItems layout depth (m :: ns) ++ r)
    obtain ⟨q, hQ, hq, hres⟩ := written_items (m :: ns) h.2 layout depth hr
      ((p.after (n.write layout depth)).after [',', ' '])
    exact ⟨.element e (.separator t q), hE.append (hT.append hQ),
      Elements.ended_cons he ht hq, hre, hres⟩
termination_by (sizeOf ns, 0)
decreasing_by
  all_goals
    simp only [Prod.lex_def, List.cons.sizeOf_spec]
    omega

/-- Items on lines of their own are written as elements. -/
theorem written_itemLines (ns : List Node) (h : WritableAll ns) (depth : Nat) (r : List Char)
    (p : Place) :
    ∃ q : Elements, Written file uniqueId p none (writeItemLines depth ns) q.tokens r ∧
      q.Ended ∧ RewrittenAll ns q.nodes := by
  match ns with
  | [] => exact ⟨.nil, Written.nil, fun _ _ => trivial, trivial⟩
  | n :: ns =>
    have htext : writeItemLines depth (n :: ns) = indentation depth ++
        (n.write .spread depth ++ ([',', '\n'] ++ writeItemLines depth ns)) := by
      simp [writeItemLines]
    obtain ⟨e, hE, he, hre⟩ := written n h.1 .spread depth
      (r := [',', '\n'] ++ writeItemLines depth ns ++ r)
      (stops_of_isStructural (by decide) _) (p.after (indentation depth))
    obtain ⟨t, ht, hT⟩ := written_separator file uniqueId (c := ',') (Or.inl rfl) (b := '\n')
      (by decide) ((p.after (indentation depth)).after (n.write .spread depth))
      (writeItemLines depth ns ++ r)
    obtain ⟨q, hQ, hq, hres⟩ := written_itemLines ns h.2 depth r
      (((p.after (indentation depth)).after (n.write .spread depth)).after [',', '\n'])
    refine ⟨.element e (.separator t q), ?_, Elements.ended_cons he ht hq, hre, hres⟩
    rw [htext]
    exact (hE.append (hT.append hQ)).after_blanks fun _ => isBlank_of_mem_indentation
termination_by (sizeOf ns, 0)
decreasing_by
  all_goals
    simp only [Prod.lex_def, List.cons.sizeOf_spec]
    omega

/-- A key with its value is written as an entry. -/
theorem written_field (k : Token) (n : Node) (hk : k.isContent = true) (h : n.Writable)
    (layout : Layout) (depth : Nat) {r : List Char} (hr : Stops r) (p : Place) :
    ∃ (l c : Token) (e : Element), l.isContent = true ∧ c.isSymbol ':' = true ∧
      Written file uniqueId p none (k.write ++ (':' :: ' ' :: n.write layout depth))
        (l :: c :: e.tokens) r ∧ e.Ended ∧ k.Rewritten l ∧ n.Rewritten e.node := by
  obtain ⟨l, hkl, hK⟩ := Written.token file uniqueId (s := k) (Or.inl hk)
    (r := ':' :: ' ' :: n.write layout depth ++ r) (stops_of_isStructural (by decide) _) p
  obtain ⟨c, hc, -, hC⟩ := Written.symbol_blanks file uniqueId (c := ':') (by decide)
    isBlank_of_mem_space (p.after k.write) (n.write layout depth ++ r)
  obtain ⟨e, hE, he, hre⟩ := written n h layout depth hr ((p.after k.write).after [':', ' '])
  exact ⟨l, c, e, hkl.2.1.trans hk, hc, hK.append (hC.append hE), he, hkl, hre⟩
termination_by (sizeOf n, 1)
decreasing_by exact Prod.Lex.right _ Nat.zero_lt_one

/-- Entries on one line are written as fields. -/
theorem written_entries (es : List (TokenOf Node × Node)) (h : WritableEntries es) (depth : Nat)
    {r : List Char} (hr : Stops r) (p : Place) :
    ∃ q : Fields, Written file uniqueId p none (writeEntries depth es) q.tokens r ∧
      q.Ended ∧ RewrittenEntries es q.entries := by
  match es with
  | [] => exact ⟨.nil, Written.nil, fun _ _ => trivial, trivial⟩
  | [(k, n)] =>
    obtain ⟨l, c, e, hl, hc, hE, he, hkl, hre⟩ :=
      written_field k n h.1 h.2.1 .compact depth hr p
    refine ⟨.field l c e .nil, ?_, Fields.ended_single hl hc he, hkl, hre, trivial⟩
    rw [writeEntries, Fields.tokens, Fields.tokens, List.append_nil]
    exact hE
  | (k, n) :: f :: es =>
    have htext : writeEntries depth ((k, n) :: f :: es) =
        (k.write ++ (':' :: ' ' :: n.write .compact depth)) ++
          ([';', ' '] ++ writeEntries depth (f :: es)) := by
      simp [writeEntries]
    obtain ⟨l, c, e, hl, hc, hE, he, hkl, hre⟩ := written_field k n h.1 h.2.1 .compact depth
      (r := [';', ' '] ++ writeEntries depth (f :: es) ++ r)
      (stops_of_isStructural (by decide) _) p
    obtain ⟨t, ht, hT⟩ := written_separator file uniqueId (c := ';') (Or.inr rfl) (b := ' ')
      (by decide) (p.after (k.write ++ (':' :: ' ' :: n.write .compact depth)))
      (writeEntries depth (f :: es) ++ r)
    obtain ⟨q, hQ, hq, hres⟩ := written_entries (f :: es) h.2.2 depth hr
      ((p.after (k.write ++ (':' :: ' ' :: n.write .compact depth))).after [';', ' '])
    refine ⟨.field l c e (.separator t q), ?_, Fields.ended_cons hl hc he ht hq, hkl, hre, hres⟩
    rw [htext]
    exact hE.append (hT.append hQ)
termination_by (sizeOf es, 0)
decreasing_by
  all_goals
    simp only [Prod.lex_def, List.cons.sizeOf_spec, Prod.mk.sizeOf_spec]
    omega

/-- Entries on lines of their own are written as fields. -/
theorem written_entryLines (es : List (TokenOf Node × Node)) (h : WritableEntries es)
    (depth : Nat) (r : List Char) (p : Place) :
    ∃ q : Fields, Written file uniqueId p none (writeEntryLines depth es) q.tokens r ∧
      q.Ended ∧ RewrittenEntries es q.entries := by
  match es with
  | [] => exact ⟨.nil, Written.nil, fun _ _ => trivial, trivial⟩
  | (k, n) :: es =>
    have htext : writeEntryLines depth ((k, n) :: es) = indentation depth ++
        ((k.write ++ (':' :: ' ' :: n.write .spread depth)) ++
          ([';', '\n'] ++ writeEntryLines depth es)) := by
      simp [writeEntryLines]
    let p' := p.after (indentation depth)
    obtain ⟨l, c, e, hl, hc, hE, he, hkl, hre⟩ := written_field k n h.1 h.2.1 .spread depth
      (r := [';', '\n'] ++ writeEntryLines depth es ++ r)
      (stops_of_isStructural (by decide) _) p'
    obtain ⟨t, ht, hT⟩ := written_separator file uniqueId (c := ';') (Or.inr rfl) (b := '\n')
      (by decide) (p'.after (k.write ++ (':' :: ' ' :: n.write .spread depth)))
      (writeEntryLines depth es ++ r)
    obtain ⟨q, hQ, hq, hres⟩ := written_entryLines es h.2.2 depth r
      ((p'.after (k.write ++ (':' :: ' ' :: n.write .spread depth))).after [';', '\n'])
    refine ⟨.field l c e (.separator t q), ?_, Fields.ended_cons hl hc he ht hq, hkl, hre, hres⟩
    rw [htext]
    exact (hE.append (hT.append hQ)).after_blanks fun _ => isBlank_of_mem_indentation
termination_by (sizeOf es, 0)
decreasing_by
  all_goals
    simp only [Prod.lex_def, List.cons.sizeOf_spec, Prod.mk.sizeOf_spec]
    omega

end

/-- The elements of a file are written as elements. -/
theorem written_file (ns : List Node) (h : WritableAll ns) (layout : Layout) (p : Place) :
    ∃ q : Elements, Written file uniqueId p none (writeFile layout ns) q.tokens [] ∧
      q.Ended ∧ RewrittenAll ns q.nodes := by
  induction ns generalizing p with
  | nil => exact ⟨.nil, Written.nil, fun _ _ => trivial, trivial⟩
  | cons n ns ih =>
    obtain ⟨hn, hns⟩ := h
    have htext : writeFile layout (n :: ns) =
        n.write layout 0 ++ ([';', '\n'] ++ writeFile layout ns) := by
      simp [writeFile]
    obtain ⟨e, hE, he, hre⟩ := written file uniqueId n hn layout 0
      (r := [';', '\n'] ++ writeFile layout ns ++ []) (stops_of_isStructural (by decide) _) p
    obtain ⟨t, ht, hT⟩ := written_separator file uniqueId (c := ';') (Or.inr rfl) (b := '\n')
      (by decide) (p.after (n.write layout 0)) (writeFile layout ns ++ [])
    obtain ⟨q, hQ, hq, hres⟩ := ih hns ((p.after (n.write layout 0)).after [';', '\n'])
    refine ⟨.element e (.separator t q), ?_, Elements.ended_cons he ht hq, hre, hres⟩
    rw [htext]
    exact hE.append (hT.append hQ)

end Node

/-! ### Files -/

/-- A whole text that is written as elements is read as these, without a report. -/
theorem parseText_of_written {cs : List Char} {file uniqueId : String} {q : Elements}
    (hQ : Written file uniqueId.toList .start none cs q.tokens []) (hq : q.Ended) :
    parseText (String.ofList cs) file uniqueId = (q.nodes, []) := by
  have hsplit : Piece.split [] = [] := by rw [Piece.split]
  have htokens := hQ.tokens
  have hclean := hQ.clean
  simp only [List.append_nil, hsplit, Piece.tokensFrom, Piece.diagnosticsFrom, Option.map_none,
    Option.toList_none] at htokens hclean
  have hlex : tokenize (String.ofList cs) file uniqueId = (q.tokens, []) := by
    simp only [tokenize, Piece.tokens, Piece.diagnostics, String.toList_ofList, htokens, hclean]
  have hparse : parse q.tokens = (q.nodes, []) := parse_of_derives ⟨rfl, hq none (by simp)⟩
  simp only [parseText, hlex, hparse, List.append_nil]

/-- A node that is written and read again. -/
theorem parseText_text {n : Node} (h : n.Writable) (layout : Layout) (file uniqueId : String) :
    ∃ m, parseText (n.text layout) file uniqueId = ([m], []) ∧ n.Rewritten m := by
  obtain ⟨e, hE, he, hre⟩ := Node.written file uniqueId.toList n h layout 0 (r := []) trivial .start
  have htokens : (Elements.element e .nil).tokens = e.tokens := List.append_nil _
  rw [← htokens] at hE
  exact ⟨e.node, parseText_of_written hE (Elements.ended_single he), hre⟩

/-- A file that is written and read again. -/
theorem parseText_fileText {items : List Node} (h : Node.WritableAll items) (layout : Layout)
    (file uniqueId : String) :
    ∃ ns, parseText (Node.fileText layout items) file uniqueId = (ns, []) ∧
      Node.RewrittenAll items ns := by
  obtain ⟨q, hQ, hq, hre⟩ := Node.written_file file uniqueId.toList items h layout .start
  exact ⟨q.nodes, parseText_of_written hQ hq, hre⟩

/-- **What is written is read again.** The text of a root, in either layout, is read without
a report in any pack; the root read is equal to the one written, it differs from it in the
quotes of content alone, and it is written as the same text again. -/
theorem reads_what_is_written (items : List Node) (o : Origin) (layout : Layout)
    (file uniqueId : String) (h : (Node.array items o).Writable) :
    let r := parseText (Node.fileText layout items) file uniqueId
    r.2 = [] ∧ (Node.array items o == rootOf file r.1) = true ∧
      (Node.array items o).Rewritten (rootOf file r.1) ∧
      ∀ layout', Node.fileText layout' r.1 = Node.fileText layout' items := by
  obtain ⟨ns, hns, hre⟩ := parseText_fileText h layout file uniqueId
  rw [hns]
  refine ⟨rfl, Node.same_of_rewritten (m := .array items o) hre, hre, fun layout' => ?_⟩
  rw [Node.fileText, Node.fileText, Node.writeFile_rewritten hre]

/-- A statement whose data is a block, with a value that has to be quoted, and a null. -/
theorem reads_what_is_written_statement :
    let o : Origin := .unwritten
    let items : List Node := [.statement "f" [.token (.null o)] o
      (.block [(.key "a b", .token (.content "x, \"y\"" o)), (.key "c", .array [] o)] o)]
    (Node.array items o).Writable ∧
      let r := parseText (Node.fileText .spread items) "a.txt" "pack"
      r.2 = [] ∧ (Node.array items o == rootOf "a.txt" r.1) = true ∧
        (Node.array items o).Rewritten (rootOf "a.txt" r.1) ∧
        ∀ layout', Node.fileText layout' r.1 = Node.fileText layout' items := by
  intro o items
  have h : (Node.array items o).Writable := by
    simp [items, Node.Writable, Node.WritableAll, Node.WritableEntries, Distinct, Entries.keys,
      TokenOf.null, TokenOf.isNull, TokenOf.key, TokenOf.content, nullSymbol]
    rfl
  exact ⟨h, reads_what_is_written items o .spread "a.txt" "pack" h⟩

/-- The null value is written without quotes and comes back without them, although its
spelling would need quotes if it were content. -/
theorem null_comes_back_unquoted :
    ∃ t : Token, (parseText (Node.fileText .compact [.token (.null .unwritten)]) "a.txt" "").1 =
      [.token t] ∧ t.quoted = false ∧
        ((TokenOf.null .unwritten : Token).quoted ||
          needsQuotes (TokenOf.null .unwritten : Token).value.toList) = true := by
  have h : Node.WritableAll [.token (.null .unwritten)] := ⟨Or.inr rfl, trivial⟩
  obtain ⟨ns, hns, hre⟩ := parseText_fileText h .compact "a.txt" ""
  rw [hns]
  match ns, hre with
  | [.token t], hre => exact ⟨t, rfl, hre.1.2.2, rfl⟩

end ContentLang
