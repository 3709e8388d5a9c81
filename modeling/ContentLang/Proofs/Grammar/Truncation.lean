import ContentLang.Proofs.Grammar.Keys
import ContentLang.Proofs.Grammar.Stray
import Mathlib.Data.List.Induction

/-!
# Truncated files

Tokens that are read without a report, cut off somewhere. What is reported of the front part are
the structures that the cut goes through and nothing else
(`ContentLang.Grammar.truncated_reports`): the entry between whose key and value it goes, if there
is one (`ContentLang.Grammar.CutEntry`), and then the brackets that are open there, innermost
first, each at its opening bracket or at the function's name (`ContentLang.Grammar.unclosed`).

Which brackets are open can be seen from the tokens alone. The reader has them in its holes and its
phase (`ContentLang.Assembly.opened`), as long as it has nothing to report. At the end of the file
the holes are closed from the innermost to the outermost. No entry is reported then for a key that
is there already, since that would have been reported behind the cut as well.
-/

namespace ContentLang

open Assembly

namespace Grammar

/-! ### Brackets that nothing closes -/

/-- An open bracket: what it encloses, and the token that it is reported at. -/
structure Opened where
  what : Enclosure
  token : Token

/-- The report of a bracket that nothing closes. -/
def Opened.report (o : Opened) : Diagnostic := .about o.token.origin (.unterminated o.what)

/-- The open brackets after one more token, the innermost first. A parenthesis counts for the name
in front of it. -/
def openedAfter (last : Option Token) (opened : List Opened) (t : Token) : List Opened :=
  if t.isSymbol '(' then ⟨.call, last.getD t⟩ :: opened
  else if t.isSymbol '[' then ⟨.array, t⟩ :: opened
  else if t.isSymbol '{' then ⟨.block, t⟩ :: opened
  else if t.isClosing then opened.tail
  else opened

/-- The open brackets after some tokens, of which the last one is given first. -/
def openedReversed : List Token → List Opened
  | [] => []
  | t :: before => openedAfter before.head? (openedReversed before) t

/-- **The brackets that nothing closes** in some tokens, the innermost first. -/
def unclosed (ts : List Token) : List Opened := openedReversed ts.reverse

theorem unclosed_append_singleton (ts : List Token) (t : Token) :
    unclosed (ts ++ [t]) = openedAfter ts.getLast? (unclosed ts) t := by
  simp [unclosed, openedReversed]

section OpenedAfter

variable {last : Option Token} {opened : List Opened} {t : Token}

theorem openedAfter_paren (h : t.isSymbol '(' = true) :
    openedAfter last opened t = ⟨.call, last.getD t⟩ :: opened := by
  simp [openedAfter, h]

theorem openedAfter_bracket (h : t.isSymbol '[' = true) :
    openedAfter last opened t = ⟨.array, t⟩ :: opened := by
  simp [openedAfter, h, TokenOf.isSymbol_eq_false h (d := '(') (by decide)]

theorem openedAfter_brace (h : t.isSymbol '{' = true) :
    openedAfter last opened t = ⟨.block, t⟩ :: opened := by
  simp [openedAfter, h, TokenOf.isSymbol_eq_false h (d := '(') (by decide),
    TokenOf.isSymbol_eq_false h (d := '[') (by decide)]

theorem openedAfter_closing (h : t.isClosing = true) :
    openedAfter last opened t = opened.tail := by
  simp [openedAfter, h, TokenOf.isSymbol_of_isClosing h (c := '(') (by decide),
    TokenOf.isSymbol_of_isClosing h (c := '[') (by decide),
    TokenOf.isSymbol_of_isClosing h (c := '{') (by decide)]

theorem openedAfter_other (ho : t.isOpening = false) (hc : t.isClosing = false) :
    openedAfter last opened t = opened := by
  simp only [TokenOf.isOpening, Bool.or_eq_false_iff] at ho
  simp [openedAfter, ho, hc]

end OpenedAfter

end Grammar

/-! ### Brackets of a state -/

/-- The bracket that a sequence stands in. -/
def Sequence.opened? : Sequence → Option Grammar.Opened
  | .file => none
  | .array opening => some ⟨.array, opening⟩
  | .params name => some ⟨.call, name⟩

/-- The bracket that a hole stands directly in. -/
def Hole.opened? : Hole → Option Grammar.Opened
  | .item s => s.of.opened?
  | .value b _ => some ⟨.block, b.opening⟩
  | .data _ => none

/-- The brackets around what fills the innermost hole. -/
def openedAround (holes : List Hole) : List Grammar.Opened := holes.filterMap Hole.opened?

@[simp] theorem openedAround_item (s : OpenSequence) (holes : List Hole) :
    openedAround (.item s :: holes) = s.of.opened?.toList ++ openedAround holes := by
  cases h : s.of.opened? <;> simp [openedAround, Hole.opened?, h]

@[simp] theorem openedAround_value (b : OpenBlock) (k : Token) (holes : List Hole) :
    openedAround (.value b k :: holes) = ⟨.block, b.opening⟩ :: openedAround holes := rfl

@[simp] theorem openedAround_data (c : Call) (holes : List Hole) :
    openedAround (.data c :: holes) = openedAround holes := rfl

namespace Assembly

open Grammar

variable {a a' : Assembly} {t : Token} {r u v : List Token} {brackets : List Char}

/-- **The brackets that a state stands in**, the innermost first. -/
def opened (a : Assembly) : List Opened :=
  match a.phase with
  | .between (.elements s) => s.of.opened?.toList ++ openedAround a.holes
  | .between (.entries b) => ⟨.block, b.opening⟩ :: openedAround a.holes
  | .named _ => openedAround a.holes
  | .called _ => openedAround a.holes
  | .keyed b _ => ⟨.block, b.opening⟩ :: openedAround a.holes
  | .valued b _ => ⟨.block, b.opening⟩ :: openedAround a.holes
  | .skipping b _ => ⟨.block, b.opening⟩ :: openedAround a.holes

/-- What fills a hole stands in the brackets around it. -/
theorem opened_finish (n : Node) : (a.finish n).opened = openedAround a.holes := by
  obtain ⟨holes, phase, ds⟩ := a
  induction holes generalizing n with
  | nil => rfl
  | cons hole holes ih =>
    cases hole with
    | item s => exact (openedAround_item s holes).symm
    | value b k => simp [finish, fill, opened, opening_enter]
    | data c => exact ih (.ofStatement c n)

theorem opened_settled (a : Assembly) : a.settled.opened = a.opened := by
  unfold settled
  split
  next hp => rw [opened_finish, opened, hp]
  next hp => rw [opened_finish, opened, hp]
  next => rfl

/-! ### One token -/

theorem opened_begins (last : Option Token) (h : Begins a t a') :
    a'.opened = openedAfter last (openedAround a.holes) t := by
  cases h with
  | content h =>
    rw [openedAfter_other (TokenOf.isOpening_of_isContent h) (TokenOf.isClosing_of_isContent h)]
    rfl
  | array h =>
    rw [openedAfter_bracket h]
    rfl
  | block h =>
    rw [openedAfter_brace h]
    rfl
  | null h =>
    rw [openedAfter_other (TokenOf.isOpening_of_isSymbol h (by decide))
      (TokenOf.isClosing_of_isSymbol h (by decide)), opened_finish]

/-- **One token**: the brackets that a state stands in change as the open brackets do, if content
that may be a name is the last token. -/
theorem opened_takes {last : Option Token} (hname : ∀ f, a.phase = .named f → last = some f)
    (h : Takes a t a') : a'.opened = openedAfter last a.opened t := by
  rw [← opened_settled a]
  cases h with
  | separator hb h =>
    rw [openedAfter_other (TokenOf.isOpening_of_isSeparator h) (TokenOf.isClosing_of_isSeparator h)]
  | @element s _ hs h =>
    rw [opened_begins last h, opened, hs]
    exact congrArg (openedAfter last · t) (openedAround_item s a.settled.holes)
  | closeArray hs ho h =>
    rw [openedAfter_closing (TokenOf.isClosing_iff.mpr (Or.inr (Or.inl h))), opened_finish, opened,
      hs]
    simp [ho, Sequence.opened?]
  | closeParams hs hf h =>
    rw [openedAfter_closing (TokenOf.isClosing_iff.mpr (Or.inl h)), opened.eq_def a.settled, hs]
    simp [hf, Sequence.opened?, opened, goto]
  | closeBlock hb h =>
    rw [openedAfter_closing (TokenOf.isClosing_iff.mpr (Or.inr (Or.inr h))), opened_finish, opened,
      hb]
    rfl
  | key hb h =>
    rw [openedAfter_other (TokenOf.isOpening_of_isContent h) (TokenOf.isClosing_of_isContent h),
      opened.eq_def a.settled, hb]
    rfl
  | @opening f ha h =>
    rw [openedAfter_paren h, hname f ha, opened_settled, opened.eq_def a, ha]
    rfl
  | @data call _ ha h =>
    rw [opened_begins last h, opened_settled, opened.eq_def a, ha]
    rfl
  | colon ha h =>
    rw [openedAfter_other (TokenOf.isOpening_of_isSymbol h (by decide))
      (TokenOf.isClosing_of_isSymbol h (by decide)), opened_settled, opened.eq_def a, ha]
    rfl
  | @value b k _ ha h =>
    rw [opened_begins last h, opened_settled, opened.eq_def a, ha]
    rfl

/-- Content that may be a name is the last token. -/
theorem Takes.named (h : Takes a t a') {f : Token} (hf : a'.phase = .named f) : f = t := by
  have hbegins : ∀ {a : Assembly}, Begins a t a' → f = t := by
    intro a h
    cases h with
    | content h => exact (Phase.named.inj hf).symm
    | array h => exact nomatch hf
    | block h => exact nomatch hf
    | null h => exact nomatch hf
  cases h with
  | separator hb h =>
    rw [hb] at hf
    exact nomatch hf
  | element hs h => exact hbegins h
  | closeArray hs ho h => exact nomatch hf
  | closeParams hs hp h => exact nomatch hf
  | closeBlock hb h => exact nomatch hf
  | key hb h => exact nomatch hf
  | opening ha h => exact nomatch hf
  | data ha h => exact hbegins h
  | colon ha h => exact nomatch hf
  | value ha h => exact hbegins h

/-- A value is due where a key was read, and then its colon. -/
theorem Takes.keyed (h : Takes a t a') {b : OpenBlock} {k : Token} (hv : a'.phase = .valued b k) :
    a.phase = .keyed b k := by
  have hbegins : ∀ {a₀ : Assembly}, Begins a₀ t a' → a.phase = .keyed b k :=
    fun h => absurd hv (h.phase b k).2
  cases h with
  | separator hb h =>
    rw [hb] at hv
    exact nomatch hv
  | element hs h => exact hbegins h
  | closeArray hs ho h => exact nomatch hv
  | closeParams hs hp h => exact nomatch hv
  | closeBlock hb h => exact nomatch hv
  | key hb h => exact nomatch hv
  | opening ha h => exact nomatch hv
  | data ha h => exact hbegins h
  | @colon b' k' ha h =>
    obtain ⟨rfl, rfl⟩ := Phase.valued.inj hv
    exact ha
  | value ha h => exact hbegins h

/-! ### A run without reports -/

/-- Tokens that are not reported, of which there is a last one. -/
theorem exists_last (h : (start.feedAll u).Clean) (hu : (start.feedAll u).phase ≠ start.phase) :
    ∃ u' t, u = u' ++ [t] ∧ (start.feedAll u').Clean ∧
      Takes (start.feedAll u') t (start.feedAll u) := by
  rcases List.eq_nil_or_concat u with rfl | ⟨u', t, rfl⟩
  · exact absurd rfl hu
  · rw [List.concat_eq_append] at h ⊢
    have hlast : start.feedAll (u' ++ [t]) = (start.feedAll u').feed t := by simp [feedAll]
    exact ⟨u', t, rfl, (adds_feed _ t).clean (hlast ▸ h), takes_last h⟩

theorem last_of_named (h : (start.feedAll u).Clean) {f : Token}
    (hf : (start.feedAll u).phase = .named f) : u.getLast? = some f := by
  obtain ⟨u', t, rfl, -, ht⟩ := exists_last h (by rw [hf]; exact nofun)
  rw [ht.named hf]
  simp

/-- The tokens in front of a state that is due a colon end with the key. -/
theorem last_of_keyed (h : (start.feedAll u).Clean) {b : OpenBlock} {k : Token}
    (hk : (start.feedAll u).phase = .keyed b k) : ∃ u', u = u' ++ [k] := by
  obtain ⟨u', t, rfl, -, ht⟩ := exists_last h (by rw [hk]; exact nofun)
  exact ⟨u', by rw [ht.last.1 b k hk]⟩

/-- The tokens in front of a state that is due a value end with its key and a colon. -/
theorem last_of_valued (h : (start.feedAll u).Clean) {b : OpenBlock} {k : Token}
    (hv : (start.feedAll u).phase = .valued b k) :
    ∃ u' c, u = u' ++ [k, c] ∧ c.isSymbol ':' = true := by
  obtain ⟨u', c, rfl, hclean, ht⟩ := exists_last h (by rw [hv]; exact nofun)
  obtain ⟨u'', rfl⟩ := last_of_keyed hclean (ht.keyed hv)
  exact ⟨u'', c, by simp, ht.last.2.mpr ⟨b, k, hv⟩⟩

/-- **As long as nothing is reported, the state stands in the brackets that nothing closes.** -/
theorem opened_feedAll (h : (start.feedAll u).Clean) : (start.feedAll u).opened = unclosed u := by
  induction u using List.reverseRecOn with
  | nil => rfl
  | append_singleton u t ih =>
    have hlast : start.feedAll (u ++ [t]) = (start.feedAll u).feed t := by simp [feedAll]
    have hclean : (start.feedAll u).Clean := (adds_feed _ t).clean (hlast ▸ h)
    rw [unclosed_append_singleton, ← ih hclean]
    exact opened_takes (fun f hf => last_of_named hclean hf) (takes_last h)

/-! ### The end of the file -/

/-- The end of the file closes a sequence in a bracket and reports the bracket. -/
theorem close_of_opened {s : OpenSequence} {o : Opened} (h : s.of.opened? = some o) :
    ∃ m, s.close? = some (m, o.report) := by
  unfold OpenSequence.close?
  cases hs : s.of with
  | file =>
    rw [hs] at h
    exact nomatch h
  | array opening =>
    rw [hs] at h
    obtain rfl := Option.some.inj h
    exact ⟨_, rfl⟩
  | params name =>
    rw [hs] at h
    obtain rfl := Option.some.inj h
    exact ⟨_, rfl⟩

theorem fills_of_called {holes : List Hole} (h : Called (Fills holes) r) :
    ∃ r', Fills holes r' := by
  rcases h with ⟨-, h⟩ | ⟨e, r', -, -, h⟩
  · exact ⟨r, h⟩
  · exact ⟨r', h⟩

/-- Where something is missing around a sequence in a bracket, something is missing around the
bracket. -/
theorem fills_of_elements {s : OpenSequence} {holes : List Hole} (hs : s.of ≠ .file)
    (h : InElements s.of (Fills holes) r) : ∃ r', Fills holes r' := by
  obtain ⟨q, r', -, -, h⟩ := h
  match hof : s.of with
  | .file => exact absurd hof hs
  | .array o =>
    rw [hof] at h
    obtain ⟨c, r'', -, -, h⟩ := h
    exact ⟨r'', h⟩
  | .params f =>
    rw [hof] at h
    obtain ⟨c, r'', -, -, h⟩ := h
    exact fills_of_called h

theorem fills_of_entries {b : OpenBlock} {holes : List Hole} (h : InEntries b (Fills holes) r) :
    ∃ r', Fills holes r' := by
  obtain ⟨q, c, r', -, -, -, -, h⟩ := h
  exact ⟨r', h⟩

theorem fills_of_named {holes : List Hole} (h : Named (Fills holes) r) :
    ∃ r', Fills holes r' := by
  rcases h with h | ⟨o, r', -, -, h⟩
  · exact ⟨r, h⟩
  · exact fills_of_elements (s := ⟨.params o, []⟩) nofun h

theorem fills_of_value {b : OpenBlock} {k : Token} {holes : List Hole}
    (h : ElementThen (Fills (.value b k :: holes)) r) : ∃ r', Fills holes r' := by
  obtain ⟨e, r', -, -, -, n, h⟩ := h
  exact fills_of_entries h

/-- An array and parameters are reported in front of what is around them. -/
theorem closeWith_item_reports {s : OpenSequence} {holes : List Hole} {o : Opened}
    (ho : s.of.opened? = some o) (n : Node)
    (h : ∀ m, (closeWith m holes).2 = (openedAround holes).map Opened.report) :
    (closeWith n (.item s :: holes)).2 = (openedAround (.item s :: holes)).map Opened.report := by
  have hs : (s.push n).of.opened? = some o := ho
  obtain ⟨m, hm⟩ := close_of_opened hs
  simp only [closeWith, hm, h m, openedAround_item, ho]
  rfl

/-- **The end of the file closes the holes from the innermost on**, and reports the bracket of each,
if some tokens could have closed them without a report. -/
theorem closeWith_reports {holes : List Hole} (h : Around holes brackets)
    (hfills : ∃ r, Fills holes r) (n : Node) :
    (closeWith n holes).2 = (openedAround holes).map Opened.report := by
  induction h generalizing n with
  | @file s hs =>
    simp [closeWith, OpenSequence.close?, OpenSequence.push, hs, openedAround, Hole.opened?,
      Sequence.opened?]
  | @array s o holes brackets hs h ih =>
    obtain ⟨r, hr⟩ := hfills
    exact closeWith_item_reports (o := ⟨.array, o⟩) (by rw [hs]; rfl) n
      (ih (fills_of_elements (by simp [hs]) hr))
  | @params s f holes brackets hs h ih =>
    obtain ⟨r, hr⟩ := hfills
    exact closeWith_item_reports (o := ⟨.call, f⟩) (by rw [hs]; rfl) n
      (ih (fills_of_elements (by simp [hs]) hr))
  | @value b k holes brackets h ih =>
    obtain ⟨r, hk, m, hr⟩ := hfills
    -- The key is new, or what was missing could not have been read without a report.
    have henter : (b.enter k n).2 = [] := by simp [OpenBlock.enter, hk]
    simp only [closeWith, henter, ih (fills_of_entries hr), openedAround_value, List.map_cons,
      List.nil_append]
    rw [OpenBlock.unterminated, opening_enter]
    rfl
  | @data c holes brackets h ih => exact ih hfills (.ofStatement c n)

/-- Nothing is around the elements of the file. -/
theorem holes_of_file {s : OpenSequence} {holes : List Hole}
    (h : Around (.item s :: holes) brackets) (hs : s.of.opened? = none) :
    s.of = .file ∧ holes = [] := by
  cases h with
  | file hof => exact ⟨hof, rfl⟩
  | array hof h => simp [hof, Sequence.opened?] at hs
  | params hof h => simp [hof, Sequence.opened?] at hs

/-- The report of the entry that a state stands in, if it is due a colon or a value. -/
def entryReport? (a : Assembly) : Option Diagnostic :=
  match a.phase with
  | .keyed _ k => some (.about k.origin (.missingSeparator k.value))
  | .valued _ k => some (.about k.origin (.missingValue k.value))
  | _ => none

/-- **What the end of the file reports** where some tokens would have gone on without a report. -/
theorem close_reports (hw : a.Within brackets) (h : Residual a r) :
    a.close.2 = a.entryReport?.toList ++ a.opened.map Opened.report := by
  have hblock : ∀ {b : OpenBlock} {k : Token}, Around (.value b k :: a.holes) brackets →
      (∃ r, Fills a.holes r) → (a.closeBlock b).2 =
        Opened.report ⟨.block, b.opening⟩ :: (openedAround a.holes).map Opened.report := by
    intro b k hb hr
    cases hb with
    | value hb =>
      simp only [closeBlock, closeWith_reports hb hr]
      rfl
  unfold Within at hw
  unfold Residual at h
  unfold close entryReport? opened
  cases hp : a.phase with
  | between b =>
    cases b with
    | elements s =>
      simp only [hp] at hw h ⊢
      cases ho : s.of.opened? with
      | none =>
        obtain ⟨hfile, hholes⟩ := holes_of_file hw ho
        simp [OpenSequence.close?, hfile, hholes, openedAround]
      | some o =>
        have hfile : s.of ≠ .file := fun hs => by simp [hs, Sequence.opened?] at ho
        obtain ⟨m, hm⟩ := close_of_opened ho
        simp only [hm, closeWith_reports (around_tail hw hfile) (fills_of_elements hfile h) m]
        rfl
    | entries b =>
      simp only [hp] at hw h ⊢
      exact hblock (hw b.opening) (fills_of_entries h)
  | named f =>
    simp only [hp] at hw h ⊢
    exact closeWith_reports hw (fills_of_named h) _
  | called c =>
    simp only [hp] at hw h ⊢
    exact closeWith_reports hw (fills_of_called h) _
  | keyed b k =>
    simp only [hp] at hw h ⊢
    obtain ⟨c, r', -, -, h⟩ := h
    exact congrArg (_ :: ·) (hblock hw (fills_of_value h))
  | valued b k =>
    simp only [hp] at hw h ⊢
    exact congrArg (_ :: ·) (hblock hw (fills_of_value h))
  | skipping b depth =>
    simp only [hp] at hw

end Assembly

namespace Grammar

variable {u v : List Token}

/-! ### The cut -/

/-- **Whether the first tokens of a derivation end between the key of an entry and its value**, with
the report of the entry. -/
inductive CutEntry (d : Elements) (u : List Token) : Diagnostic → Prop
  /-- The tokens end with the key. -/
  | colon {x : Keyed} (hx : x ∈ d.keys) (hu : u = x.before ++ [x.key]) :
    CutEntry d u (.about x.key.origin (.missingSeparator x.key.value))
  /-- The tokens end with the key and its colon. -/
  | value {x : Keyed} (hx : x ∈ d.keys) (hu : u = x.before ++ [x.key, x.colon]) :
    CutEntry d u (.about x.key.origin (.missingValue x.key.value))

/-- The entry that the cut goes through is the one that the reader stands in. -/
theorem cutEntry_iff {d : Elements} (hd : Derives d (u ++ v)) (h : (parse (u ++ v)).2 = [])
    (report : Diagnostic) :
    CutEntry d u report ↔ (start.feedAll u).entryReport? = some report := by
  rw [parse_append] at h
  have hclean : (start.feedAll u).Clean := clean_of_read h
  have hkeys := keysIn_of_derives hd
  have hskip := (within_feedAll hclean).not_skipping
  constructor
  · intro hcut
    cases hcut with
    | @colon x hx hu =>
      obtain ⟨-, hc, r, hr⟩ := hkeys.stands x hx
      -- The colon comes next, and so the reader stands behind a key, which is the last token.
      have hv : v = x.colon :: r := by
        rw [List.nil_append, hu, List.append_assoc] at hr
        simpa using hr
      obtain ⟨b, k, hp⟩ := colon_first hskip h ⟨x.colon, by simp [hv], hc⟩
      obtain ⟨u', hu'⟩ := last_of_keyed hclean hp
      obtain rfl : x.key = k := by simpa using (List.append_inj' (hu.symm.trans hu') rfl).2
      simp only [entryReport?, hp]
    | @value x hx hu =>
      obtain ⟨-, hc, -⟩ := hkeys.stands x hx
      obtain ⟨b, k, hp⟩ := (colon_last_iff hclean).mp ⟨x.colon, by simp [hu], hc⟩
      obtain ⟨u', c, hu', -⟩ := last_of_valued hclean hp
      obtain ⟨rfl, -⟩ : x.key = k ∧ x.colon = c := by
        simpa using (List.append_inj' (hu.symm.trans hu') rfl).2
      simp only [entryReport?, hp]
  · intro hreport
    unfold entryReport? at hreport
    match hp : (start.feedAll u).phase with
    | .keyed b k =>
      simp only [hp, Option.some.injEq] at hreport
      obtain rfl := hreport
      have hres := residual_of_read h
      rw [Residual, hp] at hres
      obtain ⟨c, r, rfl, hc, -⟩ := hres
      obtain ⟨u', hu⟩ := last_of_keyed hclean hp
      obtain ⟨p, k', hp', hmem⟩ := hkeys.colon u c r rfl hc
      obtain ⟨rfl, rfl⟩ : u' = p ∧ k = k' := by
        simpa using List.append_inj' (hu.symm.trans hp') rfl
      exact .colon hmem hu
    | .valued b k =>
      simp only [hp, Option.some.injEq] at hreport
      obtain rfl := hreport
      obtain ⟨u', c, hu, hc⟩ := last_of_valued hclean hp
      obtain ⟨p, k', hp', hmem⟩ := hkeys.colon (u' ++ [k]) c v (by simp [hu]) hc
      obtain ⟨rfl, rfl⟩ : u' = p ∧ k = k' := by simpa using List.append_inj' hp' rfl
      exact .value hmem hu
    | .between b => simp [hp] at hreport
    | .named f => simp [hp] at hreport
    | .called c => simp [hp] at hreport
    | .skipping b depth => simp [hp] at hreport

/-- **A truncated file reports exactly what the cut goes through**: the entry between whose key and
value the front part ends, if there is one, and then each open bracket, innermost first. -/
theorem truncated_reports (h : (parse (u ++ v)).2 = []) :
    ∃ d, Derives d (u ++ v) ∧ ∃ entry : Option Diagnostic,
      (∀ report, entry = some report ↔ CutEntry d u report) ∧
        (parse u).2 = entry.toList ++ (unclosed u).map Opened.report := by
  obtain ⟨d, hd⟩ := derives_of_parse h
  refine ⟨d, hd, (start.feedAll u).entryReport?,
    fun report => (cutEntry_iff hd h report).symm, ?_⟩
  rw [parse_append] at h
  have hclean : (start.feedAll u).Clean := clean_of_read h
  have hclose := close_reports (within_feedAll hclean) (residual_of_read h)
  calc (parse u).2
      = (start.feedAll u).reversedDiagnostics.reverse ++ (start.feedAll u).close.2 := rfl
    _ = (start.feedAll u).close.2 := by
        rw [show (start.feedAll u).reversedDiagnostics = [] from hclean]
        rfl
    _ = (start.feedAll u).entryReport?.toList ++ (unclosed u).map Opened.report := by
        rw [hclose, opened_feedAll hclean]

/-- Cut off behind a colon, a block in the parameters of a call in an array costs four reports, that
of the call at its name. -/
theorem truncated_reports_value :
    let o : Nat → Origin := fun column => .written ⟨"a.txt", 1, column⟩ 1
    let u : List Token := [.symbol '[' (o 1), .content "F" (o 2), .symbol '(' (o 3),
      .symbol '{' (o 4), .content "k" (o 5), .symbol ':' (o 6)]
    let v : List Token := [.content "x" (o 8), .symbol '}' (o 9), .symbol ')' (o 10),
      .symbol ']' (o 11)]
    (parse (u ++ v)).2 = [] ∧
      (∃ d, Derives d (u ++ v) ∧ ∃ entry : Option Diagnostic,
        (∀ report, entry = some report ↔ CutEntry d u report) ∧
          (parse u).2 = entry.toList ++ (unclosed u).map Opened.report) ∧
      (parse u).2 = [.about (o 5) (.missingValue "k"), .about (o 4) (.unterminated .block),
        .about (o 2) (.unterminated .call), .about (o 1) (.unterminated .array)] := by
  intro o u v
  have hread : (parse (u ++ v)).2 = [] := rfl
  exact ⟨hread, truncated_reports hread, rfl⟩

end Grammar

end ContentLang
