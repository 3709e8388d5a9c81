import ContentLang.Proofs.Grammar.Residual

/-!
# Open brackets

Which brackets are open after some tokens is a matter of the tokens alone
(`ContentLang.Grammar.openIn`). As long as the reader has nothing to report, it is also what its
holes and its phase say (`ContentLang.Assembly.Within`): an item of an array or of parameters
stands within a square bracket or a parenthesis, a value within a brace, data where the call
stands, and the elements of the file within nothing.

| | |
|---|---|
| `ContentLang.Assembly.Takes` | all that a token can do without being reported |
| `ContentLang.Assembly.Takes.last` | what a phase says of the last token |
| `ContentLang.Assembly.within_feedAll` | the state knows the open brackets |
-/

namespace ContentLang

namespace TokenOf

variable {ν : Type} {t : TokenOf ν}

theorem isClosing_iff : t.isClosing = true ↔
    t.isSymbol ')' = true ∨ t.isSymbol ']' = true ∨ t.isSymbol '}' = true := by
  simp [isClosing, or_assoc]

theorem isOpening_iff : t.isOpening = true ↔
    t.isSymbol '(' = true ∨ t.isSymbol '[' = true ∨ t.isSymbol '{' = true := by
  simp [isOpening, or_assoc]

/-- A closing bracket is no opening one. -/
theorem isSymbol_of_isClosing {c : Char} (h : t.isClosing = true)
    (hc : c ≠ ')' ∧ c ≠ ']' ∧ c ≠ '}') : t.isSymbol c = false := by
  rcases isClosing_iff.mp h with h | h | h
  · exact isSymbol_eq_false h hc.1.symm
  · exact isSymbol_eq_false h hc.2.1.symm
  · exact isSymbol_eq_false h hc.2.2.symm

theorem isClosing_of_isSymbol {c : Char} (h : t.isSymbol c = true)
    (hc : c ≠ ')' ∧ c ≠ ']' ∧ c ≠ '}') : t.isClosing = false := by
  simp [isClosing, isSymbol_eq_false h hc.1, isSymbol_eq_false h hc.2.1,
    isSymbol_eq_false h hc.2.2]

theorem isOpening_of_isSymbol {c : Char} (h : t.isSymbol c = true)
    (hc : c ≠ '(' ∧ c ≠ '[' ∧ c ≠ '{') : t.isOpening = false := by
  simp [isOpening, isSymbol_eq_false h hc.1, isSymbol_eq_false h hc.2.1,
    isSymbol_eq_false h hc.2.2]

theorem isClosing_of_isSeparator (h : t.isSeparator = true) : t.isClosing = false := by
  simp [isClosing, isSymbol_of_isSeparator h]

theorem isOpening_of_isSeparator (h : t.isSeparator = true) : t.isOpening = false := by
  simp [isOpening, isSymbol_of_isSeparator h]

theorem isOpening_of_isClosing (h : t.isClosing = true) : t.isOpening = false := by
  simp [isOpening, isSymbol_of_isClosing h]

theorem isClosing_of_isOpening (h : t.isOpening = true) : t.isClosing = false := by
  rcases isOpening_iff.mp h with h | h | h <;> exact isClosing_of_isSymbol h (by decide)

theorem isClosing_of_isContent (h : t.isContent = true) : t.isClosing = false := by
  simp [isClosing, isSymbol_of_isContent h]

theorem isContent_of_isClosing (h : t.isClosing = true) : t.isContent = false := by
  rcases isClosing_iff.mp h with h | h | h <;> exact isContent_of_isSymbol h

theorem isEnder_of_isClosing (h : t.isClosing = true) : t.isEnder = true :=
  isEnder_iff.mpr (Or.inr (isClosing_iff.mp h))

theorem isOpening_of_isContent (h : t.isContent = true) : t.isOpening = false := by
  simp [isOpening, isSymbol_of_isContent h]

theorem isSeparator_of_isContent (h : t.isContent = true) : t.isSeparator = false := by
  simp [isSeparator, isSymbol_of_isContent h]

end TokenOf

namespace Grammar

/-! ### Brackets of tokens -/

/-- The brackets that are open after one more token, the innermost first. A closing bracket
closes the innermost one. -/
def openAfter (brackets : List Char) (t : Token) : List Char :=
  if t.isSymbol '(' then '(' :: brackets
  else if t.isSymbol '[' then '[' :: brackets
  else if t.isSymbol '{' then '{' :: brackets
  else if t.isClosing then brackets.tail
  else brackets

/-- **The brackets that are open after some tokens**, the innermost first. -/
def openIn (ts : List Token) : List Char := ts.foldl openAfter []

/-- The symbol that closes a bracket. -/
def closerOf (bracket : Char) : Char :=
  if bracket = '(' then ')' else if bracket = '[' then ']' else '}'

variable {brackets : List Char} {t : Token}

theorem openAfter_paren (h : t.isSymbol '(' = true) : openAfter brackets t = '(' :: brackets := by
  simp [openAfter, h]

theorem openAfter_bracket (h : t.isSymbol '[' = true) :
    openAfter brackets t = '[' :: brackets := by
  simp [openAfter, h, TokenOf.isSymbol_eq_false h (d := '(') (by decide)]

theorem openAfter_brace (h : t.isSymbol '{' = true) : openAfter brackets t = '{' :: brackets := by
  simp [openAfter, h, TokenOf.isSymbol_eq_false h (d := '(') (by decide),
    TokenOf.isSymbol_eq_false h (d := '[') (by decide)]

theorem openAfter_closing (h : t.isClosing = true) : openAfter brackets t = brackets.tail := by
  simp [openAfter, h, TokenOf.isSymbol_of_isClosing h (c := '(') (by decide),
    TokenOf.isSymbol_of_isClosing h (c := '[') (by decide),
    TokenOf.isSymbol_of_isClosing h (c := '{') (by decide)]

theorem openAfter_other (ho : t.isOpening = false) (hc : t.isClosing = false) :
    openAfter brackets t = brackets := by
  simp only [TokenOf.isOpening, Bool.or_eq_false_iff] at ho
  simp [openAfter, ho, hc]

end Grammar

open Grammar

namespace Assembly

variable {a a' : Assembly} {t : Token}

/-! ### A token that is not reported -/

/-- A state once a node that waits for the token behind it is finished. -/
def settled (a : Assembly) : Assembly :=
  match a.phase with
  | .named name => a.finish (.token name)
  | .called call => a.finish (.ofCall call)
  | _ => a

/-- What the first token of an element does. -/
inductive Begins (a : Assembly) (t : Token) : Assembly → Prop
  | content (h : t.isContent = true) : Begins a t (a.goto (.named t))
  | array (h : t.isSymbol '[' = true) :
    Begins a t (a.goto (.between (.elements ⟨.array t, []⟩)))
  | block (h : t.isSymbol '{' = true) : Begins a t (a.goto (.between (.entries ⟨t, []⟩)))
  | null (h : t.isSymbol '~' = true) : Begins a t (a.finish (.token t))

/-- **What a token does that is not reported**: the state that a state goes to. -/
inductive Takes (a : Assembly) (t : Token) : Assembly → Prop
  | separator {b : Between} (hb : a.settled.phase = .between b) (h : t.isSeparator = true) :
    Takes a t a.settled
  | element {s : OpenSequence} {a' : Assembly} (hs : a.settled.phase = .between (.elements s))
    (h : Begins (a.settled.expect (.item s)) t a') : Takes a t a'
  | closeArray {s : OpenSequence} {o : Token} (hs : a.settled.phase = .between (.elements s))
    (ho : s.of = .array o) (h : t.isSymbol ']' = true) :
    Takes a t (a.settled.finish (.array s.items o.origin))
  | closeParams {s : OpenSequence} {f : Token} (hs : a.settled.phase = .between (.elements s))
    (hf : s.of = .params f) (h : t.isSymbol ')' = true) :
    Takes a t (a.settled.goto (.called (callOf f s.items)))
  | closeBlock {b : OpenBlock} (hb : a.settled.phase = .between (.entries b))
    (h : t.isSymbol '}' = true) : Takes a t (a.settled.finish b.node)
  | key {b : OpenBlock} (hb : a.settled.phase = .between (.entries b)) (h : t.isContent = true) :
    Takes a t (a.settled.goto (.keyed b t))
  | opening {name : Token} (ha : a.phase = .named name) (h : t.isSymbol '(' = true) :
    Takes a t (a.goto (.between (.elements ⟨.params name, []⟩)))
  | data {call : Call} {a' : Assembly} (ha : a.phase = .called call)
    (h : Begins (a.expect (.data call)) t a') : Takes a t a'
  | colon {b : OpenBlock} {k : Token} (ha : a.phase = .keyed b k) (h : t.isSymbol ':' = true) :
    Takes a t (a.goto (.valued b k))
  | value {b : OpenBlock} {k : Token} {a' : Assembly} (ha : a.phase = .valued b k)
    (h : Begins (a.expect (.value b k)) t a') : Takes a t a'

theorem begins_of_clean (h : (a.begin t).Clean) : Begins a t (a.begin t) := by
  unfold begin at h ⊢
  split
  next hc => exact .content hc
  next hc =>
    split
    next ha => exact .array ha
    next ha =>
      split
      next hb => exact .block hb
      next hb =>
        split
        next hn => exact .null (TokenOf.isNull_eq_isSymbol t ▸ hn)
        next hn =>
          simp only [hc, ha, hb, hn, Bool.false_eq_true, if_false] at h
          exact absurd ((adds_finish _ _).clean h) (not_clean_report _ _ _)

/-- What a token between two elements does. -/
theorem takes_of_inSequence {s : OpenSequence} (hs : a.settled.phase = .between (.elements s))
    (h : (a.settled.inSequence s t).Clean) : Takes a t (a.settled.inSequence s t) := by
  -- What does not close the sequence separates elements or begins one.
  have hother : (inSequence.other a.settled s t).Clean →
      Takes a t (inSequence.other a.settled s t) := by
    intro h
    unfold inSequence.other at h ⊢
    split
    next ht =>
      rw [goto_of_phase hs]
      exact .separator hs ht
    next ht =>
      simp only [ht, Bool.false_eq_true, if_false] at h
      exact .element hs (begins_of_clean h)
  unfold inSequence at h ⊢
  match hof : s.of with
  | .file =>
    simp only [hof] at h
    exact hother h
  | .array o =>
    simp only [hof] at h ⊢
    split
    next hc => exact .closeArray hs hof hc
    next hc =>
      simp only [hc, Bool.false_eq_true, if_false] at h
      exact hother h
  | .params f =>
    simp only [hof] at h ⊢
    split
    next hc => exact .closeParams hs hof hc
    next hc =>
      simp only [hc, Bool.false_eq_true, if_false] at h
      exact hother h

/-- What a token between two entries does. -/
theorem takes_of_inBlock {b : OpenBlock} (hb : a.settled.phase = .between (.entries b))
    (h : (a.settled.inBlock b t).Clean) : Takes a t (a.settled.inBlock b t) := by
  unfold inBlock at h ⊢
  split
  next hc => exact .closeBlock hb hc
  next hc =>
    split
    next hs =>
      rw [goto_of_phase hb]
      exact .separator hb hs
    next hs =>
      split
      next hk => exact .key hb hk
      next hk =>
        simp only [hc, hs, hk, Bool.false_eq_true, if_false] at h
        exact absurd h (not_clean_report _ _ _)

/-- What a token between two elements or entries does. -/
theorem takes_of_inBetween {b : Between} (hb : a.settled.phase = .between b)
    (h : (a.settled.inBetween b t).Clean) : Takes a t (a.settled.inBetween b t) := by
  cases b with
  | elements s => exact takes_of_inSequence hb h
  | entries b => exact takes_of_inBlock hb h

/-- **A token that is not reported** does one of a few things, unless an entry is being
skipped. -/
theorem takes_of_clean (hskip : ∀ b depth, a.phase ≠ .skipping b depth)
    (h : (a.feed t).Clean) : Takes a t (a.feed t) := by
  have hfinish : ∀ n, a.settled = a.finish n → (a.finishBefore n t).Clean →
      Takes a t (a.finishBefore n t) := by
    intro n hn h
    have hb : a.settled.phase = .between (fill n a.holes).2.1 := by rw [hn]; rfl
    rw [finishBefore_eq, ← hn] at h ⊢
    exact takes_of_inBetween hb h
  unfold feed at h ⊢
  match hp : a.phase with
  | .between b =>
    -- Nothing waits here, and so the state is settled already.
    have hsettled : a.settled = a := by simp only [settled, hp]
    simp only [hp] at h ⊢
    have hb : a.settled.phase = .between b := by rw [hsettled, hp]
    rw [← hsettled] at h ⊢
    have htakes := takes_of_inBetween (a := a) hb h
    rwa [hsettled] at htakes ⊢
  | .named name =>
    simp only [hp] at h ⊢
    split
    next ho => exact .opening hp ho
    next ho =>
      simp only [ho, Bool.false_eq_true, if_false] at h
      exact hfinish _ (by simp only [settled, hp]) h
  | .called call =>
    simp only [hp] at h ⊢
    split
    next he =>
      simp only [he, if_true] at h
      exact hfinish _ (by simp only [settled, hp]) h
    next he =>
      simp only [he, Bool.false_eq_true, if_false] at h
      exact .data hp (begins_of_clean h)
  | .keyed b k =>
    simp only [hp] at h ⊢
    split
    next hc => exact .colon hp hc
    next hc =>
      simp only [hc, Bool.false_eq_true, if_false] at h
      exact absurd ((adds_skip _ _ _ t).clean h) (not_clean_report _ _ _)
  | .valued b k =>
    simp only [hp] at h ⊢
    split
    next he =>
      simp only [he, if_true] at h
      exact absurd ((adds_inBlock _ _ t).clean h) (not_clean_report _ _ _)
    next he =>
      simp only [he, Bool.false_eq_true, if_false] at h
      exact .value hp (begins_of_clean h)
  | .skipping b depth => exact absurd hp (hskip b depth)

/-! ### What a phase says of the tokens around it -/

theorem Begins.beginsElement (h : Begins a t a') : t.beginsElement = true := by
  rw [TokenOf.beginsElement_iff]
  cases h with
  | content h => exact Or.inl h
  | array h => exact Or.inr (Or.inr (Or.inl h))
  | block h => exact Or.inr (Or.inr (Or.inr h))
  | null h => exact Or.inr (Or.inl h)

/-- No key has been read, nor a colon after it, where an element has begun. -/
theorem Begins.phase (h : Begins a t a') (b : OpenBlock) (k : Token) :
    a'.phase ≠ .keyed b k ∧ a'.phase ≠ .valued b k := by
  cases h with
  | content h => exact ⟨nofun, nofun⟩
  | array h => exact ⟨nofun, nofun⟩
  | block h => exact ⟨nofun, nofun⟩
  | null h => exact ⟨nofun, nofun⟩

/-- **Where a colon is due, the last token was the key; where a value is due, it was the
colon**, and elsewhere it was none. -/
theorem Takes.last (h : Takes a t a') : (∀ b k, a'.phase = .keyed b k → k = t) ∧
    (t.isSymbol ':' = true ↔ ∃ b k, a'.phase = .valued b k) := by
  -- Most tokens are no colon and lead to neither phase.
  have hother : t.isSymbol ':' = false →
      (∀ b k, a'.phase ≠ .keyed b k ∧ a'.phase ≠ .valued b k) →
      (∀ b k, a'.phase = .keyed b k → k = t) ∧
        (t.isSymbol ':' = true ↔ ∃ b k, a'.phase = .valued b k) := by
    intro ht hp
    refine ⟨fun b k h => absurd h (hp b k).1, fun h => ?_, fun ⟨b, k, h⟩ => absurd h (hp b k).2⟩
    exact absurd h (Bool.eq_false_iff.mp ht)
  have hbegins : ∀ {a : Assembly}, Begins a t a' → (∀ b k, a'.phase = .keyed b k → k = t) ∧
      (t.isSymbol ':' = true ↔ ∃ b k, a'.phase = .valued b k) := fun h =>
    hother (TokenOf.isSymbol_of_beginsElement h.beginsElement (by decide)) h.phase
  cases h with
  | separator hb h =>
    refine hother (TokenOf.isSymbol_of_isSeparator h (by decide)) fun b k => ?_
    rw [hb]
    exact ⟨nofun, nofun⟩
  | element hs h => exact hbegins h
  | closeArray hs ho h =>
    exact hother (TokenOf.isSymbol_eq_false h (by decide)) fun b k => ⟨nofun, nofun⟩
  | closeParams hs hf h =>
    exact hother (TokenOf.isSymbol_eq_false h (by decide)) fun b k => ⟨nofun, nofun⟩
  | closeBlock hb h =>
    exact hother (TokenOf.isSymbol_eq_false h (by decide)) fun b k => ⟨nofun, nofun⟩
  | key hb h =>
    refine ⟨fun b k hk => (Phase.keyed.inj hk).2.symm, fun hc => ?_, fun ⟨b, k, hv⟩ => nomatch hv⟩
    exact absurd hc (Bool.eq_false_iff.mp (TokenOf.isSymbol_of_isContent h _))
  | opening ha h =>
    exact hother (TokenOf.isSymbol_eq_false h (by decide)) fun b k => ⟨nofun, nofun⟩
  | data ha h => exact hbegins h
  | @colon b k ha h => exact ⟨fun b k => nofun, ⟨fun _ => ⟨b, k, rfl⟩, fun _ => h⟩⟩
  | value ha h => exact hbegins h

/-- **A colon comes after a key, and a parenthesis after content.** -/
theorem Takes.first (h : Takes a t a') :
    (t.isSymbol ':' = true → ∃ b k, a.phase = .keyed b k) ∧
      (t.isSymbol '(' = true → ∃ name, a.phase = .named name) := by
  have hother : t.isSymbol ':' = false → t.isSymbol '(' = false →
      (t.isSymbol ':' = true → ∃ b k, a.phase = .keyed b k) ∧
        (t.isSymbol '(' = true → ∃ name, a.phase = .named name) := fun hc hp =>
    ⟨fun h => absurd h (Bool.eq_false_iff.mp hc), fun h => absurd h (Bool.eq_false_iff.mp hp)⟩
  have hsymbol : ∀ {c : Char}, t.isSymbol c = true → c ≠ ':' → c ≠ '(' →
      (t.isSymbol ':' = true → ∃ b k, a.phase = .keyed b k) ∧
        (t.isSymbol '(' = true → ∃ name, a.phase = .named name) := fun h hc hp =>
    hother (TokenOf.isSymbol_eq_false h hc) (TokenOf.isSymbol_eq_false h hp)
  have hbegins : ∀ {a₀ a' : Assembly}, Begins a₀ t a' →
      (t.isSymbol ':' = true → ∃ b k, a.phase = .keyed b k) ∧
        (t.isSymbol '(' = true → ∃ name, a.phase = .named name) := fun h =>
    hother (TokenOf.isSymbol_of_beginsElement h.beginsElement (by decide))
      (TokenOf.isSymbol_of_beginsElement h.beginsElement (by decide))
  cases h with
  | separator hb h =>
    exact hother (TokenOf.isSymbol_of_isSeparator h (by decide))
      (TokenOf.isSymbol_of_isSeparator h (by decide))
  | element hs h => exact hbegins h
  | closeArray hs ho h => exact hsymbol h (by decide) (by decide)
  | closeParams hs hf h => exact hsymbol h (by decide) (by decide)
  | closeBlock hb h => exact hsymbol h (by decide) (by decide)
  | key hb h =>
    exact hother (TokenOf.isSymbol_of_isContent h _) (TokenOf.isSymbol_of_isContent h _)
  | @opening name ha h =>
    exact ⟨fun hc => absurd (TokenOf.eq_of_isSymbol h hc) (by decide), fun _ => ⟨name, ha⟩⟩
  | data ha h => exact hbegins h
  | @colon b k ha h =>
    exact ⟨fun _ => ⟨b, k, ha⟩, fun hp => absurd (TokenOf.eq_of_isSymbol h hp) (by decide)⟩
  | value ha h => exact hbegins h

/-- After a separator or an opening brace the next element or entry is due. -/
theorem Takes.between (h : Takes a t a') (ht : t.isSeparator = true ∨ t.isSymbol '{' = true) :
    ∃ b, a'.phase = .between b := by
  have hopen : ∀ {a a' : Assembly}, Begins a t a' → ∃ b, a'.phase = .between b := by
    intro a a' h
    cases h with
    | content h =>
      rcases ht with ht | ht
      · rw [TokenOf.isSeparator_of_isContent h] at ht
        exact nomatch ht
      · rw [TokenOf.isSymbol_of_isContent h] at ht
        exact nomatch ht
    | array h => exact ⟨_, rfl⟩
    | block h => exact ⟨_, rfl⟩
    | null h => exact ⟨_, rfl⟩
  have hsymbol : ∀ {c : Char}, t.isSymbol c = true → c = ';' ∨ c = ',' ∨ c = '{' := by
    intro c hc
    rcases ht with ht | ht
    · rcases TokenOf.isSeparator_iff.mp ht with ht | ht
      · exact Or.inl (TokenOf.eq_of_isSymbol hc ht)
      · exact Or.inr (Or.inl (TokenOf.eq_of_isSymbol hc ht))
    · exact Or.inr (Or.inr (TokenOf.eq_of_isSymbol hc ht))
  cases h with
  | separator hb h => exact ⟨_, hb⟩
  | element hs h => exact hopen h
  | closeArray hs ho h => exact ⟨_, rfl⟩
  | closeParams hs hf h => exact absurd (hsymbol h) (by decide)
  | closeBlock hb h => exact ⟨_, rfl⟩
  | key hb h =>
    rcases ht with ht | ht
    · rw [TokenOf.isSeparator_of_isContent h] at ht
      exact nomatch ht
    · rw [TokenOf.isSymbol_of_isContent h] at ht
      exact nomatch ht
  | opening ha h => exact ⟨_, rfl⟩
  | data ha h => exact hopen h
  | colon ha h => exact absurd (hsymbol h) (by decide)
  | value ha h => exact hopen h

end Assembly

/-! ### Brackets of a state -/

/-- **The brackets around what fills the innermost hole.** -/
inductive Grammar.Around : List Hole → List Char → Prop
  | file {s : OpenSequence} (hs : s.of = .file) : Around [.item s] []
  | array {s : OpenSequence} {o : Token} {holes : List Hole} {brackets : List Char}
    (hs : s.of = .array o) (h : Around holes brackets) :
    Around (.item s :: holes) ('[' :: brackets)
  | params {s : OpenSequence} {f : Token} {holes : List Hole} {brackets : List Char}
    (hs : s.of = .params f) (h : Around holes brackets) :
    Around (.item s :: holes) ('(' :: brackets)
  | value {b : OpenBlock} {k : Token} {holes : List Hole} {brackets : List Char}
    (h : Around holes brackets) : Around (.value b k :: holes) ('{' :: brackets)
  | data {c : Call} {holes : List Hole} {brackets : List Char} (h : Around holes brackets) :
    Around (.data c :: holes) brackets

namespace Assembly

variable {a a' : Assembly} {t : Token} {brackets : List Char}

/-- **Whether a state stands within some brackets**, the innermost first. Between two entries
any key could come next. -/
def Within (a : Assembly) (brackets : List Char) : Prop :=
  match a.phase with
  | .between (.elements s) => Around (.item s :: a.holes) brackets
  | .between (.entries b) => ∀ k, Around (.value b k :: a.holes) brackets
  | .named _ | .called _ => Around a.holes brackets
  | .keyed b k | .valued b k => Around (.value b k :: a.holes) brackets
  | .skipping _ _ => False

theorem within_start : start.Within [] := Around.file rfl

/-- A place between two elements is within what its sequence is within. -/
theorem around_item {s s' : OpenSequence} {holes : List Hole} (hs : s'.of = s.of)
    (h : Around (.item s :: holes) brackets) : Around (.item s' :: holes) brackets := by
  cases h with
  | file h => exact .file (hs.trans h)
  | array h hb => exact .array (hs.trans h) hb
  | params h hb => exact .params (hs.trans h) hb

/-- What stands around an array or parameters stands within one bracket less. -/
theorem around_tail {s : OpenSequence} {holes : List Hole}
    (h : Around (.item s :: holes) brackets) (hs : s.of ≠ .file) : Around holes brackets.tail := by
  cases h with
  | file h => exact absurd h hs
  | array _ h => exact h
  | params _ h => exact h

/-- Only entries stand directly within a brace. -/
theorem head_of_item {s : OpenSequence} {holes : List Hole}
    (h : Around (.item s :: holes) brackets) : brackets.head? ≠ some '{' := by
  cases h with
  | file h => simp
  | array _ h => simp
  | params _ h => simp

theorem head_of_value {b : OpenBlock} {k : Token} {holes : List Hole}
    (h : Around (.value b k :: holes) brackets) : brackets.head? = some '{' := by
  cases h with
  | value h => rfl

/-- All entries of a block stand within the same. -/
theorem around_value {b b' : OpenBlock} {k k' : Token} {holes : List Hole}
    (h : Around (.value b k :: holes) brackets) : Around (.value b' k' :: holes) brackets := by
  cases h with
  | value h => exact .value h

/-- What fills a hole leads to where the hole was. -/
theorem within_finish {n : Node} (h : Around a.holes brackets) : (a.finish n).Within brackets := by
  obtain ⟨holes, phase, ds⟩ := a
  induction holes generalizing n with
  | nil => exact nomatch h
  | cons hole holes ih =>
    cases hole with
    | item s => exact around_item (s := s) rfl h
    | value b k => exact fun _ => around_value (b := b) (k := k) h
    | data c =>
      cases h with
      | data h => exact ih h

theorem within_settled (h : a.Within brackets) : a.settled.Within brackets := by
  unfold settled
  split
  next hp =>
    rw [Within, hp] at h
    exact within_finish h
  next hp =>
    rw [Within, hp] at h
    exact within_finish h
  next => exact h

theorem within_begins (h : Around a.holes brackets) (hb : Begins a t a') :
    a'.Within (openAfter brackets t) := by
  cases hb with
  | content ht =>
    rw [openAfter_other (TokenOf.isOpening_of_isContent ht) (TokenOf.isClosing_of_isContent ht)]
    exact h
  | array ht =>
    rw [openAfter_bracket ht]
    exact Around.array (o := t) rfl h
  | block ht =>
    rw [openAfter_brace ht]
    exact fun _ => Around.value h
  | null ht =>
    rw [openAfter_other (TokenOf.isOpening_of_isSymbol ht (by decide))
      (TokenOf.isClosing_of_isSymbol ht (by decide))]
    exact within_finish h

/-- **One token**: what is open after a token that is not reported is what the state stands
within. -/
theorem within_takes (h : a.Within brackets) (ht : Takes a t a') :
    a'.Within (openAfter brackets t) := by
  have hsettled := within_settled h
  cases ht with
  | separator hb ht =>
    rw [openAfter_other (TokenOf.isOpening_of_isSeparator ht)
      (TokenOf.isClosing_of_isSeparator ht)]
    exact hsettled
  | element hs ht =>
    rw [Within, hs] at hsettled
    exact within_begins hsettled ht
  | closeArray hs ho ht =>
    rw [Within, hs] at hsettled
    rw [openAfter_closing (TokenOf.isClosing_iff.mpr (Or.inr (Or.inl ht)))]
    exact within_finish (around_tail hsettled (by simp [ho]))
  | closeParams hs hf ht =>
    rw [Within, hs] at hsettled
    rw [openAfter_closing (TokenOf.isClosing_iff.mpr (Or.inl ht))]
    exact around_tail hsettled (by simp [hf])
  | closeBlock hb ht =>
    rw [Within, hb] at hsettled
    rw [openAfter_closing (TokenOf.isClosing_iff.mpr (Or.inr (Or.inr ht)))]
    cases hsettled t with
    | value haround => exact within_finish haround
  | key hb ht =>
    rw [Within, hb] at hsettled
    rw [openAfter_other (TokenOf.isOpening_of_isContent ht) (TokenOf.isClosing_of_isContent ht)]
    exact hsettled t
  | opening ha ht =>
    rw [Within, ha] at h
    rw [openAfter_paren ht]
    exact Around.params (f := _) rfl h
  | data ha ht =>
    rw [Within, ha] at h
    exact within_begins (Around.data h) ht
  | colon ha ht =>
    rw [Within, ha] at h
    rw [openAfter_other (TokenOf.isOpening_of_isSymbol ht (by decide))
      (TokenOf.isClosing_of_isSymbol ht (by decide))]
    exact h
  | value ha ht =>
    rw [Within, ha] at h
    exact within_begins h ht

/-! ### A run without reports -/

/-- A state that stands within brackets skips no entry. -/
theorem Within.not_skipping (h : a.Within brackets) (b : OpenBlock) (depth : Nat) :
    a.phase ≠ .skipping b depth := by
  intro hp
  rw [Within, hp] at h
  exact h

theorem within_feed (h : a.Within brackets) (hc : (a.feed t).Clean) :
    (a.feed t).Within (openAfter brackets t) :=
  within_takes h (takes_of_clean h.not_skipping hc)

/-- **As long as nothing is reported, the state knows the open brackets.** -/
theorem within_feedAll {ts : List Token} (h : (start.feedAll ts).Clean) :
    (start.feedAll ts).Within (openIn ts) := by
  -- Over the tokens in front the state is not the start any more.
  suffices hrun : ∀ {a : Assembly} {brackets : List Char}, a.Within brackets →
      (a.feedAll ts).Clean → (a.feedAll ts).Within (ts.foldl openAfter brackets) from
    hrun within_start h
  clear h
  induction ts with
  | nil => exact fun h _ => h
  | cons t ts ih => exact fun h hc => ih (within_feed h ((adds_feedAll _ ts).clean hc)) hc

/-- The last of some tokens that are not reported. -/
theorem takes_last {ts : List Token} (h : (start.feedAll (ts ++ [t])).Clean) :
    Takes (start.feedAll ts) t (start.feedAll (ts ++ [t])) := by
  have hlast : start.feedAll (ts ++ [t]) = (start.feedAll ts).feed t := by simp [feedAll]
  rw [hlast] at h ⊢
  have hclean : (start.feedAll ts).Clean := (adds_feed _ t).clean h
  exact takes_of_clean (within_feedAll hclean).not_skipping h

end Assembly

end ContentLang
