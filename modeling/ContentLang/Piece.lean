import ContentLang.Text.Blank

/-!
# Pieces of a text

The first step of reading: a text is cut into pieces – blanks, comments, structural
symbols, quoted and plain runs of content – each of which knows its own characters.
Nothing is lost and nothing is changed: the pieces, written one after the other, are
the text (`ContentLang.Piece.flatten_split`).

Within content a backslash takes the character after it out of its rôle, whatever it
is. A slash that begins a comment ends a plain run, so `a//b` is content and a
comment; `http:/\/x` is one way to write two slashes in content.
-/

namespace ContentLang

/-- The characters that are tokens of their own. -/
def structuralSymbols : List Char := ['(', ')', '{', '}', '[', ']', ';', ':', '~', ',']

/-- Whether a character is a token of its own. -/
def isStructural (c : Char) : Bool := structuralSymbols.contains c

/-- Whether a character opens a quoted run. -/
def isQuote (c : Char) : Bool := c == '"' || c == '\''

/-- A piece of a text. -/
inductive Piece where
  | blank (c : Char)
  /-- From two slashes to the end of the line, which is not a part of it. -/
  | lineComment (body : List Char)
  /-- From a slash and a star to a star and a slash, or to the end of the text. -/
  | blockComment (body : List Char) (closed : Bool)
  | symbol (c : Char)
  /-- What stands between quotes, or from a quote to the end of the text. -/
  | quoted (quote : Char) (body : List Char) (closed : Bool)
  | plain (body : List Char)

namespace Piece

/-- The characters of a piece, as they stand in the text. -/
def text : Piece → List Char
  | blank c => [c]
  | lineComment body => '/' :: '/' :: body
  | blockComment body closed => '/' :: '*' :: body ++ if closed then ['*', '/'] else []
  | symbol c => [c]
  | quoted q body closed => q :: body ++ if closed then [q] else []
  | plain body => body

/-! ### Runs

Each function cuts a run off the front of a text and gives the run and what is left. -/

/-- The rest of a block comment: its body, and what follows the closing star and slash
if they are there. -/
def cutComment : List Char → List Char × Option (List Char)
  | [] => ([], none)
  | '*' :: '/' :: r => ([], some r)
  | c :: r =>
    let (body, rest) := cutComment r
    (c :: body, rest)

/-- The rest of a run in quotes: its body, and what follows the closing quote if it is
there. -/
def cutQuoted (q : Char) : List Char → List Char × Option (List Char)
  | [] => ([], none)
  | '\\' :: c :: r =>
    let (body, rest) := cutQuoted q r
    ('\\' :: c :: body, rest)
  | c :: r =>
    if c = q then ([], some r)
    else
      let (body, rest) := cutQuoted q r
      (c :: body, rest)

/-- Whether a comment begins with `c` when `r` follows it. -/
def opensComment (c : Char) (r : List Char) : Bool :=
  c == '/' && (r.head? == some '/' || r.head? == some '*')

/-- Whether a plain run ends before `c` when `r` follows it. -/
def endsPlain (c : Char) (r : List Char) : Bool :=
  isBlank c || isStructural c || isQuote c || opensComment c r

/-- A plain run and what follows it. -/
def cutPlain : List Char → List Char × List Char
  | [] => ([], [])
  | '\\' :: c :: r =>
    let (body, rest) := cutPlain r
    ('\\' :: c :: body, rest)
  | c :: r =>
    if endsPlain c r then ([], c :: r)
    else
      let (body, rest) := cutPlain r
      (c :: body, rest)

/-- The piece at the front of a text, and what is left of the text. -/
def cut (c : Char) (r : List Char) : Piece × List Char :=
  if isBlank c then (blank c, r)
  else if c = '/' ∧ r.head? = some '/' then
    (lineComment (r.tail.takeWhile (· ≠ '\n')), r.tail.dropWhile (· ≠ '\n'))
  else if c = '/' ∧ r.head? = some '*' then
    match cutComment r.tail with
    | (body, some rest) => (blockComment body true, rest)
    | (body, none) => (blockComment body false, [])
  else if isStructural c then (symbol c, r)
  else if isQuote c then
    match cutQuoted c r with
    | (body, some rest) => (quoted c body true, rest)
    | (body, none) => (quoted c body false, [])
  else
    let (body, rest) := cutPlain (c :: r)
    (plain body, rest)

/-! ### Nothing is lost -/

theorem cutComment_eq (cs : List Char) :
    cs = (cutComment cs).1 ++ ((cutComment cs).2.map ('*' :: '/' :: ·)).getD [] := by
  fun_induction cutComment cs with
  | case1 => rfl
  | case2 r => rfl
  | case3 c r _ body rest h ih => simpa [h] using ih

theorem cutQuoted_eq (q : Char) (cs : List Char) :
    cs = (cutQuoted q cs).1 ++ ((cutQuoted q cs).2.map (q :: ·)).getD [] := by
  fun_induction cutQuoted q cs with
  | case1 => rfl
  | case2 c r body rest h ih => simpa [h] using ih
  | case3 r => simp
  | case4 c r _ hc body rest h ih => simpa [h] using ih

theorem cutPlain_eq (cs : List Char) : cs = (cutPlain cs).1 ++ (cutPlain cs).2 := by
  fun_induction cutPlain cs with
  | case1 => rfl
  | case2 c r body rest h ih => simpa [h] using ih
  | case3 c r _ hc => rfl
  | case4 c r _ hc body rest h ih => simpa [h] using ih

/-- A plain run that does not end at once holds something. -/
theorem cutPlain_ne_nil {c : Char} {r : List Char} (h : endsPlain c r = false) :
    (cutPlain (c :: r)).1 ≠ [] := by
  rw [cutPlain.eq_def]
  split
  · simp_all
  · simp
  · rename_i heq
    obtain ⟨rfl, rfl⟩ := List.cons.inj heq
    simp [h]

/-- The piece at the front is the front of the text. -/
theorem text_cut (c : Char) (r : List Char) : (cut c r).1.text ++ (cut c r).2 = c :: r := by
  unfold cut
  split
  · rfl
  split
  · rename_i h
    obtain ⟨rfl, hr⟩ := h
    obtain ⟨t, rfl⟩ := List.head?_eq_some_iff.1 hr
    simp [text]
  split
  · rename_i h
    obtain ⟨rfl, hr⟩ := h
    obtain ⟨t, rfl⟩ := List.head?_eq_some_iff.1 hr
    have ht := cutComment_eq t
    rw [List.tail_cons]
    split <;> rename_i h <;> rw [h] at ht <;> simp_all [text]
  split
  · rfl
  split
  · have hr := cutQuoted_eq c r
    split <;> rename_i h <;> rw [h] at hr <;> simp_all [text]
  · have := cutPlain_eq (c :: r)
    simpa [text] using this.symm

/-- No piece is empty. -/
theorem text_cut_ne_nil (c : Char) (r : List Char) : (cut c r).1.text ≠ [] := by
  unfold cut
  split
  · simp [text]
  split
  · simp [text]
  split
  · split <;> simp [text]
  split
  · simp [text]
  split
  · split <;> simp [text]
  · rename_i h1 h2 h3 h4 h5
    refine cutPlain_ne_nil ?_
    simp only [endsPlain, opensComment, Bool.or_eq_false_iff, Bool.and_eq_false_iff]
    refine ⟨⟨⟨by simpa using h1, by simpa using h4⟩, by simpa using h5⟩, ?_⟩
    by_cases hc : c = '/'
    · refine Or.inr ⟨?_, ?_⟩ <;> simp_all
    · exact Or.inl (by simpa using hc)

/-- Cutting a piece off makes a text shorter. -/
theorem length_cut (c : Char) (r : List Char) : (cut c r).2.length < (c :: r).length := by
  have h := congrArg List.length (text_cut c r)
  have hne := List.length_pos_iff.2 (text_cut_ne_nil c r)
  simp only [List.length_append] at h
  omega

/-! ### All pieces -/

/-- **The pieces of a text**, in order. -/
def split : List Char → List Piece
  | [] => []
  | c :: r => (cut c r).1 :: split (cut c r).2
termination_by cs => cs.length
decreasing_by exact length_cut c r

/-- **The pieces of a text are the text.** -/
theorem flatten_split (cs : List Char) : ((split cs).map text).flatten = cs := by
  fun_induction split cs with
  | case1 => rfl
  | case2 c r ih => simp [ih, text_cut]

end Piece

end ContentLang
