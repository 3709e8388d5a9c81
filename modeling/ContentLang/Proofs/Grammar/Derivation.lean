import ContentLang.Node.Assembly

/-!
# Derivations

The grammar of the language as trees over tokens. A derivation of an element says by
which rules a stretch of tokens is read, and keeps every token of it, brackets and
separators too: `ContentLang.Grammar.Element.tokens` gives the stretch back, and
`ContentLang.Grammar.Element.node` the node that it stands for. Nothing here mentions the
reader.

| rule | derivation |
|---|---|
| `content` | `ContentLang.Grammar.Element.content` |
| `~` | `ContentLang.Grammar.Element.null` |
| `[` elements `]` | `ContentLang.Grammar.Element.array` |
| `{` fields `}` | `ContentLang.Grammar.Element.block` |
| `content (` elements `)` | `ContentLang.Grammar.Element.call` |
| `content (` elements `)` element | `ContentLang.Grammar.Element.statement` |

A derivation is any tree of this shape; it is **valid** where its tokens are of the right
kinds, the keys of each block differ, and every call without data has an ender or nothing
behind it. The last condition looks past the derivation, so validity is relative to the
token that comes next (`ContentLang.Grammar.Element.Valid`).
-/

namespace ContentLang

/-! ### Kinds of tokens -/

namespace TokenOf

variable {ν : Type} {t : TokenOf ν} {c d : Char}

theorem isContent_of_isSymbol (h : t.isSymbol c = true) : t.isContent = false := by
  simp only [isSymbol, Bool.and_eq_true, Bool.not_eq_true'] at h
  exact h.1

/-- A token is no more than one symbol. -/
theorem eq_of_isSymbol (hc : t.isSymbol c = true) (hd : t.isSymbol d = true) : c = d := by
  simp only [isSymbol, Bool.and_eq_true, beq_iff_eq] at hc hd
  have h : (String.singleton c).toList = (String.singleton d).toList := by rw [← hc.2, ← hd.2]
  simpa using h

theorem isSymbol_eq_false (hc : t.isSymbol c = true) (hne : c ≠ d) : t.isSymbol d = false := by
  rw [Bool.eq_false_iff]
  exact fun hd => hne (eq_of_isSymbol hc hd)

/-- The null value is the symbol that it is written as. -/
theorem isNull_eq_isSymbol (t : TokenOf ν) : t.isNull = t.isSymbol '~' := by
  have h : nullSymbol = String.singleton '~' := by decide
  simp only [isNull, isSymbol, h]

theorem isSymbol_of_isContent (h : t.isContent = true) (c : Char) : t.isSymbol c = false := by
  simp [isSymbol, h]

theorem isSeparator_iff : t.isSeparator = true ↔ t.isSymbol ';' = true ∨ t.isSymbol ',' = true := by
  simp [isSeparator]

/-- What separates is none of the other symbols. -/
theorem isSymbol_of_isSeparator (h : t.isSeparator = true) (hc : c ≠ ';' ∧ c ≠ ',') :
    t.isSymbol c = false := by
  rcases isSeparator_iff.mp h with h | h
  · exact isSymbol_eq_false h hc.1.symm
  · exact isSymbol_eq_false h hc.2.symm

theorem isEnder_iff : t.isEnder = true ↔ t.isSeparator = true ∨ t.isSymbol ')' = true ∨
    t.isSymbol ']' = true ∨ t.isSymbol '}' = true := by
  simp [isEnder, or_assoc]

/-- Whether an element begins with a token. -/
def beginsElement (t : TokenOf ν) : Bool :=
  t.isContent || t.isSymbol '~' || t.isSymbol '[' || t.isSymbol '{'

theorem beginsElement_iff : t.beginsElement = true ↔ t.isContent = true ∨ t.isSymbol '~' = true ∨
    t.isSymbol '[' = true ∨ t.isSymbol '{' = true := by
  simp [beginsElement, or_assoc]

/-- What begins an element is none of the other symbols. -/
theorem isSymbol_of_beginsElement (h : t.beginsElement = true)
    (hc : c ≠ '~' ∧ c ≠ '[' ∧ c ≠ '{') : t.isSymbol c = false := by
  rcases beginsElement_iff.mp h with h | h | h | h
  · exact isSymbol_of_isContent h c
  · exact isSymbol_eq_false h hc.1.symm
  · exact isSymbol_eq_false h hc.2.1.symm
  · exact isSymbol_eq_false h hc.2.2.symm

theorem isSeparator_of_beginsElement (h : t.beginsElement = true) : t.isSeparator = false := by
  simp only [isSeparator, Bool.or_eq_false_iff]
  exact ⟨isSymbol_of_beginsElement h (by decide), isSymbol_of_beginsElement h (by decide)⟩

/-- No element begins with an ender. -/
theorem isEnder_of_beginsElement (h : t.beginsElement = true) : t.isEnder = false := by
  simp only [isEnder, Bool.or_eq_false_iff]
  exact ⟨⟨⟨isSeparator_of_beginsElement h, isSymbol_of_beginsElement h (by decide)⟩,
    isSymbol_of_beginsElement h (by decide)⟩, isSymbol_of_beginsElement h (by decide)⟩

end TokenOf

namespace Grammar

/-! ### Trees over tokens -/

mutual

/-- A derivation of an element. -/
inductive Element where
  | content (t : Token)
  | null (t : Token)
  | array (opening : Token) (body : Elements) (closing : Token)
  | block (opening : Token) (body : Fields) (closing : Token)
  | call (name opening : Token) (params : Elements) (closing : Token)
  | statement (name opening : Token) (params : Elements) (closing : Token) (data : Element)

/-- A derivation of a sequence of elements and separators. -/
inductive Elements where
  | nil
  | separator (t : Token) (rest : Elements)
  | element (e : Element) (rest : Elements)

/-- A derivation of a sequence of entries and separators. -/
inductive Fields where
  | nil
  | separator (t : Token) (rest : Fields)
  | field (key colon : Token) (value : Element) (rest : Fields)

end

/-! ### The tokens derived -/

mutual

/-- The tokens that a derivation of an element is over. -/
def Element.tokens : Element → List Token
  | .content t => [t]
  | .null t => [t]
  | .array o b c => o :: (b.tokens ++ [c])
  | .block o b c => o :: (b.tokens ++ [c])
  | .call f o ps c => f :: o :: (ps.tokens ++ [c])
  | .statement f o ps c d => f :: o :: (ps.tokens ++ c :: d.tokens)

/-- The tokens that a derivation of elements is over. -/
def Elements.tokens : Elements → List Token
  | .nil => []
  | .separator t r => t :: r.tokens
  | .element e r => e.tokens ++ r.tokens

/-- The tokens that a derivation of entries is over. -/
def Fields.tokens : Fields → List Token
  | .nil => []
  | .separator t r => t :: r.tokens
  | .field k c v r => k :: c :: (v.tokens ++ r.tokens)

end

/-! ### The nodes derived -/

mutual

/-- The node that a derivation of an element stands for. -/
def Element.node : Element → Node
  | .content t => .token t
  | .null t => .token t
  | .array o b _ => .array b.nodes o.origin
  | .block o b _ => .block b.entries o.origin
  | .call f _ ps _ => .ofCall (callOf f ps.nodes)
  | .statement f _ ps _ d => .ofStatement (callOf f ps.nodes) d.node

/-- The nodes that a derivation of elements stands for. -/
def Elements.nodes : Elements → List Node
  | .nil => []
  | .separator _ r => r.nodes
  | .element e r => e.node :: r.nodes

/-- The entries that a derivation of entries stands for. -/
def Fields.entries : Fields → Entries Token Node
  | .nil => []
  | .separator _ r => r.entries
  | .field k _ v r => (k, v.node) :: r.entries

end

/-! ### Validity -/

/-- No two of some keys read the same. -/
def Distinct (keys : List Token) : Prop := keys.Pairwise fun k l => (k == l) = false

mutual

/-- **Whether a derivation of an element follows the rules**, where `next` is the token
behind the element. -/
def Element.Valid (next : Option Token) : Element → Prop
  | .content t => t.isContent = true
  | .null t => t.isSymbol '~' = true
  | .array o b c => o.isSymbol '[' = true ∧ b.Valid (some c) ∧ c.isSymbol ']' = true
  | .block o b c =>
    o.isSymbol '{' = true ∧ b.Valid (some c) ∧ Distinct (Entries.keys b.entries) ∧
      c.isSymbol '}' = true
  | .call f o ps c =>
    f.isContent = true ∧ o.isSymbol '(' = true ∧ ps.Valid (some c) ∧ c.isSymbol ')' = true ∧
      ∀ t ∈ next, t.isEnder = true
  | .statement f o ps c d =>
    f.isContent = true ∧ o.isSymbol '(' = true ∧ ps.Valid (some c) ∧ c.isSymbol ')' = true ∧
      d.Valid next

/-- Whether a derivation of elements follows the rules. -/
def Elements.Valid (next : Option Token) : Elements → Prop
  | .nil => True
  | .separator t r => t.isSeparator = true ∧ r.Valid next
  | .element e r => e.Valid (r.tokens.head?.or next) ∧ r.Valid next

/-- Whether a derivation of entries follows the rules, their keys apart. -/
def Fields.Valid (next : Option Token) : Fields → Prop
  | .nil => True
  | .separator t r => t.isSeparator = true ∧ r.Valid next
  | .field k c v r =>
    k.isContent = true ∧ c.isSymbol ':' = true ∧ v.Valid (r.tokens.head?.or next) ∧ r.Valid next

end

/-- **A list of tokens is derived as the elements of a file.** -/
def Derives (d : Elements) (ts : List Token) : Prop := d.tokens = ts ∧ d.Valid none

/-! ### The first token -/

/-- The token that an element begins with. -/
def Element.head : Element → Token
  | .content t => t
  | .null t => t
  | .array o _ _ => o
  | .block o _ _ => o
  | .call f _ _ _ => f
  | .statement f _ _ _ _ => f

theorem Element.tokens_eq_cons (e : Element) : e.tokens = e.head :: e.tokens.tail := by
  cases e <;> rfl

theorem Element.beginsElement_head {e : Element} {next : Option Token} (h : e.Valid next) :
    e.head.beginsElement = true := by
  rw [TokenOf.beginsElement_iff]
  cases e with
  | content t => exact Or.inl h
  | null t => exact Or.inr (Or.inl h)
  | array o b c => exact Or.inr (Or.inr (Or.inl h.1))
  | block o b c => exact Or.inr (Or.inr (Or.inr h.1))
  | call f o ps c => exact Or.inl h.1
  | statement f o ps c d => exact Or.inl h.1

/-- Whether tokens do not begin with an opening parenthesis, which would make content in
front of them the name of a call. -/
def NoCall (ts : List Token) : Prop := ∀ t ∈ ts.head?, t.isSymbol '(' = false

theorem noCall_cons {t : Token} {ts : List Token} : NoCall (t :: ts) ↔ t.isSymbol '(' = false := by
  simp [NoCall]

/-- Neither an element nor a separator begins with an opening parenthesis. -/
theorem Elements.noCall {q : Elements} {next : Option Token} {r : List Token} (h : q.Valid next)
    (hr : NoCall r) : NoCall (q.tokens ++ r) := by
  cases q with
  | nil => exact hr
  | separator t q => exact noCall_cons.mpr (TokenOf.isSymbol_of_isSeparator h.1 (by decide))
  | element e q =>
    have hb := Element.beginsElement_head h.1
    rw [Elements.tokens, Element.tokens_eq_cons]
    exact noCall_cons.mpr (TokenOf.isSymbol_of_beginsElement hb (by decide))

/-- Neither a key nor a separator is an opening parenthesis. -/
theorem Fields.noCall {q : Fields} {next : Option Token} {r : List Token} (h : q.Valid next)
    (hr : NoCall r) : NoCall (q.tokens ++ r) := by
  cases q with
  | nil => exact hr
  | separator t q => exact noCall_cons.mpr (TokenOf.isSymbol_of_isSeparator h.1 (by decide))
  | field k c v q => exact noCall_cons.mpr (TokenOf.isSymbol_of_isContent h.1 _)

end Grammar

end ContentLang
