import ContentLang.Node.Printer
import ContentLang.Proofs.Grammar.Derivation

/-!
# What writing and reading does to a node

A node that is written and read again differs in two ways from what it was: everything
stands somewhere else, and content that had to be quoted is quoted from then on. This is
`ContentLang.Node.Rewritten`. The null value is no content: a token `~` comes back without
quotes, whatever it was, although `ContentLang.needsQuotes` holds of its spelling.

Rewritten nodes say the same (`ContentLang.Node.same_of_rewritten`) and are written as
before (`ContentLang.Node.write_rewritten`).
-/

namespace ContentLang

namespace TokenOf

variable {ν : Type}

/-- Whether a token is quoted once it was written and read again. -/
def quotedAgain (t : TokenOf ν) : Bool :=
  t.isContent && (t.quoted || needsQuotes t.value.toList)

/-- Whether a token is what another one is written and read again as. -/
def Rewritten (s t : TokenOf ν) : Prop :=
  t.value = s.value ∧ t.isContent = s.isContent ∧ t.quoted = s.quotedAgain

variable {s t : TokenOf ν}

theorem Rewritten.beq (h : s.Rewritten t) : (s == t) = true := by
  have : (s.value == t.value && s.isContent == t.isContent) = true := by simp [h.1, h.2.1]
  exact this

theorem Rewritten.beq_eq {s' t' : TokenOf ν} (h : s.Rewritten t) (h' : s'.Rewritten t') :
    (t == t') = (s == s') := by
  have : (t.value == t'.value && t.isContent == t'.isContent) =
      (s.value == s'.value && s.isContent == s'.isContent) := by
    rw [h.1, h.2.1, h'.1, h'.2.1]
  exact this

theorem Rewritten.write (h : s.Rewritten t) : t.write = s.write := by
  obtain ⟨hv, hc, hq⟩ := h
  simp only [TokenOf.write, hc, hv, hq, quotedAgain]
  split
  next hs => simp [writeContent, hs]
  next => rfl

end TokenOf

/-- A null value is the symbol that it is written as. -/
theorem TokenOf.write_of_isNull {ν : Type} {t : TokenOf ν} (h : t.isNull = true) :
    t.write = ['~'] := by
  simp only [isNull, Bool.and_eq_true, Bool.not_eq_true', beq_iff_eq] at h
  rw [TokenOf.write, h.1, h.2]
  rfl

namespace Node

/-! ### Nodes that can be written -/

mutual

/-- **Whether a node can be written**: its tokens are content or the null value, its keys
are content, and no two keys of a block read the same. -/
def Writable : Node → Prop
  | token t => t.isContent = true ∨ t.isNull = true
  | call _ ps _ => WritableAll ps
  | statement _ ps _ d => WritableAll ps ∧ Writable d
  | block es _ => WritableEntries es ∧ Grammar.Distinct (Entries.keys es)
  | array is _ => WritableAll is

/-- Whether the nodes of a list can be written. -/
def WritableAll : List Node → Prop
  | [] => True
  | n :: ns => Writable n ∧ WritableAll ns

/-- Whether entries can be written, up to how their keys differ. -/
def WritableEntries : List (TokenOf Node × Node) → Prop
  | [] => True
  | (k, n) :: es => k.isContent = true ∧ Writable n ∧ WritableEntries es

end

/-! ### Nodes that were written -/

mutual

/-- **Whether a node is what another one is written and read again as**: of the same
shape, with the same names and values, and quoted where that was or had to be. -/
def Rewritten : Node → Node → Prop
  | token s, token t => s.Rewritten t
  | call f ps _, call g qs _ => g = f ∧ RewrittenAll ps qs
  | statement f ps _ d, statement g qs _ e => g = f ∧ RewrittenAll ps qs ∧ Rewritten d e
  | block es _, block fs _ => RewrittenEntries es fs
  | array is _, array js _ => RewrittenAll is js
  | _, _ => False

/-- Whether a list of nodes is what another one is written and read again as. -/
def RewrittenAll : List Node → List Node → Prop
  | [], [] => True
  | m :: ms, n :: ns => Rewritten m n ∧ RewrittenAll ms ns
  | _, _ => False

/-- Whether entries are what others are written and read again as. -/
def RewrittenEntries : List (TokenOf Node × Node) → List (TokenOf Node × Node) → Prop
  | [], [] => True
  | (k, m) :: es, (l, n) :: fs => k.Rewritten l ∧ Rewritten m n ∧ RewrittenEntries es fs
  | _, _ => False

end

mutual

/-- **A node says the same once it was written and read again.** -/
theorem same_of_rewritten {m n : Node} (h : Rewritten m n) : same m n = true := by
  match m, n, h with
  | .token s, .token t, h => exact h.beq
  | .call f ps _, .call g qs _, h =>
    simp [same, h.1, sameAll_of_rewritten h.2]
  | .statement f ps _ d, .statement g qs _ e, h =>
    simp [same, h.1, sameAll_of_rewritten h.2.1, same_of_rewritten h.2.2]
  | .block es _, .block fs _, h =>
    have h' : RewrittenEntries es fs := h
    exact sameEntries_of_rewritten h'
  | .array is _, .array js _, h =>
    have h' : RewrittenAll is js := h
    exact sameAll_of_rewritten h'

theorem sameAll_of_rewritten {ms ns : List Node} (h : RewrittenAll ms ns) :
    sameAll ms ns = true := by
  match ms, ns, h with
  | [], [], _ => rfl
  | m :: ms, n :: ns, h => simp [sameAll, same_of_rewritten h.1, sameAll_of_rewritten h.2]

theorem sameEntries_of_rewritten {es fs : List (TokenOf Node × Node)}
    (h : RewrittenEntries es fs) : sameEntries es fs = true := by
  match es, fs, h with
  | [], [], _ => rfl
  | (k, m) :: es, (l, n) :: fs, h =>
    simp [sameEntries, h.1.beq, same_of_rewritten h.2.1, sameEntries_of_rewritten h.2.2]

end

/-- A key that no old key reads as is read as no new key. -/
theorem beq_key_of_rewritten {es fs : List (TokenOf Node × Node)} (h : RewrittenEntries es fs)
    {k l : Token} (hk : k.Rewritten l) (hne : ∀ x ∈ Entries.keys es, (k == x) = false) :
    ∀ y ∈ Entries.keys fs, (l == y) = false := by
  match es, fs, h with
  | [], [], _ => simp [Entries.keys]
  | (k', m) :: es, (l', n) :: fs, h =>
    intro y hy
    -- Reading again changes no value, so keys are equal just as they were.
    rcases List.mem_cons.mp hy with rfl | hy
    · rw [hk.beq_eq h.1]
      exact hne k' (List.mem_cons_self ..)
    · exact beq_key_of_rewritten h.2.2 hk (fun x hx => hne x (List.mem_cons_of_mem _ hx)) y hy

/-- The keys of entries that were written and read again differ if the old ones do. -/
theorem distinct_of_rewritten {es fs : List (TokenOf Node × Node)} (h : RewrittenEntries es fs)
    (hd : Grammar.Distinct (Entries.keys es)) : Grammar.Distinct (Entries.keys fs) := by
  match es, fs, h with
  | [], [], _ => exact List.Pairwise.nil
  | (k, m) :: es, (l, n) :: fs, h =>
    obtain ⟨hk, hd⟩ := List.pairwise_cons.mp hd
    exact List.pairwise_cons.mpr
      ⟨beq_key_of_rewritten h.2.2 h.1 hk, distinct_of_rewritten h.2.2 hd⟩

/-! ### Writing what was written -/

theorem isToken_of_rewritten {m n : Node} (h : Rewritten m n) : n.isToken = m.isToken := by
  cases m <;> cases n <;> first | rfl | exact h.elim

theorem all_isToken_of_rewritten {ms ns : List Node} (h : RewrittenAll ms ns) :
    ns.all isToken = ms.all isToken := by
  match ms, ns, h with
  | [], [], _ => rfl
  | m :: ms, n :: ns, h =>
    simp only [List.all_cons, isToken_of_rewritten h.1, all_isToken_of_rewritten h.2]

mutual

/-- **A node is written as before once it was written and read again.** -/
theorem write_rewritten {m n : Node} (h : Rewritten m n) (layout : Layout) (depth : Nat) :
    n.write layout depth = m.write layout depth := by
  match m, n, h with
  | .token s, .token t, h => exact TokenOf.Rewritten.write h
  | .call f ps _, .call g qs _, h =>
    rw [Node.write, Node.write, h.1, writeItems_rewritten h.2]
  | .statement f ps _ d, .statement g qs _ e, h =>
    rw [Node.write, Node.write, h.1, writeItems_rewritten h.2.1, write_rewritten h.2.2]
  | .block [] _, .block [] _, _ => rfl
  | .block (e :: es) _, .block (f :: fs) _, h =>
    have h' : RewrittenEntries (e :: es) (f :: fs) := h
    cases layout with
    | compact => simp only [Node.write, writeEntries_rewritten h']
    | spread => simp only [Node.write, writeEntryLines_rewritten h']
  | .array is _, .array js _, h =>
    have h' : RewrittenAll is js := h
    rw [Node.write, Node.write, all_isToken_of_rewritten h', writeItems_rewritten h',
      writeItemLines_rewritten h']

theorem writeItems_rewritten {ms ns : List Node} (h : RewrittenAll ms ns) (layout : Layout)
    (depth : Nat) : writeItems layout depth ns = writeItems layout depth ms := by
  match ms, ns, h with
  | [], [], _ => rfl
  | [m], [n], h => rw [writeItems, writeItems, write_rewritten h.1]
  | m :: m' :: ms, n :: n' :: ns, h =>
    rw [writeItems, writeItems, write_rewritten h.1, writeItems_rewritten h.2]

theorem writeItemLines_rewritten {ms ns : List Node} (h : RewrittenAll ms ns) (depth : Nat) :
    writeItemLines depth ns = writeItemLines depth ms := by
  match ms, ns, h with
  | [], [], _ => rfl
  | m :: ms, n :: ns, h =>
    rw [writeItemLines, writeItemLines, write_rewritten h.1, writeItemLines_rewritten h.2]

theorem writeEntries_rewritten {es fs : List (TokenOf Node × Node)} (h : RewrittenEntries es fs)
    (depth : Nat) : writeEntries depth fs = writeEntries depth es := by
  match es, fs, h with
  | [], [], _ => rfl
  | [(k, m)], [(l, n)], h => rw [writeEntries, writeEntries, h.1.write, write_rewritten h.2.1]
  | (k, m) :: e :: es, (l, n) :: f :: fs, h =>
    have h' : RewrittenEntries (e :: es) (f :: fs) := h.2.2
    rw [writeEntries, writeEntries, h.1.write, write_rewritten h.2.1, writeEntries_rewritten h']

theorem writeEntryLines_rewritten {es fs : List (TokenOf Node × Node)}
    (h : RewrittenEntries es fs) (depth : Nat) :
    writeEntryLines depth fs = writeEntryLines depth es := by
  match es, fs, h with
  | [], [], _ => rfl
  | (k, m) :: es, (l, n) :: fs, h =>
    rw [writeEntryLines, writeEntryLines, h.1.write, write_rewritten h.2.1,
      writeEntryLines_rewritten h.2.2]

end

/-- A file is written as before once it was written and read again. -/
theorem writeFile_rewritten {ms ns : List Node} (h : RewrittenAll ms ns) (layout : Layout) :
    writeFile layout ns = writeFile layout ms := by
  match ms, ns, h with
  | [], [], _ => rfl
  | m :: ms, n :: ns, h =>
    have ih : writeFile layout ns = writeFile layout ms := writeFile_rewritten h.2 layout
    unfold writeFile at ih ⊢
    rw [List.flatMap_cons, List.flatMap_cons, write_rewritten h.1, ih]

end Node

end ContentLang
