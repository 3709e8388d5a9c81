import ContentLang.Proofs.Grammar.Skipping

/-!
# What recovery keeps

Whatever tokens are read, the content and null values met in the nodes are those of the tokens, in
their order (`ContentLang.Grammar.recovery_keeps_words`). Such words are lost only with an entry of
a block that is reported, be it for its key, its colon, its value or a key that is there already
(`ContentLang.Problem.losesWords`). Brackets that are too many or too few cost none: one that is too
many becomes a node of its own, and one that is missing is supplied at the end of the file.

The words of a state are those in its holes, from the outermost to the innermost, and then those of
its phase (`ContentLang.Assembly.words`). A token adds its own word to them, unless the entry that
it belongs to is lost (`ContentLang.Assembly.accounts_feed`); an entry that is skipped has been
reported.
-/

namespace ContentLang

/-! ### Words -/

namespace TokenOf

variable {ν : Type}

/-- Whether a token is a word: content or the null value. -/
def isWord (t : TokenOf ν) : Bool := t.isContent || t.isNull

/-- The same token without quotes, of which the name of a call keeps nothing. -/
def unquoted (t : TokenOf ν) : TokenOf ν := { t with quoted := false }

end TokenOf

/-- **The words among some tokens**, in order. -/
def words (ts : List Token) : List Token := (ts.filter TokenOf.isWord).map TokenOf.unquoted

@[simp] theorem words_nil : words [] = [] := rfl

@[simp] theorem words_append (ts us : List Token) : words (ts ++ us) = words ts ++ words us := by
  simp [words]

theorem words_cons (t : Token) (ts : List Token) : words (t :: ts) = words [t] ++ words ts :=
  words_append [t] ts

/-- A symbol other than the null value is no word. -/
theorem words_of_isSymbol {t : Token} {c : Char} (h : t.isSymbol c = true) (hc : c ≠ '~') :
    words [t] = [] := by
  have hnull : t.isNull = false := by
    rw [TokenOf.isNull_eq_isSymbol]
    exact TokenOf.isSymbol_eq_false h hc
  simp [words, TokenOf.isWord, hnull, TokenOf.isContent_of_isSymbol h]

theorem words_of_isSeparator {t : Token} (h : t.isSeparator = true) : words [t] = [] := by
  rcases TokenOf.isSeparator_iff.mp h with h | h <;> exact words_of_isSymbol h (by decide)

namespace Node

mutual

/-- **The tokens met in a node**: the name of a call comes before its parameters, these before the
data after them, and a key before its value. -/
def tokens : Node → List Token
  | token t => [t]
  | call f ps o => .content f o :: tokensOfAll ps
  | statement f ps o d => .content f o :: (tokensOfAll ps ++ tokens d)
  | block es _ => tokensOfEntries es
  | array is _ => tokensOfAll is

/-- The tokens met in a list of nodes. -/
def tokensOfAll : List Node → List Token
  | [] => []
  | n :: ns => tokens n ++ tokensOfAll ns

/-- The tokens met in entries. -/
def tokensOfEntries : List (TokenOf Node × Node) → List Token
  | [] => []
  | (k, n) :: es => k :: (tokens n ++ tokensOfEntries es)

end

theorem tokensOfAll_append (ns ms : List Node) :
    tokensOfAll (ns ++ ms) = tokensOfAll ns ++ tokensOfAll ms := by
  induction ns with
  | nil => rfl
  | cons n ns ih => simp [tokensOfAll, ih]

theorem tokensOfEntries_append (es fs : List (TokenOf Node × Node)) :
    tokensOfEntries (es ++ fs) = tokensOfEntries es ++ tokensOfEntries fs := by
  induction es with
  | nil => rfl
  | cons e es ih => simp [tokensOfEntries, ih]

end Node

/-! ### Words that are lost -/

/-- Whether an entry is lost with a report, or a part of one. -/
def Problem.losesWords : Problem → Bool
  | missingKey _ | missingSeparator _ | missingValue _ | duplicateKey _ => true
  | _ => false

/-- Whether no entry is lost with any of some reports. -/
def Lossless (ds : List Diagnostic) : Prop := ∀ d ∈ ds, d.problem.losesWords = false

theorem lossless_append {ds es : List Diagnostic} :
    Lossless (ds ++ es) ↔ Lossless ds ∧ Lossless es := List.forall_mem_append

theorem lossless_reverse {ds : List Diagnostic} : Lossless ds.reverse ↔ Lossless ds := by
  simp [Lossless]

theorem not_lossless_cons {d : Diagnostic} (h : d.problem.losesWords = true)
    (ds : List Diagnostic) : ¬ Lossless (d :: ds) := by
  intro hd
  rw [hd d (List.mem_cons_self ..)] at h
  exact nomatch h

/-- **Whether words are kept of others**: they are some of them in the same order, and all of them
if no entry was lost. -/
structure Kept (ds : List Diagnostic) (ws kept : List Token) : Prop where
  sublist : kept.Sublist ws
  all : Lossless ds → kept = ws

namespace Kept

variable {ds es : List Diagnostic} {ws us vs : List Token}

theorem refl (ds : List Diagnostic) (ws : List Token) : Kept ds ws ws := ⟨.refl ws, fun _ => rfl⟩

theorem trans (h : Kept ds ws us) (h' : Kept es us vs) : Kept (es ++ ds) ws vs := by
  refine ⟨h'.sublist.trans h.sublist, fun hl => ?_⟩
  obtain ⟨he, hd⟩ := lossless_append.mp hl
  rw [h'.all he, h.all hd]

/-- More reports can only say that more was lost. -/
theorem mono (h : Kept ds ws us) (hl : Lossless es → Lossless ds) : Kept es ws us :=
  ⟨h.sublist, fun he => h.all (hl he)⟩

/-- More words are kept as they come. -/
theorem append (h : Kept ds ws us) (vs : List Token) : Kept ds (ws ++ vs) (us ++ vs) :=
  ⟨h.sublist.append_right vs, fun hl => by rw [h.all hl]⟩

theorem append_left (h : Kept ds ws us) (vs : List Token) : Kept ds (vs ++ ws) (vs ++ us) :=
  ⟨h.sublist.append_left vs, fun hl => by rw [h.all hl]⟩

/-- Once an entry was lost, words may be left out. -/
theorem of_lossy (h : us.Sublist ws) (hl : ¬ Lossless ds) : Kept ds ws us :=
  ⟨h, fun hd => absurd hd hl⟩

end Kept

/-! ### The words of a state -/

/-- The words of what a sequence belongs to: the name of a call. -/
def Sequence.words : Sequence → List Token
  | .file => []
  | .array _ => []
  | .params f => [.content f.value f.origin]

/-- The words of a sequence so far. -/
def OpenSequence.words (s : OpenSequence) : List Token :=
  s.of.words ++ ContentLang.words (Node.tokensOfAll s.items)

/-- The words of a block so far. -/
def OpenBlock.words (b : OpenBlock) : List Token :=
  ContentLang.words (Node.tokensOfEntries b.entries)

/-- The words in a node. -/
def Node.words (n : Node) : List Token := ContentLang.words n.tokens

/-- The words in a call. -/
def Call.words (c : Call) : List Token := (Node.ofCall c).words

/-- The words in front of what fills a hole, as far as they are of the hole. -/
def Hole.words : Hole → List Token
  | .item s => s.words
  | .value b k => b.words ++ ContentLang.words [k]
  | .data c => c.words

/-- **The words in front of what fills the innermost hole.** -/
def wordsAround : List Hole → List Token
  | [] => []
  | h :: hs => wordsAround hs ++ h.words

/-- The words of a place between two elements or entries. -/
def Between.words : Between → List Token
  | .elements s => s.words
  | .entries b => b.words

/-- The words of a phase. -/
def Phase.words : Phase → List Token
  | .between b => b.words
  | .named f => ContentLang.words [f]
  | .called c => c.words
  | .keyed b k => b.words ++ ContentLang.words [k]
  | .valued b k => b.words ++ ContentLang.words [k]
  | .skipping b _ => b.words

theorem words_push (s : OpenSequence) (n : Node) : (s.push n).words = s.words ++ n.words := by
  simp [OpenSequence.words, OpenSequence.push, OpenSequence.items, Node.tokensOfAll_append,
    Node.tokensOfAll, Node.words]

/-- The words of a statement are those of its call and then those of its data. -/
theorem words_ofStatement (c : Call) (n : Node) :
    (Node.ofStatement c n).words = c.words ++ n.words := by
  simp only [Node.ofStatement, Call.words, Node.ofCall, Node.words, Node.tokens]
  rw [words_cons, words_cons _ (Node.tokensOfAll _), words_append]
  simp

/-- The words of a block with one more entry. -/
theorem words_entry (b : OpenBlock) (k : Token) (n : Node) :
    (OpenBlock.mk b.opening (b.entries ++ [(k, n)])).words = b.words ++ words [k] ++ n.words := by
  have hentry : words (k :: n.tokens) = words [k] ++ n.words := words_cons k n.tokens
  simp [OpenBlock.words, Node.tokensOfEntries_append, Node.tokensOfEntries, hentry]

/-- An entry costs words only where its key is there already. -/
theorem kept_enter (b : OpenBlock) (k : Token) (n : Node) :
    Kept (b.enter k n).2 (b.words ++ words [k] ++ n.words) (b.enter k n).1.words := by
  unfold OpenBlock.enter
  split
  · refine .of_lossy ?_ (not_lossless_cons rfl [])
    rw [List.append_assoc]
    exact List.sublist_append_left ..
  next hk =>
    have hnone : Entries.find? b.entries k = none := by simpa [Entries.contains] using hk
    simp only [Entries.insert, hnone, ← words_entry]
    exact .refl _ _

/-- **To fill a hole keeps the words**, unless a key is there already. -/
theorem kept_fill (n : Node) (hs : List Hole) :
    Kept (fill n hs).2.2 (wordsAround hs ++ n.words)
      (wordsAround (fill n hs).1 ++ (fill n hs).2.1.words) := by
  induction hs generalizing n with
  | nil =>
    have hwords : (OpenSequence.mk .file [n]).words = n.words := words_push ⟨.file, []⟩ n
    show Kept [] ([] ++ n.words) ([] ++ (OpenSequence.mk .file [n]).words)
    rw [hwords]
    exact .refl _ _
  | cons hole hs ih =>
    cases hole with
    | item s =>
      show Kept [] (wordsAround hs ++ s.words ++ n.words) (wordsAround hs ++ (s.push n).words)
      rw [words_push, List.append_assoc]
      exact .refl _ _
    | value b k =>
      show Kept (b.enter k n).2 (wordsAround hs ++ (b.words ++ ContentLang.words [k]) ++ n.words)
        (wordsAround hs ++ (b.enter k n).1.words)
      rw [List.append_assoc]
      exact (kept_enter b k n).append_left (wordsAround hs)
    | data c =>
      have hfill := ih (.ofStatement c n)
      rw [words_ofStatement, ← List.append_assoc] at hfill
      exact hfill

namespace Assembly

variable {a : Assembly} {t : Token} {ws : List Token}

/-- **The words that a state has kept.** -/
def words (a : Assembly) : List Token := wordsAround a.holes ++ a.phase.words

/-- Whether nothing is around the elements of the file. -/
def Rooted : List Hole → Prop
  | [] => True
  | .item s :: hs => (s.of = .file → hs = []) ∧ Rooted hs
  | .value _ _ :: hs => Rooted hs
  | .data _ :: hs => Rooted hs

/-- The holes around what a state reads next, the sequence that it is in among them. -/
def around (a : Assembly) : List Hole :=
  match a.phase with
  | .between (.elements s) => .item s :: a.holes
  | _ => a.holes

/-- **Whether a state accounts for some words**: it has kept them, unless an entry of theirs was
lost and reported, as it was where one is being skipped. -/
structure Accounts (a : Assembly) (ws : List Token) : Prop where
  kept : Kept a.reversedDiagnostics ws a.words
  rooted : Rooted a.around
  named : ∀ f, a.phase = .named f → f.isContent = true
  skipping : ∀ b depth, a.phase = .skipping b depth → ¬ Lossless a.reversedDiagnostics

theorem accounts_start : Accounts start [] :=
  ⟨.refl [] [], ⟨fun _ => rfl, trivial⟩, nofun, nofun⟩

/-! ### One token -/

theorem rooted_finish (h : Rooted a.holes) (n : Node) : Rooted (a.finish n).around := by
  obtain ⟨holes, phase, ds⟩ := a
  induction holes generalizing n with
  | nil => exact ⟨fun _ => rfl, trivial⟩
  | cons hole hs ih =>
    cases hole with
    | item s => exact h
    | value b k => exact h
    | data c => exact ih (.ofStatement c n) h

/-- A node that fills a hole brings its words. -/
theorem accounts_finish {n : Node}
    (h : Kept a.reversedDiagnostics ws (wordsAround a.holes ++ n.words)) (hr : Rooted a.holes) :
    Accounts (a.finish n) ws where
  kept := by
    refine (h.trans (kept_fill n a.holes)).mono fun hl => ?_
    rw [finish, lossless_append, lossless_reverse] at hl
    exact lossless_append.mpr hl
  rooted := rooted_finish hr n
  named := nofun
  skipping := nofun

/-- The first token of an element brings its word. -/
theorem accounts_begin (h : Kept a.reversedDiagnostics ws (wordsAround a.holes))
    (hr : Rooted a.holes) (t : Token) :
    Accounts (a.begin t) (ws ++ ContentLang.words [t]) := by
  have htoken := h.append (ContentLang.words [t])
  unfold begin
  split
  next hc => exact ⟨htoken, hr, fun f hf => by rwa [← Phase.named.inj hf], nofun⟩
  next hc =>
    split
    next ho =>
      rw [words_of_isSymbol ho (by decide)] at htoken ⊢
      exact ⟨htoken, ⟨nofun, hr⟩, nofun, nofun⟩
    next ho =>
      split
      next hb =>
        rw [words_of_isSymbol hb (by decide)] at htoken ⊢
        exact ⟨htoken, hr, nofun, nofun⟩
      next hb =>
        split
        next hn => exact accounts_finish htoken hr
        next hn => exact accounts_finish (htoken.mono fun hl => (List.forall_mem_cons.mp hl).2) hr

/-- A token between two elements brings its word. -/
theorem accounts_inSequence {s : OpenSequence}
    (h : Accounts (a.goto (.between (.elements s))) ws) (t : Token) :
    Accounts (a.inSequence s t) (ws ++ ContentLang.words [t]) := by
  have hother : Accounts (inSequence.other a s t) (ws ++ ContentLang.words [t]) := by
    unfold inSequence.other
    split
    next hs =>
      rw [words_of_isSeparator hs, List.append_nil]
      exact h
    next hs => exact accounts_begin (a := a.expect (.item s)) h.kept h.rooted t
  have hkept : Kept a.reversedDiagnostics ws (wordsAround a.holes ++ s.words) := h.kept
  unfold inSequence
  split
  next o hs =>
    split
    next hc =>
      rw [words_of_isSymbol hc (by decide), List.append_nil]
      refine accounts_finish ?_ h.rooted.2
      rwa [OpenSequence.words, hs] at hkept
    next hc => exact hother
  next f hs =>
    split
    next hc =>
      rw [words_of_isSymbol hc (by decide), List.append_nil]
      refine ⟨?_, h.rooted.2, nofun, nofun⟩
      rwa [OpenSequence.words, hs] at hkept
    next hc => exact hother
  next hs => exact hother

/-- A token between two entries brings its word, unless it is no key. -/
theorem accounts_inBlock {b : OpenBlock} (h : Accounts (a.goto (.between (.entries b))) ws)
    (t : Token) : Accounts (a.inBlock b t) (ws ++ ContentLang.words [t]) := by
  have hkept : Kept a.reversedDiagnostics ws (wordsAround a.holes ++ b.words) := h.kept
  unfold inBlock
  split
  next hc =>
    rw [words_of_isSymbol hc (by decide), List.append_nil]
    exact accounts_finish hkept h.rooted
  next hc =>
    split
    next hs =>
      rw [words_of_isSeparator hs, List.append_nil]
      exact h
    next hs =>
      split
      next hk =>
        refine ⟨?_, h.rooted, nofun, nofun⟩
        have hkey := hkept.append (ContentLang.words [t])
        rw [List.append_assoc] at hkey
        exact hkey
      next hk =>
        have hlossy := not_lossless_cons (d := .about t.origin (.missingKey t.value)) rfl
          a.reversedDiagnostics
        exact ⟨.of_lossy (hkept.sublist.trans (List.sublist_append_left ..)) hlossy, h.rooted,
          nofun, fun _ _ _ => hlossy⟩

/-- A token of an entry that is skipped may be lost. -/
theorem accounts_skip {b : OpenBlock} {depth : Nat} (h : Accounts (a.goto (.skipping b depth)) ws)
    (t : Token) : Accounts (a.skip b depth t) (ws ++ ContentLang.words [t]) := by
  have hlossy : ¬ Lossless a.reversedDiagnostics := h.skipping b depth rfl
  unfold skip
  split
  next hend => exact accounts_inBlock ⟨h.kept, h.rooted, nofun, nofun⟩ t
  next hend =>
    exact ⟨.of_lossy (h.kept.sublist.trans (List.sublist_append_left ..)) hlossy, h.rooted, nofun,
      fun _ _ _ => hlossy⟩

theorem accounts_inBetween {b : Between} (h : Accounts (a.goto (.between b)) ws) (t : Token) :
    Accounts (a.inBetween b t) (ws ++ ContentLang.words [t]) := by
  cases b with
  | elements s => exact accounts_inSequence h t
  | entries b => exact accounts_inBlock h t

theorem accounts_finishBefore {n : Node}
    (h : Kept a.reversedDiagnostics ws (wordsAround a.holes ++ n.words)) (hr : Rooted a.holes)
    (t : Token) : Accounts (a.finishBefore n t) (ws ++ ContentLang.words [t]) :=
  accounts_inBetween (a := a.finish n) (accounts_finish h hr) t

/-- An entry whose key is reported is lost. -/
theorem accounts_lost {b : OpenBlock} {k : Token} {p : Problem} (hp : p.losesWords = true)
    (h : Kept a.reversedDiagnostics ws (wordsAround a.holes ++ (b.words ++ ContentLang.words [k])))
    (hr : Rooted a.holes) : Accounts ((a.report k.origin p).goto (.skipping b 0)) ws := by
  have hlossy := not_lossless_cons (d := .about k.origin p) hp a.reversedDiagnostics
  refine ⟨.of_lossy (List.Sublist.trans ?_ h.sublist) hlossy, hr, nofun, fun _ _ _ => hlossy⟩
  exact (List.sublist_append_left ..).append_left _

/-- **One token**: a state accounts for its word as well. -/
theorem accounts_feed (h : Accounts a ws) (t : Token) :
    Accounts (a.feed t) (ws ++ ContentLang.words [t]) := by
  obtain ⟨holes, phase, ds⟩ := a
  match phase with
  | .between b => exact accounts_inBetween (a := ⟨holes, .between b, ds⟩) h t
  | .named f =>
    have hf : f.isContent = true := h.named f rfl
    have hkept : Kept ds ws (wordsAround holes ++ ContentLang.words [f]) := h.kept
    simp only [feed]
    split
    next ho =>
      rw [words_of_isSymbol ho (by decide), List.append_nil]
      refine ⟨?_, ⟨nofun, h.rooted⟩, nofun, nofun⟩
      -- The name of a call is the word that it was as content.
      have hname : ContentLang.words [f] = [.content f.value f.origin] := by
        simp [ContentLang.words, TokenOf.isWord, hf, TokenOf.unquoted, TokenOf.content]
      rwa [hname] at hkept
    next ho => exact accounts_finishBefore (a := ⟨holes, .named f, ds⟩) hkept h.rooted t
  | .called c =>
    simp only [feed]
    split
    next he => exact accounts_finishBefore (a := ⟨holes, .called c, ds⟩) h.kept h.rooted t
    next he =>
      exact accounts_begin (a := expect ⟨holes, .called c, ds⟩ (.data c)) h.kept h.rooted t
  | .keyed b k =>
    simp only [feed]
    split
    next hc =>
      rw [words_of_isSymbol hc (by decide), List.append_nil]
      exact ⟨h.kept, h.rooted, nofun, nofun⟩
    next hc =>
      exact accounts_skip (a := report ⟨holes, .keyed b k, ds⟩ k.origin _)
        (accounts_lost (a := ⟨holes, .keyed b k, ds⟩) rfl h.kept h.rooted) t
  | .valued b k =>
    simp only [feed]
    split
    next he =>
      have hlost := accounts_lost (a := ⟨holes, .valued b k, ds⟩)
        (p := .missingValue k.value) rfl h.kept h.rooted
      exact accounts_inBlock (a := report ⟨holes, .valued b k, ds⟩ k.origin _)
        ⟨hlost.kept, hlost.rooted, nofun, nofun⟩ t
    next he =>
      exact accounts_begin (a := expect ⟨holes, .valued b k, ds⟩ (.value b k)) h.kept h.rooted t
  | .skipping b depth => exact accounts_skip (a := ⟨holes, .skipping b depth, ds⟩) h t

/-- **All tokens**: a state accounts for the words of those that it has taken. -/
theorem accounts_feedAll (h : Accounts a ws) (ts : List Token) :
    Accounts (a.feedAll ts) (ws ++ ContentLang.words ts) := by
  induction ts generalizing a ws with
  | nil =>
    rw [words_nil, List.append_nil]
    exact h
  | cons t ts ih =>
    rw [words_cons, ← List.append_assoc]
    exact ih (accounts_feed h t)

/-! ### The end of the file -/

/-- The end of the file closes a sequence to a node with its words, if it is not the file's own. -/
theorem close?_words (s : OpenSequence) : (s.of = .file ∧ s.close? = none) ∨
    ∃ m d, s.close? = some (m, d) ∧ m.words = s.words := by
  unfold OpenSequence.close? OpenSequence.words
  cases hs : s.of with
  | file => exact Or.inl ⟨rfl, rfl⟩
  | array o => exact Or.inr ⟨_, _, rfl, rfl⟩
  | params f => exact Or.inr ⟨_, _, rfl, rfl⟩

/-- The end of the file keeps the words in the holes, unless a key is there already. -/
theorem kept_closeWith (n : Node) {hs : List Hole} (h : Rooted hs) :
    Kept (closeWith n hs).2 (wordsAround hs ++ n.words)
      (ContentLang.words (Node.tokensOfAll (closeWith n hs).1)) := by
  induction hs generalizing n with
  | nil =>
    simp only [closeWith, Node.tokensOfAll, List.append_nil]
    exact .refl _ _
  | cons hole hs ih =>
    cases hole with
    | item s =>
      have hpush : wordsAround (.item s :: hs) ++ n.words = wordsAround hs ++ (s.push n).words := by
        rw [words_push, ← List.append_assoc]
        rfl
      rw [hpush]
      rcases close?_words (s.push n) with ⟨hfile, hclose⟩ | ⟨m, d, hclose, hm⟩
      · obtain rfl := h.1 hfile
        simp only [closeWith, hclose, OpenSequence.words, hfile]
        exact .refl _ _
      · have hrest := ih m h.2
        rw [hm] at hrest
        simp only [closeWith, hclose]
        exact hrest.mono fun hl => (List.forall_mem_cons.mp hl).2
    | value b k =>
      have henter := (kept_enter b k n).append_left (wordsAround hs)
      have hclose := henter.trans (ih (b.enter k n).1.node h)
      rw [← List.append_assoc] at hclose
      refine hclose.mono fun hl => ?_
      obtain ⟨hd, hrest⟩ := lossless_append.mp hl
      exact lossless_append.mpr ⟨(List.forall_mem_cons.mp hrest).2, hd⟩
    | data c =>
      have hclose := ih (.ofStatement c n) h
      rw [words_ofStatement, ← List.append_assoc] at hclose
      exact hclose

/-- **The end of the file keeps the words of a state**, unless a key is there already or an entry is
not complete. -/
theorem kept_close (h : Rooted a.around) :
    Kept a.close.2 a.words (ContentLang.words (Node.tokensOfAll a.close.1)) := by
  have hblock : ∀ b : OpenBlock, Rooted a.holes → Kept (a.closeBlock b).2
      (wordsAround a.holes ++ b.words) (ContentLang.words (Node.tokensOfAll (a.closeBlock b).1)) :=
    fun b hr => (kept_closeWith b.node hr).mono fun hl => (List.forall_mem_cons.mp hl).2
  -- A key without a value is lost, and reported.
  have hentry : ∀ (b : OpenBlock) (k : Token) (p : Problem), p.losesWords = true →
      Rooted a.holes → Kept (.about k.origin p :: (a.closeBlock b).2)
        (wordsAround a.holes ++ (b.words ++ ContentLang.words [k]))
        (ContentLang.words (Node.tokensOfAll (a.closeBlock b).1)) := by
    intro b k p hp hr
    refine .of_lossy ((hblock b hr).sublist.trans ?_) (not_lossless_cons hp _)
    exact (List.sublist_append_left ..).append_left _
  unfold around at h
  unfold close words
  match hp : a.phase with
  | .between (.elements s) =>
    simp only [hp] at h ⊢
    rcases close?_words s with ⟨hfile, hclose⟩ | ⟨m, d, hclose, hm⟩
    · simp only [hclose, h.1 hfile, wordsAround, List.nil_append, Phase.words, Between.words,
        OpenSequence.words, hfile, Sequence.words]
      exact .refl _ _
    · have hrest := kept_closeWith m h.2
      rw [hm] at hrest
      simp only [hclose]
      exact hrest.mono fun hl => (List.forall_mem_cons.mp hl).2
  | .between (.entries b) =>
    simp only [hp] at h ⊢
    exact hblock b h
  | .named f =>
    simp only [hp] at h ⊢
    exact kept_closeWith (.token f) h
  | .called c =>
    simp only [hp] at h ⊢
    exact kept_closeWith (.ofCall c) h
  | .keyed b k =>
    simp only [hp] at h ⊢
    exact hentry b k _ rfl h
  | .valued b k =>
    simp only [hp] at h ⊢
    exact hentry b k _ rfl h
  | .skipping b depth =>
    simp only [hp] at h ⊢
    exact hblock b h

end Assembly

namespace Grammar

/-! ### Whole files -/

/-- **Recovery invents, repeats and reorders nothing.** Wherever the tokens are cut, those behind
are read as well; the words met in the elements are words of the tokens in their order, and all of
them if no entry is reported as lost, however many brackets there are too many or too few. -/
theorem recovery_keeps_words (ts : List Token) :
    (∀ u v, u ++ v = ts → parse ts = (Assembly.start.feedAll u).read v) ∧
      (words (Node.tokensOfAll (parse ts).1)).Sublist (words ts) ∧
      ((∀ d ∈ (parse ts).2, d.problem.losesWords = false) →
        words (Node.tokensOfAll (parse ts).1) = words ts) := by
  have haccounts := Assembly.accounts_feedAll Assembly.accounts_start ts
  have hkept : Kept (parse ts).2 (words ts) (words (Node.tokensOfAll (parse ts).1)) := by
    refine (haccounts.kept.trans (Assembly.kept_close haccounts.rooted)).mono fun hl => ?_
    obtain ⟨hreported, hclose⟩ := lossless_append.mp hl
    exact lossless_append.mpr ⟨hclose, lossless_reverse.mp hreported⟩
  exact ⟨fun u v huv => huv ▸ parse_append u v, hkept.sublist, hkept.all⟩

/-- A brace too many and two brackets too few: three reports, and no word is lost. -/
theorem recovery_keeps_words_brackets :
    let o : Nat → Origin := fun column => .written ⟨"a.txt", 1, column⟩ 1
    let ts : List Token := [.symbol '[' (o 1), .content "a" (o 2), .symbol '}' (o 3),
      .content "F" (o 5), .symbol '(' (o 6), .symbol '~' (o 7)]
    (parse ts).2 = [.about (o 3) (.unexpectedToken "\x7d"), .about (o 5) (.unterminated .call),
        .about (o 1) (.unterminated .array)] ∧
      words (Node.tokensOfAll (parse ts).1) = words ts ∧
      words ts = [.content "a" (o 2), .content "F" (o 5), .symbol '~' (o 7)] := by
  intro o ts
  have hread : (parse ts).2 = [.about (o 3) (.unexpectedToken "\x7d"),
      .about (o 5) (.unterminated .call), .about (o 1) (.unterminated .array)] := rfl
  have hlossless : ∀ d ∈ (parse ts).2, d.problem.losesWords = false := by
    rw [hread]
    simp [Diagnostic.about, Problem.losesWords]
  exact ⟨hread, (recovery_keeps_words ts).2.2 hlossless, rfl⟩

end Grammar

end ContentLang
