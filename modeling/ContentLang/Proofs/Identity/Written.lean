import ContentLang.Proofs.Grammar.Reports
import ContentLang.Proofs.Identity.Apart
import ContentLang.Proofs.Lexing.Pieces

/-!
# Identities in a text

All calls that a text is read as have identities that are apart
(`ContentLang.apart_parseText`). This comes about in three steps.

* Different locations of one file have texts that are apart (`ContentLang.Location.apart_text`):
  the file is the same, and what follows can be taken apart at the colon, since digits are no
  colons.
* Tokens stand at different locations, one after the other
  (`ContentLang.Piece.ordered_tokensFrom`).
* The reader makes at most one call of a token (`ContentLang.Assembly.uids_feed`): the
  identities in what it has read so far are among those of the tokens it was given, each as
  often as there.
-/

namespace ContentLang

open Node Uid

/-! ### Locations -/

namespace Location

/-- The digits of a number. -/
def digits (n : Nat) : List Char := (toString n).toList

theorem digits_injective {m n : Nat} (h : digits m = digits n) : m = n := by
  have hdigits : Nat.toDigits 10 m = Nat.toDigits 10 n := by
    simpa only [digits, Nat.toString_eq_repr, Nat.toList_repr] using h
  simpa using congrArg (Nat.ofDigitChars 10 · 0) hdigits

theorem not_mem_digits {c : Char} (hc : c.isDigit = false) (n : Nat) : c ∉ digits n := by
  intro hmem
  have hdigit : c.isDigit = true := by
    refine Nat.isDigit_of_mem_toDigits (b := 10) (n := n) (by decide) (by decide) ?_
    simpa only [digits, Nat.toString_eq_repr, Nat.toList_repr] using hmem
  rw [hc] at hdigit
  exact Bool.false_ne_true hdigit

/-- What stands before the first separator is read off the front of a list. -/
theorem prefix_split {c : Char} {as bs as' bs' : List Char} (has : c ∉ as) (has' : c ∉ as')
    (h : as ++ c :: bs <+: as' ++ c :: bs') : as = as' ∧ bs <+: bs' := by
  induction as generalizing as' with
  | nil =>
    cases as' with
    | nil => exact ⟨rfl, (List.cons_prefix_cons.mp h).2⟩
    | cons a' as' => exact absurd (List.cons_prefix_cons.mp h).1 (List.ne_of_not_mem_cons has')
  | cons a as ih =>
    cases as' with
    | nil => exact absurd (List.cons_prefix_cons.mp h).1.symm (List.ne_of_not_mem_cons has)
    | cons a' as' =>
      obtain ⟨rfl, htail⟩ := List.cons_prefix_cons.mp h
      obtain ⟨rfl, hbs⟩ := ih (List.not_mem_of_not_mem_cons has)
        (List.not_mem_of_not_mem_cons has') htail
      exact ⟨rfl, hbs⟩

/-- The text of a location, as a mark. -/
theorem toList_text (l : Location) : (l.text ++ ">").toList =
    l.file.toList ++ ':' :: (digits l.line ++ ':' :: (digits l.column ++ ['>'])) := by
  simp [text, digits]

/-- In one file the text of a location lies within no other. -/
theorem eq_of_within {l m : Location} (hfile : l.file = m.file) (h : Within l.text m.text) :
    l = m := by
  rw [Within, toList_text, toList_text, hfile, List.prefix_append_right_inj,
    List.cons_prefix_cons] at h
  obtain ⟨hline, h⟩ := prefix_split (not_mem_digits (by decide) _) (not_mem_digits (by decide) _)
    h.2
  obtain ⟨hcolumn, -⟩ := prefix_split (not_mem_digits (by decide) _)
    (not_mem_digits (by decide) _) h
  obtain ⟨file, line, column⟩ := l
  obtain ⟨file', line', column'⟩ := m
  obtain rfl : file = file' := hfile
  obtain rfl : line' = line := digits_injective hline
  obtain rfl : column' = column := digits_injective hcolumn
  rfl

/-- **Different locations of one file have texts that are apart.** -/
theorem apart_text {l m : Location} (hfile : l.file = m.file) (h : l ≠ m) :
    Apart l.text m.text :=
  ⟨fun hlm => h (eq_of_within hfile hlm), fun hml => h (eq_of_within hfile.symm hml).symm⟩

end Location

/-! ### Tokens -/

namespace Place

/-- Whether a place comes before another one: on an earlier line, or earlier on its line. -/
def Before (p q : Place) : Prop := p.line < q.line ∨ (p.line = q.line ∧ p.column < q.column)

variable {p q r : Place}

theorem Before.trans (h : p.Before q) (h' : q.Before r) : p.Before r := by
  unfold Before at *
  omega

theorem before_next (p : Place) (c : Char) : p.Before (p.next c) := by
  unfold next
  split
  · exact .inl (Nat.lt_succ_self _)
  · exact .inr ⟨rfl, Nat.lt_succ_self _⟩

theorem before_after (p : Place) {cs : List Char} (h : cs ≠ []) : p.Before (p.after cs) := by
  induction cs generalizing p with
  | nil => exact absurd rfl h
  | cons c cs ih =>
    cases cs with
    | nil => exact before_next p c
    | cons d cs => exact (before_next p c).trans (ih (p.next c) (by simp))

theorem Before.location_ne (h : p.Before q) (file : String) :
    p.location file ≠ q.location file := by
  intro hne
  have hline : p.line = q.line := congrArg Location.line hne
  have hcolumn : p.column = q.column := congrArg Location.column hne
  unfold Before at h
  omega

end Place

namespace Piece

/-- Whether the identities of tokens are those of places of a file, each before the next one, and
all of them at `p` or later. -/
def Ordered (file : String) (p : Place) (ts : List Token) : Prop :=
  ∃ places : List Place, ts.map (·.origin.uid) = places.map (·.location file |>.text) ∧
    places.Pairwise Place.Before ∧ ∀ q ∈ places, q = p ∨ p.Before q

theorem ordered_nil (file : String) (p : Place) : Ordered file p [] :=
  ⟨[], rfl, .nil, by simp⟩

theorem Ordered.later {file : String} {p q : Place} {ts : List Token} (h : Ordered file q ts)
    (hp : p.Before q) : Ordered file p ts := by
  obtain ⟨places, htexts, hpairwise, hlater⟩ := h
  refine ⟨places, htexts, hpairwise, fun r hr => .inr ?_⟩
  rcases hlater r hr with rfl | h
  · exact hp
  · exact hp.trans h

/-- A token at a place, before tokens that come after it. -/
theorem Ordered.cons {file : String} {p q : Place} {ts : List Token} {t : Token}
    (ht : t.origin.uid = (p.location file).text) (h : Ordered file q ts) (hp : p.Before q) :
    Ordered file p (t :: ts) := by
  obtain ⟨places, htexts, hpairwise, hlater⟩ := h
  have hbefore : ∀ r ∈ places, p.Before r := fun r hr => by
    rcases hlater r hr with rfl | h
    · exact hp
    · exact hp.trans h
  refine ⟨p :: places, by simp [ht, htexts], List.pairwise_cons.mpr ⟨hbefore, hpairwise⟩, ?_⟩
  rintro r (_ | ⟨_, hr⟩)
  · exact .inl rfl
  · exact .inr (hbefore r hr)

/-- Where the first token of what is left begins: that of the open run, if there is one. -/
def firstPlace (p : Place) (run : Option OpenRun) : Place := (run.map (·.start)).getD p

/-- **Tokens stand one after the other.** What is joined to an open run belongs to the token that
begins where the run does. -/
theorem ordered_tokensFrom (file : String) (uniqueId : List Char) {pieces : List Piece}
    (hpieces : ∀ piece ∈ pieces, piece.text ≠ []) (p : Place) (run : Option OpenRun)
    (hrun : ∀ r, run = some r → r.start.Before p) :
    Ordered file (firstPlace p run) (tokensFrom file uniqueId p run pieces) := by
  induction pieces generalizing p run with
  | nil =>
    cases run with
    | none => exact ordered_nil file p
    | some r => exact .cons rfl (ordered_nil file p) (hrun r rfl)
  | cons piece pieces ih =>
    obtain ⟨hpiece, hrest⟩ := List.forall_mem_cons.mp hpieces
    have hafter : p.Before (p.after piece.text) := p.before_after hpiece
    -- What leaves the open run at its place leaves the rest behind that place.
    have hskip : ∀ run' : Option OpenRun, run'.map (·.start) = run.map (·.start) →
        Ordered file (firstPlace p run)
          (tokensFrom file uniqueId (p.after piece.text) run' pieces) := by
      intro run' hstart
      cases run with
      | none =>
        obtain rfl : run' = none := by simpa using hstart
        exact (ih hrest _ none (by simp)).later hafter
      | some r =>
        obtain ⟨r', rfl, hr'⟩ := Option.map_eq_some_iff.mp hstart
        have hstarts : ∀ s, some r' = some s → s.start.Before (p.after piece.text) := by
          rintro s ⟨⟩
          exact hr' ▸ (hrun r rfl).trans hafter
        have hnext := ih hrest (p.after piece.text) (some r') hstarts
        rwa [firstPlace, Option.map_some, Option.getD_some, hr'] at hnext
    have hjoin : ∀ value quoted, Ordered file (firstPlace p run)
        (tokensFrom file uniqueId (p.after piece.text)
          (some (.join run p (p.after piece.text) value quoted)) pieces) := by
      intro value quoted
      cases run with
      | none =>
        refine ih hrest (p.after piece.text)
          (some (.join none p (p.after piece.text) value quoted)) ?_
        rintro s ⟨⟩
        exact hafter
      | some r => exact hskip _ rfl
    cases piece with
    | blank c => exact hskip _ (by cases run <;> rfl)
    | lineComment body => exact hskip run rfl
    | blockComment body closed => exact hskip run rfl
    | quoted q body closed => exact hjoin _ true
    | plain body => exact hjoin _ false
    | symbol c =>
      have hsymbol : Ordered file p (TokenOf.symbol c (.written (p.location file) 1) ::
          tokensFrom file uniqueId (p.after (symbol c).text) none pieces) :=
        .cons rfl (ih hrest _ none (by simp)) hafter
      cases run with
      | none => exact hsymbol
      | some r => exact .cons rfl hsymbol (hrun r rfl)

end Piece

/-- **The tokens of a text have identities that are apart.** -/
theorem apart_tokenize (text file uniqueId : String) :
    AllApart ((tokenize text file uniqueId).1.map (·.origin.uid)) := by
  obtain ⟨places, htexts, hpairwise, -⟩ :=
    Piece.ordered_tokensFrom file uniqueId.toList
      (fun _ hp => (Piece.sound_of_mem_split hp).text_ne_nil) .start none (by simp)
  have hmap : (tokenize text file uniqueId).1.map (·.origin.uid) =
      places.map (·.location file |>.text) := htexts
  rw [hmap, AllApart, List.pairwise_map]
  refine hpairwise.imp fun {p q} hpq => ?_
  have hfile : (p.location file).file = (q.location file).file := rfl
  exact Location.apart_text hfile (hpq.location_ne file)

/-! ### The reader

What is counted are the calls that are complete, in the nodes that are read already, and the names
of calls that are open. -/

/-- The identity that a sequence has a call for. -/
def Sequence.uids : Sequence → List String
  | file => []
  | array _ => []
  | params name => [name.origin.uid]

/-- The identities in a sequence that is being read. -/
def OpenSequence.uids (s : OpenSequence) : List String := s.of.uids ++ uidsOfAll s.reversed

/-- The identities in what waits for a node. -/
def Hole.uids : Hole → List String
  | item s => s.uids
  | value b _ => uidsOfEntries b.entries
  | data c => c.uids

/-- The identities in what is open between two elements or entries. -/
def Between.uids : Between → List String
  | elements s => s.uids
  | entries b => uidsOfEntries b.entries

/-- The identities in what is known of the node that comes next. -/
def Phase.uids : Phase → List String
  | between b => b.uids
  | named name => [name.origin.uid]
  | called c => c.uids
  | keyed b _ => uidsOfEntries b.entries
  | valued b _ => uidsOfEntries b.entries
  | skipping b _ => uidsOfEntries b.entries

/-- The identities in all that waits for a node. -/
def uidsOfHoles (hs : List Hole) : List String := hs.flatMap Hole.uids

/-- **The identities in what the reader has read.** -/
def Assembly.uids (a : Assembly) : List String := a.phase.uids ++ uidsOfHoles a.holes

/-- Whether some identities are among others, each at most as often. -/
def Among (us vs : List String) : Prop := ∀ u, us.count u ≤ vs.count u

theorem Among.refl (us : List String) : Among us us := fun _ => Nat.le_refl _

theorem Among.trans {us vs ws : List String} (h : Among us vs) (h' : Among vs ws) : Among us ws :=
  fun u => Nat.le_trans (h u) (h' u)

theorem Among.subperm {us vs : List String} (h : Among us vs) : us.Subperm vs :=
  List.subperm_ext_iff.mpr fun u _ => h u

@[simp] theorem uidsOfHoles_cons (h : Hole) (hs : List Hole) :
    uidsOfHoles (h :: hs) = h.uids ++ uidsOfHoles hs := rfl

/-- An entry that is entered, or dropped since its key is there already. -/
theorem uids_enter (b : OpenBlock) (k : Token) (n : Node) :
    Among (uidsOfEntries (b.enter k n).1.entries) (n.uids ++ uidsOfEntries b.entries) := by
  intro u
  unfold OpenBlock.enter
  split
  · simp only [List.count_append]
    omega
  next hnew =>
    have hnone : Entries.find? b.entries k = none := by
      simpa [Entries.contains] using hnew
    simp only [Entries.insert, hnone, uidsOfEntries_append, uidsOfEntries_cons, List.count_append,
      uidsOfEntries_nil, List.count_nil]
    omega

theorem uids_push (s : OpenSequence) (n : Node) : Among (s.push n).uids (n.uids ++ s.uids) := by
  intro u
  simp only [OpenSequence.uids, OpenSequence.push, uidsOfAll_cons, List.count_append]
  omega

/-- The elements of a sequence are counted in any order. -/
theorem count_uids_items (s : OpenSequence) (u : String) :
    (uidsOfAll s.items).count u = (uidsOfAll s.reversed).count u :=
  (List.Perm.flatMap_right _ (List.reverse_perm s.reversed)).count_eq u

theorem uids_fill (n : Node) (hs : List Hole) :
    Among ((fill n hs).2.1.uids ++ uidsOfHoles (fill n hs).1) (n.uids ++ uidsOfHoles hs) := by
  induction hs generalizing n with
  | nil =>
    intro u
    simp [fill, Between.uids, OpenSequence.uids, Sequence.uids, uidsOfHoles]
  | cons h hs ih =>
    intro u
    cases h with
    | item s =>
      have hpush := uids_push s n u
      simp only [fill, Between.uids, uidsOfHoles_cons, Hole.uids, List.count_append] at hpush ⊢
      omega
    | value b k =>
      have henter := uids_enter b k n u
      simp only [fill, Between.uids, uidsOfHoles_cons, Hole.uids, List.count_append] at henter ⊢
      omega
    | data c =>
      have hstatement := ih (.ofStatement c n) u
      simp only [fill, uids_ofStatement, uidsOfHoles_cons, Hole.uids, List.count_append]
        at hstatement ⊢
      omega

namespace Assembly

variable (a : Assembly) (t : Token)

theorem uids_finish (n : Node) : Among (a.finish n).uids (n.uids ++ uidsOfHoles a.holes) :=
  uids_fill n a.holes

theorem uids_begin : Among (a.begin t).uids (t.origin.uid :: uidsOfHoles a.holes) := by
  have htoken : ∀ b : Assembly, b.holes = a.holes →
      Among (b.finish (.token t)).uids (t.origin.uid :: uidsOfHoles a.holes) := by
    intro b hb u
    have hfinish := uids_finish b (.token t) u
    simp only [hb, uids_token, List.nil_append, List.count_cons] at hfinish ⊢
    omega
  unfold begin
  split
  · exact .refl _
  split
  · intro u
    simp [goto, uids, Phase.uids, Between.uids, OpenSequence.uids, Sequence.uids, List.count_cons]
  split
  · intro u
    simp [goto, uids, Phase.uids, Between.uids, List.count_cons]
  split
  · exact htoken a rfl
  · exact htoken _ rfl

theorem uids_inSequence (s : OpenSequence) :
    Among (a.inSequence s t).uids (t.origin.uid :: (s.uids ++ uidsOfHoles a.holes)) := by
  have hother : Among (inSequence.other a s t).uids
      (t.origin.uid :: (s.uids ++ uidsOfHoles a.holes)) := by
    unfold inSequence.other
    split
    · intro u
      simp [goto, uids, Phase.uids, Between.uids, List.count_cons]
    · exact uids_begin (a.expect (.item s)) t
  unfold inSequence
  split
  next opening hof =>
    split
    · intro u
      have hfinish := uids_finish a (.array s.items opening.origin) u
      have hitems := count_uids_items s u
      simp only [uids_array, OpenSequence.uids, List.count_append, List.count_cons]
        at hfinish hitems ⊢
      omega
    · exact hother
  next name hof =>
    split
    · intro u
      have hitems := count_uids_items s u
      simp only [goto, uids, Phase.uids, Call.uids, callOf, OpenSequence.uids, hof, Sequence.uids,
        List.count_append, List.count_cons, List.count_nil]
      omega
    · exact hother
  next => exact hother

theorem uids_inBlock (b : OpenBlock) :
    Among (a.inBlock b t).uids
      (t.origin.uid :: (uidsOfEntries b.entries ++ uidsOfHoles a.holes)) := by
  have hstays : Among (uidsOfEntries b.entries ++ uidsOfHoles a.holes)
      (t.origin.uid :: (uidsOfEntries b.entries ++ uidsOfHoles a.holes)) :=
    fun u => List.count_le_count_cons
  unfold inBlock
  split
  · refine (uids_finish a b.node).trans ?_
    rw [OpenBlock.node, uids_block]
    exact hstays
  split
  · exact hstays
  split
  · exact hstays
  · exact hstays

theorem uids_inBetween (b : Between) :
    Among (a.inBetween b t).uids (t.origin.uid :: (b.uids ++ uidsOfHoles a.holes)) := by
  cases b with
  | elements s => exact uids_inSequence a t s
  | entries b => exact uids_inBlock a t b

theorem uids_finishBefore (n : Node) :
    Among (a.finishBefore n t).uids (t.origin.uid :: (n.uids ++ uidsOfHoles a.holes)) := by
  intro u
  have hbetween := uids_inBetween (a.finish n) t (fill n a.holes).2.1 u
  have hfill := uids_fill n a.holes u
  have hholes : (a.finish n).holes = (fill n a.holes).1 := rfl
  simp only [hholes, List.count_cons, List.count_append] at hbetween hfill ⊢
  rw [finishBefore_eq]
  omega

theorem uids_skip (b : OpenBlock) (depth : Nat) :
    Among (a.skip b depth t).uids
      (t.origin.uid :: (uidsOfEntries b.entries ++ uidsOfHoles a.holes)) := by
  unfold skip
  split
  · exact uids_inBlock a t b
  · exact fun u => List.count_le_count_cons

/-- **A token adds its identity at most once.** -/
theorem uids_feed : Among (a.feed t).uids (t.origin.uid :: a.uids) := by
  have hmore : ∀ us : List String, Among us (t.origin.uid :: us) :=
    fun us u => List.count_le_count_cons
  unfold feed
  split
  next b hphase =>
    rw [uids.eq_def a, hphase]
    exact uids_inBetween a t b
  next name hphase =>
    rw [uids.eq_def a, hphase]
    split
    · exact hmore _
    · refine (uids_finishBefore a t (.token name)).trans fun u => ?_
      simp only [Phase.uids, uids_token, List.count_cons, List.count_append, List.count_nil]
      omega
  next c hphase =>
    rw [uids.eq_def a, hphase]
    split
    · have hcall := uids_finishBefore a t (.ofCall c)
      rwa [uids_ofCall] at hcall
    · exact uids_begin (a.expect (.data c)) t
  next b key hphase =>
    rw [uids.eq_def a, hphase]
    split
    · exact hmore _
    · exact uids_skip (a.report _ _) t b 0
  next b key hphase =>
    rw [uids.eq_def a, hphase]
    split
    · exact uids_inBlock (a.report _ _) t b
    · exact uids_begin (a.expect (.value b key)) t
  next b depth hphase =>
    rw [uids.eq_def a, hphase]
    exact uids_skip a t b depth

theorem uids_feedAll (ts : List Token) :
    Among (a.feedAll ts).uids (ts.map (·.origin.uid) ++ a.uids) := by
  induction ts generalizing a with
  | nil => exact .refl _
  | cons t ts ih =>
    intro u
    have hrest := ih (a.feed t) u
    have hfeed := uids_feed a t u
    simp only [List.map_cons, List.cons_append, List.count_cons, List.count_append] at hrest hfeed ⊢
    exact Nat.le_trans hrest (by omega)

end Assembly

/-! ### The end of the file -/

theorem uids_items (s : OpenSequence) : Among (uidsOfAll s.items) s.uids := by
  intro u
  rw [count_uids_items, OpenSequence.uids, List.count_append]
  exact Nat.le_add_left _ _

/-- The node that an open sequence is closed as. -/
theorem uids_close? {s : OpenSequence} {n : Node} {d : Diagnostic} (h : s.close? = some (n, d)) :
    Among n.uids s.uids := by
  obtain ⟨of, reversed⟩ := s
  intro u
  have hitems := count_uids_items ⟨of, reversed⟩ u
  cases of with
  | file => exact absurd h (by simp [OpenSequence.close?])
  | array opening =>
    obtain ⟨rfl, -⟩ := Prod.mk.inj (Option.some.inj h)
    simp only [uids_array, OpenSequence.uids, List.count_append] at hitems ⊢
    omega
  | params name =>
    obtain ⟨rfl, -⟩ := Prod.mk.inj (Option.some.inj h)
    simp only [uids_ofCall, Call.uids, callOf, OpenSequence.uids, Sequence.uids,
      List.count_append, List.count_cons, List.count_nil] at hitems ⊢
    omega

theorem uids_closeWith (n : Node) (hs : List Hole) :
    Among (uidsOfAll (closeWith n hs).1) (n.uids ++ uidsOfHoles hs) := by
  induction hs generalizing n with
  | nil =>
    intro u
    simp [closeWith]
  | cons h hs ih =>
    intro u
    cases h with
    | data c =>
      have hstatement := ih (.ofStatement c n) u
      simp only [closeWith, uids_ofStatement, uidsOfHoles_cons, Hole.uids, List.count_append]
        at hstatement ⊢
      omega
    | value b k =>
      have henter := uids_enter b k n u
      have hblock := ih (b.enter k n).1.node u
      simp only [closeWith, OpenBlock.node, uids_block, uidsOfHoles_cons, Hole.uids,
        List.count_append] at henter hblock ⊢
      omega
    | item s =>
      have hpush := uids_push s n u
      simp only [closeWith, uidsOfHoles_cons, Hole.uids, List.count_append] at hpush ⊢
      split
      next =>
        have hitems := uids_items (s.push n) u
        dsimp only
        omega
      next m d hclose =>
        have hnode := uids_close? hclose u
        have hrest := ih m u
        simp only [List.count_append] at hrest ⊢
        omega

namespace Assembly

theorem uids_closeBlock (a : Assembly) (b : OpenBlock) :
    Among (uidsOfAll (a.closeBlock b).1) (uidsOfEntries b.entries ++ uidsOfHoles a.holes) := by
  have hclose := uids_closeWith b.node a.holes
  rwa [OpenBlock.node, uids_block] at hclose

theorem uids_close (a : Assembly) : Among (uidsOfAll a.close.1) a.uids := by
  unfold close
  split
  next s hphase =>
    rw [uids.eq_def a, hphase]
    intro u
    simp only [Phase.uids, Between.uids, List.count_append]
    split
    next =>
      have hitems := uids_items s u
      dsimp only
      omega
    next n d hclose =>
      have hnode := uids_close? hclose u
      have hrest := uids_closeWith n a.holes u
      simp only [List.count_append] at hrest ⊢
      omega
  next b hphase =>
    rw [uids.eq_def a, hphase]
    exact uids_closeBlock a b
  next name hphase =>
    rw [uids.eq_def a, hphase]
    refine (uids_closeWith (.token name) a.holes).trans fun u => ?_
    simp only [Phase.uids, uids_token, List.count_append, List.count_nil]
    omega
  next c hphase =>
    rw [uids.eq_def a, hphase]
    have hcall := uids_closeWith (.ofCall c) a.holes
    rwa [uids_ofCall] at hcall
  next b key hphase =>
    rw [uids.eq_def a, hphase]
    exact uids_closeBlock a b
  next b key hphase =>
    rw [uids.eq_def a, hphase]
    exact uids_closeBlock a b
  next b depth hphase =>
    rw [uids.eq_def a, hphase]
    exact uids_closeBlock a b

end Assembly

/-- The identities in what tokens are read as are among those of the tokens. -/
theorem uids_parse (ts : List Token) : Among (uidsOfAll (parse ts).1) (ts.map (·.origin.uid)) := by
  have hread := Assembly.uids_feedAll .start ts
  have hstart : Assembly.uids .start = [] := rfl
  rw [hstart, List.append_nil] at hread
  exact (Assembly.uids_close _).trans hread

/-- **All calls in a text have identities that are apart.** -/
theorem apart_parseText (text file uniqueId : String) :
    AllApart (uidsOfAll (parseText text file uniqueId).1) :=
  (apart_tokenize text file uniqueId).subperm (uids_parse _).subperm

end ContentLang
