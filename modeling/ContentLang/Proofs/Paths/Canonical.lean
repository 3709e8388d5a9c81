import ContentLang.Proofs.Paths.Normal
import Mathlib.Data.Int.Order.Basic
import Mathlib.Data.List.Induction
import Mathlib.Logic.Relation
import Mathlib.Order.Bounds.Basic

/-!
# Normal forms are canonical

A path may be spelled in many ways: with backslashes, with empty and `.` segments, with detours
`x/..` through directories. A **respelling** (`ContentLang.Path.Respells`) changes one of these
things somewhere in the text. Two paths have the same normal form exactly if one is spelled like
the other by some respellings (`ContentLang.Path.respelled_iff`).

The stack that segments are pushed onto can be replaced from below: what is pushed onto a stack
comes to the same if it is first reduced by itself (`ContentLang.Path.foldl_push_reduced`). So
normalizing goes with joining, and where a path is resolved to depends on its normal form alone
(`ContentLang.Path.normalize_canonical`).

What is left of a path starts with a run of `..`. Its length is read off the path without a stack:
it is the largest number by which the `..` outnumber the names in what the path starts with
(`ContentLang.Path.isGreatest_parents`).
-/

namespace ContentLang

namespace Path

variable {s : Segment} {ss ts stack : List Segment} {a b cs ds : List Char}

/-! ### Segments of paths -/

/-- What remains of segments, in the order of the path. -/
def reduceSegments (ss : List Segment) : List Segment := (ss.foldl push []).reverse

theorem reduce_eq (cs : List Char) : reduce cs = reduceSegments (segments cs) := rfl

/-- The segments of a text are those before a slash and those behind it. -/
theorem split_join (cs ds : List Char) : split (cs ++ '/' :: ds) = split cs ++ split ds := by
  induction cs with
  | nil => simp [split]
  | cons c r ih =>
    rw [List.cons_append, split, split]
    split
    next => rw [ih, List.cons_append]
    next =>
      rw [ih]
      cases hr : split r with
      | nil => exact absurd hr (split_ne_nil r)
      | cons t ts => rfl

theorem segments_join (cs ds : List Char) :
    segments (cs ++ '/' :: ds) = segments cs ++ segments ds := by
  rw [segments, List.map_append, List.map_cons, show slash '/' = '/' from rfl, split_join]
  rfl

theorem unsplit_cons (h : ss ≠ []) : unsplit (s :: ss) = s ++ '/' :: unsplit ss := by
  cases ss with
  | nil => exact absurd rfl h
  | cons t ts => rfl

/-- A text is written with its own segments. -/
theorem unsplit_split (cs : List Char) : unsplit (split cs) = cs := by
  induction cs with
  | nil => rfl
  | cons c r ih =>
    cases hr : split r with
    | nil => exact absurd hr (split_ne_nil r)
    | cons t ts =>
      rw [hr] at ih
      rw [split, hr]
      split
      next hc => rw [hc, unsplit_cons (by simp), List.nil_append, ih]
      next =>
        cases ts with
        | nil => exact congrArg (c :: ·) ih
        | cons u us => exact congrArg (c :: ·) ih

/-! ### Names -/

/-- **Whether a segment is a proper name**: it is neither empty, `.` nor `..`, and holds no
slash. -/
structure IsName (s : Segment) : Prop where
  ne_nil : s ≠ []
  ne_current : s ≠ ['.']
  ne_parent : s ≠ ['.', '.']
  noSlash : ∀ c ∈ s, c ≠ '/' ∧ c ≠ '\\'

theorem InOrder.isName (h : InOrder (s :: stack)) (hs : s ≠ ['.', '.']) : IsName s :=
  ⟨h.ne_nil s (by simp), h.ne_current s (by simp), hs, h.noSlash s (by simp)⟩

theorem segments_of_noSlash (h : ∀ c ∈ s, c ≠ '/' ∧ c ≠ '\\') : segments s = [s] := by
  rw [segments, map_slash fun hmem => (h _ hmem).2 rfl]
  exact split_of_noSlash fun hmem => (h _ hmem).1 rfl

/-! ### Pushing -/

@[simp] theorem push_nil (stack : List Segment) : push stack [] = stack := by simp [push]

@[simp] theorem push_current (stack : List Segment) : push stack ['.'] = stack := by simp [push]

@[simp] theorem push_parent_nil : push [] ['.', '.'] = [['.', '.']] := by simp [push]

@[simp] theorem push_parent_parent (stack : List Segment) :
    push (['.', '.'] :: stack) ['.', '.'] = ['.', '.'] :: ['.', '.'] :: stack := by simp [push]

theorem IsName.push (h : IsName s) (stack : List Segment) : push stack s = s :: stack := by
  simp [Path.push, h.ne_nil, h.ne_current, h.ne_parent]

theorem IsName.push_parent (h : IsName s) (stack : List Segment) :
    Path.push (s :: stack) ['.', '.'] = stack := by
  simp [Path.push, h.ne_parent]

/-- **All that a segment can do to a stack in order**: nothing, if it is empty or `.`; take the
name on top away or be put onto a stack without one, if it is `..`; be put on top, if it is a
name. -/
theorem push_cases (h : InOrder stack) (hs : ∀ c ∈ s, c ≠ '/' ∧ c ≠ '\\') :
    ((s = [] ∨ s = ['.']) ∧ push stack s = stack) ∨
    (∃ name rest, s = ['.', '.'] ∧ stack = name :: rest ∧ IsName name ∧ push stack s = rest) ∨
    (s = ['.', '.'] ∧ (∀ t ∈ stack, t = ['.', '.']) ∧ push stack s = s :: stack) ∨
    (IsName s ∧ push stack s = s :: stack) := by
  by_cases hnothing : s = [] ∨ s = ['.']
  · refine .inl ⟨hnothing, ?_⟩
    rcases hnothing with rfl | rfl
    · exact push_nil stack
    · exact push_current stack
  · obtain ⟨hnil, hcurrent⟩ := not_or.mp hnothing
    by_cases hparent : s = ['.', '.']
    · subst hparent
      cases stack with
      | nil => exact .inr (.inr (.inl ⟨rfl, by simp, push_parent_nil⟩))
      | cons t rest =>
        by_cases ht : t = ['.', '.']
        · subst ht
          refine .inr (.inr (.inl ⟨rfl, ?_, push_parent_parent rest⟩))
          exact List.forall_mem_cons.mpr
            ⟨rfl, fun u hu => (List.pairwise_cons.mp h.parents).1 u hu rfl⟩
        · have hname := h.isName ht
          exact .inr (.inl ⟨t, rest, rfl, rfl, hname, hname.push_parent rest⟩)
    · have hname : IsName s := ⟨hnil, hcurrent, hparent, hs⟩
      exact .inr (.inr (.inr ⟨hname, hname.push stack⟩))

/-! ### Pushing what was reduced -/

/-- A segment pushed onto what was pushed onto a stack. -/
theorem push_foldl_reverse (h : InOrder stack) (hs : ∀ c ∈ s, c ≠ '/' ∧ c ≠ '\\')
    (below : List Segment) :
    push (stack.reverse.foldl push below) s = (push stack s).reverse.foldl push below := by
  have hcons : ∀ t rest, (t :: rest).reverse.foldl push below =
      push (rest.reverse.foldl push below) t := fun t rest => by
    rw [List.reverse_cons, List.foldl_append]
    rfl
  rcases push_cases h hs with ⟨rfl | rfl, hpush⟩ | ⟨name, rest, rfl, rfl, hname, hpush⟩ |
    ⟨-, -, hpush⟩ | ⟨-, hpush⟩
  · rw [push_nil, push_nil]
  · rw [push_current, push_current]
  · rw [hpush, hcons, hname.push, hname.push_parent]
  · rw [hpush, hcons]
  · rw [hpush, hcons]

/-- **What is pushed onto a stack may be reduced first.** -/
theorem foldl_push_reduced (hss : ∀ s ∈ ss, ∀ c ∈ s, c ≠ '/' ∧ c ≠ '\\') (below : List Segment) :
    (reduceSegments ss).foldl push below = ss.foldl push below := by
  -- The induction is on what has been reduced so far, which is itself a stack in order.
  have hall : ∀ stack, InOrder stack →
      ss.foldl push (stack.reverse.foldl push below) =
        (ss.foldl push stack).reverse.foldl push below := by
    induction ss with
    | nil => exact fun _ _ => rfl
    | cons s ss ih =>
      intro stack hstack
      obtain ⟨hs, hss⟩ := List.forall_mem_cons.mp hss
      rw [List.foldl_cons, List.foldl_cons, push_foldl_reverse hstack hs below]
      exact ih hss _ (hstack.push hs)
  exact (hall [] inOrder_nil).symm

/-- What remains of two paths, one behind the other. -/
theorem reduce_join (cs ds : List Char) :
    reduce (cs ++ '/' :: ds) = reduceSegments (reduce cs ++ reduce ds) := by
  have hboth : ∀ below, (reduce ds).foldl push ((reduce cs).foldl push below) =
      (segments ds).foldl push ((segments cs).foldl push below) := fun below => by
    rw [reduce_eq, reduce_eq, foldl_push_reduced fun s => noSlash_of_mem_segments,
      foldl_push_reduced fun s => noSlash_of_mem_segments]
  rw [reduce_eq, segments_join, reduceSegments, reduceSegments, List.foldl_append,
    List.foldl_append, hboth]

theorem reduce_normalizeChars (cs : List Char) : reduce (normalizeChars cs) = reduce cs :=
  reduce_unsplit (inOrder_reduce cs)

theorem normalizeChars_eq_iff : normalizeChars a = normalizeChars b ↔ reduce a = reduce b := by
  constructor
  · intro h
    rw [← reduce_normalizeChars a, h, reduce_normalizeChars]
  · exact fun h => congrArg unsplit h

/-- **Normalizing goes with joining.** -/
theorem normalizeChars_join (cs ds : List Char) :
    normalizeChars (cs ++ '/' :: ds) =
      normalizeChars (normalizeChars cs ++ '/' :: normalizeChars ds) := by
  rw [normalizeChars_eq_iff, reduce_join, reduce_join, reduce_normalizeChars,
    reduce_normalizeChars]

/-! ### The run of parents -/

/-- By how many the `..` among segments outnumber the names. -/
def excess : List Segment → Int
  | [] => 0
  | s :: ss => (if s = [] ∨ s = ['.'] then 0 else if s = ['.', '.'] then 1 else -1) + excess ss

theorem excess_append (ss ts : List Segment) : excess (ss ++ ts) = excess ss + excess ts := by
  induction ss with
  | nil => exact (Int.zero_add _).symm
  | cons s ss ih => rw [List.cons_append, excess, excess, ih, Int.add_assoc]

theorem excess_nothing (h : s = [] ∨ s = ['.']) : excess [s] = 0 := by simp [excess, h]

theorem excess_parent : excess [['.', '.']] = 1 := by simp [excess]

theorem IsName.excess (h : IsName s) : Path.excess [s] = -1 := by
  simp [Path.excess, h.ne_nil, h.ne_current, h.ne_parent]

/-- The excesses of what segments start with. -/
def excesses (ss : List Segment) : Set Int := { e | ∃ p, p <+: ss ∧ excess p = e }

/-- One more segment adds one excess. -/
theorem mem_excesses_concat {e : Int} :
    e ∈ excesses (ss ++ [s]) ↔ e ∈ excesses ss ∨ e = excess (ss ++ [s]) := by
  constructor
  · rintro ⟨p, hp, rfl⟩
    rcases List.prefix_concat_iff.mp hp with rfl | hp
    · exact .inr rfl
    · exact .inl ⟨p, hp, rfl⟩
  · rintro (⟨p, hp, rfl⟩ | rfl)
    · exact ⟨p, hp.trans (List.prefix_append _ _), rfl⟩
    · exact ⟨_, List.prefix_refl _, rfl⟩

/-- The largest excess stays unless that of all segments exceeds it. -/
theorem isGreatest_concat_of_le {m : Int} (h : IsGreatest (excesses ss) m)
    (hle : excess (ss ++ [s]) ≤ m) : IsGreatest (excesses (ss ++ [s])) m := by
  refine ⟨mem_excesses_concat.mpr (.inl h.1), fun e he => ?_⟩
  rcases mem_excesses_concat.mp he with he | rfl
  · exact h.2 he
  · exact hle

theorem isGreatest_concat_of_lt {m : Int} (h : IsGreatest (excesses ss) m)
    (hlt : m < excess (ss ++ [s])) :
    IsGreatest (excesses (ss ++ [s])) (excess (ss ++ [s])) := by
  refine ⟨mem_excesses_concat.mpr (.inr rfl), fun e he => ?_⟩
  rcases mem_excesses_concat.mp he with he | rfl
  · exact (h.2 he).trans hlt.le
  · exact le_refl _

/-- A stack of names above a run of `..`. -/
structure Runs (stack : List Segment) (names : List Segment) (parents : Nat) : Prop where
  stack_eq : stack = names ++ List.replicate parents ['.', '.']
  isName : ∀ s ∈ names, IsName s

namespace Runs

variable {names : List Segment} {parents : Nat}

theorem cons (h : Runs stack names parents) (hs : IsName s) :
    Runs (s :: stack) (s :: names) parents :=
  ⟨by rw [h.stack_eq, List.cons_append], List.forall_mem_cons.mpr ⟨hs, h.isName⟩⟩

/-- A name on top is one of the names, since the run below them has none. -/
theorem of_cons (h : Runs (s :: stack) names parents) (hs : IsName s) :
    ∃ names', names = s :: names' ∧ Runs stack names' parents := by
  cases names with
  | nil =>
    have hrun : s :: stack = List.replicate parents ['.', '.'] := h.stack_eq
    have htop : s ∈ List.replicate parents ['.', '.'] := hrun ▸ List.mem_cons_self
    exact absurd (List.eq_of_mem_replicate htop) hs.ne_parent
  | cons n names' =>
    obtain ⟨rfl, hstack⟩ := List.cons.inj h.stack_eq
    exact ⟨names', rfl, hstack, (List.forall_mem_cons.mp h.isName).2⟩

/-- There are no names in a stack of `..` alone. -/
theorem names_eq_nil (h : Runs stack names parents) (hall : ∀ t ∈ stack, t = ['.', '.']) :
    names = [] := by
  refine List.eq_nil_iff_forall_not_mem.mpr fun n hn => (h.isName n hn).ne_parent (hall n ?_)
  rw [h.stack_eq]
  exact List.mem_append_left _ hn

end Runs

/-- A stack in order is names above a run of `..`, as long as the largest excess of what was
pushed; the names make up the difference to the excess of all. -/
theorem exists_runs (hss : ∀ s ∈ ss, ∀ c ∈ s, c ≠ '/' ∧ c ≠ '\\') :
    ∃ names parents, Runs (ss.foldl push []) names parents ∧
      IsGreatest (excesses ss) (parents : Int) ∧ (parents : Int) - names.length = excess ss := by
  induction ss using List.reverseRecOn with
  | nil =>
    refine ⟨[], 0, ⟨rfl, by simp⟩, ⟨⟨[], List.prefix_refl _, rfl⟩, ?_⟩, rfl⟩
    rintro _ ⟨p, hp, rfl⟩
    rw [List.prefix_nil.mp hp]
    exact le_refl _
  | append_singleton ss s ih =>
    obtain ⟨hss, hs⟩ := List.forall_mem_append.mp hss
    obtain ⟨names, parents, hruns, hgreatest, hexcess⟩ := ih hss
    have hs := List.forall_mem_singleton.mp hs
    have hall : excess (ss ++ [s]) = excess ss + excess [s] := excess_append ss [s]
    rw [List.foldl_append, List.foldl_cons, List.foldl_nil]
    -- The largest excess follows what the last segment does to the stack.
    rcases push_cases (inOrder_nil.foldl_push hss) hs with
      ⟨hnothing, hpush⟩ | ⟨name, rest, rfl, htop, hname, hpush⟩ | ⟨rfl, hparents, hpush⟩ |
        ⟨hname, hpush⟩
    · rw [excess_nothing hnothing] at hall
      exact ⟨names, parents, by rwa [hpush], isGreatest_concat_of_le hgreatest (by omega),
        by omega⟩
    -- One name is taken away, and the run below is not reached.
    · rw [excess_parent] at hall
      rw [htop] at hruns
      obtain ⟨names', rfl, hruns'⟩ := hruns.of_cons hname
      rw [List.length_cons] at hexcess
      exact ⟨names', parents, hpush ▸ hruns', isGreatest_concat_of_le hgreatest (by omega),
        by omega⟩
    -- Without names the run gets longer, and so does the largest excess.
    · rw [excess_parent] at hall
      obtain rfl := hruns.names_eq_nil hparents
      rw [List.length_nil] at hexcess
      have hmore : ((parents + 1 : Nat) : Int) = excess (ss ++ [['.', '.']]) := by omega
      refine ⟨[], parents + 1, ⟨?_, by simp⟩, ?_, by rw [List.length_nil]; omega⟩
      · rw [hpush, hruns.stack_eq]
        rfl
      · rw [hmore]
        exact isGreatest_concat_of_lt hgreatest (by omega)
    · rw [hname.excess] at hall
      refine ⟨s :: names, parents, hpush ▸ hruns.cons hname,
        isGreatest_concat_of_le hgreatest (by omega), ?_⟩
      rw [List.length_cons]
      omega

/-- **What remains of a path is a run of `..` and then names**, and the run is as long as the
largest excess of what the path starts with. -/
theorem isGreatest_parents (cs : List Char) :
    ∃ parents names, reduce cs = List.replicate parents ['.', '.'] ++ names ∧
      (∀ s ∈ names, IsName s) ∧ IsGreatest (excesses (segments cs)) (parents : Int) := by
  obtain ⟨names, parents, ⟨hstack, hnames⟩, hgreatest, -⟩ :=
    exists_runs fun s (hs : s ∈ segments cs) => noSlash_of_mem_segments hs
  refine ⟨parents, names.reverse, ?_, fun s hs => hnames s (List.mem_reverse.mp hs), hgreatest⟩
  rw [reduce_eq, reduceSegments, hstack, List.reverse_append, List.reverse_replicate]

/-! ### What normal forms hold -/

/-- The segments of a normal form that is not empty are those that remain. -/
theorem split_normalizeChars (h : normalizeChars cs ≠ []) :
    split (normalizeChars cs) = reduce cs := by
  have horder := inOrder_reduce cs
  refine split_unsplit (fun hnil => h ?_) fun s hs hslash => ?_
  · rw [normalizeChars, hnil]
    rfl
  · exact (horder.noSlash s (List.mem_reverse.mpr hs) _ hslash).1 rfl

/-- No segment of a normal form is empty or `.`. -/
theorem segment_normalizeChars (h : normalizeChars cs ≠ []) (hs : s ∈ split (normalizeChars cs)) :
    s ≠ [] ∧ s ≠ ['.'] := by
  have horder := inOrder_reduce cs
  rw [split_normalizeChars h, ← List.mem_reverse] at hs
  exact ⟨horder.ne_nil s hs, horder.ne_current s hs⟩

theorem backslash_normalizeChars (cs : List Char) : '\\' ∉ normalizeChars cs := by
  intro h
  rcases mem_unsplit h with h | ⟨s, hs, hmem⟩
  · exact absurd h (by decide)
  · exact ((inOrder_reduce cs).noSlash s (List.mem_reverse.mpr hs) _ hmem).2 rfl

/-- A slash stands neither first nor last in a normal form, since a segment there would be
empty. -/
theorem slash_normalizeChars (cs ds : List Char) :
    normalizeChars cs ≠ '/' :: ds ∧ normalizeChars cs ≠ ds ++ ['/'] := by
  constructor
  · intro h
    have hempty : [] ∈ split (normalizeChars cs) := by rw [h]; simp [split]
    exact (segment_normalizeChars (by simp [h]) hempty).1 rfl
  · intro h
    have hempty : [] ∈ split (normalizeChars cs) := by rw [h, split_join]; simp [split]
    exact (segment_normalizeChars (by simp [h]) hempty).1 rfl

/-! ### Respelling -/

/-- **One way to spell a path otherwise**: with a slash for a backslash, without an empty segment,
without a `.`, or without a detour through a directory. -/
inductive Respells : List Char → List Char → Prop
  | backslash (a b : List Char) : Respells (a ++ '\\' :: b) (a ++ '/' :: b)
  | empty (ss ts : List Segment) : Respells (unsplit (ss ++ [] :: ts)) (unsplit (ss ++ ts))
  | current (ss ts : List Segment) : Respells (unsplit (ss ++ ['.'] :: ts)) (unsplit (ss ++ ts))
  | detour {name : Segment} (h : IsName name) (ss ts : List Segment) :
    Respells (unsplit (ss ++ name :: ['.', '.'] :: ts)) (unsplit (ss ++ ts))

/-- Whether two paths are spellings of one another. -/
def Respelled : List Char → List Char → Prop := Relation.EqvGen Respells

/-- What is pushed for a text written with some segments is what is pushed for each of them. -/
theorem foldl_push_segments_unsplit (ss : List Segment) (below : List Segment) :
    (segments (unsplit ss)).foldl push below = (ss.flatMap segments).foldl push below := by
  induction ss generalizing below with
  | nil => exact push_nil below
  | cons s ss ih =>
    cases ss with
    | nil => rw [unsplit, List.flatMap_singleton]
    | cons t ts =>
      rw [unsplit_cons (by simp), segments_join, List.foldl_append, ih, ← List.foldl_append,
        ← List.flatMap_cons]

/-- **A respelling leaves what remains of a path.** -/
theorem Respells.reduce_eq (h : Respells a b) : reduce a = reduce b := by
  have hparts : ∀ {ss ss' : List Segment},
      (∀ below, (ss.flatMap segments).foldl push below = (ss'.flatMap segments).foldl push below) →
        reduce (unsplit ss) = reduce (unsplit ss') := fun hsame => by
    rw [Path.reduce_eq, Path.reduce_eq, reduceSegments, reduceSegments,
      foldl_push_segments_unsplit, foldl_push_segments_unsplit, hsame]
  cases h with
  | backslash a b =>
    have hsame : (a ++ '\\' :: b).map slash = (a ++ '/' :: b).map slash := by simp [slash]
    rw [reduce, reduce, hsame]
  | empty ss ts =>
    refine hparts fun below => ?_
    rw [List.flatMap_append, List.flatMap_append, List.flatMap_cons, List.foldl_append,
      List.foldl_append, List.foldl_append]
    exact congrArg ((ts.flatMap segments).foldl push) (push_nil _)
  | current ss ts =>
    refine hparts fun below => ?_
    rw [List.flatMap_append, List.flatMap_append, List.flatMap_cons, List.foldl_append,
      List.foldl_append, List.foldl_append]
    exact congrArg ((ts.flatMap segments).foldl push) (push_current _)
  | @detour name hname ss ts =>
    refine hparts fun below => ?_
    rw [List.flatMap_append, List.flatMap_append, List.flatMap_cons, List.flatMap_cons,
      List.foldl_append, List.foldl_append, List.foldl_append, List.foldl_append,
      segments_of_noSlash hname.noSlash, List.foldl_cons, List.foldl_nil, hname.push]
    exact congrArg ((ts.flatMap segments).foldl push) (hname.push_parent _)

theorem Respelled.reduce_eq (h : Respelled a b) : reduce a = reduce b := by
  induction h with
  | rel _ _ h => exact h.reduce_eq
  | refl _ => rfl
  | symm _ _ _ ih => exact ih.symm
  | trans _ _ _ _ _ ih ih' => exact ih.trans ih'

theorem Respelled.trans (h : Respelled a b) {c : List Char} (h' : Respelled b c) :
    Respelled a c :=
  Relation.EqvGen.trans a b c h h'

/-- Backslashes may be written as slashes. -/
theorem respelled_slashes (cs : List Char) : Respelled cs (cs.map slash) := by
  have hall : ∀ before, Respelled (before ++ cs) (before ++ cs.map slash) := by
    induction cs with
    | nil => exact fun before => .refl _
    | cons c cs ih =>
      intro before
      have hlater : Respelled (before ++ slash c :: cs) (before ++ (c :: cs).map slash) := by
        simpa using ih (before ++ [slash c])
      refine Respelled.trans ?_ hlater
      unfold slash
      split
      next hc =>
        subst hc
        exact .rel _ _ (.backslash before cs)
      next => exact .refl _
  exact hall []

/-- Each segment that is pushed is a respelling, or none. -/
theorem respelled_foldl (h : InOrder stack) (hss : ∀ s ∈ ss, ∀ c ∈ s, c ≠ '/' ∧ c ≠ '\\') :
    Respelled (unsplit (stack.reverse ++ ss)) (unsplit (ss.foldl push stack).reverse) := by
  induction ss generalizing stack with
  | nil =>
    rw [List.append_nil]
    exact .refl _
  | cons s ss ih =>
    obtain ⟨hs, hss⟩ := List.forall_mem_cons.mp hss
    refine Respelled.trans ?_ (ih (h.push hs) hss)
    rcases push_cases h hs with ⟨rfl | rfl, hpush⟩ | ⟨name, rest, rfl, rfl, hname, hpush⟩ |
      ⟨-, -, hpush⟩ | ⟨-, hpush⟩
    · rw [hpush]
      exact .rel _ _ (.empty _ _)
    · rw [hpush]
      exact .rel _ _ (.current _ _)
    · rw [hpush, List.reverse_cons, List.append_assoc]
      exact .rel _ _ (.detour hname _ _)
    · rw [hpush, List.reverse_cons, List.append_assoc]
      exact .refl _
    · rw [hpush, List.reverse_cons, List.append_assoc]
      exact .refl _

/-- A path is a spelling of its normal form. -/
theorem respelled_normalizeChars (cs : List Char) : Respelled cs (normalizeChars cs) := by
  have hsegments : Respelled cs (unsplit (segments cs)) := by
    rw [segments, unsplit_split]
    exact respelled_slashes cs
  exact hsegments.trans (respelled_foldl inOrder_nil fun s => noSlash_of_mem_segments)

/-- **Two paths have the same normal form exactly if they are spellings of one another.** -/
theorem respelled_iff : Respelled a b ↔ normalizeChars a = normalizeChars b := by
  constructor
  · exact fun h => congrArg unsplit h.reduce_eq
  · intro h
    have hb := Relation.EqvGen.symm _ _ (respelled_normalizeChars b)
    rw [← h] at hb
    exact (respelled_normalizeChars a).trans hb

/-! ### Resolving -/

/-- **Where a relative path is resolved to depends on its normal form alone.** -/
theorem resolveChars_congr (file : List Char) (ha : isRooted a = false) (hb : isRooted b = false)
    (h : normalizeChars a = normalizeChars b) : resolveChars file a = resolveChars file b := by
  simp only [resolveChars, ha, hb, Bool.false_eq_true, if_false]
  cases directory? (file.map slash) with
  | none => exact h
  | some dir =>
    show normalizeChars (dir ++ '/' :: a) = normalizeChars (dir ++ '/' :: b)
    rw [normalizeChars_join, h, ← normalizeChars_join]

/-- **Normal forms are canonical, and go with joining.** The normal form of two paths one behind
the other is that of their normal forms. A normal form is its own. It holds no backslash, starts
and ends with no slash, and none of its segments is empty or `.`; it is a run of `..` and then
names, and the run is as long as the largest excess of `..` over names in what the path starts
with. Two paths have the same normal form exactly if they are spellings of one another, and then
they are resolved alike in every file, if they are relative. -/
theorem normalize_canonical (a b file p q : String) :
    normalize (a ++ "/" ++ b) = normalize (normalize a ++ "/" ++ normalize b) ∧
    normalize (normalize a) = normalize a ∧
    '\\' ∉ (normalize a).toList ∧
    (∀ cs, (normalize a).toList ≠ '/' :: cs ∧ (normalize a).toList ≠ cs ++ ['/']) ∧
    (normalize a ≠ "" → ∀ s ∈ split (normalize a).toList, s ≠ [] ∧ s ≠ ['.']) ∧
    (∃ parents names, (normalize a).toList = unsplit (List.replicate parents ['.', '.'] ++ names) ∧
      (∀ s ∈ names, IsName s) ∧ IsGreatest (excesses (segments a.toList)) (parents : Int)) ∧
    (Respelled p.toList q.toList ↔ normalize p = normalize q) ∧
    (isRooted p.toList = false → isRooted q.toList = false → Respelled p.toList q.toList →
      resolve file p = resolve file q) := by
  have hchars : ∀ path, (normalize path).toList = normalizeChars path.toList := fun path => by
    rw [normalize, String.toList_ofList]
  refine ⟨?_, normalize_normalize a, ?_, ?_, ?_, ?_, ?_, ?_⟩
  · have hjoin : ∀ c d : String, normalize (c ++ "/" ++ d) =
        String.ofList (normalizeChars (c.toList ++ '/' :: d.toList)) := fun c d => by
      simp [normalize]
    rw [hjoin, hjoin, hchars, hchars, ← normalizeChars_join]
  · rw [hchars]
    exact backslash_normalizeChars _
  · rw [hchars]
    exact slash_normalizeChars _
  · intro hne s hs
    rw [hchars] at hs
    refine segment_normalizeChars (fun hnil => hne ?_) hs
    rw [normalize, hnil]
  · obtain ⟨parents, names, hreduce, hnames, hgreatest⟩ := isGreatest_parents a.toList
    exact ⟨parents, names, by rw [hchars, normalizeChars, hreduce], hnames, hgreatest⟩
  · rw [respelled_iff, ← hchars, ← hchars, String.toList_inj]
  · intro hp hq h
    exact congrArg String.ofList (resolveChars_congr file.toList hp hq (respelled_iff.mp h))

/-- A path with backslashes, an empty segment, a `.` and a detour, beside one without. -/
theorem normalize_canonical_detour :
    let p := ".\\maps//old\\../town"
    let q := "maps/town"
    Respelled p.toList q.toList ∧ isRooted p.toList = false ∧ isRooted q.toList = false ∧
      resolve "data/items.txt" p = resolve "data/items.txt" q ∧
      resolve "data/items.txt" q = "data/maps/town" := by
  intro p q
  have hspelled : Respelled p.toList q.toList := respelled_iff.mpr (by decide)
  have hp : isRooted p.toList = false := by decide
  have hq : isRooted q.toList = false := by decide
  obtain ⟨-, -, -, -, -, -, -, hresolve⟩ := normalize_canonical "" "" "data/items.txt" p q
  exact ⟨hspelled, hp, hq, hresolve hp hq hspelled, by decide⟩

end Path

end ContentLang
