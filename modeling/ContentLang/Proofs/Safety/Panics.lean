import ContentLang.Proofs.Walk.Matching

/-!
# What panics

A walk is given up either as too deep or because weights add up to infinity
(`ContentLang.Halt`). The second is a panic: content can bring it about, and it should be a
diagnostic with a placeholder. This file says when it happens.

* Loading and refreshing never panic: nothing is weighed then.
* Consuming a node panics exactly if it **overweighs** (`ContentLang.Engine.Overweighs`), which is
  to say that it would make a difference what is done about weights that add up to infinity.
  Whatever else is done, runs that do not panic are the same
  (`ContentLang.Engine.resolve_unless_panics`); and if a diagnostic is reported and the
  placeholder given, nothing panics (`ContentLang.Engine.mended_not_panics`).
* An index that is picked is that of a member (`ContentLang.uniformIndex_lt`,
  `ContentLang.Weighted.index_lt`).
-/

namespace ContentLang

/-- Whether a walk is given up in a panic. -/
def Halt.IsPanic (halt : Halt) : Prop := halt = .infiniteWeight

/-- A walk that is too deep is given up without a panic. -/
theorem Halt.not_isPanic : ¬ Halt.IsPanic .exhausted := Halt.noConfusion

/-- Whether an answer is a panic. -/
def panics {α : Type} : Except Halt α → Bool
  | .ok _ => false
  | .error halt => decide (halt = .infiniteWeight)

theorem panics_iff {α : Type} {r : Except Halt α} :
    panics r = true ↔ r = .error .infiniteWeight := by
  rcases r with halt | a
  · simp [panics]
  · simp [panics]

/-- An answer that is there is no panic. -/
theorem ok_ne_panic {α : Type} {a : α} : (.ok a : Except Halt α) ≠ .error .infiniteWeight := by
  simp

/-! ### Picks -/

/-- An index that is accepted is one of `n`. -/
theorem acceptedIndex?_lt {n v i : Nat} (hv : v < drawRange) (h : acceptedIndex? n v = some i)
    (hn : 0 < n) : i < n := by
  unfold acceptedIndex? at h
  split at h
  · obtain rfl : v * n / drawRange = i := Option.some.inj h
    refine Nat.div_lt_of_lt_mul ?_
    exact (Nat.mul_lt_mul_right hn).mpr hv
  · exact absurd h (by simp)

/-- **An even pick is in range.** -/
theorem uniformIndex_lt {n limit i : Nat} {g g' : Generator} (hn : 0 < n)
    (h : uniformIndex n limit g = some (i, g')) : i < n := by
  induction limit generalizing g with
  | zero => exact absurd h (by simp [uniformIndex])
  | succ limit ih =>
    unfold uniformIndex at h
    split at h
    · next j hj =>
      obtain ⟨rfl, -⟩ : j = i ∧ g.advance = g' := by simpa using h
      exact acceptedIndex?_lt g.value.toNat_lt hj hn
    · exact ih h

namespace Weighted

theorem length_partialSums_foldl (w : Weighted) (xs : List Float) :
    (xs.foldl add w).partialSums.length = w.partialSums.length + xs.length := by
  induction xs generalizing w with
  | nil => rfl
  | cons x xs ih =>
    rw [List.foldl_cons, ih]
    simp only [add, List.length_append, List.length_cons, List.length_nil]
    omega

/-- **A pick by weight is in range.** -/
theorem index_lt (x : Float) (xs : List Float) (v : UInt64) :
    (ofWeights x xs).index v < (x :: xs).length := by
  have hsums : (ofWeights x xs).partialSums.length = xs.length := by
    rw [ofWeights, length_partialSums_foldl]
    simp
  have hfilter : (ofWeights x xs).index v ≤ (ofWeights x xs).partialSums.length :=
    List.length_filter_le _ _
  rw [hsums] at hfilter
  rw [List.length_cons]
  omega

end Weighted

namespace Engine

/-! ### Something else about infinite weights -/

/-- The engine with something else done about weights that add up to infinity. -/
def mended (e : Engine) (otherwise : Call → Node → Walk Outcome) : Engine :=
  { e with registry := .builtinElse otherwise }

/-- Reporting that there is nothing to choose from by weight, and giving the placeholder. -/
def placeholder (call : Call) (list : Node) : Walk Outcome :=
  Evaluator.invalidArgument call list .weightless

/-- **Whether weights that add up to infinity are come upon**: it makes a difference to what an
operation gives what is done about them. -/
def Overweighs {α : Type} (e : Engine) (operation : Engine → α) : Prop :=
  ∃ otherwise, operation (e.mended otherwise) ≠ operation e

variable {e : Engine}

/-! ### Unless it panics -/

/-- The simulation of an engine's runs, unless they panic. -/
def unlessPanics (e : Engine) : Simulation true ⟨e.host, e.settings⟩ ⟨e.host, e.settings⟩ :=
  .strict true _ Halt.IsPanic Halt.never
    (fun h => absurd h Halt.not_isPanic) Halt.not_never

theorem unlessPanics_fits (hregistry : e.registry = .builtin)
    (otherwise : Call → Node → Walk Outcome) (file : String) :
    e.unlessPanics.Fits (e.surroundings true file)
      ((e.mended otherwise).surroundings true file) := by
  have hfunctions : e.unlessPanics.RespectsAll e.registry (.builtinElse otherwise) := by
    rw [hregistry, ← Registry.builtinElse_givenUp]
    have hpanic : Halt.IsPanic .infiniteWeight := rfl
    exact e.unlessPanics.respects_builtinElse fun _ {_ _ _ _} _ _ => Walk.matches_excused hpanic _
  exact fits e (e.mended otherwise) hfunctions (.inl rfl) file

/-- Two runs that match are the same, or the first one panics. -/
theorem same_unless_panics {α : Type} {R : α → α → Prop} (hR : ∀ a b, R a b → a = b)
    {m m' : Walk α} (h : e.unlessPanics.rel R m m') (s : WalkState)
    (hpanic : (m s).answer ≠ .error .infiniteWeight) : m s = m' s := by
  rcases h s with ⟨halt, rfl, hhalt⟩ | hsame
  · exact absurd hhalt hpanic
  · exact hsame.eq hR

/-- A node's consumption is given up for the reason that its reduction is given up for. -/
theorem resolve_answer_error (node : Node) (halt : Halt) :
    (e.resolve node).answer = .error halt ↔
      (reduce (e.surroundings true node.location.file) node node.origin.context e.state).answer =
        .error halt := by
  simp only [resolve, reduceNode, consume, carryOut]
  rcases (reduce (e.surroundings true node.location.file) node node.origin.context e.state).answer
    with halt' | outcome
  · simp [Except.map]
  · simp [Except.map]

/-- **Unless it panics, a node is consumed as it is whatever is done about infinite weights**: to
the same answer, with the same notes, and leaving the same state. -/
theorem resolve_unless_panics (hregistry : e.registry = .builtin)
    (otherwise : Call → Node → Walk Outcome) (node : Node)
    (h : (e.resolve node).answer ≠ .error .infiniteWeight) :
    ((e.mended otherwise).resolve node).answer = (e.resolve node).answer ∧
      ((e.mended otherwise).resolve node).notes = (e.resolve node).notes ∧
      ((e.mended otherwise).resolve node).engine.state = (e.resolve node).engine.state := by
  have hfits := unlessPanics_fits hregistry otherwise node.location.file
  have hnode : node.Kin e.unlessPanics.kin node := Node.kin_strict.mpr rfl
  have hrun := e.unlessPanics.reduce hfits hnode (rfl : node.origin.context = _)
  have heq := same_unless_panics (fun _ _ => Outcome.kin_strict.mp) hrun e.state fun hhalt =>
    h ((resolve_answer_error node _).mpr hhalt)
  simp only [resolve, reduceNode, consume, carryOut]
  rw [heq]
  exact ⟨rfl, rfl, rfl⟩

/-- The same of a node that has to come to a token. -/
theorem resolveToken_unless_panics (hregistry : e.registry = .builtin)
    (otherwise : Call → Node → Walk Outcome) (node : Node)
    (h : (e.resolveToken node).answer ≠ .error .infiniteWeight) :
    ((e.mended otherwise).resolveToken node).answer = (e.resolveToken node).answer ∧
      ((e.mended otherwise).resolveToken node).notes = (e.resolveToken node).notes ∧
      ((e.mended otherwise).resolveToken node).engine.state =
        (e.resolveToken node).engine.state := by
  have hfits := unlessPanics_fits hregistry otherwise node.location.file
  have hnode : node.Kin e.unlessPanics.kin node := Node.kin_strict.mpr rfl
  have hrun := Simulation.placeholders (e.unlessPanics.inContext hfits.limit) hfits
    (rfl : node.origin.context = _) hnode
  have heq := same_unless_panics (fun _ _ => TokenOf.kin_strict_option.mp) hrun e.state h
  simp only [resolveToken, consume, carryOut]
  rw [heq]
  exact ⟨rfl, rfl, rfl⟩

/-! ### What never panics -/

/-- The simulation of an engine's runs by themselves, none of which panics. -/
def neverPanics (e : Engine) (late : Bool) :
    Simulation late ⟨e.host, e.settings⟩ ⟨e.host, e.settings⟩ :=
  .strict late _ Halt.never Halt.IsPanic (Halt.never_excuses late) Halt.not_isPanic

theorem not_panics {late : Bool} {α : Type} {R : α → α → Prop} {m : Walk α}
    (h : (e.neverPanics late).rel R m m) (s : WalkState) :
    (m s).answer ≠ .error .infiniteWeight := by
  intro hpanic
  rcases h s with ⟨halt, hnever, -⟩ | hsame
  · exact hnever
  · exact hsame.goes _ hpanic rfl

/-- **The loading pass never panics**: nothing is weighed in it. -/
theorem processed_not_panics (hregistry : e.registry = .builtin) (file : String) (source : Node)
    (s : WalkState) : (e.processed file source s).answer ≠ .error .infiniteWeight := by
  have hfunctions : (e.neverPanics false).RespectsAll e.registry e.registry := by
    rw [hregistry]
    exact (e.neverPanics false).respects_builtin fun h => absurd h (by decide)
  have hsource : source.Kin (e.neverPanics false).kin source := Node.kin_strict.mpr rfl
  have hrun := (e.neverPanics false).reduce (fits e e hfunctions (.inl rfl) file) hsource
    (rfl : Context.empty = _)
  exact not_panics ((e.neverPanics false).map (R := Outcome.Kin .strict) (Q := (· = ·)) hrun
    fun out out' hout => by rw [Outcome.kin_strict.mp hout]) s

/-- The loading pass on the tree of a file does not panic. -/
theorem process_not_panics (hregistry : e.registry = .builtin) (l : Loaded) :
    (e.process l).answer ≠ .error .infiniteWeight := by
  have hrun := processed_not_panics hregistry l.file l.source e.state
  simp only [process, carryOut]
  rcases h : (e.processed l.file l.source e.state).answer with halt | root
  · intro hpanic
    obtain rfl : halt = .infiniteWeight := Except.error.inj hpanic
    exact hrun h
  · exact ok_ne_panic

/-- **No file panics while it is loaded**, however it gets there. -/
theorem loadText_not_panics (hregistry : e.registry = .builtin) (text file : String) :
    (e.loadText text file).answer ≠ .error .infiniteWeight :=
  process_not_panics (e := e.forgetful) hregistry _

theorem loadFile_not_panics (hregistry : e.registry = .builtin) (path : String) :
    (e.loadFile path).answer ≠ .error .infiniteWeight := by
  simp only [loadFile, remarking]
  rcases e.host.fileText (Path.normalize path) with _ | text
  · exact ok_ne_panic
  · have hload := loadText_not_panics hregistry text (Path.normalize path)
    rcases h : (e.loadText text (Path.normalize path)).answer with halt | l
    · intro hpanic
      obtain rfl : halt = .infiniteWeight := by simpa [h, Except.map] using hpanic
      exact hload h
    · intro hpanic
      simp [h, Except.map] at hpanic

/-- **With a placeholder for lists that cannot be weighed nothing panics.** -/
theorem mended_not_panics (e : Engine) (node : Node) :
    ((e.mended placeholder).resolve node).answer ≠ .error .infiniteWeight ∧
      ((e.mended placeholder).resolveToken node).answer ≠ .error .infiniteWeight := by
  let e' := e.mended placeholder
  have hfunctions : (e'.neverPanics true).RespectsAll e'.registry e'.registry :=
    (e'.neverPanics true).respects_builtinElse fun _ {_ _ _ _} hcall hlist =>
      (e'.neverPanics true).invalidArgument hcall hlist .weightless
  have hfits := fits e' e' hfunctions (.inl rfl) node.location.file
  have hnode : node.Kin (e'.neverPanics true).kin node := Node.kin_strict.mpr rfl
  have hctx : (e'.neverPanics true).kin.contexts node.origin.context node.origin.context := rfl
  constructor
  · intro hpanic
    have hreduce := (resolve_answer_error node _).mp hpanic
    exact not_panics ((e'.neverPanics true).reduce hfits hnode hctx) e'.state hreduce
  · have hrec : (e'.neverPanics true).Recursors (Reduce.inContext e'.limit)
        (Reduce.inContext e'.limit) := (e'.neverPanics true).inContext (.inl rfl)
    exact not_panics (Simulation.placeholders hrec hfits hctx hnode) e'.state

/-! ### When consumption panics -/

/-- An operation panics exactly if it overweighs, given that a run that does not panic is the
same whatever is done about infinite weights, and that there is something that can be done. -/
theorem overweighs_iff {α : Type} (operation : Engine → Except Halt α)
    (hsame : operation e ≠ .error .infiniteWeight →
      ∀ otherwise, operation (e.mended otherwise) = operation e)
    (hmended : operation (e.mended placeholder) ≠ .error .infiniteWeight) :
    operation e = .error .infiniteWeight ↔ e.Overweighs operation := by
  constructor
  · intro hpanic
    exact ⟨placeholder, hpanic ▸ hmended⟩
  · rintro ⟨otherwise, hdiffers⟩
    by_contra hpanic
    exact hdiffers (hsame hpanic otherwise)

/-- **Nothing panics but an overweighing consumption.** Loading and refreshing never do, in no
file; consuming a node does exactly if weights that add up to infinity are come upon; and an
index that is picked is in range. -/
theorem panics_iff_overweighs (e : Engine) (hregistry : e.registry = .builtin) :
    (∀ text file, (e.loadText text file).answer ≠ .error .infiniteWeight) ∧
      (∀ path, (e.loadFile path).answer ≠ .error .infiniteWeight) ∧
      (∀ l, (e.refresh l).answer ≠ .error .infiniteWeight) ∧
      (∀ node, (e.resolve node).answer = .error .infiniteWeight ↔
        e.Overweighs fun e => (e.resolve node).answer) ∧
      (∀ node, (e.resolveToken node).answer = .error .infiniteWeight ↔
        e.Overweighs fun e => (e.resolveToken node).answer) ∧
      (∀ n limit g i g', 0 < n → uniformIndex n limit g = some (i, g') → i < n) ∧
      ∀ x xs v, (Weighted.ofWeights x xs).index v < (x :: xs).length := by
  refine ⟨loadText_not_panics hregistry, loadFile_not_panics hregistry,
    process_not_panics hregistry, ?_, ?_, fun n limit g i g' => uniformIndex_lt,
    Weighted.index_lt⟩
  · intro node
    refine overweighs_iff (fun e => (e.resolve node).answer) ?_ (mended_not_panics e node).1
    exact fun h otherwise => (resolve_unless_panics hregistry otherwise node h).1
  · intro node
    refine overweighs_iff (fun e => (e.resolveToken node).answer) ?_ (mended_not_panics e node).2
    exact fun h otherwise => (resolveToken_unless_panics hregistry otherwise node h).1

/-- A list whose weights add up to less, which is consumed without a panic: nothing can be made
different there. -/
theorem panics_iff_overweighs_small :
    let e := Engine.start .standard (Host.plain (fun _ => none) fun _ => none) 0
    let text := "ChooseWeighted([{Weight: 1e300; V: a}; {Weight: 1e300; V: b}])"
    ∃ l, (e.loadText text "main.txt").answer = .ok l ∧ l.root.calls ≠ [] ∧
      ¬ e.Overweighs fun e => (e.resolve l.root).answer := by
  intro e text
  have hrun : ((e.loadText text "main.txt").answer.toOption.any fun l =>
      decide (l.root.calls ≠ []) && !panics (e.resolve l.root).answer) = true := by
    decide +kernel
  obtain ⟨l, hload, hrun⟩ := (Option.any_eq_true _ _).mp hrun
  obtain ⟨hcalls, hanswer⟩ := Bool.and_eq_true_iff.mp hrun
  refine ⟨l, Walk.toOption_eq_some.mp hload, of_decide_eq_true hcalls, fun hover => ?_⟩
  obtain ⟨-, -, -, hresolve, -⟩ := panics_iff_overweighs e rfl
  have hpanic := panics_iff.mpr ((hresolve l.root).mpr hover)
  simp [hpanic] at hanswer

/-- Two weights, each of them finite, add up to infinity, and the file that was loaded panics
while it is consumed. -/
theorem finite_weights_panic :
    let e := Engine.start .standard (Host.plain (fun _ => none) fun _ => none) 0
    let text := "ChooseWeighted([{Weight: 1e308; V: a}; {Weight: 1e308; V: b}])"
    ∃ l n, (e.loadText text "main.txt").answer = .ok l ∧ l.diagnostics = [] ∧
      l.root.items? = some [n] ∧ (e.resolve n).answer = .error .infiniteWeight := by
  intro e text
  have hrun : ((e.loadText text "main.txt").answer.toOption.any fun l =>
      decide (l.diagnostics = []) && l.root.items?.any fun items =>
        decide (items.length = 1) && items.all fun n => panics (e.resolve n).answer) = true := by
    decide +kernel
  obtain ⟨l, hload, hrun⟩ := (Option.any_eq_true _ _).mp hrun
  obtain ⟨hsilent, hrun⟩ := Bool.and_eq_true_iff.mp hrun
  obtain ⟨items, hitems, hrun⟩ := (Option.any_eq_true _ _).mp hrun
  obtain ⟨hone, hpanic⟩ := Bool.and_eq_true_iff.mp hrun
  obtain ⟨n, rfl⟩ := List.length_eq_one_iff.mp (of_decide_eq_true hone)
  have hpanic : panics (e.resolve n).answer = true := by simpa using hpanic
  exact ⟨l, n, Walk.toOption_eq_some.mp hload, of_decide_eq_true hsilent, hitems,
    panics_iff.mp hpanic⟩

end Engine

end ContentLang
