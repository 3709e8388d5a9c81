import ContentLang.Proofs.Meaning.Laws
import ContentLang.Proofs.Walk.Meets

/-!
# Functions have their meanings

A function is given parameters that are reduced already, and reduces them once more to look at
them. If an evaluator **keeps** the parameters (`ContentLang.Evaluator.Keeps`), in that reducing
them again gives a node that is alike, what the function gives is its meaning
(`ContentLang.Function.Means`), up to where things stand. In addition:

* generator and memory stay as they are;
* if a parameter has to be waited for, nothing but remarks is left: nothing is reported, and
  nothing is asked of the host;
* the function comes to an answer if the evaluator's reductions do.

`ContentLang.Reads` is this judgment for the ways to read parameters.
-/

namespace ContentLang

open Walk

/-! ### What an evaluator keeps -/

/-- The outcomes that are a node alike to the given one. -/
def Reduce.Says (n : Node) (o : Outcome) : Prop := ∃ m, o = .value m ∧ Alike n m

/-- **Whether an evaluator leaves nodes as they are**, those of which `N` holds; `ends` is the
condition on which it comes to an answer. -/
structure Evaluator.Keeps (ev : Evaluator) (ends : Prop) (N : Node → Prop) : Prop where
  reduce : ∀ {n : Node} (ctx : Context), N n → Still ends (Reduce.Says n) (ev.reduce n ctx)
  items : ∀ {is : List Node} {o : Origin}, N (.array is o) → ∀ i ∈ is, N i
  alike : ∀ {m n : Node}, Alike m n → N m → N n
  depth : ∀ {n : Node}, N n → ends → n.depth ≤ ev.limit

/-- The world that an evaluator works beside. -/
def Evaluator.world (ev : Evaluator) : World := ⟨ev.host, ev.settings⟩

/-- **Whether a function has a meaning.** -/
def Function.Means {α : Type} (f : Function) (m : Meaning α) : Prop :=
  ∀ {ev : Evaluator} {ends : Prop} {N : Node → Prop}, ev.Keeps ends N →
    ∀ (call : Call) (ctx : Context), (∀ p ∈ call.params, N p) →
      (m.read ev.isKnown call.params ≠ .error .waits → ∀ e ∈ ctx, N e.2) →
        Meets (.quietIf (m.read ev.isKnown call.params = .error .waits)) ends
          (Alike (m.outcome ev.isKnown ev.world call ctx)) (f.reduce ev call ctx)

/-! ### Readings -/

/-- Whether an answer is the given reading. -/
def Answers {α : Type} [Bare α] : Reading α → Except Outcome α → Prop
  | .ok a, .ok b => Alike a b
  | .error .waits, .error .pending => True
  | .error .wrong, .error o => ∃ origin, o = .error origin
  | _, _ => False

/-- **Whether a walk comes to a reading**, and leaves nothing but remarks unless something is
wrong. -/
def Reads {α : Type} [Bare α] (ends : Prop) (r : Reading α) (w : Walk (Except Outcome α)) : Prop :=
  Meets (.quietIf (r ≠ .error .wrong)) ends (Answers r) w

section

variable {α β : Type} [Bare α] [Bare β] {ends : Prop} {r : Reading α}
  {w : Walk (Except Outcome α)}

theorem reads_ok {a b : α} (h : Alike a b) : Reads ends (.ok a) (pure (.ok b)) := meets_pure h

theorem reads_waits : Reads ends (.error .waits : Reading α) (pure (.error .pending)) :=
  meets_pure trivial

/-- What gives the placeholder, whatever it reports. -/
abbrev Faults (ends : Prop) (w : Walk Outcome) : Prop :=
  Meets (.quietIf False) ends (fun o => ∃ origin, o = Outcome.error origin) w

theorem faults_report (origin : Origin) (problem : Problem) (o : Origin) :
    Faults ends (Walk.report origin problem >>= fun _ => pure (Outcome.error o)) :=
  meets_bind (meets_leave fun _ _ h => h.elim) fun _ _ => meets_pure ⟨o, rfl⟩

theorem reads_wrong {w : Walk Outcome} (h : Faults ends w) :
    Reads ends (.error .wrong : Reading α) (w >>= fun o => pure (.error o)) :=
  meets_map (h.mono (Terms.quietIf_covers_quietIf fun h => h rfl) id fun _ h => h) fun _ h => h

/-- **A reading after another one.** -/
theorem reads_also {g : α → Reading β} {f : α → Walk (Except Outcome β)} (h : Reads ends r w)
    (hf : ∀ a b, r = .ok a → Alike a b → Reads ends (g a) (f b)) :
    Reads ends (r >>= g) (w.also f) := by
  cases r with
  | ok a =>
    refine meets_bind (h.mono (Terms.quietIf_covers_quietIf fun _ h => nomatch h) id fun _ h => h)
      fun x hx => ?_
    cases x with
    | ok b => exact hf a b rfl hx
    | error o => exact hx.elim
  | error e =>
    -- What is stuck on the first reading is stuck on both, and in the same way.
    show Reads ends (.error e : Reading β) _
    have hquiet : Meets (.quietIf ((.error e : Reading β) ≠ .error .wrong)) ends
        (Answers (.error e : Reading α)) w :=
      h.mono (Terms.quietIf_covers_quietIf fun h => by simpa using h) id fun _ h => h
    refine meets_bind hquiet fun x hx => ?_
    cases x with
    | ok b => cases e <;> exact hx.elim
    | error o =>
      refine meets_pure ?_
      cases e <;> cases o <;> exact hx

omit [Bare β] in
/-- What a function gives after a reading, on which another one follows. -/
theorem meets_given_bind {g : α → Reading β} {give : β → Outcome} {f : α → Walk Outcome}
    {o : Origin} (h : Reads ends r w)
    (hf : ∀ a b, r = .ok a → Alike a b →
      Meets (.quietIf (g a = .error .waits)) ends (Alike ((g a).outcome o give)) (f b)) :
    Meets (.quietIf ((r >>= g) = .error .waits)) ends (Alike ((r >>= g).outcome o give))
      (w.given f) := by
  cases r with
  | ok a =>
    refine meets_bind (h.mono (Terms.quietIf_covers_quietIf fun _ h => nomatch h) id fun _ h => h)
      fun x hx => ?_
    cases x with
    | ok b => exact hf a b rfl hx
    | error o => exact hx.elim
  | error e =>
    show Meets (.quietIf ((.error e : Reading β) = .error .waits)) ends
      (Alike (Reading.outcome o (.error e : Reading β) give)) _
    have hquiet : Meets (.quietIf ((.error e : Reading β) = .error .waits)) ends
        (Answers (.error e : Reading α)) w :=
      h.mono (Terms.quietIf_covers_quietIf fun h => by
        rw [Except.error.inj h]
        exact fun h => nomatch h) id fun _ h => h
    refine meets_bind hquiet fun x hx => ?_
    cases x with
    | ok b => cases e <;> exact hx.elim
    | error o' =>
      refine meets_pure ?_
      cases e with
      | waits =>
        cases o' with
        | pending => rfl
        | _ => exact hx.elim
      | wrong =>
        obtain ⟨origin, rfl⟩ := hx
        rfl

/-- What a function gives after a reading. -/
theorem meets_given {give : α → Outcome} {f : α → Walk Outcome} {o : Origin} (h : Reads ends r w)
    (hf : ∀ a b, r = .ok a → Alike a b →
      Meets (.quietIf False) ends (Alike (give a)) (f b)) :
    Meets (.quietIf (r = .error .waits)) ends (Alike (r.outcome o give)) (w.given f) := by
  rw [← bind_pure r]
  exact meets_given_bind h fun a b hr hab =>
    (hf a b hr hab).mono (Terms.quietIf_covers_quietIf (nomatch ·)) id fun _ h => h

omit [Bare α] in
/-- What a function gives for a wrong parameter. -/
theorem meets_fault {give : α → Outcome} {f : Walk Outcome} {o : Origin} (hr : r = .error .wrong)
    (h : Faults ends f) :
    Meets (.quietIf (r = .error .waits)) ends (Alike (r.outcome o give)) f := by
  subst hr
  refine h.mono (Terms.quietIf_covers_quietIf (nomatch ·)) id fun x hx => ?_
  obtain ⟨origin, rfl⟩ := hx
  rfl

end

namespace Evaluator

variable {ev : Evaluator} {ends : Prop} {N : Node → Prop} (hev : ev.Keeps ends N)

/-! ### Tokens -/

theorem faults_wrongArity (call : Call) (expected : Arity) :
    Faults ends (wrongArity call expected) := faults_report call.origin _ call.origin

theorem faults_invalidArgument (call : Call) (node : Node) (fault : Fault) :
    Faults ends (invalidArgument call node fault) := faults_report node.origin _ call.origin

theorem reads_expectedValue (node : Node) (found : Kind) :
    Reads ends (.error .wrong : Reading Token) (expectedValue node found) :=
  reads_wrong (faults_report node.origin _ node.origin)

theorem isDeferred_of_alike {n m : Node} (h : Alike n m) :
    ev.isDeferred m = n.isDeferred ev.isKnown := by
  have hfunction : m.function? = n.function? := by
    rw [← Node.function?_bare, ← h, Node.function?_bare]
  rw [isDeferred, Node.isDeferred, hfunction]
  cases n.function? <;> rfl

/-- What is done with a node that is no collection. -/
theorem reads_noCollection {α : Type} [Bare α] (call : Call) (param : Node) (fault : Fault)
    {n m : Node} (hm : Alike n m) :
    Reads ends (.error (n.stuck ev.isKnown) : Reading α)
      (if ev.isDeferred m then return .error .pending
      else return .error (← invalidArgument call param fault)) := by
  rw [Node.stuck, isDeferred_of_alike hm]
  split
  · exact reads_waits
  · exact reads_wrong (faults_invalidArgument call param fault)

/-- What is done with a call that is left where a token should be. -/
theorem reads_leftCall (name : String) (node : Node) :
    Reads ends (.error (if ev.isKnown name then .waits else .wrong) : Reading Token)
      (if ev.isKnown name then return .error .pending
      else do
        Walk.report node.origin (.unknownFunction name (closestName name ev.knownNames))
        return .error (.error node.origin)) := by
  split
  · exact reads_waits
  · exact reads_wrong (faults_report node.origin _ node.origin)

include hev

/-- **What a kept node is required to be** is the token that it is. -/
theorem reads_requireToken {n : Node} (ctx : Context) (hn : N n) :
    Reads ends (tokenOf ev.isKnown n) (ev.requireToken n ctx) := by
  have hreduce := (hev.reduce ctx hn).mono
    (Terms.still_covers_quietIf (tokenOf ev.isKnown n ≠ .error .wrong)) id fun _ h => h
  refine meets_bind hreduce fun o ho => ?_
  obtain ⟨m, rfl, hm⟩ := ho
  cases n with
  | token t =>
    obtain ⟨t', rfl, ht⟩ := hm.token
    exact reads_ok ht
  | call f ps o =>
    obtain ⟨ps', o', rfl, -⟩ := hm.call
    exact reads_leftCall f _
  | statement f ps o data =>
    obtain ⟨ps', o', data', rfl, -⟩ := hm.statement
    exact reads_leftCall f _
  | block es o =>
    obtain ⟨es', o', rfl, -⟩ := hm.block
    exact reads_expectedValue _ _
  | array is o =>
    obtain ⟨is', o', rfl, -⟩ := hm.array
    exact reads_expectedValue _ _

theorem reads_requireTokens (ctx : Context) {ns : List Node} (hns : ∀ n ∈ ns, N n) :
    Reads ends (tokensOf ev.isKnown ns) (ev.requireTokens ctx ns) := by
  induction ns with
  | nil => exact reads_ok rfl
  | cons n ns ih =>
    obtain ⟨hn, hns⟩ := List.forall_mem_cons.mp hns
    rw [tokensOf, List.mapM_cons]
    refine reads_also (reads_requireToken hev ctx hn) fun t t' _ ht =>
      reads_also (ih hns) fun ts ts' _ hts => reads_ok ?_
    exact alike_cons_iff.mpr ⟨t', ts', rfl, ht, hts⟩

/-- The token that a kept node is, if it is one. -/
theorem still_token? {n : Node} (ctx : Context) (hn : N n) :
    Still ends (Alike n.token?) (ev.token? n ctx) := by
  refine meets_bind (hev.reduce ctx hn) fun o ho => ?_
  obtain ⟨m, rfl, hm⟩ := ho
  cases n with
  | token t =>
    obtain ⟨t', rfl, ht⟩ := hm.token
    exact meets_pure (congrArg some ht)
  | call f ps o =>
    obtain ⟨ps', o', rfl, -⟩ := hm.call
    exact meets_pure rfl
  | statement f ps o data =>
    obtain ⟨ps', o', data', rfl, -⟩ := hm.statement
    exact meets_pure rfl
  | block es o =>
    obtain ⟨es', o', rfl, -⟩ := hm.block
    exact meets_pure rfl
  | array is o =>
    obtain ⟨is', o', rfl, -⟩ := hm.array
    exact meets_pure rfl

/-- A kept node gives a node alike to it. -/
theorem still_value {n m : Node} (ctx : Context) (hnm : Alike n m) (hm : N m) :
    Still ends (Alike (.value n)) (ev.reduce m ctx) :=
  (hev.reduce ctx hm).imp fun _ ⟨k, ho, hk⟩ =>
    Outcome.alike_value_iff.mpr ⟨k, ho, hnm.trans hk⟩

end Evaluator

namespace Library

variable {ev : Evaluator} {ends : Prop} {N : Node → Prop}

/-- A function that takes a first parameter and others. -/
theorem means_withFirst {α : Type} [Bare α] {call : Call} {expected : Arity}
    {f : Node → List Node → Walk Outcome} {r : Reading α} {o : Origin} {give : α → Outcome}
    (hwrong : expected.accepts call.params.length = false ∨ call.params = [] →
      r = .error .wrong)
    (hf : ∀ first others, call.params = first :: others →
      expected.accepts call.params.length = true →
      Meets (.quietIf (r = .error .waits)) ends (Alike (r.outcome o give)) (f first others)) :
    Meets (.quietIf (r = .error .waits)) ends (Alike (r.outcome o give))
      (Evaluator.withFirst call expected f) := by
  have hfault : r = .error .wrong → Meets (.quietIf (r = .error .waits)) ends
      (Alike (r.outcome o give)) (Evaluator.wrongArity call expected) :=
    fun hr => meets_fault hr (Evaluator.faults_wrongArity call expected)
  unfold Evaluator.withFirst
  split
  next first others hparams =>
    exact meets_ite (hf first others hparams) fun h => hfault (hwrong (.inl (by simpa using h)))
  next hparams => exact hfault (hwrong (.inr hparams))

/-! ### Assets and texts -/

theorem means_assetWith {f : Evaluator → String → Walk String} {text : World → String → String}
    (hf : ∀ {ends : Prop} ev path,
      Meets (.quietIf False) ends (· = text ev.world path) (f ev path)) :
    (assetWith f).Means (.assetWith text) := by
  intro ev ends N hev call ctx hps _
  refine means_withFirst (fun h => ?_) fun path others hparams hlength => ?_
  · match hparams : call.params with
    | [] => rfl
    | [path] => simp [hparams, Arity.accepts] at h
    | _ :: _ :: _ => rfl
  · obtain rfl : others = [] := by simpa [hparams, Arity.accepts] using hlength
    rw [hparams] at hps ⊢
    refine meets_given (Evaluator.reads_requireToken hev ctx (hps path (by simp)))
      fun t t' _ ht => meets_map (hf ev _) fun s hs => ?_
    rw [hs, ← ht.value]
    rfl

theorem means_assetName :
    assetName.Means (.assetWith fun w path => w.host.assetName path) :=
  means_assetWith fun _ _ _ _ => ⟨fun _ => rfl, fun _ _ h => h.elim, fun _ => ⟨_, rfl⟩,
    fun _ h => (Except.ok.inj h).symm⟩

theorem means_assetFile :
    assetFile.Means (.assetWith fun w path => Path.compose w.settings.contentRoot path) :=
  means_assetWith fun _ _ => meets_pure rfl

theorem values_eq {ts ts' : List Token} (h : Alike ts ts') :
    ts.map (·.value) = ts'.map (·.value) := by
  simpa [bare_list, bare_key, Function.comp_def] using congrArg (List.map TokenOf.value) h

theorem means_concatenate : concatenate.Means .concatenate := by
  intro ev ends N hev call ctx hps _
  refine meets_given (Evaluator.reads_requireTokens hev ctx hps) fun ts ts' _ hts => meets_pure ?_
  rw [← values_eq hts]
  rfl

theorem reads_collectAll {f : Node → Walk (Except Outcome (List String))} {ns : List Node}
    (h : ∀ n ∈ ns, Reads ends (textsOf ev.isKnown n) (f n)) :
    Reads ends (textsOfAll ev.isKnown ns) (collectAll f ns) := by
  induction ns with
  | nil => exact reads_ok rfl
  | cons n ns ih =>
    obtain ⟨hn, hns⟩ := List.forall_mem_cons.mp h
    exact reads_also hn fun xs xs' _ hxs => reads_also (ih hns) fun ys ys' _ hys =>
      reads_ok (hxs.append hys)

/-- **The texts collected from a kept node** are its texts, as deep as the node is. -/
theorem reads_collect (hev : ev.Keeps ends N) (ctx : Context) (fuel : Nat) {n : Node} (hn : N n)
    (hdepth : ends → n.depth ≤ fuel) :
    Reads ends (textsOf ev.isKnown n) (collect ev ctx fuel n) := by
  induction fuel generalizing n with
  | zero => exact meets_halt _ fun h => absurd (n.depth_pos) (by simpa using hdepth h)
  | succ fuel ih =>
    have hreduce : ∀ q, Meets (.quietIf q) ends (Reduce.Says n) (ev.reduce n ctx) := fun q =>
      (hev.reduce ctx hn).mono (Terms.still_covers_quietIf q) id fun _ h => h
    have htoken := Evaluator.reads_requireToken hev ctx hn
    cases n with
    | array is o =>
      exact reads_collectAll fun i hi => ih (hev.items hn i hi) fun h =>
        Node.depth_array_le.mp (hdepth h) i hi
    | token t =>
      refine meets_bind (hreduce _) fun o ho => ?_
      obtain ⟨m, rfl, hm⟩ := ho
      obtain ⟨t', rfl, ht⟩ := hm.token
      refine reads_ok ?_
      rw [ht.isNull, ht.value]
      exact .refl _
    -- Anything else has no texts, and being required to be a token is stuck.
    | call f ps o =>
      refine meets_bind (hreduce _) fun o ho => ?_
      obtain ⟨m, rfl, hm⟩ := ho
      obtain ⟨ps', o', rfl, -⟩ := hm.call
      exact reads_also (g := fun t => pure [t.value]) htoken fun t t' h => nomatch h
    | statement f ps o data =>
      refine meets_bind (hreduce _) fun o ho => ?_
      obtain ⟨m, rfl, hm⟩ := ho
      obtain ⟨ps', o', data', rfl, -⟩ := hm.statement
      exact reads_also (g := fun t => pure [t.value]) htoken fun t t' h => nomatch h
    | block es o =>
      refine meets_bind (hreduce _) fun o ho => ?_
      obtain ⟨m, rfl, hm⟩ := ho
      obtain ⟨es', o', rfl, -⟩ := hm.block
      exact reads_also (g := fun t => pure [t.value]) htoken fun t t' h => nomatch h

theorem means_join : join.Means .join := by
  intro ev ends N hev call ctx hps _
  refine means_withFirst (fun h => ?_) fun separator items hparams _ => ?_
  · match hparams : call.params with
    | [] => rfl
    | _ :: _ => simp [hparams, Arity.accepts] at h
  · rw [hparams] at hps ⊢
    obtain ⟨hs, hitems⟩ := List.forall_mem_cons.mp hps
    refine meets_given_bind (Evaluator.reads_requireToken hev ctx hs) fun t t' _ ht => ?_
    have htexts : Reads ends (textsOfAll ev.isKnown items)
        (collectAll (collect ev ctx ev.limit) items) :=
      reads_collectAll fun i hi => reads_collect hev ctx _ (hitems i hi) (hev.depth (hitems i hi))
    refine meets_given_bind htexts fun xs xs' _ hxs => meets_pure ?_
    rw [← ht.value, ← bare_strings xs', ← hxs, bare_strings]
    rfl

/-! ### Collections -/

theorem still_mergeEntries (location : Location) (function : String) (m es : Entries Token Node) :
    Still ends (· = Entries.overlay m es) (mergeEntries location function m es) := by
  induction es generalizing m with
  | nil => exact meets_pure rfl
  | cons e es ih =>
    obtain ⟨k, n⟩ := e
    refine meets_ite (fun _ => ?_) fun _ => ih _
    exact meets_bind (meets_remarkAt (.refl _) _ _ _) fun _ _ => ih _

theorem reads_mergeEntries (location : Location) (function : String)
    {m m' es es' : Entries Token Node} (hm : Alike m m') (hes : Alike es es') :
    Reads ends (.ok (Combined.entries (Entries.overlay m es)))
      (mergeEntries location function m' es' >>= fun es =>
        pure (.ok (Combined.entries es))) := by
  refine meets_map ((still_mergeEntries location function m' es').mono
    (Terms.still_covers_quietIf _) id fun _ h => h) fun fs hfs => ?_
  rw [hfs]
  simp only [Answers, Alike, bare_entries, bare_overlay] at hm hes ⊢
  rw [hm, hes]

/-- **A parameter is combined with the others** as it is. -/
theorem reads_combineNode (call : Call) (param : Node) {acc acc' : Combined} {n m : Node}
    (hacc : Alike acc acc') (hm : Alike n m) (hnull : n.isNull = false) :
    Reads ends (combineWith ev.isKnown acc n) (combineNode ev call param acc' m) := by
  have hfault : ∀ fault, Reads ends (.error .wrong : Reading Combined)
      (Evaluator.invalidArgument call param fault >>= fun o => pure (.error o)) :=
    fun fault => reads_wrong (Evaluator.faults_invalidArgument call param fault)
  unfold combineWith
  simp only [hnull, Bool.false_eq_true, if_false]
  cases n with
  | token t =>
    obtain ⟨t', rfl, -⟩ := hm.token
    cases acc <;> cases acc' <;> exact hfault _
  | call f ps o =>
    obtain ⟨ps', o', rfl, -⟩ := hm.call
    cases acc <;> cases acc' <;> exact Evaluator.reads_noCollection call param _ hm
  | statement f ps o data =>
    obtain ⟨ps', o', data', rfl, -⟩ := hm.statement
    cases acc <;> cases acc' <;> exact Evaluator.reads_noCollection call param _ hm
  | block es o =>
    obtain ⟨es', o', rfl, hes⟩ := hm.block
    cases acc with
    | nothing =>
      cases acc' with
      | nothing => exact reads_mergeEntries _ _ (.refl []) hes
      | _ => simp [Alike] at hacc
    | items js =>
      cases acc' with
      | items js' => exact hfault _
      | _ => simp [Alike] at hacc
    | entries fs =>
      cases acc' with
      | entries fs' => exact reads_mergeEntries _ _ (by simpa [Alike] using hacc) hes
      | _ => simp [Alike] at hacc
  | array is o =>
    obtain ⟨is', o', rfl, his⟩ := hm.array
    cases acc with
    | nothing =>
      cases acc' with
      | nothing => exact reads_ok (by simpa [Alike] using his)
      | _ => simp [Alike] at hacc
    | items js =>
      cases acc' with
      | items js' =>
        have hjs : Alike js js' := by simpa [Alike] using hacc
        exact reads_ok (by simpa [Alike] using hjs.append his)
      | _ => simp [Alike] at hacc
    | entries fs =>
      cases acc' with
      | entries fs' => exact hfault _
      | _ => simp [Alike] at hacc

theorem reads_combineAll (hev : ev.Keeps ends N) (call : Call) (ctx : Context)
    {acc acc' : Combined} {ps : List Node} (hacc : Alike acc acc') (hps : ∀ p ∈ ps, N p) :
    Reads ends (ps.foldlM (combineWith ev.isKnown) acc) (combineAll ev call ctx acc' ps) := by
  induction ps generalizing acc acc' with
  | nil => exact reads_ok hacc
  | cons p ps ih =>
    obtain ⟨hp, hps⟩ := List.forall_mem_cons.mp hps
    refine meets_bind ((hev.reduce ctx hp).mono (Terms.still_covers_quietIf _) id fun _ h => h)
      fun o ho => ?_
    obtain ⟨m, rfl, hm⟩ := ho
    have hnull : m.isNull = p.isNull := by rw [← Node.isNull_bare, ← hm, Node.isNull_bare]
    dsimp only
    rw [hnull, List.foldlM_cons]
    split
    next h =>
      rw [combineWith_null _ h]
      exact ih hacc hps
    next h =>
      exact reads_also (reads_combineNode call p hacc hm (by simpa using h))
        fun acc acc' _ hacc => ih hacc hps

theorem means_combine : combine.Means .combine := by
  intro ev ends N hev call ctx hps _
  have hcombine := reads_combineAll hev call ctx (.refl Combined.nothing) hps
  refine meets_given hcombine fun acc acc' _ hacc => ?_
  cases acc with
  | nothing =>
    cases acc' with
    | nothing => exact meets_pure rfl
    | _ => simp [Alike] at hacc
  | items ns =>
    cases acc' with
    | items ns' => exact meets_pure (by simpa [Meaning.combine, Alike] using hacc)
    | _ => simp [Alike] at hacc
  | entries es =>
    cases acc' with
    | entries es' => exact meets_pure (by simpa [Meaning.combine, Alike] using hacc)
    | _ => simp [Alike] at hacc

/-- The elements that stay are those that are not one of the tokens. -/
theorem still_withoutElements (hev : ev.Keeps ends N) (ctx : Context) (removed : List Token)
    {ns : List Node} (hns : ∀ n ∈ ns, N n) :
    Still ends (· = ns.filter fun n => !n.token?.any removed.contains)
      (withoutElements ev ctx removed ns) := by
  induction ns with
  | nil => exact meets_pure rfl
  | cons n ns ih =>
    obtain ⟨hn, hns⟩ := List.forall_mem_cons.mp hns
    refine meets_bind (Evaluator.still_token? hev ctx hn) fun t ht =>
      meets_bind (ih hns) fun rest hrest => ?_
    subst hrest
    cases hn : n.token? with
    | none =>
      cases t with
      | none => exact meets_pure (by simp [hn])
      | some t' => simp [Alike, hn] at ht
    | some u =>
      obtain ⟨t, rfl, hut⟩ : ∃ t', t = some t' ∧ Alike u t' := by
        cases t with
        | none => simp [Alike, hn] at ht
        | some t' => exact ⟨t', rfl, by simpa [Alike, hn] using ht⟩
      refine meets_pure ?_
      rw [← contains_of_alike hut]
      cases hc : removed.contains u <;> simp [hn, hc]

theorem means_remove : remove.Means .remove := by
  intro ev ends N hev call ctx hps _
  refine means_withFirst (fun h => ?_) fun collection tokens hparams _ => ?_
  · match hparams : call.params with
    | [] => rfl
    | _ :: _ => simp [hparams, Arity.accepts] at h
  · rw [hparams] at hps ⊢
    obtain ⟨hc, htokens⟩ := List.forall_mem_cons.mp hps
    refine meets_given_bind (Evaluator.reads_requireTokens hev ctx htokens)
      fun ts ts' _ hts => ?_
    refine meets_bind ((hev.reduce ctx hc).mono (Terms.still_covers_quietIf _) id fun _ h => h)
      fun o ho => ?_
    obtain ⟨m, rfl, hm⟩ := ho
    have hwithout : Alike (collection.without ts) (m.without ts') := by
      rw [Alike, ← without_bare, ← without_bare, hm, hts]
    -- What is no collection is waited for, or wrong.
    have hother : Meets
        (.quietIf ((.error (collection.stuck ev.isKnown) : Reading (Node × List Token)) =
          .error .waits)) ends
        (Alike (Reading.outcome call.origin
          (.error (collection.stuck ev.isKnown) : Reading (Node × List Token))
          (Meaning.remove.give ev.world call.origin ctx)))
        (if ev.isDeferred m then return .pending
        else Evaluator.invalidArgument call collection (.notACollection m.kind)) := by
      rw [Node.stuck, Evaluator.isDeferred_of_alike hm]
      split
      · exact meets_pure rfl
      · exact meets_fault rfl (Evaluator.faults_invalidArgument call collection _)
    cases collection with
    | array is o =>
      obtain ⟨is', o', rfl, his⟩ := hm.array
      have hitems : ∀ i ∈ is', N i := hev.items (hev.alike hm hc)
      refine meets_map ((still_withoutElements hev ctx ts' hitems).mono
        (Terms.still_covers_quietIf _) id fun _ h => h) fun ns hns => ?_
      subst hns
      exact congrArg Outcome.value hwithout
    | block es o =>
      obtain ⟨es', o', rfl, hes⟩ := hm.block
      exact meets_pure (congrArg Outcome.value hwithout)
    | token t =>
      obtain ⟨t', rfl, ht⟩ := hm.token
      exact hother
    | call f ps o =>
      obtain ⟨ps', o', rfl, -⟩ := hm.call
      exact hother
    | statement f ps o data =>
      obtain ⟨ps', o', data', rfl, -⟩ := hm.statement
      exact hother

/-! ### Records -/

theorem reads_recordEntries (hev : ev.Keeps ends N) (call : Call) (ctx : Context)
    (component : Component) (fields : List (String × Option String)) {ps : List Node}
    (hps : ∀ p ∈ ps, N p) :
    Reads ends (fieldsOf ev.isKnown component fields ps)
      (recordEntries ev call ctx component fields ps) := by
  induction fields generalizing ps with
  | nil => exact reads_ok (.refl [])
  | cons field fields ih =>
    obtain ⟨key, fallback⟩ := field
    cases ps with
    | nil =>
      cases fallback with
      | none => exact meets_pure ⟨call.origin, rfl⟩
      | some fallback =>
        exact reads_also (ih hps) fun es es' _ hes =>
          reads_ok (alike_cons_iff.mpr ⟨_, es', rfl, rfl, hes⟩)
    | cons p ps =>
      obtain ⟨hp, hps⟩ := List.forall_mem_cons.mp hps
      refine reads_also (Evaluator.reads_requireToken hev ctx hp) fun t t' _ ht => ?_
      rw [← ht.value]
      cases component.fault? t.value with
      | some fault => exact reads_wrong (Evaluator.faults_invalidArgument call p fault)
      | none =>
        refine reads_also (ih hps) fun es es' _ hes => reads_ok ?_
        exact alike_cons_iff.mpr ⟨_, es', rfl, congrArg (Prod.mk _ <| Node.token ·) ht, hes⟩

theorem means_record (k : RecordKind) : (record k).Means (.record k) := by
  intro ev ends N hev call ctx hps _
  by_cases h : k.arity.accepts call.params.length = true
  · have hread : (Meaning.record k).read ev.isKnown call.params =
        fieldsOf ev.isKnown k.component k.fields call.params := if_pos h
    rw [Meaning.outcome, hread]
    show Meets _ ends _ (Evaluator.withArity call k.arity _)
    rw [Evaluator.withArity, if_pos h]
    exact meets_given (reads_recordEntries hev call ctx k.component k.fields hps)
      fun es es' _ hes => meets_pure (by simpa [Meaning.record, Alike] using hes)
  · have hread : (Meaning.record k).read ev.isKnown call.params = .error .wrong := if_neg h
    show Meets _ ends _ (Evaluator.withArity call k.arity _)
    rw [Evaluator.withArity, if_neg h]
    exact meets_fault hread (Evaluator.faults_wrongArity call k.arity)

/-! ### Bindings -/

theorem means_readBinding : readBinding.Means .readBinding := by
  intro ev ends N hev call ctx hps hctx
  refine means_withFirst (fun h => ?_) fun name others hparams hlength => ?_
  · match hparams : call.params with
    | [] => rfl
    | [_] => simp [hparams, Arity.accepts] at h
    | [_, _] => simp [hparams, Arity.accepts] at h
    | _ :: _ :: _ :: _ => rfl
  · have hothers : others.length ≤ 1 := by simpa [hparams, Arity.accepts] using hlength
    have hread : Meaning.readBinding.read ev.isKnown call.params =
        tokenOf ev.isKnown name >>= fun t => pure (t, others.head?) := by
      rw [hparams]
      exact if_pos hothers
    rw [hparams] at hps
    obtain ⟨hname, hrest⟩ := List.forall_mem_cons.mp hps
    rw [hread] at hctx ⊢
    refine meets_given_bind (Evaluator.reads_requireToken hev ctx hname) fun t t' ht htt' => ?_
    -- A name was read, so nothing is waited for.
    have hbound : ∀ e ∈ ctx, N e.2 := hctx (by rw [ht]; exact fun h => nomatch h)
    rw [← Context.get?_of_alike htt']
    show Meets _ ends (Alike (Meaning.readBinding.give ev.world call.origin ctx (t, others.head?)))
      _
    cases hvalue : Context.get? ctx t with
    | some value =>
      have hgive : Meaning.readBinding.give ev.world call.origin ctx (t, others.head?) =
          .value value := by simp [Meaning.readBinding, hvalue]
      obtain ⟨e, he, rfl⟩ := Context.mem_of_get? hvalue
      have hmark := Node.alike_markUid (call.origin.uid ++ ">") e.2
      rw [hgive]
      exact (Evaluator.still_value hev ctx hmark (hev.alike hmark (hbound e he))).mono
        (Terms.still_covers_quietIf _) id fun _ h => h
    | none =>
      cases others with
      | nil =>
        have hgive : Meaning.readBinding.give ev.world call.origin ctx (t, none) =
            .content (unboundText t.value) call.origin := by simp [Meaning.readBinding, hvalue]
        refine meets_bind (meets_leave fun _ _ h => nomatch h) fun _ _ => meets_pure ?_
        rw [List.head?_nil, hgive, htt'.value]
        exact .refl _
      | cons fallback others =>
        have hgive : Meaning.readBinding.give ev.world call.origin ctx
            (t, (fallback :: others).head?) = .value fallback := by
          simp [Meaning.readBinding, hvalue]
        rw [hgive]
        exact (Evaluator.still_value hev ctx (.refl fallback) (hrest fallback (by simp))).mono
          (Terms.still_covers_quietIf _) id fun _ h => h

end Library

/-! ### All functions -/

/-- Whether a function has a meaning that keeps the laws. -/
def Function.Meaningful (f : Function) : Prop :=
  ∃ (α : Type) (m : Meaning α), m.Lawful ∧ f.Means m

/-- **The functions of the language have meanings**, but for the late ones. -/
theorem Function.meaningful_builtin :
    ∀ e ∈ Registry.builtin, e.2.late = true ∨ e.2.Meaningful := by
  have hrecord : ∀ k, (Library.record k).Meaningful := fun k =>
    ⟨_, .record k, Meaning.lawful_record k, Library.means_record k⟩
  simp only [Registry.builtin, List.forall_mem_cons]
  refine ⟨.inr ⟨_, _, Meaning.lawful_assetWith _, Library.means_assetName⟩,
    .inr ⟨_, _, Meaning.lawful_assetWith _, Library.means_assetFile⟩,
    .inr ⟨_, _, Meaning.lawful_concatenate, Library.means_concatenate⟩,
    .inr ⟨_, _, Meaning.lawful_join, Library.means_join⟩, .inl rfl, .inl rfl, .inl rfl,
    .inr ⟨_, _, Meaning.lawful_combine, Library.means_combine⟩,
    .inr ⟨_, _, Meaning.lawful_remove, Library.means_remove⟩, .inr (hrecord _),
    .inr (hrecord _), .inr (hrecord _), .inr (hrecord _),
    .inr ⟨_, _, Meaning.lawful_readBinding, Library.means_readBinding⟩, by simp⟩

end ContentLang
