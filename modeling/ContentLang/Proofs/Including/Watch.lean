import ContentLang.Proofs.Including.Functions
import ContentLang.Proofs.Grammar.Reports
import ContentLang.Proofs.Walk.Parts
import ContentLang.Proofs.Walk.Reduction

/-!
# Watching the includes of a walk

A **watch** (`ContentLang.Watch`) tells which files may be included, which files may be processed
one within another, and which notes may be left then, so that a file that may be included is in
order whatever becomes of it: it is asked for and read, or refused. A walk that starts among such
files abides by the watch (`ContentLang.Watch.abides_inContext`): the notes that it leaves within
the files being processed are those that may be left there.

Which file an include leads to may be seen in the tree, or only when the include is carried out. A
watch that has to know it beforehand asks for the path to be **written out**
(`ContentLang.Call.Leads`). It has to be so wherever an include may come from, which is the reason
why nodes are followed through the walk: the tree, the files that are read, and the values that are
bound. While content is consumed, nodes come with bindings of their own, and nothing is known of
these; so paths are written out while loading only.
-/

namespace ContentLang

open Reduce Walk

/-- Whether the path of an include is written out, and leads to one of the files given. -/
def Call.Leads (targets : String → Prop) (c : Call) : Prop :=
  ∃ t others, c.params = .token t :: others ∧
    targets (Path.resolve c.origin.location.file t.value)

instance (targets : String → Prop) [DecidablePred targets] :
    ∀ c : Call, Decidable (c.Leads targets)
  | ⟨_, .token t :: others, o⟩ =>
    decidable_of_iff (targets (Path.resolve o.location.file t.value))
      ⟨fun h => ⟨t, others, rfl, h⟩, fun ⟨_, _, hparams, h⟩ => by cases hparams; exact h⟩
  | ⟨_, [], _⟩ | ⟨_, .call .. :: _, _⟩ | ⟨_, .statement .. :: _, _⟩ | ⟨_, .block .. :: _, _⟩
  | ⟨_, .array .. :: _, _⟩ => .isFalse fun ⟨_, _, hparams, _⟩ => nomatch hparams

/-- **What is watched of includes**, beside a host and under settings. -/
structure Watch where
  host : Host
  settings : Settings
  /-- Whether the paths of includes have to be written out. -/
  written : Prop
  /-- The files that may be included. -/
  targets : String → Prop
  /-- The files that may be processed one within another, outermost first. -/
  nestings : List String → Prop
  /-- The notes that may be left within files. -/
  leaves : List String → Note → Prop
  ordinary : ∀ {files note}, note.isOrdinary = true → leaves files note
  within : ∀ {files file note}, leaves (files ++ [file]) note → leaves files note
  resolved : ¬ written → ∀ file path, targets (Path.resolve file path)
  opens : ∀ {files file}, nestings files → targets file → file ∉ files →
    files.length ≤ settings.maxIncludeDepth → nestings (files ++ [file])
  asks : ∀ {files file}, nestings files → targets file → file ∉ files →
    leaves files (.asked (.file file))
  reads : ∀ {file text}, targets file → host.fileText file = some text →
    ∀ n ∈ (parseText text file settings.uniqueId).1, ∀ c ∈ n.calls, c.function = includeName →
      written → c.Leads targets
  refuses : ∀ {files file d}, nestings files → targets file → file ∉ files →
    settings.maxIncludeDepth < files.length → leaves files (.report d)

/-- Calls that are alike lead to the same files. -/
theorem Alike.leads {targets : String → Prop} {c d : Call} (h : Alike c d) (hc : c.Leads targets) :
    d.Leads targets := by
  obtain ⟨f, ps, o⟩ := c
  obtain ⟨g, qs, o'⟩ := d
  rw [Alike, bare_mkCall, bare_mkCall] at h
  obtain ⟨-, hparams, horigin⟩ := Call.mk.inj h
  obtain ⟨t, others, rfl, htarget⟩ := hc
  obtain ⟨q, qs, rfl, hq, -⟩ := alike_cons_iff.mp hparams
  obtain ⟨u, rfl, hvalue⟩ := Alike.token hq
  have hfile : o.location.file = o'.location.file := congrArg (·.location.file) horigin
  exact ⟨u, qs, rfl, hfile ▸ hvalue.value ▸ htarget⟩

namespace Watch

variable (W : Watch)

/-- Whether the includes in a node lead to files that may be included, if that has to be seen. -/
def Fair (n : Node) : Prop :=
  ∀ c ∈ n.calls, c.function = includeName → W.written → c.Leads W.targets

variable {W}

theorem fair_of_open (h : ¬ W.written) (n : Node) : W.Fair n := fun _ _ _ hw => absurd hw h

theorem fair_call {f : String} {ps : List Node} {o : Origin} :
    W.Fair (.call f ps o) ↔
      (f = includeName → W.written → Call.Leads W.targets ⟨f, ps, o⟩) ∧ ∀ p ∈ ps, W.Fair p := by
  simp only [Fair, Node.calls, List.forall_mem_cons, Node.mem_callsOfAll]
  refine and_congr_right fun _ => ?_
  exact ⟨fun h p hp c hc => h c ⟨p, hp, hc⟩, fun h c ⟨p, hp, hc⟩ => h p hp c hc⟩

theorem fair_statement {f : String} {ps : List Node} {o : Origin} {data : Node} :
    W.Fair (.statement f ps o data) ↔ W.Fair (.call f ps o) ∧ W.Fair data := by
  simp only [Fair, Node.calls, List.forall_mem_cons, List.forall_mem_append, and_assoc]

theorem fair_closed : Node.Closed W.Fair where
  token t := by simp [Fair, Node.calls]
  array {is o} := by
    simp only [Fair, Node.calls, Node.mem_callsOfAll]
    exact ⟨fun h i hi c hc => h c ⟨i, hi, hc⟩, fun h c ⟨i, hi, hc⟩ => h i hi c hc⟩
  block {es o} := by
    simp only [Fair, Node.calls, Node.mem_callsOfEntries]
    exact ⟨fun h e he c hc => h c ⟨e, he, hc⟩, fun h c ⟨e, he, hc⟩ => h e he c hc⟩

theorem fair_alike {m n : Node} (h : Alike m n) (hm : W.Fair m) : W.Fair n := by
  have hcalls : Alike m.calls n.calls := by
    rw [Alike, ← Node.calls_bare, h, Node.calls_bare]
  refine hcalls.forall_mem fun c hc d hcd hinclude hwritten => ?_
  have hname : (bare c).function = (bare d).function := congrArg Call.function hcd
  exact hcd.leads (hm c hc (hname.trans hinclude) hwritten)

theorem fair_withContext {n : Node} (hn : W.Fair n) (ctx : Context) :
    W.Fair (n.withContext ctx) := by
  refine fair_alike ?_ hn
  cases n with
  | token t => simp [Alike, Node.withContext, Node.withOrigin, bare_key]
  | _ => simp [Alike, Node.withContext, Node.withOrigin, Node.origin]

/-- A watch is a condition that functions may be asked to abide by. -/
theorem bylaws (files : List String) : Bylaws (W.leaves files) W.Fair :=
  ⟨fun _ => W.ordinary, fair_closed, fair_alike⟩

/-- **Whether surroundings are those of a watch**: its host and settings, files that it allows, and
functions that abide by it. -/
structure Fits (W : Watch) (env : Surroundings) : Prop where
  host : env.host = W.host
  settings : env.settings = W.settings
  nestings : W.nestings env.files
  loading : W.written → env.late = false
  functions : ∀ e ∈ env.registry, ∀ files, e.2.Abiding (W.leaves files) W.Fair

/-- Whether a walk abides by what is watched within files. -/
abbrev Keeps {α : Type} (W : Watch) (env : Surroundings) (Q : α → Prop) (m : Walk α) : Prop :=
  Abides (W.leaves env.files) Q m

/-- **Whether a way to reduce nodes abides by a watch.** Tokens stay what they are. -/
structure Minds (W : Watch) (rec : Reducer) : Prop where
  node : ∀ {env : Surroundings}, W.Fits env → ∀ {n : Node} {ctx : Context}, W.Fair n →
    ctx.All W.Fair → W.Keeps env (Outcome.All W.Fair) (rec env n ctx)
  token : ∀ {env : Surroundings}, W.Fits env → ∀ (t : Token) (ctx : Context),
    W.Keeps env (fun o => ∃ u, o = .value (.token u) ∧ u.value = t.value) (rec env (.token t) ctx)

section

variable {rec : Reducer} (hrec : W.Minds rec) {env : Surroundings} (henv : W.Fits env)
include hrec henv

/-! ### Parameters -/

omit hrec in
/-- The bindings that a node comes with are fair, as all nodes are where there are such. -/
theorem all_contextOf (n : Node) {ctx : Context} (hctx : ctx.All W.Fair) :
    (contextOf env n ctx).All W.Fair := by
  unfold contextOf
  split
  next hown =>
    obtain ⟨hlate, -⟩ := Bool.and_eq_true_iff.mp hown
    refine fun e _ => fair_of_open (fun hwritten => ?_) e.2
    exact Bool.false_ne_true ((henv.loading hwritten).symm.trans hlate)
  next => exact hctx

theorem keeps_visit {n : Node} {ctx : Context} (hn : W.Fair n) (hctx : ctx.All W.Fair) :
    W.Keeps env (Outcome.All W.Fair) (visit env rec n ctx) :=
  hrec.node henv hn (all_contextOf henv n hctx)

variable {ctx : Context} (hctx : ctx.All W.Fair)

theorem keeps_visitToken (t : Token) :
    W.Keeps env (fun o => ∃ u, o = .value (.token u) ∧ u.value = t.value)
      (visit env rec (.token t) ctx) :=
  hrec.token henv t _

include hctx

theorem keeps_requireToken {n : Node} (hn : W.Fair n) :
    W.Keeps env (Awaits W.Fair fun _ : Token => True)
      ((evaluator env rec).requireToken n ctx) :=
  Evaluator.abides_requireToken (bylaws env.files)
    (fun _ _ hm hc => keeps_visit hrec henv hm hc) hctx hn

/-- What takes the place of parameters is fair, and a token in front stays. -/
theorem keeps_reduceParams {ps : List Node} (hps : ∀ p ∈ ps, W.Fair p) :
    W.Keeps env (fun r => ∀ qs, r = some qs → (∀ q ∈ qs, W.Fair q) ∧
        ∀ t others, ps = .token t :: others → ∃ u more, qs = .token u :: more ∧ u.value = t.value)
      (reduceParams env rec ctx ps) := by
  induction ps with
  | nil =>
    refine meets_pure fun qs hqs => ?_
    obtain rfl : [] = qs := Option.some.inj hqs
    exact ⟨by simp, fun _ _ h => nomatch h⟩
  | cons p ps ih =>
    obtain ⟨hp, hps⟩ := List.forall_mem_cons.mp hps
    have hhead : W.Keeps env (fun o => o.All W.Fair ∧ ∀ t, p = .token t →
        ∃ u, o = .value (.token u) ∧ u.value = t.value) (visit env rec p ctx) := by
      have hvisit := keeps_visit hrec henv hp hctx
      cases p with
      | token t =>
        refine (hvisit.and (keeps_visitToken hrec henv t) fun _ h => h).imp fun o ho => ?_
        refine ⟨ho.1, fun t' ht' => ?_⟩
        obtain rfl := Node.token.inj ht'
        exact ho.2
      | _ => exact hvisit.imp fun o ho => ⟨ho, fun _ h => nomatch h⟩
    refine meets_bind hhead fun o ho => ?_
    cases hq : o.toNode? p.origin with
    | none => exact meets_pure fun _ h => nomatch h
    | some q =>
      refine meets_map (ih hps) fun r hr qs hqs => ?_
      obtain ⟨more, rfl, rfl⟩ := Option.map_eq_some_iff.mp hqs
      refine ⟨List.forall_mem_cons.mpr ⟨ho.1.toNode fair_closed hq, (hr more rfl).1⟩, ?_⟩
      rintro t others heq
      obtain ⟨u, rfl, hu⟩ := ho.2 t (List.cons.inj heq).1
      obtain rfl : Node.token u = q := Option.some.inj hq
      exact ⟨u, more, rfl, hu⟩

/-- A call with its parameters reduced is as fair as it was. -/
theorem keeps_reduceCallParams {c : Call} (hc : W.Fair (.ofCall c)) :
    W.Keeps env (fun r => ∀ processed, r = some processed →
        W.Fair (.ofCall processed) ∧ processed.function = c.function)
      (reduceCallParams env rec c ctx) := by
  obtain ⟨f, ps, o⟩ := c
  obtain ⟨hleads, hps⟩ := fair_call.mp hc
  refine meets_map (keeps_reduceParams hrec henv hctx hps) fun r hr processed hprocessed => ?_
  obtain ⟨qs, rfl, rfl⟩ := Option.map_eq_some_iff.mp hprocessed
  obtain ⟨hqs, hfirst⟩ := hr qs rfl
  refine ⟨fair_call.mpr ⟨fun hinclude hwritten => ?_, hqs⟩, rfl⟩
  obtain ⟨t, others, hparams, htarget⟩ := hleads hinclude hwritten
  obtain ⟨u, more, rfl, hu⟩ := hfirst t others hparams
  exact ⟨u, more, rfl, hu ▸ htarget⟩

theorem keeps_keepCall {c : Call} (hc : W.Fair (.ofCall c)) {data : Option Node}
    (hdata : ∀ d ∈ data, W.Fair d) :
    W.Keeps env (Outcome.All W.Fair) (keepCall env rec c data ctx) := by
  refine meets_bind (keeps_reduceCallParams hrec henv hctx hc) fun r hr => ?_
  cases r with
  | none => exact meets_pure Outcome.all_pending
  | some processed =>
    have hprocessed := (hr processed rfl).1
    cases data with
    | none => exact meets_pure (Outcome.all_value hprocessed)
    | some data =>
      refine meets_bind (keeps_visit hrec henv (hdata data rfl) hctx) fun o ho => ?_
      cases hd : o.toNode? data.origin with
      | none => exact meets_pure Outcome.all_pending
      | some d =>
        exact meets_pure (Outcome.all_value
          (fair_statement.mpr ⟨hprocessed, ho.toNode fair_closed hd⟩))

theorem keeps_withTrailing {outcome : Outcome} (ho : outcome.All W.Fair) {data : Option Node}
    (hdata : ∀ d ∈ data, W.Fair d) :
    W.Keeps env (Outcome.All W.Fair) (withTrailing env rec outcome data ctx) := by
  cases data with
  | none => exact meets_pure ho
  | some data =>
    refine meets_bind (keeps_visit hrec henv (hdata data rfl) hctx) fun trailing ht => ?_
    cases hi : outcome.toItems? with
    | none => exact meets_pure Outcome.all_pending
    | some items =>
      cases hm : trailing.toItems? with
      | none => exact meets_pure Outcome.all_pending
      | some more =>
        exact meets_pure (Outcome.all_ofItems
          (List.forall_mem_append.mpr ⟨ho.toItems hi, ht.toItems hm⟩))

/-! ### Calls -/

omit hrec henv hctx in
theorem keeps_report (origin : Origin) {problem : Problem} (h : problem.isTooDeep = false) :
    W.Keeps env (fun _ => True) (Walk.report origin problem) :=
  abides_report (bylaws env.files) origin h

omit hrec henv hctx in
theorem keeps_remarkAt (level : Level) (location : Location) (text : String) :
    W.Keeps env (fun _ => True) (Walk.remarkAt level location text) :=
  abides_remarkAt (bylaws env.files) level location text

theorem keeps_bind {c : Call} (hc : W.Fair (.ofCall c)) :
    W.Keeps env (Context.All W.Fair) (Reduce.bind env rec c ctx) := by
  have hps := (fair_call.mp hc).2
  have hunbound : W.Keeps env (Context.All W.Fair)
      (Walk.leave [.unbound c] >>= fun _ => pure ctx) := by
    refine meets_map (P := fun _ => True) (meets_leave fun note hnote => ?_) fun _ _ => hctx
    obtain rfl := List.mem_singleton.mp hnote
    exact W.ordinary rfl
  unfold Reduce.bind
  split
  next name value heq =>
    rw [heq] at hps
    refine meets_bind (keeps_requireToken hrec henv hctx (hps name (by simp))) fun key _ => ?_
    cases key with
    | ok key =>
      refine meets_bind (keeps_visit hrec henv (hps value (by simp)) hctx) fun o ho => ?_
      cases hn : o.toNode? value.origin with
      | none => exact hunbound
      | some n =>
        exact meets_map (keeps_remarkAt _ _ _) fun _ _ =>
          Entries.forall_insert hctx (ho.toNode fair_closed hn)
    | error out =>
      cases out with
      | pending => exact abides_after (keeps_report _ rfl) fun _ => hunbound
      | value n => exact meets_pure hctx
      | empty => exact meets_pure hctx
      | splice items => exact meets_pure hctx
  next => exact meets_map (keeps_report _ rfl) fun _ _ => hctx

theorem keeps_callFunction {function : Function}
    (hfunction : function.Abiding (W.leaves env.files) W.Fair) {c : Call}
    (hc : W.Fair (.ofCall c)) :
    W.Keeps env (Outcome.All W.Fair) (callFunction env rec function c ctx) := by
  have hparams := keeps_reduceCallParams hrec henv hctx hc
  have hreduce : ∀ c : Call, W.Fair (.ofCall c) →
      W.Keeps env (Outcome.All W.Fair) (function.reduce (evaluator env rec) c ctx) := fun c hc =>
    hfunction _ (fun _ _ hm hc => keeps_visit hrec henv hm hc) c ctx (fair_call.mp hc).2 hctx
  refine meets_ite (fun _ => meets_ite (fun _ => hreduce c hc) fun _ => ?_) fun _ => ?_
  · refine abides_after (keeps_remarkAt _ _ _) fun _ => meets_bind hparams fun r hr => ?_
    cases r with
    | none => exact meets_pure Outcome.all_pending
    | some processed => exact meets_pure (Outcome.all_value (hr processed rfl).1)
  · refine meets_bind hparams fun r hr => ?_
    cases r with
    | none => exact meets_pure Outcome.all_pending
    | some processed =>
      have hprocessed := (hr processed rfl).1
      refine meets_bind (hreduce processed hprocessed) fun o ho => meets_ite (fun _ => ?_)
        fun _ => meets_pure ho
      exact abides_after (keeps_remarkAt _ _ _) fun _ =>
        meets_pure (Outcome.all_value hprocessed)

theorem keeps_callNamed {c : Call} (hc : W.Fair (.ofCall c)) {data : Option Node}
    (hdata : ∀ d ∈ data, W.Fair d) :
    W.Keeps env (Outcome.All W.Fair) (callNamed env rec c data ctx) := by
  unfold callNamed
  cases hget : Registry.get? env.registry c.function with
  | none =>
    exact abides_after (keeps_remarkAt _ _ _) fun _ => keeps_keepCall hrec henv hctx hc hdata
  | some function =>
    obtain ⟨e, he, rfl⟩ := Registry.mem_of_get? hget
    refine meets_bind (keeps_callFunction hrec henv hctx (henv.functions e he env.files) hc)
      fun o ho => ?_
    have htrailing := keeps_withTrailing hrec henv hctx ho hdata
    exact meets_ite (fun _ => abides_after (keeps_remarkAt _ _ _) fun _ => htrailing)
      fun _ => htrailing

theorem keeps_conditional {c : Call} (hc : W.Fair (.ofCall c)) {data : Option Node}
    (hdata : ∀ d ∈ data, W.Fair d) :
    W.Keeps env (Outcome.All W.Fair) (conditional env rec c data ctx) := by
  have hps := (fair_call.mp hc).2
  unfold conditional
  split
  next condition heq =>
    rw [heq] at hps
    refine meets_bind (keeps_requireToken hrec henv hctx (hps condition (by simp))) fun x hx => ?_
    cases x with
    | ok t =>
      refine meets_ite (fun _ => ?_) fun _ => meets_pure Outcome.all_empty
      cases data with
      | none => exact abides_after (keeps_report _ rfl) fun _ => meets_pure Outcome.all_empty
      | some data => exact keeps_visit hrec henv (hdata data rfl) hctx
    | error out =>
      cases out with
      | pending =>
        exact meets_ite (fun _ => meets_pure Outcome.all_pending) fun _ =>
          abides_after (keeps_remarkAt _ _ _) fun _ => keeps_keepCall hrec henv hctx hc hdata
      | value n => exact meets_pure hx
      | empty => exact meets_pure hx
      | splice items => exact meets_pure hx
  next =>
    exact abides_after (keeps_report _ rfl) fun _ =>
      meets_pure (Outcome.all_value (fair_closed.token _))

/-! ### Sequences -/

omit hrec henv hctx in
theorem keeps_orKept {outcome : Outcome} (ho : outcome.All W.Fair) {n : Node} (hn : W.Fair n) :
    W.Keeps env (Outcome.All W.Fair) (orKept env outcome n ctx) := by
  refine meets_ite (fun _ => ?_) fun _ => meets_pure ho
  refine meets_map (P := W.Fair) (meets_map (keeps_remarkAt _ _ _) fun _ _ => ?_) fun _ h =>
    Outcome.all_value h
  exact fair_withContext hn ctx

/-- Whether what an element gives is fair, and the context after it. -/
abbrev FairElement (W : Watch) (r : Option (List Node) × Context) : Prop :=
  (∀ items, r.1 = some items → ∀ i ∈ items, W.Fair i) ∧ r.2.All W.Fair

theorem keeps_plainElement {n : Node} (hn : W.Fair n) :
    W.Keeps env W.FairElement (plainElement env rec ctx n) :=
  meets_bind (keeps_visit hrec henv hn hctx) fun _ ho =>
    meets_map (keeps_orKept ho hn) fun _ ho => ⟨fun _ hitems => ho.toItems hitems, hctx⟩

theorem keeps_element {n : Node} (hn : W.Fair n) :
    W.Keeps env W.FairElement (element env rec ctx n) := by
  induction n generalizing ctx with
  | token t => exact keeps_plainElement hrec henv hctx hn
  | block es o => exact keeps_plainElement hrec henv hctx hn
  | array is o => exact keeps_plainElement hrec henv hctx hn
  | call f ps o =>
    rw [element]
    refine meets_ite (fun _ => ?_) fun _ => keeps_plainElement hrec henv hctx hn
    refine meets_map (keeps_bind hrec henv hctx (c := ⟨f, ps, o⟩) hn) fun ctx' hctx' => ?_
    refine ⟨fun items hitems => ?_, hctx'⟩
    obtain rfl : [] = items := Option.some.inj hitems
    simp
  | statement f ps o data _ ihdata =>
    obtain ⟨hcall, hdata⟩ := fair_statement.mp hn
    have htail : W.Keeps env W.FairElement
        (elementAnd env rec ctx (.call f ps o) (element env rec ctx data)) := by
      refine meets_bind (hrec.node henv hcall hctx) fun o ho =>
        meets_bind (keeps_orKept ho hcall) fun o ho => ?_
      cases hi : o.toItems? with
      | none => exact meets_pure ⟨by simp, hctx⟩
      | some items =>
        refine meets_map (ihdata hctx hdata) fun r hr => And.intro (fun all hall => ?_) hr.2
        obtain ⟨more, hmore, rfl⟩ := Option.map_eq_some_iff.mp hall
        exact List.forall_mem_append.mpr ⟨ho.toItems hi, hr.1 more hmore⟩
    rw [element_statement]
    refine meets_ite (fun _ => ?_) fun _ => meets_ite (fun _ => ?_) fun _ =>
      keeps_plainElement hrec henv hctx hn
    · exact meets_bind (keeps_bind hrec henv hctx (c := ⟨f, ps, o⟩) hcall) fun ctx' hctx' =>
        ihdata hctx' hdata
    · exact meets_ite (fun _ => abides_after (keeps_remarkAt _ _ _) fun _ => htail) fun _ => htail

theorem keeps_elements {ns : List Node} (hns : ∀ n ∈ ns, W.Fair n) :
    W.Keeps env (fun r => ∀ items, r = some items → ∀ i ∈ items, W.Fair i)
      (elements env rec ctx ns) := by
  induction ns generalizing ctx with
  | nil =>
    refine meets_pure fun items hitems => ?_
    obtain rfl : [] = items := Option.some.inj hitems
    simp
  | cons n ns ih =>
    obtain ⟨hn, hns⟩ := List.forall_mem_cons.mp hns
    refine meets_bind (keeps_element hrec henv hctx hn) fun r hr => ?_
    obtain ⟨items, ctx'⟩ := r
    cases items with
    | none => exact meets_pure fun _ h => nomatch h
    | some items =>
      refine meets_map (ih hr.2 hns) fun r' hr' all hall => ?_
      obtain ⟨more, hmore, rfl⟩ := Option.map_eq_some_iff.mp hall
      exact List.forall_mem_append.mpr ⟨hr.1 items rfl, hr' more hmore⟩

theorem keeps_entries {es : List (Token × Node)} (hes : ∀ e ∈ es, W.Fair e.2) :
    W.Keeps env (fun r => ∀ fs, r = some fs → ∀ e ∈ fs, W.Fair e.2) (entries env rec ctx es) := by
  induction es with
  | nil =>
    refine meets_pure fun fs hfs => ?_
    obtain rfl : [] = fs := Option.some.inj hfs
    simp
  | cons e es ih =>
    obtain ⟨k, n⟩ := e
    obtain ⟨hn, hes⟩ := List.forall_mem_cons.mp hes
    have hmore : ∀ m : Node, W.Fair m →
        W.Keeps env (fun r => ∀ fs, r = some fs → ∀ e ∈ fs, W.Fair e.2)
          (entries env rec ctx es >>= fun r => pure (r.map ((k, m) :: ·))) := by
      refine fun m hm => meets_map (ih hes) fun r hr fs hfs => ?_
      obtain ⟨more, hmore, rfl⟩ := Option.map_eq_some_iff.mp hfs
      exact List.forall_mem_cons.mpr ⟨hm, hr more hmore⟩
    refine meets_bind (keeps_visit hrec henv hn hctx) fun o ho =>
      meets_bind (keeps_orKept ho hn) fun o ho => ?_
    cases o with
    | value m => exact hmore m ho.of_value
    | empty => exact ih hes
    | splice items => exact hmore (.array items n.origin) (fair_closed.array.mpr ho)
    | pending => exact meets_pure fun _ h => nomatch h

/-! ### Includes -/

omit hrec henv hctx in
theorem keeps_null (c : Call) {m : Walk Unit} (hm : W.Keeps env (fun _ => True) m) :
    W.Keeps env (Outcome.All W.Fair) (m >>= fun _ => pure (.null c.origin)) :=
  abides_after hm fun _ => meets_pure (Outcome.all_value (fair_closed.token _))

theorem keeps_overrides {c : Call} (hc : W.Fair (.ofCall c)) {params : List Node}
    (hparams : ∀ p ∈ params, W.Fair p) :
    W.Keeps env (Awaits W.Fair fun es : List (Token × Node) => ∀ e ∈ es, W.Fair e.2)
      (overrides env rec c ctx params) := by
  have hnone : Awaits W.Fair (fun es : List (Token × Node) => ∀ e ∈ es, W.Fair e.2) (.ok []) := by
    simp [Awaits]
  have hwrong : ∀ param found,
      W.Keeps env (Awaits W.Fair fun es : List (Token × Node) => ∀ e ∈ es, W.Fair e.2)
        (do return Except.error (← overrides.wrong c param found)) := fun param found =>
    meets_map (P := Outcome.All W.Fair) (meets_map (keeps_report _ rfl) fun _ _ =>
      Outcome.all_value (fair_closed.token _)) fun _ ho => ho
  cases params with
  | nil => exact meets_pure hnone
  | cons param others =>
    refine meets_bind (keeps_visit hrec henv (hparams param (by simp)) hctx) fun o ho => ?_
    cases o with
    | empty => exact hwrong param .nothing
    | splice items => exact hwrong param .array
    | pending =>
      refine meets_ite (fun _ => meets_pure Outcome.all_pending) fun _ => ?_
      exact meets_map (keeps_keepCall hrec henv hctx hc (by simp)) fun _ ho => ho
    | value n =>
      have hnull := meets_ite (c := n.isNull = true) (fun _ => meets_pure hnone)
        fun _ => hwrong param n.kind
      cases n with
      | block es o => exact meets_pure (fair_closed.block.mp ho.of_value)
      | token t => exact hnull
      | call f ps o => exact hnull
      | statement f ps o d => exact hnull
      | array is o => exact hnull

omit hrec henv hctx in
theorem all_spliced {items : List Node} (h : ∀ i ∈ items, W.Fair i) :
    (spliced items).All W.Fair := by
  unfold spliced
  split
  next is o => exact fair_closed.array.mp (h (.array is o) (by simp))
  next => exact Outcome.all_ofItems h

/-- **The elements of a file that is included abide** among one more file, and so do they where it
is included. -/
theorem keeps_includeText (c : Call) {file : String} (text : String)
    (hnestings : W.nestings (env.files ++ [file]))
    (hitems : ∀ n ∈ (parseText text file env.settings.uniqueId).1, W.Fair n) :
    W.Keeps env (Outcome.All W.Fair) (includeText env rec c file text ctx) := by
  have hwithin : W.Fits (env.within file) := { henv with nestings := hnestings }
  have hmarked : ∀ n ∈ Node.markUids (c.origin.uid ++ ">")
      (parseText text file env.settings.uniqueId).1, W.Fair n :=
    (Node.alike_markUids _ _).forall_mem fun n hn m hnm => fair_alike hnm (hitems n hn)
  have hreports : W.Keeps env (fun _ => True)
      (Walk.reportAll (parseText text file env.settings.uniqueId).2) := by
    refine meets_leave fun note hnote => ?_
    obtain ⟨d, hd, rfl⟩ := List.mem_map.mp hnote
    refine W.ordinary ?_
    have htextual := textual_parseText text file env.settings.uniqueId d hd
    unfold Note.isOrdinary
    cases hproblem : d.problem with
    | includeDepth limit =>
      rw [hproblem] at htextual
      exact absurd htextual (by simp [Problem.isTextual])
    | _ => simp [hproblem, Problem.isTooDeep]
  refine abides_after (keeps_remarkAt _ _ _) fun _ => abides_after hreports fun _ =>
    meets_bind ((keeps_elements hrec hwithin hctx hmarked).mono
      ⟨id, fun _ => W.within, fun _ h => h⟩ id fun _ h => h) fun r hr => ?_
  cases r with
  | none => exact meets_pure Outcome.all_pending
  | some items => exact meets_pure (all_spliced (hr items rfl))

/-- **A file that may be included** is asked for and read, or refused. -/
theorem keeps_includeFile (c : Call) {file : String} (hfile : W.targets file) :
    W.Keeps env (Outcome.All W.Fair) (includeFile env rec c file ctx) := by
  have hask : file ∉ env.files →
      W.Keeps env (fun r => r = env.host.fileText file) (Walk.askFile env.host file) := by
    refine fun hnew _ _ => ⟨fun h => h.elim, fun note hnote => ?_, fun h => h.elim, fun r hr =>
      (Except.ok.inj hr).symm⟩
    rcases List.mem_cons.mp hnote with rfl | hnote
    · exact W.asks henv.nestings hfile hnew
    · obtain ⟨r, -, rfl⟩ := List.mem_map.mp hnote
      exact W.ordinary rfl
  refine meets_ite (fun _ => keeps_null c (keeps_report _ rfl)) fun hcycle => ?_
  have hnew : file ∉ env.files := by simpa using hcycle
  refine meets_ite (fun hdeep => keeps_null c (meets_leave fun note hnote => ?_)) fun hdepth => ?_
  · obtain rfl := List.mem_singleton.mp hnote
    exact W.refuses henv.nestings hfile hnew (henv.settings ▸ hdeep)
  · refine meets_bind (hask hnew) fun text htext => ?_
    cases text with
    | none => exact keeps_null c (keeps_report _ rfl)
    | some text =>
      have hlength : env.files.length ≤ W.settings.maxIncludeDepth :=
        henv.settings ▸ Nat.le_of_not_lt hdepth
      refine keeps_includeText hrec henv hctx c text (W.opens henv.nestings hfile hnew hlength) ?_
      rw [henv.settings]
      exact W.reads hfile (henv.host ▸ htext.symm)

/-- The path of an include is one that leads to a target. A path that is written out is read as it
stands. -/
theorem keeps_path {c : Call} (hinclude : c.function = includeName) (hc : W.Fair (.ofCall c))
    {path : Node} {others : List Node} (heq : c.params = path :: others) :
    W.Keeps env (Awaits W.Fair fun t : Token =>
      W.targets (Path.resolve c.origin.location.file t.value))
      ((evaluator env rec).requireToken path ctx) := by
  obtain ⟨hleads, hps⟩ := fair_call.mp hc
  by_cases hwritten : W.written
  · obtain ⟨t, others', hparams, htarget⟩ := hleads hinclude hwritten
    obtain ⟨rfl, -⟩ := List.cons.inj (heq.symm.trans hparams)
    refine meets_bind (keeps_visitToken hrec henv t) fun o ho => ?_
    obtain ⟨u, rfl, hu⟩ := ho
    refine meets_pure ?_
    show W.targets _
    rw [hu]
    exact htarget
  · refine (keeps_requireToken hrec henv hctx (hps path (by simp [heq]))).imp fun r hr => ?_
    cases r with
    | ok t => exact W.resolved hwritten _ _
    | error o => exact hr

theorem keeps_includeCall {c : Call} (hinclude : c.function = includeName)
    (hc : W.Fair (.ofCall c)) :
    W.Keeps env (Outcome.All W.Fair) (includeCall env rec c ctx) := by
  obtain ⟨-, hps⟩ := fair_call.mp hc
  unfold includeCall
  split
  next => exact keeps_null c (keeps_report _ rfl)
  next path others heq =>
    refine meets_ite (fun _ => keeps_null c (keeps_report _ rfl)) fun _ =>
      meets_bind (keeps_path hrec henv hctx hinclude hc heq) fun x hx => ?_
    cases x with
    | ok t =>
      have hothers : ∀ p ∈ others, W.Fair p := fun p hp =>
        hps p (by simp [heq, hp])
      refine meets_bind (keeps_overrides hrec henv hctx hc hothers) fun r hr => ?_
      cases r with
      | error out => exact meets_pure hr
      | ok es =>
        refine keeps_includeFile hrec henv (Entries.forall_overlay hctx fun e he => ?_) c hx
        obtain ⟨e', he', rfl⟩ := List.mem_map.mp he
        exact hr e' he'
    | error out =>
      cases out with
      | pending =>
        exact meets_ite (fun _ => meets_pure Outcome.all_pending) fun _ =>
          abides_after (keeps_remarkAt _ _ _) fun _ =>
            keeps_keepCall hrec henv hctx hc (by simp)
      | value n => exact meets_pure hx
      | empty => exact meets_pure hx
      | splice items => exact meets_pure hx

/-! ### One node -/

theorem keeps_call {c : Call} (hc : W.Fair (.ofCall c)) {data : Option Node}
    (hdata : ∀ d ∈ data, W.Fair d) :
    W.Keeps env (Outcome.All W.Fair) (call env rec c data ctx) := by
  refine meets_ite (fun hinclude => ?_) fun _ => meets_ite
    (fun _ => keeps_conditional hrec henv hctx hc hdata) fun _ => meets_ite (fun _ => ?_)
      fun _ => keeps_callNamed hrec henv hctx hc hdata
  · exact meets_bind (keeps_includeCall hrec henv hctx hinclude hc) fun o ho =>
      keeps_withTrailing hrec henv hctx ho hdata
  · refine meets_bind (keeps_bind hrec henv hctx hc) fun ctx' hctx' => ?_
    cases data with
    | none => exact meets_pure Outcome.all_empty
    | some data => exact keeps_visit hrec henv (hdata data rfl) hctx'

end

/-- One step abides by a watch, if the steps within do. -/
theorem minds_step {rec : Reducer} (hrec : W.Minds rec) : W.Minds (step rec) where
  node {env} henv n ctx hn hctx := by
    cases n with
    | token t => exact meets_pure (Outcome.all_value (fair_closed.token _))
    | array is o =>
      refine meets_bind (keeps_elements hrec henv hctx (fair_closed.array.mp hn)) fun r hr => ?_
      cases r with
      | none => exact meets_pure Outcome.all_pending
      | some items =>
        exact meets_pure (Outcome.all_value (fair_closed.array.mpr (hr items rfl)))
    | block es o =>
      refine meets_bind (keeps_entries hrec henv hctx (fair_closed.block.mp hn)) fun r hr => ?_
      cases r with
      | none => exact meets_pure Outcome.all_pending
      | some fs => exact meets_pure (Outcome.all_value (fair_closed.block.mpr (hr fs rfl)))
    | call f ps o => exact keeps_call hrec henv hctx (c := ⟨f, ps, o⟩) hn (by simp)
    | statement f ps o data =>
      obtain ⟨hcall, hdata⟩ := fair_statement.mp hn
      exact keeps_call hrec henv hctx (c := ⟨f, ps, o⟩) hcall (by simpa using hdata)
  token _ t ctx := meets_pure ⟨_, rfl, rfl⟩

/-- **The walk abides by every watch**, however deep it may be nested. -/
theorem minds_inContext (limit : Nat) : W.Minds (inContext limit) := by
  induction limit with
  | zero => exact ⟨fun _ _ _ _ _ => meets_halt _ id, fun _ _ _ => meets_halt _ id⟩
  | succ limit ih => exact minds_step ih

end Watch

end ContentLang
