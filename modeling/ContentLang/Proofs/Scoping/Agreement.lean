import ContentLang.Proofs.Loading.LaterBinding
import ContentLang.Proofs.Loading.Ready
import ContentLang.Proofs.Scoping.Laws

/-!
# The loading pass keeps to scopes

On content that holds no calls but bindings, reads and includes, the loading pass comes to what
evaluation in a scope gives (`ContentLang.Reduce.evaluates_inContext`). What carries the induction is that
the context **shows** the scope (`ContentLang.Context.Shows`): the same names are bound in both, to
the same values.

The pass reduces the value of a binding where it is bound and again at each read, in the context of
the read. That this makes no difference is the delicate point: no call is left in a value, so that
it stays as it is, whatever is bound in between.

The induction is on how deep a walk may be nested, with files of any number around it. Each call
that is evaluated does what its effect says (`ContentLang.Reduce.Does`), and what is around it, an
element of a sequence or a part of a node, follows from that.
-/

namespace ContentLang

open Scoping Walk

/-! ### Contexts and scopes -/

/-- **Whether a context shows a scope**: a name is bound in it to what is its value in the scope, if
it has one. -/
structure Context.Shows (ctx : Context) (scope : Scope) : Prop where
  get : ∀ name : Token, Alike ((scope.lookup (wordOf name)).map Value.node) (ctx.get? name)
  inert : ∀ known, ∀ e ∈ ctx, e.2.Inert known

namespace Context

theorem shows_empty : Context.empty.Shows [] :=
  ⟨fun _ => rfl, fun _ _ h => absurd h List.not_mem_nil⟩

theorem wordOf_eq_iff {s t : Token} : wordOf s = wordOf t ↔ s.label.reading = t.label.reading := by
  simp [wordOf, TokenOf.label, Label.reading]

variable {ctx : Context} {scope : Scope}

/-- A binding is made in both. -/
theorem Shows.bind (h : ctx.Shows scope) {key : Token} {w : Word} (hkey : wordOf key = w)
    {v : Value} {n : Node} (hn : Alike v.node n) : (ctx.bind key n).Shows ((w, v) :: scope) where
  get name := by
    subst hkey
    by_cases hname : wordOf name = wordOf key
    · rw [get?_bind_self (wordOf_eq_iff.mp hname.symm), hname, List.lookup_cons_self]
      exact congrArg some hn
    · have hne : (wordOf name == wordOf key) = false := by simpa using hname
      rw [get?_bind_of_ne fun h => hname (wordOf_eq_iff.mpr h).symm, List.lookup_cons, hne]
      exact h.get name
  inert known := Entries.forall_insert (h.inert known) (hn.inert v.inert_node)

/-- The entries of a block are bound in both, from left to right. -/
theorem Shows.overlay (h : ctx.Shows scope) {es : List (Word × Value)} {fs : List (Token × Node)}
    (hes : Alike (es.map fun e => (e.1.token, e.2.node)) fs) :
    (ctx.overlay fs).Shows (es.reverse ++ scope) := by
  induction es generalizing ctx scope fs with
  | nil =>
    obtain rfl := alike_nil_iff.mp hes
    exact h
  | cons e es ih =>
    obtain ⟨f, fs, rfl, hf, hfs⟩ := alike_cons_iff.mp hes
    obtain ⟨hkey, hvalue⟩ := Prod.mk.inj hf
    have hbound := h.bind (alike_token_iff.mp hkey) hvalue
    rw [List.reverse_cons, List.append_assoc]
    exact ih hbound hfs

/-- **A read** gives the value in the scope, or else the default. -/
theorem Shows.read (h : ctx.Shows scope) {name : Token} {d : Value} {fallback : Outcome}
    (hd : Alike (Outcome.value d.node) fallback) :
    Alike (Result.outcome (.value ((scope.lookup (wordOf name)).getD d)))
      (match ctx.get? name with
      | some value => .value value
      | none => fallback) := by
  have hget := h.get name
  cases hlookup : scope.lookup (wordOf name) with
  | none =>
    have hnone : ctx.get? name = none := by
      rw [hlookup] at hget
      cases hvalue : ctx.get? name with
      | none => rfl
      | some value => simp [hvalue, Alike] at hget
    rw [hnone]
    exact hd
  | some v =>
    obtain ⟨value, hvalue, hv⟩ : ∃ value, ctx.get? name = some value ∧ Alike v.node value := by
      rw [hlookup] at hget
      cases hvalue : ctx.get? name with
      | none => simp [hvalue, Alike] at hget
      | some value => exact ⟨value, rfl, by simpa [hvalue, Alike] using hget⟩
    rw [hvalue]
    exact Outcome.alike_value_iff.mpr ⟨value, rfl, hv⟩

end Context

/-! ### Files -/

namespace Surroundings

/-- What including a file gives, as many as may be included within those around it. -/
def included (env : Surroundings) : String → Scope → Result :=
  including env.host env.settings (env.settings.maxIncludeDepth + 1 - env.files.length) env.files

/-- A file gives its elements, unless it is there already, there are too many, or it is not
found. -/
theorem included_eq (env : Surroundings) (file : String) (scope : Scope) :
    env.included file scope =
      if env.files.contains file then .value .null
      else if env.settings.maxIncludeDepth < env.files.length then .value .null
      else (env.host.fileText file).elim (.value .null) fun text =>
        .ofFile (sequence (env.within file).included scope
          (parseText text file env.settings.uniqueId).1) := by
  by_cases hdepth : env.settings.maxIncludeDepth < env.files.length
  · have hzero : env.settings.maxIncludeDepth + 1 - env.files.length = 0 := by omega
    simp [included, hzero, including, hdepth]
  · obtain ⟨remaining, hremaining⟩ :
        ∃ r, env.settings.maxIncludeDepth + 1 - env.files.length = r + 1 :=
      ⟨env.settings.maxIncludeDepth - env.files.length, by omega⟩
    have hwithin : (env.within file).included =
        including env.host env.settings remaining (env.files ++ [file]) := by
      have hlength :
          env.settings.maxIncludeDepth + 1 - (env.files ++ [file]).length = remaining := by
        simp only [List.length_append, List.length_singleton]
        omega
      rw [← hlength]
      rfl
    rw [if_neg hdepth, hwithin, included, hremaining, including]
    cases env.host.fileText file with
    | none => rfl
    | some text => rfl

/-- Whether surroundings are those of the loading pass, with the functions of the language, and the
given files are evaluated. -/
structure Lexical (files : String → Bool) (env : Surroundings) : Prop where
  late : env.late = false
  registry : env.registry = .builtin
  files : ∀ file text, files file = true → env.host.fileText file = some text →
    ∀ n ∈ (parseText text file env.settings.uniqueId).1, n.lexical files = true

theorem Lexical.within {files : String → Bool} {env : Surroundings} (h : env.Lexical files)
    (file : String) : (env.within file).Lexical files :=
  ⟨h.late, h.registry, h.files⟩

end Surroundings

namespace Reduce

variable {files : String → Bool}

/-- **Whether a way to reduce nodes comes to what they are evaluated to** in the loading pass. -/
def Evaluates (files : String → Bool) (rec : Reducer) : Prop :=
  ∀ env : Surroundings, env.Lexical files → ∀ (node : Node) (ctx : Context) (scope : Scope),
    node.lexical files = true → ctx.Shows scope →
      Gives (Alike (result env.included scope node).outcome) (rec env node ctx)

section

variable {rec : Reducer} (hrec : Evaluates files rec) {env : Surroundings}
  (henv : env.Lexical files) {ctx : Context} {scope : Scope} (hctx : ctx.Shows scope)
include hrec henv hctx

/-! ### Parts -/

theorem evaluates_visit {n : Node} (hn : n.lexical files = true) :
    Gives (Alike (result env.included scope n).outcome) (visit env rec n ctx) := by
  rw [visit_loading henv.late]
  exact hrec env henv n ctx scope hn hctx

theorem evaluates_reduceCallParams {ps : List Node} (hps : ∀ p ∈ ps, p.lexical files = true)
    (f : String) (o : Origin) :
    Gives (fun r => ∃ qs, r = some ⟨f, qs, { o with context := ctx }⟩ ∧
        Alike ((params env.included scope ps).map Value.node) qs)
      (reduceCallParams env rec ⟨f, ps, o⟩ ctx) := by
  have hlistwise : Listwise
      (fun p l => ∃ q, l = [q] ∧ Alike (result env.included scope p).single.node q)
      fun ps qs => Alike ((params env.included scope ps).map Value.node) qs := by
    refine ⟨rfl, ?_⟩
    rintro p _ ps qs ⟨q, rfl, hq⟩ hqs
    exact alike_cons_iff.mpr ⟨q, qs, rfl, hq, hqs⟩
  refine meets_reduceCallParams hlistwise (fun p hp => ?_) f o
  refine (evaluates_visit hrec henv hctx (hps p hp)).imp fun out hout => ?_
  obtain ⟨q, hq, halike⟩ := Result.toNode_outcome hout p.origin
  exact ⟨q, hq, q, rfl, halike⟩

/-- A token that has to be one is. -/
theorem evaluates_requireToken (t : Token) :
    Gives (fun r => ∃ t', r = .ok t' ∧ wordOf t' = wordOf t)
      ((evaluator env rec).requireToken (.token t) ctx) := by
  refine meets_bind (evaluates_visit hrec henv hctx (Node.lexical_token t)) fun out hout => ?_
  obtain ⟨n, rfl, hn⟩ := Outcome.alike_value_iff.mp hout
  rw [Value.node_word] at hn
  obtain ⟨t', rfl, ht⟩ := hn.token
  exact meets_pure ⟨t', rfl, alike_token_iff.mp ht⟩

theorem evaluates_withTrailing {r : Result} {out : Outcome} (hout : Alike r.outcome out)
    {data : Node} (hdata : data.lexical files = true) :
    Gives (Alike (Result.ofItems (r.items ++ (result env.included scope data).items)).outcome)
      (withTrailing env rec out (some data) ctx) := by
  refine meets_bind (evaluates_visit hrec henv hctx hdata) fun trailing htrailing => ?_
  obtain ⟨ns, hns, halike⟩ := Result.toItems_outcome hout
  obtain ⟨ms, hms, halike'⟩ := Result.toItems_outcome htrailing
  simp only [hns, hms]
  refine meets_pure (Result.alike_ofItems ?_)
  rw [List.map_append]
  exact halike.append halike'

/-! ### Bindings -/

/-- A binding is made in the scope and in the context. -/
theorem evaluates_bind (o : Origin) (name : Token) {value : Node}
    (hvalue : value.lexical files = true) :
    Gives (·.Shows ((wordOf name, (result env.included scope value).single) :: scope))
      (bind env rec ⟨setName, [.token name, value], o⟩ ctx) := by
  refine meets_bind (evaluates_requireToken hrec henv hctx name) fun r hr => ?_
  obtain ⟨key, rfl, hkey⟩ := hr
  refine meets_bind (evaluates_visit hrec henv hctx hvalue) fun out hout => ?_
  obtain ⟨n, hn, halike⟩ := Result.toNode_outcome hout value.origin
  simp only [hn]
  exact gives_after fun _ => meets_pure (hctx.bind hkey halike)

end

/-! ### Reads -/

/-- What a read gives that is not bound: the default, or else a text that says so. -/
def unbound (o : Origin) (name : Token) (others : List Node) : Outcome :=
  match others.head? with
  | some fallback => .value fallback
  | none => .content (Library.unboundText name.value) o

section

variable {limit : Nat} {rec : Reducer} (hrec : Evaluates files rec)
  (hstill : StillReducer limit rec) {env : Surroundings} (henv : env.Lexical files) {ctx : Context} {scope : Scope}
  (hctx : ctx.Shows scope)
include hstill hctx

/-- What a read means is what it is evaluated to, its parameters being reduced. -/
theorem evaluates_readBinding (call : Call) {name : Token} {others : List Node} {d : Value}
    (hparams : call.params = .token name :: others) (hlength : others.length ≤ 1)
    (hinert : ∀ p ∈ others, p.Inert env.registry.isKnown)
    (hd : Alike (Outcome.value d.node) (unbound call.origin name others)) :
    Gives (Alike (Result.outcome (.value ((scope.lookup (wordOf name)).getD d))))
      (Library.readBinding.reduce (evaluator env rec) call ctx) := by
  have hkept : ∀ {n : Node}, n.Inert env.registry.isKnown → Kept limit env False n :=
    fun hn => ⟨hn.settled, False.elim⟩
  have hps : ∀ p ∈ call.params, Kept limit env False p := by
    rw [hparams]
    exact List.forall_mem_cons.mpr ⟨hkept (Node.inert_token name), fun p hp => hkept (hinert p hp)⟩
  have hmeans := Library.means_readBinding (keeps_evaluator hstill (fun h => h.elim)) call ctx hps
    fun _ e he => hkept (hctx.inert _ e he)
  have hmeaning : Meaning.readBinding.outcome (evaluator env rec).isKnown (evaluator env rec).world
      call ctx = match ctx.get? name with
        | some value => .value value
        | none => unbound call.origin name others := by
    have hread : Meaning.readBinding.read (evaluator env rec).isKnown call.params =
        .ok (name, others.head?) := by
      rw [hparams]
      exact if_pos hlength
    rw [Meaning.outcome, hread]
    rfl
  refine hmeans.mono (Terms.quietIf_covers_any _) id fun out hout => ?_
  rw [hmeaning] at hout
  exact (hctx.read hd).trans hout

include hrec henv

/-- **A read** comes to the value in the scope, or else to the default. -/
theorem evaluates_read (o : Origin) (name : Token) {others : List Node}
    (hlength : others.length ≤ 1) (hothers : ∀ p ∈ others, p.lexical files = true) :
    Gives (Alike (Result.outcome (.value ((scope.lookup (wordOf name)).getD
        ((params env.included scope others).head?.getD
          (.content (Library.unboundText name.value)))))))
      (callFunction env rec Library.readBinding ⟨"^", .token name :: others, o⟩ ctx) := by
  have hps : ∀ p ∈ Node.token name :: others, p.lexical files = true :=
    List.forall_mem_cons.mpr ⟨Node.lexical_token name, hothers⟩
  refine meets_bind (evaluates_reduceCallParams hrec henv hctx hps "^" o) fun r hr => ?_
  obtain ⟨qs, rfl, hqs⟩ := hr
  obtain ⟨n, rest, rfl, hn, hrest⟩ := alike_cons_iff.mp hqs
  obtain ⟨t, rfl, ht⟩ := (Value.node_word (wordOf name) ▸ hn).token
  have hname : wordOf t = wordOf name := alike_token_iff.mp ht
  have hinert : ∀ p ∈ rest, p.Inert env.registry.isKnown := by
    refine hrest.forall_mem fun m hm p hmp => ?_
    obtain ⟨v, -, rfl⟩ := List.mem_map.mp hm
    exact hmp.inert v.inert_node
  have hfewer : rest.length ≤ 1 := by
    rw [← hrest.length, List.length_map, length_params]
    exact hlength
  let c : Call := ⟨"^", .token t :: rest, { o with context := ctx }⟩
  let d : Value := (params env.included scope others).head?.getD
    (.content (Library.unboundText name.value))
  -- The default that is left to the function is the one that there is, or the text.
  have hd : Alike (Outcome.value d.node) (unbound c.origin t rest) := by
    cases hparams : params env.included scope others with
    | nil =>
      obtain rfl := alike_nil_iff.mp (hparams ▸ hrest)
      have htext : t.value = name.value := congrArg Word.value hname
      simp only [d, hparams, unbound, htext]
      rfl
    | cons v vs =>
      rw [hparams] at hrest
      obtain ⟨m, more, rfl, hm, -⟩ := alike_cons_iff.mp hrest
      simp only [d, hparams]
      exact Outcome.alike_value_iff.mpr ⟨m, rfl, hm⟩
  have hread : Gives (Alike (Result.outcome (.value ((scope.lookup (wordOf name)).getD d))))
      (Library.readBinding.reduce (evaluator env rec) c ctx) :=
    hname ▸ evaluates_readBinding hstill hctx c rfl hfewer hinert hd
  refine meets_bind hread fun out hout => ?_
  obtain ⟨m, rfl, -⟩ := Outcome.alike_value_iff.mp hout
  exact meets_pure hout

end

/-! ### Sequences -/

/-- **What an element gives and the scope after it**, as `ContentLang.Scoping.element` says. -/
def ElementOf (e : List Value × Scope) (r : Option (List Node) × Context) : Prop :=
  ∃ ms c, r = (some ms, c) ∧ Alike (e.1.map Value.node) ms ∧ c.Shows e.2

/-- What a node gives as an element that hands on the scope. -/
theorem evaluates_plainElement {env : Surroundings} {rec : Reducer} {ctx : Context} {scope : Scope}
    (hctx : ctx.Shows scope) {n : Node} {r : Result}
    (hn : Gives (Alike r.outcome) (visit env rec n ctx)) :
    Gives (ElementOf (r.items, scope)) (plainElement env rec ctx n) := by
  have hitems : Gives (fun o => ∃ l, o.toItems? = some l ∧ Alike (r.items.map Value.node) l)
      (visit env rec n ctx) := hn.imp fun out hout => Result.toItems_outcome hout
  refine (meets_plainElement hitems).imp fun x hx => ?_
  obtain ⟨l, rfl, hl⟩ := hx
  exact ⟨l, ctx, rfl, hl, hctx⟩

/-- What a call gives as an element, before what comes next. -/
theorem evaluates_elementAnd {env : Surroundings} {rec : Reducer} {ctx : Context} {c : Node}
    {r : Result} (hc : Gives (Alike r.outcome) (rec env c ctx))
    {next : Walk (Option (List Node) × Context)} {e : List Value × Scope}
    (hnext : Gives (ElementOf e) next) :
    Gives (ElementOf (r.items ++ e.1, e.2)) (elementAnd env rec ctx c next) := by
  refine meets_bind hc fun out hout => ?_
  obtain ⟨ns, hns, halike⟩ := Result.toItems_outcome hout
  have hready : out ≠ .pending := by
    rintro rfl
    exact nomatch hns
  rw [orKept_of_ready hready]
  simp only [Walk.pure_bind, hns]
  refine meets_map hnext fun x hx => ?_
  obtain ⟨ms, after, rfl, hms, hafter⟩ := hx
  exact ⟨ns ++ ms, after, rfl, List.map_append ▸ halike.append hms, hafter⟩

/-- **What a call does to the context**, as its effect says. -/
inductive Leads (env : Surroundings) (rec : Reducer) (ctx : Context) (scope : Scope) (c : Call) :
    Effect → Prop
  | binds {name : Word} {value : Value} (hname : c.function = setName)
    (h : Gives (·.Shows ((name, value) :: scope)) (bind env rec c ctx)) :
    Leads env rec ctx scope c (.binds name value)
  | gives {r : Result} (hname : c.function ≠ setName) (htakes : takesNoData env c.function = true) :
    Leads env rec ctx scope c (.gives r)

section

variable {rec : Reducer} (hrec : Evaluates files rec) {env : Surroundings}
  (henv : env.Lexical files)
include hrec henv

/-- A call that is evaluated leads on to the scope that its effect says. -/
theorem leads_of_lexical {ctx : Context} {scope : Scope} (hctx : ctx.Shows scope) {f : String}
    {ps : List Node} {o : Origin} (hcall : (Node.call f ps o).lexical files = true) :
    Leads env rec ctx scope ⟨f, ps, o⟩
      (effect env.included scope f o.location.file (params env.included scope ps)) := by
  obtain ⟨hfront, hps⟩ := Node.lexical_call.mp hcall
  have hread : takesNoData env "^" = true := by
    rw [takesNoData, henv.registry]
    rfl
  have hinclude : takesNoData env includeName = true := by simp [takesNoData]
  have hneRead : "^" ≠ setName := by decide
  have hneInclude : includeName ≠ setName := by decide
  cases front_of_isFront hfront with
  | bind name value =>
    have hvalue : value.lexical files = true := hps value (by simp)
    exact .binds rfl (evaluates_bind hrec henv hctx o name hvalue)
  | read name => exact .gives hneRead hread
  | readOr name fallback => exact .gives hneRead hread
  | file path hfile => exact .gives hneInclude hinclude
  | fileWith path overrides o' hfile => exact .gives hneInclude hinclude

/-- **An element gives its items**, and leads on to the scope after it. -/
theorem evaluates_element {n : Node} (hn : n.lexical files = true) {ctx : Context} {scope : Scope}
    (hctx : ctx.Shows scope) :
    Gives (ElementOf (Scoping.element env.included scope n)) (element env rec ctx n) := by
  have hplain : ∀ {n : Node} {ctx : Context} {scope : Scope}, ctx.Shows scope →
      n.lexical files = true →
        Gives (ElementOf ((result env.included scope n).items, scope))
          (plainElement env rec ctx n) :=
    fun hctx hn => evaluates_plainElement hctx (evaluates_visit hrec henv hctx hn)
  induction n generalizing ctx scope with
  | token t => exact hplain hctx hn
  | block es o => exact hplain hctx hn
  | array is o => exact hplain hctx hn
  | call f ps o =>
    have hleads := leads_of_lexical hrec henv hctx hn
    have hgiven := hplain hctx hn
    rw [Scoping.element]
    rw [result] at hgiven
    generalize effect env.included scope f o.location.file (params env.included scope ps) = eff
      at hleads hgiven
    cases hleads with
    | binds hname h =>
      rw [element, if_pos hname]
      exact meets_map h fun c hc => ⟨[], c, rfl, rfl, hc⟩
    | gives hname htakes =>
      rw [element, if_neg hname]
      exact hgiven
  | statement f ps o data ihps ihdata =>
    obtain ⟨hn, hdata⟩ := Node.lexical_statement.mp hn
    have hleads := leads_of_lexical hrec henv hctx hn
    have hgiven := hrec env henv (.call f ps o) ctx scope hn hctx
    rw [Scoping.element, element_statement]
    rw [result] at hgiven
    generalize effect env.included scope f o.location.file (params env.included scope ps) = eff
      at hleads hgiven
    cases hleads with
    | binds hname h =>
      rw [if_pos hname]
      exact meets_bind h fun c hc => ihdata hdata hc
    | gives hname htakes =>
      rw [if_neg hname, if_pos htakes]
      have hand := evaluates_elementAnd hgiven (ihdata hdata hctx)
      exact meets_ite (fun _ => gives_after fun _ => hand) fun _ => hand

/-- **A sequence** gives the items of its elements, each in the scope after those before it. -/
theorem evaluates_elements {ns : List Node} (hns : ∀ n ∈ ns, n.lexical files = true) {ctx : Context}
    {scope : Scope} (hctx : ctx.Shows scope) :
    Gives (fun r => ∃ ms, r = some ms ∧ Alike ((sequence env.included scope ns).map Value.node) ms)
      (elements env rec ctx ns) := by
  induction ns generalizing ctx scope with
  | nil => exact meets_pure ⟨[], rfl, rfl⟩
  | cons n ns ih =>
    obtain ⟨hn, hns⟩ := List.forall_mem_cons.mp hns
    refine meets_bind (evaluates_element hrec henv hn hctx) fun x hx => ?_
    obtain ⟨l, after, rfl, hl, hafter⟩ := hx
    refine meets_map (ih hns hafter) fun r hr => ?_
    obtain ⟨ms, rfl, hms⟩ := hr
    exact ⟨l ++ ms, rfl, List.map_append ▸ hl.append hms⟩

/-- **A block** gives the entries of its values, each in the same scope. -/
theorem evaluates_entries {es : List (Token × Node)} (hes : ∀ e ∈ es, e.2.lexical files = true)
    {ctx : Context} {scope : Scope} (hctx : ctx.Shows scope) :
    Gives (fun r => ∃ fs, r = some fs ∧
        Alike ((fields env.included scope es).map fun e => (e.1.token, e.2.node)) fs)
      (entries env rec ctx es) := by
  have hlistwise : Listwise
      (fun (e : Token × Node) l => Alike (((result env.included scope e.2).fields (wordOf e.1)).map
        fun e => (e.1.token, e.2.node)) l)
      fun es fs => Alike ((fields env.included scope es).map fun e => (e.1.token, e.2.node)) fs :=
    ⟨rfl, fun hl hfs => List.map_append ▸ hl.append hfs⟩
  exact meets_entries hlistwise fun e he =>
    (evaluates_visit hrec henv hctx (hes e he)).imp fun out hout =>
      Result.toEntries_outcome hout e.1 e.2.origin

/-! ### Includes -/

omit hrec henv in
theorem evaluates_notIncluded (c : Call) (problem : Problem) :
    Gives (Alike (Result.value .null).outcome) (notIncluded c problem) :=
  gives_after fun _ => meets_pure rfl

/-- **A file gives what is left of its elements**, in the context that it is included in. -/
theorem evaluates_includeFile (c : Call) {file : String} (hfile : files file = true) {ctx : Context}
    {scope : Scope} (hctx : ctx.Shows scope) :
    Gives (Alike (env.included file scope).outcome) (includeFile env rec c file ctx) := by
  rw [includeFile_eq, env.included_eq]
  by_cases hcycle : env.files.contains file = true
  · rw [if_pos hcycle, if_pos hcycle]
    exact evaluates_notIncluded c _
  · rw [if_neg hcycle, if_neg hcycle]
    by_cases hdepth : env.settings.maxIncludeDepth < env.files.length
    · rw [if_pos hdepth, if_pos hdepth]
      exact evaluates_notIncluded c _
    · rw [if_neg hdepth, if_neg hdepth]
      have hasked : Gives (· = env.host.fileText file) (Walk.askFile env.host file) :=
        fun s _ => ⟨fun h => h.elim, fun _ _ => trivial, fun h => h.elim,
          fun text htext => (Except.ok.inj htext).symm⟩
      refine meets_bind hasked fun text htext => ?_
      subst htext
      cases htext : env.host.fileText file with
      | none => exact evaluates_notIncluded c _
      | some text =>
        have hitems : ∀ n ∈ Node.markUids (c.origin.uid ++ ">")
            (parseText text file env.settings.uniqueId).1, n.lexical files = true := by
          intro n hn
          rw [Node.markUids_eq] at hn
          obtain ⟨m, hm, rfl⟩ := List.mem_map.mp hn
          exact Node.lexical_markUid _ (henv.files file text hfile htext m hm)
        have helements := evaluates_elements hrec (henv.within file) hitems hctx
        rw [sequence_markUids] at helements
        refine gives_after fun _ => gives_after fun _ => meets_bind helements fun r hr => ?_
        obtain ⟨ms, rfl, hms⟩ := hr
        exact meets_pure (Result.alike_ofFile hms)

/-- **An include** comes to what its file gives in the scope with the overrides before it. -/
theorem evaluates_includeCall (o : Origin) {path : Token} {others : List Node}
    (hlength : others.length ≤ 1)
    (hfile : files (Path.resolve o.location.file path.value) = true) {ctx : Context}
    {scope within : Scope} (hctx : ctx.Shows scope)
    (hoverrides : Gives (fun r => ∃ es, r = .ok es ∧ (ctx.overlay es).Shows within)
      (overrides env rec ⟨includeName, .token path :: others, o⟩ ctx others)) :
    Gives (Alike (env.included (Path.resolve o.location.file path.value) within).outcome)
      (includeCall env rec ⟨includeName, .token path :: others, o⟩ ctx) := by
  have harity : (Arity.either 1 2).accepts (Node.token path :: others).length = true := by
    have hcases : others.length = 0 ∨ others.length = 1 := by omega
    simpa [Arity.accepts] using hcases
  unfold includeCall
  simp only [harity, Bool.not_true, Bool.false_eq_true, if_false]
  refine meets_bind (evaluates_requireToken hrec henv hctx path) fun r hr => ?_
  obtain ⟨t, rfl, ht⟩ := hr
  have hvalue : t.value = path.value := congrArg Word.value ht
  refine meets_bind hoverrides fun r hr => ?_
  obtain ⟨es, rfl, hes⟩ := hr
  simp only [hvalue]
  exact evaluates_includeFile hrec henv _ hfile hes

/-- Overrides that are written out are bound from left to right. -/
theorem evaluates_overrides (c : Call) {es : List (Token × Node)} (o : Origin)
    (hes : ∀ e ∈ es, e.2.lexical files = true) {ctx : Context} {scope : Scope}
    (hctx : ctx.Shows scope) :
    Gives (fun r => ∃ fs, r = .ok fs ∧ (ctx.overlay fs).Shows
        (scope.overlaid (.block (fields env.included scope es))))
      (overrides env rec c ctx [.block es o]) := by
  refine meets_bind (evaluates_visit hrec henv hctx (Node.lexical_block.mpr hes)) fun out hout => ?_
  obtain ⟨n, rfl, hn⟩ := Outcome.alike_value_iff.mp hout
  rw [Value.node_block] at hn
  obtain ⟨fs, o', rfl, hfs⟩ := hn.block
  exact meets_pure ⟨fs, rfl, hctx.overlay hfs⟩

end

/-! ### Nodes -/

section

variable {limit : Nat} {rec : Reducer} (hrec : Evaluates files rec)
  (hstill : StillReducer limit rec) {env : Surroundings} (henv : env.Lexical files) {ctx : Context} {scope : Scope}
  (hctx : ctx.Shows scope)
include hrec hstill henv hctx

/-- **A call that is no binding gives what its effect says**, before the data after it. -/
theorem evaluates_given {f : String} {ps : List Node} {o : Origin}
    (hcall : (Node.call f ps o).lexical files = true) {r : Result}
    (heffect : effect env.included scope f o.location.file (params env.included scope ps) =
      .gives r)
    {P : Outcome → Prop} (data : Option Node)
    (hdata : ∀ out, Alike r.outcome out → Gives P (withTrailing env rec out data ctx)) :
    Gives P (call env rec ⟨f, ps, o⟩ data ctx) := by
  obtain ⟨hfront, hps⟩ := Node.lexical_call.mp hcall
  have hread : ∀ {name : Token} {others : List Node},
      Gives (Alike r.outcome)
        (callFunction env rec Library.readBinding ⟨"^", .token name :: others, o⟩ ctx) →
      Gives P (call env rec ⟨"^", .token name :: others, o⟩ data ctx) := by
    intro name others hread
    have hget : Registry.get? env.registry "^" = some Library.readBinding := by
      rw [henv.registry]
      rfl
    rw [call_eq_callNamed (by decide), callNamed]
    simp only [hget]
    refine meets_bind hread fun out hout => ?_
    exact meets_ite (fun _ => gives_after fun _ => hdata out hout) fun _ => hdata out hout
  have hinclude : ∀ {others : List Node},
      Gives (Alike r.outcome) (includeCall env rec ⟨includeName, others, o⟩ ctx) →
      Gives P (call env rec ⟨includeName, others, o⟩ data ctx) := fun h =>
    meets_bind h hdata
  cases front_of_isFront hfront with
  | bind name value =>
    rw [effect_bind] at heffect
    cases heffect
  | read name =>
    rw [effect_read] at heffect
    obtain rfl := Effect.gives.inj heffect
    exact hread (evaluates_read hrec hstill henv hctx o name (Nat.zero_le 1) (by simp))
  | readOr name fallback =>
    rw [effect_readOr] at heffect
    obtain rfl := Effect.gives.inj heffect
    exact hread (evaluates_read hrec hstill henv hctx o name (Nat.le_refl 1)
      (List.forall_mem_cons.mp hps).2)
  | file path hfile =>
    rw [effect_file] at heffect
    obtain rfl := Effect.gives.inj heffect
    exact hinclude (evaluates_includeCall hrec henv o (by simp) hfile hctx
      (meets_pure ⟨[], rfl, hctx⟩))
  | fileWith path overrides o' hfile =>
    rw [effect_fileWith] at heffect
    obtain rfl := Effect.gives.inj heffect
    have hblock : (Node.block overrides o').lexical files = true := hps _ (by simp)
    exact hinclude (evaluates_includeCall hrec henv o (by simp) hfile hctx
      (evaluates_overrides hrec henv _ o' (Node.lexical_block.mp hblock) hctx))

/-- A binding is made for the data after it; without any it gives nothing. -/
theorem evaluates_call {f : String} {ps : List Node} {o : Origin}
    (hcall : (Node.call f ps o).lexical files = true) :
    Gives (Alike (result env.included scope (.call f ps o)).outcome)
      (call env rec ⟨f, ps, o⟩ none ctx) := by
  have hleads := leads_of_lexical hrec henv hctx hcall
  rw [result]
  cases heffect : effect env.included scope f o.location.file (params env.included scope ps) with
  | binds name value =>
    rw [heffect] at hleads
    cases hleads with
    | binds hname h =>
      obtain rfl : f = setName := hname
      exact meets_bind h fun _ _ => meets_pure rfl
  | gives r =>
    exact evaluates_given hrec hstill henv hctx hcall heffect none fun out hout => meets_pure hout

theorem evaluates_statement {f : String} {ps : List Node} {o : Origin} {data : Node}
    (hcall : (Node.call f ps o).lexical files = true) (hdata : data.lexical files = true) :
    Gives (Alike (result env.included scope (.statement f ps o data)).outcome)
      (call env rec ⟨f, ps, o⟩ (some data) ctx) := by
  have hleads := leads_of_lexical hrec henv hctx hcall
  rw [result]
  cases heffect : effect env.included scope f o.location.file (params env.included scope ps) with
  | binds name value =>
    rw [heffect] at hleads
    cases hleads with
    | binds hname h =>
      obtain rfl : f = setName := hname
      exact meets_bind h fun _ hc => evaluates_visit hrec henv hc hdata
  | gives r =>
    exact evaluates_given hrec hstill henv hctx hcall heffect (some data) fun out hout =>
      evaluates_withTrailing hrec henv hctx hout hdata

end

/-- **One step comes to what a node is evaluated to**, if the steps within do. -/
theorem evaluates_step {limit : Nat} {rec : Reducer} (hrec : Evaluates files rec)
    (hstill : StillReducer limit rec) : Evaluates files (step rec) := by
  intro env henv node ctx scope hnode hctx
  cases node with
  | token t => exact meets_pure rfl
  | array is o =>
    have helements := evaluates_elements hrec henv (Node.lexical_array.mp hnode) hctx
    refine meets_bind helements fun r hr => ?_
    obtain ⟨ms, rfl, hms⟩ := hr
    refine meets_pure (Outcome.alike_value_iff.mpr ⟨_, rfl, ?_⟩)
    simpa [Alike] using hms
  | block es o =>
    have hentries := evaluates_entries hrec henv (Node.lexical_block.mp hnode) hctx
    refine meets_bind hentries fun r hr => ?_
    obtain ⟨fs, rfl, hfs⟩ := hr
    refine meets_pure (Outcome.alike_value_iff.mpr ⟨_, rfl, ?_⟩)
    simpa [Alike] using hfs
  | call f ps o => exact evaluates_call hrec hstill henv hctx hnode
  | statement f ps o data =>
    obtain ⟨hcall, hdata⟩ := Node.lexical_statement.mp hnode
    exact evaluates_statement hrec hstill henv hctx hcall hdata

/-- **The loading pass comes to what nodes are evaluated to**, in every context that shows the
scope. -/
theorem evaluates_inContext (files : String → Bool) (limit : Nat) :
    Evaluates files (inContext limit) := by
  induction limit with
  | zero => exact fun _ _ _ _ _ _ _ => meets_halt _ id
  | succ limit ih => exact evaluates_step ih (still_inContext limit)

end Reduce

end ContentLang
