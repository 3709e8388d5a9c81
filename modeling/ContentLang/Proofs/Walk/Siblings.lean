import ContentLang.Proofs.Grammar.Origins
import ContentLang.Proofs.Nodes.Entries
import ContentLang.Proofs.Walk.Parts

/-!
# Data after a call that takes none

A statement whose function is `Set^`, `Include` or one of the registry stands for two elements of a
sequence, its call and its data. The data may be such a statement again, so that an element stands
for a chain of **siblings** (`ContentLang.Node.siblings`). A sequence is reduced as if they stood
there one by one (`ContentLang.Reduce.elements_siblings`).

Only the log tells the difference, as it is remarked on data after the call of a function. One step
is an equation between walks that has this remark in it (`ContentLang.Reduce.elements_statement`),
and the induction along a chain compares walks without their remarks
(`ContentLang.Walk.unremarked`).

The equation would not hold for every node in consumption: a call that is an element by itself is
reduced in the context it has captured, if it has captured any, and the call of a statement never
is. What is read from a text has captured nothing.
-/

namespace ContentLang

open Walk

/-! ### Walks without remarks -/

namespace Walk

variable {α β : Type}

/-- Notes without the remarks among them. -/
def unremarkedNotes (notes : List Note) : List Note := notes.filter (·.remark?.isNone)

/-- A walk without its remarks. -/
def unremarked (m : Walk α) : Walk α := fun s =>
  ⟨(m s).answer, (m s).state, unremarkedNotes (m s).notes⟩

theorem unremarked_bind (m : Walk α) (f : α → Walk β) :
    unremarked (m >>= f) = unremarked m >>= fun a => unremarked (f a) := by
  funext s
  cases hm : (m s).answer with
  | error e =>
    have hm' : (unremarked m s).answer = .error e := hm
    rw [unremarked, bind_error hm, bind_error hm']
    rfl
  | ok a =>
    have hm' : (unremarked m s).answer = .ok a := hm
    rw [unremarked, bind_ok hm, bind_ok hm']
    simp only [unremarked, unremarkedNotes, List.filter_append]

/-- What comes after a remark comes after nothing. -/
theorem unremarked_remark_bind (level : Level) (text : String) (f : Unit → Walk β) :
    unremarked (remark level text >>= f) = unremarked (f ()) := by
  rw [unremarked_bind]
  rfl

end Walk

/-! ### Siblings -/

/-- **The siblings that an element of a sequence stands for**: its call and those of its data, if
it is a statement that binds or whose function takes no data. -/
def Node.siblings (takesNoData : String → Bool) : Node → List Node
  | .statement f ps o data =>
    if f = setName ∨ takesNoData f then .call f ps o :: data.siblings takesNoData
    else [.statement f ps o data]
  | n => [n]

namespace Reduce

variable {env : Surroundings} {rec : Reducer} {ctx : Context}

/-- How a sequence goes on after an element. -/
def elementsAfter (env : Surroundings) (rec : Reducer) (ns : List Node) :
    Option (List Node) × Context → Walk (Option (List Node))
  | (none, _) => pure none
  | (some items, c) => elements env rec c ns >>= fun more => pure (more.map (items ++ ·))

theorem elements_cons (n : Node) (ns : List Node) :
    elements env rec ctx (n :: ns) = element env rec ctx n >>= elementsAfter env rec ns := by
  rw [elements]
  rfl

/-- Items that come before those of the next element come before those of all that follow. -/
theorem elementsAfter_append (items : List Node) (ns : List Node)
    (m : Walk (Option (List Node) × Context)) :
    (m >>= fun r => pure (r.1.map (items ++ ·), r.2)) >>= elementsAfter env rec ns =
      (m >>= elementsAfter env rec ns) >>= fun more => pure (more.map (items ++ ·)) := by
  rw [bind_assoc, bind_assoc]
  congr 1
  funext r
  obtain ⟨more, c⟩ := r
  cases more with
  | none => rfl
  | some l =>
    simp only [elementsAfter, Option.map_some, pure_bind, bind_assoc]
    congr 1
    funext rest
    simp [Option.map_map, Function.comp_def]

/-- What a call gives is followed by the siblings after it, whether these are reduced with it or
next to it. -/
theorem elementAnd_after {f : String} (ps : List Node) {o : Origin} (data : Node) (ns : List Node)
    (hf : f ≠ setName) (ho : env.late = true → o.context = []) :
    elementAnd env rec ctx (.call f ps o) (element env rec ctx data) >>= elementsAfter env rec ns =
      elements env rec ctx (.call f ps o :: data :: ns) := by
  have hcontext : contextOf env (.call f ps o) ctx = ctx := by
    unfold contextOf
    rw [if_neg]
    rintro hcaptured
    obtain ⟨hlate, hcaptured⟩ := Bool.and_eq_true_iff.mp hcaptured
    simp [Node.origin, ho hlate] at hcaptured
  have hvisit : visit env rec (.call f ps o) ctx = rec env (.call f ps o) ctx := by
    rw [visit, hcontext]
  rw [elements_cons, element, if_neg hf, plainElement, hvisit, elementAnd, bind_assoc, bind_assoc]
  congr 1
  funext out
  rw [bind_assoc, bind_assoc]
  congr 1
  funext out
  cases hitems : out.toItems? with
  | none => rfl
  | some items =>
    show (element env rec ctx data >>= fun r => pure (r.1.map (items ++ ·), r.2)) >>=
      elementsAfter env rec ns = _
    rw [elementsAfter_append, ← elements_cons]
    rfl

/-- The remark on data after a call that takes none: there is one for a function alone. -/
def trailingRemark (c : Call) : Walk Unit :=
  if c.function = setName ∨ c.function = includeName then pure () else remarkTrailing c

/-- **A statement whose function takes no data is two elements**, and a remark. -/
theorem elements_statement {f : String} (ps : List Node) {o : Origin} (data : Node)
    (ns : List Node) (hf : f = setName ∨ takesNoData env f)
    (ho : env.late = true → o.context = []) :
    elements env rec ctx (.statement f ps o data :: ns) =
      trailingRemark ⟨f, ps, o⟩ >>= fun _ =>
        elements env rec ctx (.call f ps o :: data :: ns) := by
  rw [elements_cons, element_statement]
  by_cases hset : f = setName
  · subst hset
    rw [trailingRemark, if_pos rfl, if_pos (.inl rfl), pure_bind, elements_binding,
      Walk.bind_assoc]
    rfl
  have htakes : takesNoData env f = true := hf.resolve_left hset
  rw [if_neg hset, if_pos htakes]
  by_cases hinclude : f = includeName
  · rw [if_neg (fun hne => hne hinclude), trailingRemark, if_pos (.inr hinclude), pure_bind]
    exact elementAnd_after ps data ns hset ho
  · rw [if_pos hinclude, trailingRemark, if_neg (not_or.mpr ⟨hset, hinclude⟩),
      Walk.bind_assoc]
    congr 1
    funext _
    exact elementAnd_after ps data ns hset ho

/-- A remark on data does not show without the remarks. -/
theorem unremarked_trailingRemark {β : Type} (c : Call) (m : Walk β) :
    unremarked (trailingRemark c >>= fun _ => m) = unremarked m := by
  unfold trailingRemark
  split
  · rfl
  · exact unremarked_remark_bind _ _ _

/-- What comes after an element is compared in any context, since the element may bind. -/
theorem unremarked_elements_cons (n : Node) {ms ns : List Node}
    (h : ∀ c, unremarked (elements env rec c ms) = unremarked (elements env rec c ns)) :
    unremarked (elements env rec ctx (n :: ms)) = unremarked (elements env rec ctx (n :: ns)) := by
  have hafter : ∀ r, unremarked (elementsAfter env rec ms r) =
      unremarked (elementsAfter env rec ns r) := by
    rintro ⟨items, c⟩
    cases items with
    | none => rfl
    | some items => rw [elementsAfter, elementsAfter, unremarked_bind, unremarked_bind, h]
  rw [elements_cons, elements_cons, unremarked_bind, unremarked_bind]
  congr 1
  funext r
  exact hafter r

/-- **One element stands for its siblings**: by induction on the chain of data. -/
theorem unremarked_siblings {n : Node} (hn : env.late = true → n.Fresh) {ms ns : List Node}
    (h : ∀ c, unremarked (elements env rec c ms) = unremarked (elements env rec c ns)) (ctx) :
    unremarked (elements env rec ctx (n.siblings (takesNoData env) ++ ms)) =
      unremarked (elements env rec ctx (n :: ns)) := by
  induction n generalizing ctx with
  | token t => exact unremarked_elements_cons _ h
  | call f ps o => exact unremarked_elements_cons _ h
  | block es o => exact unremarked_elements_cons _ h
  | array is o => exact unremarked_elements_cons _ h
  | statement f ps o data _ ih =>
    rw [Node.siblings]
    split
    next hf =>
      have ho : env.late = true → o.context = [] := fun hlate => (hn hlate).origin
      have hdata : env.late = true → data.Fresh := fun hlate => by
        cases hn hlate with
        | statement _ _ hdata => exact hdata
      rw [elements_statement ps data ns hf ho, unremarked_trailingRemark]
      exact unremarked_elements_cons _ (ih hdata)
    next => exact unremarked_elements_cons _ h

/-- All elements stand for their siblings. -/
theorem unremarked_flatMap_siblings {items : List Node}
    (hitems : env.late = true → ∀ n ∈ items, n.Fresh) (ctx : Context) :
    unremarked (elements env rec ctx (items.flatMap (Node.siblings (takesNoData env)))) =
      unremarked (elements env rec ctx items) := by
  induction items generalizing ctx with
  | nil => rfl
  | cons n ns ih =>
    have hn : env.late = true → n.Fresh := fun hlate => hitems hlate n List.mem_cons_self
    have hns : env.late = true → ∀ n ∈ ns, n.Fresh := fun hlate n hn =>
      hitems hlate n (List.mem_cons_of_mem _ hn)
    rw [List.flatMap_cons]
    exact unremarked_siblings hn (ih hns) ctx

/-! ### Bindings in front -/

/-- A binding whose name and value are there is made. -/
theorem bind_of_ready {name value : Node} (o : Origin) {key : Token} {out : Outcome} {v : Node}
    {s : WalkState}
    (hname : ((evaluator env rec).requireToken name ctx s).answer = .ok (.ok key))
    (hvalue : (visit env rec value ctx
      ((evaluator env rec).requireToken name ctx s).state).answer = .ok out)
    (hv : out.toNode? value.origin = some v) :
    (bind env rec ⟨setName, [name, value], o⟩ ctx s).answer = .ok (ctx.bind key v) ∧
      (bind env rec ⟨setName, [name, value], o⟩ ctx s).state =
        (visit env rec value ctx ((evaluator env rec).requireToken name ctx s).state).state := by
  unfold bind
  simp only [bind_ok hname, bind_ok hvalue, hv]
  exact ⟨rfl, rfl⟩

/-- **Data after a binding, and everything behind it, is reduced with the binding**, if its name and
its value are there. -/
theorem elements_bound {name value : Node} (o : Origin) (data : Node) (ns : List Node)
    {key : Token} {out : Outcome} {v : Node} {s : WalkState}
    (hname : ((evaluator env rec).requireToken name ctx s).answer = .ok (.ok key))
    (hvalue : (visit env rec value ctx
      ((evaluator env rec).requireToken name ctx s).state).answer = .ok out)
    (hv : out.toNode? value.origin = some v) :
    ∃ before, elements env rec ctx (.statement setName [name, value] o data :: ns) s =
      let s' := (visit env rec value ctx
        ((evaluator env rec).requireToken name ctx s).state).state
      let rest := elements env rec (ctx.bind key v) (data :: ns) s'
      ⟨rest.answer, rest.state, before ++ rest.notes⟩ := by
  obtain ⟨hanswer, hstate⟩ := bind_of_ready o hname hvalue hv
  refine ⟨(bind env rec ⟨setName, [name, value], o⟩ ctx s).notes, ?_⟩
  rw [elements_cons, element_statement, if_pos rfl, Walk.bind_assoc, bind_ok hanswer, hstate,
    ← elements_cons]

/-- **Data after a call that takes none is the next sibling.** In either pass, in any context and
with any host, a sequence of fresh elements comes to the same items as that of their siblings, with
the same random numbers drawn and the same things remembered, and with the same diagnostics and
questions in the same order. Data after a binding that can be made, and everything behind it, is
reduced in a context where the name is bound to the value. -/
theorem elements_siblings (env : Surroundings) (rec : Reducer) (ctx : Context) (items : List Node)
    (hitems : env.late = true → ∀ n ∈ items, n.Fresh) (s : WalkState) :
    (let apart := elements env rec ctx (items.flatMap (Node.siblings (takesNoData env))) s
      let joined := elements env rec ctx items s
      apart.answer = joined.answer ∧ apart.state = joined.state ∧
        unremarkedNotes apart.notes = unremarkedNotes joined.notes) ∧
    ∀ (name value : Node) (o : Origin) (data : Node) (ns : List Node) (key : Token)
      (out : Outcome) (v : Node),
      let named := (evaluator env rec).requireToken name ctx s
      let valued := visit env rec value ctx named.state
      named.answer = .ok (.ok key) → valued.answer = .ok out →
        out.toNode? value.origin = some v →
        (∀ t : Token, (t == key) = true → (ctx.bind key v).get? t = some v) ∧
        ∃ before, elements env rec ctx (.statement setName [name, value] o data :: ns) s =
          let rest := elements env rec (ctx.bind key v) (data :: ns) valued.state
          ⟨rest.answer, rest.state, before ++ rest.notes⟩ := by
  have hsame : unremarked (elements env rec ctx
      (items.flatMap (Node.siblings (takesNoData env)))) s =
      unremarked (elements env rec ctx items) s :=
    congrFun (unremarked_flatMap_siblings hitems ctx) s
  have hanswer := congrArg Walked.answer hsame
  have hstate := congrArg Walked.state hsame
  have hnotes := congrArg Walked.notes hsame
  refine ⟨⟨hanswer, hstate, hnotes⟩, ?_⟩
  intro name value o data ns key out v named valued hname hvalue hv
  exact ⟨fun t ht => Context.get?_bind_of_beq ht, elements_bound o data ns hname hvalue hv⟩

set_option maxRecDepth 4000 in
/-- A binding, a choice and a read are one element of a text, and give what they give as three. -/
theorem elements_siblings_chain :
    let env : Surroundings :=
      ⟨.builtin, .plain (fun _ => none) fun _ => none, .standard, true, ["main.txt"], 100⟩
    let items := (parseText "Set^(x; a) Choose([b]) ^(x); ^(x)" "main.txt" "id").1
    let siblings := items.flatMap (Node.siblings (takesNoData env))
    let s : WalkState := ⟨.standard 0, []⟩
    let apart := elements env (inContext 100) [] siblings s
    let joined := elements env (inContext 100) [] items s
    items.length = 2 ∧ siblings.length = 4 ∧
      (joined.answer.toOption.join.map fun ns => ns.map (·.token?.map (·.value))) =
        some [some "b", some "a", some "a"] ∧
      apart.answer = joined.answer ∧ apart.state = joined.state ∧
      unremarkedNotes apart.notes = unremarkedNotes joined.notes := by
  intro env items siblings s apart joined
  have hfresh : env.late = true → ∀ n ∈ items, n.Fresh := fun _ => fresh_parseText _ _ _
  obtain ⟨hsame, -⟩ := elements_siblings env (inContext 100) [] items hfresh s
  exact ⟨by decide +kernel, by decide +kernel, by decide +kernel, hsame⟩

end Reduce

end ContentLang
