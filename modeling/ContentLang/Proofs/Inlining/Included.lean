import ContentLang.Proofs.Inlining.Moved
import ContentLang.Proofs.Loading.LaterBinding
import ContentLang.Proofs.Loading.Terminating
import ContentLang.Proofs.Walk.InTurn

/-!
# What an include gives

In the loading pass an include of a file gives the same as what can be put in its place
(`ContentLang.Reduce.concur_included`). That depends on what the elements of the file come to there:

* if it is exactly one array, its elements are put there, since they are what the include gives;
* in any other case the elements of the file themselves are (`ContentLang.Reduce.inlined`).

The array of the first case is what the pass made of the file. So its elements are settled, and stay
as they are when they are reduced once more. In the second case the elements are reduced in either
place, with other marks and within other files, which makes no difference if they include nothing
(`ContentLang.Reduce.Inlinable`).

The elements of the file are several elements of the sequence where the include was one. Those after
them are not affected by that, since elements that bind nothing leave the context as it is
(`ContentLang.Reduce.elements_append`).
-/

namespace ContentLang

open Walk

namespace Walk

variable {α : Type} {m : Nat → Nat → Walk α}

/-- **Whether some run comes to an answer**, under some limits. -/
def Finds (m : Nat → Nat → Walk α) (a : α) : Prop := ∃ k l s, (m k l s).answer = .ok a

/-- What a run comes to is found. -/
theorem finds_run (k l : Nat) (s : WalkState) (a : α)
    (h : (m k l s).answer.toOption.isSome = true) :
    Finds m ((m k l s).answer.toOption.getD a) := by
  refine ⟨k, l, s, ?_⟩
  cases hr : (m k l s).answer with
  | error halt => simp [hr, Except.toOption] at h
  | ok b => rfl

/-- What walks come to once the limits are high enough is found. -/
theorem Comes.finds {a : α} (h : Comes m a) : Finds m a := by
  obtain ⟨n, hn⟩ := h
  exact ⟨n, n, ⟨⟨fun _ => 0, 0⟩, []⟩, hn n n (Nat.le_refl n) (Nat.le_refl n) _⟩

end Walk

/-- Under another limit on the left. -/
theorem Surroundings.Alongside.upTo {env env' : Surroundings} (h : env.Alongside env')
    (limit : Nat) : (env.upTo limit).Alongside env' :=
  { h with loads := h.loads.upTo limit }

/-! ### Elements that bind nothing -/

/-- **Whether a node, as an element of a sequence, may bind a name** for what comes after it: it is
a binding, or is followed by one after calls whose data is the next element. -/
def Node.mayBind (takesNoData : String → Bool) : Node → Bool
  | .call f _ _ => f = setName
  | .statement f _ _ data => f = setName || takesNoData f && data.mayBind takesNoData
  | _ => false

namespace Reduce

section

variable (env : Surroundings) (rec : Reducer) (ctx : Context)

/-- A settled element binds nothing. -/
theorem mayBind_of_settled {n : Node} (hn : n.Settled env.registry false) :
    n.mayBind (takesNoData env) = false := by
  cases n with
  | call f ps o =>
    obtain ⟨hrests, -⟩ := Node.settled_call.mp hn
    simp [Node.mayBind, hrests.ne_setName]
  | statement f ps o data =>
    obtain ⟨hrests, ⟨hinclude, hcontains⟩, -⟩ := Node.settled_statement.mp hn
    simp [Node.mayBind, hrests.ne_setName, takesNoData, hinclude, hcontains]
  | _ => rfl

/-- After an element that binds nothing the context is the one before it. -/
theorem gives_context {n : Node} (hn : n.mayBind (takesNoData env) = false) :
    Gives (·.2 = ctx) (element env rec ctx n) := by
  have hplain : ∀ m, Gives (·.2 = ctx) (plainElement env rec ctx m) := fun m =>
    gives_after fun _ => gives_after fun _ => meets_pure rfl
  induction n with
  | token t => exact hplain _
  | block es o => exact hplain _
  | array is o => exact hplain _
  | call f ps o =>
    have hf : f ≠ setName := by simpa [Node.mayBind] using hn
    rw [element, if_neg hf]
    exact hplain _
  | statement f ps o data _ ihdata =>
    obtain ⟨hf, hdata⟩ : f ≠ setName ∧ (takesNoData env f = true →
        data.mayBind (takesNoData env) = false) := by simpa [Node.mayBind] using hn
    have hand : takesNoData env f = true → Gives (·.2 = ctx)
        (elementAnd env rec ctx (.call f ps o) (element env rec ctx data)) := by
      intro htakes
      refine gives_after fun out => gives_after fun out => ?_
      cases out.toItems? with
      | none => exact meets_pure rfl
      | some items => exact meets_map (ihdata (hdata htakes)) fun _ h => h
    rw [element_statement, if_neg hf]
    exact meets_ite (fun htakes => meets_ite (fun _ => gives_after fun _ => hand htakes)
      fun _ => hand htakes) fun _ => hplain _

/-- The nodes that an element gives, whatever it binds. -/
def given (n : Node) : Walk (Option (List Node)) := element env rec ctx n >>= fun r => pure r.1

variable {env rec ctx}

theorem elements_cons_of_bindless {n : Node} (hn : n.mayBind (takesNoData env) = false)
    (ns : List Node) :
    elements env rec ctx (n :: ns) = thenAlso (given env rec ctx n) (elements env rec ctx ns) := by
  rw [elements, given, thenAlso, bind_assoc]
  refine bind_congr fun s r hr => ?_
  obtain ⟨items, c⟩ := r
  obtain rfl : c = ctx := gives_answer (gives_context env rec ctx hn) hr
  cases items <;> rfl

/-- **Elements that bind nothing** leave those after them as they are. -/
theorem elements_append {ns : List Node} (hns : ∀ n ∈ ns, n.mayBind (takesNoData env) = false)
    (ms : List Node) :
    elements env rec ctx (ns ++ ms) =
      thenAlso (elements env rec ctx ns) (elements env rec ctx ms) := by
  induction ns with
  | nil => exact (thenAlso_nil _).symm
  | cons n ns ih =>
    obtain ⟨hn, hns⟩ := List.forall_mem_cons.mp hns
    rw [List.cons_append, elements_cons_of_bindless hn, ih hns, elements_cons_of_bindless hn,
      thenAlso_assoc]

theorem concur_thenAlso {m m' w w' : Walk (Option (List Node))}
    (h : Concur (Option.Rel (List.Forall₂ Node.Twin)) m w)
    (h' : Concur (Option.Rel (List.Forall₂ Node.Twin)) m' w') :
    Concur (Option.Rel (List.Forall₂ Node.Twin)) (thenAlso m m') (thenAlso w w') := by
  refine concur_bind h fun r r' hr => ?_
  cases hr with
  | none => exact concur_pure .none
  | some hr =>
    refine concur_map h' fun q q' hq => ?_
    cases hq with
    | none => exact .none
    | some hq => exact .some (List.rel_append hr hq)

end

/-! ### What an include gives -/

/-- **Whether a file can be put in the place of an include**: it is neither being processed nor too
deep, and it is there; its elements include nothing, and bind nothing for what comes after them. -/
structure Inlinable (env : Surroundings) (file : String) (items : List Node) : Prop where
  acyclic : file ∉ env.files
  depth : env.files.length ≤ env.settings.maxIncludeDepth
  text : ∃ text, env.host.fileText file = some text ∧
    items = (parseText text file env.settings.uniqueId).1
  includesNothing : ∀ n ∈ items, n.Inert isInclude
  bindsNothing : ∀ n ∈ items, n.mayBind (takesNoData env) = false

/-- Whether nodes are what an include gives of the elements of its file, in some run on them, with
their identities marked. -/
def Included (env : Surroundings) (file : String) (c : Context) (items given : List Node) : Prop :=
  ∃ xs mark k s, (spliced xs).toItems? = some given ∧
    (elements (env.within file) (inContext k) c (Node.markUids mark items) s).answer = .ok (some xs)

section

variable {env : Surroundings} (henv : env.Loads) {l : Nat} {c : Context}
include henv

theorem gives_includeText {file text : String} (call : Call) :
    Gives (fun out => ∃ given, out.toItems? = some given ∧
        Included env file c (parseText text file env.settings.uniqueId).1 given)
      (includeText env (inContext l) call file text c) := by
  have hwithin : (env.within file).late = false := henv.late
  refine gives_after fun _ => gives_after fun _ =>
    meets_bind (ready_elements (ready_inContext l) hwithin _).here fun r hr => ?_
  obtain ⟨⟨xs, rfl⟩, s, hrun⟩ := hr
  obtain ⟨given, hgiven⟩ := Outcome.toItems?_of_ready (spliced_ne_pending xs)
  exact meets_pure ⟨given, hgiven, xs, _, l, s, hgiven, hrun⟩

theorem gives_includeFile {file : String} {items : List Node} (hfile : Inlinable env file items)
    (call : Call) :
    Gives (fun out => ∃ given, out.toItems? = some given ∧ Included env file c items given)
      (includeFile env (inContext l) call file c) := by
  obtain ⟨text, htext, rfl⟩ := hfile.text
  have hask : Gives (· = some text) (Walk.askFile env.host file) := fun _ _ =>
    ⟨fun h => h.elim, fun _ _ => trivial, fun h => h.elim, fun a ha =>
      (Except.ok.inj ha).symm.trans htext⟩
  rw [includeFile_eq]
  refine meets_ite (fun h => absurd h (by simp [hfile.acyclic])) fun _ =>
    meets_ite (fun h => absurd hfile.depth (Nat.not_le.mpr h)) fun _ =>
      meets_bind hask fun r hr => ?_
  subst hr
  exact gives_includeText henv call

/-- **An include gives the elements of its file**, or those of their only array. -/
theorem gives_included (path : Token) (o : Origin) {items : List Node}
    (hfile : Inlinable env (Path.resolve o.location.file path.value) items) :
    Gives (fun r => ∃ given, r = some given ∧
        Included env (Path.resolve o.location.file path.value) c items given)
      (given env (inContext l) c (.call includeName [.token path] o)) := by
  have hnode : Gives (fun out => ∃ given, out.toItems? = some given ∧
      Included env (Path.resolve o.location.file path.value) c items given)
      (visit env (inContext l) (.call includeName [.token path] o) c) := by
    rw [visit_loading henv.late]
    cases l with
    | zero => exact meets_halt _ id
    | succ l =>
      have hcall : Gives (fun out => ∃ given, out.toItems? = some given ∧
          Included env (Path.resolve o.location.file path.value) c items given)
          (includeCall env (inContext l) ⟨includeName, [.token path], o⟩ c) := by
        refine meets_ite (fun h => absurd h (by simp [Arity.accepts])) fun _ =>
          meets_bind (meets_requireToken_token henv path) fun r hr => ?_
        subst hr
        exact gives_includeFile henv hfile _
      exact meets_bind hcall fun _ h => meets_pure h
  refine meets_map (meets_plainElement hnode) fun r hr => ?_
  obtain ⟨given, rfl, h⟩ := hr
  exact ⟨given, rfl, h⟩

end

/-! ### What is put in its place -/

/-- **What is put in the place of an include**, given the elements of the file and what they come
to: the elements of the only array, if it is one, or else those of the file. -/
def inlined (items : List Node) : List Node → List Node
  | [.array is _] => is
  | _ => items

theorem inlined_of_ne {items processed : List Node} (h : ∀ is o, processed ≠ [.array is o]) :
    inlined items processed = items := by
  unfold inlined
  split
  · exact absurd rfl (h _ _)
  · rfl

theorem spliced_of_ne {items : List Node} (h : ∀ is o, items ≠ [.array is o]) :
    spliced items = .ofItems items := by
  unfold spliced
  split
  · exact absurd rfl (h _ _)
  · rfl

theorem toItems?_ofItems (items : List Node) : (Outcome.ofItems items).toItems? = some items := by
  cases items with
  | nil => rfl
  | cons n ns => cases ns <;> rfl

section

variable {env : Surroundings} (henv : env.Loads) {ctx : Context}
  (hctx : ctx.Laid env.registry noneShunned) {file : String} {items processed : List Node}
  (hprocessed : Finds (fun k l => elements ((env.upTo l).within file) (inContext k) ctx items)
    (some processed))
include henv hctx hprocessed

/-- What the elements of a file come to is settled. -/
theorem laid_processed : ∀ n ∈ processed, n.Laid env.registry noneShunned := by
  obtain ⟨k, l, s, hrun⟩ := hprocessed
  have hwithin : ((env.upTo l).within file).Loads := ⟨henv.late, henv.orderly⟩
  obtain ⟨_, heq, h⟩ := gives_answer (gives_of_loading (settles_elements
    (settles_inContext noneShunned k) (blind_inContext k) hwithin hctx
      fun n _ => n.inert_noneShunned)) hrun
  obtain rfl := Option.some.inj heq
  exact h

theorem bindsNothing_inlined (hfile : Inlinable env file items) :
    ∀ n ∈ inlined items processed, n.mayBind (takesNoData env) = false := by
  have hlaid := laid_processed henv hctx hprocessed
  unfold inlined
  split
  next is o =>
    have his := Node.closed_laid.array.mp (hlaid (.array is o) (by simp))
    exact fun n hn => mayBind_of_settled env (his n hn).1
  next => exact hfile.bindsNothing

end

section

variable {env env' : Surroundings} (henv : env.Alongside env') {c d : Context}
include henv

/-- Settled elements come to themselves, if walks may be nested deep enough. -/
theorem finds_settled {is : List Node} (h : ∀ i ∈ is, i.Laid env.registry noneShunned)
    (c : Context) (s : WalkState) :
    ∃ k l ms, (elements (env.upTo l) (inContext k) c is s).answer = .ok (some ms) ∧
      Alike is ms := by
  let depth := (Node.array is .unwritten).depth
  have hkept : ∀ i ∈ is, Kept depth (env.upTo depth) True i := fun i hi =>
    ⟨henv.loads.late ▸ (h i hi).1, fun _ => Node.depth_array_le.mp (Nat.le_succ _) i hi⟩
  have hrun : Still True (fun r => ∃ ms, r = some ms ∧ Alike is ms)
      (elements (env.upTo depth) (inContext depth) c is) :=
    meets_elements listwise_alike fun i hi =>
      still_element (still_inContext depth) (fun _ => Nat.le_refl depth) c (hkept i hi)
  obtain ⟨-, -, hends, hanswer⟩ := hrun s fun _ _ => trivial
  obtain ⟨r, hr⟩ := hends trivial
  obtain ⟨ms, rfl, hms⟩ := hanswer r hr
  exact ⟨depth, depth, ms, hr, hms⟩

/-- The elements of the only array of a file stay as they are in the place of the include. -/
theorem twins_settled (hfiles : env.files = env'.files) {is ys : List Node}
    (hlaid : ∀ i ∈ is, i.Laid env.registry noneShunned) (hd : d.Laid env.registry noneShunned)
    {l' : Nat} {s : WalkState}
    (h : (elements env' (inContext l') d is s).answer = .ok (some ys)) :
    List.Forall₂ Node.Twin is ys := by
  obtain ⟨k, l, ms, hrun, hms⟩ := finds_settled henv hlaid d s
  have halong := henv.upTo l
  have hrel := concur_elements halong (twins_accord k l' halong) (Context.Aligned.refl hd)
    (fun _ _ => .inl hfiles) (Node.twins_refl is) s s _ _ hrun h
  cases hrel with
  | some hys => exact Node.twins_trans hms.twins hys

variable {ctx : Context} {file : String} {items processed : List Node}
  (hprocessed : Finds (fun k l => elements ((env.upTo l).within file) (inContext k) ctx items)
    (some processed))
include hprocessed

/-- An include gives what the elements of its file come to, with their only array spliced. -/
theorem twins_included (hc : ctx.Aligned env.registry c) {given : List Node}
    (h : Included env file c items given) :
    ∃ is, (spliced processed).toItems? = some is ∧ List.Forall₂ Node.Twin given is := by
  obtain ⟨xs, mark, k, s, hgiven, hxs⟩ := h
  obtain ⟨k₀, l₀, s₀, hrun⟩ := hprocessed
  have halong := (henv.self.upTo l₀).within file
  have hmarked : List.Forall₂ Node.Twin items (Node.markUids mark items) :=
    (Node.alike_markUids mark items).twins
  have hrel := concur_elements halong (twins_accord k₀ k halong) hc (fun _ _ => .inl rfl) hmarked
    s₀ s _ _ hrun hxs
  cases hrel with
  | some h =>
    have hitems := (twin_spliced h).toItems?
    rw [hgiven] at hitems
    generalize (spliced processed).toItems? = r at hitems ⊢
    cases hitems with
    | some hitems => exact ⟨_, rfl, Node.twins_symm hitems⟩

/-- The elements of a file come to the same in the place of the include, though they are reduced
within other files there. -/
theorem twins_inPlace (hd : ctx.Aligned env.registry d) (hfile : Inlinable env file items)
    {ys : List Node} {l' : Nat} {s : WalkState}
    (h : (elements env' (inContext l') d items s).answer = .ok (some ys)) :
    List.Forall₂ Node.Twin processed ys := by
  obtain ⟨k₀, l₀, s₀, hrun⟩ := hprocessed
  have halong := (henv.upTo l₀).enters file
  have hrel := concur_elements halong (twins_accord k₀ l' halong) hd
    (fun n hn => .inr (hfile.includesNothing n hn)) (Node.twins_refl items) s₀ s _ _ hrun h
  cases hrel with
  | some hys => exact hys

/-- What is put in the place of an include comes to what the elements of the file come to, with
their only array spliced. -/
theorem twins_inlined (hfiles : env.files = env'.files) (hd : ctx.Aligned env.registry d)
    (hfile : Inlinable env file items) {is ys : List Node}
    (his : (spliced processed).toItems? = some is) {l' : Nat} {s : WalkState}
    (h : (elements env' (inContext l') d (inlined items processed) s).answer = .ok (some ys)) :
    List.Forall₂ Node.Twin is ys := by
  by_cases harray : ∃ js o, processed = [.array js o]
  · obtain ⟨js, o, rfl⟩ := harray
    have hlaid := laid_processed henv.loads hd.left hprocessed (.array js o) (by simp)
    obtain rfl : js = is := Option.some.inj his
    exact twins_settled henv hfiles (Node.closed_laid.array.mp hlaid) hd.right h
  · have hne : ∀ js o, processed ≠ [.array js o] := fun js o h => harray ⟨js, o, h⟩
    rw [spliced_of_ne hne, toItems?_ofItems] at his
    obtain rfl : processed = is := Option.some.inj his
    rw [inlined_of_ne hne] at h
    exact twins_inPlace henv hprocessed hd hfile h

end

/-- **What an include gives and what is put in its place come to twins.** -/
theorem concur_included {env env' : Surroundings} (henv : env.Alongside env')
    (hfiles : env.files = env'.files) {ctx c d : Context} (hc : ctx.Aligned env.registry c)
    (hd : ctx.Aligned env.registry d) {l l' : Nat} {path : Token} {o : Origin}
    {items processed : List Node}
    (hfile : Inlinable env (Path.resolve o.location.file path.value) items)
    (hprocessed : Finds (fun k l => elements
      ((env.upTo l).within (Path.resolve o.location.file path.value)) (inContext k) ctx items)
      (some processed)) :
    Concur (Option.Rel (List.Forall₂ Node.Twin))
      (given env (inContext l) c (.call includeName [.token path] o))
      (elements env' (inContext l') d (inlined items processed)) := by
  intro s s' r r' hr hr'
  obtain ⟨given, rfl, hgiven⟩ := gives_answer (gives_included henv.loads path o hfile) hr
  obtain ⟨ys, rfl⟩ := gives_answer (ready_elements (ready_inContext l') henv.late _) hr'
  obtain ⟨is, his, hsame⟩ := twins_included henv hprocessed hc hgiven
  exact .some (Node.twins_trans hsame (twins_inlined henv hprocessed hfiles hd hfile his hr'))

end Reduce

end ContentLang
