import ContentLang.Proofs.Inlining.Inlined
import ContentLang.Proofs.Scoping.Root

/-!
# Including is inlining

A file is loaded to the same root if what another file holds stands in it, instead of an include of
that file (`ContentLang.Engine.root_inlined`). In the text that is written so, the nodes stand
elsewhere, and those of the included file are in another file; but they are twins of what was put in
the place of the include, if both files are in one directory (`ContentLang.Node.twin_of_same`).

The two loading passes need not be nested alike. That the tree with the file in it comes to
something at all is that loading terminates, and both passes are compared with that.
-/

namespace ContentLang

open Walk

namespace Reduce

variable {env : Surroundings} {ctx ctx' : Context}

/-! ### Any limits -/

theorem Inlinable.upTo {file : String} {items : List Node} (h : Inlinable env file items)
    (limit : Nat) : Inlinable (env.upTo limit) file items :=
  ⟨h.acyclic, h.depth, h.text, h.includesNothing, h.bindsNothing⟩

theorem LeadsTo.upTo {ns : List Node} (h : LeadsTo env ctx ns ctx') (limit : Nat) :
    LeadsTo (env.upTo limit) ctx ns ctx' := by
  induction h with
  | nil => exact .nil _
  | cons h _ ih => exact .cons h ih

section

variable {path : Token} {o : Origin} {items : List Node}

theorem Inlines.upTo {m n : Node} (h : Inlines env path o items ctx m n) (limit : Nat) :
    Inlines (env.upTo limit) path o items ctx m n := by
  induction h with
  | file hbefore hprocessed => exact .file (hbefore.upTo limit) hprocessed
  | item hbefore _ ih => exact .item (hbefore.upTo limit) ih
  | entry _ ih => exact .entry ih
  | param _ ih => exact .param ih
  | head _ ih => exact .head ih
  | data hf _ ih => exact .data hf ih
  | bound hbind _ ih => exact .bound hbind ih

variable (hfile : Inlinable env (Path.resolve o.location.file path.value) items)
include hfile

/-- **A tree comes to the same with a file in the place of an include**, and so does a twin of what
it is then. -/
theorem concur_inlined (hlate : env.late = false) (hregistry : env.registry = .builtin)
    {m n k : Node} (h : Inlines env path o items .empty m n) (hsame : n.Twin k)
    (limit limit' : Nat) :
    Concur Outcome.Twin (reduce (env.upTo limit) m .empty) (reduce (env.upTo limit') k .empty) := by
  have hloads : env.Loads := Surroundings.loads_builtin hlate hregistry
  have halong : ∀ l l', (env.upTo l).Alongside (env.upTo l') := fun l _ =>
    ⟨hloads.upTo l, fun e he => Function.meansTwins_builtin e (hregistry ▸ he), hlate, rfl, rfl,
      rfl⟩
  have hempty : Context.Laid env.registry noneShunned .empty := by
    simp [Context.Laid, Context.empty]
  have haligned : Context.Aligned env.registry .empty .empty := .refl hempty
  -- The tree with the file in it comes to something, within some limit.
  obtain ⟨out, l, hl⟩ := (terminating_loads hloads hregistry n).node .empty hempty
  have hrun : ∃ s, (inContext l (env.upTo l) n .empty s).answer = .ok out :=
    ⟨⟨⟨fun _ => 0, 0⟩, []⟩, hl l l (Nat.le_refl l) (Nat.le_refl l) _⟩
  have hfirst : Accord limit l (env.upTo limit) (env.upTo l) .empty .empty m n :=
    (inlines_accord (halong limit l) rfl (hfile.upTo limit) (h.upTo limit)).node limit l
      ⟨haligned, haligned⟩
  have hsecond : Accord l limit' (env.upTo l) (env.upTo limit') .empty .empty n k :=
    twins_accord l limit' (halong l limit') (.inl rfl) hsame haligned
  have hreduce : ∀ limit node, reduce (env.upTo limit) node .empty =
      inContext limit (env.upTo limit) node .empty := fun limit _ =>
    visit_loading (show (env.upTo limit).late = false from hlate) _ _ _
  rw [hreduce, hreduce]
  exact (hfirst.trans hsecond hrun).imp fun _ _ h => h.1.trans h.2

end

end Reduce

namespace Engine

variable {e : Engine}

/-- **Whether two operations load files with roots that say the same**: whatever files they come to,
under any limits; and each comes to one if walks may be nested deep enough. -/
def LoadSame (e : Engine) (operation operation' : Engine → Reply Loaded) : Prop :=
  (∀ limit limit' l l', (operation (e.upTo limit)).answer = .ok l →
      (operation' (e.upTo limit')).answer = .ok l' → l.root.same l'.root = true) ∧
    ∃ n, ∀ limit, n ≤ limit → (∃ l, (operation (e.upTo limit)).answer = .ok l) ∧
      ∃ l', (operation' (e.upTo limit)).answer = .ok l'

section

variable (hregistry : e.registry = .builtin) {file : String} {path : Token} {o : Origin}
  {items : List Node}
  (hfile : Reduce.Inlinable (e.surroundings false file) (Path.resolve o.location.file path.value)
    items)
include hregistry hfile

/-- Trees that come to twins are processed to roots that say the same. -/
theorem process_inlined {l l' : Loaded} (hl : l.file = file) (hl' : l'.file = file) {n : Node}
    (h : Reduce.Inlines (e.surroundings false file) path o items .empty l.source n)
    (hsame : n.Twin l'.source) : e.LoadSame (·.process l) (·.process l') := by
  refine ⟨fun limit limit' r r' hr hr' => ?_, ?_⟩
  · have hreduce := Reduce.concur_inlined hfile rfl hregistry h hsame limit limit'
    have hroot : Concur Node.Twin ((e.upTo limit).processed l.file l.source)
        ((e.upTo limit').processed l'.file l'.source) := by
      rw [hl, hl']
      refine concur_map (hreduce.known (Reduce.ready_visit (Reduce.ready_inContext limit) rfl _)
        (Reduce.ready_visit (Reduce.ready_inContext limit') rfl _)) fun a b hab => ?_
      obtain ⟨hab, ha, -⟩ := hab
      have hnode := hab.toNode? l.source.origin l'.source.origin
      obtain ⟨m, hm⟩ := Outcome.toNode?_of_ready ha l.source.origin
      rw [hm] at hnode ⊢
      generalize b.toNode? l'.source.origin = q at hnode ⊢
      cases hnode with
      | some hnode => exact hnode
    exact (hroot _ _ _ _ (process_root hr) (process_root hr')).same
  · obtain ⟨k, hk⟩ := process_comes hregistry l
    obtain ⟨k', hk'⟩ := process_comes hregistry l'
    exact ⟨max k k', fun limit hlimit => ⟨hk limit (by omega), hk' limit (by omega)⟩⟩

end

/-- **Including is inlining.** Let a file be neither being processed nor too deep where it is
included, include nothing, and bind nothing for what comes after its elements. Let a tree hold the
include as an item of a sequence, its root or an array, and let the elements of the file stand there
in another tree; or, if what they come to is exactly one array, the elements of that array. They may
be those nodes, or twins of them, as in a text of the same directory. Then both trees are loaded to
roots that say the same, from texts or once more. There is such another tree for every one that
holds the include. -/
theorem root_inlined (e : Engine) (hregistry : e.registry = .builtin) (file : String) (path : Token)
    (o : Origin) (items : List Node)
    (hfile : Reduce.Inlinable (e.surroundings false file) (Path.resolve o.location.file path.value)
      items) :
    (∀ text text' n,
      Reduce.Inlines (e.surroundings false file) path o items .empty (e.read text file).source n →
        n.Twin (e.read text' file).source →
          e.LoadSame (·.loadText text file) (·.loadText text' file)) ∧
    (∀ l l' n, l.file = file → l'.file = file →
      Reduce.Inlines (e.surroundings false file) path o items .empty l.source n →
        n.Twin l'.source → e.LoadSame (·.refresh l) (·.refresh l')) ∧
    ∀ m, Node.ItemOf (.call includeName [.token path] o) m →
      ∃ n, Reduce.Inlines (e.surroundings false file) path o items .empty m n := by
  refine ⟨fun text text' n h hsame => ?_, fun l l' n hl hl' h hsame => ?_, fun m h => ?_⟩
  · -- What functions remember is forgotten first, on either side.
    have hload := process_inlined (e := e.forgetful) hregistry hfile rfl rfl h hsame
    exact ⟨fun limit limit' l l' hl hl' => hload.1 limit limit' l l' hl hl', hload.2⟩
  · have hload := process_inlined hregistry hfile hl hl' h hsame
    exact ⟨fun limit limit' r r' hr hr' => hload.1 limit limit' r r' hr hr', hload.2⟩
  · have hempty : Context.Laid e.registry noneShunned .empty := by
      simp [Context.Laid, Context.empty]
    exact Reduce.exists_inlines (Surroundings.loads_builtin rfl hregistry) hregistry items h hempty

/-- In a text that binds `L` to the array of `a` and `b`, the include of a file that is `^(L)` is
inlined as `a` and `b`, and that of one that is `@(pic); Choose(^(L))` as what it holds. -/
theorem root_inlined_list :
    let o : Origin := .written (.startOf "lib/main") 0
    let word (s : String) : Node := .token (.content s o)
    let tree (items : List Node) : Node :=
      .array [.call setName [word "L", .array [word "a", word "b"] o] o, .array items o] o
    let loaded (items : List Node) : Loaded := ⟨"lib/main", tree items, tree items, []⟩
    let e := Engine.start .standard (.plain (fun _ => none) fun f =>
      if f = "lib/list" then some "^(L)" else
        if f = "lib/more" then some "@(pic); Choose(^(L))" else none) 0
    e.registry = .builtin ∧
      e.LoadSame (·.refresh (loaded [word "x", .call includeName [word "list"] o, word "z"]))
        (·.refresh (loaded [word "x", word "a", word "b", word "z"])) ∧
      e.LoadSame (·.refresh (loaded [word "x", .call includeName [word "more"] o]))
        (·.refresh (loaded [word "x", .call "@" [word "pic"] o,
          .call "Choose" [.call "^" [word "L"] o] o])) := by
  intro o word tree loaded e
  let env := e.surroundings false "lib/main"
  let binding : Node := .call setName [word "L", .array [word "a", word "b"] o] o
  let binds (k l : Nat) : Walk (Option (List Node) × Context) :=
    Reduce.element (env.upTo l) (Reduce.inContext k) .empty binding
  let bound := (binds 5 5 e.state).answer.toOption.getD (none, .empty)
  let file (path : String) : String := Path.resolve "lib/main" path
  let items (path text : String) : List Node := (parseText text (file path) e.settings.uniqueId).1
  let comes (path text : String) (k l : Nat) : Walk (Option (List Node)) :=
    Reduce.elements ((env.upTo l).within (file path)) (Reduce.inContext k) bound.2 (items path text)
  let found (path text : String) := (comes path text 5 5 e.state).answer.toOption.getD none
  have hinlines : ∀ (path text : String) (after : List Node),
      ((comes path text 5 5 e.state).answer.toOption.isSome && (found path text).isSome) = true →
        Reduce.Inlines env (.content path o) o (items path text) .empty
          (tree (word "x" :: .call includeName [word path] o :: after))
          (tree (word "x" ::
            (Reduce.inlined (items path text) ((found path text).getD []) ++ after))) := by
    intro path text after hrun
    obtain ⟨hrun, hsome⟩ := Bool.and_eq_true_iff.mp hrun
    have hfound : Finds (comes path text) (found path text) := finds_run 5 5 e.state none hrun
    obtain ⟨is, his⟩ := Option.isSome_iff_exists.mp hsome
    rw [his] at hfound ⊢
    have hbinds : Finds binds (bound.1, bound.2) := finds_run 5 5 e.state (none, .empty) rfl
    have hbound : Reduce.LeadsTo env .empty [binding] bound.2 := .cons hbinds (.nil bound.2)
    have hword : Reduce.LeadsTo env bound.2 [word "x"] bound.2 :=
      .cons ⟨5, 0, e.state, rfl⟩ (.nil _)
    exact @Reduce.Inlines.item _ _ _ _ _ _ _ [] _ _ _ hbound (.file hword hfound)
  have hlist := root_inlined e rfl "lib/main" (.content "list" o) o (items "list" "^(L)")
    ⟨by decide +kernel, by decide, ⟨_, by decide +kernel, rfl⟩, by decide +kernel,
      by decide +kernel⟩
  have hmore := root_inlined e rfl "lib/main" (.content "more" o) o
    (items "more" "@(pic); Choose(^(L))")
    ⟨by decide +kernel, by decide, ⟨_, by decide +kernel, rfl⟩, by decide +kernel,
      by decide +kernel⟩
  refine ⟨rfl, hlist.2.1 _ _ _ rfl rfl (hinlines "list" _ [word "z"] (by decide +kernel)) ?_,
    hmore.2.1 _ _ _ rfl rfl (hinlines "more" _ [] (by decide +kernel)) ?_⟩
  · exact @Node.twin_of_same _ _ (some "lib".toList) (by decide +kernel) (by decide +kernel)
      (by decide +kernel)
  · exact @Node.twin_of_same _ _ (some "lib".toList) (by decide +kernel) (by decide +kernel)
      (by decide +kernel)

end Engine

end ContentLang
