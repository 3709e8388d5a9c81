import ContentLang.Proofs.Inlining.Included

/-!
# Files in the place of their includes

In the loading pass a tree comes to the same if a file is put in the place of an include that is an
item of one of its sequences (`ContentLang.Reduce.inlines_accord`). Which bindings hold at the item
depends on what comes before it in its sequence, and around it. So the replacement is described
along the path from the root of the tree to the item, with the context at each node of the path
(`ContentLang.Reduce.Inlines`).

These contexts are those that some run comes to. A run with other limits, or on twins, comes to
contexts that are aligned with them. So each node of the path is looked at with any two contexts
around the one that was found (`ContentLang.Reduce.AccordAround`).

There are such contexts for each place, since the loading pass terminates. So a file that can be put
in the place of an include can be put there wherever it is an item of a sequence
(`ContentLang.Reduce.exists_inlines`).
-/

namespace ContentLang

open Walk

/-- **Whether a node is an item of some sequence in a tree.** -/
inductive Node.ItemOf (item : Node) : Node → Prop
  | here (before after : List Node) (o : Origin) : ItemOf item (.array (before ++ item :: after) o)
  | item {before after : List Node} {m : Node} {o : Origin} (h : ItemOf item m) :
    ItemOf item (.array (before ++ m :: after) o)
  | entry {before after : List (Token × Node)} {key : Token} {m : Node} {o : Origin}
    (h : ItemOf item m) : ItemOf item (.block (before ++ (key, m) :: after) o)
  | param {f : String} {before after : List Node} {m : Node} {o : Origin} (h : ItemOf item m) :
    ItemOf item (.call f (before ++ m :: after) o)
  | head {f : String} {before after : List Node} {m : Node} {o : Origin} {data : Node}
    (h : ItemOf item m) : ItemOf item (.statement f (before ++ m :: after) o data)
  | data {f : String} {ps : List Node} {o : Origin} {m : Node} (h : ItemOf item m) :
    ItemOf item (.statement f ps o m)

namespace Reduce

/-- **Whether elements lead from one context to another one**: they leave it when they are reduced
one after the other. -/
inductive LeadsTo (env : Surroundings) : Context → List Node → Context → Prop
  | nil (ctx : Context) : LeadsTo env ctx [] ctx
  | cons {ctx ctx' ctx'' : Context} {n : Node} {ns : List Node} {items : Option (List Node)}
    (h : Finds (fun k l => element (env.upTo l) (inContext k) ctx n) (items, ctx'))
    (hns : LeadsTo env ctx' ns ctx'') : LeadsTo env ctx (n :: ns) ctx''

/-- **Whether one tree is another one with a file in the place of an include** that is an item of a
sequence, where the trees are reduced in a context. The include has the given path and origin, and
the file the given elements. -/
inductive Inlines (env : Surroundings) (path : Token) (o : Origin) (items : List Node) :
    Context → Node → Node → Prop
  | file {ctx ctx' : Context} {before after processed : List Node} {o' : Origin}
    (hbefore : LeadsTo env ctx before ctx')
    (hprocessed : Finds (fun k l => elements
      ((env.upTo l).within (Path.resolve o.location.file path.value)) (inContext k) ctx' items)
      (some processed)) :
    Inlines env path o items ctx (.array (before ++ .call includeName [.token path] o :: after) o')
      (.array (before ++ (inlined items processed ++ after)) o')
  | item {ctx ctx' : Context} {before after : List Node} {m n : Node} {o' : Origin}
    (hbefore : LeadsTo env ctx before ctx') (h : Inlines env path o items ctx' m n) :
    Inlines env path o items ctx (.array (before ++ m :: after) o')
      (.array (before ++ n :: after) o')
  | entry {ctx : Context} {before after : List (Token × Node)} {key : Token} {m n : Node}
    {o' : Origin} (h : Inlines env path o items ctx m n) :
    Inlines env path o items ctx (.block (before ++ (key, m) :: after) o')
      (.block (before ++ (key, n) :: after) o')
  | param {ctx : Context} {f : String} {before after : List Node} {m n : Node} {o' : Origin}
    (h : Inlines env path o items ctx m n) :
    Inlines env path o items ctx (.call f (before ++ m :: after) o')
      (.call f (before ++ n :: after) o')
  | head {ctx : Context} {f : String} {before after : List Node} {m n : Node} {o' : Origin}
    {data : Node} (h : Inlines env path o items ctx m n) :
    Inlines env path o items ctx (.statement f (before ++ m :: after) o' data)
      (.statement f (before ++ n :: after) o' data)
  | data {ctx : Context} {f : String} {ps : List Node} {o' : Origin} {m n : Node}
    (hf : f ≠ setName) (h : Inlines env path o items ctx m n) :
    Inlines env path o items ctx (.statement f ps o' m) (.statement f ps o' n)
  | bound {ctx ctx' : Context} {ps : List Node} {o' : Origin} {m n : Node}
    (hbind : Finds (fun k l => bind (env.upTo l) (inContext k) ⟨setName, ps, o'⟩ ctx) ctx')
    (h : Inlines env path o items ctx' m n) :
    Inlines env path o items ctx (.statement setName ps o' m) (.statement setName ps o' n)

/-! ### Contexts around the one that was found -/

/-- Whether two contexts are aligned with a third one. -/
structure Around (registry : Registry) (ctx c d : Context) : Prop where
  left : ctx.Aligned registry c
  right : ctx.Aligned registry d

theorem Around.aligned {registry : Registry} {ctx c d : Context} (h : Around registry ctx c d) :
    c.Aligned registry d :=
  h.left.symm.trans h.right

/-- **Whether two nodes accord around a context**, each by itself and as an element, whatever the
depths of the two walks. -/
structure AccordAround (env env' : Surroundings) (ctx : Context) (m n : Node) : Prop where
  node : ∀ l l' {c d}, Around env.registry ctx c d → Accord l l' env env' c d m n
  element : ∀ l l' {c d}, Around env.registry ctx c d →
    Concur (TwinElements (Context.Aligned env.registry)) (element env (inContext l) c m)
      (element env' (inContext l') d n)

section

variable {env env' : Surroundings} (henv : env.Alongside env') (hfiles : env.files = env'.files)
  {ctx ctx' : Context}
include henv hfiles

theorem accord_same (l l' : Nat) {c d : Context} (hctx : c.Aligned env.registry d) (n : Node) :
    Accord l l' env env' c d n n :=
  twins_accord l l' henv (.inl hfiles) (.refl n) hctx

/-- One member of a list, beside others that are the same. -/
theorem accord_beside {l l' : Nat} {c d : Context} (hctx : c.Aligned env.registry d) {m n : Node}
    (h : Accord l l' env env' c d m n) (before after : List Node) :
    List.Forall₂ (Accord l l' env env' c d) (before ++ m :: after) (before ++ n :: after) :=
  List.rel_append (List.forall₂_same.mpr fun n _ => accord_same henv hfiles l l' hctx n)
    (.cons h (List.forall₂_same.mpr fun n _ => accord_same henv hfiles l l' hctx n))

/-- An element that was found to lead to a context does so in both walks. -/
theorem concur_leading (l l' : Nat) {c d : Context} (hctx : Around env.registry ctx c d) {n : Node}
    {items : Option (List Node)}
    (h : Finds (fun k l => element (env.upTo l) (inContext k) ctx n) (items, ctx')) :
    Concur (TwinElements (Around env.registry ctx')) (element env (inContext l) c n)
      (element env' (inContext l') d n) := by
  obtain ⟨k, l₀, s, hrun⟩ := h
  have hleft := henv.self.upTo l₀
  have hright := henv.upTo l₀
  have htwins := concur_element henv (twins_accord l l' henv) hctx.aligned (.inl hfiles) (.refl n)
  have hfound := concur_of_run ⟨s, hrun⟩
    (concur_element hleft (twins_accord k l hleft) hctx.left (.inl rfl) (.refl n))
    (concur_element hright (twins_accord k l' hright) hctx.right (.inl hfiles) (.refl n))
  exact (htwins.and hfound).imp fun _ _ h => ⟨h.1.1, h.2.1.2, h.2.2.2⟩

/-- What comes after elements that lead to a context. -/
theorem concur_after_leading {before : List Node} (hbefore : LeadsTo env ctx before ctx')
    {l l' : Nat} {ms ns : List Node} (hrest : ∀ {c d}, Around env.registry ctx' c d →
      Concur (Option.Rel (List.Forall₂ Node.Twin)) (elements env (inContext l) c ms)
        (elements env' (inContext l') d ns))
    {c d : Context} (hctx : Around env.registry ctx c d) :
    Concur (Option.Rel (List.Forall₂ Node.Twin)) (elements env (inContext l) c (before ++ ms))
      (elements env' (inContext l') d (before ++ ns)) := by
  induction hbefore generalizing c d with
  | nil => exact hrest hctx
  | cons h _ ih =>
    exact concur_elements_cons (concur_leading henv hfiles l l' hctx h) fun _ _ => ih hrest

/-- The same elements, one after the other. -/
theorem concur_same (l l' : Nat) {c d : Context} (hctx : c.Aligned env.registry d)
    (ns : List Node) :
    Concur (Option.Rel (List.Forall₂ Node.Twin)) (elements env (inContext l) c ns)
      (elements env' (inContext l') d ns) :=
  concur_elements henv (twins_accord l l' henv) hctx (fun _ _ => .inl hfiles) (Node.twins_refl ns)

/-- A binding that was found to lead to a context does so in both walks. -/
theorem around_bound {l l' : Nat} {c d : Context} (hctx : Around env.registry ctx c d) {f : String}
    {ps : List Node} {o : Origin}
    (h : Finds (fun k l => bind (env.upTo l) (inContext k) ⟨f, ps, o⟩ ctx) ctx') {c' d' : Context}
    (hc : BindsTo l env c ⟨f, ps, o⟩ c') (hd : BindsTo l' env' d ⟨f, ps, o⟩ d') :
    Around env.registry ctx' c' d' := by
  obtain ⟨k, l₀, s, hrun⟩ := h
  obtain ⟨s₁, hc⟩ := hc
  obtain ⟨s₂, hd⟩ := hd
  have hleft := henv.self.upTo l₀
  have hright := henv.upTo l₀
  exact ⟨concur_binding hleft hctx.left (List.forall₂_same.mpr fun p _ =>
      accord_same hleft rfl k l hctx.left p) s s₁ _ _ hrun hc,
    concur_binding hright hctx.right (List.forall₂_same.mpr fun p _ =>
      accord_same hright hfiles k l' hctx.right p) s s₂ _ _ hrun hd⟩

/-! ### One step of the path -/

omit hfiles in
/-- Nodes that are neither calls nor statements are elements as they stand. -/
theorem accordAround_of_node {m n : Node}
    (hm : ∀ rec c, element env rec c m = plainElement env rec c m)
    (hn : ∀ rec d, element env' rec d n = plainElement env' rec d n)
    (h : ∀ l l' {c d}, Around env.registry ctx c d → Accord (l + 1) (l' + 1) env env' c d m n) :
    AccordAround env env' ctx m n := by
  have hnode : ∀ l l' {c d}, Around env.registry ctx c d → Accord l l' env env' c d m n :=
    fun l l' {_ _} hctx => accord_of_succ (fun l l' => h l l' hctx) l l'
  refine ⟨hnode, fun l l' {c d} hctx => ?_⟩
  rw [hm, hn]
  exact concur_plainElement henv (hnode l l' hctx) hctx.aligned

/-- A block with one entry whose value accords. -/
theorem accordAround_entry (before after : List (Token × Node)) (key : Token) {m n : Node}
    (o : Origin) (h : AccordAround env env' ctx m n) :
    AccordAround env env' ctx (.block (before ++ (key, m) :: after) o)
      (.block (before ++ (key, n) :: after) o) := by
  refine accordAround_of_node henv (fun _ _ => rfl) (fun _ _ => rfl) fun l l' {c d} hctx => ?_
  have hsame : ∀ es : List (Token × Node), List.Forall₂ (fun e f => Alike e.1 f.1 ∧
      Accord l l' env env' c d e.2 f.2) es es := fun es =>
    List.forall₂_same.mpr fun e _ => ⟨.refl e.1, accord_same henv hfiles l l' hctx.aligned e.2⟩
  exact accord_block (concur_entries henv (List.rel_append (hsame before)
    (.cons ⟨.refl key, h.node l l' hctx⟩ (hsame after))))

section

variable {m n : Node} (h : AccordAround env env' ctx m n) (f : String) (before after : List Node)
  (o : Origin)
include h

/-- A call with one parameter that accords, with the same data or none. -/
theorem concur_sameData (l l' : Nat) {c d : Context} (hctx : Around env.registry ctx c d)
    (data : Option Node) :
    Concur Outcome.Twin (call env (inContext l) ⟨f, before ++ m :: after, o⟩ data c)
      (call env' (inContext l') ⟨f, before ++ n :: after, o⟩ data d) := by
  have hdata : ∀ {c d}, c.Aligned env.registry d →
      Option.Rel (Accord l l' env env' c d) data data := fun {_ _} hctx => by
    cases data with
    | none => exact .none
    | some data => exact .some (accord_same henv hfiles l l' hctx data)
  exact concur_call henv hctx.aligned
    (accord_beside henv hfiles hctx.aligned (h.node l l' hctx) before after) rfl
    (fun _ => ⟨hfiles, fun file => twins_accord l l' (henv.within file)⟩)
    (fun _ _ _ _ _ hctx' => hdata hctx') fun _ => hdata hctx.aligned

theorem accordAround_param :
    AccordAround env env' ctx (.call f (before ++ m :: after) o)
      (.call f (before ++ n :: after) o) := by
  have hnode : ∀ l l' {c d}, Around env.registry ctx c d → Accord l l' env env' c d
      (.call f (before ++ m :: after) o) (.call f (before ++ n :: after) o) :=
    fun l l' {_ _} hctx => accord_of_succ (fun l l' => by
      exact concur_sameData henv hfiles h f before after o l l' hctx none) l l'
  exact ⟨hnode, fun l l' {_ _} hctx => concur_callElement henv hctx.aligned
    (accord_beside henv hfiles hctx.aligned (h.node l l' hctx) before after) (hnode l l' hctx)⟩

theorem accordAround_head (data : Node) :
    AccordAround env env' ctx (.statement f (before ++ m :: after) o data)
      (.statement f (before ++ n :: after) o data) := by
  have hcall := accordAround_param henv hfiles h f before after o
  have hnode : ∀ l l' {c d}, Around env.registry ctx c d → Accord l l' env env' c d
      (.statement f (before ++ m :: after) o data) (.statement f (before ++ n :: after) o data) :=
    fun l l' {_ _} hctx => accord_of_succ (fun l l' => by
      exact concur_sameData henv hfiles h f before after o l l' hctx (some data)) l l'
  have hsame : ∀ l l' {c d}, c.Aligned env.registry d →
      Concur (TwinElements (Context.Aligned env.registry)) (element env (inContext l) c data)
        (element env' (inContext l') d data) := fun l l' {_ _} hctx =>
    concur_element henv (twins_accord l l' henv) hctx (.inl hfiles) (.refl data)
  exact ⟨hnode, fun l l' {_ _} hctx => concur_statementElement henv hctx.aligned
    (accord_beside henv hfiles hctx.aligned (h.node l l' hctx) before after)
    (hcall.node l l' hctx) (hnode l l' hctx) (fun _ _ _ _ _ hctx' => hsame l l' hctx')
      fun _ => hsame l l' hctx.aligned⟩

end

/-- A statement whose data accords in the contexts that it is reduced in. -/
theorem accordAround_data (f : String) (ps : List Node) (o : Origin) {m n : Node}
    (hbound : f = setName → ∀ l l' {c d c' d'}, Around env.registry ctx c d →
      BindsTo l env c ⟨f, ps, o⟩ c' → BindsTo l' env' d ⟨f, ps, o⟩ d' →
        Accord l l' env env' c' d' m n ∧
          Concur (TwinElements (Context.Aligned env.registry)) (element env (inContext l) c' m)
            (element env' (inContext l') d' n))
    (hdata : f ≠ setName → AccordAround env env' ctx m n) :
    AccordAround env env' ctx (.statement f ps o m) (.statement f ps o n) := by
  have hps : ∀ l l' {c d}, c.Aligned env.registry d →
      List.Forall₂ (Accord l l' env env' c d) ps ps := fun l l' {_ _} hctx =>
    List.forall₂_same.mpr fun p _ => accord_same henv hfiles l l' hctx p
  have hnode : ∀ l l' {c d}, Around env.registry ctx c d →
      Accord l l' env env' c d (.statement f ps o m) (.statement f ps o n) :=
    fun l l' {_ _} hctx => accord_of_succ (fun l l' => by
      exact concur_call henv hctx.aligned (hps l l' hctx.aligned) rfl
        (fun _ => ⟨hfiles, fun file => twins_accord l l' (henv.within file)⟩)
        (fun hf c' d' hc hd _ => .some (hbound hf l l' hctx hc hd).1)
        fun hf => .some ((hdata hf).node l l' hctx)) l l'
  exact ⟨hnode, fun l l' {_ _} hctx => concur_statementElement henv hctx.aligned
    (hps l l' hctx.aligned) (accord_same henv hfiles l l' hctx.aligned _) (hnode l l' hctx)
      (fun hf _ _ hc hd _ => (hbound hf l l' hctx hc hd).2) fun hf => (hdata hf).element l l' hctx⟩

variable {path : Token} {o : Origin} {items : List Node}
  (hfile : Inlinable env (Path.resolve o.location.file path.value) items)
include hfile

/-- **In the loading pass a tree comes to the same if a file is put in the place of an include**: by
itself and as an element, in any contexts that are aligned with the one of the replacement, however
deep the two walks may be nested. -/
theorem inlines_accord {m n : Node} (h : Inlines env path o items ctx m n) :
    AccordAround env env' ctx m n := by
  induction h with
  | @file ctx ctx' before after processed o' hbefore hprocessed =>
    refine accordAround_of_node henv (fun _ _ => rfl) (fun _ _ => rfl) fun l l' {c d} hctx =>
      accord_array (concur_after_leading henv hfiles hbefore (fun {c d} hctx => ?_) hctx)
    have hinclude : (Node.call includeName [.token path] o).mayBind (takesNoData env) = false := by
      simp [Node.mayBind, includeName, setName]
    have htakes : takesNoData env' = takesNoData env := by
      funext f
      rw [takesNoData, takesNoData, henv.registry]
    have hbinds : ∀ n ∈ inlined items processed, n.mayBind (takesNoData env') = false :=
      htakes ▸ bindsNothing_inlined henv.loads hctx.left.left hprocessed hfile
    rw [elements_cons_of_bindless hinclude, elements_append hbinds]
    exact concur_thenAlso (concur_included henv hfiles hctx.left hctx.right hfile hprocessed)
      (concur_same henv hfiles l l' hctx.aligned after)
  | item hbefore _ ih =>
    refine accordAround_of_node henv (fun _ _ => rfl) (fun _ _ => rfl) fun l l' {c d} hctx =>
      accord_array (concur_after_leading henv hfiles hbefore (fun {c d} hctx => ?_) hctx)
    exact concur_elements_cons (ih.element l l' hctx) fun _ _ hctx' =>
      concur_same henv hfiles l l' hctx' _
  | entry _ ih => exact accordAround_entry henv hfiles _ _ _ _ ih
  | param _ ih => exact accordAround_param henv hfiles ih _ _ _ _
  | head _ ih => exact accordAround_head henv hfiles ih _ _ _ _ _
  | data hf _ ih =>
    exact accordAround_data henv hfiles _ _ _ (fun h => absurd h hf) fun _ => ih
  | bound hbind _ ih =>
    refine accordAround_data henv hfiles _ _ _ (fun _ l l' {_ _ _ _} hctx hc hd => ?_)
      fun h => absurd rfl h
    have hctx' := around_bound henv hfiles hctx hbind hc hd
    exact ⟨ih.node l l' hctx', ih.element l l' hctx'⟩

end

/-! ### There is a tree with the file in it -/

section

variable {env : Surroundings} (henv : env.Loads) (hregistry : env.registry = .builtin)
include henv hregistry

/-- Within the files that the settings allow every node terminates. -/
theorem terminating_loads (n : Node) : Terminating env n :=
  terminates_files (env.settings.maxIncludeDepth + 1) henv hregistry (by omega) n

omit hregistry in
/-- The context after a binding is one that the pass comes upon. -/
theorem laid_bound {ctx ctx' : Context} (hctx : ctx.Laid env.registry noneShunned) {f : String}
    {ps : List Node} {o : Origin}
    (h : Comes (fun k l => bind (env.upTo l) (inContext k) ⟨f, ps, o⟩ ctx) ctx') :
    ctx'.Laid env.registry noneShunned :=
  comes_laid (P := fun c => c.Laid env.registry noneShunned) env h fun k l =>
    settles_bind (settles_inContext _ k) (blind_inContext k) (henv.upTo l) hctx o fun p _ =>
      p.inert_noneShunned

/-- Any elements lead to some context that the pass comes upon. -/
theorem exists_leadsTo {ctx : Context} (hctx : ctx.Laid env.registry noneShunned)
    (ns : List Node) : ∃ ctx', ctx'.Laid env.registry noneShunned ∧ LeadsTo env ctx ns ctx' := by
  induction ns generalizing ctx with
  | nil => exact ⟨ctx, hctx, .nil ctx⟩
  | cons n ns ih =>
    obtain ⟨⟨items, ctx'⟩, h⟩ := (terminating_loads henv hregistry n).element ctx hctx
    have hctx' : ctx'.Laid env.registry noneShunned :=
      comes_laid (P := fun r => r.2.Laid env.registry noneShunned) env h fun k l =>
        (settles_element (settles_inContext _ k) (blind_inContext k) (henv.upTo l) hctx
          n.inert_noneShunned).imp fun _ h => by
            obtain ⟨_, _, _, h⟩ := h
            exact h
    obtain ⟨ctx'', hlaid, hns⟩ := ih hctx'
    exact ⟨ctx'', hlaid, .cons h.finds hns⟩

/-- The elements of any file come to something. -/
theorem exists_processed {ctx : Context} (hctx : ctx.Laid env.registry noneShunned) (file : String)
    (items : List Node) :
    ∃ processed, Finds (fun k l => elements ((env.upTo l).within file) (inContext k) ctx items)
      (some processed) := by
  have hwithin : (env.within file).Loads := ⟨henv.late, henv.orderly⟩
  obtain ⟨r, h⟩ := terminates_elements hwithin hctx fun n (_ : n ∈ items) =>
    terminating_loads hwithin hregistry n
  obtain ⟨processed, rfl⟩ := comes_laid (P := fun r => ∃ ms, r = some ms) _ h fun k l =>
    (settles_elements (settles_inContext _ k) (blind_inContext k) (hwithin.upTo l) hctx
      fun n _ => n.inert_noneShunned).imp fun _ h => by
        obtain ⟨ms, hms, -⟩ := h
        exact ⟨ms, hms⟩
  exact ⟨processed, h.finds⟩

/-- **A file can be put in the place of any include of it** that is an item of a sequence. -/
theorem exists_inlines {path : Token} {o : Origin} (items : List Node) {m : Node}
    (h : Node.ItemOf (.call includeName [.token path] o) m) {ctx : Context}
    (hctx : ctx.Laid env.registry noneShunned) : ∃ n, Inlines env path o items ctx m n := by
  induction h generalizing ctx with
  | here before after o' =>
    obtain ⟨ctx', hctx', hbefore⟩ := exists_leadsTo henv hregistry hctx before
    obtain ⟨processed, hprocessed⟩ := exists_processed henv hregistry hctx' _ items
    exact ⟨_, .file hbefore hprocessed⟩
  | @item before after m o' _ ih =>
    obtain ⟨ctx', hctx', hbefore⟩ := exists_leadsTo henv hregistry hctx before
    obtain ⟨n, hn⟩ := ih hctx'
    exact ⟨_, .item hbefore hn⟩
  | entry _ ih =>
    obtain ⟨n, hn⟩ := ih hctx
    exact ⟨_, .entry hn⟩
  | param _ ih =>
    obtain ⟨n, hn⟩ := ih hctx
    exact ⟨_, .param hn⟩
  | head _ ih =>
    obtain ⟨n, hn⟩ := ih hctx
    exact ⟨_, .head hn⟩
  | @data f ps o' m _ ih =>
    by_cases hf : f = setName
    · subst hf
      obtain ⟨ctx', h⟩ := terminates_bind henv hctx (f := setName) o' fun p (_ : p ∈ ps) =>
        terminating_loads henv hregistry p
      obtain ⟨n, hn⟩ := ih (laid_bound henv hctx h)
      exact ⟨_, .bound h.finds hn⟩
    · obtain ⟨n, hn⟩ := ih hctx
      exact ⟨_, .data hf hn⟩

end

end Reduce

end ContentLang
