import ContentLang.Proofs.Inlining.Concur

/-!
# Nodes that are moved

In the loading pass twins come to twins (`ContentLang.Reduce.twins_accord`), in contexts that are
aligned: a node may be written in another file where paths are read alike, and nothing comes of it
but that other files are named in the origins. The files around the two nodes are the same, or else
there is no include in them (`ContentLang.Reduce.Movable`); for which files are around a node is
only looked at when it includes one more.

The induction is on how deep the first walk is nested, for walks beside it of any depth.
-/

namespace ContentLang

open Walk

namespace Reduce

/-! ### Nodes that may be moved -/

/-- Whether a name is that of the construct that includes files. -/
def isInclude (f : String) : Bool := f = includeName

/-- **Whether a node may be moved** from the files around it to others: these are the same, or the
node includes nothing. -/
def Movable (env env' : Surroundings) (n : Node) : Prop :=
  env.files = env'.files ∨ n.Inert isInclude

namespace Movable

variable {env env' : Surroundings} {f : String} {ps : List Node} {o : Origin}

theorem files (h : Movable env env' (.call f ps o)) (hf : f = includeName) :
    env.files = env'.files :=
  h.resolve_right fun h => by simpa [isInclude, hf] using (Node.inert_call.mp h).1

theorem params (h : Movable env env' (.call f ps o)) : ∀ p ∈ ps, Movable env env' p :=
  fun p hp => h.imp_right fun h => (Node.inert_call.mp h).2 p hp

theorem call {data : Node} (h : Movable env env' (.statement f ps o data)) :
    Movable env env' (.call f ps o) :=
  h.imp_right fun h => Node.inert_call.mpr ⟨(Node.inert_statement.mp h).1,
    (Node.inert_statement.mp h).2.1⟩

theorem data {data : Node} (h : Movable env env' (.statement f ps o data)) :
    Movable env env' data :=
  h.imp_right fun h => (Node.inert_statement.mp h).2.2

theorem values {es : List (Token × Node)} (h : Movable env env' (.block es o)) :
    ∀ e ∈ es, Movable env env' e.2 :=
  fun e he => h.imp_right fun h => Node.inert_block.mp h e he

theorem items {is : List Node} (h : Movable env env' (.array is o)) :
    ∀ i ∈ is, Movable env env' i :=
  fun i hi => h.imp_right fun h => Node.inert_array.mp h i hi

end Movable

/-- **Whether twins accord** in two walks of the given depths: what they come to are twins. -/
def TwinsAccord (l l' : Nat) (env env' : Surroundings) : Prop :=
  ∀ {m n : Node} {c d : Context}, Movable env env' m → m.Twin n → c.Aligned env.registry d →
    Accord l l' env env' c d m n

/-- Whether a binding that is made in a context may come to another one. -/
def BindsTo (l : Nat) (env : Surroundings) (c : Context) (call : Call) (c' : Context) : Prop :=
  ∃ s, (bind env (inContext l) call c s).answer = .ok c'

/-- Whether what two elements give are twins, and the contexts after them are related. -/
def TwinElements (Q : Context → Context → Prop) (r r' : Option (List Node) × Context) : Prop :=
  Option.Rel (List.Forall₂ Node.Twin) r.1 r'.1 ∧ Q r.2 r'.2

section

variable {l l' : Nat} {env env' : Surroundings} (henv : env.Alongside env') {c d : Context}
include henv

/-! ### Sequences and entries -/

section

variable {m n : Node} (hmn : Accord l l' env env' c d m n)
include hmn

/-- What accords is not pending, since nothing is in the loading pass. -/
theorem concur_ready :
    Concur (fun a b => a.Twin b ∧ a ≠ .pending ∧ b ≠ .pending) (visit env (inContext l) m c)
      (visit env' (inContext l') n d) :=
  (concur_visit henv hmn).known (ready_visit (ready_inContext l) henv.loads.late m)
    (ready_visit (ready_inContext l') henv.late n)

theorem concur_plainElement (hctx : c.Aligned env.registry d) :
    Concur (TwinElements (Context.Aligned env.registry)) (plainElement env (inContext l) c m)
      (plainElement env' (inContext l') d n) := by
  refine concur_bind (concur_ready henv hmn) fun a b hab => ?_
  obtain ⟨hab, ha, hb⟩ := hab
  rw [orKept_of_ready ha, orKept_of_ready hb]
  exact concur_pure ⟨hab.toItems?, hctx⟩

end

section

variable (hctx : c.Aligned env.registry d) {f : String} {ps qs : List Node}
  (hps : List.Forall₂ (Accord l l' env env' c d) ps qs) {o o' : Origin}
  (hcall : Accord l l' env env' c d (.call f ps o) (.call f qs o'))
include hctx hps hcall

theorem concur_callElement :
    Concur (TwinElements (Context.Aligned env.registry))
      (element env (inContext l) c (.call f ps o))
      (element env' (inContext l') d (.call f qs o')) := by
  rw [element, element]
  exact concur_ite .rfl (concur_map (concur_binding henv hctx hps) fun _ _ h => ⟨.some .nil, h⟩)
    (concur_plainElement henv hcall hctx)

omit hps in
/-- A call whose data is the next element. -/
theorem concur_elementAnd {m n : Walk (Option (List Node) × Context)}
    (h : Concur (TwinElements (Context.Aligned env.registry)) m n) :
    Concur (TwinElements (Context.Aligned env.registry))
      (elementAnd env (inContext l) c (.call f ps o) m)
      (elementAnd env' (inContext l') d (.call f qs o') n) := by
  refine concur_bind (hcall.known (ready_inContext l env henv.loads.late _ _)
    (ready_inContext l' env' henv.late _ _)) fun a b hab => ?_
  obtain ⟨hab, ha, hb⟩ := hab
  rw [orKept_of_ready ha, orKept_of_ready hb, Walk.pure_bind, Walk.pure_bind]
  have hitems := hab.toItems?
  generalize a.toItems? = r, b.toItems? = r' at hitems ⊢
  cases hitems with
  | none => exact concur_pure ⟨.none, hctx⟩
  | some hitems =>
    refine concur_map h fun r r' hr => ⟨?_, hr.2⟩
    obtain ⟨more, c'⟩ := r
    obtain ⟨more', d'⟩ := r'
    have hmore : Option.Rel (List.Forall₂ Node.Twin) more more' := hr.1
    cases hmore with
    | none => exact .none
    | some hmore => exact .some (List.rel_append hitems hmore)

/-- A call with data as an element. The data of a binding is reduced in the contexts after it. -/
theorem concur_statementElement {m n : Node}
    (hnode : Accord l l' env env' c d (.statement f ps o m) (.statement f qs o' n))
    (hbound : f = setName → ∀ c' d', BindsTo l env c ⟨f, ps, o⟩ c' →
      BindsTo l' env' d ⟨f, qs, o'⟩ d' → c'.Aligned env.registry d' →
        Concur (TwinElements (Context.Aligned env.registry)) (element env (inContext l) c' m)
          (element env' (inContext l') d' n))
    (hdata : f ≠ setName → Concur (TwinElements (Context.Aligned env.registry))
      (element env (inContext l) c m) (element env' (inContext l') d n)) :
    Concur (TwinElements (Context.Aligned env.registry))
      (element env (inContext l) c (.statement f ps o m))
      (element env' (inContext l') d (.statement f qs o' n)) := by
  have htakes : takesNoData env' f = takesNoData env f := by
    rw [takesNoData, takesNoData, henv.registry]
  rw [element_statement, element_statement, htakes]
  by_cases hset : f = setName
  · rw [if_pos hset, if_pos hset]
    refine concur_bind (concur_binding henv hctx hps).here fun c' d' h => ?_
    exact hbound hset c' d' h.2.1 h.2.2 h.1
  · rw [if_neg hset, if_neg hset]
    have hand := concur_elementAnd henv hctx hcall (hdata hset)
    exact concur_ite .rfl (concur_ite .rfl (concur_after fun _ _ => hand) hand)
      (concur_plainElement henv hnode hctx)

end

omit henv in
/-- An element and what comes after it. -/
theorem concur_elements_cons {m n : Node} {ms ns : List Node} {Q : Context → Context → Prop}
    (hmn : Concur (TwinElements Q) (element env (inContext l) c m)
      (element env' (inContext l') d n))
    (hrest : ∀ c' d', Q c' d' → Concur (Option.Rel (List.Forall₂ Node.Twin))
      (elements env (inContext l) c' ms) (elements env' (inContext l') d' ns)) :
    Concur (Option.Rel (List.Forall₂ Node.Twin)) (elements env (inContext l) c (m :: ms))
      (elements env' (inContext l') d (n :: ns)) := by
  refine concur_bind hmn fun r r' hr => ?_
  obtain ⟨items, c'⟩ := r
  obtain ⟨items', d'⟩ := r'
  obtain ⟨hitems, hctx⟩ : Option.Rel (List.Forall₂ Node.Twin) items items' ∧ Q c' d' := hr
  cases hitems with
  | none => exact concur_pure .none
  | some hitems =>
    refine concur_map (hrest c' d' hctx) fun r r' hr => ?_
    cases hr with
    | none => exact .none
    | some hr => exact .some (List.rel_append hitems hr)

theorem concur_entries {es fs : List (Token × Node)}
    (hes : List.Forall₂ (fun e f => Alike e.1 f.1 ∧ Accord l l' env env' c d e.2 f.2) es fs) :
    Concur (Option.Rel (List.Forall₂ Node.TwinEntry)) (entries env (inContext l) c es)
      (entries env' (inContext l') d fs) := by
  induction hes with
  | nil => exact concur_pure (.some .nil)
  | @cons e f es fs hef _ ih =>
    obtain ⟨k, m⟩ := e
    obtain ⟨k', n⟩ := f
    obtain ⟨hkey, hmn⟩ : Alike k k' ∧ Accord l l' env env' c d m n := hef
    have hentry : ∀ {m' n' : Node}, m'.Twin n' →
        Concur (Option.Rel (List.Forall₂ Node.TwinEntry))
          (entries env (inContext l) c es >>= fun r => pure (r.map ((k, m') :: ·)))
          (entries env' (inContext l') d fs >>= fun r => pure (r.map ((k', n') :: ·))) := by
      intro m' n' h
      refine concur_map ih fun r r' hr => ?_
      cases hr with
      | none => exact .none
      | some hr => exact .some (.cons ⟨hkey, h⟩ hr)
    refine concur_bind (concur_ready henv hmn) fun a b hab => ?_
    obtain ⟨hab, ha, hb⟩ := hab
    rw [orKept_of_ready ha, orKept_of_ready hb, Walk.pure_bind, Walk.pure_bind]
    cases hab with
    | value h => exact hentry h
    | empty => exact ih
    | splice h => exact hentry (.array h)
    | pending => exact concur_pure .none

/-! ### Sequences of twins -/

section

variable (hall : TwinsAccord l l' env env')
include hall

omit henv in
theorem accord_twins (hctx : c.Aligned env.registry d) {ps qs : List Node}
    (hps : List.Forall₂ Node.Twin ps qs) (hmovable : ∀ p ∈ ps, Movable env env' p) :
    List.Forall₂ (Accord l l' env env' c d) ps qs :=
  forall₂_imp_mem hps fun p hp _ h => hall (hmovable p hp) h hctx

theorem concur_element (hctx : c.Aligned env.registry d) {m n : Node}
    (hmovable : Movable env env' m) (hmn : m.Twin n) :
    Concur (TwinElements (Context.Aligned env.registry)) (element env (inContext l) c m)
      (element env' (inContext l') d n) := by
  have hnode : Accord l l' env env' c d m n := hall hmovable hmn hctx
  induction m generalizing n c d with
  | token t =>
    cases hmn
    exact concur_plainElement henv hnode hctx
  | block es o =>
    cases hmn
    exact concur_plainElement henv hnode hctx
  | array is o =>
    cases hmn
    exact concur_plainElement henv hnode hctx
  | call f ps o =>
    cases hmn with
    | call hps ho =>
      exact concur_callElement henv hctx (accord_twins hall hctx hps hmovable.params) hnode
  | statement f ps o data _ ihdata =>
    cases hmn with
    | statement hps ho hdata =>
      have hcall := hall hmovable.call (.call hps ho) hctx
      refine concur_statementElement henv hctx
        (accord_twins hall hctx hps hmovable.call.params) hcall hnode
        (fun _ c' d' _ _ hctx' => ?_) fun _ => ?_
      · exact ihdata hctx' hmovable.data hdata (hall hmovable.data hdata hctx')
      · exact ihdata hctx hmovable.data hdata (hall hmovable.data hdata hctx)

theorem concur_elements (hctx : c.Aligned env.registry d) {ms ns : List Node}
    (hmovable : ∀ m ∈ ms, Movable env env' m) (h : List.Forall₂ Node.Twin ms ns) :
    Concur (Option.Rel (List.Forall₂ Node.Twin)) (elements env (inContext l) c ms)
      (elements env' (inContext l') d ns) := by
  induction h generalizing c d with
  | nil => exact concur_pure (.some .nil)
  | cons hmn _ ih =>
    obtain ⟨hm, hms⟩ := List.forall_mem_cons.mp hmovable
    exact concur_elements_cons (concur_element henv hall hctx hm hmn)
      fun _ _ hctx' => ih hctx' hms

end

/-! ### Includes -/

omit henv in
theorem concur_notIncluded (call call' : Call) (problem problem' : Problem) :
    Concur Outcome.Twin (notIncluded call problem) (notIncluded call' problem') :=
  concur_after fun _ _ => concur_pure (Outcome.twin_token rfl)

theorem concur_overrides {ps qs : List Node} (hps : List.Forall₂ (Accord l l' env env' c d) ps qs)
    (call call' : Call) :
    Concur (TwinsOr (List.Forall₂ Node.TwinEntry)) (overrides env (inContext l) call c ps)
      (overrides env' (inContext l') call' d qs) := by
  have hwrong : ∀ (m n : Node) (k k' : Kind), Concur (TwinsOr (List.Forall₂ Node.TwinEntry))
      (do return .error (← overrides.wrong call m k))
      (do return .error (← overrides.wrong call' n k')) := fun m n k k' =>
    concur_map (R := Outcome.Twin) (concur_after fun _ _ => concur_pure (Outcome.twin_token rfl))
      fun _ _ h => .error h
  cases hps with
  | nil => exact concur_pure (.ok .nil)
  | @cons p q ps qs hpq =>
    refine concur_bind (concur_ready henv hpq) fun a b hab => ?_
    obtain ⟨hab, ha, -⟩ := hab
    cases hab with
    | pending => exact absurd rfl ha
    | empty => exact hwrong _ _ _ _
    | splice => exact hwrong _ _ _ _
    | @value m n hmn =>
      have hnull : Concur (TwinsOr (List.Forall₂ Node.TwinEntry))
          (if m.isNull then pure (.ok []) else do return .error (← overrides.wrong call p m.kind))
          (if n.isNull then pure (.ok []) else do
            return .error (← overrides.wrong call' q n.kind)) :=
        concur_ite (by rw [hmn.isNull]) (concur_pure (.ok .nil)) (hwrong _ _ _ _)
      cases hmn with
      | columns hkeys hvalues => exact concur_pure (.ok (forall₂_rows.mpr ⟨hkeys, hvalues⟩))
      | _ => exact hnull

/-- The elements of a file are the same on both sides, up to marks of their identities. -/
theorem concur_includeText (file : String)
    (hall : TwinsAccord l l' (env.within file) (env'.within file))
    (hfiles : env.files = env'.files) (hctx : c.Aligned env.registry d) (call call' : Call)
    (text : String) :
    Concur Outcome.Twin (includeText env (inContext l) call file text c)
      (includeText env' (inContext l') call' file text d) := by
  have hwithin : (env.within file).files = (env'.within file).files :=
    congrArg (· ++ [file]) hfiles
  have hitems : ∀ mark mark', List.Forall₂ Node.Twin
      (Node.markUids mark (parseText text file env.settings.uniqueId).1)
      (Node.markUids mark' (parseText text file env'.settings.uniqueId).1) := by
    intro mark mark'
    rw [henv.settings]
    exact Alike.twins ((Node.alike_markUids _ _).symm.trans (Node.alike_markUids _ _))
  refine concur_after fun _ _ => concur_after fun _ _ =>
    concur_bind (concur_elements (henv.within file) hall hctx (fun _ _ => .inl hwithin)
      (hitems _ _)) fun r r' hr => ?_
  cases hr with
  | none => exact concur_pure .pending
  | some hr => exact concur_pure (twin_spliced hr)

theorem concur_includeFile (file : String)
    (hall : TwinsAccord l l' (env.within file) (env'.within file))
    (hfiles : env.files = env'.files) (hctx : c.Aligned env.registry d) (call call' : Call) :
    Concur Outcome.Twin (includeFile env (inContext l) call file c)
      (includeFile env' (inContext l') call' file d) := by
  have hask : Concur (· = ·) (Walk.askFile env.host file) (Walk.askFile env'.host file) := by
    intro _ _ a b ha hb
    obtain rfl : env.host.fileText file = a := Except.ok.inj ha
    obtain rfl : env'.host.fileText file = b := Except.ok.inj hb
    rw [henv.host]
  rw [includeFile_eq, includeFile_eq]
  refine concur_ite (by rw [hfiles]) (concur_notIncluded _ _ _ _)
    (concur_ite (by rw [hfiles, henv.settings]) (concur_notIncluded _ _ _ _)
      (concur_bind hask fun text _ htext => ?_))
  subst htext
  cases text with
  | none => exact concur_notIncluded _ _ _ _
  | some text => exact concur_includeText henv file hall hfiles hctx call call' text

theorem concur_includeCall (hctx : c.Aligned env.registry d)
    (hall : ∀ file, TwinsAccord l l' (env.within file) (env'.within file))
    (hfiles : env.files = env'.files) {ps qs : List Node}
    (hps : List.Forall₂ (Accord l l' env env' c d) ps qs) {o o' : Origin} (ho : o.Near o') :
    Concur Outcome.Twin (includeCall env (inContext l) ⟨includeName, ps, o⟩ c)
      (includeCall env' (inContext l') ⟨includeName, qs, o'⟩ d) := by
  have hkept := concur_keepCall henv hps (f := includeName) ho .none
  have hlength := hps.length_eq
  have hinclude : ∀ file {c d : Context}, c.Aligned env.registry d →
      Concur Outcome.Twin (includeFile env (inContext l) ⟨includeName, ps, o⟩ file c)
        (includeFile env' (inContext l') ⟨includeName, qs, o'⟩ file d) := fun file {_ _} hctx =>
    concur_includeFile henv file (hall file) hfiles hctx _ _
  unfold includeCall
  cases hps with
  | nil => exact concur_notIncluded _ _ _ _
  | cons hpath hothers =>
    dsimp only
    refine concur_ite (by rw [hlength]) (concur_notIncluded _ _ _ _)
      (concur_bind (concur_requireToken henv hpath) fun a b hab => ?_)
    cases hab with
    | error hab =>
      cases hab with
      | pending =>
        simp only [henv.loads.late, henv.late, Bool.false_eq_true, if_false]
        exact concur_after fun _ _ => hkept
      | value h => exact concur_pure (.value h)
      | empty => exact concur_pure .empty
      | splice h => exact concur_pure (.splice h)
    | @ok s t ht =>
      have hright : d.Laid env'.registry noneShunned := henv.registry ▸ hctx.right
      refine concur_bind ((concur_overrides henv hothers _ _).known
        (gives_of_loading (settles_overrides (settles_inContext noneShunned l) henv.loads hctx.left
          _ fun p _ => p.inert_noneShunned))
        (gives_of_loading (settles_overrides (settles_inContext noneShunned l') henv.loads_right
          hright _ fun p _ => p.inert_noneShunned))) fun a b hab => ?_
      obtain ⟨hab, hlaid, hlaid'⟩ := hab
      cases hab with
      | error h => exact concur_pure h
      | @ok es fs hes =>
        have hpath : Path.resolve o.location.file s.value =
            Path.resolve o'.location.file t.value := by
          rw [Alike.value ht, show Path.resolve o.location.file = _ from ho]
        have hlaidright : ∀ e ∈ fs, e.2.Laid env.registry noneShunned := henv.registry ▸ hlaid'
        rw [hpath]
        exact hinclude _ ⟨hctx.twin.overlay hes, Context.laid_overlay hctx.left hlaid,
          Context.laid_overlay hctx.right hlaidright⟩

/-! ### One node -/

/-- A call with or without data. The data of a binding is reduced in the contexts after it. -/
theorem concur_call (hctx : c.Aligned env.registry d) {f : String} {ps qs : List Node}
    (hps : List.Forall₂ (Accord l l' env env' c d) ps qs) {o o' : Origin} (ho : o.Near o')
    (hincludes : f = includeName → env.files = env'.files ∧
      ∀ file, TwinsAccord l l' (env.within file) (env'.within file))
    {x y : Option Node}
    (hbound : f = setName → ∀ c' d', BindsTo l env c ⟨f, ps, o⟩ c' →
      BindsTo l' env' d ⟨f, qs, o'⟩ d' → c'.Aligned env.registry d' →
        Option.Rel (Accord l l' env env' c' d') x y)
    (hdata : f ≠ setName → Option.Rel (Accord l l' env env' c d) x y) :
    Concur Outcome.Twin (call env (inContext l) ⟨f, ps, o⟩ x c)
      (call env' (inContext l') ⟨f, qs, o'⟩ y d) := by
  by_cases hf : f ∈ constructs
  · obtain rfl | rfl | rfl : f = includeName ∨ f = ifName ∨ f = setName := by
      simpa [constructs] using hf
    · obtain ⟨hfiles, hall⟩ := hincludes rfl
      exact concur_bind (concur_includeCall henv hctx hall hfiles hps ho) fun _ _ h =>
        concur_withTrailing henv h (hdata (by decide))
    · exact concur_conditional henv hps ho (hdata (by decide))
    · refine concur_bind (concur_binding henv hctx hps).here fun c' d' h => ?_
      have hrel := hbound rfl c' d' h.2.1 h.2.2 h.1
      cases hrel with
      | none => exact concur_pure .empty
      | some hmn => exact concur_visit henv hmn
  · have hset : f ≠ setName := fun h => hf (by simp [constructs, h])
    rw [call_eq_callNamed hf, call_eq_callNamed hf]
    exact concur_callNamed henv hctx hps ho (hdata hset)

end

section

variable {l l' : Nat} {env env' : Surroundings} (henv : env.Alongside env') {c d : Context}

/-! The outcome of a whole node, one level above its parts. -/

theorem accord_array {is js : List Node} {o o' : Origin}
    (h : Concur (Option.Rel (List.Forall₂ Node.Twin)) (elements env (inContext l) c is)
      (elements env' (inContext l') d js)) :
    Accord (l + 1) (l' + 1) env env' c d (.array is o) (.array js o') := by
  refine concur_bind h fun r r' hr => ?_
  cases hr with
  | none => exact concur_pure .pending
  | some hr => exact concur_pure (.value (.array hr))

theorem accord_block {es fs : List (Token × Node)} {o o' : Origin}
    (h : Concur (Option.Rel (List.Forall₂ Node.TwinEntry)) (entries env (inContext l) c es)
      (entries env' (inContext l') d fs)) :
    Accord (l + 1) (l' + 1) env env' c d (.block es o) (.block fs o') := by
  refine concur_bind h fun r r' hr => ?_
  cases hr with
  | none => exact concur_pure .pending
  | some hr => exact concur_pure (.value (Node.twin_block hr _ _))

/-- Nothing is said of walks that may not be nested at all. -/
theorem accord_of_zero {m n : Node} (h : l = 0 ∨ l' = 0) : Accord l l' env env' c d m n := by
  intro s s' a b ha hb
  rcases h with rfl | rfl
  · exact absurd ha (by simp [inContext, Walk.halt])
  · exact absurd hb (by simp [inContext, Walk.halt])

/-- So only walks that may be nested have to be looked at. -/
theorem accord_of_succ {m n : Node} (h : ∀ l l', Accord (l + 1) (l' + 1) env env' c d m n)
    (l l' : Nat) : Accord l l' env env' c d m n := by
  rcases l with _ | l
  · exact accord_of_zero (.inl rfl)
  · rcases l' with _ | l'
    · exact accord_of_zero (.inr rfl)
    · exact h l l'

include henv in
/-- Twins accord one level up, if they do within all files. -/
theorem accord_step (hall : TwinsAccord l l' env env')
    (hwithin : env.files = env'.files →
      ∀ file, TwinsAccord l l' (env.within file) (env'.within file)) :
    TwinsAccord (l + 1) (l' + 1) env env' := by
  intro m n c d hmovable hmn hctx
  cases m with
  | token t =>
    cases hmn with
    | token h => exact concur_pure (Outcome.twin_token h)
  | array is o =>
    cases hmn with
    | array his => exact accord_array (concur_elements henv hall hctx hmovable.items his)
  | block es o =>
    obtain ⟨fs, o', rfl, hes⟩ := hmn.block
    exact accord_block (concur_entries henv (forall₂_imp_mem hes fun e he f hef =>
      ⟨hef.1, hall (hmovable.values e he) hef.2 hctx⟩))
  | call f ps o =>
    cases hmn with
    | call hps ho =>
      exact concur_call henv hctx (accord_twins hall hctx hps hmovable.params) ho
        (fun hf => ⟨hmovable.files hf, hwithin (hmovable.files hf)⟩) (fun _ _ _ _ _ _ => .none)
          fun _ => .none
  | statement f ps o data =>
    cases hmn with
    | statement hps ho hdata =>
      exact concur_call henv hctx (accord_twins hall hctx hps hmovable.call.params) ho
        (fun hf => ⟨hmovable.call.files hf, hwithin (hmovable.call.files hf)⟩)
        (fun _ _ _ _ _ hctx' => .some (hall hmovable.data hdata hctx'))
          fun _ => .some (hall hmovable.data hdata hctx)

end

/-- **In the loading pass twins come to twins**, in contexts that are aligned, however deep the two
walks may be nested: within the same files, or if they include nothing within any. -/
theorem twins_accord (l l' : Nat) {env env' : Surroundings} (henv : env.Alongside env') :
    TwinsAccord l l' env env' := by
  induction l generalizing l' env env' with
  | zero => exact fun _ _ _ => accord_of_zero (.inl rfl)
  | succ l ih =>
    cases l' with
    | zero => exact fun _ _ _ => accord_of_zero (.inr rfl)
    | succ l' => exact accord_step henv (ih l' henv) fun _ file => ih l' (henv.within file)

end Reduce

end ContentLang
