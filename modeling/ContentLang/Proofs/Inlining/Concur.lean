import ContentLang.Proofs.Inlining.Meanings
import ContentLang.Proofs.Loading.Ready
import ContentLang.Proofs.Loading.Settling

/-!
# Walks that concur

Two walks **concur** (`ContentLang.Walk.Concur`) if their answers are related whenever both come to
one, from whichever states. Neither has to end because the other does, so that walks that are nested
to different depths and leave different notes can be compared as well.

In the loading pass twins are to be compared, in contexts that bind twins
(`ContentLang.Context.Aligned`), with the same functions and beside the same host
(`ContentLang.Surroundings.Alongside`). Two nodes **accord** (`ContentLang.Reduce.Accord`) if what
they come to are twins. There is one lemma for each part of a step; it says that the whole concurs
if the parts accord, whatever these are. So it serves both when the parts are twins, and when an
include is within one of them, and what it includes within the other.

The files around the two nodes matter for includes only. A node may be compared within others if it
includes nothing (`ContentLang.Reduce.Movable`).
-/

namespace ContentLang

namespace Walk

variable {α β γ δ : Type} {R : α → β → Prop} {Q : γ → δ → Prop} {m₁ : Walk α} {m₂ : Walk β}
  {f₁ : α → Walk γ} {f₂ : β → Walk δ}

/-- **Whether the answers of two walks are related**, if both come to one. -/
def Concur (R : α → β → Prop) (m₁ : Walk α) (m₂ : Walk β) : Prop :=
  ∀ (s s' : WalkState) (a : α) (b : β), (m₁ s).answer = .ok a → (m₂ s').answer = .ok b → R a b

theorem concur_pure {a : α} {b : β} (h : R a b) : Concur R (Pure.pure a) (Pure.pure b) := by
  intro _ _ x y hx hy
  obtain rfl : a = x := Except.ok.inj hx
  obtain rfl : b = y := Except.ok.inj hy
  exact h

/-- **Walks one after the other** concur if each does. -/
theorem concur_bind (h : Concur R m₁ m₂) (hf : ∀ a b, R a b → Concur Q (f₁ a) (f₂ b)) :
    Concur Q (m₁ >>= f₁) (m₂ >>= f₂) := by
  intro _ _ _ _ hc hd
  obtain ⟨a, ha, hc, -⟩ := answer_of_bind hc
  obtain ⟨b, hb, hd, -⟩ := answer_of_bind hd
  exact hf a b (h _ _ a b ha hb) _ _ _ _ hc hd

theorem Concur.imp {R' : α → β → Prop} (h : Concur R m₁ m₂) (hR : ∀ a b, R a b → R' a b) :
    Concur R' m₁ m₂ :=
  fun s s' a b ha hb => hR a b (h s s' a b ha hb)

theorem concur_map {f : α → γ} {g : β → δ} (h : Concur R m₁ m₂)
    (hfg : ∀ a b, R a b → Q (f a) (g b)) :
    Concur Q (m₁ >>= fun a => Pure.pure (f a)) (m₂ >>= fun b => Pure.pure (g b)) :=
  concur_bind h fun a b hab => concur_pure (hfg a b hab)

/-- What comes after any walks. -/
theorem concur_after (hf : ∀ a b, Concur Q (f₁ a) (f₂ b)) : Concur Q (m₁ >>= f₁) (m₂ >>= f₂) :=
  concur_bind (R := fun _ _ => True) (fun _ _ _ _ _ _ => trivial) fun a b _ => hf a b

theorem concur_ite {c d : Prop} [Decidable c] [Decidable d] (hcd : c ↔ d) {n₁ : Walk α}
    {n₂ : Walk β} (hm : Concur R m₁ m₂) (hn : Concur R n₁ n₂) :
    Concur R (if c then m₁ else n₁) (if d then m₂ else n₂) := by
  by_cases hc : c
  · rw [if_pos hc, if_pos (hcd.mp hc)]
    exact hm
  · rw [if_neg hc, if_neg fun hd => hc (hcd.mpr hd)]
    exact hn

/-- What is known of each walk by itself holds of related answers too. -/
theorem Concur.known {P₁ : α → Prop} {P₂ : β → Prop} (h : Concur R m₁ m₂) (h₁ : Reduce.Gives P₁ m₁)
    (h₂ : Reduce.Gives P₂ m₂) : Concur (fun a b => R a b ∧ P₁ a ∧ P₂ b) m₁ m₂ :=
  fun s s' a b ha hb => ⟨h s s' a b ha hb, Reduce.gives_answer h₁ ha, Reduce.gives_answer h₂ hb⟩

theorem Concur.and {R' : α → β → Prop} (h : Concur R m₁ m₂) (h' : Concur R' m₁ m₂) :
    Concur (fun a b => R a b ∧ R' a b) m₁ m₂ :=
  fun s s' a b ha hb => ⟨h s s' a b ha hb, h' s s' a b ha hb⟩

/-- Two walks that concur with a third one, which comes to an answer. -/
theorem concur_of_run {m : Walk γ} {S : γ → α → Prop} {S' : γ → β → Prop}
    {c : γ} (hrun : ∃ s, (m s).answer = .ok c) (h : Concur S m m₁) (h' : Concur S' m m₂) :
    Concur (fun a b => S c a ∧ S' c b) m₁ m₂ := by
  obtain ⟨s, hs⟩ := hrun
  exact fun s₁ s₂ a b ha hb => ⟨h s s₁ c a hs ha, h' s s₂ c b hs hb⟩

/-- Two walks that concur with one between them, which comes to an answer. -/
theorem Concur.trans {m : Walk γ} {S : α → γ → Prop} {S' : γ → β → Prop} {c : γ}
    (h : Concur S m₁ m) (h' : Concur S' m m₂) (hrun : ∃ s, (m s).answer = .ok c) :
    Concur (fun a b => S a c ∧ S' c b) m₁ m₂ := by
  obtain ⟨s, hs⟩ := hrun
  exact fun s₁ s₂ a b ha hb => ⟨h s₁ s a c ha hs, h' s s₂ c b hs hb⟩

/-- Related answers are ones that the walks come to. -/
theorem Concur.here (h : Concur R m₁ m₂) :
    Concur (fun a b => R a b ∧ (∃ s, (m₁ s).answer = .ok a) ∧ ∃ s, (m₂ s).answer = .ok b) m₁ m₂ :=
  fun s s' a b ha hb => ⟨h s s' a b ha hb, ⟨s, ha⟩, ⟨s', hb⟩⟩

end Walk

open Walk

/-- Whether two proper answers are related, or the outcomes in their place are twins. -/
inductive TwinsOr {α β : Type} (R : α → β → Prop) : Except Outcome α → Except Outcome β → Prop
  | ok {a : α} {b : β} (h : R a b) : TwinsOr R (.ok a) (.ok b)
  | error {x y : Outcome} (h : x.Twin y) : TwinsOr R (.error x) (.error y)

/-! ### Contexts and surroundings -/

/-- **Whether two contexts of the loading pass are aligned**: they bind the same names to twins. -/
structure Context.Aligned (registry : Registry) (c d : Context) : Prop where
  twin : c.Twin d
  left : c.Laid registry noneShunned
  right : d.Laid registry noneShunned

namespace Context.Aligned

variable {registry : Registry} {b c d : Context}

theorem refl (h : c.Laid registry noneShunned) : c.Aligned registry c := ⟨.refl c, h, h⟩

theorem symm (h : c.Aligned registry d) : d.Aligned registry c := ⟨h.twin.symm, h.right, h.left⟩

theorem trans (h : b.Aligned registry c) (h' : c.Aligned registry d) : b.Aligned registry d :=
  ⟨h.twin.trans h'.twin, h.left, h'.right⟩

end Context.Aligned

/-- **Whether two loading passes go alongside each other**: with the same functions, beside the same
host. The files around them and their limits may differ. -/
structure Surroundings.Alongside (env env' : Surroundings) : Prop where
  loads : env.Loads
  functions : ∀ e ∈ env.registry, e.2.late = true ∨ e.2.MeansTwins
  late : env'.late = false
  registry : env'.registry = env.registry
  host : env'.host = env.host
  settings : env'.settings = env.settings

namespace Surroundings.Alongside

variable {env env' : Surroundings} (h : env.Alongside env')
include h

theorem loads_right : env'.Loads := ⟨h.late, h.registry ▸ h.loads.orderly⟩

/-- Within one more file on either side. -/
theorem within (file : String) : (env.within file).Alongside (env'.within file) :=
  { h with loads := ⟨h.loads.late, h.loads.orderly⟩ }

/-- Within one more file on the left. -/
theorem enters (file : String) : (env.within file).Alongside env' :=
  { h with loads := ⟨h.loads.late, h.loads.orderly⟩ }

theorem self : env.Alongside env :=
  { h with late := h.loads.late, registry := rfl, host := rfl, settings := rfl }

end Surroundings.Alongside

namespace Reduce

/-- What the loading pass gives, with no name shunned, is what it gives in any run. -/
theorem gives_of_loading {α : Type} {env : Surroundings} {P : α → Prop} {m : Walk α}
    (h : Loading env noneShunned P m) : Gives P m :=
  h.mono ⟨fun h => h.elim, fun _ _ => trivial, fun _ _ _ _ _ _ n _ => n.inert_noneShunned⟩ id
    fun _ h => h

/-- **Whether two nodes accord**: what they come to are twins. -/
def Accord (l l' : Nat) (env env' : Surroundings) (c d : Context) (m n : Node) : Prop :=
  Concur Outcome.Twin (inContext l env m c) (inContext l' env' n d)

section

variable {l l' : Nat} {env env' : Surroundings} (henv : env.Alongside env') {c d : Context}

/-! ### Parts -/

section

include henv

theorem concur_visit {m n : Node} (h : Accord l l' env env' c d m n) :
    Concur Outcome.Twin (visit env (inContext l) m c) (visit env' (inContext l') n d) := by
  rw [visit_loading henv.loads.late, visit_loading henv.late]
  exact h

theorem concur_reduceParams {ps qs : List Node}
    (hps : List.Forall₂ (Accord l l' env env' c d) ps qs) :
    Concur (Option.Rel (List.Forall₂ Node.Twin)) (reduceParams env (inContext l) c ps)
      (reduceParams env' (inContext l') d qs) := by
  induction hps with
  | nil => exact concur_pure (.some .nil)
  | @cons p q _ _ hpq _ ih =>
    refine concur_bind (concur_visit henv hpq) fun x y hxy => ?_
    have hnode := hxy.toNode? p.origin q.origin
    generalize x.toNode? p.origin = r, y.toNode? q.origin = r' at hnode ⊢
    cases hnode with
    | none => exact concur_pure .none
    | some hnode =>
      refine concur_map ih fun r r' hr => ?_
      cases hr with
      | none => exact .none
      | some hr => exact .some (.cons hnode hr)

variable {f : String} {ps qs : List Node} (hps : List.Forall₂ (Accord l l' env env' c d) ps qs)
  {o o' : Origin} {x y : Option Node}
include hps

theorem concur_reduceCallParams (f : String) (o o' : Origin) :
    Concur (Option.Rel fun a b => ∃ ps qs, List.Forall₂ Node.Twin ps qs ∧
        a = ⟨f, ps, { o with context := c }⟩ ∧ b = ⟨f, qs, { o' with context := d }⟩)
      (reduceCallParams env (inContext l) ⟨f, ps, o⟩ c)
      (reduceCallParams env' (inContext l') ⟨f, qs, o'⟩ d) := by
  refine concur_map (concur_reduceParams henv hps) fun r r' hr => ?_
  cases hr with
  | none => exact .none
  | some hr => exact .some ⟨_, _, hr, rfl, rfl⟩

/-- Calls that are kept are twins. -/
theorem concur_keepCall (ho : o.Near o') (hdata : Option.Rel (Accord l l' env env' c d) x y) :
    Concur Outcome.Twin (keepCall env (inContext l) ⟨f, ps, o⟩ x c)
      (keepCall env' (inContext l') ⟨f, qs, o'⟩ y d) := by
  refine concur_bind (concur_reduceCallParams henv hps f o o') fun r r' hr => ?_
  cases hr with
  | none => exact concur_pure .pending
  | some hr =>
    obtain ⟨ps', qs', hps', rfl, rfl⟩ := hr
    cases hdata with
    | none => exact concur_pure (.value (.call hps' ho))
    | @some m n hmn =>
      refine concur_bind (concur_visit henv hmn) fun a b hab => ?_
      have hnode := hab.toNode? m.origin n.origin
      generalize a.toNode? m.origin = r, b.toNode? n.origin = r' at hnode ⊢
      cases hnode with
      | none => exact concur_pure .pending
      | some hnode => exact concur_pure (.value (.statement hps' ho hnode))

end

section

include henv

theorem concur_withTrailing {a b : Outcome} (hab : a.Twin b) {x y : Option Node}
    (hdata : Option.Rel (Accord l l' env env' c d) x y) :
    Concur Outcome.Twin (withTrailing env (inContext l) a x c)
      (withTrailing env' (inContext l') b y d) := by
  cases hdata with
  | none => exact concur_pure hab
  | some hmn =>
    refine concur_bind (concur_visit henv hmn) fun t t' ht => ?_
    have hitems := hab.toItems?
    have hmore := ht.toItems?
    generalize a.toItems? = r, b.toItems? = r', t.toItems? = q, t'.toItems? = q' at hitems hmore ⊢
    cases hitems with
    | none => exact concur_pure .pending
    | some hitems =>
      cases hmore with
      | none => exact concur_pure .pending
      | some hmore => exact concur_pure (Outcome.twin_ofItems (List.rel_append hitems hmore))

/-- Nodes that have to be tokens come to the same token, or else to twins in its place. -/
theorem concur_requireToken {m n : Node} (h : Accord l l' env env' c d m n) :
    Concur (TwinsOr Alike) ((evaluator env (inContext l)).requireToken m c)
      ((evaluator env' (inContext l')).requireToken n d) := by
  have hfault : @TwinsOr Token Token Alike (.error (.error m.origin)) (.error (.error n.origin)) :=
    .error (Outcome.twin_token rfl)
  have hexpected : ∀ found found', Concur (TwinsOr Alike) (Evaluator.expectedValue m found)
      (Evaluator.expectedValue n found') := fun _ _ => concur_after fun _ _ => concur_pure hfault
  have hleft : ∀ f, Concur (TwinsOr Alike)
      (if Registry.isKnown env.registry f then Pure.pure (.error .pending) else do
        Walk.report m.origin (.unknownFunction f
          (closestName f (Registry.names env.registry ++ constructs)))
        return .error (.error m.origin))
      (if Registry.isKnown env'.registry f then Pure.pure (.error .pending) else do
        Walk.report n.origin (.unknownFunction f
          (closestName f (Registry.names env'.registry ++ constructs)))
        return .error (.error n.origin)) := fun f =>
    concur_ite (by rw [henv.registry]) (concur_pure (.error .pending))
      (concur_after fun _ _ => concur_pure hfault)
  refine concur_bind (concur_visit henv h) fun a b hab => ?_
  cases hab with
  | pending => exact concur_pure (.error .pending)
  | empty => exact hexpected _ _
  | splice => exact hexpected _ _
  | value hfound =>
    cases hfound with
    | token ht => exact concur_pure (.ok ht)
    | call => exact hleft _
    | statement => exact hleft _
    | columns => exact hexpected _ _
    | array => exact hexpected _ _

end

/-! ### Bindings -/

section

variable (hctx : c.Aligned env.registry d) {ps qs : List Node}
  (hps : List.Forall₂ (Accord l l' env env' c d) ps qs) {f : String} {o o' : Origin}
include henv hctx hps

/-- After bindings of what accords, contexts are aligned. -/
theorem concur_binding :
    Concur (Context.Aligned env.registry) (bind env (inContext l) ⟨f, ps, o⟩ c)
      (bind env' (inContext l') ⟨f, qs, o'⟩ d) := by
  have hleft := gives_of_loading (settles_bind (settles_inContext noneShunned l)
    (blind_inContext l) henv.loads hctx.left (f := f) o fun p (_ : p ∈ ps) => p.inert_noneShunned)
  have hright := gives_of_loading (settles_bind (settles_inContext noneShunned l')
    (blind_inContext l') henv.loads_right (henv.registry ▸ hctx.right) (f := f) o'
      fun q (_ : q ∈ qs) => q.inert_noneShunned)
  rw [henv.registry] at hright
  suffices htwin : Concur Context.Twin (bind env (inContext l) ⟨f, ps, o⟩ c)
      (bind env' (inContext l') ⟨f, qs, o'⟩ d) from
    (htwin.known hleft hright).imp fun _ _ h => ⟨h.1, h.2.1, h.2.2⟩
  have hsame : ∀ {α β : Type} {m : Walk α} {m' : Walk β},
      Concur Context.Twin (m >>= fun _ => pure c) (m' >>= fun _ => pure d) :=
    concur_after fun _ _ => concur_pure hctx.twin
  cases hps with
  | nil => exact hsame
  | cons hname hps =>
    cases hps with
    | nil => exact hsame
    | @cons m n _ _ hvalue hps =>
      cases hps with
      | cons => exact hsame
      | nil =>
        refine concur_bind (concur_requireToken henv hname) fun a b hab => ?_
        cases hab with
        | error hab =>
          cases hab with
          | pending => exact concur_after fun _ _ => hsame
          | _ => exact concur_pure hctx.twin
        | ok hkey =>
          refine concur_bind (concur_visit henv hvalue) fun a b hab => ?_
          have hnode := hab.toNode? m.origin n.origin
          generalize a.toNode? m.origin = r, b.toNode? n.origin = r' at hnode ⊢
          cases hnode with
          | none => exact hsame
          | some hnode => exact concur_after fun _ _ => concur_pure (hctx.twin.bind hkey hnode)

/-! ### Functions -/

omit hps in
/-- A function that has a meaning gives twins for twins that the pass came to. -/
theorem concur_function {function : Function} (hmeans : function.MeansTwins)
    (htwins : List.Forall₂ Node.Twin ps qs) (hleft : ∀ p ∈ ps, p.Laid env.registry noneShunned)
    (hright : ∀ q ∈ qs, q.Laid env.registry noneShunned) (ho : o.Near o') :
    Concur Outcome.Twin (function.reduce (evaluator env (inContext l)) ⟨f, ps, o⟩ c)
      (function.reduce (evaluator env' (inContext l')) ⟨f, qs, o'⟩ d) := by
  obtain ⟨α, m, -, htwin, hmeans⟩ := hmeans
  have hkept : ∀ {n : Node}, n.Laid env.registry noneShunned → Kept l env False n := fun h =>
    ⟨henv.loads.late ▸ h.1, fun h => h.elim⟩
  have hkept' : ∀ {n : Node}, n.Laid env.registry noneShunned → Kept l' env' False n := fun h =>
    ⟨by rw [henv.registry, henv.late]; exact h.1, fun h => h.elim⟩
  have hkeeps : ∀ l env, (evaluator env (inContext l)).Keeps False (Kept l env False) := fun l _ =>
    keeps_evaluator (still_inContext l) fun h => h.elim
  have hmeant := hmeans (hkeeps l env) ⟨f, ps, o⟩ c (fun p hp => hkept (hleft p hp)) fun _ e he =>
    hkept (hctx.left e he)
  have hmeant' := hmeans (hkeeps l' env') ⟨f, qs, o'⟩ d (fun q hq => hkept' (hright q hq))
    fun _ e he => hkept' (hctx.right e he)
  have hsame := htwin.outcome (Registry.isKnown env.registry) ⟨env.host, env.settings⟩ (f := f)
    htwins ho hctx.twin
  intro s s' a b ha hb
  have halike : Alike (m.outcome (Registry.isKnown env.registry) ⟨env.host, env.settings⟩
      ⟨f, ps, o⟩ c) a :=
    gives_answer (hmeant.mono (Terms.quietIf_covers_any _) id fun _ h => h) ha
  have halike' : Alike (m.outcome (Registry.isKnown env'.registry) ⟨env'.host, env'.settings⟩
      ⟨f, qs, o'⟩ d) b :=
    gives_answer (hmeant'.mono (Terms.quietIf_covers_any _) id fun _ h => h) hb
  rw [henv.registry, henv.host, henv.settings] at halike'
  exact (Alike.symm halike).twinOutcome.trans (hsame.trans halike'.twinOutcome)

theorem concur_callFunction {function : Function}
    (hmeans : function.late = true ∨ function.MeansTwins) (ho : o.Near o') :
    Concur Outcome.Twin (callFunction env (inContext l) function ⟨f, ps, o⟩ c)
      (callFunction env' (inContext l') function ⟨f, qs, o'⟩ d) := by
  have hparams := concur_reduceCallParams henv hps f o o'
  unfold callFunction
  cases hlate : function.late with
  | true =>
    simp only [if_true, henv.loads.late, henv.late, Bool.false_eq_true, if_false]
    refine concur_after fun _ _ => concur_bind hparams fun r r' hr => ?_
    cases hr with
    | none => exact concur_pure .pending
    | some hr =>
      obtain ⟨ps', qs', hps', rfl, rfl⟩ := hr
      exact concur_pure (.value (.call hps' ho))
  | false =>
    simp only [Bool.false_eq_true, if_false, henv.loads.late, henv.late]
    have hleft := gives_of_loading (settles_reduceCallParams (settles_inContext noneShunned l)
      henv.loads hctx.left (f := f) o fun p (_ : p ∈ ps) => p.inert_noneShunned)
    have hright := gives_of_loading (settles_reduceCallParams (settles_inContext noneShunned l')
      henv.loads_right (henv.registry ▸ hctx.right) (f := f) o'
        fun q (_ : q ∈ qs) => q.inert_noneShunned)
    rw [henv.registry] at hright
    refine concur_bind (hparams.known hleft hright) fun r r' hr => ?_
    obtain ⟨hr, ⟨ps', rfl, hps'⟩, ⟨qs', rfl, hqs'⟩⟩ := hr
    cases hr with
    | some hr =>
      obtain ⟨_, _, htwins, heq, heq'⟩ := hr
      obtain ⟨-, rfl, -⟩ := Call.mk.inj heq
      obtain ⟨-, rfl, -⟩ := Call.mk.inj heq'
      have hfunction : function.MeansTwins := hmeans.resolve_left (by simp [hlate])
      refine concur_bind (concur_function henv hctx hfunction htwins hps' hqs' ho)
        fun a b hab => ?_
      exact concur_ite (by rw [hab.isPending])
        (concur_after fun _ _ => concur_pure (.value (.call htwins ho))) (concur_pure hab)

/-- Calls of what may be a function. -/
theorem concur_callNamed (ho : o.Near o') {x y : Option Node}
    (hdata : Option.Rel (Accord l l' env env' c d) x y) :
    Concur Outcome.Twin (callNamed env (inContext l) ⟨f, ps, o⟩ x c)
      (callNamed env' (inContext l') ⟨f, qs, o'⟩ y d) := by
  unfold callNamed
  dsimp only
  rw [henv.registry]
  cases hget : Registry.get? env.registry f with
  | none => exact concur_after fun _ _ => concur_keepCall henv hps ho hdata
  | some function =>
    have hmeans : function.late = true ∨ function.MeansTwins := by
      obtain ⟨e, he, rfl⟩ := Registry.mem_of_get? hget
      exact henv.functions e he
    refine concur_bind (concur_callFunction henv hctx hps hmeans ho) fun a b hab => ?_
    have htrailing := concur_withTrailing henv hab hdata
    cases hdata with
    | none => exact htrailing
    | some => exact concur_after fun _ _ => htrailing

omit hctx in
theorem concur_conditional (ho : o.Near o') {x y : Option Node}
    (hdata : Option.Rel (Accord l l' env env' c d) x y) :
    Concur Outcome.Twin (conditional env (inContext l) ⟨f, ps, o⟩ x c)
      (conditional env' (inContext l') ⟨f, qs, o'⟩ y d) := by
  have harity : ∀ {m m' : Walk Unit}, Concur Outcome.Twin
      (m >>= fun _ => pure (.error o)) (m' >>= fun _ => pure (.error o')) :=
    concur_after fun _ _ => concur_pure (Outcome.twin_token rfl)
  cases hps with
  | nil => exact harity
  | @cons p q _ _ hcondition hrest =>
    cases hrest with
    | cons => exact harity
    | nil =>
      refine concur_bind (concur_requireToken henv hcondition) fun a b hab => ?_
      cases hab with
      | error hab =>
        cases hab with
        | pending =>
          simp only [henv.loads.late, henv.late, Bool.false_eq_true, if_false]
          exact concur_after fun _ _ => concur_keepCall henv (.cons hcondition .nil) ho hdata
        | value h => exact concur_pure (.value h)
        | empty => exact concur_pure .empty
        | splice h => exact concur_pure (.splice h)
      | @ok t t' ht =>
        have htrue : t.isTrue = t'.isTrue := by
          simp only [TokenOf.isTrue, Alike.value ht, Alike.isContent ht]
        refine concur_ite (by rw [htrue]) ?_ (concur_pure .empty)
        cases hdata with
        | none => exact concur_after fun _ _ => concur_pure .empty
        | some hmn => exact concur_visit henv hmn

end

end

end Reduce

end ContentLang
