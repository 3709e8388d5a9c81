import ContentLang.Proofs.Loading.Captured
import ContentLang.Proofs.Loading.LaterBinding
import ContentLang.Proofs.Settled.Idle
import ContentLang.Proofs.Settled.Kin

/-!
# Loading calls of `Remove`

What the loading pass makes of `Remove(collection, tokens...)`, where the tokens are written out,
depends on what it makes of the collection:

| the collection comes to | the call comes to |
|---|---|
| a call left for later | the call, which waits (`ContentLang.Reduce.surely_removeCall_waits`) |
| an array or a block | less of it (`ContentLang.Reduce.surely_removeCall_collection`) |

In the second case the elements that are taken out are those that are tokens at that time. The
collection is reduced once more by the function, and so captures the bindings of the call in place
of those that it had; the result is only kin to what the collection came to.
-/

namespace ContentLang

open Walk

/-- A call of `Remove` with tokens that are written out. -/
def Node.removeCall (o : Origin) (collection : Node) (ts : List Token) : Node :=
  .call "Remove" (collection :: ts.map .token) o

/-- Whether a node is a collection that is there. -/
def Node.IsCollection (n : Node) : Prop :=
  (∃ is o, n = .array is o) ∨ ∃ es o, n = .block es o

/-- Whether a node stays when tokens are taken out. -/
def Node.stays (ts : List Token) (n : Node) : Bool := !n.token?.any ts.contains

section

variable {K : Kinship} {m n : Node} {ts us : List Token}

theorem contains_alike_all (h : Alike ts us) (t : Token) : ts.contains t = us.contains t := by
  rw [← contains_bare, ← contains_bare us, show bare ts = bare us from h]

/-- Nodes that are alike stay alike. -/
theorem Node.stays_alike (h : Alike m n) (hts : Alike ts us) : m.stays ts = n.stays us := by
  cases m with
  | token s =>
    obtain ⟨t, rfl, hst⟩ := h.token
    show (!ts.contains s) = !us.contains t
    rw [contains_alike_all hts, contains_of_alike hst]
  | _ => cases n <;> first | rfl | simp [Alike] at h

theorem Node.IsCollection.alike (h : m.IsCollection) (hmn : Alike m n) : n.IsCollection := by
  rcases h with ⟨is, o, rfl⟩ | ⟨es, o, rfl⟩
  · obtain ⟨js, o', rfl, -⟩ := hmn.array
    exact .inl ⟨js, o', rfl⟩
  · obtain ⟨fs, o', rfl, -⟩ := hmn.block
    exact .inr ⟨fs, o', rfl⟩

/-- What is alike tokens are tokens. -/
theorem Node.alike_tokens {ns : List Node} (h : Alike (ts.map Node.token) ns) :
    ∃ us : List Token, ns = us.map .token ∧ Alike ts us := by
  induction ts generalizing ns with
  | nil => exact ⟨[], alike_nil_iff.mp h, .refl []⟩
  | cons t ts ih =>
    obtain ⟨n, ns, rfl, hn, hns⟩ := alike_cons_iff.mp h
    obtain ⟨u, rfl, hu⟩ := hn.token
    obtain ⟨us, rfl, hus⟩ := ih hns
    exact ⟨u :: us, rfl, alike_cons_iff.mpr ⟨u, us, rfl, hu, hus⟩⟩

/-- What the keys are that entries are left under. -/
theorem withoutKeys_eq_filter (es : Entries Token Node) (ts : List Token) :
    Library.withoutKeys es ts = es.filter fun e => !ts.any (e.1 == ·) := by
  induction ts generalizing es with
  | nil => simp [Library.withoutKeys]
  | cons t ts ih =>
    have hrest := ih (Entries.erase es t)
    rw [Library.withoutKeys] at hrest ⊢
    rw [List.foldl_cons, hrest, Entries.erase, List.filter_filter]
    refine List.filter_congr fun e _ => ?_
    rw [List.any_cons, Bool.not_or, Bool.and_comm]

theorem kin_withoutKeys {es fs : List (Token × Node)} (h : List.Forall₂ K.Entry es fs)
    (hts : Alike ts us) :
    List.Forall₂ K.Entry (Library.withoutKeys es ts) (Library.withoutKeys fs us) := by
  induction ts generalizing us es fs with
  | nil =>
    obtain rfl := alike_nil_iff.mp hts
    exact h
  | cons t ts ih =>
    obtain ⟨u, us, rfl, htu, hts⟩ := alike_cons_iff.mp hts
    have herased := Entries.kin_erase h (beq_iff_alike.mpr htu)
    have hrest := ih herased hts
    exact hrest

theorem withoutKeys_alike (h : Alike ts us) (es : Entries Token Node) :
    Library.withoutKeys es ts = Library.withoutKeys es us := by
  induction ts generalizing us es with
  | nil => rw [alike_nil_iff.mp h]
  | cons t ts ih =>
    obtain ⟨u, us, rfl, htu, hts⟩ := alike_cons_iff.mp h
    have herased : Entries.erase es t = Entries.erase es u :=
      List.filter_congr fun e _ => by rw [← beq_bare e.1 t, htu, beq_bare]
    rw [Library.withoutKeys, Library.withoutKeys, List.foldl_cons, List.foldl_cons, herased]
    exact ih hts _

theorem without_alike (h : Alike ts us) (n : Node) : n.without ts = n.without us := by
  cases n with
  | array is o =>
    have hstays : (fun n : Node => !n.token?.any ts.contains) =
        fun n => !n.token?.any us.contains := by
      funext n
      cases n.token? with
      | none => rfl
      | some t => exact congrArg (!·) (contains_alike_all h t)
    simp only [Node.without, hstays]
  | block es o => simp only [Node.without, withoutKeys_alike h]
  | _ => rfl

/-- Kin collections are kin without the same tokens. -/
theorem Node.Kin.without (h : m.Kin K n) (hts : Alike ts us) :
    (m.without ts).Kin K (n.without us) := by
  cases h with
  | array his ho =>
    exact .array (List.rel_filter (fun _ _ h => Bool.eq_iff_iff.mp (Node.stays_alike h.alike hts))
      his) ho
  | columns hkeys hvalues ho =>
    exact Node.kin_block (kin_withoutKeys (forall₂_rows.mpr ⟨hkeys, hvalues⟩) hts) ho
  | token h => exact .token h
  | call hf hps ho => exact .call hf hps ho
  | statement hf hps ho hd => exact .statement hf hps ho hd

end

namespace Reduce

/-! ### Tokens that are written out -/

theorem tokensOf_tokens (known : String → Bool) (us : List Token) :
    tokensOf known (us.map .token) = .ok us := by
  induction us with
  | nil => rfl
  | cons u us ih =>
    rw [List.map_cons, tokensOf_cons, ih]
    rfl

/-- Tokens are what they have to be. -/
theorem meets_requireTokens {T : Terms} (hT : Terms.still.Covers T) {ev : Evaluator} {ends : Prop}
    {N : Node → Prop} (hev : ev.Keeps ends N) (ctx : Context) {us : List Token}
    (hus : ∀ u ∈ us, N (.token u)) :
    Meets T ends (fun r => ∃ vs, r = .ok vs ∧ Alike us vs)
      (ev.requireTokens ctx (us.map .token)) := by
  have hkept : ∀ n ∈ us.map Node.token, N n := by
    rintro _ hu
    obtain ⟨u, hmem, rfl⟩ := List.mem_map.mp hu
    exact hus u hmem
  have hread := Evaluator.reads_requireTokens hev ctx hkept
  rw [tokensOf_tokens] at hread
  have hstill : (Terms.quietIf ((.ok us : Reading (List Token)) ≠ .error .wrong)).Covers .still :=
    Terms.quietIf_covers_quietIf fun _ => by simp
  refine (hread.mono hstill id ?_).mono hT id fun _ h => h
  rintro (o | vs) hvs
  · exact hvs.elim
  · exact ⟨vs, rfl, hvs⟩

/-! ### Loading -/

/-- Whether a walk comes to an answer that satisfies a condition, from every state. -/
abbrev Surely {α : Type} (P : α → Prop) (m : Walk α) : Prop := Meets .any True P m

/-- A walk of which a run is known that comes to the same from every state. -/
theorem surely_of_run {α : Type} {m : Walk α} {s : WalkState} {a : α}
    (ha : (m s).answer = .ok a) (hblind : ∀ s s', (m s).answer = (m s').answer) :
    Surely (· = a) m := by
  intro s' _
  refine ⟨fun h => h.elim, fun _ _ => trivial, fun _ => ⟨a, (hblind s' s).trans ha⟩, fun b hb => ?_⟩
  exact Except.ok.inj (hb.symm.trans ((hblind s' s).trans ha))

/-- What comes to a call left for later is not a token yet. -/
theorem surely_requireToken_waits {ev : Evaluator} {p n : Node} {ctx : Context}
    (hp : Surely (· = .value n) (ev.reduce p ctx)) (hn : n.isDeferred ev.isKnown = true) :
    Surely (· = .error .pending) (ev.requireToken p ctx) := by
  refine meets_bind hp fun out hout => ?_
  subst hout
  cases n with
  | call f ps o =>
    simp only [Node.function?, show ev.isKnown f = true from hn, if_true]
    exact meets_pure rfl
  | statement f ps o data =>
    simp only [Node.function?, show ev.isKnown f = true from hn, if_true]
    exact meets_pure rfl
  | _ => exact absurd hn (by simp [Node.isDeferred, Node.function?])

section

variable {env : Surroundings} (hlate : env.late = false) {limit : Nat} {ctx : Context}
include hlate

theorem surely_tokens (ts : List Token) :
    Surely (fun r => ∃ us : List Token, r = some (us.map .token) ∧ Alike ts us)
      (reduceParams env (inContext (limit + 1)) ctx (ts.map .token)) := by
  induction ts with
  | nil => exact meets_pure ⟨[], rfl, .refl []⟩
  | cons t ts ih =>
    let u : Token := { t with origin := { t.origin with context := ctx } }
    have hvisit : visit env (inContext (limit + 1)) (.token t) ctx = pure (.value (.token u)) :=
      visit_loading hlate _ _ _
    rw [List.map_cons, reduceParams, hvisit, pure_bind]
    refine meets_map ih fun r hr => ?_
    obtain ⟨us, rfl, hus⟩ := hr
    exact ⟨u :: us, rfl, alike_cons_iff.mpr ⟨u, us, rfl, rfl, hus⟩⟩

end

/-- The parameters of `Remove`. -/
theorem surely_removeParams {env : Surroundings} (henv : env.Loads) {limit : Nat} {ctx : Context}
    {x n : Node} {s : WalkState} {out : Outcome}
    (hload : (inContext limit env x ctx s).answer = .ok out) (hn : out.toNode? x.origin = some n)
    (o : Origin) (ts : List Token) :
    Surely (fun r => ∃ us : List Token, Alike ts us ∧
        r = some ⟨"Remove", n :: us.map .token, { o with context := ctx }⟩)
      (reduceCallParams env (inContext limit) ⟨"Remove", x :: ts.map .token, o⟩ ctx) := by
  obtain ⟨limit, rfl⟩ : ∃ l, limit = l + 1 := by
    cases limit with
    | zero => exact nomatch hload
    | succ l => exact ⟨l, rfl⟩
  have hx : Surely (· = out) (visit env (inContext (limit + 1)) x ctx) := by
    rw [visit_loading henv.late]
    exact surely_of_run hload fun s s' => blind_inContext _ env henv x ctx s s'
  have hparams : Surely (fun r => ∃ us : List Token, Alike ts us ∧ r = some (n :: us.map .token))
      (reduceParams env (inContext (limit + 1)) ctx (x :: ts.map .token)) := by
    rw [reduceParams]
    refine meets_bind hx fun out' hout => ?_
    subst hout
    simp only [hn]
    refine meets_map (surely_tokens henv.late ts) fun r hr => ?_
    obtain ⟨us, rfl, hus⟩ := hr
    exact ⟨us, hus, rfl⟩
  refine meets_map hparams fun r hr => ?_
  obtain ⟨us, hus, rfl⟩ := hr
  exact ⟨us, hus, rfl⟩

section

variable {env : Surroundings} (henv : env.Loads) {limit : Nat} (hlimit : limit ≤ env.limit)
  {ctx : Context} {n : Node} (hn : n.Settled env.registry false) (hdepth : n.depth ≤ limit)
include henv hlimit hn hdepth

/-- A settled node stays, of its kind. -/
theorem surely_stays {K : Kinship} (hK : ∀ c d, K.contexts c d) (hkin : n.Kin K n) :
    Surely (Stays K n) (visit env (inContext limit) n ctx) := by
  have hsettled : n.Settled env.registry env.late := henv.late ▸ hn
  have hstill : Surely (Says n) (visit env (inContext limit) n ctx) :=
    (still_inContext limit env n _ hsettled).mono (Terms.quietIf_covers_any _)
      (fun _ => ⟨hdepth, hlimit⟩) fun _ h => h
  exact (hstill.and (stays_inContext hK env limit n _ hsettled hkin) fun _ h => h).imp
    fun _ h => h.2

/-- **A collection that is there** is given without the elements or entries that are taken out. -/
theorem surely_remove {K : Kinship} (hK : ∀ c d, K.contexts c d) (hkin : n.Kin K n)
    (hcollection : n.IsCollection) (us : List Token) (o : Origin) :
    Surely (fun out => ∃ r, out = .value r ∧ (n.without us).Kin K r)
      (Library.remove.reduce (evaluator env (inContext limit))
        ⟨"Remove", n :: us.map .token, o⟩ ctx) := by
  have hkeeps : (evaluator env (inContext limit)).Keeps True (Kept limit env True) :=
    keeps_evaluator (still_inContext limit) fun _ => hlimit
  have htoken : ∀ u ∈ us, Kept limit env True (.token u) := fun u _ =>
    ⟨.token u, fun _ => Nat.le_trans (Node.depth_token_le u n) hdepth⟩
  have harity : (Arity.atLeast 1).accepts (n :: us.map Node.token).length = true := by
    simp [Arity.accepts]
  simp only [Library.remove, Function.forgetful, Evaluator.withFirst, harity, if_true]
  refine meets_bind (meets_requireTokens (Terms.quietIf_covers_any _) hkeeps ctx htoken)
    fun r hr => ?_
  obtain ⟨vs, rfl, hvs⟩ := hr
  refine meets_bind (surely_stays henv hlimit hn hdepth hK hkin) fun out hout => ?_
  obtain ⟨m, rfl, hm⟩ := hout
  have hkept : Kept limit env True m := hkeeps.alike hm.alike ⟨henv.late ▸ hn, fun _ => hdepth⟩
  have hwithout := hm.without hvs
  rcases hcollection with ⟨is, o, rfl⟩ | ⟨es, o, rfl⟩
  · cases hm with
    | @array _ js _ o' _ _ =>
      refine meets_map ((Library.still_withoutElements hkeeps ctx vs (hkeeps.items hkept)).mono
        (Terms.quietIf_covers_any _) id fun _ h => h) fun ns hns => ?_
      subst hns
      exact ⟨_, rfl, hwithout⟩
  · obtain ⟨fs, o', rfl, -⟩ := hm.block
    exact meets_pure ⟨_, rfl, hwithout⟩

/-- A collection that is left for later is waited for. -/
theorem surely_remove_waits (hdeferred : n.isDeferred (Registry.isKnown env.registry) = true)
    (us : List Token) (o : Origin) :
    Surely (· = .pending)
      (Library.remove.reduce (evaluator env (inContext limit))
        ⟨"Remove", n :: us.map .token, o⟩ ctx) := by
  have hkeeps : (evaluator env (inContext limit)).Keeps True (Kept limit env True) :=
    keeps_evaluator (still_inContext limit) fun _ => hlimit
  have hparams : ∀ p ∈ n :: us.map Node.token, Kept limit env True p := by
    refine List.forall_mem_cons.mpr ⟨⟨henv.late ▸ hn, fun _ => hdepth⟩, fun p hp => ?_⟩
    obtain ⟨u, -, rfl⟩ := List.mem_map.mp hp
    exact ⟨.token u, fun _ => Nat.le_trans (Node.depth_token_le u n) hdepth⟩
  have hread : Meaning.remove.read (Registry.isKnown env.registry) (n :: us.map .token) =
      .error .waits := by
    have hcollection : collectionOf (Registry.isKnown env.registry) n = .error .waits := by
      cases n with
      | token t => exact absurd hdeferred (by simp [Node.isDeferred, Node.function?])
      | array is o => exact absurd hdeferred (by simp [Node.isDeferred, Node.function?])
      | block es o => exact absurd hdeferred (by simp [Node.isDeferred, Node.function?])
      | _ => simp [collectionOf, Node.stuck, hdeferred]
    simp only [Meaning.remove, tokensOf_tokens, hcollection]
    rfl
  refine ((Library.means_remove hkeeps ⟨"Remove", n :: us.map .token, o⟩ ctx hparams
    fun h => absurd hread h).mono (Terms.quietIf_covers_any _) id fun out hout => ?_)
  rw [Meaning.outcome, show (evaluator env (inContext limit)).isKnown =
    Registry.isKnown env.registry from rfl, hread] at hout
  exact Outcome.alike_pending_iff.mp hout

end

/-- **What loading makes of a call of `Remove`**: what the function gives, or the call if the
function waits. -/
theorem surely_removeCall {env : Surroundings} (henv : env.Loads)
    (hregistry : env.registry = .builtin) {limit : Nat} {ctx : Context} {x n : Node} {s : WalkState}
    {out : Outcome} (hload : (inContext limit env x ctx s).answer = .ok out)
    (hn : out.toNode? x.origin = some n) (o : Origin) (ts : List Token) {P : Outcome → Prop}
    (hP : ∀ us : List Token, Alike ts us →
      Surely (fun out => (out ≠ .pending → P out) ∧ (out = .pending →
          P (.value (.call "Remove" (n :: us.map .token) { o with context := ctx }))))
        (Library.remove.reduce (evaluator env (inContext limit))
          ⟨"Remove", n :: us.map .token, { o with context := ctx }⟩ ctx)) :
    Surely P (inContext (limit + 1) env (.removeCall o x ts) ctx) := by
  have hfunction : Registry.get? env.registry "Remove" = some Library.remove := by
    rw [hregistry]
    rfl
  show Surely P (call env (inContext limit) ⟨"Remove", x :: ts.map .token, o⟩ none ctx)
  rw [call_eq_callFunction (by decide) hfunction]
  refine meets_bind (surely_removeParams henv hload hn o ts) fun r hr => ?_
  obtain ⟨us, hus, rfl⟩ := hr
  refine meets_bind (hP us hus) fun out hout => ?_
  by_cases hpending : out = .pending
  · subst hpending
    simp only [Outcome.isPending, henv.late, Bool.not_false, Bool.and_self, if_true]
    exact meets_bind (meets_remarkAt (Terms.quietIf_covers_any _) _ _ _) fun _ _ =>
      meets_pure (hout.2 rfl)
  · have hready : out.isPending = false := by cases out <;> simp_all [Outcome.isPending]
    simp only [hready, Bool.false_and, Bool.false_eq_true, if_false]
    exact meets_pure (hout.1 hpending)

section

variable {env : Surroundings} (henv : env.Loads) (hregistry : env.registry = .builtin) {limit : Nat}
  (hlimit : limit ≤ env.limit) {ctx : Context} (hctx : ctx.Laid env.registry noneShunned)
  {x n : Node} {s : WalkState} {out : Outcome}
  (hload : (inContext limit env x ctx s).answer = .ok out) (hn : out.toNode? x.origin = some n)
  (hdepth : n.depth ≤ limit) (o : Origin) (ts : List Token)
include henv hctx hload hn

/-- What a node comes to in the loading pass is settled. -/
theorem settled_of_run : n.Settled env.registry false := by
  have hlaid := settles_inContext noneShunned limit env henv x ctx x.inert_noneShunned hctx
  obtain ⟨m, hm, hlaid⟩ := (answer_of_loading hlaid hload).toNode x.origin
  obtain rfl : n = m := Option.some.inj (hn.symm.trans hm)
  exact hlaid.1

include hregistry hlimit hdepth

/-- A collection that is left for later keeps the call. -/
theorem surely_removeCall_waits (hdeferred : n.isDeferred (Registry.isKnown env.registry) = true) :
    Surely (fun out => ∃ us : List Token, Alike ts us ∧
        out = .value (.call "Remove" (n :: us.map .token) { o with context := ctx }))
      (inContext (limit + 1) env (.removeCall o x ts) ctx) := by
  have hsettled := settled_of_run henv hctx hload hn
  refine surely_removeCall henv hregistry hload hn o ts fun us hus =>
    (surely_remove_waits henv hlimit hsettled hdepth hdeferred us _).imp fun out hout =>
      ⟨fun h => absurd hout h, fun _ => ⟨us, hus, rfl⟩⟩

/-- From a collection that is there the tokens are taken out. -/
theorem surely_removeCall_collection {K : Kinship} (hK : ∀ c d, K.contexts c d) (hkin : n.Kin K n)
    (hcollection : n.IsCollection) :
    Surely (fun out => ∃ r, out = .value r ∧ (n.without ts).Kin K r)
      (inContext (limit + 1) env (.removeCall o x ts) ctx) := by
  have hsettled := settled_of_run henv hctx hload hn
  refine surely_removeCall henv hregistry hload hn o ts fun us hus =>
    (surely_remove henv hlimit hsettled hdepth hK hkin hcollection us _).imp fun out hout => ?_
  obtain ⟨r, rfl, hr⟩ := hout
  exact ⟨fun _ => ⟨r, rfl, by rwa [without_alike hus]⟩, fun h => nomatch h⟩

end

end Reduce

end ContentLang
