import ContentLang.Proofs.Deferral.Natural
import ContentLang.Proofs.Settled.Still
import ContentLang.Proofs.Walk.Parts

/-!
# Passes over pure nodes

Either pass makes of a pure node what it yields there (`ContentLang.Node.Delivered`), and comes to
an end if walks may be nested as deep as the node is (`ContentLang.Reduce.delivers_reduce`). What is
left is pure again, no deeper, and settled.

The induction is on how deep walks may be nested, with one case for each kind of pure node. A
pure function is given parameters after the pass has been over them, and reduces them again.
They are settled then, so its meaning says what it gives, up to where that stands. Where that
stands is said by how the function builds it. If it waits for a parameter, the call is kept.
-/

namespace ContentLang

open Walk

/-! ### What a pass makes of a node -/

namespace Node

/-- **What stands in the place of a parameter** that was a pure node, after a pass. -/
structure Passed (w : World) (late : Bool) (n q : Node) : Prop where
  pure : q.Pure fun o => o.context = []
  depth : q.depth ≤ n.depth
  settled : q.Settled .builtin late
  node : n.yieldNode w late = bare q

/-- **What a pass makes of a pure node.** -/
structure Delivered (w : World) (late : Bool) (n q : Node) : Prop extends Passed w late n q where
  yield : n.yield w late = some (bare q)

variable {w : World} {late : Bool} {n q : Node}

theorem Delivered.of_yield (hpure : q.Pure fun o => o.context = []) (hdepth : q.depth ≤ n.depth)
    (hsettled : q.Settled .builtin late) (hyield : n.yield w late = some (bare q)) :
    n.Delivered w late q :=
  ⟨⟨hpure, hdepth, hsettled, yieldNode_of_some hyield⟩, hyield⟩

/-- Null takes the place of nothing. -/
theorem Passed.null (o : Origin) (h : n.yield w late = none) :
    n.Passed w late (.token (.null o)) where
  pure := .token _
  depth := depth_token_le _ n
  settled := .token _
  node := yieldNode_of_none h

/-- A token stays. -/
theorem delivered_token {t t' : Token} (h : Alike t t') :
    (Node.token t).Delivered w late (.token t') :=
  .of_yield (.token t') (by simp) (.token t') (congrArg (some <| Node.token ·) h)

/-- Parameters after a pass. -/
abbrev PassedAll (w : World) (late : Bool) (ps qs : List Node) : Prop :=
  Sifted (Passed w late) (fun _ => False) ps qs

section

variable {ps qs : List Node} (h : PassedAll w late ps qs)
include h

theorem pure_of_passed : ∀ q ∈ qs, q.Pure fun o => o.context = [] := fun _ hq =>
  have ⟨_, _, hpq⟩ := h.exists_of_mem hq
  hpq.pure

theorem depth_of_passed : ∀ q ∈ qs, q.depth ≤ depthOfAll ps := fun _ hq =>
  have ⟨p, hp, hpq⟩ := h.exists_of_mem hq
  Nat.le_trans hpq.depth (depthOfAll_le.mp (Nat.le_refl _) p hp)

theorem settled_of_passed : ∀ q ∈ qs, q.Settled .builtin late := fun _ hq =>
  have ⟨_, _, hpq⟩ := h.exists_of_mem hq
  hpq.settled

theorem yieldNode_of_passed : ps.map (yieldNode w late) = bare qs :=
  (h.map_eq fun _ _ _ hpq => hpq.node.symm).symm

end

/-- In consumption nothing is left of parameters that could be reduced. -/
theorem inert_of_passed {P : Origin → Prop} {ps qs : List Node} (h : PassedAll w true ps qs)
    (hps : ∀ p ∈ ps, p.Pure P) : ∀ q ∈ qs, q.Inert Registry.builtin.isKnown := fun q hq => by
  obtain ⟨p, hp, hpq⟩ := h.exists_of_mem hq
  have hyielded := (hps p hp).yieldedNode (w := w) yielded_inert
  rw [hpq.node] at hyielded
  exact Alike.inert (bare_bare q) hyielded

/-! ### One lemma a kind of node -/

section

variable {o o' : Origin} (ho' : o'.context = [])
include ho'

theorem delivered_array {is ms : List Node}
    (h : Sifted (Delivered w late) (fun i => i.yield w late = none) is ms) :
    (array is o).Delivered w late (array ms o') := by
  refine .of_yield (.array ho' fun m hm => ?_) ?_ (.array fun m hm => ?_) ?_
  · obtain ⟨i, -, him⟩ := h.exists_of_mem hm
    exact him.pure
  · rw [depth, depth]
    refine Nat.succ_le_succ (depthOfAll_le.mpr fun m hm => ?_)
    obtain ⟨i, hi, him⟩ := h.exists_of_mem hm
    exact Nat.le_trans him.depth (depthOfAll_le.mp (Nat.le_refl _) i hi)
  · obtain ⟨i, -, him⟩ := h.exists_of_mem hm
    exact him.settled
  · have hitems : ms.filterMap (some ∘ bare) = is.filterMap (Node.yield w late) :=
      h.filterMap_eq (fun i _ m him => him.yield.symm) fun i _ hnothing => hnothing
    rw [yield_array, ← hitems, List.filterMap_eq_map, bare_array, bare_list]

theorem delivered_block {es fs : List (Token × Node)}
    (h : Sifted (fun e e' => e'.1 = e.1 ∧ e.2.Delivered w late e'.2)
      (fun e => e.2.yield w late = none) es fs) :
    (block es o).Delivered w late (block fs o') := by
  refine .of_yield (.block ho' fun e' he' => ?_) ?_ (.block fun e' he' => ?_) ?_
  · obtain ⟨e, -, -, hee'⟩ := h.exists_of_mem he'
    exact hee'.pure
  · rw [depth, depth]
    refine Nat.succ_le_succ (depthOfEntries_le.mpr fun e' he' => ?_)
    obtain ⟨e, he, -, hee'⟩ := h.exists_of_mem he'
    exact Nat.le_trans hee'.depth (depthOfEntries_le.mp (Nat.le_refl _) e he)
  · obtain ⟨e, -, -, hee'⟩ := h.exists_of_mem he'
    exact hee'.settled
  · have hentries : fs.filterMap (some ∘ bare) = es.filterMap (yieldEntry w late) := by
      refine h.filterMap_eq (fun e _ e' hee' => ?_) fun e _ hnothing => ?_
      · rw [yieldEntry, hee'.2.yield, ← hee'.1]
        rfl
      · rw [yieldEntry, hnothing, Option.map_none]
    rw [yield_block, ← hentries, List.filterMap_eq_map, bare_block, bare_list]

variable {f : String} {ps qs : List Node} (hqs : PassedAll w late ps qs) (ho : o'.bare = o.bare)
include hqs ho

omit ho' in
/-- A call that is kept. -/
theorem delivered_call (hpure : (call f qs o').Pure fun o => o.context = [])
    (hrests : Rests .builtin late f qs)
    (hyield : (call f ps o).yield w late = some (call f (ps.map (yieldNode w late)) o.bare)) :
    (call f ps o).Delivered w late (call f qs o') := by
  refine .of_yield hpure ?_ (.call hrests (settled_of_passed hqs)) ?_
  · rw [depth, depth]
    exact Nat.succ_le_succ (depthOfAll_le.mpr (depth_of_passed hqs))
  · rw [hyield, yieldNode_of_passed hqs, bare_call, ho]

/-- A call of a name that is not known, with data. -/
theorem delivered_statement {data data' : Node} (hf : Registry.builtin.isKnown f = false)
    (hdata : data.Passed w late data') :
    (statement f ps o data).Delivered w late (statement f qs o' data') := by
  have hkeeps := And.intro (Registry.ne_of_not_isKnown hf).1 (Registry.not_isKnown_iff.mp hf).2
  refine .of_yield (.statement hf ho' (pure_of_passed hqs) hdata.pure) ?_
    (.statement (.unknown hf) hkeeps (settled_of_passed hqs) hdata.settled) ?_
  · rw [depth, depth]
    refine Nat.succ_le_succ (Nat.max_le.mpr ⟨?_, ?_⟩)
    · exact Nat.le_trans (depthOfAll_le.mpr (depth_of_passed hqs)) (Nat.le_max_left _ _)
    · exact Nat.le_trans hdata.depth (Nat.le_max_right _ _)
  · rw [yield_statement, yieldNode_of_passed hqs, hdata.node, bare_statement, ho]

end

end Node

/-- Whether an outcome is what a pass makes of a pure node. -/
def Outcome.Delivers (w : World) (late : Bool) (n : Node) : Outcome → Prop
  | value q => n.Delivered w late q
  | empty => n.yield w late = none
  | splice _ => False
  | pending => False

/-- What stands in the place of a parameter that came to an outcome. -/
theorem Outcome.Delivers.toNode {w : World} {late : Bool} {n : Node} {out : Outcome}
    (h : out.Delivers w late n) (o : Origin) :
    ∃ q, out.toNode? o = some q ∧ n.Passed w late q := by
  cases out with
  | value q => exact ⟨q, rfl, h.toPassed⟩
  | empty => exact ⟨_, rfl, .null o h⟩
  | splice items => exact h.elim
  | pending => exact h.elim

/-! ### Calls of pure functions -/

/-- Nodes after a pass that are no deeper than a call of parameters. -/
abbrev Node.Within (ps : List Node) (q : Node) : Prop :=
  (q.Pure fun o => o.context = []) ∧ q.depth ≤ Node.depthOfAll ps + 1

theorem Node.layered_within (ps : List Node) :
    Node.Layered (fun o => o.context = [])
      (fun q => (q.Pure fun o => o.context = []) ∧ q.depth ≤ Node.depthOfAll ps)
      (Node.Within ps) where
  token t := ⟨.token t, by simp⟩
  array {is o} := by
    refine ⟨fun ⟨hpure, hdepth⟩ => ?_, fun ⟨ho, his⟩ => ?_⟩
    · cases hpure with
      | array ho his => exact ⟨ho, fun i hi => ⟨his i hi, Node.depth_array_le.mp hdepth i hi⟩⟩
    · exact ⟨.array ho fun i hi => (his i hi).1,
        Node.depth_array_le.mpr fun i hi => (his i hi).2⟩
  block {es o} := by
    refine ⟨fun ⟨hpure, hdepth⟩ => ?_, fun ⟨ho, hes⟩ => ?_⟩
    · cases hpure with
      | block ho hes => exact ⟨ho, fun e he => ⟨hes e he, Node.depth_block_le.mp hdepth e he⟩⟩
    · exact ⟨.block ho fun e he => (hes e he).1,
        Node.depth_block_le.mpr fun e he => (hes e he).2⟩

/-- **What a pure function gives that waits for nothing.** -/
theorem delivers_ready {w : World} {late : Bool} {f : String} {function : Function} {α : Type}
    [Bare α] {m : Meaning α} {ps qs : List Node} {o o' : Origin} {out : Outcome}
    (hf : function.Agrees m f) (hqs : Node.PassedAll w late ps qs) (ho : o'.bare = o.bare)
    (hread : m.read Registry.builtin.isKnown qs ≠ .error .waits)
    (hout : Alike (m.evaluation w ⟨f, qs, o'⟩) out) (hone : out.One (Node.Within ps)) :
    out.Delivers w late (.call f ps o) := by
  obtain ⟨hready, hsettled⟩ := hf.lawful.outcome Node.closed_settled w ⟨f, qs, o'⟩
    (Node.settled_of_passed hqs) (List.forall_mem_nil _) hread
  -- Of the parameters only the bare form matters.
  have hyield : (Node.call f ps o).yield w late = out.left (.call f (bare qs) o.bare) := by
    have hbare : Alike out (m.evaluation w ⟨f, bare qs, o'.bare⟩) :=
      hout.symm.trans (hf.placeless.outcome _ w ⟨f, qs, o'⟩)
    rw [Node.yield_call, Node.yieldNode_of_passed hqs, evaluate, hf.evaluate, ← ho]
    exact (Outcome.left_of_alike hbare _).symm
  cases out with
  | value r =>
    obtain ⟨q, hq, hrq⟩ := Outcome.alike_value_iff.mp hout.symm
    have hnodes : q ∈ (m.evaluation w ⟨f, qs, o'⟩).nodes := by simp [hq]
    exact .of_yield hone.1 (by rw [Node.depth]; exact hone.2)
      ((hsettled q hnodes).alike hrq.symm) hyield
  | empty => exact hyield
  | splice items => exact hone
  | pending => exact absurd (Outcome.alike_pending_iff.mp hout.symm) hready

/-! ### Choices -/

theorem Node.depth_choice (t : Token) (o o' : Origin) :
    (Node.call "Choose" [.array [.token t] o] o').depth = 3 := by
  simp [Node.depth, Node.depthOfAll]

/-- Of one index every draw picks that one. -/
theorem uniformIndex_one {limit : Nat} (h : 0 < limit) (g : Generator) :
    uniformIndex 1 limit g = some (0, g.advance) := by
  obtain ⟨limit, rfl⟩ : ∃ l, limit = l + 1 := ⟨limit - 1, by omega⟩
  have hvalue : g.value.toNat < drawRange := UInt64.toNat_lt_size g.value
  have hzone : g.value.toNat * 1 % drawRange ≤ uniformZone 1 := by
    rw [uniformZone, Nat.mod_one, Nat.sub_zero]
    exact Nat.le_sub_one_of_lt (Nat.mod_lt _ (Nat.zero_lt_of_lt hvalue))
  have hindex : acceptedIndex? 1 g.value.toNat = some 0 := by
    rw [acceptedIndex?, if_pos hzone, Nat.mul_one, Nat.div_eq_of_lt hvalue]
  rw [uniformIndex, hindex]

theorem meets_drawOnly {ends : Prop} {limit : Nat} (hlimit : ends → 0 < limit) :
    Meets .any ends (· = 0) (Walk.draw (uniformIndex 1 limit)) := by
  intro s _
  rcases Nat.eq_zero_or_pos limit with rfl | hpos
  · exact ⟨fun h => h.elim, fun _ _ => trivial, fun h => absurd (hlimit h) (Nat.lt_irrefl 0),
      fun i hi => nomatch hi⟩
  · have hrun : Walk.draw (uniformIndex 1 limit) s =
        ⟨.ok 0, { s with generator := s.generator.advance }, []⟩ := by
      rw [Walk.draw, uniformIndex_one hpos]
    rw [hrun]
    exact ⟨fun h => h.elim, fun _ _ => trivial, fun _ => ⟨0, rfl⟩,
      fun i hi => (Except.ok.inj hi).symm⟩

/-- A choice between one token gives what the token is reduced to. -/
theorem meets_chooseOnly {ev : Evaluator} {ends : Prop} {P : Outcome → Prop} {t : Token}
    {ctx : Context} (o o' : Origin) (hlimit : ends → 0 < ev.limit)
    (ht : Meets .any ends P (ev.reduce (.token t) ctx)) :
    Meets .any ends P (Library.choose.reduce ev ⟨"Choose", [.array [.token t] o], o'⟩ ctx) := by
  show Meets _ _ _ (Walk.draw (uniformIndex 1 ev.limit) >>= fun i => _)
  refine meets_bind (meets_drawOnly hlimit) fun i hi => ?_
  subst hi
  exact ht

/-! ### Parts -/

/-- The world that a walk is carried out beside. -/
def Surroundings.world (env : Surroundings) : World := ⟨env.host, env.settings⟩

namespace Node

/-- A pure node that is no token comes from where it may. -/
theorem Pure.origin {P : Origin → Prop} {n : Node} (h : n.Pure P) :
    (∃ t, n = .token t) ∨ P n.origin := by
  cases h with
  | token t => exact .inl ⟨t, rfl⟩
  | array ho _ => exact .inr ho
  | block ho _ => exact .inr ho
  | unknown _ ho _ => exact .inr ho
  | statement _ ho _ _ => exact .inr ho
  | call _ ho _ => exact .inr ho
  | choice _ _ ho => exact .inr ho

end Node

namespace Reduce

/-- **Whether a way to reduce nodes delivers pure ones**, nested no deeper than a limit. What is
consumed must not have captured anything. -/
def DeliveringReducer (limit : Nat) (rec : Reducer) : Prop :=
  ∀ (env : Surroundings) {P : Origin → Prop} (n : Node), env.registry = .builtin →
    (env.late = true → ∀ o, P o → o.context = []) → n.Pure P →
      Meets .any (Ends limit env n.depth) (Outcome.Delivers env.world env.late n) (rec env n [])

/-- A pure element binds nothing, and what follows a call in it is its data. -/
theorem element_of_pure {env : Surroundings} (hregistry : env.registry = .builtin)
    {P : Origin → Prop} {n : Node} (hn : n.Pure P) (rec : Reducer) (ctx : Context) :
    element env rec ctx n = plainElement env rec ctx n := by
  cases hn with
  | token t => rfl
  | array _ _ => rfl
  | block _ _ => rfl
  | unknown hf _ _ => rw [element, if_neg (Registry.ne_of_not_isKnown hf).2.2]
  | @statement f _ _ _ hf _ _ _ =>
    have hdata : takesNoData env f = false := by
      simp only [takesNoData, hregistry, (Registry.ne_of_not_isKnown hf).1,
        (Registry.not_isKnown_iff.mp hf).2, decide_false, Bool.or_self]
    rw [element, if_neg (Registry.ne_of_not_isKnown hf).2.2, hdata]
    rfl
  | @call f _ _ hf _ _ =>
    have hname : f ≠ setName := fun h => not_construct_of_pure hf (by simp [h, constructs])
    rw [element, if_neg hname]
  | choice t o _ => rw [element, if_neg (by decide)]

/-- A token is delivered in every context. -/
theorem delivers_token (limit : Nat) (env : Surroundings) (t : Token) (ctx : Context) :
    Meets .any (Ends limit env 1) (Outcome.Delivers env.world env.late (.token t))
      (inContext limit env (.token t) ctx) := by
  refine (still_inContext limit env (.token t) ctx (.token t)).mono (Terms.quietIf_covers_any _)
    (fun h => by rwa [Node.depth_token]) fun out hout => ?_
  obtain ⟨m, rfl, hm⟩ := hout
  obtain ⟨t', rfl, ht⟩ := hm.token
  exact Node.delivered_token ht

section

variable {limit : Nat} (hrec : DeliveringReducer limit (inContext limit)) {env : Surroundings}
  (hregistry : env.registry = .builtin) {P : Origin → Prop}
  (hP : env.late = true → ∀ o, P o → o.context = []) {ends : Prop}
  (hends : ends → limit ≤ env.limit)
include hrec hregistry hP hends

theorem delivers_visit {n : Node} (hn : n.Pure P) (hdepth : ends → n.depth ≤ limit) :
    Meets .any ends (Outcome.Delivers env.world env.late n) (visit env (inContext limit) n []) := by
  rcases hn.origin with ⟨t, rfl⟩ | ho
  · rw [visit]
    refine (delivers_token limit env t _).mono (.refl _) (fun h => ?_) fun _ h => h
    exact ⟨by simpa using hdepth h, hends h⟩
  · have hcontext : contextOf env n [] = [] := by
      unfold contextOf
      split
      next h => exact hP (by simpa using And.left (by simpa using h)) _ ho
      next => rfl
    rw [visit, hcontext]
    exact (hrec env n hregistry hP hn).mono (.refl _) (fun h => ⟨hdepth h, hends h⟩) fun _ h => h

theorem delivers_param {p : Node} (hp : p.Pure P) (hdepth : ends → p.depth ≤ limit) :
    Meets .any ends
      (fun out => ∃ q, out.toNode? p.origin = some q ∧
        ((∃ r, [q] = [r] ∧ p.Passed env.world env.late r) ∨ [q] = [] ∧ False))
      (visit env (inContext limit) p []) := by
  refine (delivers_visit hrec hregistry hP hends hp hdepth).imp fun out hout => ?_
  obtain ⟨q, hq, hpassed⟩ := hout.toNode p.origin
  exact ⟨q, hq, .inl ⟨q, rfl, hpassed⟩⟩

theorem delivers_params {ps : List Node} (hps : ∀ p ∈ ps, p.Pure P)
    (hdepth : ends → ∀ p ∈ ps, p.depth ≤ limit) (f : String) (o : Origin) :
    Meets .any ends
      (fun r => ∃ qs, r = some ⟨f, qs, { o with context := [] }⟩ ∧
        Node.PassedAll env.world env.late ps qs)
      (reduceCallParams env (inContext limit) ⟨f, ps, o⟩ []) :=
  meets_reduceCallParams listwise_sifted
    (fun p hp => delivers_param hrec hregistry hP hends (hps p hp) fun h => hdepth h p hp) f o

/-- What is left of items. -/
theorem delivers_elements {is : List Node} (his : ∀ i ∈ is, i.Pure P)
    (hdepth : ends → ∀ i ∈ is, i.depth ≤ limit) :
    Meets .any ends
      (fun r => ∃ ms, r = some ms ∧ Sifted (Node.Delivered env.world env.late)
        (fun i => i.yield env.world env.late = none) is ms)
      (elements env (inContext limit) [] is) := by
  refine meets_elements listwise_sifted fun i hi => ?_
  rw [element_of_pure hregistry (his i hi)]
  refine meets_plainElement ((delivers_visit hrec hregistry hP hends (his i hi)
    fun h => hdepth h i hi).imp fun out hout => ?_)
  cases out with
  | value q => exact ⟨[q], rfl, .inl ⟨q, rfl, hout⟩⟩
  | empty => exact ⟨[], rfl, .inr ⟨rfl, hout⟩⟩
  | splice items => exact hout.elim
  | pending => exact hout.elim

/-- What is left of entries, under their keys. -/
theorem delivers_entries {es : List (Token × Node)} (hes : ∀ e ∈ es, e.2.Pure P)
    (hdepth : ends → ∀ e ∈ es, e.2.depth ≤ limit) :
    Meets .any ends
      (fun r => ∃ fs, r = some fs ∧
        Sifted (fun e e' => e'.1 = e.1 ∧ e.2.Delivered env.world env.late e'.2)
          (fun e => e.2.yield env.world env.late = none) es fs)
      (entries env (inContext limit) [] es) := by
  refine meets_entries listwise_sifted fun e he => ?_
  refine (delivers_visit hrec hregistry hP hends (hes e he) fun h => hdepth h e he).imp
    fun out hout => ?_
  cases out with
  | value q => exact ⟨_, rfl, .inl ⟨(e.1, q), rfl, rfl, hout⟩⟩
  | empty => exact ⟨_, rfl, .inr ⟨rfl, hout⟩⟩
  | splice items => exact hout.elim
  | pending => exact hout.elim

/-! ### Calls that are not known -/

/-- A call of a name that is not known is kept, with its data. -/
theorem delivers_keepUnknown {f : String} {ps : List Node} (o : Origin)
    (hf : Registry.builtin.isKnown f = false) (hps : ∀ p ∈ ps, p.Pure P)
    (hdepth : ends → ∀ p ∈ ps, p.depth ≤ limit) :
    Meets .any ends (Outcome.Delivers env.world env.late (.call f ps o))
      (keepCall env (inContext limit) ⟨f, ps, o⟩ none []) := by
  refine (meets_keepCall listwise_sifted (fun p hp => delivers_param hrec hregistry hP hends
    (hps p hp) fun h => hdepth h p hp) f o).imp fun out hout => ?_
  obtain ⟨qs, rfl, hqs⟩ := hout
  exact Node.delivered_call hqs rfl (.unknown hf rfl (Node.pure_of_passed hqs)) (.unknown hf)
    (Node.yield_unknown hf ps o)

theorem delivers_keepStatement {f : String} {ps : List Node} (o : Origin) {data : Node}
    (hf : Registry.builtin.isKnown f = false) (hps : ∀ p ∈ ps, p.Pure P) (hdata : data.Pure P)
    (hdepth : ends → (∀ p ∈ ps, p.depth ≤ limit) ∧ data.depth ≤ limit) :
    Meets .any ends (Outcome.Delivers env.world env.late (.statement f ps o data))
      (keepCall env (inContext limit) ⟨f, ps, o⟩ (some data) []) := by
  have hvisit : Meets .any ends
      (fun out => ∃ d, out.toNode? data.origin = some d ∧
        data.Passed env.world env.late d) (visit env (inContext limit) data []) :=
    (delivers_visit hrec hregistry hP hends hdata fun h => (hdepth h).2).imp fun out hout =>
      hout.toNode data.origin
  refine (meets_keepStatement listwise_sifted (fun p hp => delivers_param hrec hregistry hP hends
    (hps p hp) fun h => (hdepth h).1 p hp) f o hvisit).imp fun out hout => ?_
  obtain ⟨qs, d, rfl, hqs, hd⟩ := hout
  exact Node.delivered_statement (by rfl) hqs (by rfl) hf hd

/-! ### Calls of pure functions -/

omit hP in
/-- **A pure function gives what it means**, built of parameters that a pass has been over. -/
theorem delivers_function {f : String} {function : Function} {α : Type} [Bare α] {m : Meaning α}
    {ps qs : List Node} {o : Origin} (hf : function.Agrees m f) (ho : o.context = [])
    (hqs : Node.PassedAll env.world env.late ps qs) (hdepth : ends → ∀ p ∈ ps, p.depth ≤ limit) :
    Meets .any ends
      (fun out => Alike (m.evaluation env.world ⟨f, qs, o⟩) out ∧ out.One (Node.Within ps))
      (function.reduce (evaluator env (inContext limit)) ⟨f, qs, o⟩ []) := by
  have hkept : ∀ q ∈ qs, Kept limit env ends q := fun q hq =>
    ⟨hregistry ▸ Node.settled_of_passed hqs q hq, fun h =>
      Nat.le_trans (Node.depth_of_passed hqs q hq) (Node.depthOfAll_le.mpr (hdepth h))⟩
  have hmeans := hf.means (keeps_evaluator (still_inContext limit) hends) ⟨f, qs, o⟩ [] hkept
    fun _ => List.forall_mem_nil _
  have hknown : (evaluator env (inContext limit)).isKnown = Registry.builtin.isKnown :=
    congrArg Registry.isKnown hregistry
  rw [hknown] at hmeans
  -- Reduced again, what a pass has been over stays among the nodes that may come out.
  have hagain : ∀ q, Node.Within ps q →
      Always (Outcome.One (Node.Within ps)) ((evaluator env (inContext limit)).reduce q []) := by
    intro q hq
    refine (delivers_visit hrec hregistry (fun _ _ h => h) (fun h => h.elim) hq.1
      fun h => h.elim).imp fun out hout => ?_
    cases out with
    | value r => exact ⟨hout.pure, Nat.le_trans hout.depth hq.2⟩
    | empty => trivial
    | splice items => exact hout.elim
    | pending => trivial
  have hbuilds := hf.builds (Node.layered_within ps) hagain ⟨f, qs, o⟩ ho
    (fun q hq => ⟨Node.pure_of_passed hqs q hq,
      Nat.le_succ_of_le (Node.depth_of_passed hqs q hq)⟩) fun hsome t => by
    obtain ⟨q, hq⟩ := List.exists_mem_of_ne_nil _ hsome
    refine ⟨.token t, ?_⟩
    rw [Node.depth_token]
    exact Nat.le_trans q.depth_pos (Node.depth_of_passed hqs q hq)
  exact (hmeans.mono (Terms.quietIf_covers_any _) id fun _ h => h).and hbuilds fun _ _ => trivial

/-- A call of a pure function: it is kept if the function waits, or else it is what the function
gives. -/
theorem delivers_callFunction {f : String} {function : Function} {α : Type} [Bare α]
    {m : Meaning α} {ps : List Node} {o : Origin} (hmem : f ∈ pureNames) (hf : function.Agrees m f)
    (hps : ∀ p ∈ ps, p.Pure P) (hdepth : ends → ∀ p ∈ ps, p.depth ≤ limit) :
    Meets .any ends (Outcome.Delivers env.world env.late (.call f ps o))
      (callFunction env (inContext limit) function ⟨f, ps, o⟩ []) := by
  unfold callFunction
  simp only [hf.late, Bool.false_eq_true, if_false]
  refine meets_bind (delivers_params hrec hregistry hP hends hps hdepth f o) fun r hr => ?_
  obtain ⟨qs, rfl, hqs⟩ := hr
  refine meets_bind (delivers_function hrec hregistry hends hf rfl hqs hdepth) fun out hout => ?_
  obtain ⟨hout, hone⟩ := hout
  by_cases hread : m.read Registry.builtin.isKnown qs = .error .waits
  · rw [Meaning.evaluation, Meaning.outcome, hread] at hout
    obtain rfl := Outcome.alike_pending_iff.mp hout
    -- Nothing that is inert is waited for, and in consumption all parameters are.
    have hnot : ¬ ∀ q ∈ qs, q.Inert Registry.builtin.isKnown := fun hinert =>
      hf.lawful.ready _ _ hinert hread
    have hpass : env.late = false := by
      by_contra hlate
      rw [Bool.not_eq_false] at hlate
      rw [hlate] at hqs
      exact hnot (Node.inert_of_passed hqs hps)
    have hkeep : (Outcome.pending.isPending && !env.late) = true := by
      simp [Outcome.isPending, hpass]
    rw [if_pos hkeep]
    refine meets_map (meets_leave fun _ _ => trivial) fun _ _ => ?_
    refine Node.delivered_call hqs (by rfl) (.call hmem rfl (Node.pure_of_passed hqs))
      (.waiting hpass (not_construct_of_pure hmem) hf.get hf.late
        (Function.Means.waits hf.means hf.lawful hread) hnot) ?_
    have hwaits := (hf.lawful.waits_bare Registry.builtin.isKnown qs).mpr hread
    rw [Node.yield_call, evaluate, hf.evaluate, Node.yieldNode_of_passed hqs]
    show Outcome.left _ (m.outcome Registry.builtin.isKnown _ ⟨f, bare qs, _⟩ []) = _
    rw [Meaning.outcome, hwaits]
    rfl
  · have hdelivers := delivers_ready hf hqs (o := o) (by rfl) hread hout hone
    have hready : out.isPending = false := by
      cases out with
      | pending => exact hdelivers.elim
      | _ => rfl
    simp only [hready, Bool.false_and, Bool.false_eq_true, if_false]
    exact meets_pure hdelivers

theorem delivers_pureCall {f : String} {ps : List Node} (o : Origin) (hf : f ∈ pureNames)
    (hps : ∀ p ∈ ps, p.Pure P) (hdepth : ends → ∀ p ∈ ps, p.depth ≤ limit) :
    Meets .any ends (Outcome.Delivers env.world env.late (.call f ps o))
      (call env (inContext limit) ⟨f, ps, o⟩ none []) := by
  obtain ⟨function, α, _, m, hagrees⟩ := agrees_of_mem hf
  rw [call_eq_callFunction (not_construct_of_pure hf) (hregistry ▸ hagrees.get)]
  exact delivers_callFunction hrec hregistry hP hends hf hagrees hps hdepth

omit hrec hP in
/-- A choice between one token is kept while content is loaded, and gives the token when it is
consumed. -/
theorem delivers_choice (t : Token) (o o' : Origin) (hlimit : ends → 2 ≤ limit) :
    Meets .any ends (Outcome.Delivers env.world env.late (.call "Choose" [.array [.token t] o] o'))
      (call env (inContext limit) ⟨"Choose", [.array [.token t] o], o'⟩ none []) := by
  have hget : Registry.get? env.registry "Choose" = some Library.choose := by
    rw [hregistry]
    rfl
  rw [call_eq_callFunction (by decide) hget]
  have hlist : (Node.array [.token t] o).Settled env.registry env.late := by simp
  have hkept : Kept limit env ends (.array [.token t] o) :=
    ⟨hlist, fun h => Nat.le_trans (by simp [Node.depth, Node.depthOfAll]) (hlimit h)⟩
  have hkeeps := keeps_evaluator (still_inContext limit) hends
  rw [callFunction, if_pos (show Library.choose.late = true from rfl)]
  refine meets_ite (fun hpass => ?_) fun hpass => ?_
  · refine meets_chooseOnly o o' (fun h => Nat.lt_of_lt_of_le Nat.zero_lt_two
      (Nat.le_trans (hlimit h) (hends h))) ?_
    refine ((hkeeps.reduce [] (hkeeps.items hkept _ (by simp))).mono
      (Terms.quietIf_covers_any _) id fun _ h => h).imp fun out hout => ?_
    obtain ⟨m, rfl, hm⟩ := hout
    obtain ⟨t', rfl, ht⟩ := hm.token
    refine .of_yield (.token t') (Node.depth_token_le t' _) (.token t') ?_
    rw [Node.yield_choice, if_pos hpass, show bare t = bare t' from ht, bare_token]
  · have hparams := (meets_reduceCallParams listwise_alike (fun p hp => by
        obtain rfl := List.mem_singleton.mp hp
        exact still_param (still_inContext limit) hends [] hkept) "Choose" o').mono
      (Terms.quietIf_covers_any _) id fun _ h => h
    refine meets_bind (meets_leave fun _ _ => trivial) fun _ _ =>
      meets_bind hparams fun r hr => ?_
    obtain ⟨qs, rfl, hqs⟩ := hr
    obtain ⟨q, rest, rfl, hq, hrest⟩ := alike_cons_iff.mp hqs
    obtain rfl := alike_nil_iff.mp hrest
    obtain ⟨is, o'', rfl, his⟩ := hq.array
    obtain ⟨i, rest, rfl, hi, hrest⟩ := alike_cons_iff.mp his
    obtain rfl := alike_nil_iff.mp hrest
    obtain ⟨t', rfl, ht⟩ := hi.token
    have hrests : Rests .builtin env.late "Choose" [.array [.token t'] o''] :=
      .late (by simpa using hpass) (by decide)
        (show Registry.get? .builtin "Choose" = some Library.choose from rfl) rfl
    have hdepth := Nat.le_of_eq ((Node.depth_choice t' o'' { o' with context := [] }).trans
      (Node.depth_choice t o o').symm)
    refine meets_pure (.of_yield (.choice t' o'' rfl) hdepth (.call hrests (by simp)) ?_)
    rw [Node.yield_choice, if_neg hpass]
    simp [Node.ofCall, show bare t = bare t' from ht]

end

/-! ### One node -/

/-- **One step delivers pure nodes**, if the steps within do. -/
theorem delivers_step {limit : Nat} (hrec : DeliveringReducer limit (inContext limit)) :
    DeliveringReducer (limit + 1) (step (inContext limit)) := by
  intro env P n hregistry hP hn
  have hends : Ends (limit + 1) env n.depth → limit ≤ env.limit := fun h =>
    Nat.le_of_succ_le h.2
  cases hn with
  | token t => exact meets_pure (Node.delivered_token (.refl t))
  | array ho his =>
    refine meets_bind (delivers_elements hrec hregistry hP hends his
      fun h => Node.depth_array_le.mp h.1) fun r hr => ?_
    obtain ⟨ms, rfl, hms⟩ := hr
    exact meets_pure (Node.delivered_array (by rfl) hms)
  | block ho hes =>
    refine meets_bind (delivers_entries hrec hregistry hP hends hes
      fun h => Node.depth_block_le.mp h.1) fun r hr => ?_
    obtain ⟨fs, rfl, hfs⟩ := hr
    exact meets_pure (Node.delivered_block (by rfl) hfs)
  | @unknown f ps o hf ho hps =>
    show Meets _ _ _ (call env (inContext limit) ⟨f, ps, o⟩ none [])
    rw [call_eq_callNamed (Registry.not_isKnown_iff.mp hf).1, callNamed]
    simp only [hregistry, Registry.get?_of_not_isKnown hf]
    exact meets_bind (meets_leave fun _ _ => trivial) fun _ _ =>
      delivers_keepUnknown hrec hregistry hP hends o hf hps fun h => Node.depth_call_le.mp h.1
  | @statement f ps o data hf ho hps hdata =>
    show Meets _ _ _ (call env (inContext limit) ⟨f, ps, o⟩ (some data) [])
    rw [call_eq_callNamed (Registry.not_isKnown_iff.mp hf).1, callNamed]
    simp only [hregistry, Registry.get?_of_not_isKnown hf]
    exact meets_bind (meets_leave fun _ _ => trivial) fun _ _ =>
      delivers_keepStatement hrec hregistry hP hends o hf hps hdata
        fun h => Node.depth_statement_le.mp h.1
  | @call f ps o hf ho hps =>
    exact delivers_pureCall hrec hregistry hP hends o hf hps fun h => Node.depth_call_le.mp h.1
  | choice t o ho =>
    refine delivers_choice hregistry hends t o _ fun h => ?_
    have hdepth := h.1
    rw [Node.depth_choice] at hdepth
    omega

theorem delivers_inContext (limit : Nat) : DeliveringReducer limit (inContext limit) := by
  induction limit with
  | zero =>
    intro env P n _ _ _
    exact meets_halt _ fun h => absurd n.depth_pos (by simpa using h.1)
  | succ limit ih => exact delivers_step ih

/-- **Either pass makes of a pure node what it yields**: in a context that is empty, or else for a
token. -/
theorem delivers_reduce (env : Surroundings) (hregistry : env.registry = .builtin)
    {P : Origin → Prop} (hP : env.late = true → ∀ o, P o → o.context = []) {n : Node}
    (hn : n.Pure P) (ctx : Context) (hctx : P n.origin → ctx = []) :
    Meets .any (n.depth ≤ env.limit) (Outcome.Delivers env.world env.late n)
      (reduce env n ctx) := by
  rcases hn.origin with ⟨t, rfl⟩ | ho
  · refine (delivers_token env.limit env t _).mono (.refl _) (fun h => ?_) fun _ h => h
    exact ⟨by simpa using h, Nat.le_refl _⟩
  · rw [hctx ho]
    exact delivers_visit (delivers_inContext env.limit) hregistry hP (fun _ => Nat.le_refl _) hn id

end Reduce

end ContentLang
