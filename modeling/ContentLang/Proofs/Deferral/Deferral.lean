import ContentLang.Engine
import ContentLang.Proofs.Deferral.Delivery
import ContentLang.Proofs.Deferral.Untimely

/-!
# Values that are put off

In a pure tree any of the tokens may be put off by putting a choice in their place that has
nothing else to choose (`ContentLang.Node.Defers`). The loading pass then leaves calls that it
would have reduced, and consumption reduces them. What comes out of both passes is what the tree
yields in one after the other (`ContentLang.Engine.bothPasses_pure`), and that is the same
(`ContentLang.Engine.deferral_same`) if the tree with the choices is timely. If it is not timely,
there are a part of it, and a part of the tree that this was put in the place of, that do not come
to the same (`ContentLang.Node.Defers.exists_not_same`).

That it has to be timely is a matter of design: `Combine` merges blocks as they stand, so that a
later value takes the place of an earlier one under its key, and `^` hands on its default as it
stands, although either value may turn out to be nothing when it is consumed. Trees where this
shows stand at the end (`ContentLang.Engine.deferral_differs`).
-/

namespace ContentLang

open Walk

namespace Node

/-! ### Tokens in the place of choices -/

/-- **Whether a pure tree becomes another one if some of its tokens are put off**: each is the only
member of a choice there. Where the parts of the two trees stand does not matter, but for the
files of calls. The lists of parts of both trees are given as a list of pairs. -/
inductive Defers : Node → Node → Prop
  | token {t t' : Token} (ht : Alike t t') : Defers (.token t) (.token t')
  | choice {t t' : Token} (o o' : Origin) (ht : Alike t t') :
    Defers (.token t) (.call "Choose" [.array [.token t'] o] o')
  | array (is : List (Node × Node)) (o o' : Origin) (his : ∀ i ∈ is, Defers i.1 i.2) :
    Defers (.array (is.map (·.1)) o) (.array (is.map (·.2)) o')
  | block (es : List ((Token × Node) × Token × Node)) (o o' : Origin)
    (hkeys : ∀ e ∈ es, Alike e.1.1 e.2.1) (hes : ∀ e ∈ es, Defers e.1.2 e.2.2) :
    Defers (.block (es.map (·.1)) o) (.block (es.map (·.2)) o')
  | call {f : String} (ps : List (Node × Node)) {o o' : Origin}
    (hf : f ∈ pureNames ∨ Registry.builtin.isKnown f = false) (ho : o.bare = o'.bare)
    (hps : ∀ p ∈ ps, Defers p.1 p.2) :
    Defers (.call f (ps.map (·.1)) o) (.call f (ps.map (·.2)) o')
  | statement {f : String} (ps : List (Node × Node)) {o o' : Origin} {data data' : Node}
    (hf : Registry.builtin.isKnown f = false) (ho : o.bare = o'.bare)
    (hps : ∀ p ∈ ps, Defers p.1 p.2) (hdata : Defers data data') :
    Defers (.statement f (ps.map (·.1)) o data) (.statement f (ps.map (·.2)) o' data')

variable {n n' : Node}

theorem Defers.pure (h : n.Defers n') : (n.Pure fun _ => True) ∧ n'.Pure fun _ => True := by
  have hcall : ∀ {f : String} {ps : List Node} {o : Origin},
      (f ∈ pureNames ∨ Registry.builtin.isKnown f = false) → (∀ p ∈ ps, p.Pure fun _ => True) →
        (Node.call f ps o).Pure fun _ => True := fun hf hps =>
    hf.elim (fun hf => .call hf trivial hps) fun hf => .unknown hf trivial hps
  induction h with
  | token _ => exact ⟨.token _, .token _⟩
  | choice o o' _ => exact ⟨.token _, .choice _ o trivial⟩
  | array is o o' _ ih =>
    exact ⟨.array trivial (List.forall_mem_map.mpr fun i hi => (ih i hi).1),
      .array trivial (List.forall_mem_map.mpr fun i hi => (ih i hi).2)⟩
  | block es o o' _ _ ih =>
    exact ⟨.block trivial (List.forall_mem_map.mpr fun e he => (ih e he).1),
      .block trivial (List.forall_mem_map.mpr fun e he => (ih e he).2)⟩
  | call ps hf _ _ ih =>
    exact ⟨hcall hf (List.forall_mem_map.mpr fun p hp => (ih p hp).1),
      hcall hf (List.forall_mem_map.mpr fun p hp => (ih p hp).2)⟩
  | statement ps hf _ _ _ ih ihdata =>
    exact ⟨.statement hf trivial (List.forall_mem_map.mpr fun p hp => (ih p hp).1) ihdata.1,
      .statement hf trivial (List.forall_mem_map.mpr fun p hp => (ih p hp).2) ihdata.2⟩

/-- Before tokens are put off nothing is late. -/
theorem Defers.inert (h : n.Defers n') : n.Inert Registry.builtin.isLate := by
  have hunknown : ∀ {f : String}, Registry.builtin.isKnown f = false →
      Registry.builtin.isLate f = false := fun hf => by
    rw [Registry.isLate, Registry.get?_of_not_isKnown hf, Option.any_none]
  have hpure : ∀ f ∈ pureNames, Registry.builtin.isLate f = false := by decide
  induction h with
  | token _ => exact inert_token _
  | choice _ _ _ => exact inert_token _
  | array _ _ _ _ ih => exact inert_array.mpr (List.forall_mem_map.mpr ih)
  | block _ _ _ _ _ ih => exact inert_block.mpr (List.forall_mem_map.mpr ih)
  | call ps hf _ _ ih =>
    exact inert_call.mpr ⟨hf.elim (hpure _) hunknown, List.forall_mem_map.mpr ih⟩
  | statement ps hf _ _ _ ih ihdata =>
    exact inert_statement.mpr ⟨hunknown hf, List.forall_mem_map.mpr ih, ihdata⟩

/-- Putting tokens off makes a tree no less deep. -/
theorem Defers.depth_le (h : n.Defers n') : n.depth ≤ n'.depth := by
  have hlist : ∀ ps : List (Node × Node), (∀ p ∈ ps, p.1.depth ≤ p.2.depth) →
      depthOfAll (ps.map (·.1)) ≤ depthOfAll (ps.map (·.2)) := fun ps hps =>
    depthOfAll_le.mpr <| List.forall_mem_map.mpr fun p hp =>
      Nat.le_trans (hps p hp) (depthOfAll_le.mp (Nat.le_refl _) p.2 (List.mem_map_of_mem hp))
  induction h with
  | token _ => exact depth_token_le _ _
  | choice _ _ _ => exact depth_token_le _ _
  | array _ _ _ _ ih =>
    rw [depth, depth]
    exact Nat.succ_le_succ (hlist _ ih)
  | block _ _ _ _ _ ih =>
    rw [depth, depth]
    refine Nat.succ_le_succ <| depthOfEntries_le.mpr <| List.forall_mem_map.mpr fun e he => ?_
    exact Nat.le_trans (ih e he)
      (depthOfEntries_le.mp (Nat.le_refl _) e.2 (List.mem_map_of_mem he))
  | call ps _ _ _ ih =>
    rw [depth, depth]
    exact Nat.succ_le_succ (hlist _ ih)
  | statement ps _ _ _ _ ih ihdata =>
    rw [depth, depth]
    exact Nat.succ_le_succ (Nat.max_le.mpr ⟨Nat.le_trans (hlist _ ih) (Nat.le_max_left _ _),
      Nat.le_trans ihdata (Nat.le_max_right _ _)⟩)

/-- **Putting tokens off does not change what a tree yields in consumption.** -/
theorem Defers.yield (h : n.Defers n') (w : World) : n.yield w true = n'.yield w true := by
  have hparams : ∀ ps : List (Node × Node), (∀ p ∈ ps, p.1.yield w true = p.2.yield w true) →
      (ps.map (·.1)).map (yieldNode w true) = (ps.map (·.2)).map (yieldNode w true) := by
    intro ps hps
    rw [List.map_map, List.map_map]
    exact List.map_congr_left fun p hp => congrArg (Option.getD · nullNode) (hps p hp)
  induction h with
  | token ht => exact congrArg (some <| Node.token ·) ht
  | @choice t t' o o' ht =>
    have hchoice : (Node.call "Choose" [.array [.token t'] o] o').yield w true =
        some (.token (bare t')) := yield_choice t' o o'
    rw [hchoice]
    exact congrArg (some <| Node.token ·) ht
  | array is o o' _ ih =>
    rw [yield_array, yield_array, List.filterMap_map, List.filterMap_map]
    exact congrArg (some <| Node.array · .unwritten) (List.filterMap_congr ih)
  | block es o o' hkeys _ ih =>
    rw [yield_block, yield_block, List.filterMap_map, List.filterMap_map]
    refine congrArg (some <| Node.block · .unwritten) (List.filterMap_congr fun e he => ?_)
    rw [Function.comp_apply, Function.comp_apply, yieldEntry, yieldEntry, ih e he,
      show bare e.1.1 = bare e.2.1 from hkeys e he]
  | call ps _ ho _ ih => rw [yield_call, yield_call, ho, hparams _ ih]
  | statement ps _ ho _ _ ih ihdata =>
    rw [yield_statement, yield_statement, ho, hparams _ ih, yieldNode, yieldNode, ihdata]

/-- Where a part is not timely, it is what a part becomes. -/
theorem Defers.part {w : World} {p' : Node} (h : n.Defers n') (hp : p' ∈ n'.parts)
    (hnot : ¬ p'.Timely w) : ∃ p ∈ n.parts, p.Defers p' := by
  have hlist : ∀ {ps : List (Node × Node)}, (∀ p ∈ ps, Defers p.1 p.2) → p' ∈ ps.map (·.2) →
      ∃ p ∈ ps.map (·.1), p.Defers p' := by
    intro ps hps hmem
    obtain ⟨p, hin, rfl⟩ := List.mem_map.mp hmem
    exact ⟨p.1, List.mem_map_of_mem hin, hps p hin⟩
  cases h with
  | token _ => exact absurd hp List.not_mem_nil
  | choice o o' _ => exact absurd ((Timely.choice _ o o').of_mem_parts hp) hnot
  | array is o o' his => exact hlist his hp
  | block es o o' _ hes =>
    obtain ⟨e', he', rfl⟩ := List.mem_map.mp hp
    obtain ⟨e, he, rfl⟩ := List.mem_map.mp he'
    exact ⟨e.1.2, List.mem_map_of_mem (List.mem_map_of_mem he), hes e he⟩
  | call ps _ _ hps => exact hlist hps hp
  | statement ps _ _ hps hdata =>
    rcases List.mem_append.mp hp with hp | hp
    · obtain ⟨p, hp, hdefers⟩ := hlist hps hp
      exact ⟨p, List.mem_append_left _ hp, hdefers⟩
    · rw [List.mem_singleton.mp hp]
      exact ⟨_, List.mem_append_right _ (List.mem_singleton_self _), hdata⟩

/-- **A tree that is not timely has a part that comes to something else.** -/
theorem Defers.exists_not_same {w : World} (h : n.Defers n') (hnot : ¬ n'.Timely w) :
    ∃ s s' : Node, s.PartOf n ∧ s'.PartOf n' ∧ s.Defers s' ∧
      (s'.yieldNode w true).same ((s'.yieldNode w false).yieldNode w true) = false := by
  induction n' using induct_parts generalizing n with
  | h n' ih =>
    by_cases hparts : ∀ p' ∈ n'.parts, p'.Timely w
    · exact ⟨n, n', .self, .self, h, not_same_of_parts h.pure.2 hparts hnot⟩
    · -- It is a part of one of the parts.
      push Not at hparts
      obtain ⟨p', hp', hnot'⟩ := hparts
      obtain ⟨p, hp, hdefers⟩ := h.part hp' hnot'
      obtain ⟨s, s', hs, hs', hrest⟩ := ih p' hp' hdefers hnot'
      exact ⟨s, s', .part hp hs, .part hp' hs', hrest⟩

end Node

namespace Engine

/-! ### Both passes -/

/-- What a tree comes to when it is processed as that of a file, and then consumed. -/
def bothPasses (e : Engine) (file : String) (tree : Node) : Except Halt (Option Node) :=
  let loaded := e.process ⟨file, tree, tree, []⟩
  loaded.answer.bind fun l => (loaded.engine.resolve l.root).answer

section

variable {e : Engine} (hregistry : e.registry = .builtin) {n : Node}
include hregistry

/-- What the loading pass makes of a pure tree. -/
theorem process_pure (file : String) (hn : n.Pure fun _ => True) (hdepth : n.depth ≤ e.limit) :
    ∃ l, (e.process ⟨file, n, n, []⟩).answer = .ok l ∧
      n.Passed ⟨e.host, e.settings⟩ false l.root := by
  have hprocessed : Meets .any (n.depth ≤ e.limit) (n.Passed ⟨e.host, e.settings⟩ false)
      (e.processed file n) := by
    refine meets_map (Reduce.delivers_reduce (e.surroundings false file) hregistry nofun hn
      .empty fun _ => rfl) fun out hout => ?_
    obtain ⟨q, hq, hpassed⟩ := hout.toNode n.origin
    rwa [hq]
  obtain ⟨-, -, hends, hanswer⟩ := hprocessed e.state fun _ _ => trivial
  obtain ⟨root, hroot⟩ := hends hdepth
  exact ⟨_, congrArg (Except.map _) hroot, hanswer root hroot⟩

/-- What consumption makes of what the loading pass made of a pure tree. -/
theorem resolve_pure {q : Node} (hq : q.Pure fun o => o.context = []) (hdepth : q.depth ≤ e.limit) :
    ∃ m, (e.resolve q).answer = .ok (some m) ∧
      bare m = q.yieldNode ⟨e.host, e.settings⟩ true := by
  have hreduced := Reduce.delivers_reduce (e.surroundings true q.location.file) hregistry
    (fun _ _ h => h) hq q.origin.context id
  obtain ⟨-, -, hends, hanswer⟩ := hreduced e.state fun _ _ => trivial
  obtain ⟨out, hout⟩ := hends hdepth
  obtain ⟨m, hm, hpassed⟩ : ∃ m, out.toNode? q.origin = some m ∧
      q.Passed ⟨e.host, e.settings⟩ true m := (hanswer out hout).toNode q.origin
  refine ⟨m, ?_, hpassed.node.symm⟩
  show ((reduce (e.surroundings true q.location.file) q q.origin.context e.state).answer.map
    (·.toNode? q.origin)) = _
  rw [hout, ← hm]
  rfl

/-- **A pure tree comes to what it yields** in one pass after the other. -/
theorem bothPasses_pure (file : String) (hn : n.Pure fun _ => True) (hdepth : n.depth ≤ e.limit) :
    ∃ m, e.bothPasses file n = .ok (some m) ∧
      bare m = (n.yieldNode ⟨e.host, e.settings⟩ false).yieldNode ⟨e.host, e.settings⟩ true := by
  obtain ⟨l, hl, hroot⟩ := process_pure hregistry file hn hdepth
  have hengine : (e.process ⟨file, n, n, []⟩).engine.registry = .builtin := hregistry
  obtain ⟨m, hm, hyield⟩ := resolve_pure hengine hroot.pure (Nat.le_trans hroot.depth hdepth)
  refine ⟨m, ?_, ?_⟩
  · rw [bothPasses, hl]
    exact hm
  · rw [hyield, hroot.node, Node.yieldNode, Node.yieldNode, Node.yield_bare]
    rfl

end

/-- **Putting tokens of a pure tree off does not change what it comes to**, if the tree with the
choices is timely. Both passes over either tree come to nodes that are the same, in any two
engines beside one host and with one kind of settings, whatever the states of their generators.
If it is not timely, a part of it comes to something else than what it was put in the place of.
It is assumed that walks may be nested as deep as the trees are. -/
theorem deferral_same (e e' : Engine) (file file' : String) (t t' : Node)
    (hregistry : e.registry = .builtin) (hregistry' : e'.registry = .builtin)
    (hhost : e'.host = e.host) (hsettings : e'.settings = e.settings) (h : t.Defers t')
    (hdepth : t'.depth ≤ e.limit) (hdepth' : t'.depth ≤ e'.limit) :
    (t'.Timely ⟨e.host, e.settings⟩ →
      ∃ n n', e.bothPasses file t = .ok (some n) ∧ e'.bothPasses file' t' = .ok (some n') ∧
        n.same n' = true) ∧
    (¬ t'.Timely ⟨e.host, e.settings⟩ →
      ∃ s s' : Node, s.PartOf t ∧ s'.PartOf t' ∧ s.Defers s' ∧
        ∃ n n', e.bothPasses file s = .ok (some n) ∧ e'.bothPasses file' s' = .ok (some n') ∧
          n.same n' = false) := by
  let w : World := ⟨e.host, e.settings⟩
  have hboth : ∀ {s s' : Node}, s.Defers s' → s'.depth ≤ t'.depth →
      ∃ n n', e.bothPasses file s = .ok (some n) ∧ e'.bothPasses file' s' = .ok (some n') ∧
        bare n = s'.yieldNode w true ∧ bare n' = (s'.yieldNode w false).yieldNode w true := by
    intro s s' h hle
    obtain ⟨hpure, hpure'⟩ := h.pure
    have hle' := Nat.le_trans h.depth_le hle
    obtain ⟨n, hn, hyield⟩ := bothPasses_pure hregistry file hpure (Nat.le_trans hle' hdepth)
    obtain ⟨n', hn', hyield'⟩ :=
      bothPasses_pure hregistry' file' hpure' (Nat.le_trans hle hdepth')
    refine ⟨n, n', hn, hn', ?_, by rw [hyield', hhost, hsettings]⟩
    -- Before tokens are put off nothing is.
    rw [hyield, (hpure.recovers h.inert).node, Node.yieldNode, Node.yieldNode, h.yield]
  constructor
  · intro htimely
    obtain ⟨n, n', hn, hn', hyield, hyield'⟩ := hboth h (Nat.le_refl _)
    have halike : Alike n n' := by
      rw [Alike, hyield, hyield', (htimely.recovers h.pure.2).node]
    exact ⟨n, n', hn, hn', halike.same⟩
  · intro hnot
    obtain ⟨s, s', hs, hs', hdefers, hdiffers⟩ := h.exists_not_same hnot
    obtain ⟨n, n', hn, hn', hyield, hyield'⟩ := hboth hdefers hs'.depth_le
    refine ⟨s, s', hs, hs', hdefers, n, n', hn, hn', ?_⟩
    rw [← Bool.not_eq_true]
    intro hsame
    have hbare := Node.same_bare hsame
    rw [hyield, hyield', hdiffers] at hbare
    cases hbare

/-- A tree where three tokens are put off,
`[^(A, Combine(~, [x])), Combine({a: 1}, {k: Combine(~)})]`: the default that waits does not come to
nothing, and the value that comes to nothing is the only one under its key. -/
theorem deferral_same_default :
    let e := Engine.start .standard (.plain (fun _ => none) fun _ => none) 0
    let o : Origin := .unwritten
    let null : Node := .token (.null o)
    let text (s : String) : Node := .token (.content s o)
    let only (n : Node) : Node := .call "Choose" [.array [n] o] o
    let tree (m n : Node) : Node :=
      .array [.call "^" [text "A", .call "Combine" [m, .array [n] o] o] o,
        .call "Combine" [.block [(.content "a" o, text "1")] o,
          .block [(.content "k" o, .call "Combine" [m] o)] o] o] o
    (tree null (text "x")).Defers (tree (only null) (only (text "x"))) ∧
      ∃ n n', e.bothPasses "main.txt" (tree null (text "x")) = .ok (some n) ∧
        e.bothPasses "main.txt" (tree (only null) (only (text "x"))) = .ok (some n') ∧
          n.same n' = true := by
  intro e o null text only tree
  let w : World := ⟨e.host, e.settings⟩
  have hcombine : Node.Defers (.call "Combine" [null, .array [text "x"] o] o)
      (.call "Combine" [only null, .array [only (text "x")] o] o) := by
    refine .call [(null, only null), (.array [text "x"] o, .array [only (text "x")] o)]
      (.inl (by decide)) rfl ?_
    simp only [List.forall_mem_cons]
    refine ⟨.choice o o rfl, .array [(text "x", only (text "x"))] o o ?_, by simp⟩
    exact List.forall_mem_singleton.mpr (.choice o o rfl)
  have hnothing : Node.Defers (.call "Combine" [null] o) (.call "Combine" [only null] o) :=
    .call [(null, only null)] (.inl (by decide)) rfl
      (List.forall_mem_singleton.mpr (.choice o o rfl))
  have hdefers : (tree null (text "x")).Defers (tree (only null) (only (text "x"))) := by
    refine .array [(_, _), (_, _)] o o ?_
    simp only [List.forall_mem_cons]
    refine ⟨.call [(text "A", text "A"), (_, _)] (.inl (by decide)) rfl ?_,
      .call [(_, _), (_, _)] (.inl (by decide)) rfl ?_, by simp⟩
    · simp only [List.forall_mem_cons]
      exact ⟨.token rfl, hcombine, by simp⟩
    · simp only [List.forall_mem_cons]
      exact ⟨.block [((_, _), (_, _))] o o (List.forall_mem_singleton.mpr rfl)
          (List.forall_mem_singleton.mpr (.token rfl)),
        .block [((_, _), (_, _))] o o (List.forall_mem_singleton.mpr rfl)
          (List.forall_mem_singleton.mpr hnothing), by simp⟩
  -- The default waits for both choices, but it does not yield nothing.
  have hhands : ¬ (Node.call "^" [text "A", .call "Combine" [only null, .array [only (text "x")] o]
      o] o).HandsOn w := by
    have hsome : ((Node.call "Combine" [only null, .array [only (text "x")] o] o).yield
        w true).isSome = true := rfl
    intro h
    cases h with
    | default _ hd => exact absurd hsome (by rw [hd.1]; decide)
    | through _ hd => exact Node.not_handsOn_call (by decide) hd
  have honly : ∀ t : Token, (only (.token t)).Timely w := fun t => .choice t o o
  -- What waits for a choice is not merged.
  have hwaits : ∀ ns : List Node, ¬ Hides w ((only null :: ns).map (Node.yieldNode w false)) :=
    fun ns => Node.not_hides_of_call List.mem_cons_self
  have hapart : ¬ Hides w ([.block [(.content "a" o, text "1")] o,
      .block [(.content "k" o, .call "Combine" [only null] o)] o].map (Node.yieldNode w false)) :=
    Node.not_hides_of_distinct (List.pairwise_pair.mpr rfl)
  have hmerged : (Node.call "Combine" [.block [(.content "a" o, text "1")] o,
      .block [(.content "k" o, .call "Combine" [only null] o)] o] o).Timely w := by
    refine .call ?_ fun _ => hapart
    simp only [List.forall_mem_cons]
    refine ⟨.block (List.forall_mem_singleton.mpr (.token _)) (List.forall_mem_singleton.mpr nofun),
      .block (List.forall_mem_singleton.mpr ?_)
        (List.forall_mem_singleton.mpr (Node.not_handsOn_call (by decide))), by simp⟩
    exact .call (List.forall_mem_singleton.mpr (honly _)) fun _ => hwaits []
  have hhanded : (Node.call "^" [text "A", .call "Combine" [only null, .array [only (text "x")] o]
      o] o).Timely w := by
    refine .call ?_ fun h => absurd h (by decide)
    simp only [List.forall_mem_cons]
    refine ⟨.token _, .call ?_ fun _ => hwaits _, by simp⟩
    simp only [List.forall_mem_cons]
    exact ⟨honly _, .array (List.forall_mem_singleton.mpr (honly _))
      (List.forall_mem_singleton.mpr (Node.not_handsOn_call (by decide))), by simp⟩
  have htimely : (tree (only null) (only (text "x"))).Timely w := by
    refine .array ?_ ?_ <;> simp only [List.forall_mem_cons]
    · exact ⟨hhanded, hmerged, by simp⟩
    · exact ⟨hhands, Node.not_handsOn_call (by decide), by simp⟩
  have hdepth : (tree (only null) (only (text "x"))).depth ≤ e.limit := by
    simp [tree, only, null, text, Node.depth, Node.depthOfAll, Node.depthOfEntries, e, start,
      standardLimit]
  exact ⟨hdefers, (deferral_same e e "main.txt" "main.txt" _ _ rfl rfl rfl rfl hdefers
    hdepth hdepth).1 htimely⟩

/-! ### Trees that are not timely -/

/-- Two answers that are nodes, and not the same. -/
theorem differ_of_run {a b : Except Halt (Option Node)}
    (h : (match a, b with
      | .ok (some n), .ok (some n') => !n.same n'
      | _, _ => false) = true) :
    ∃ n n', a = .ok (some n) ∧ b = .ok (some n') ∧ n.same n' = false := by
  split at h
  next n n' => exact ⟨n, n', rfl, rfl, by simpa using h⟩
  next => exact absurd h Bool.false_ne_true

/-- **Where something that is put off is merged or handed on, what comes out differs.** The trees
are those of `Combine({k: 1}, {k: Combine(~)})`, which comes to `{k: 1}` as it stands and to
`{}` if the null is put off, and of `[^(A, Combine(~))]`, which comes to `[~]` and to `[]`. -/
theorem deferral_differs :
    let e := Engine.start .standard (.plain (fun _ => none) fun _ => none) 0
    let o : Origin := .unwritten
    let null : Node := .token (.null o)
    let text (s : String) : Node := .token (.content s o)
    let only (n : Node) : Node := .call "Choose" [.array [n] o] o
    let merged (n : Node) : Node := .call "Combine" [.block [(.content "k" o, text "1")] o,
      .block [(.content "k" o, .call "Combine" [n] o)] o] o
    let handed (n : Node) : Node := .array [.call "^" [text "A", .call "Combine" [n] o] o] o
    let differs (tree : Node → Node) : Prop := (tree null).Defers (tree (only null)) ∧
      ∃ n n', e.bothPasses "main.txt" (tree null) = .ok (some n) ∧
        e.bothPasses "main.txt" (tree (only null)) = .ok (some n') ∧ n.same n' = false
    differs merged ∧ differs handed := by
  have hcombine : ∀ {t : Token} {o : Origin}, Node.Defers (.call "Combine" [.token t] o)
      (.call "Combine" [.call "Choose" [.array [.token t] o] o] o) := fun {_ o} =>
    .call [(_, _)] (.inl (by decide)) rfl (List.forall_mem_singleton.mpr (.choice o o rfl))
  refine ⟨⟨?merged, differ_of_run (by decide +kernel)⟩, ?handed, differ_of_run (by decide +kernel)⟩
  case merged =>
    refine .call [(_, _), (_, _)] (.inl (by decide)) rfl ?_
    simp only [List.forall_mem_cons]
    refine ⟨.block [((_, _), (_, _))] _ _ ?_ ?_, .block [((_, _), (_, _))] _ _ ?_ ?_, by simp⟩
    · exact List.forall_mem_singleton.mpr rfl
    · exact List.forall_mem_singleton.mpr (.token rfl)
    · exact List.forall_mem_singleton.mpr rfl
    · exact List.forall_mem_singleton.mpr hcombine
  case handed =>
    refine .array [(_, _)] _ _ (List.forall_mem_singleton.mpr
      (.call [(_, _), (_, _)] (.inl (by decide)) rfl ?_))
    simp only [List.forall_mem_cons]
    exact ⟨.token rfl, hcombine, by simp⟩

end Engine

end ContentLang
