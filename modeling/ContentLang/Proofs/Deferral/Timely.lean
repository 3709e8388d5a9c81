import ContentLang.Proofs.Deferral.Natural

/-!
# Timely nodes

What the loading pass makes of a pure node is reduced again in consumption. It should come to
what the node yields there, as if no pass had been over it before.

Choices, and what waits for them, are left for consumption. So it may happen that something is
left of a node although it yields nothing in the end: the node is **put off**
(`ContentLang.Node.PutOff`). What yields nothing is left out of arrays and blocks, but null takes its
place in parameters, and two places are sensitive to when it is known:

| place | known while loading | put off |
|---|---|---|
| last value under a key of merged blocks | another value stays | it hides the other one, and goes later |
| default handed on into an array or block | null is handed on | it is left out later |

A node is **timely** (`ContentLang.Node.Timely`) if what is put off is in neither place. Then the
two passes come to what it yields (`ContentLang.Node.Timely.recovers`). Any other
node has a part that comes to something else (`ContentLang.Node.not_same_of_parts`).
-/

namespace ContentLang

namespace Node

section

variable (w : World)

/-- Whether a node yields nothing, and something is left of it while content is loaded. -/
def PutOff (n : Node) : Prop := n.yield w true = none ∧ n.yield w false ≠ none

/-- Whether a call of `^`, when its name is known, hands on a default that is put off; or one that
is such a call. -/
inductive HandsOn : Node → Prop
  | default {name d : Node} {o : Origin} {t : Token} (hname : name.yieldNode w false = .token t)
    (hd : d.PutOff w) : HandsOn (.call "^" [name, d] o)
  | through {name d : Node} {o : Origin} {t : Token} (hname : name.yieldNode w false = .token t)
    (hd : HandsOn d) : HandsOn (.call "^" [name, d] o)

/-- **Whether nothing that is put off stands in a sensitive place**: no item of an array and no
value of a block hands on such a default, and no `Combine` merges blocks so that such a value hides
another one. -/
inductive Timely : Node → Prop
  | token (t : Token) : Timely (.token t)
  | array {is : List Node} {o : Origin} (his : ∀ i ∈ is, Timely i)
    (hitems : ∀ i ∈ is, ¬ i.HandsOn w) : Timely (.array is o)
  | block {es : List (Token × Node)} {o : Origin} (hes : ∀ e ∈ es, Timely e.2)
    (hvalues : ∀ e ∈ es, ¬ e.2.HandsOn w) : Timely (.block es o)
  | call {f : String} {ps : List Node} {o : Origin} (hps : ∀ p ∈ ps, Timely p)
    (hmerged : f = "Combine" → ¬ Hides w (ps.map (yieldNode w false))) : Timely (.call f ps o)
  | statement {f : String} {ps : List Node} {o : Origin} {data : Node} (hps : ∀ p ∈ ps, Timely p)
    (hdata : Timely data) : Timely (.statement f ps o data)

end

variable {w : World} {P : Origin → Prop}

/-- Only `^` hands on a default. -/
theorem not_handsOn_call {f : String} {ps : List Node} {o : Origin} (hf : f ≠ "^") :
    ¬ (call f ps o).HandsOn w := by
  generalize hn : call f ps o = n
  intro h
  cases h with
  | default _ _ => exact hf (call.inj hn).1
  | through _ _ => exact hf (call.inj hn).1

/-- Parameters are merged only if none of them is a call. -/
theorem not_hides_of_call {f : String} {ps qs : List Node} {o : Origin}
    (h : .call f ps o ∈ qs) : ¬ Hides w qs := fun hides => by
  simpa [isNull, entries?] using hides.1 _ h

/-- **Values under keys that differ hide nothing**, whatever they come to. -/
theorem not_hides_of_distinct {qs : List Node} (h : Entries.Distinct (entriesOf qs)) :
    ¬ Hides w qs := by
  rintro ⟨-, e, he, hnone, e', he', hkey, hsome⟩
  rw [h.eq_of_beq he' (Entries.mem_of_mem_latest he) hkey] at hsome
  exact hsome hnone

theorem Timely.choice (t : Token) (o o' : Origin) :
    (Node.call "Choose" [.array [.token t] o] o').Timely w :=
  .call (List.forall_mem_singleton.mpr (.array (List.forall_mem_singleton.mpr (.token t))
    (List.forall_mem_singleton.mpr nofun))) fun h => absurd h (by decide)

/-! ### One pass after the other -/

/-- **Whether what the loading pass makes of a node yields what the node does**: as a parameter, and
also as a part of an array or a block if no default is handed on. -/
structure Recovers (w : World) (n : Node) : Prop where
  node : (n.yieldNode w false).yieldNode w true = n.yieldNode w true
  yield : ¬ n.HandsOn w → (n.yield w false).bind (Node.yield w true) = n.yield w true

theorem Recovers.of_yield {n : Node}
    (h : (n.yield w false).bind (Node.yield w true) = n.yield w true) : n.Recovers w := by
  refine ⟨?_, fun _ => h⟩
  cases hn : n.yield w false with
  | none =>
    rw [hn] at h
    rw [yieldNode_of_none hn, yieldNode_of_none h.symm]
    rfl
  | some m =>
    rw [hn] at h
    rw [yieldNode_of_some hn]
    exact congrArg (Option.getD · nullNode) h

theorem Recovers.params {ps : List Node} (h : ∀ p ∈ ps, p.Recovers w) :
    (ps.map (yieldNode w false)).map (yieldNode w true) = ps.map (yieldNode w true) := by
  rw [List.map_map]
  exact List.map_congr_left fun p hp => (h p hp).node

section

variable {f : String} {ps : List Node} {o : Origin}

/-- A call of a function that goes with what is yielded. -/
theorem Recovers.agrees {function : Function} {α : Type} [Bare α] {m : Meaning α}
    (hf : function.Agrees m f) (hps : ∀ p ∈ ps, p.Recovers w)
    (hnatural : m.NaturalAt w f (ps.map (yieldNode w false)) o.bare) :
    (call f ps o).Recovers w := by
  have hevaluate : ∀ late qs, evaluate w late f qs o.bare =
      (m.evaluation w ⟨f, qs, o.bare⟩).left (.call f qs o.bare) := fun late qs => by
    rw [evaluate, hf.evaluate]
  refine .of_yield ?_
  rw [yield_call, yield_call, hevaluate]
  by_cases hread : m.read Registry.builtin.isKnown (ps.map (yieldNode w false)) = .error .waits
  · -- The call is kept, and evaluated later.
    have hpending : m.evaluation w ⟨f, ps.map (yieldNode w false), o.bare⟩ = .pending := by
      rw [Meaning.evaluation, Meaning.outcome, hread]
      rfl
    rw [hpending]
    show (call f (ps.map (yieldNode w false)) o.bare).yield w true = _
    rw [yield_call, Recovers.params hps, OriginOf.bare_bare]
  · have hready : m.evaluation w ⟨f, ps.map (yieldNode w false), o.bare⟩ ≠ .pending :=
      hf.lawful.ne_pending hread
    rw [Outcome.yield_left _ hready, hnatural hread, Recovers.params hps, OriginOf.bare_bare,
      hevaluate]

/-- A default is read only of two parameters, the first one a token. -/
theorem eq_of_readBinding {known : String → Bool} {qs : List Node} {t : Token} {d : Node}
    (h : Meaning.readBinding.read known qs = .ok (t, some d)) : qs = [.token t, d] := by
  match qs with
  | [] => exact nomatch h
  | [q] =>
    obtain ⟨t', -, h⟩ := Reading.bind_eq_ok.mp h
    exact nomatch h
  | [q, d'] =>
    obtain ⟨t', ht', h⟩ := Reading.bind_eq_ok.mp h
    obtain ⟨rfl, hd⟩ := Prod.mk.inj (Except.ok.inj h)
    obtain rfl := Option.some.inj hd
    cases q with
    | token t => rw [← Except.ok.inj ht']
    | _ => exact nomatch ht'
  | _ :: _ :: _ :: _ => exact nomatch h

/-- A `^` with a name yields what its default yields, or null. -/
theorem yield_default {late : Bool} {name d : Node} {t : Token}
    (hname : name.yieldNode w late = .token t) :
    (call "^" [name, d] o).yield w late = some (d.yieldNode w late) := by
  rw [yield_call, List.map_cons, List.map_cons, List.map_nil, hname, evaluate,
    agrees_readBinding.evaluate]
  show some (bare (d.yieldNode w late)) = _
  rw [bare_yieldNode]

/-- What is a token when content was loaded stays one. -/
theorem Recovers.token {n : Node} {t : Token} (hn : n.Recovers w)
    (ht : n.yieldNode w false = .token t) : n.yieldNode w true = .token (bare t) := by
  rw [← hn.node, ht]
  rfl

/-- **A call of `^` that hands on its default.** -/
theorem Recovers.default {name d : Node} {t : Token} (hname : name.Recovers w)
    (hd : d.Recovers w) (ht : name.yieldNode w false = .token t) :
    (call "^" [name, d] o).Recovers w := by
  have hloaded := yield_default (o := o) (d := d) ht
  have hconsumed := yield_default (o := o) (d := d) (hname.token ht)
  refine ⟨?_, fun hhands => ?_⟩
  · rw [yieldNode_of_some hloaded, yieldNode_of_some hconsumed, hd.node]
  · rw [hloaded, hconsumed, Option.bind_some]
    have hagain := hd.yield fun h => hhands (.through ht h)
    cases hleft : d.yield w false with
    | none =>
      rw [hleft] at hagain
      rw [yieldNode_of_none hleft, yieldNode_of_none hagain.symm]
      rfl
    | some m =>
      rw [hleft] at hagain
      -- The default is not put off, so it yields something.
      have hsome : d.yield w true ≠ none := fun hnone =>
        hhands (.default ht ⟨hnone, by simp [hleft]⟩)
      obtain ⟨q, hq⟩ := Option.ne_none_iff_exists'.mp hsome
      rw [yieldNode_of_some hleft, yieldNode_of_some hq]
      exact hagain.trans hq

/-- A call of a pure function, which must not hide a value if it merges its parameters. -/
theorem Recovers.pureCall (hf : f ∈ pureNames) (hpure : ∀ p ∈ ps, p.Pure P)
    (hps : ∀ p ∈ ps, p.Recovers w)
    (hmerged : f = "Combine" → ¬ Hides w (ps.map (yieldNode w false))) :
    (call f ps o).Recovers w := by
  have hyielded : ∀ q ∈ ps.map (yieldNode w false), q.Pure fun _ => True :=
    List.forall_mem_map.mpr fun p hp => (hpure p hp).yieldedNode yielded_pure
  by_cases hbinding : f = "^"
  · subst hbinding
    by_cases hdefault : ∃ t d, Meaning.readBinding.read Registry.builtin.isKnown
        (ps.map (yieldNode w false)) = .ok (t, some d)
    · obtain ⟨t, d, hdefault⟩ := hdefault
      obtain ⟨name, others, rfl, hname, hothers⟩ :=
        List.map_eq_cons_iff.mp (eq_of_readBinding hdefault)
      obtain ⟨fallback, rest, rfl, hfallback, hrest⟩ := List.map_eq_cons_iff.mp hothers
      obtain rfl := List.map_eq_nil_iff.mp hrest
      exact .default (hps name (by simp)) (hps fallback (by simp)) hname
    · exact .agrees agrees_readBinding hps <|
        Meaning.naturalAt_readBinding _ _ hyielded fun t d h => hdefault ⟨t, d, h⟩
  · obtain ⟨function, α, _, m, hagrees, hnatural⟩ := evaluates_of_mem hf hbinding
    exact .agrees hagrees hps (hnatural w f _ _ hyielded hmerged)

end

/-- **What the loading pass makes of a timely node yields what the node does.** -/
theorem Timely.recovers {n : Node} (hn : n.Pure P) (h : n.Timely w) : n.Recovers w := by
  induction n with
  | token t => exact .of_yield rfl
  | array is o ih =>
    cases hn with
    | array _ hpure =>
      cases h with
      | array his hitems =>
        refine .of_yield ?_
        rw [yield_array, Option.bind_some, yield_array, yield_array, List.filterMap_filterMap,
          List.filterMap_congr fun i hi => (ih i hi (hpure i hi) (his i hi)).yield (hitems i hi)]
  | block es o ih =>
    cases hn with
    | block _ hpure =>
      cases h with
      | block hes hvalues =>
        have hentries : (es.filterMap (yieldEntry w false)).filterMap (yieldEntry w true) =
            es.filterMap (yieldEntry w true) := by
          rw [List.filterMap_filterMap]
          refine List.filterMap_congr fun e he => ?_
          have hvalue := (ih e he (hpure e he) (hes e he)).yield (hvalues e he)
          rw [yieldEntry, yieldEntry, ← hvalue]
          cases e.2.yield w false <;> rfl
        refine .of_yield ?_
        rw [yield_block, Option.bind_some, yield_block, yield_block, hentries]
  | statement f ps o data ih ihdata =>
    cases hn with
    | statement _ _ hpure hpuredata =>
      cases h with
      | statement hps hdata =>
        refine .of_yield ?_
        rw [yield_statement, Option.bind_some, yield_statement, yield_statement,
          Recovers.params fun p hp => ih p hp (hpure p hp) (hps p hp),
          (ihdata hpuredata hdata).node, OriginOf.bare_bare]
  | call f ps o ih =>
    cases h with
    | call hps hmerged =>
      cases hn with
      | unknown hf _ hpure =>
        refine .of_yield ?_
        rw [yield_unknown hf, Option.bind_some, yield_unknown hf, yield_unknown hf,
          Recovers.params fun p hp => ih p hp (hpure p hp) (hps p hp), OriginOf.bare_bare]
      | choice t o _ => exact .of_yield rfl
      | call hf _ hpure =>
        exact .pureCall hf hpure (fun p hp => ih p hp (hpure p hp) (hps p hp)) hmerged

/-- **Where nothing is late, nothing is put off.** -/
theorem Pure.recovers {n : Node} (hn : n.Pure P) (h : n.Inert Registry.builtin.isLate) :
    n.Recovers w := by
  refine .of_yield ?_
  rw [yield_of_not_late h]
  cases hy : n.yield w true with
  | none => rfl
  | some m =>
    have hinert := hn.yielded yielded_inert hy
    rw [Option.bind_some, hinert.yield, bare_yield hy]

end Node

end ContentLang
