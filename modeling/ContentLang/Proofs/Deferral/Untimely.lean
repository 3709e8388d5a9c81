import ContentLang.Proofs.Deferral.Timely

/-!
# Nodes that are not timely

That a node is timely is not only enough for both passes to come to what it yields. If that is asked
of all parts of the node (`ContentLang.Node.PartOf`), it is also needed: of the nodes that are not
timely, the ones whose parts all are come to something else
(`ContentLang.Node.not_same_of_parts`), and such a one is part of any other.

| the node | what shows | theorem |
|---|---|---|
| array, block | a default that is handed on is missing | `ContentLang.Node.HandsOn.lost` |
| `Combine` | there is nothing under the key of a hidden value | `ContentLang.Hides.not_same` |

Nothing is said of the nodes that such a one is part of. These may make up for it: an entry that was
lost is there again if `Combine` puts another block over that one.
-/

namespace ContentLang

/-- Where members are left out that another function keeps, fewer are left. -/
theorem length_filterMap_lt {α β : Type} {f g : α → Option β} {as : List α}
    (h : ∀ a ∈ as, (g a).isSome = true → (f a).isSome = true) {a : α} (ha : a ∈ as)
    (hf : (f a).isSome = true) (hg : g a = none) :
    (as.filterMap g).length < (as.filterMap f).length := by
  obtain ⟨before, after, rfl⟩ := List.append_of_mem ha
  obtain ⟨hbefore, hafter⟩ := List.forall_mem_append.mp h
  have hle := List.countP_mono_left hbefore
  have hle' := List.countP_mono_left (List.forall_mem_cons.mp hafter).2
  simp only [List.length_filterMap_eq_countP, List.countP_append, List.countP_cons, hf, hg,
    Option.isSome_none, Bool.false_eq_true, if_true, if_false]
  omega

/-! ### Parts of nodes -/

namespace Node

/-- The nodes that a node is made of. -/
def parts : Node → List Node
  | token _ => []
  | call _ ps _ => ps
  | statement _ ps _ data => ps ++ [data]
  | block es _ => es.map (·.2)
  | array is _ => is

/-- **Whether a node stands in another one**, or is this one. -/
inductive PartOf (s : Node) : Node → Prop
  | self : PartOf s s
  | part {n p : Node} (hp : p ∈ n.parts) (h : PartOf s p) : PartOf s n

/-- Induction on nodes that does not go by their kinds. -/
theorem induct_parts {C : Node → Prop} (h : ∀ n, (∀ p ∈ n.parts, C p) → C n) (n : Node) : C n := by
  induction n with
  | token t => exact h _ (List.forall_mem_nil _)
  | call f ps o ih => exact h _ ih
  | statement f ps o data ih ihdata =>
    exact h _ (List.forall_mem_append.mpr ⟨ih, List.forall_mem_singleton.mpr ihdata⟩)
  | block es o ih => exact h _ (List.forall_mem_map.mpr ih)
  | array is o ih => exact h _ ih

theorem depth_le_of_mem_parts {n p : Node} (hp : p ∈ n.parts) : p.depth ≤ n.depth := by
  have hlist : ∀ {ps : List Node}, p ∈ ps → p.depth ≤ depthOfAll ps := fun hp =>
    depthOfAll_le.mp (Nat.le_refl _) p hp
  cases n with
  | token t => exact absurd hp List.not_mem_nil
  | call f ps o => exact Nat.le_succ_of_le (hlist hp)
  | array is o => exact Nat.le_succ_of_le (hlist hp)
  | block es o =>
    obtain ⟨e, he, rfl⟩ := List.mem_map.mp hp
    exact Nat.le_succ_of_le (depthOfEntries_le.mp (Nat.le_refl _) e he)
  | statement f ps o data =>
    refine Nat.le_succ_of_le ?_
    rcases List.mem_append.mp hp with hp | hp
    · exact Nat.le_trans (hlist hp) (Nat.le_max_left _ _)
    · rw [List.mem_singleton.mp hp]
      exact Nat.le_max_right _ _

/-- A part is no deeper than the node. -/
theorem PartOf.depth_le {s n : Node} (h : s.PartOf n) : s.depth ≤ n.depth := by
  induction h with
  | self => exact Nat.le_refl _
  | part hp _ ih => exact Nat.le_trans ih (depth_le_of_mem_parts hp)

variable {w : World} {n p : Node}

theorem Pure.of_mem_parts (hn : n.Pure fun _ => True) (hp : p ∈ n.parts) :
    p.Pure fun _ => True := by
  cases hn with
  | token t => exact absurd hp List.not_mem_nil
  | array _ his => exact his p hp
  | block _ hes =>
    obtain ⟨e, he, rfl⟩ := List.mem_map.mp hp
    exact hes e he
  | unknown _ _ hps => exact hps p hp
  | call _ _ hps => exact hps p hp
  | choice t o _ =>
    rw [List.mem_singleton.mp hp]
    exact .array trivial (List.forall_mem_singleton.mpr (.token t))
  | statement _ _ hps hdata =>
    rcases List.mem_append.mp hp with hp | hp
    · exact hps p hp
    · rw [List.mem_singleton.mp hp]
      exact hdata

theorem Timely.of_mem_parts (hn : n.Timely w) (hp : p ∈ n.parts) : p.Timely w := by
  cases hn with
  | token t => exact absurd hp List.not_mem_nil
  | array his _ => exact his p hp
  | block hes _ =>
    obtain ⟨e, he, rfl⟩ := List.mem_map.mp hp
    exact hes e he
  | call hps _ => exact hps p hp
  | statement hps hdata =>
    rcases List.mem_append.mp hp with hp | hp
    · exact hps p hp
    · rw [List.mem_singleton.mp hp]
      exact hdata

/-! ### Defaults that are handed on -/

/-- What hands on a default yields it in both passes. -/
theorem yield_handed {name d : Node} {o : Origin} {t : Token}
    (hn : (call "^" [name, d] o).Pure fun _ => True) (ht : (call "^" [name, d] o).Timely w)
    (hname : name.yieldNode w false = .token t) (late : Bool) :
    (call "^" [name, d] o).yield w late = some (d.yieldNode w late) := by
  have hmem : name ∈ (call "^" [name, d] o).parts := List.mem_cons_self
  have hrecovers := (ht.of_mem_parts hmem).recovers (hn.of_mem_parts hmem)
  cases late with
  | false => exact yield_default hname
  | true => exact yield_default (hrecovers.token hname)

theorem HandsOn.yield_ne_none (h : n.HandsOn w) (hn : n.Pure fun _ => True) (ht : n.Timely w)
    (late : Bool) : n.yield w late ≠ none := by
  cases h with
  | default hname _ => simp [yield_handed hn ht hname]
  | through hname _ => simp [yield_handed hn ht hname]

/-- **A default that is handed on is lost**: nothing is left of it after both passes. -/
theorem HandsOn.lost (h : n.HandsOn w) (hn : n.Pure fun _ => True) (ht : n.Timely w) :
    (n.yield w false).bind (Node.yield w true) = none := by
  have hmem : ∀ {name d : Node} {o : Origin}, d ∈ (call "^" [name, d] o).parts :=
    List.mem_cons_of_mem _ List.mem_cons_self
  -- The call yields what the default does, if anything.
  have hhanded : ∀ {name d : Node} {o : Origin} {t : Token},
      (call "^" [name, d] o).Pure (fun _ => True) → (call "^" [name, d] o).Timely w →
        name.yieldNode w false = .token t → d.yield w false ≠ none →
          (d.yield w false).bind (Node.yield w true) = none →
            ((call "^" [name, d] o).yield w false).bind (Node.yield w true) = none := by
    intro name d o t hn ht hname hleft hlost
    obtain ⟨m, hm⟩ := Option.ne_none_iff_exists'.mp hleft
    rw [yield_handed hn ht hname, yieldNode_of_some hm]
    rwa [hm] at hlost
  induction h with
  | default hname hd =>
    have hpure := hn.of_mem_parts hmem
    have htimely := ht.of_mem_parts hmem
    refine hhanded hn ht hname hd.2 ?_
    rw [(htimely.recovers hpure).yield fun h => h.yield_ne_none hpure htimely true hd.1, hd.1]
  | through hname hd ih =>
    have hpure := hn.of_mem_parts hmem
    have htimely := ht.of_mem_parts hmem
    exact hhanded hn ht hname (hd.yield_ne_none hpure htimely false) (ih hpure htimely)

/-- What is left after both passes is also there in consumption alone. -/
theorem Timely.isSome (ht : n.Timely w) (hn : n.Pure fun _ => True)
    (h : ((n.yield w false).bind (Node.yield w true)).isSome = true) :
    (n.yield w true).isSome = true := by
  by_cases hhands : n.HandsOn w
  · exact Option.isSome_iff_ne_none.mpr (hhands.yield_ne_none hn ht true)
  · rwa [(ht.recovers hn).yield hhands] at h

theorem array_not_same {is : List Node} {i : Node} {o : Origin}
    (hn : ∀ i ∈ is, i.Pure fun _ => True) (ht : ∀ i ∈ is, i.Timely w) (hi : i ∈ is)
    (h : i.HandsOn w) : ((array is o).yieldNode w true).same
      (((array is o).yieldNode w false).yieldNode w true) = false := by
  have hfewer := length_filterMap_lt (fun i hi => (ht i hi).isSome (hn i hi)) hi
    (Option.isSome_iff_ne_none.mpr (h.yield_ne_none (hn i hi) (ht i hi) true))
    (h.lost (hn i hi) (ht i hi))
  rw [yieldNode_of_some (yield_array _ _), yieldNode_of_some (yield_array _ _),
    yieldNode_of_some (yield_array _ _), List.filterMap_filterMap, ← Bool.not_eq_true]
  exact fun hsame => absurd (sameAll_iff.mp hsame).length_eq (Nat.ne_of_gt hfewer)

theorem block_not_same {es : List (Token × Node)} {e : Token × Node} {o : Origin}
    (hn : ∀ e ∈ es, e.2.Pure fun _ => True) (ht : ∀ e ∈ es, e.2.Timely w) (he : e ∈ es)
    (h : e.2.HandsOn w) : ((block es o).yieldNode w true).same
      (((block es o).yieldNode w false).yieldNode w true) = false := by
  have hboth : ∀ e : Token × Node, (yieldEntry w false e).bind (yieldEntry w true) =
      ((e.2.yield w false).bind (Node.yield w true)).map (bare e.1, ·) := fun e => by
    rw [yieldEntry]
    cases e.2.yield w false <;> rfl
  have hfewer : (es.filterMap fun e => (yieldEntry w false e).bind (yieldEntry w true)).length <
      (es.filterMap (yieldEntry w true)).length := by
    refine length_filterMap_lt (fun e he => ?_) he ?_ ?_
    · rw [hboth, yieldEntry, Option.isSome_map, Option.isSome_map]
      exact (ht e he).isSome (hn e he)
    · rw [yieldEntry, Option.isSome_map]
      exact Option.isSome_iff_ne_none.mpr (h.yield_ne_none (hn e he) (ht e he) true)
    · rw [hboth, h.lost (hn e he) (ht e he)]
      rfl
  rw [yieldNode_of_some (yield_block _ _), yieldNode_of_some (yield_block _ _),
    yieldNode_of_some (yield_block _ _), List.filterMap_filterMap, ← Bool.not_eq_true]
  exact fun hsame => absurd (sameEntries_iff.mp hsame).length_eq (Nat.ne_of_gt hfewer)

end Node

/-! ### Values that are hidden -/

section

open Library (Combined)

/-- Parameters that are null or blocks are combined to no items. -/
theorem combine_blocks {known : String → Bool} {qs : List Node} {acc : Combined}
    (h : ∀ q ∈ qs, q.isNull = true ∨ q.entries?.isSome = true) (hacc : ∀ is, acc ≠ .items is) :
    ∃ acc', qs.foldlM (combineWith known) acc = .ok acc' ∧ ∀ is, acc' ≠ .items is := by
  induction qs generalizing acc with
  | nil => exact ⟨acc, rfl, hacc⟩
  | cons q qs ih =>
    obtain ⟨hq, hqs⟩ := List.forall_mem_cons.mp h
    have hstep : ∃ acc', combineWith known acc q = .ok acc' ∧ ∀ is, acc' ≠ .items is := by
      rcases hq with hnull | hblock
      · exact ⟨acc, combineWith_null _ hnull, hacc⟩
      · cases q with
        | block es o =>
          cases acc with
          | nothing => exact ⟨_, rfl, nofun⟩
          | entries fs => exact ⟨_, rfl, nofun⟩
          | items js => exact absurd rfl (hacc js)
        | _ => cases hblock
    obtain ⟨acc', hacc', hitems⟩ := hstep
    rw [List.foldlM_cons, hacc']
    exact ih hqs hitems

variable {w : World} {qs : List Node}

/-- Blocks that hide a value are merged, before and after they are reduced. -/
theorem Hides.combined (h : Hides w qs) (hqs : ∀ q ∈ qs, q.Pure fun _ => True) :
    qs.foldlM (combineWith Registry.builtin.isKnown) .nothing =
        .ok (.entries (Entries.overlay [] (entriesOf qs))) ∧
      (qs.map (Node.yieldNode w true)).foldlM (combineWith Registry.builtin.isKnown) .nothing =
        .ok (.entries <| Entries.overlay [] <|
          (entriesOf qs).filterMap (Node.yieldEntry w true)) := by
  obtain ⟨hblocks, e, he, -⟩ := h
  obtain ⟨acc, hacc, hitems⟩ : ∃ acc, qs.foldlM (combineWith Registry.builtin.isKnown) .nothing =
      .ok acc ∧ ∀ is, acc ≠ .items is := combine_blocks hblocks nofun
  have hread : Reading.Rel (Combined.Yields w qs) _ _ :=
    yields_combine (.nothing (List.forall_mem_nil _)) hqs (by rw [hacc]; nofun)
  rw [hacc] at hread ⊢
  generalize (qs.map (Node.yieldNode w true)).foldlM (combineWith _) .nothing = r at hread
  cases hread with
  | ok hyields =>
    cases hyields with
    | nothing hnull =>
      rw [entriesOf_eq_nil hnull] at he
      exact absurd he List.not_mem_nil
    | items is => exact absurd rfl (hitems is)
    | entries _ => exact ⟨rfl, rfl⟩

/-- Blocks that say the same have entries under the same keys. -/
theorem contains_of_same {es fs : List (Token × Node)} {k : Token}
    (h : Node.sameEntries es fs = true) (hk : Entries.contains es k = true) :
    Entries.contains fs k = true := by
  have hpairs := Node.sameEntries_iff.mp h
  clear h
  induction hpairs with
  | nil => exact hk
  | cons hef _ ih =>
    rw [Entries.contains_iff, List.exists_mem_cons_iff, ← Entries.contains_iff] at hk ⊢
    exact hk.imp (PartialEquivBEq.trans (beq_iff_alike.mpr hef.1.symm)) ih

/-- **Where a value is hidden, nothing is left under its key**, although there is something if
blocks are merged after they are reduced. -/
theorem Hides.not_same (h : Hides w qs) (o o' : Origin) :
    (Node.block (Entries.overlay [] ((entriesOf qs).filterMap (Node.yieldEntry w true))) o).same
      (.block ((Entries.overlay [] (entriesOf qs)).filterMap (Node.yieldEntry w true)) o') =
        false := by
  obtain ⟨-, e, he, hnone, e', he', hkey, hsome⟩ := h
  obtain ⟨m, hm⟩ := Option.ne_none_iff_exists'.mp hsome
  have hyields : Node.yieldEntry w true e' = some (bare e'.1, m) := by rw [Node.yieldEntry, hm]; rfl
  have hgone := Entries.not_contains_latest (fun _ _ => yieldEntry_key) he
    (Option.map_eq_none_iff.mpr hnone)
  have hleft : Entries.contains ((entriesOf qs).filterMap (Node.yieldEntry w true)) e.1 = true :=
    Entries.contains_iff.mpr ⟨_, List.mem_filterMap.mpr ⟨e', he', hyields⟩,
      PartialEquivBEq.trans (yieldEntry_key hyields) hkey⟩
  obtain ⟨l, hl, hle⟩ := Entries.exists_mem_latest hleft
  rw [yieldEntries_overlay, overlay_yieldEntries, ← Bool.not_eq_true]
  intro hsame
  have hcontains := contains_of_same hsame (Entries.contains_iff.mpr ⟨l, hl, hle⟩)
  rw [hgone] at hcontains
  cases hcontains

theorem combine_not_same {ps : List Node} {o : Origin} (hn : ∀ p ∈ ps, p.Pure fun _ => True)
    (ht : ∀ p ∈ ps, p.Timely w) (h : Hides w (ps.map (Node.yieldNode w false))) :
    ((Node.call "Combine" ps o).yieldNode w true).same
      (((Node.call "Combine" ps o).yieldNode w false).yieldNode w true) = false := by
  have hevaluate : ∀ {late : Bool} {qs : List Node} {es : Entries Token Node},
      qs.foldlM (combineWith Registry.builtin.isKnown) .nothing = .ok (.entries es) →
        evaluate w late "Combine" qs o.bare = some (bare (.block es o.bare)) := by
    intro late qs es hread
    have hleft : evaluate w late "Combine" qs o.bare = (Reading.outcome o.bare
        (qs.foldlM (combineWith Registry.builtin.isKnown) .nothing)
        (Meaning.combine.give w o.bare [])).left (.call "Combine" qs o.bare) := by
      cases late <;> rfl
    rw [hleft, hread]
    rfl
  have hpure : ∀ q ∈ ps.map (Node.yieldNode w false), q.Pure fun _ => True :=
    List.forall_mem_map.mpr fun p hp => (hn p hp).yieldedNode Node.yielded_pure
  obtain ⟨hloaded, hconsumed⟩ := h.combined hpure
  rw [Node.Recovers.params fun p hp => (ht p hp).recovers (hn p hp)] at hconsumed
  rw [Node.yieldNode_of_some ((Node.yield_call _ _ _).trans (hevaluate hloaded)),
    Node.yieldNode_of_some ((Node.yield_call _ _ _).trans (hevaluate hconsumed)),
    Node.yieldNode_of_some ((Node.yield_bare _).trans (Node.yield_block _ _)), bare_block,
    bare_overlay_yieldEntries]
  exact h.not_same _ _

end

namespace Node

variable {w : World} {n : Node}

/-! ### What differs -/

/-- **A node that is not timely, although its parts are**, comes to something else. -/
theorem not_same_of_parts (hn : n.Pure fun _ => True) (hparts : ∀ p ∈ n.parts, p.Timely w)
    (h : ¬ n.Timely w) :
    (n.yieldNode w true).same ((n.yieldNode w false).yieldNode w true) = false := by
  have hpure : ∀ p ∈ n.parts, p.Pure fun _ => True := fun _ => hn.of_mem_parts
  cases n with
  | token t => exact absurd (.token t) h
  | array is o =>
    obtain ⟨i, hi, hhands⟩ : ∃ i ∈ is, i.HandsOn w := by
      by_contra hnone
      exact h (.array hparts fun i hi hhands => hnone ⟨i, hi, hhands⟩)
    exact array_not_same hpure hparts hi hhands
  | block es o =>
    have htimely : ∀ e ∈ es, e.2.Timely w := List.forall_mem_map.mp hparts
    obtain ⟨e, he, hhands⟩ : ∃ e ∈ es, e.2.HandsOn w := by
      by_contra hnone
      exact h (.block htimely fun e he hhands => hnone ⟨e, he, hhands⟩)
    exact block_not_same (List.forall_mem_map.mp hpure) htimely he hhands
  | call f ps o =>
    obtain ⟨rfl, hhides⟩ : f = "Combine" ∧ Hides w (ps.map (yieldNode w false)) := by
      by_contra hnone
      exact h (.call hparts fun hf hhides => hnone ⟨hf, hhides⟩)
    exact combine_not_same hpure hparts hhides
  | statement f ps o data =>
    obtain ⟨hps, hdata⟩ := List.forall_mem_append.mp hparts
    exact absurd (.statement hps (List.forall_mem_singleton.mp hdata)) h

end Node

end ContentLang
