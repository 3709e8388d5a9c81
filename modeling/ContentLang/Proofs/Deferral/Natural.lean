import ContentLang.Proofs.Deferral.Builds
import ContentLang.Proofs.Deferral.Yield
import ContentLang.Proofs.Nodes.Entries

/-!
# Meanings go with what is yielded

A pure function that does not wait for its parameters gives something that yields, in
consumption, what the function gives of what the parameters yield there
(`ContentLang.Meaning.Natural`). So it does not matter whether a call is reduced before or after
what is in its parameters.

For `Combine` this needs that no value of the blocks that it merges is hidden
(`ContentLang.Hides`) by a later one under its key that is found to be nothing afterwards. For `^`
it holds where no default is handed on (`ContentLang.Meaning.naturalAt_readBinding`). A default is
handed on as it is, and may yield nothing where null would take the place of nothing in a
parameter.

Reading is what is compared: of parameters that are not waited for, a function reads the same
as of what they yield.
-/

namespace ContentLang

/-- What an outcome yields in consumption. -/
def Outcome.yield (w : World) : Outcome → Option Node
  | value n => n.yield w true
  | _ => none

/-- What is left of a call that waits for nothing yields what its outcome does. -/
theorem Outcome.yield_left {w : World} {out : Outcome} (call : Node) (h : out ≠ .pending) :
    (out.left call).bind (Node.yield w true) = out.yield w := by
  cases out with
  | value n => exact Node.yield_bare n
  | pending => exact absurd rfl h
  | empty => rfl
  | splice items => rfl

/-- The entries of blocks among nodes, one after the other. -/
def entriesOf (qs : List Node) : List (Token × Node) := qs.flatMap fun q => q.entries?.getD []

/-- **Whether blocks that are merged hide a value** by one that yields nothing in consumption: the
last value under its key is such a one, and another value under the key yields something. -/
def Hides (w : World) (qs : List Node) : Prop :=
  (∀ q ∈ qs, q.isNull = true ∨ q.entries?.isSome = true) ∧
    ∃ e ∈ Entries.latest (entriesOf qs), e.2.yield w true = none ∧
      ∃ e' ∈ entriesOf qs, (e'.1 == e.1) = true ∧ e'.2.yield w true ≠ none

/-- Whether a meaning goes with what is yielded, for the given parameters: if it does not wait for
them, what it gives yields what it gives of what they yield. -/
def Meaning.NaturalAt {α : Type} (m : Meaning α) (w : World) (f : String) (qs : List Node)
    (o : Origin) : Prop :=
  m.read Registry.builtin.isKnown qs ≠ .error .waits →
    (m.evaluation w ⟨f, qs, o⟩).yield w =
      (m.evaluation w ⟨f, qs.map (Node.yieldNode w true), o.bare⟩).left
        (.call f (qs.map (Node.yieldNode w true)) o.bare)

/-- **Whether a meaning goes with what is yielded**, for pure parameters; if they are merged, they
must not hide a value. -/
def Meaning.Natural {α : Type} (m : Meaning α) (merges : Prop) : Prop :=
  ∀ (w : World) {P : Origin → Prop} (f : String) (qs : List Node) (o : Origin),
    (∀ q ∈ qs, q.Pure P) → (merges → ¬ Hides w qs) → m.NaturalAt w f qs o

/-- Two readings one after the other: if each is the image of another one that does not wait, so
are both together. -/
theorem Reading.bind_map {α α' β β' : Type} {r : Reading α} {r' : Reading α'}
    {f : α → Reading β} {f' : α' → Reading β'} {g : α → α'} {h : β → β'}
    (hr : r ≠ .error .waits → r' = r.map g)
    (hf : ∀ a, r = .ok a → f a ≠ .error .waits → f' (g a) = (f a).map h)
    (hwaits : (r >>= f) ≠ .error .waits) : (r' >>= f') = (r >>= f).map h := by
  cases r with
  | ok a => exact (congrArg (· >>= f') (hr nofun)).trans (hf a rfl hwaits)
  | error e =>
    have he : (.error e : Reading α) ≠ .error .waits := fun h => hwaits (by rw [h]; rfl)
    exact congrArg (· >>= f') (hr he)

section

variable {w : World} {P : Origin → Prop}

/-! ### Texts -/

theorem tokenOf_yieldNode {q : Node} (hq : q.Pure P)
    (hwaits : tokenOf Registry.builtin.isKnown q ≠ .error .waits) :
    tokenOf Registry.builtin.isKnown (q.yieldNode w true) =
      bare (tokenOf Registry.builtin.isKnown q) := by
  -- What yields something else is a call of something known, and is waited for.
  have hknown : ∀ {f : String}, Registry.builtin.isKnown f = true → ∀ ps o,
      tokenOf Registry.builtin.isKnown (.call f ps o) = .error .waits :=
    fun hf ps o => congrArg Except.error (Node.stuck_call hf ps o)
  cases hq with
  | token t => rfl
  | array _ _ => rw [Node.yieldNode_of_some (Node.yield_array _ _)]; rfl
  | block _ _ => rw [Node.yieldNode_of_some (Node.yield_block _ _)]; rfl
  | unknown hf _ _ => rw [Node.yieldNode_of_some (Node.yield_unknown hf _ _)]; rfl
  | statement hf _ _ _ => rw [Node.yieldNode_of_some (Node.yield_statement _ _ _ _)]; rfl
  | call hf _ _ => exact absurd (hknown (known_of_pure hf) _ _) hwaits
  | choice t o _ => exact absurd (hknown (by decide) _ _) hwaits

theorem tokensOf_yieldNode {qs : List Node} (hqs : ∀ q ∈ qs, q.Pure P)
    (hwaits : tokensOf Registry.builtin.isKnown qs ≠ .error .waits) :
    tokensOf Registry.builtin.isKnown (qs.map (Node.yieldNode w true)) =
      bare (tokensOf Registry.builtin.isKnown qs) := by
  induction qs with
  | nil => rfl
  | cons q qs ih =>
    obtain ⟨hq, hqs⟩ := List.forall_mem_cons.mp hqs
    rw [tokensOf_cons] at hwaits
    rw [List.map_cons, tokensOf_cons, tokensOf_cons]
    exact Reading.bind_map (tokenOf_yieldNode hq) (fun _ _ => Reading.bind_map (ih hqs)
      fun _ _ _ => rfl) hwaits

/-- The texts of an array are read of what its items yield, if none of them is waited for. -/
theorem textsOfAll_filterMap {f : Node → Option Node} {is : List Node}
    (his : ∀ i ∈ is, textsOf Registry.builtin.isKnown i ≠ .error .waits →
      ∃ m, f i = some m ∧
        textsOf Registry.builtin.isKnown m = textsOf Registry.builtin.isKnown i)
    (hwaits : textsOfAll Registry.builtin.isKnown is ≠ .error .waits) :
    textsOfAll Registry.builtin.isKnown (is.filterMap f) =
      textsOfAll Registry.builtin.isKnown is := by
  induction is with
  | nil => rfl
  | cons i is ih =>
    obtain ⟨hi, his⟩ := List.forall_mem_cons.mp his
    rw [textsOfAll] at hwaits ⊢
    cases htexts : textsOf Registry.builtin.isKnown i with
    | error e =>
      rw [htexts] at hi hwaits
      obtain ⟨m, hm, hsame⟩ := hi fun h => hwaits (by rw [h]; rfl)
      rw [List.filterMap_cons_some hm, textsOfAll, hsame]
      rfl
    | ok xs =>
      rw [htexts] at hi hwaits
      obtain ⟨m, hm, hsame⟩ := hi Reading.ok_ne_waits
      have hrest := ih his fun h => hwaits (by rw [h]; rfl)
      rw [List.filterMap_cons_some hm, textsOfAll, hsame, hrest]

/-- What texts are read from does not yield nothing. -/
theorem textsOf_yield {q : Node} (hq : q.Pure P)
    (hwaits : textsOf Registry.builtin.isKnown q ≠ .error .waits) :
    ∃ m, q.yield w true = some m ∧
      textsOf Registry.builtin.isKnown m = textsOf Registry.builtin.isKnown q := by
  have hknown : ∀ {f : String}, Registry.builtin.isKnown f = true → ∀ ps o,
      textsOf Registry.builtin.isKnown (.call f ps o) = .error .waits :=
    fun hf ps o => congrArg Except.error (Node.stuck_call hf ps o)
  induction q with
  | token t => exact ⟨_, rfl, rfl⟩
  | array is o ih =>
    cases hq with
    | array ho his =>
      rw [textsOf] at hwaits
      exact ⟨_, Node.yield_array is o, by
        rw [textsOf, textsOf, textsOfAll_filterMap (fun i hi => ih i hi (his i hi)) hwaits]⟩
  | block es o ih => exact ⟨_, Node.yield_block es o, rfl⟩
  | statement f ps o data ih ihdata => exact ⟨_, Node.yield_statement f ps o data, rfl⟩
  | call f ps o ih =>
    cases hq with
    | unknown hf _ _ => exact ⟨_, Node.yield_unknown hf ps o, rfl⟩
    | call hf _ _ => exact absurd (hknown (known_of_pure hf) _ _) hwaits
    | choice t o _ => exact absurd (hknown (by decide) _ _) hwaits

theorem textsOfAll_yieldNode {qs : List Node} (hqs : ∀ q ∈ qs, q.Pure P)
    (hwaits : textsOfAll Registry.builtin.isKnown qs ≠ .error .waits) :
    textsOfAll Registry.builtin.isKnown (qs.map (Node.yieldNode w true)) =
      textsOfAll Registry.builtin.isKnown qs := by
  rw [← List.filterMap_eq_map]
  refine textsOfAll_filterMap (fun q hq hq' => ?_) hwaits
  obtain ⟨m, hm, hsame⟩ := textsOf_yield (w := w) (hqs q hq) hq'
  exact ⟨m, by simp [Node.yieldNode_of_some hm], hsame⟩

/-! ### Records -/

theorem fieldsOf_yieldNode {component : Library.Component}
    {fields : List (String × Option String)} {qs : List Node} (hqs : ∀ q ∈ qs, q.Pure P)
    (hwaits : fieldsOf Registry.builtin.isKnown component fields qs ≠ .error .waits) :
    fieldsOf Registry.builtin.isKnown component fields (qs.map (Node.yieldNode w true)) =
      bare (fieldsOf Registry.builtin.isKnown component fields qs) := by
  induction fields generalizing qs with
  | nil => rfl
  | cons field fields ih =>
    obtain ⟨key, fallback⟩ := field
    cases qs with
    | nil =>
      cases fallback with
      | none => rfl
      | some fallback => exact Reading.bind_map (ih hqs) (fun _ _ _ => rfl) hwaits
    | cons q qs =>
      obtain ⟨hq, hqs⟩ := List.forall_mem_cons.mp hqs
      refine Reading.bind_map (tokenOf_yieldNode hq) (fun t _ hfields => ?_) hwaits
      have hvalue : (bare t).value = t.value := rfl
      rw [hvalue]
      cases hfault : component.fault? t.value with
      | some fault => rfl
      | none =>
        simp only [hfault] at hfields
        exact Reading.bind_map (ih hqs) (fun _ _ _ => rfl) hfields

end

/-! ### Functions that read tokens -/

namespace Meaning

/-- **What reads the same of what parameters yield, and makes inert nodes of it**, goes with what is
yielded. -/
theorem naturalAt_of_inert {α : Type} [Bare α] {m : Meaning α} (hm : m.Placeless) {w : World}
    {f : String} {qs : List Node} {o : Origin}
    (hread : m.read Registry.builtin.isKnown qs ≠ .error .waits →
      m.read Registry.builtin.isKnown (qs.map (Node.yieldNode w true)) =
        bare (m.read Registry.builtin.isKnown qs))
    (hgive : ∀ r, m.read Registry.builtin.isKnown qs = .ok r →
      ∃ q, m.give w o [] r = .value q ∧ q.Inert Registry.builtin.isKnown) :
    m.NaturalAt w f qs o := by
  intro hwaits
  simp only [evaluation, outcome, hread hwaits]
  cases hr : m.read Registry.builtin.isKnown qs with
  | error e =>
    cases e with
    | waits => exact absurd hr hwaits
    | wrong => rfl
  | ok r =>
    obtain ⟨q, hq, hinert⟩ := hgive r hr
    have halike : Alike (Outcome.value q) (m.give w o.bare [] (bare r)) := hq ▸ hm.give w o r
    obtain ⟨q', hq', hqq'⟩ := Outcome.alike_value_iff.mp halike
    simp only [Reading.outcome, bare_ok, hq, hq', Outcome.yield, Outcome.left, hinert.yield]
    exact congrArg some hqq'

theorem natural_assetWith (text : World → String → String) (merges : Prop) :
    (assetWith text).Natural merges := by
  intro w P f qs o hqs _
  refine naturalAt_of_inert (placeless_assetWith text) (fun hwaits => ?_) fun r _ =>
    ⟨_, rfl, Node.inert_token _⟩
  match qs, hqs with
  | [], _ => rfl
  | [q], hqs => exact tokenOf_yieldNode (hqs q (by simp)) hwaits
  | _ :: _ :: _, _ => rfl

theorem natural_concatenate (merges : Prop) : concatenate.Natural merges := by
  intro w P f qs o hqs _
  exact naturalAt_of_inert placeless_concatenate (tokensOf_yieldNode hqs) fun r _ =>
    ⟨_, rfl, Node.inert_token _⟩

theorem natural_join (merges : Prop) : join.Natural merges := by
  intro w P f qs o hqs _
  refine naturalAt_of_inert placeless_join (fun hwaits => ?_) fun r _ =>
    ⟨_, rfl, Node.inert_token _⟩
  cases qs with
  | nil => rfl
  | cons separator items =>
    obtain ⟨hseparator, hitems⟩ := List.forall_mem_cons.mp hqs
    refine Reading.bind_map (tokenOf_yieldNode hseparator) (fun t _ htexts => ?_) hwaits
    refine Reading.bind_map (g := bare) (fun h => ?_) (fun xs _ _ => rfl) htexts
    rw [textsOfAll_yieldNode hitems h]
    cases textsOfAll Registry.builtin.isKnown items with
    | error e => rfl
    | ok xs => exact congrArg Except.ok (bare_strings xs).symm

theorem natural_record (k : Library.RecordKind) (merges : Prop) : (record k).Natural merges := by
  intro w P f qs o hqs _
  refine naturalAt_of_inert (placeless_record k) (fun hwaits => ?_) fun r hr =>
    ⟨_, rfl, Node.inert_block.mpr ?_⟩
  · simp only [record, List.length_map]
    split
    next h =>
      simp only [record, h, if_true] at hwaits
      exact fieldsOf_yieldNode hqs hwaits
    next => rfl
  · simp only [record] at hr
    split at hr
    · exact fieldsOf_all Node.inert_token hr
    · exact absurd hr Reading.error_ne_ok

/-- Where no default is handed on. -/
theorem naturalAt_readBinding {w : World} {P : Origin → Prop} {qs : List Node} (f : String)
    (o : Origin) (hqs : ∀ q ∈ qs, q.Pure P)
    (hread : ∀ t d, readBinding.read Registry.builtin.isKnown qs ≠ .ok (t, some d)) :
    readBinding.NaturalAt w f qs o := by
  refine naturalAt_of_inert placeless_readBinding (fun hwaits => ?_) fun r hr => ?_
  · match qs, hqs with
    | [], _ => rfl
    | [q], hqs =>
      exact Reading.bind_map (tokenOf_yieldNode (hqs q (by simp))) (fun _ _ _ => rfl) hwaits
    | [q, d], hqs =>
      have hdefault : readBinding.read Registry.builtin.isKnown [q, d] =
          (tokenOf Registry.builtin.isKnown q).map fun t => (t, some d) := rfl
      have hname := tokenOf_yieldNode (w := w) (hqs q (by simp))
      cases ht : tokenOf Registry.builtin.isKnown q with
      | ok t => exact absurd hdefault (by simpa [ht, Except.map] using hread t d)
      | error e =>
        rw [ht] at hname hdefault
        have hstuck := hname fun h => hwaits (by rw [hdefault, Except.error.inj h]; rfl)
        have hdefault' : readBinding.read Registry.builtin.isKnown
            ([q, d].map (Node.yieldNode w true)) = (tokenOf Registry.builtin.isKnown
              (q.yieldNode w true)).map fun t => (t, some (d.yieldNode w true)) := rfl
        rw [hdefault', hstuck, hdefault]
        rfl
    | _ :: _ :: _ :: _, _ => rfl
  · obtain ⟨t, d⟩ := r
    cases d with
    | some d => exact absurd hr (hread t d)
    | none => exact ⟨_, rfl, Node.inert_token _⟩

end Meaning

/-! ### Collections -/

open Library (Combined)

section

variable {w : World}

theorem yieldEntry_key {e e' : Token × Node} (h : Node.yieldEntry w true e = some e') :
    (e'.1 == e.1) = true := by
  obtain ⟨n, -, rfl⟩ := Option.map_eq_some_iff.mp h
  exact beq_iff_alike.mpr rfl

/-- Equal keys have one bare form, so it does not matter which of them came first. -/
theorem yieldEntries_overlay (es : List (Token × Node)) :
    (Entries.overlay [] es).filterMap (Node.yieldEntry w true) =
      (Entries.latest es).filterMap (Node.yieldEntry w true) := by
  rw [Entries.overlay_eq_merged, Entries.merged, List.filterMap_map]
  refine List.filterMap_congr fun e _ => ?_
  have hkey : bare ((Entries.key? es e.1).getD e.1) = bare e.1 :=
    beq_iff_alike.mp (Entries.beq_getD_key? es e.1)
  simp only [Function.comp_apply, Node.yieldEntry, hkey]

theorem overlay_yieldEntries (es : List (Token × Node)) :
    Entries.overlay [] (es.filterMap (Node.yieldEntry w true)) =
      Entries.latest (es.filterMap (Node.yieldEntry w true)) := by
  have hkey : ∀ e ∈ es.filterMap (Node.yieldEntry w true), bare e.1 = e.1 :=
    List.forall_mem_filterMap.mpr fun _ _ _ h => (Prod.mk.inj (Node.bare_yieldEntry h)).1
  rw [Entries.overlay_eq_merged, Entries.merged_eq_latest fun e he f hf hef => ?_]
  rw [← hkey e he, ← hkey f hf]
  exact beq_iff_alike.mp hef

theorem bare_overlay_yieldEntries (es : List (Token × Node)) :
    bare (Entries.overlay [] (es.filterMap (Node.yieldEntry w true))) =
      Entries.overlay [] (es.filterMap (Node.yieldEntry w true)) := by
  rw [overlay_yieldEntries]
  refine bare_eq_self fun e he => ?_
  obtain ⟨e', -, h⟩ := List.mem_filterMap.mp (Entries.mem_of_mem_latest he)
  exact Node.bare_yieldEntry h

/-- **Blocks are merged alike before and after they are reduced** if no value is hidden. -/
theorem yieldEntries_merged {es : List (Token × Node)}
    (h : ∀ e ∈ Entries.latest es, e.2.yield w true = none →
      ∀ e' ∈ es, (e'.1 == e.1) = true → e'.2.yield w true = none) :
    (Entries.overlay [] es).filterMap (Node.yieldEntry w true) =
      Entries.overlay [] (es.filterMap (Node.yieldEntry w true)) := by
  rw [yieldEntries_overlay, overlay_yieldEntries]
  refine Entries.latest_filterMap (fun _ _ => yieldEntry_key) fun e he hnone e' he' hkey => ?_
  exact Option.map_eq_none_iff.mpr (h e he (Option.map_eq_none_iff.mp hnone) e' he' hkey)

end

section

variable {w : World} {P : Origin → Prop}

section

variable {known : String → Bool} (acc : Combined)

theorem combineWith_token {t : Token} (h : t.isNull = false) :
    combineWith known acc (.token t) = .error .wrong := by
  cases acc <;> simp [combineWith, Node.isNull, h] <;> rfl

theorem combineWith_call (f : String) (ps : List Node) (o : Origin) :
    combineWith known acc (.call f ps o) = .error ((Node.call f ps o).stuck known) := by
  cases acc <;> rfl

theorem combineWith_statement (f : String) (ps : List Node) (o : Origin) (data : Node) :
    combineWith known acc (.statement f ps o data) =
      .error ((Node.statement f ps o data).stuck known) := by
  cases acc <;> rfl

end

/-- What parameters have been combined to, and what those have that they yield. -/
inductive Library.Combined.Yields (w : World) (qs : List Node) : Combined → Combined → Prop
  | nothing (h : ∀ q ∈ qs, q.isNull = true) : Yields w qs .nothing .nothing
  | items (is : List Node) : Yields w qs (.items is) (.items (is.filterMap (Node.yield w true)))
  | entries (h : ∀ q ∈ qs, q.isNull = true ∨ q.entries?.isSome = true) :
    Yields w qs (.entries (Entries.overlay [] (entriesOf qs)))
      (.entries (Entries.overlay [] ((entriesOf qs).filterMap (Node.yieldEntry w true))))

theorem entriesOf_append (ps qs : List Node) :
    entriesOf (ps ++ qs) = entriesOf ps ++ entriesOf qs := List.flatMap_append

theorem entriesOf_null {q : Node} (h : q.isNull = true) : entriesOf [q] = [] := by
  cases q with
  | token t => rfl
  | _ => exact absurd h (by simp [Node.isNull])

theorem entriesOf_eq_nil {qs : List Node} (h : ∀ q ∈ qs, q.isNull = true) : entriesOf qs = [] :=
  List.flatMap_eq_nil_iff.mpr fun q hq => by simpa [entriesOf] using entriesOf_null (h q hq)

/-- What a null adds is nothing. -/
theorem yields_null {ps : List Node} {q : Node} {acc acc' : Combined} (h : acc.Yields w ps acc')
    (hq : q.isNull = true) : acc.Yields w (ps ++ [q]) acc' := by
  cases h with
  | nothing h => exact .nothing (List.forall_mem_append.mpr ⟨h, List.forall_mem_singleton.mpr hq⟩)
  | items is => exact .items is
  | entries h =>
    have hsame : entriesOf (ps ++ [q]) = entriesOf ps := by
      rw [entriesOf_append, entriesOf_null hq, List.append_nil]
    rw [← hsame]
    exact .entries (List.forall_mem_append.mpr ⟨h, List.forall_mem_singleton.mpr (.inl hq)⟩)

/-- What a block adds. -/
theorem yields_block {ps : List Node} {es : List (Token × Node)} {o : Origin}
    (h : ∀ p ∈ ps, p.isNull = true ∨ p.entries?.isSome = true) :
    (Combined.entries (Entries.overlay [] (entriesOf ps ++ es))).Yields w (ps ++ [.block es o])
      (.entries <| Entries.overlay [] <|
        (entriesOf ps ++ es).filterMap (Node.yieldEntry w true)) := by
  have hadded : entriesOf [.block es o] = es := List.append_nil es
  have hall : entriesOf ps ++ es = entriesOf (ps ++ [.block es o]) := by
    rw [entriesOf_append, hadded]
  rw [hall]
  exact .entries (List.forall_mem_append.mpr ⟨h, List.forall_mem_singleton.mpr (.inr rfl)⟩)

theorem yields_combineWith {ps : List Node} {q : Node} {acc acc' : Combined}
    (hacc : acc.Yields w ps acc') (hq : q.Pure P)
    (hwaits : combineWith Registry.builtin.isKnown acc q ≠ .error .waits) :
    Reading.Rel (Combined.Yields w (ps ++ [q])) (combineWith Registry.builtin.isKnown acc q)
      (combineWith Registry.builtin.isKnown acc' (q.yieldNode w true)) := by
  have hknown : ∀ {f : String}, Registry.builtin.isKnown f = true → ∀ ps o,
      combineWith Registry.builtin.isKnown acc (.call f ps o) = .error .waits := fun hf ps o => by
    rw [combineWith_call, Node.stuck_call hf]
  cases hq with
  | token t =>
    rw [Node.yieldNode_of_some (Node.yield_token t)]
    cases hnull : t.isNull with
    | true =>
      rw [combineWith_null _ (n := .token t) hnull, combineWith_null _ (n := .token (bare t)) hnull]
      exact .ok (yields_null hacc hnull)
    | false =>
      rw [combineWith_token acc hnull, combineWith_token acc' (t := bare t) hnull]
      exact .error .wrong
  | @array is o _ _ =>
    rw [Node.yieldNode_of_some (Node.yield_array is o)]
    cases hacc with
    | nothing _ => exact .ok (.items is)
    | items js =>
      refine .ok ?_
      rw [← List.filterMap_append]
      exact .items (js ++ is)
    | entries _ => exact .error .wrong
  | @block es o _ _ =>
    rw [Node.yieldNode_of_some (Node.yield_block es o)]
    cases hacc with
    | nothing h =>
      have hblock : (Combined.entries (Entries.overlay [] (entriesOf ps ++ es))).Yields w
          (ps ++ [.block es o]) _ := yields_block fun p hp => .inl (h p hp)
      rw [entriesOf_eq_nil h] at hblock
      exact .ok hblock
    | items js => exact .error .wrong
    | entries h =>
      refine .ok ?_
      rw [← Entries.overlay_append, ← Entries.overlay_append, ← List.filterMap_append]
      exact yields_block h
  | unknown hf _ _ =>
    rw [Node.yieldNode_of_some (Node.yield_unknown hf _ _), combineWith_call, combineWith_call]
    exact .error _
  | statement hf _ _ _ =>
    rw [Node.yieldNode_of_some (Node.yield_statement _ _ _ _), combineWith_statement,
      combineWith_statement]
    exact .error _
  | call hf _ _ => exact absurd (hknown (known_of_pure hf) _ _) hwaits
  | choice t o _ => exact absurd (hknown (by decide) _ _) hwaits

theorem yields_combine {ps qs : List Node} {acc acc' : Combined} (hacc : acc.Yields w ps acc')
    (hqs : ∀ q ∈ qs, q.Pure P)
    (hwaits : qs.foldlM (combineWith Registry.builtin.isKnown) acc ≠ .error .waits) :
    Reading.Rel (Combined.Yields w (ps ++ qs))
      (qs.foldlM (combineWith Registry.builtin.isKnown) acc)
      ((qs.map (Node.yieldNode w true)).foldlM (combineWith Registry.builtin.isKnown) acc') := by
  induction qs generalizing ps acc acc' with
  | nil => exact .ok ((List.append_nil ps).symm ▸ hacc)
  | cons q qs ih =>
    obtain ⟨hq, hqs⟩ := List.forall_mem_cons.mp hqs
    rw [List.foldlM_cons] at hwaits ⊢
    rw [List.map_cons, List.foldlM_cons, ← List.singleton_append, ← List.append_assoc]
    have hstep := yields_combineWith hacc hq fun h => hwaits (by rw [h]; rfl)
    generalize combineWith _ acc q = r, combineWith _ acc' _ = r' at hstep hwaits
    cases hstep with
    | ok h => exact ih h hqs hwaits
    | error e => exact .error e

theorem Meaning.natural_combine {merges : Prop} (hmerges : merges) :
    Meaning.combine.Natural merges := by
  intro w P f qs o hqs hhides hwaits
  have hevaluation : ∀ qs o, Meaning.combine.evaluation w ⟨f, qs, o⟩ =
      Reading.outcome o (qs.foldlM (combineWith Registry.builtin.isKnown) .nothing)
        (Meaning.combine.give w o []) := fun _ _ => rfl
  have hread : Reading.Rel (Combined.Yields w qs) _ _ :=
    yields_combine (.nothing (List.forall_mem_nil _)) hqs hwaits
  rw [hevaluation, hevaluation]
  change qs.foldlM (combineWith _) .nothing ≠ _ at hwaits
  generalize qs.foldlM (combineWith _) .nothing = r,
    (qs.map (Node.yieldNode w true)).foldlM (combineWith _) .nothing = r' at hread hwaits
  cases hread with
  | error e =>
    cases e with
    | waits => exact absurd rfl hwaits
    | wrong => rfl
  | ok h =>
    cases h with
    | nothing _ => rfl
    | items is =>
      show (Node.array is o).yield w true = some (bare (.array (is.filterMap _) o.bare))
      rw [Node.yield_array, bare_array, Node.bare_yieldItems]
    | entries hblocks =>
      have hshown : ∀ e ∈ Entries.latest (entriesOf qs), e.2.yield w true = none →
          ∀ e' ∈ entriesOf qs, (e'.1 == e.1) = true → e'.2.yield w true = none :=
        fun e he hnone e' he' hkey => by
          by_contra hsome
          exact hhides hmerges ⟨hblocks, e, he, hnone, e', he', hkey, hsome⟩
      show (Node.block (Entries.overlay [] (entriesOf qs)) o).yield w true =
        some (bare (.block _ _))
      rw [Node.yield_block, yieldEntries_merged hshown, bare_block, bare_overlay_yieldEntries]

end

/-! ### All pure functions -/

/-- What is used of a pure function: that the registry and the evaluations agree on it. -/
structure Function.Agrees {α : Type} [Bare α] (function : Function) (m : Meaning α)
    (f : String) : Prop where
  get : Registry.get? .builtin f = some function
  evaluate : ∀ late, Entries.get? (evaluations late) f = some m.evaluation
  late : function.late = false
  placeless : m.Placeless
  lawful : m.Lawful
  means : function.Means m
  builds : function.Builds

theorem agrees_readBinding : Library.readBinding.Agrees .readBinding "^" :=
  ⟨rfl, Bool.forall_bool.mpr ⟨rfl, rfl⟩, rfl, Meaning.placeless_readBinding,
    Meaning.lawful_readBinding, Library.means_readBinding, Library.builds_readBinding⟩

/-- Whether the function of a name has an evaluation that goes with what is yielded. Parameters
are merged by `Combine` alone. -/
def Evaluates (f : String) : Prop :=
  ∃ (function : Function) (α : Type) (_ : Bare α) (m : Meaning α),
    function.Agrees m f ∧ m.Natural (f = "Combine")

/-- **The pure functions have evaluations that go with what is yielded**, but for `^`. -/
theorem evaluates_of_mem {f : String} (hf : f ∈ pureNames) (hbinding : f ≠ "^") :
    Evaluates f := by
  have hboth : ∀ {f : String} {d : Evaluation}, Entries.get? (evaluations false) f = some d →
      Entries.get? (evaluations true) f = some d →
        ∀ late, Entries.get? (evaluations late) f = some d :=
    fun h h' => Bool.forall_bool.mpr ⟨h, h'⟩
  have hasset : ∀ {f : String} (function : Function) (text : World → String → String),
      Registry.get? .builtin f = some function →
      (∀ late, Entries.get? (evaluations late) f = some (Meaning.assetWith text).evaluation) →
      function.late = false → function.Means (.assetWith text) → function.Builds →
        Evaluates f :=
    fun _ _ hget hevaluate hlate hmeans hbuilds => ⟨_, _, _, _,
      ⟨hget, hevaluate, hlate, Meaning.placeless_assetWith _, Meaning.lawful_assetWith _, hmeans,
        hbuilds⟩, Meaning.natural_assetWith _ _⟩
  have hrecord : ∀ {f : String} (k : Library.RecordKind), k.arity.accepts 0 = false →
      Registry.get? .builtin f = some (Library.record k) →
      (∀ late, Entries.get? (evaluations late) f = some (Meaning.record k).evaluation) →
        Evaluates f :=
    fun k hk hget hevaluate => ⟨_, _, _, _, ⟨hget, hevaluate, rfl, Meaning.placeless_record k,
      Meaning.lawful_record k, Library.means_record k, Library.builds_record k hk⟩,
      Meaning.natural_record k _⟩
  simp only [pureNames, List.mem_cons, List.not_mem_nil, or_false] at hf
  obtain rfl | rfl | rfl | rfl | rfl | rfl | rfl | rfl | rfl | rfl := hf
  · exact hasset Library.assetName (fun w path => w.host.assetName path) rfl (hboth rfl rfl) rfl
      Library.means_assetName (Library.builds_assetWith _)
  · exact hasset Library.assetFile (fun w path => Path.compose w.settings.contentRoot path)
      rfl (hboth rfl rfl) rfl Library.means_assetFile (Library.builds_assetWith _)
  · exact ⟨Library.concatenate, _, _, .concatenate, ⟨rfl, hboth rfl rfl, rfl,
      Meaning.placeless_concatenate, Meaning.lawful_concatenate, Library.means_concatenate,
      Library.builds_concatenate⟩, Meaning.natural_concatenate _⟩
  · exact ⟨Library.join, _, _, .join, ⟨rfl, hboth rfl rfl, rfl, Meaning.placeless_join,
      Meaning.lawful_join, Library.means_join, Library.builds_join⟩, Meaning.natural_join _⟩
  · exact ⟨Library.combine, _, _, .combine, ⟨rfl, hboth rfl rfl, rfl, Meaning.placeless_combine,
      Meaning.lawful_combine, Library.means_combine, Library.builds_combine⟩,
      Meaning.natural_combine rfl⟩
  · exact hrecord .vector rfl rfl (hboth rfl rfl)
  · exact hrecord .vector rfl rfl (hboth rfl rfl)
  · exact hrecord .rectangle rfl rfl (hboth rfl rfl)
  · exact hrecord .color rfl rfl (hboth rfl rfl)
  · exact absurd rfl hbinding

/-- Every pure function has an evaluation. -/
theorem agrees_of_mem {f : String} (hf : f ∈ pureNames) :
    ∃ (function : Function) (α : Type) (_ : Bare α) (m : Meaning α), function.Agrees m f := by
  by_cases hbinding : f = "^"
  · subst hbinding
    exact ⟨_, _, _, _, agrees_readBinding⟩
  · obtain ⟨function, α, _, m, hagrees, -⟩ := evaluates_of_mem hf hbinding
    exact ⟨function, α, _, m, hagrees⟩

/-! ### What is yielded -/

/-- Whether a condition holds of what pure nodes yield in a pass, if it holds of the parts. -/
structure Node.Yielded (late : Bool) (N : Node → Prop) : Prop extends Node.Closed N where
  bare : ∀ {n : Node}, N n → N (bare n)
  unknown : ∀ {f : String} {ps : List Node} {o : Origin}, Registry.builtin.isKnown f = false →
    (∀ p ∈ ps, N p) → N (.call f ps o)
  statement : ∀ {f : String} {ps : List Node} {o : Origin} {data : Node},
    Registry.builtin.isKnown f = false → (∀ p ∈ ps, N p) → N data → N (.statement f ps o data)
  waiting : ∀ {f : String} {ps : List Node} {o : Origin}, f ∈ pureNames → (∀ p ∈ ps, N p) →
    (¬ ∀ p ∈ ps, p.Inert Registry.builtin.isKnown) → N (.call f ps o)
  choice : late = false → ∀ t o o', N (.call "Choose" [.array [.token t] o] o')

section

variable {w : World} {late : Bool} {P : Origin → Prop} {N : Node → Prop}

theorem Node.Yielded.evaluate (hN : Node.Yielded late N) {f : String} {ps : List Node} {o : Origin}
    {m : Node} (hf : f ∈ pureNames) (hps : ∀ p ∈ ps, N p)
    (h : evaluate w late f ps o = some m) : N m := by
  obtain ⟨function, α, _, meaning, hagrees⟩ := agrees_of_mem hf
  rw [ContentLang.evaluate, hagrees.evaluate] at h
  change (meaning.outcome _ w ⟨f, ps, o⟩ []).left (.call f ps o) = some m at h
  by_cases hread : meaning.read Registry.builtin.isKnown ps = .error .waits
  · rw [Meaning.outcome, hread] at h
    rw [← Option.some.inj h]
    exact hN.waiting hf hps fun hinert => hagrees.lawful.ready _ _ hinert hread
  · obtain ⟨hready, hnodes⟩ := hagrees.lawful.outcome hN.toClosed w ⟨f, ps, o⟩ hps
      (List.forall_mem_nil _) hread
    generalize meaning.outcome _ w ⟨f, ps, o⟩ [] = out at hready hnodes h
    cases out with
    | value q =>
      rw [← Option.some.inj h]
      exact hN.bare (hnodes q (by simp))
    | pending => exact absurd rfl hready
    | empty => cases h
    | splice items => cases h

/-- **What holds of what is yielded**, by the kind of node. -/
theorem Node.Pure.yielded (hN : Node.Yielded late N) {n m : Node} (hn : n.Pure P)
    (h : n.yield w late = some m) : N m := by
  have hparam : ∀ {p : Node}, (∀ m, p.yield w late = some m → N m) → N (p.yieldNode w late) :=
    fun {p} hp => by
      cases hy : p.yield w late with
      | none => rw [yieldNode_of_none hy]; exact hN.token _
      | some m => rw [yieldNode_of_some hy]; exact hp m hy
  induction n generalizing m with
  | token t =>
    rw [← Option.some.inj h]
    exact hN.token _
  | array is o ih =>
    cases hn with
    | array _ his =>
      rw [← Option.some.inj ((yield_array is o).symm.trans h)]
      exact hN.array.mpr <| List.forall_mem_filterMap.mpr fun i hi m hm => ih i hi (his i hi) hm
  | block es o ih =>
    cases hn with
    | block _ hes =>
      rw [← Option.some.inj ((yield_block es o).symm.trans h)]
      refine hN.block.mpr <| List.forall_mem_filterMap.mpr fun e he e' he' => ?_
      obtain ⟨m, hm, rfl⟩ := Option.map_eq_some_iff.mp he'
      exact ih e he (hes e he) hm
  | call f ps o ih =>
    cases hn with
    | unknown hf _ hps =>
      rw [← Option.some.inj ((yield_unknown hf ps o).symm.trans h)]
      exact hN.unknown hf <| List.forall_mem_map.mpr fun p hp => hparam fun m hm =>
        ih p hp (hps p hp) hm
    | call hf _ hps =>
      refine hN.evaluate hf (List.forall_mem_map.mpr fun p hp => hparam fun m hm =>
        ih p hp (hps p hp) hm) ((yield_call f ps o).symm.trans h)
    | choice t o _ =>
      rw [← Option.some.inj ((yield_choice t o _).symm.trans h)]
      cases late with
      | true => exact hN.token _
      | false => exact hN.bare (hN.choice rfl t o _)
  | statement f ps o data ih ihdata =>
    cases hn with
    | statement hf _ hps hdata =>
      rw [← Option.some.inj ((yield_statement f ps o data).symm.trans h)]
      exact hN.statement hf (List.forall_mem_map.mpr fun p hp => hparam fun m hm =>
        ih p hp (hps p hp) hm) (hparam fun m hm => ihdata hdata hm)

theorem Node.Pure.yieldedNode (hN : Node.Yielded late N) {n : Node} (hn : n.Pure P) :
    N (n.yieldNode w late) := by
  cases h : n.yield w late with
  | none => rw [yieldNode_of_none h]; exact hN.token _
  | some m => rw [yieldNode_of_some h]; exact hn.yielded hN h

/-- What pure nodes yield is pure. -/
theorem Node.yielded_pure : Node.Yielded late (Node.Pure fun _ => True) where
  token := .token
  array := ⟨fun h => by cases h with | array _ his => exact his, .array trivial⟩
  block := ⟨fun h => by cases h with | block _ hes => exact hes, .block trivial⟩
  bare h := h.bare
  unknown hf hps := .unknown hf trivial hps
  statement hf hps hdata := .statement hf trivial hps hdata
  waiting hf hps _ := .call hf trivial hps
  choice _ t o _ := .choice t o trivial

/-- In consumption nothing is left that could be reduced. -/
theorem Node.yielded_inert : Node.Yielded true (Node.Inert Registry.builtin.isKnown) where
  toClosed := closed_inert
  bare h := Alike.inert (bare_bare _).symm h
  unknown hf hps := inert_call.mpr ⟨hf, hps⟩
  statement hf hps hdata := inert_statement.mpr ⟨hf, hps, hdata⟩
  waiting _ hps hnot := absurd hps hnot
  choice h := nomatch h

end

end ContentLang
