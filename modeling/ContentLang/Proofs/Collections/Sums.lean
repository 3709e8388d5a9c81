import ContentLang.Proofs.Meaning.Laws
import ContentLang.Proofs.Nodes.Entries

/-!
# Sums of collections

What parameters combine to is a sum: arrays are put one after the other, blocks are merged, nulls
count for nothing. The operation is partial, since arrays do not go with blocks, and it is
associative (`ContentLang.Library.Combined.append_assoc`). The sum of a list is therefore that of
its parts (`ContentLang.Library.combinedAll?_append`).

The outcome of a sum can be read off all the parameters at once
(`ContentLang.Library.outcome_combinedAll?`).
-/

namespace ContentLang

/-! ### Sums of collections -/

namespace Library

/-- Two things that were combined, put together. Arrays do not go with blocks. -/
def Combined.append : Combined → Combined → Option Combined
  | .nothing, b => some b
  | a, .nothing => some a
  | .items ms, .items ns => some (.items (ms ++ ns))
  | .entries es, .entries fs => some (.entries (Entries.overlay es fs))
  | .items _, .entries _ => none
  | .entries _, .items _ => none

/-- What a parameter adds, if it is null, an array or a block. -/
def combined? : Node → Option Combined
  | .token t => if t.isNull then some .nothing else none
  | .array is _ => some (.items is)
  | .block es _ => some (.entries (Entries.overlay [] es))
  | .call .. => none
  | .statement .. => none

/-- What parameters add up to. -/
def combinedAll? : List Node → Option Combined
  | [] => some .nothing
  | n :: ns => (combined? n).bind fun a => (combinedAll? ns).bind a.append

/-- The outcome of what parameters add up to. -/
def Combined.outcome (o : Origin) : Option Combined → Outcome
  | none => .error o
  | some .nothing => .empty
  | some (.items ns) => .value (.array ns o)
  | some (.entries es) => .value (.block es o)

theorem Combined.append_nothing (a : Combined) : a.append .nothing = some a := by
  cases a <;> rfl

/-- **Adding collections up is associative**, also in whether it is possible. -/
theorem Combined.append_assoc (a b c : Combined) :
    (a.append b).bind (·.append c) = (b.append c).bind a.append := by
  cases a with
  | nothing => exact (Option.bind_fun_some (b.append c)).symm
  | items ms =>
    cases b with
    | nothing => rfl
    | items ns => cases c <;> simp [append]
    | entries es => cases c <;> rfl
  | entries es =>
    cases b with
    | nothing => rfl
    | items ns => cases c <;> rfl
    | entries fs =>
      cases c with
      | nothing => rfl
      | items ns => rfl
      | entries gs =>
        exact congrArg (some ∘ Combined.entries) (Entries.overlay_overlay es fs gs).symm

theorem combinedAll?_singleton (n : Node) : combinedAll? [n] = combined? n := by
  simp [combinedAll?, Combined.append_nothing]

/-- What a part of the parameters adds up to may be added to the rest. -/
theorem combinedAll?_append (ms ns : List Node) :
    combinedAll? (ms ++ ns) =
      (combinedAll? ms).bind fun a => (combinedAll? ns).bind a.append := by
  induction ms with
  | nil => exact (Option.bind_fun_some _).symm
  | cons m ms ih =>
    rw [List.cons_append, combinedAll?, combinedAll?, ih]
    cases combined? m with
    | none => rfl
    | some a =>
      cases combinedAll? ms with
      | none => rfl
      | some b =>
        cases combinedAll? ns with
        | none => simp
        | some c => exact (a.append_assoc b c).symm

/-- What comes before and behind adds up if all of it does. -/
theorem combinedAll?_ne_none (ms ns : List Node) (h : combinedAll? (ms ++ ns) ≠ none) :
    combinedAll? ms ≠ none ∧ combinedAll? ns ≠ none := by
  rw [combinedAll?_append] at h
  constructor
  · rintro hms
    exact h (by rw [hms]; rfl)
  · rintro hns
    exact h (by rw [hns]; simp)

/-! ### What is in a sum -/

/-- Whether what has been combined is not changed by merging its entries again. -/
def Combined.Merged : Combined → Prop
  | .nothing => True
  | .items _ => True
  | .entries es => Entries.overlay [] es = es

/-- What holds of the parts of all parameters, and goes over to sums, holds of what they add up
to. -/
theorem combinedAll?_induction {P : Combined → Prop} {ns : List Node} (hnothing : P .nothing)
    (hnode : ∀ n ∈ ns, ∀ a, combined? n = some a → P a)
    (happend : ∀ a b c, P a → P b → a.append b = some c → P c) {a : Combined}
    (h : combinedAll? ns = some a) : P a := by
  induction ns generalizing a with
  | nil => exact Option.some.inj h ▸ hnothing
  | cons n ns ih =>
    obtain ⟨hn, hns⟩ := List.forall_mem_cons.mp hnode
    obtain ⟨b, hb, h⟩ := Option.bind_eq_some_iff.mp h
    obtain ⟨c, hc, h⟩ := Option.bind_eq_some_iff.mp h
    exact happend b c a (hn b hb) (ih hns hc) h

theorem merged_combinedAll? {ns : List Node} {a : Combined} (h : combinedAll? ns = some a) :
    a.Merged := by
  refine combinedAll?_induction trivial (fun n _ a ha => ?_) (fun a b c ha hb hc => ?_) h
  · cases n with
    | token t =>
      obtain ⟨-, rfl⟩ : t.isNull = true ∧ Combined.nothing = a := by
        simpa [combined?] using ha
      trivial
    | array is o => exact Option.some.inj ha ▸ trivial
    | block es o => exact Option.some.inj ha ▸ Entries.overlay_overlay [] [] es
    | call f ps o => simp [combined?] at ha
    | statement f ps o data => simp [combined?] at ha
  · cases a with
    | nothing => exact Option.some.inj hc ▸ hb
    | items ms =>
      cases b with
      | nothing => exact Option.some.inj hc ▸ trivial
      | items ns => exact Option.some.inj hc ▸ trivial
      | entries fs => simp [Combined.append] at hc
    | entries es =>
      cases b with
      | nothing => exact Option.some.inj hc ▸ ha
      | items ns => simp [Combined.append] at hc
      | entries fs =>
        have hes : Entries.overlay [] es = es := ha
        have hmerged := Entries.overlay_overlay [] es fs
        rw [hes] at hmerged
        exact Option.some.inj hc ▸ hmerged

/-- What holds of the members of all parameters holds of those of what they add up to. -/
theorem all_combinedAll? {M N : Node → Prop}
    (harray : ∀ {is o}, N (.array is o) → ∀ i ∈ is, M i)
    (hblock : ∀ {es : List (Token × Node)} {o}, N (.block es o) → ∀ e ∈ es, M e.2)
    {ns : List Node} (hns : ∀ n ∈ ns, N n) {a : Combined} (h : combinedAll? ns = some a) :
    a.All M := by
  refine combinedAll?_induction trivial (fun n hn a ha => ?_) (fun a b c ha hb hc => ?_) h
  · cases n with
    | token t =>
      obtain ⟨-, rfl⟩ : t.isNull = true ∧ Combined.nothing = a := by
        simpa [combined?] using ha
      trivial
    | array is o => exact Option.some.inj ha ▸ harray (hns _ hn)
    | block es o =>
      exact Option.some.inj ha ▸ Entries.forall_overlay (by simp) (hblock (hns _ hn))
    | call f ps o => simp [combined?] at ha
    | statement f ps o data => simp [combined?] at ha
  · cases a with
    | nothing => exact Option.some.inj hc ▸ hb
    | items ms =>
      cases b with
      | nothing => exact Option.some.inj hc ▸ ha
      | items ns => exact Option.some.inj hc ▸ List.forall_mem_append.mpr ⟨ha, hb⟩
      | entries fs => simp [Combined.append] at hc
    | entries es =>
      cases b with
      | nothing => exact Option.some.inj hc ▸ ha
      | items ns => simp [Combined.append] at hc
      | entries fs => exact Option.some.inj hc ▸ Entries.forall_overlay ha hb

/-! ### The outcome of all parameters -/

/-- **What parameters combine to**, nulls aside: nothing if there are no others, the items of all
if they are arrays, the entries of all, merged, if they are blocks, and else the placeholder. -/
def combination (o : Origin) (ps : List Node) : Outcome :=
  let qs := ps.filter fun p => !p.isNull
  if qs.isEmpty then .empty
  else match qs.mapM Node.items?, qs.mapM Node.entries? with
    | some iss, _ => .value (.array iss.flatten o)
    | none, some ess => .value (.block (Entries.merged ess.flatten) o)
    | none, none => .error o

theorem combined?_null {n : Node} (h : n.isNull = true) : combined? n = some .nothing := by
  cases n with
  | token t => exact if_pos h
  | _ => exact absurd h (by simp [Node.isNull])

theorem combinedAll?_filter (ns : List Node) :
    combinedAll? (ns.filter fun n => !n.isNull) = combinedAll? ns := by
  induction ns with
  | nil => rfl
  | cons n ns ih =>
    cases hn : n.isNull with
    | false => rw [List.filter_cons_of_pos (by simp [hn]), combinedAll?, combinedAll?, ih]
    | true =>
      rw [List.filter_cons_of_neg (by simp [hn]), ih, combinedAll?, combined?_null hn,
        Option.bind_some]
      exact (Option.bind_fun_some _).symm

/-- What parameters add up to of which none is null. -/
theorem combinedAll?_cons {n : Node} {ns : List Node} (h : ∀ m ∈ n :: ns, m.isNull = false) :
    combinedAll? (n :: ns) =
      match (n :: ns).mapM Node.items?, (n :: ns).mapM Node.entries? with
      | some iss, _ => some (.items iss.flatten)
      | none, some ess => some (.entries (Entries.overlay [] ess.flatten))
      | none, none => none := by
  induction ns generalizing n with
  | nil =>
    have hn := h n List.mem_cons_self
    rw [combinedAll?_singleton]
    cases n with
    | token t => exact if_neg (Bool.eq_false_iff.mp hn)
    | _ => simp [combined?, Node.items?, Node.entries?]
  | cons m ms ih =>
    obtain ⟨hn, hms⟩ := List.forall_mem_cons.mp h
    have hone : (m :: ms).mapM Node.items? = none ∨ (m :: ms).mapM Node.entries? = none := by
      cases m <;> simp [Node.items?, Node.entries?]
    have hcons : ∀ {β : Type} (f : Node → Option β), (n :: m :: ms).mapM f =
        (f n).bind fun b => ((m :: ms).mapM f).bind fun bs => some (b :: bs) := fun f => by
      rw [List.mapM_cons]
      rfl
    rw [combinedAll?, ih hms, hcons, hcons]
    generalize (m :: ms).mapM Node.items? = x, (m :: ms).mapM Node.entries? = y at hone
    cases n with
    | token t =>
      have hnull : ¬ t.isNull = true := Bool.eq_false_iff.mp hn
      rw [combined?, if_neg hnull]
      rfl
    | call f ps o => rfl
    | statement f ps o data => rfl
    | array is o =>
      cases x with
      | some iss => rfl
      | none => cases y <;> rfl
    | block es o =>
      cases x with
      | some iss =>
        obtain rfl : y = none := hone.resolve_left (by simp)
        rfl
      | none =>
        cases y with
        | none => rfl
        | some ess =>
          refine congrArg (some ∘ Combined.entries) ?_
          rw [Entries.overlay_overlay, List.flatten_cons, Entries.overlay_append]
          rfl

theorem outcome_combinedAll? (o : Origin) (ps : List Node) :
    Combined.outcome o (combinedAll? ps) = combination o ps := by
  unfold combination
  dsimp only
  rw [← combinedAll?_filter]
  have hproper : ∀ p ∈ ps.filter fun p => !p.isNull, p.isNull = false := fun p hp => by
    simpa using (List.mem_filter.mp hp).2
  generalize (ps.filter fun p => !p.isNull) = qs at hproper
  cases qs with
  | nil => rfl
  | cons q qs =>
    rw [combinedAll?_cons hproper, List.isEmpty_cons, if_neg Bool.false_ne_true]
    simp only [Entries.overlay_eq_merged]
    cases (q :: qs).mapM Node.items? with
    | some iss => rfl
    | none => cases (q :: qs).mapM Node.entries? <;> rfl

end Library

end ContentLang
