import ContentLang.Proofs.Inlining.Twin

/-!
# What functions mean of twins

The functions that are not late give twins for twins (`ContentLang.Function.meansTwins_builtin`):
from parameters that are twins they read what corresponds, and what they make of it are twins if
the calls stand in files where paths are read alike, and if the names that are bound are bound to
twins.

Of a meaning this is said by naming what it reads that corresponds
(`ContentLang.Meaning.ReadsTwins`): texts that are the same, collections of twins.
-/

namespace ContentLang

open Node

/-- **Whether a meaning goes from twins to twins**: what it reads of them corresponds in some way,
and what it gives for what corresponds are twins. -/
def Meaning.ReadsTwins {α : Type} (m : Meaning α) : Prop :=
  ∃ R : α → α → Prop,
    (∀ (known : String → Bool) {ps qs : List Node}, List.Forall₂ Twin ps qs →
      Reading.Rel R (m.read known ps) (m.read known qs)) ∧
    ∀ (w : World) {o o' : Origin} {c d : Context} {a b : α}, o.Near o' → c.Twin d → R a b →
      (m.give w o c a).Twin (m.give w o' d b)

/-- **The outcomes of a function for twins are twins.** -/
theorem Meaning.ReadsTwins.outcome {α : Type} {m : Meaning α} (h : m.ReadsTwins)
    (known : String → Bool) (w : World) {f : String} {ps qs : List Node} {o o' : Origin}
    {c d : Context} (hps : List.Forall₂ Twin ps qs) (ho : o.Near o') (hctx : c.Twin d) :
    (m.outcome known w ⟨f, ps, o⟩ c).Twin (m.outcome known w ⟨f, qs, o'⟩ d) := by
  obtain ⟨R, hread, hgive⟩ := h
  have hr := hread known hps
  rw [Meaning.outcome, Meaning.outcome]
  dsimp only
  generalize m.read known ps = r, m.read known qs = r' at hr
  cases hr with
  | ok hab => exact hgive w ho hctx hab
  | error e =>
    cases e with
    | waits => exact .pending
    | wrong => exact Outcome.twin_token rfl

section

variable {known : String → Bool} {m n : Node} {ps qs : List Node}

/-! ### Texts -/

theorem rel_tokenOf (h : m.Twin n) : Reading.Rel Alike (tokenOf known m) (tokenOf known n) := by
  have hstuck := h.stuck known
  cases h with
  | token h => exact .ok h
  | _ =>
    simp only [tokenOf, hstuck]
    exact .error _

theorem rel_tokensOf (h : List.Forall₂ Twin ps qs) :
    Reading.Rel (List.Forall₂ Alike) (tokensOf known ps) (tokensOf known qs) := by
  induction h with
  | nil => exact .ok .nil
  | cons hpq _ ih =>
    rw [tokensOf_cons, tokensOf_cons]
    exact Reading.rel_bind (rel_tokenOf hpq) fun t u htu =>
      Reading.rel_bind ih fun ts us htus => .ok (.cons htu htus)

theorem textsOf_twin (h : m.Twin n) : textsOf known m = textsOf known n := by
  have hstuck := h.stuck known
  induction m generalizing n with
  | token t =>
    cases h with
    | token h => rw [textsOf, textsOf, Alike.isNull h, Alike.value h]
  | array is o ih =>
    cases h with
    | array his =>
      rw [textsOf, textsOf]
      clear hstuck
      induction his with
      | nil => rfl
      | cons hij _ ihis =>
        obtain ⟨hi, hrest⟩ := List.forall_mem_cons.mp ih
        rw [textsOfAll, textsOfAll, hi hij (hij.stuck known), ihis hrest]
  | call f ps o ih =>
    cases h with
    | call => simp only [textsOf, hstuck]
  | statement f ps o data ih ihdata =>
    cases h with
    | statement => simp only [textsOf, hstuck]
  | block es o ih =>
    cases h with
    | columns => simp only [textsOf, hstuck]

theorem textsOfAll_twins (h : List.Forall₂ Twin ps qs) :
    textsOfAll known ps = textsOfAll known qs := by
  induction h with
  | nil => rfl
  | cons hpq _ ih => rw [textsOfAll, textsOfAll, textsOf_twin hpq, ih]

end

namespace Meaning

theorem readsTwins_assetWith (text : World → String → String) : (assetWith text).ReadsTwins := by
  refine ⟨Alike, fun known {ps qs} h => ?_, fun w {o o' c d a b} ho _ hab => ?_⟩
  · cases h with
    | nil => exact .error .wrong
    | cons hpq hs =>
      cases hs with
      | nil => exact rel_tokenOf hpq
      | cons => exact .error .wrong
  · have hpath : Path.resolve o.location.file a.value = Path.resolve o'.location.file b.value := by
      rw [hab.value, show Path.resolve o.location.file = _ from ho]
    simp only [assetWith, hpath]
    exact Outcome.twin_token rfl

theorem readsTwins_concatenate : concatenate.ReadsTwins := by
  refine ⟨List.Forall₂ Alike, fun known {ps qs} h => rel_tokensOf h,
    fun w {o o' c d a b} _ _ h => ?_⟩
  have hvalues : a.map (·.value) = b.map (·.value) := by
    induction h with
    | nil => rfl
    | cons h _ ih => rw [List.map_cons, List.map_cons, Alike.value h, ih]
  simp only [concatenate, hvalues]
  exact Outcome.twin_token rfl

theorem readsTwins_join : join.ReadsTwins := by
  refine ⟨fun a b => Alike a.1 b.1 ∧ a.2 = b.2, fun known {ps qs} h => ?_,
    fun w {o o' c d a b} _ _ hab => ?_⟩
  · cases h with
    | nil => exact .error .wrong
    | cons hpq hs =>
      refine Reading.rel_bind (rel_tokenOf hpq) fun t u htu => ?_
      rw [textsOfAll_twins hs]
      exact Reading.rel_bind (R := fun xs ys => xs = ys)
        (by cases textsOfAll known _ with
          | ok xs => exact .ok rfl
          | error e => exact .error e)
        fun xs ys hxy => .ok ⟨htu, hxy⟩
  · simp only [join, Alike.value hab.1, hab.2]
    exact Outcome.twin_token rfl

end Meaning

/-! ### Collections -/

open Library (Combined)

/-- Whether two things that have been combined are made of twins in the same way. -/
inductive Library.Combined.Twin : Combined → Combined → Prop
  | nothing : Twin .nothing .nothing
  | items {is js : List Node} (h : List.Forall₂ Node.Twin is js) : Twin (.items is) (.items js)
  | entries {es fs : Entries Token Node} (h : List.Forall₂ TwinEntry es fs) :
    Twin (.entries es) (.entries fs)

section

variable {known : String → Bool} {m n : Node} {ps qs : List Node}

theorem rel_combineWith {acc acc' : Combined} (hacc : acc.Twin acc') (h : m.Twin n) :
    Reading.Rel Combined.Twin (combineWith known acc m) (combineWith known acc' n) := by
  have hstuck := h.stuck known
  unfold combineWith
  rw [h.isNull]
  split
  · exact .ok hacc
  · cases h with
    | array his =>
      cases hacc with
      | nothing => exact .ok (.items his)
      | items hjs => exact .ok (.items (List.rel_append hjs his))
      | entries => exact .error .wrong
    | columns hkeys hvalues =>
      have hes := forall₂_rows.mpr ⟨hkeys, hvalues⟩
      cases hacc with
      | nothing => exact .ok (.entries (Entries.twin_overlay .nil hes))
      | items => exact .error .wrong
      | entries hfs => exact .ok (.entries (Entries.twin_overlay hfs hes))
    | token => cases hacc <;> exact .error .wrong
    | call => cases hacc <;> simp only [hstuck] <;> exact .error _
    | statement => cases hacc <;> simp only [hstuck] <;> exact .error _

theorem rel_combine {acc acc' : Combined} (hacc : acc.Twin acc') (h : List.Forall₂ Twin ps qs) :
    Reading.Rel Combined.Twin (ps.foldlM (combineWith known) acc)
      (qs.foldlM (combineWith known) acc') := by
  induction h generalizing acc acc' with
  | nil => exact .ok hacc
  | cons hpq _ ih =>
    rw [List.foldlM_cons, List.foldlM_cons]
    exact Reading.rel_bind (rel_combineWith hacc hpq) fun _ _ h => ih h

theorem rel_collectionOf (h : m.Twin n) :
    Reading.Rel Twin (collectionOf known m) (collectionOf known n) := by
  have hstuck := h.stuck known
  cases h with
  | array his => exact .ok (.array his)
  | columns hkeys hvalues => exact .ok (.columns hkeys hvalues)
  | token => exact .error .wrong
  | call =>
    simp only [collectionOf, hstuck]
    exact .error _
  | statement =>
    simp only [collectionOf, hstuck]
    exact .error _

theorem contains_alike {ts us : List Token} (h : List.Forall₂ Alike ts us) {s t : Token}
    (hst : Alike s t) : ts.contains s = us.contains t := by
  induction h with
  | nil => rfl
  | cons h _ ih => rw [List.contains_cons, List.contains_cons, Entries.beq_of_alike hst h, ih]

theorem Library.twin_withoutKeys {ts us : List Token} (h : List.Forall₂ Alike ts us)
    {es fs : Entries Token Node} (hes : List.Forall₂ TwinEntry es fs) :
    List.Forall₂ TwinEntry (withoutKeys es ts) (withoutKeys fs us) := by
  induction h generalizing es fs with
  | nil => exact hes
  | cons htu _ ih => exact ih (Entries.twin_erase hes htu)

theorem Node.Twin.without {ts us : List Token} (h : m.Twin n) (hts : List.Forall₂ Alike ts us) :
    (m.without ts).Twin (n.without us) := by
  cases h with
  | array his =>
    refine .array (List.rel_filter (fun i j hij => ?_) his)
    have hkept : i.token?.any ts.contains = j.token?.any us.contains := by
      cases hij with
      | token h => exact contains_alike hts h
      | _ => rfl
    simp [hkept]
  | columns hkeys hvalues =>
    exact twin_block (Library.twin_withoutKeys hts (forall₂_rows.mpr ⟨hkeys, hvalues⟩)) _ _
  | token h => exact .token h
  | call hps ho => exact .call hps ho
  | statement hps ho hdata => exact .statement hps ho hdata

end

namespace Meaning

theorem readsTwins_combine : combine.ReadsTwins := by
  refine ⟨Combined.Twin, fun known {ps qs} h => rel_combine .nothing h,
    fun w {o o' c d a b} _ _ h => ?_⟩
  cases h with
  | nothing => exact .empty
  | items h => exact .value (.array h)
  | entries h => exact .value (twin_block h o o')

theorem readsTwins_remove : remove.ReadsTwins := by
  refine ⟨fun a b => a.1.Twin b.1 ∧ List.Forall₂ Alike a.2 b.2, fun known {ps qs} h => ?_,
    fun w {o o' c d a b} _ _ h => .value (h.1.without h.2)⟩
  cases h with
  | nil => exact .error .wrong
  | cons hpq hs =>
    exact Reading.rel_bind (rel_tokensOf hs) fun ts us hts =>
      Reading.rel_bind (rel_collectionOf hpq) fun m n hmn => .ok ⟨hmn, hts⟩

end Meaning

/-! ### Records and bindings -/

open Library (Component RecordKind)

theorem rel_fieldsOf {known : String → Bool} (component : Component)
    (fields : List (String × Option String)) {ps qs : List Node} (h : List.Forall₂ Twin ps qs) :
    Reading.Rel (List.Forall₂ TwinEntry) (fieldsOf known component fields ps)
      (fieldsOf known component fields qs) := by
  induction fields generalizing ps qs with
  | nil => exact .ok .nil
  | cons field fields ih =>
    obtain ⟨key, fallback⟩ := field
    cases h with
    | nil =>
      cases fallback with
      | none => exact .error .wrong
      | some fallback =>
        exact Reading.rel_bind (ih .nil) fun es fs hes => .ok (.cons ⟨rfl, .token rfl⟩ hes)
    | cons hpq hs =>
      refine Reading.rel_bind (rel_tokenOf hpq) fun t u htu => ?_
      rw [Alike.value htu]
      cases component.fault? u.value with
      | some fault => exact .error .wrong
      | none =>
        exact Reading.rel_bind (ih hs) fun es fs hes => .ok (.cons ⟨rfl, .token htu⟩ hes)

namespace Meaning

theorem readsTwins_record (k : RecordKind) : (record k).ReadsTwins := by
  refine ⟨List.Forall₂ TwinEntry, fun known {ps qs} h => ?_,
    fun w {o o' c d a b} _ _ h => .value (twin_block h o o')⟩
  simp only [record, h.length_eq]
  split
  · exact rel_fieldsOf k.component k.fields h
  · exact .error .wrong

theorem readsTwins_readBinding : readBinding.ReadsTwins := by
  refine ⟨fun a b => Alike a.1 b.1 ∧ Option.Rel Twin a.2 b.2, fun known {ps qs} h => ?_,
    fun w {o o' c d a b} _ hctx hab => ?_⟩
  · cases h with
    | nil => exact .error .wrong
    | @cons p q ps qs hpq hs =>
      have hdefault : Option.Rel Twin ps.head? qs.head? := by
        cases hs with
        | nil => exact .none
        | cons h _ => exact .some h
      simp only [readBinding, hs.length_eq]
      split
      · exact Reading.rel_bind (rel_tokenOf hpq) fun t u htu => .ok ⟨htu, hdefault⟩
      · exact .error .wrong
  · obtain ⟨hname, hdefault⟩ := hab
    have hvalue := hctx a.1
    rw [Context.get?_of_alike hname d] at hvalue
    simp only [readBinding, Alike.value hname]
    generalize c.get? a.1 = x, d.get? b.1 = y, a.2 = v, b.2 = v' at hvalue hdefault ⊢
    cases hvalue with
    | some h => exact .value h
    | none =>
      cases hdefault with
      | some h => exact .value h
      | none => exact Outcome.twin_token rfl

end Meaning

/-! ### All functions -/

/-- Whether a function has a meaning that keeps the laws and goes from twins to twins. -/
def Function.MeansTwins (f : Function) : Prop :=
  ∃ (α : Type) (m : Meaning α), m.Lawful ∧ m.ReadsTwins ∧ f.Means m

/-- **The functions of the language have meanings that go from twins to twins**, but for the late
ones. -/
theorem Function.meansTwins_builtin :
    ∀ e ∈ Registry.builtin, e.2.late = true ∨ e.2.MeansTwins := by
  have hrecord : ∀ k, (Library.record k).MeansTwins := fun k =>
    ⟨_, .record k, Meaning.lawful_record k, Meaning.readsTwins_record k, Library.means_record k⟩
  simp only [Registry.builtin, List.forall_mem_cons]
  refine ⟨.inr ⟨_, _, Meaning.lawful_assetWith _, Meaning.readsTwins_assetWith _,
      Library.means_assetName⟩,
    .inr ⟨_, _, Meaning.lawful_assetWith _, Meaning.readsTwins_assetWith _,
      Library.means_assetFile⟩,
    .inr ⟨_, _, Meaning.lawful_concatenate, Meaning.readsTwins_concatenate,
      Library.means_concatenate⟩,
    .inr ⟨_, _, Meaning.lawful_join, Meaning.readsTwins_join, Library.means_join⟩,
    .inl rfl, .inl rfl, .inl rfl,
    .inr ⟨_, _, Meaning.lawful_combine, Meaning.readsTwins_combine, Library.means_combine⟩,
    .inr ⟨_, _, Meaning.lawful_remove, Meaning.readsTwins_remove, Library.means_remove⟩,
    .inr (hrecord _), .inr (hrecord _), .inr (hrecord _), .inr (hrecord _),
    .inr ⟨_, _, Meaning.lawful_readBinding, Meaning.readsTwins_readBinding,
      Library.means_readBinding⟩, by simp⟩

end ContentLang
