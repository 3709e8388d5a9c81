import ContentLang.Proofs.Restating.Nodes
import ContentLang.Proofs.Walk.Kin

/-!
# Twins

What is written in one file can be written in another one. It says the same there, and it comes to
the same if paths are read alike in both, as they are in files of one directory. Two nodes are
**twins** (`ContentLang.Node.Twin`) if they say the same, and paths are read alike in the files of
their calls (`ContentLang.OriginOf.Near`). Where they stand in these files, and which identities
they have, makes no difference.

This is less than being alike, for which the files have to be the same
(`ContentLang.Alike.twin`). Twins still say the same (`ContentLang.Node.Twin.same`).

| relation | between |
|---|---|
| `ContentLang.Node.Twin` | nodes |
| `ContentLang.Outcome.Twin` | outcomes, made of twins in the same way |
| `ContentLang.Context.Twin` | contexts that bind the same names, to twins |
-/

namespace ContentLang

/-! ### Directories -/

/-- The directory of a file, if it is not the content root. -/
def Path.directoryOf (file : String) : Option (List Char) := directory? (file.toList.map slash)

/-- Files of one directory read paths alike. -/
theorem Path.resolve_of_directory {f g : String} (h : directoryOf f = directoryOf g) :
    resolve f = resolve g := by
  funext path
  rw [resolve, resolve, resolveChars, resolveChars, ← directoryOf, ← directoryOf, h]

/-- Whether paths are read alike in the files that two calls stand in. -/
def OriginOf.Near (o o' : Origin) : Prop :=
  Path.resolve o.location.file = Path.resolve o'.location.file

theorem OriginOf.Near.of_bare {o o' : Origin} (h : o.bare = o'.bare) : o.Near o' := by
  have hfile : o.location.file = o'.location.file := congrArg (·.location.file) h
  rw [Near, hfile]

/-! ### Nodes -/

/-- What is known of the members of the second list. -/
theorem forall₂_known {α β : Type} {R : α → β → Prop} {Q : β → Prop} {as : List α} {bs : List β}
    (h : List.Forall₂ R as bs) (hQ : ∀ b ∈ bs, Q b) :
    List.Forall₂ (fun a b => Q b ∧ R a b) as bs :=
  ((List.forall₂_and_left _ _).mpr ⟨hQ, h.flip⟩).flip

/-- **Whether two nodes are twins**: they say the same, and paths are read alike where their calls
stand. -/
inductive Node.Twin : Node → Node → Prop
  | token {s t : Token} (h : Alike s t) : Twin (.token s) (.token t)
  | call {f : String} {ps qs : List Node} {o o' : Origin} (hps : List.Forall₂ Twin ps qs)
    (ho : o.Near o') : Twin (.call f ps o) (.call f qs o')
  | statement {f : String} {ps qs : List Node} {o o' : Origin} {d e : Node}
    (hps : List.Forall₂ Twin ps qs) (ho : o.Near o') (hdata : Twin d e) :
    Twin (.statement f ps o d) (.statement f qs o' e)
  | columns {es fs : List (Token × Node)} {o o' : Origin}
    (hkeys : List.Forall₂ Alike (es.map (·.1)) (fs.map (·.1)))
    (hvalues : List.Forall₂ Twin (es.map (·.2)) (fs.map (·.2))) :
    Twin (.block es o) (.block fs o')
  | array {is js : List Node} {o o' : Origin} (his : List.Forall₂ Twin is js) :
    Twin (.array is o) (.array js o')

/-- Whether two entries are under equal keys and have values that are twins. -/
def Node.TwinEntry (e f : Token × Node) : Prop := Alike e.1 f.1 ∧ e.2.Twin f.2

namespace Node

theorem twin_block {es fs : List (Token × Node)} (h : List.Forall₂ TwinEntry es fs)
    (o o' : Origin) : (block es o).Twin (block fs o') := by
  obtain ⟨hkeys, hvalues⟩ := forall₂_rows.mp h
  exact .columns hkeys hvalues

theorem Twin.block {es : List (Token × Node)} {o : Origin} {n : Node}
    (h : (Node.block es o).Twin n) :
    ∃ fs o', n = .block fs o' ∧ List.Forall₂ TwinEntry es fs := by
  cases h with
  | columns hkeys hvalues => exact ⟨_, _, rfl, forall₂_rows.mpr ⟨hkeys, hvalues⟩⟩

end Node

/-- **Nodes that are alike are twins.** -/
theorem Alike.twin {m n : Node} (h : Alike m n) : m.Twin n := by
  have hlist : ∀ {ps qs : List Node}, (∀ p ∈ ps, ∀ {q : Node}, Alike p q → p.Twin q) →
      Alike ps qs → List.Forall₂ Node.Twin ps qs := fun ih hps =>
    forall₂_imp_mem hps.forall₂ fun p hp q => ih p hp
  induction m generalizing n with
  | token t =>
    obtain ⟨u, rfl, hu⟩ := h.token
    exact .token hu
  | call f ps o ih =>
    obtain ⟨qs, o', rfl, hqs, ho⟩ := h.call
    exact .call (hlist ih hqs) (.of_bare ho)
  | statement f ps o data ih ihdata =>
    obtain ⟨qs, o', data', rfl, hqs, ho, hdata⟩ := h.statement
    exact .statement (hlist ih hqs) (.of_bare ho) (ihdata hdata)
  | block es o ih =>
    obtain ⟨fs, o', rfl, hfs⟩ := h.block
    exact Node.twin_block (forall₂_imp_mem hfs.forall₂ fun e he f hef =>
      ⟨congrArg Prod.fst hef, ih e he (congrArg Prod.snd hef)⟩) o o'
  | array is o ih =>
    obtain ⟨js, o', rfl, hjs⟩ := h.array
    exact .array (hlist ih hjs)

/-- Lists of nodes that are alike are twins one by one. -/
theorem Alike.twins {ms ns : List Node} (h : Alike ms ns) : List.Forall₂ Node.Twin ms ns := by
  have harray : Alike (Node.array ms .unwritten) (.array ns .unwritten) := by
    simpa [Alike] using h
  cases harray.twin with
  | array h => exact h

namespace Node

variable {m n k : Node}

theorem Twin.refl (n : Node) : n.Twin n := (Alike.refl n).twin

theorem twins_refl (ns : List Node) : List.Forall₂ Twin ns ns :=
  List.forall₂_same.mpr fun n _ => .refl n

theorem Twin.symm (h : m.Twin n) : n.Twin m := by
  have hlist : ∀ {ps qs : List Node}, (∀ p ∈ ps, ∀ {q : Node}, p.Twin q → q.Twin p) →
      List.Forall₂ Twin ps qs → List.Forall₂ Twin qs ps := fun ih hps =>
    (forall₂_imp_mem hps fun p hp q => ih p hp).flip
  induction m generalizing n with
  | token t =>
    cases h with
    | token h => exact .token (Alike.symm h)
  | call f ps o ih =>
    cases h with
    | call hps ho => exact .call (hlist ih hps) (Eq.symm ho)
  | statement f ps o data ih ihdata =>
    cases h with
    | statement hps ho hdata => exact .statement (hlist ih hps) (Eq.symm ho) (ihdata hdata)
  | block es o ih =>
    obtain ⟨fs, o', rfl, hes⟩ := h.block
    exact twin_block (forall₂_imp_mem hes fun e he f hef =>
      (⟨Alike.symm hef.1, ih e he hef.2⟩ : TwinEntry f e)).flip o' o
  | array is o ih =>
    cases h with
    | array his => exact .array (hlist ih his)

theorem Twin.trans (h : m.Twin n) (h' : n.Twin k) : m.Twin k := by
  have hlist : ∀ {ps qs rs : List Node},
      (∀ p ∈ ps, ∀ {q r : Node}, p.Twin q → q.Twin r → p.Twin r) →
        List.Forall₂ Twin ps qs → List.Forall₂ Twin qs rs → List.Forall₂ Twin ps rs := by
    intro ps qs rs ih hps hqs
    induction hps generalizing rs with
    | nil =>
      cases hqs
      exact .nil
    | cons hpq _ ihps =>
      obtain ⟨hp, hrest⟩ := List.forall_mem_cons.mp ih
      cases hqs with
      | cons hqr hqs => exact .cons (hp hpq hqr) (ihps hrest hqs)
  induction m generalizing n k with
  | token t =>
    cases h with
    | token h =>
      cases h' with
      | token h' => exact .token (h.trans h')
  | call f ps o ih =>
    cases h with
    | call hps ho =>
      cases h' with
      | call hqs ho' => exact .call (hlist ih hps hqs) (Eq.trans ho ho')
  | statement f ps o data ih ihdata =>
    cases h with
    | statement hps ho hdata =>
      cases h' with
      | statement hqs ho' hdata' =>
        exact .statement (hlist ih hps hqs) (Eq.trans ho ho') (ihdata hdata hdata')
  | block es o ih =>
    obtain ⟨fs, o', rfl, hes⟩ := h.block
    obtain ⟨gs, o'', rfl, hfs⟩ := h'.block
    refine twin_block ?_ o o''
    clear h h'
    induction hes generalizing gs with
    | nil =>
      cases hfs
      exact .nil
    | cons hef _ ihes =>
      obtain ⟨he, hrest⟩ := List.forall_mem_cons.mp ih
      cases hfs with
      | cons hfg hfs =>
        exact .cons ⟨hef.1.trans hfg.1, he hef.2 hfg.2⟩ (ihes hrest _ hfs)
  | array is o ih =>
    cases h with
    | array his =>
      cases h' with
      | array hjs => exact .array (hlist ih his hjs)

/-- **Twins say the same.** -/
theorem Twin.same (h : m.Twin n) : m.same n = true := by
  have hlist : ∀ {ps qs : List Node}, (∀ p ∈ ps, ∀ {q : Node}, p.Twin q → p.same q = true) →
      List.Forall₂ Twin ps qs → sameAll ps qs = true := fun ih hps =>
    sameAll_iff.mpr (forall₂_imp_mem hps fun p hp q => ih p hp)
  induction m generalizing n with
  | token t =>
    cases h with
    | token h => exact beq_iff_alike.mpr h
  | call f ps o ih =>
    cases h with
    | call hps _ => simp [Node.same, hlist ih hps]
  | statement f ps o data ih ihdata =>
    cases h with
    | statement hps _ hdata => simp [Node.same, hlist ih hps, ihdata hdata]
  | block es o ih =>
    obtain ⟨fs, o', rfl, hes⟩ := h.block
    exact sameEntries_iff.mpr (forall₂_imp_mem hes fun e he f hef => ⟨hef.1, ih e he hef.2⟩)
  | array is o ih =>
    cases h with
    | array his => exact hlist ih his

/-! #### Nodes of one directory -/

/-- Whether all calls in a node stand in files of a directory. -/
def StandsIn (dir : Option (List Char)) (n : Node) : Prop :=
  ∀ c ∈ n.calls, Path.directoryOf c.origin.location.file = dir

instance (dir : Option (List Char)) (n : Node) : Decidable (n.StandsIn dir) :=
  inferInstanceAs (Decidable (∀ c ∈ n.calls, _))

namespace StandsIn

variable {dir : Option (List Char)} {f : String} {ps : List Node} {o : Origin}

theorem origin (h : (call f ps o).StandsIn dir) : Path.directoryOf o.location.file = dir :=
  h ⟨f, ps, o⟩ (by simp [calls])

theorem params (h : (call f ps o).StandsIn dir) : ∀ p ∈ ps, p.StandsIn dir :=
  fun p hp c hc => h c (List.mem_cons_of_mem _ (mem_callsOfAll.mpr ⟨p, hp, hc⟩))

theorem call {d : Node} (h : (statement f ps o d).StandsIn dir) : (call f ps o).StandsIn dir :=
  fun c hc => h c (List.mem_append_left (calls d) hc)

theorem data {d : Node} (h : (statement f ps o d).StandsIn dir) : d.StandsIn dir :=
  fun c hc => h c (List.mem_append_right (calls (.call f ps o)) hc)

theorem values {es : List (Token × Node)} (h : (block es o).StandsIn dir) :
    ∀ e ∈ es, e.2.StandsIn dir :=
  fun e he c hc => h c (mem_callsOfEntries.mpr ⟨e, he, hc⟩)

theorem items {is : List Node} (h : (array is o).StandsIn dir) : ∀ i ∈ is, i.StandsIn dir :=
  fun i hi c hc => h c (mem_callsOfAll.mpr ⟨i, hi, hc⟩)

end StandsIn

/-- **Nodes that say the same in files of one directory are twins.** -/
theorem twin_of_same {dir : Option (List Char)} (h : m.same n = true) (hm : m.StandsIn dir)
    (hn : n.StandsIn dir) : m.Twin n := by
  have hlist : ∀ {ps qs : List Node}, (∀ p ∈ ps, ∀ {q : Node}, p.same q = true →
      p.StandsIn dir → q.StandsIn dir → p.Twin q) → sameAll ps qs = true →
        (∀ p ∈ ps, p.StandsIn dir) → (∀ q ∈ qs, q.StandsIn dir) → List.Forall₂ Twin ps qs :=
    fun ih hsame hps hqs => forall₂_imp_mem (forall₂_known (sameAll_iff.mp hsame) hqs)
      fun p hp q h => ih p hp h.2 (hps p hp) h.1
  have hnear : ∀ {o o' : Origin}, Path.directoryOf o.location.file = dir →
      Path.directoryOf o'.location.file = dir → o.Near o' := fun h h' =>
    Path.resolve_of_directory (h.trans h'.symm)
  induction m generalizing n with
  | token t =>
    cases n with
    | token u => exact .token (beq_iff_alike.mp h)
    | _ => simp [same] at h
  | call f ps o ih =>
    cases n with
    | call g qs o' =>
      obtain ⟨hf, hps⟩ := Bool.and_eq_true_iff.mp h
      obtain rfl := eq_of_beq hf
      exact .call (hlist ih hps hm.params hn.params) (hnear hm.origin hn.origin)
    | _ => simp [same] at h
  | statement f ps o data ih ihdata =>
    cases n with
    | statement g qs o' data' =>
      obtain ⟨hfront, hdata⟩ := Bool.and_eq_true_iff.mp h
      obtain ⟨hf, hps⟩ := Bool.and_eq_true_iff.mp hfront
      obtain rfl := eq_of_beq hf
      exact .statement (hlist ih hps hm.call.params hn.call.params)
        (hnear hm.call.origin hn.call.origin) (ihdata hdata hm.data hn.data)
    | _ => simp [same] at h
  | block es o ih =>
    cases n with
    | block fs o' =>
      refine twin_block (forall₂_imp_mem (forall₂_known (sameEntries_iff.mp h) hn.values)
        fun e he f h => ?_) o o'
      obtain ⟨hf, hkey, hvalue⟩ := h
      exact ⟨hkey, ih e he hvalue (hm.values e he) hf⟩
    | _ => simp [same] at h
  | array is o ih =>
    cases n with
    | array js o' => exact .array (hlist ih h hm.items hn.items)
    | _ => simp [same] at h

theorem Twin.function? (h : m.Twin n) : m.function? = n.function? := by
  cases h <;> rfl

theorem Twin.isDeferred (h : m.Twin n) (known : String → Bool) :
    m.isDeferred known = n.isDeferred known := by
  rw [Node.isDeferred, Node.isDeferred, h.function?]

theorem Twin.stuck (h : m.Twin n) (known : String → Bool) : m.stuck known = n.stuck known := by
  rw [Node.stuck, Node.stuck, h.isDeferred]

theorem Twin.isNull (h : m.Twin n) : m.isNull = n.isNull := by
  cases h with
  | token h => exact Alike.isNull h
  | _ => rfl

/-! ### Lists of twins -/

theorem twins_trans {ms ns ks : List Node} (h : List.Forall₂ Twin ms ns)
    (h' : List.Forall₂ Twin ns ks) : List.Forall₂ Twin ms ks := by
  induction h generalizing ks with
  | nil =>
    cases h'
    exact .nil
  | cons hmn _ ih =>
    cases h' with
    | cons hnk hks => exact .cons (hmn.trans hnk) (ih hks)

theorem twins_symm {ms ns : List Node} (h : List.Forall₂ Twin ms ns) :
    List.Forall₂ Twin ns ms :=
  (h.imp fun _ _ => Twin.symm).flip

end Node

/-! ### Entries -/

namespace Entries

variable {es fs es' fs' : Entries Token Node} {k l : Token}

/-- Equal tokens are equal to the same tokens. -/
theorem beq_of_alike {s t k l : Token} (hst : Alike s t) (hkl : Alike k l) :
    (s == k) = (t == l) := by
  rw [← beq_bare, ← beq_bare t, hst, hkl]

theorem twin_find? (h : List.Forall₂ Node.TwinEntry es fs) (hkl : Alike k l) :
    Option.Rel Node.TwinEntry (find? es k) (find? fs l) := by
  induction h with
  | nil => exact .none
  | @cons e f es fs h _ ih =>
    unfold find? at ih ⊢
    rw [List.find?_cons, List.find?_cons, beq_of_alike h.1 hkl]
    cases f.1 == l with
    | true => exact .some h
    | false => exact ih

theorem twin_erase (h : List.Forall₂ Node.TwinEntry es fs) (hkl : Alike k l) :
    List.Forall₂ Node.TwinEntry (erase es k) (erase fs l) := by
  induction h with
  | nil => exact .nil
  | @cons e f es fs h _ ih =>
    unfold erase at ih ⊢
    rw [List.filter_cons, List.filter_cons, beq_of_alike h.1 hkl]
    cases f.1 == l with
    | true => exact ih
    | false => exact .cons h ih

theorem twin_insert {m n : Node} (h : List.Forall₂ Node.TwinEntry es fs) (hkl : Alike k l)
    (hmn : m.Twin n) : List.Forall₂ Node.TwinEntry (insert es k m) (insert fs l n) := by
  have hfind := twin_find? h hkl
  unfold insert
  generalize find? es k = x, find? fs l = y at hfind ⊢
  cases hfind with
  | some hold => exact List.rel_append (twin_erase h hkl) (.cons ⟨hold.1, hmn⟩ .nil)
  | none => exact List.rel_append h (.cons ⟨hkl, hmn⟩ .nil)

theorem twin_overlay (h : List.Forall₂ Node.TwinEntry es fs)
    (h' : List.Forall₂ Node.TwinEntry es' fs') :
    List.Forall₂ Node.TwinEntry (overlay es es') (overlay fs fs') := by
  induction h' generalizing es fs with
  | nil => exact h
  | cons hef _ ih => exact ih (twin_insert h hef.1 hef.2)

end Entries

/-! ### Outcomes -/

/-- **Whether two outcomes are made of twins** in the same way. -/
inductive Outcome.Twin : Outcome → Outcome → Prop
  | value {m n : Node} (h : m.Twin n) : Twin (.value m) (.value n)
  | empty : Twin .empty .empty
  | splice {is js : List Node} (h : List.Forall₂ Node.Twin is js) : Twin (.splice is) (.splice js)
  | pending : Twin .pending .pending

theorem Alike.twinOutcome {o o' : Outcome} (h : Alike o o') : o.Twin o' := by
  cases o with
  | value m =>
    obtain ⟨n, rfl, hmn⟩ := Outcome.alike_value_iff.mp h
    exact .value hmn.twin
  | empty =>
    obtain rfl := Outcome.alike_empty_iff.mp h
    exact .empty
  | splice is =>
    obtain ⟨js, rfl, his⟩ := Outcome.alike_splice_iff.mp h
    exact .splice his.twins
  | pending =>
    obtain rfl := Outcome.alike_pending_iff.mp h
    exact .pending

namespace Outcome

variable {x y z : Outcome}

theorem twin_token {s t : Token} (h : Alike s t) : Twin (.value (.token s)) (.value (.token t)) :=
  .value (.token h)

theorem Twin.trans (h : x.Twin y) (h' : y.Twin z) : x.Twin z := by
  cases h with
  | value h =>
    cases h' with
    | value h' => exact .value (h.trans h')
  | empty => exact h'
  | splice h =>
    cases h' with
    | splice h' => exact .splice (Node.twins_trans h h')
  | pending => exact h'

theorem Twin.isPending (h : x.Twin y) : x.isPending = y.isPending := by
  cases h <;> rfl

theorem Twin.toNode? (h : x.Twin y) (o o' : Origin) :
    Option.Rel Node.Twin (x.toNode? o) (y.toNode? o') := by
  cases h with
  | value h => exact .some h
  | empty => exact .some (.token rfl)
  | splice h => exact .some (.array h)
  | pending => exact .none

theorem Twin.toItems? (h : x.Twin y) :
    Option.Rel (List.Forall₂ Node.Twin) x.toItems? y.toItems? := by
  cases h with
  | value h => exact .some (.cons h .nil)
  | empty => exact .some .nil
  | splice h => exact .some h
  | pending => exact .none

theorem twin_ofItems {is js : List Node} (h : List.Forall₂ Node.Twin is js) :
    (ofItems is).Twin (ofItems js) := by
  cases h with
  | nil => exact .empty
  | cons h hs =>
    cases hs with
    | nil => exact .value h
    | cons h' hs => exact .splice (.cons h (.cons h' hs))

end Outcome

/-- What takes the place of a file is made of twins if its elements are twins. -/
theorem Reduce.twin_spliced {is js : List Node} (h : List.Forall₂ Node.Twin is js) :
    (spliced is).Twin (spliced js) := by
  have hitems := Outcome.twin_ofItems h
  cases h with
  | nil => exact hitems
  | @cons i j is js hij hs =>
    cases hs with
    | nil =>
      cases hij with
      | array h => exact .splice h
      | _ => exact hitems
    | cons h' hs =>
      simpa only [spliced] using hitems

/-! ### Contexts -/

/-- **Whether two contexts bind the same names**, to twins. -/
def Context.Twin (c d : Context) : Prop :=
  ∀ t : Token, Option.Rel Node.Twin (c.get? t) (d.get? t)

namespace Context

variable {c d e : Context}

theorem Twin.refl (c : Context) : c.Twin c := by
  intro t
  cases c.get? t with
  | none => exact .none
  | some v => exact .some (.refl v)

theorem Twin.symm (h : c.Twin d) : d.Twin c := by
  intro t
  have ht := h t
  generalize c.get? t = x, d.get? t = y at ht
  cases ht with
  | some h => exact .some h.symm
  | none => exact .none

theorem Twin.trans (h : c.Twin d) (h' : d.Twin e) : c.Twin e := by
  intro t
  have ht := h t
  have ht' := h' t
  generalize c.get? t = x, d.get? t = y, e.get? t = z at ht ht'
  cases ht with
  | some h =>
    cases ht' with
    | some h' => exact .some (h.trans h')
  | none => exact ht'

/-- One more binding. -/
theorem Twin.bind (h : c.Twin d) {s t : Token} (hst : Alike s t) {m n : Node} (hmn : m.Twin n) :
    (c.bind s m).Twin (d.bind t n) := by
  have hreading : s.label.reading = t.label.reading := Prod.ext hst.value hst.isContent
  intro a
  by_cases ha : s.label.reading = a.label.reading
  · rw [get?_bind_self ha, get?_bind_self (hreading.symm.trans ha)]
    exact .some hmn
  · rw [get?_bind_of_ne ha, get?_bind_of_ne fun hu => ha (hreading.trans hu)]
    exact h a

/-- Several more bindings. -/
theorem Twin.overlay (h : c.Twin d) {es fs : List (Token × Node)}
    (hes : List.Forall₂ Node.TwinEntry es fs) : (c.overlay es).Twin (d.overlay fs) := by
  induction hes generalizing c d with
  | nil => exact h
  | cons hef _ ih => exact ih (h.bind hef.1 hef.2)

end Context

end ContentLang
