import ContentLang.Proofs.Walk.Inert
import Mathlib.Data.List.Forall2

/-!
# Nodes that are kin

When two runs are compared, the nodes they come upon need not be the same. They are **kin**
(`ContentLang.Node.Kin`): equal up to the bindings in their origins, which are related in some
way, and only some names are called in them. A `ContentLang.Kinship` says which names these are
and how bindings are related.

With all names allowed and equal bindings this is equality (`ContentLang.Node.kin_strict`); so
two runs on one and the same node are a case of it.

Whatever is made of nodes has kin of its own: origins, tokens, entries, calls, outcomes.
-/

namespace ContentLang

/-- A way for nodes to be kin. -/
structure Kinship where
  /-- The names that may be called. -/
  calls : String → Prop
  /-- How the bindings in the origins of two nodes are related. -/
  contexts : Context → Context → Prop

/-- Whether two origins differ at most in their bindings. -/
structure OriginOf.Kin (K : Kinship) (o o' : Origin) : Prop where
  location : o.location = o'.location
  length : o.length = o'.length
  uid : o.uid = o'.uid
  context : K.contexts o.context o'.context

/-- Whether two tokens differ at most in their bindings. -/
structure TokenOf.Kin (K : Kinship) (s t : Token) : Prop where
  value : s.value = t.value
  isContent : s.isContent = t.isContent
  quoted : s.quoted = t.quoted
  origin : OriginOf.Kin K s.origin t.origin

/-- **Whether two nodes are kin**: they differ at most in the bindings of their origins. -/
inductive Node.Kin (K : Kinship) : Node → Node → Prop
  | token {s t : Token} (h : TokenOf.Kin K s t) : Kin K (.token s) (.token t)
  | call {f : String} {ps qs : List Node} {o o' : Origin} (hf : K.calls f)
    (hps : List.Forall₂ (Kin K) ps qs) (ho : OriginOf.Kin K o o') :
    Kin K (.call f ps o) (.call f qs o')
  | statement {f : String} {ps qs : List Node} {o o' : Origin} {d e : Node} (hf : K.calls f)
    (hps : List.Forall₂ (Kin K) ps qs) (ho : OriginOf.Kin K o o') (hdata : Kin K d e) :
    Kin K (.statement f ps o d) (.statement f qs o' e)
  | columns {es fs : List (Token × Node)} {o o' : Origin}
    (hkeys : List.Forall₂ (TokenOf.Kin K) (es.map (·.1)) (fs.map (·.1)))
    (hvalues : List.Forall₂ (Kin K) (es.map (·.2)) (fs.map (·.2))) (ho : OriginOf.Kin K o o') :
    Kin K (.block es o) (.block fs o')
  | array {is js : List Node} {o o' : Origin} (his : List.Forall₂ (Kin K) is js)
    (ho : OriginOf.Kin K o o') : Kin K (.array is o) (.array js o')

/-- Whether two entries have kin keys and kin values. -/
def Kinship.Entry (K : Kinship) (e f : Token × Node) : Prop := e.1.Kin K f.1 ∧ e.2.Kin K f.2

/-- Whether two calls are kin. -/
structure Call.Kin (K : Kinship) (c d : Call) : Prop where
  function : c.function = d.function
  calls : K.calls c.function
  params : List.Forall₂ (Node.Kin K) c.params d.params
  origin : c.origin.Kin K d.origin

/-- Whether two outcomes are made of kin nodes in the same way. -/
inductive Outcome.Kin (K : Kinship) : Outcome → Outcome → Prop
  | value {m n : Node} (h : m.Kin K n) : Kin K (.value m) (.value n)
  | empty : Kin K .empty .empty
  | splice {is js : List Node} (h : List.Forall₂ (Node.Kin K) is js) :
    Kin K (.splice is) (.splice js)
  | pending : Kin K .pending .pending

/-- Whether two proper answers are related, or the outcomes in their place are kin. -/
inductive Kinship.Given (K : Kinship) {α β : Type} (R : α → β → Prop) :
    Except Outcome α → Except Outcome β → Prop
  | ok {a : α} {b : β} (h : R a b) : Given K R (.ok a) (.ok b)
  | error {o o' : Outcome} (h : o.Kin K o') : Given K R (.error o) (.error o')

variable {K : Kinship}

/-! ### Origins and tokens -/

namespace OriginOf.Kin

variable {o o' : Origin}

/-- What is reported of kin is the same. -/
theorem about (h : o.Kin K o') (problem : Problem) :
    Diagnostic.about o problem = Diagnostic.about o' problem := by
  rw [Diagnostic.about, Diagnostic.about, h.location, h.length]

theorem within (h : o.Kin K o') {c d : Context} (hctx : K.contexts c d) :
    OriginOf.Kin K { o with context := c } { o' with context := d } :=
  ⟨h.location, h.length, h.uid, hctx⟩

theorem content (h : o.Kin K o') (s : String) : (TokenOf.content s o).Kin K (.content s o') :=
  ⟨rfl, rfl, rfl, h⟩

theorem null (h : o.Kin K o') : (TokenOf.null o).Kin K (.null o') := ⟨rfl, rfl, rfl, h⟩

theorem error (h : o.Kin K o') : (TokenOf.error o).Kin K (.error o') := ⟨rfl, rfl, rfl, h⟩

end OriginOf.Kin

namespace TokenOf.Kin

variable {s t : Token}

theorem isNull (h : s.Kin K t) : s.isNull = t.isNull := by
  simp only [TokenOf.isNull, h.value, h.isContent]

theorem isTrue (h : s.Kin K t) : s.isTrue = t.isTrue := by
  simp only [TokenOf.isTrue, h.value, h.isContent]

/-- Kin tokens are equal. -/
theorem beq (h : s.Kin K t) : (s == t) = true := by
  rw [beq_iff_alike, Alike, bare_key, bare_key, h.value, h.isContent]

/-- Kin tokens are equal to the same tokens. -/
theorem beq_congr (h : s.Kin K t) {k l : Token} (hkl : (k == l) = true) : (s == k) = (t == l) := by
  have halike := beq_iff_alike.mp hkl
  show (s.value == k.value && s.isContent == k.isContent) = _
  rw [h.value, h.isContent, halike.value, halike.isContent]
  rfl

theorem within (h : s.Kin K t) {c d : Context} (hctx : K.contexts c d) :
    TokenOf.Kin K { s with origin := { s.origin with context := c } }
      { t with origin := { t.origin with context := d } } :=
  ⟨h.value, h.isContent, h.quoted, h.origin.within hctx⟩

theorem values {ts us : List Token} (h : List.Forall₂ (TokenOf.Kin K) ts us) :
    ts.map (·.value) = us.map (·.value) := by
  induction h with
  | nil => rfl
  | cons h _ ih => rw [List.map_cons, List.map_cons, h.value, ih]

theorem contains {ts us : List Token} (h : List.Forall₂ (TokenOf.Kin K) ts us) (ht : s.Kin K t) :
    ts.contains s = us.contains t := by
  induction h with
  | nil => rfl
  | cons h _ ih => rw [List.contains_cons, List.contains_cons, ht.beq_congr h.beq, ih]

end TokenOf.Kin

/-! ### Entries -/

/-- Rows are related if their columns are. -/
theorem forall₂_rows {α β : Type} {A : α → α → Prop} {B : β → β → Prop} {l m : List (α × β)} :
    List.Forall₂ (fun e f => A e.1 f.1 ∧ B e.2 f.2) l m ↔
      List.Forall₂ A (l.map (·.1)) (m.map (·.1)) ∧ List.Forall₂ B (l.map (·.2)) (m.map (·.2)) := by
  constructor
  · intro h
    induction h with
    | nil => exact ⟨.nil, .nil⟩
    | cons h _ ih => exact ⟨.cons h.1 ih.1, .cons h.2 ih.2⟩
  · rintro ⟨ha, hb⟩
    induction l generalizing m with
    | nil =>
      cases m with
      | nil => exact .nil
      | cons f m => cases ha
    | cons e l ih =>
      cases m with
      | nil => cases ha
      | cons f m =>
        obtain ⟨ha, has⟩ := List.forall₂_cons.mp ha
        obtain ⟨hb, hbs⟩ := List.forall₂_cons.mp hb
        exact .cons ⟨ha, hb⟩ (ih has hbs)

theorem Node.kin_block {es fs : List (Token × Node)} {o o' : Origin}
    (hes : List.Forall₂ K.Entry es fs) (ho : o.Kin K o') : (block es o).Kin K (block fs o') := by
  obtain ⟨hkeys, hvalues⟩ := forall₂_rows.mp hes
  exact .columns hkeys hvalues ho

namespace Entries

variable {es fs : Entries Token Node} {k l : Token}

theorem kin_find? (h : List.Forall₂ K.Entry es fs) (hkl : (k == l) = true) :
    Option.Rel K.Entry (find? es k) (find? fs l) := by
  induction h with
  | nil => exact .none
  | @cons e f es fs h _ ih =>
    unfold find? at ih ⊢
    rw [List.find?_cons, List.find?_cons, h.1.beq_congr hkl]
    cases f.1 == l with
    | true => exact .some h
    | false => exact ih

theorem kin_get? (h : List.Forall₂ K.Entry es fs) (hkl : (k == l) = true) :
    Option.Rel (Node.Kin K) (get? es k) (get? fs l) := by
  have hfind := kin_find? h hkl
  unfold get?
  generalize find? es k = x, find? fs l = y at hfind ⊢
  cases hfind with
  | some h => exact .some h.2
  | none => exact .none

theorem kin_contains (h : List.Forall₂ K.Entry es fs) (hkl : (k == l) = true) :
    contains es k = contains fs l := by
  have hfind := kin_find? h hkl
  unfold contains
  generalize find? es k = x, find? fs l = y at hfind ⊢
  cases hfind <;> rfl

theorem kin_erase (h : List.Forall₂ K.Entry es fs) (hkl : (k == l) = true) :
    List.Forall₂ K.Entry (erase es k) (erase fs l) := by
  induction h with
  | nil => exact .nil
  | @cons e f es fs h _ ih =>
    unfold erase at ih ⊢
    rw [List.filter_cons, List.filter_cons, h.1.beq_congr hkl]
    cases f.1 == l with
    | true => exact ih
    | false => exact .cons h ih

theorem kin_insert {m n : Node} (h : List.Forall₂ K.Entry es fs) (hk : k.Kin K l)
    (hm : m.Kin K n) : List.Forall₂ K.Entry (insert es k m) (insert fs l n) := by
  have hfind := kin_find? h hk.beq
  unfold insert
  generalize find? es k = x, find? fs l = y at hfind ⊢
  cases hfind with
  | some hold => exact List.rel_append (kin_erase h hk.beq) (.cons ⟨hold.1, hm⟩ .nil)
  | none => exact List.rel_append h (.cons ⟨hk, hm⟩ .nil)

theorem kin_overlay {es' fs' : Entries Token Node} (h : List.Forall₂ K.Entry es fs)
    (h' : List.Forall₂ K.Entry es' fs') : List.Forall₂ K.Entry (overlay es es') (overlay fs fs') :=
  List.rel_foldl (fun _ _ h _ _ hentry => kin_insert h hentry.1 hentry.2) h h'

end Entries

/-! ### Nodes -/

namespace Node.Kin

variable {m n : Node}

theorem block {es : List (Token × Node)} {o : Origin} (h : (Node.block es o).Kin K n) :
    ∃ fs o', n = .block fs o' ∧ List.Forall₂ K.Entry es fs ∧ o.Kin K o' := by
  cases h with
  | columns hkeys hvalues ho => exact ⟨_, _, rfl, forall₂_rows.mpr ⟨hkeys, hvalues⟩, ho⟩

theorem origin (h : m.Kin K n) : m.origin.Kin K n.origin := by
  cases h with
  | token h => exact h.origin
  | call _ _ ho => exact ho
  | statement _ _ ho _ => exact ho
  | columns _ _ ho => exact ho
  | array _ ho => exact ho

theorem kind (h : m.Kin K n) : m.kind = n.kind := by
  cases h with
  | token h => simp only [Node.kind, h.isNull]
  | _ => rfl

theorem function? (h : m.Kin K n) : m.function? = n.function? := by
  cases h <;> rfl

theorem isNull (h : m.Kin K n) : m.isNull = n.isNull := by
  cases h with
  | token h => exact h.isNull
  | _ => rfl

theorem entries? (h : m.Kin K n) : Option.Rel (List.Forall₂ K.Entry) m.entries? n.entries? := by
  cases h with
  | columns hkeys hvalues _ => exact .some (forall₂_rows.mpr ⟨hkeys, hvalues⟩)
  | _ => exact .none

theorem withContext (h : m.Kin K n) {c d : Context} (hctx : K.contexts c d) :
    (m.withContext c).Kin K (n.withContext d) := by
  have ho := h.origin.within hctx
  cases h with
  | token h => exact .token ⟨h.value, h.isContent, h.quoted, ho⟩
  | call hf hps _ => exact .call hf hps ho
  | statement hf hps _ hd => exact .statement hf hps ho hd
  | columns hkeys hvalues _ => exact .columns hkeys hvalues ho
  | array his _ => exact .array his ho

end Node.Kin

/-- What is passed on from all members of a list is passed on from the list. -/
theorem forall₂_trans_mem {α : Type} {R : α → α → Prop} {as bs cs : List α}
    (hR : ∀ a ∈ as, ∀ {b c}, R a b → R b c → R a c) (h : List.Forall₂ R as bs)
    (h' : List.Forall₂ R bs cs) : List.Forall₂ R as cs := by
  induction h generalizing cs with
  | nil => exact h'
  | cons hab _ ih =>
    obtain ⟨ha, has⟩ := List.forall_mem_cons.mp hR
    cases h' with
    | cons hbc hbs => exact .cons (ha hab hbc) (ih has hbs)

/-- Of kin nodes the copies with a mark are kin. -/
theorem Node.Kin.markUid {m n : Node} (h : m.Kin K n) (mark : String) :
    (m.markUid mark).Kin K (n.markUid mark) := by
  have horigin : ∀ {o o' : Origin}, o.Kin K o' →
      OriginOf.Kin K { o with uid := mark ++ o.uid } { o' with uid := mark ++ o'.uid } :=
    fun h => ⟨h.location, h.length, congrArg (mark ++ ·) h.uid, h.context⟩
  have hlist : ∀ {ps qs : List Node}, (∀ p ∈ ps, ∀ {q : Node}, p.Kin K q →
      (p.markUid mark).Kin K (q.markUid mark)) → List.Forall₂ (Node.Kin K) ps qs →
        List.Forall₂ (Node.Kin K) (markUids mark ps) (markUids mark qs) := by
    intro ps qs ih hps
    rw [Node.markUids_eq, Node.markUids_eq, List.forall₂_map_left_iff, List.forall₂_map_right_iff]
    exact forall₂_imp_mem hps fun p hp q hpq => ih p hp hpq
  induction m generalizing n with
  | token t =>
    cases h with
    | token h => exact .token ⟨h.value, h.isContent, h.quoted, horigin h.origin⟩
  | call f ps o ih =>
    cases h with
    | call hf hps ho => exact .call hf (hlist ih hps) (horigin ho)
  | statement f ps o data ih ihdata =>
    cases h with
    | statement hf hps ho hdata => exact .statement hf (hlist ih hps) (horigin ho) (ihdata hdata)
  | block es o ih =>
    obtain ⟨fs, o', rfl, hes, ho⟩ := h.block
    rw [Node.markUid, Node.markUid, markEntryUids_eq, markEntryUids_eq]
    refine Node.kin_block ?_ (horigin ho)
    rw [List.forall₂_map_left_iff, List.forall₂_map_right_iff]
    exact forall₂_imp_mem hes fun e he f hef => ⟨hef.1, ih e he hef.2⟩
  | array is o ih =>
    cases h with
    | array his ho => exact .array (hlist ih his) (horigin ho)

/-- **Kin nodes are alike.** -/
theorem Node.Kin.alike {m n : Node} (h : m.Kin K n) : Alike m n := by
  have hlist : ∀ {ps qs : List Node}, (∀ p ∈ ps, ∀ {q : Node}, p.Kin K q → Alike p q) →
      List.Forall₂ (Node.Kin K) ps qs → bare ps = bare qs := by
    intro ps qs ih hps
    induction hps with
    | nil => rfl
    | cons h _ ihps =>
      obtain ⟨hp, hps⟩ := List.forall_mem_cons.mp ih
      rw [bare_cons, bare_cons, hp h, ihps hps]
  have hkey : ∀ {s t : Token}, s.Kin K t → bare s = bare t := fun h => by
    rw [bare_key, bare_key, h.value, h.isContent]
  have horigin : ∀ {o o' : Origin}, o.Kin K o' → o.bare = o'.bare := fun h => by
    rw [OriginOf.bare, OriginOf.bare, h.location]
  induction m generalizing n with
  | token t =>
    cases h with
    | token h => rw [Alike, bare_token, bare_token, hkey h]
  | call f ps o ih =>
    cases h with
    | call _ hps ho => rw [Alike, bare_call, bare_call, hlist ih hps, horigin ho]
  | statement f ps o data ih ihdata =>
    cases h with
    | statement _ hps ho hdata =>
      rw [Alike, bare_statement, bare_statement, hlist ih hps, horigin ho, ihdata hdata]
  | block es o ih =>
    obtain ⟨fs, o', rfl, hes, ho⟩ := h.block
    have hentries : bare es = bare fs := by
      clear h
      induction hes with
      | nil => rfl
      | cons hef _ ihes =>
        obtain ⟨he, hes⟩ := List.forall_mem_cons.mp ih
        rw [bare_cons, bare_cons, bare_pair, bare_pair, hkey hef.1, he hef.2, ihes hes]
    rw [Alike, bare_block, bare_block, hentries]
  | array is o ih =>
    cases h with
    | array his ho => rw [Alike, bare_array, bare_array, hlist ih his]

/-- A node in which only such names are called as may be is kin to itself. -/
theorem Node.Kin.refl (hrefl : ∀ ctx, K.contexts ctx ctx) {n : Node}
    (h : ∀ c ∈ n.calls, K.calls c.function) : n.Kin K n := by
  have horigin : ∀ o : Origin, o.Kin K o := fun o => ⟨rfl, rfl, rfl, hrefl _⟩
  have htoken : ∀ t : Token, t.Kin K t := fun t => ⟨rfl, rfl, rfl, horigin _⟩
  induction n with
  | token t => exact .token (htoken t)
  | call f ps o ih =>
    rw [calls, List.forall_mem_cons] at h
    refine .call h.1 (List.forall₂_same.mpr fun p hp => ih p hp fun c hc => ?_) (horigin o)
    exact h.2 c (mem_callsOfAll.mpr ⟨p, hp, hc⟩)
  | statement f ps o data ih ihdata =>
    rw [calls, List.forall_mem_cons, List.forall_mem_append] at h
    refine .statement h.1 (List.forall₂_same.mpr fun p hp => ih p hp fun c hc => ?_) (horigin o)
      (ihdata h.2.2)
    exact h.2.1 c (mem_callsOfAll.mpr ⟨p, hp, hc⟩)
  | block es o ih =>
    refine Node.kin_block (List.forall₂_same.mpr fun e he => ⟨htoken _, ih e he fun c hc => ?_⟩)
      (horigin o)
    exact h c (mem_callsOfEntries.mpr ⟨e, he, hc⟩)
  | array is o ih =>
    refine .array (List.forall₂_same.mpr fun i hi => ih i hi fun c hc => ?_) (horigin o)
    exact h c (mem_callsOfAll.mpr ⟨i, hi, hc⟩)

namespace Node.Kin

/-- Being kin is passed on, if being related is. -/
theorem trans (hK : ∀ {c d e}, K.contexts c d → K.contexts d e → K.contexts c e) {l m n : Node}
    (h : l.Kin K m) (h' : m.Kin K n) : l.Kin K n := by
  have horigin : ∀ {o o' o'' : Origin}, o.Kin K o' → o'.Kin K o'' → o.Kin K o'' := fun h h' =>
    ⟨h.location.trans h'.location, h.length.trans h'.length, h.uid.trans h'.uid,
      hK h.context h'.context⟩
  have htoken : ∀ {s t u : Token}, s.Kin K t → t.Kin K u → s.Kin K u := fun h h' =>
    ⟨h.value.trans h'.value, h.isContent.trans h'.isContent, h.quoted.trans h'.quoted,
      horigin h.origin h'.origin⟩
  induction l generalizing m n with
  | token t =>
    cases h with
    | token h =>
      cases h' with
      | token h' => exact .token (htoken h h')
  | call f ps o ih =>
    cases h with
    | call hf hps ho =>
      cases h' with
      | call _ hqs ho' =>
        exact .call hf (forall₂_trans_mem (fun p hp => ih p hp) hps hqs) (horigin ho ho')
  | statement f ps o data ih ihdata =>
    cases h with
    | statement hf hps ho hdata =>
      cases h' with
      | statement _ hqs ho' hdata' =>
        exact .statement hf (forall₂_trans_mem (fun p hp => ih p hp) hps hqs) (horigin ho ho')
          (ihdata hdata hdata')
  | block es o ih =>
    cases h with
    | columns hkeys hvalues ho =>
      cases h' with
      | columns hkeys' hvalues' ho' =>
        refine .columns (forall₂_trans_mem (fun _ _ => htoken) hkeys hkeys')
          (forall₂_trans_mem ?_ hvalues hvalues') (horigin ho ho')
        intro a ha b c hab hbc
        obtain ⟨e, he, rfl⟩ := List.mem_map.mp ha
        exact ih e he hab hbc
  | array is o ih =>
    cases h with
    | array his ho =>
      cases h' with
      | array hjs ho' =>
        exact .array (forall₂_trans_mem (fun i hi => ih i hi) his hjs) (horigin ho ho')

/-- Being kin goes both ways, if being related does. -/
theorem symm (hK : ∀ {c d}, K.contexts c d → K.contexts d c) {m n : Node} (h : m.Kin K n) :
    n.Kin K m := by
  have horigin : ∀ {o o' : Origin}, o.Kin K o' → o'.Kin K o := fun h =>
    ⟨h.location.symm, h.length.symm, h.uid.symm, hK h.context⟩
  have htoken : ∀ {s t : Token}, s.Kin K t → t.Kin K s := fun h =>
    ⟨h.value.symm, h.isContent.symm, h.quoted.symm, horigin h.origin⟩
  have hlist : ∀ {ps qs : List Node}, List.Forall₂ (Node.Kin K) ps qs →
      (∀ p ∈ ps, ∀ {q}, p.Kin K q → q.Kin K p) → List.Forall₂ (Node.Kin K) qs ps := fun hps ih =>
    (forall₂_imp_mem hps fun p hp q hpq => ih p hp hpq).flip
  induction m generalizing n with
  | token t =>
    cases h with
    | token h => exact .token (htoken h)
  | call f ps o ih =>
    cases h with
    | call hf hps ho => exact .call hf (hlist hps fun p hp => ih p hp) (horigin ho)
  | statement f ps o data ih ihdata =>
    cases h with
    | statement hf hps ho hdata =>
      exact .statement hf (hlist hps fun p hp => ih p hp) (horigin ho) (ihdata hdata)
  | block es o ih =>
    cases h with
    | columns hkeys hvalues ho =>
      refine .columns (hkeys.imp fun _ _ => htoken).flip (hlist hvalues ?_) (horigin ho)
      intro a ha b hab
      obtain ⟨e, he, rfl⟩ := List.mem_map.mp ha
      exact ih e he hab
  | array is o ih =>
    cases h with
    | array his ho => exact .array (hlist his fun i hi => ih i hi) (horigin ho)

end Node.Kin

/-! ### Outcomes -/

namespace Outcome.Kin

variable {x y : Outcome}

theorem token {s t : Token} (h : s.Kin K t) :
    Outcome.Kin K (.value (.token s)) (.value (.token t)) :=
  .value (.token h)

theorem trans (hK : ∀ {c d e}, K.contexts c d → K.contexts d e → K.contexts c e) {z : Outcome}
    (h : x.Kin K y) (h' : y.Kin K z) : x.Kin K z := by
  cases h with
  | value h =>
    cases h' with
    | value h' => exact .value (h.trans hK h')
  | empty => exact h'
  | splice h =>
    cases h' with
    | splice h' => exact .splice (forall₂_trans_mem (fun _ _ => Node.Kin.trans hK) h h')
  | pending => exact h'

theorem symm (hK : ∀ {c d}, K.contexts c d → K.contexts d c) (h : x.Kin K y) : y.Kin K x := by
  cases h with
  | value h => exact .value (h.symm hK)
  | empty => exact .empty
  | splice h => exact .splice (h.imp fun _ _ => Node.Kin.symm hK).flip
  | pending => exact .pending

theorem isPending (h : x.Kin K y) : x.isPending = y.isPending := by
  cases h <;> rfl

theorem toNode? (h : x.Kin K y) {o o' : Origin} (ho : o.Kin K o') :
    Option.Rel (Node.Kin K) (x.toNode? o) (y.toNode? o') := by
  cases h with
  | value h => exact .some h
  | empty => exact .some (.token ho.null)
  | splice h => exact .some (.array h ho)
  | pending => exact .none

theorem toItems? (h : x.Kin K y) :
    Option.Rel (List.Forall₂ (Node.Kin K)) x.toItems? y.toItems? := by
  cases h with
  | value h => exact .some (.cons h .nil)
  | empty => exact .some .nil
  | splice h => exact .some h
  | pending => exact .none

theorem ofItems {is js : List Node} (h : List.Forall₂ (Node.Kin K) is js) :
    (ofItems is).Kin K (.ofItems js) := by
  cases h with
  | nil => exact .empty
  | cons h hs =>
    cases hs with
    | nil => exact .value h
    | cons h' hs => exact .splice (.cons h (.cons h' hs))

end Outcome.Kin

/-! ### Bindings -/

/-- **Whether bindings go with a kinship**: what is captured, read, bound and included, as far as
the names for it may be called, is kin if what it is made of is. -/
structure Kinship.Scoped (K : Kinship) : Prop where
  captured : ∀ {o o' c d : Context}, K.contexts o o' → K.contexts c d →
    K.contexts (if !o.isEmpty then o else c) (if !o'.isEmpty then o' else d)
  read : K.calls "^" → ∀ {c d : Context} {s t : Token}, K.contexts c d → s.Kin K t →
    Option.Rel (Node.Kin K) (c.get? s) (d.get? t)
  bind : K.calls setName → ∀ {c d : Context} {s t : Token} {m n : Node}, K.contexts c d →
    s.Kin K t → m.Kin K n → K.contexts (c.bind s m) (d.bind t n)
  overlay : K.calls includeName → ∀ {c d : Context} {es fs : List (Token × Node)},
    K.contexts c d → List.Forall₂ K.Entry es fs → K.contexts (c.overlay es) (d.overlay fs)
  written : K.calls includeName → ∀ n : Node, n.Kin K n

/-! ### The kinship of equal nodes -/

section

variable (hK : ∀ {c d : Context}, K.contexts c d → c = d)
include hK

theorem OriginOf.Kin.eq {o o' : Origin} (h : o.Kin K o') : o = o' := by
  obtain ⟨hlocation, hlength, huid, hcontext⟩ := h
  have hctx := hK hcontext
  cases o
  cases o'
  simp_all

theorem TokenOf.Kin.eq {s t : Token} (h : s.Kin K t) : s = t := by
  obtain ⟨hvalue, hcontent, hquoted, horigin⟩ := h
  have ho := horigin.eq hK
  cases s
  cases t
  simp_all

/-- **Kin in equal bindings are equal.** -/
theorem Node.Kin.eq {m n : Node} (h : m.Kin K n) : m = n := by
  have hlist : ∀ {ps qs : List Node}, (∀ p ∈ ps, ∀ {q : Node}, p.Kin K q → p = q) →
      List.Forall₂ (Node.Kin K) ps qs → ps = qs := by
    intro ps qs ih hps
    exact List.forall₂_eq_eq_eq ▸ forall₂_imp_mem hps fun p hp q hpq => ih p hp hpq
  induction m generalizing n with
  | token t =>
    cases h with
    | token h => rw [h.eq hK]
  | call f ps o ih =>
    cases h with
    | call _ hps ho => rw [hlist ih hps, ho.eq hK]
  | statement f ps o data ih ihdata =>
    cases h with
    | statement _ hps ho hdata => rw [hlist ih hps, ho.eq hK, ihdata hdata]
  | block es o ih =>
    obtain ⟨fs, o', rfl, hes, ho⟩ := h.block
    have hentries : es = fs := by
      refine List.forall₂_eq_eq_eq ▸ forall₂_imp_mem hes fun e he f hef => ?_
      exact Prod.ext (hef.1.eq hK) (ih e he hef.2)
    rw [hentries, ho.eq hK]
  | array is o ih =>
    cases h with
    | array his ho => rw [hlist ih his, ho.eq hK]

theorem Node.Kin.eq_all {ms ns : List Node} (h : List.Forall₂ (Node.Kin K) ms ns) : ms = ns :=
  List.forall₂_eq_eq_eq ▸ h.imp fun _ _ h => h.eq hK

theorem Outcome.Kin.eq {x y : Outcome} (h : x.Kin K y) : x = y := by
  cases h with
  | value h => rw [h.eq hK]
  | empty => rfl
  | splice h => rw [Node.Kin.eq_all hK h]
  | pending => rfl

end

/-- The kinship of equal nodes. -/
def Kinship.strict : Kinship := ⟨fun _ => True, (· = ·)⟩

theorem OriginOf.kin_strict {o o' : Origin} : o.Kin .strict o' ↔ o = o' := by
  refine ⟨fun h => h.eq id, ?_⟩
  rintro rfl
  exact ⟨rfl, rfl, rfl, rfl⟩

theorem TokenOf.kin_strict {s t : Token} : s.Kin .strict t ↔ s = t := by
  refine ⟨fun h => h.eq id, ?_⟩
  rintro rfl
  exact ⟨rfl, rfl, rfl, OriginOf.kin_strict.mpr rfl⟩

/-- **Strict kin are equal.** -/
theorem Node.kin_strict {m n : Node} : m.Kin .strict n ↔ m = n := by
  refine ⟨fun h => h.eq id, ?_⟩
  rintro rfl
  exact Node.Kin.refl (fun _ => rfl) fun _ _ => trivial

theorem Node.kin_strict_all {ms ns : List Node} :
    List.Forall₂ (Node.Kin .strict) ms ns ↔ ms = ns := by
  have hrel : Node.Kin .strict = (· = ·) := by
    funext m n
    exact propext Node.kin_strict
  rw [hrel, List.forall₂_eq_eq_eq]

theorem Kinship.entry_strict_all {es fs : List (Token × Node)} :
    List.Forall₂ Kinship.strict.Entry es fs ↔ es = fs := by
  have hrel : Kinship.strict.Entry = (· = ·) := by
    funext e f
    refine propext ⟨fun h => ?_, fun h => ?_⟩
    · exact Prod.ext (TokenOf.kin_strict.mp h.1) (Node.kin_strict.mp h.2)
    · exact ⟨TokenOf.kin_strict.mpr (congrArg Prod.fst h),
        Node.kin_strict.mpr (congrArg Prod.snd h)⟩
  rw [hrel, List.forall₂_eq_eq_eq]

theorem Call.kin_strict {c d : Call} : c.Kin .strict d ↔ c = d := by
  constructor
  · rintro ⟨hfunction, -, hparams, horigin⟩
    have hps := Node.kin_strict_all.mp hparams
    have ho := OriginOf.kin_strict.mp horigin
    cases c
    cases d
    simp_all
  · rintro rfl
    exact ⟨rfl, trivial, Node.kin_strict_all.mpr rfl, OriginOf.kin_strict.mpr rfl⟩

theorem Outcome.kin_strict {x y : Outcome} : x.Kin .strict y ↔ x = y := by
  refine ⟨fun h => h.eq id, ?_⟩
  rintro rfl
  cases x with
  | value n => exact .value (Node.kin_strict.mpr rfl)
  | empty => exact .empty
  | splice items => exact .splice (Node.kin_strict_all.mpr rfl)
  | pending => exact .pending

theorem TokenOf.kin_strict_option {s t : Option Token} :
    Option.Rel (TokenOf.Kin .strict) s t ↔ s = t := by
  constructor
  · rintro (hst | _)
    · rw [TokenOf.kin_strict.mp hst]
    · rfl
  · rintro rfl
    rcases s with _ | t
    · exact .none
    · exact .some (TokenOf.kin_strict.mpr rfl)

theorem Kinship.strict_scoped : Kinship.strict.Scoped where
  captured := by
    rintro o _ c _ rfl rfl
    rfl
  read := by
    rintro - c _ s t rfl hst
    rw [TokenOf.kin_strict.mp hst]
    cases c.get? t with
    | none => exact .none
    | some n => exact .some (Node.kin_strict.mpr rfl)
  bind := by
    rintro - c _ s t m n rfl hst hmn
    rw [TokenOf.kin_strict.mp hst, Node.kin_strict.mp hmn]
    rfl
  overlay := by
    rintro - c _ es fs rfl hes
    rw [Kinship.entry_strict_all.mp hes]
    rfl
  written _ _ := Node.kin_strict.mpr rfl

/-! ### Nodes elsewhere -/

/-- The kinship of nodes that differ at most in what is bound where they stand. -/
def Kinship.loose : Kinship := ⟨fun _ => True, fun _ _ => True⟩

end ContentLang
