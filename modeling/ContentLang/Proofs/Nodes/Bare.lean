import ContentLang.Outcome
import Mathlib.Data.List.Forall2

/-!
# Bare forms

Of where a node stands only one thing matters to what it comes to: the file that a call was
written in, from which paths are read. The **bare** form of a node (`ContentLang.Bare`) is
without all the rest, without the quotes of tokens, and without what else origins hold. Two
nodes are **alike** if their bare forms are one and the same node (`ContentLang.Alike`); then
they say the same (`ContentLang.Alike.same`). So "the same up to where it stands" is an
equation, here and for whatever is made of nodes: lists, entries, calls, outcomes.

What does not change with the bare form: the kind of a node, the name it calls, how deep it is
(`ContentLang.Node.depth`), the calls in it up to their origins.
-/

namespace ContentLang

/-! ### Induction -/

/-- **Induction on nodes**, with the hypothesis for all members of the lists in a node. -/
@[induction_eliminator]
theorem Node.induct {P : Node → Prop} (token : ∀ t : Token, P (.token t))
    (call : ∀ (f : String) (ps : List Node) (o : Origin), (∀ p ∈ ps, P p) → P (.call f ps o))
    (statement : ∀ (f : String) (ps : List Node) (o : Origin) (data : Node),
      (∀ p ∈ ps, P p) → P data → P (.statement f ps o data))
    (block : ∀ (es : List (Token × Node)) (o : Origin), (∀ e ∈ es, P e.2) → P (.block es o))
    (array : ∀ (is : List Node) (o : Origin), (∀ i ∈ is, P i) → P (.array is o)) (n : Node) :
    P n :=
  -- Nothing is claimed of the nodes in origins: these are not parts of a node.
  Node.rec (motive_1 := P) (motive_2 := fun _ => True) (motive_3 := fun ns => ∀ n ∈ ns, P n)
    (motive_4 := fun _ => True) (motive_5 := fun es => ∀ e ∈ es, P e.2)
    (motive_6 := fun _ => True) (motive_7 := fun e => P e.2) (motive_8 := fun _ => True)
    (fun t _ => token t) (fun f ps o hps _ => call f ps o hps)
    (fun f ps o data hps _ hdata => statement f ps o data hps hdata)
    (fun es o hes _ => block es o hes) (fun is o his _ => array is o his)
    (fun _ _ _ _ _ => trivial) (by simp)
    (fun _ _ hn hns => List.forall_mem_cons.mpr ⟨hn, hns⟩) (fun _ _ _ _ _ => trivial) (by simp)
    (fun _ _ he hes => List.forall_mem_cons.mpr ⟨he, hes⟩) trivial (fun _ _ _ _ => trivial)
    (fun _ _ _ hn => hn) (fun _ _ _ => trivial) n

/-! ### Bare forms -/

/-- What has a form without quotes, and without origins but for the files of calls. -/
class Bare (α : Type) where
  bare : α → α

export Bare (bare)

/-- Whether two things differ at most in what does not matter to what they come to. -/
def Alike {α : Type} [Bare α] (a b : α) : Prop := bare a = bare b

section

variable {α : Type} [Bare α] {a b c : α}

theorem Alike.refl (a : α) : Alike a a := rfl

theorem Alike.symm (h : Alike a b) : Alike b a := Eq.symm h

theorem Alike.trans (h : Alike a b) (h' : Alike b c) : Alike a c := Eq.trans h h'

end

instance : Bare String := ⟨id⟩

instance {α : Type} [Bare α] : Bare (List α) := ⟨List.map bare⟩

instance {α β : Type} [Bare α] [Bare β] : Bare (α × β) := ⟨fun p => (bare p.1, bare p.2)⟩

instance {α : Type} [Bare α] : Bare (Option α) := ⟨Option.map bare⟩

instance {ε α : Type} [Bare α] : Bare (Except ε α) := ⟨Except.map bare⟩

/-- What matters of where a call stands: the file. -/
def OriginOf.bare {ν : Type} (o : OriginOf ν) : OriginOf ν :=
  .written (.startOf o.location.file) 0

@[simp] theorem OriginOf.bare_withContext {ν : Type} (o : OriginOf ν) (ctx : List (Label × ν)) :
    OriginOf.bare { o with context := ctx } = o.bare := rfl

@[simp] theorem OriginOf.bare_bare {ν : Type} (o : OriginOf ν) : OriginOf.bare o.bare = o.bare :=
  rfl

/-- A token without its origin and its quotes. -/
instance {ν : Type} : Bare (TokenOf ν) := ⟨fun t => ⟨t.value, t.isContent, false, .unwritten⟩⟩

namespace Node

mutual

/-- A node without quotes, and without origins but for the files of calls. -/
def bareNode : Node → Node
  | token t => token (bare t)
  | call f ps o => call f (bareNodes ps) o.bare
  | statement f ps o data => statement f (bareNodes ps) o.bare (bareNode data)
  | block es _ => block (bareEntries es) .unwritten
  | array is _ => array (bareNodes is) .unwritten

/-- The bare forms of a list of nodes. -/
def bareNodes : List Node → List Node
  | [] => []
  | n :: ns => bareNode n :: bareNodes ns

/-- The bare forms of entries. -/
def bareEntries : List (TokenOf Node × Node) → List (TokenOf Node × Node)
  | [] => []
  | (k, n) :: es => (bare k, bareNode n) :: bareEntries es

end

instance : Bare Node := ⟨bareNode⟩

theorem bareNodes_eq (ns : List Node) : bareNodes ns = bare ns := by
  induction ns with
  | nil => rfl
  | cons n ns ih => exact congrArg (bareNode n :: ·) ih

theorem bareEntries_eq (es : List (Token × Node)) : bareEntries es = bare es := by
  induction es with
  | nil => rfl
  | cons e es ih => exact congrArg ((bare e.1, bareNode e.2) :: ·) ih

end Node

@[simp] theorem bare_nil {α : Type} [Bare α] : bare ([] : List α) = [] := rfl

@[simp] theorem bare_cons {α : Type} [Bare α] (a : α) (as : List α) :
    bare (a :: as) = bare a :: bare as := rfl

theorem bare_list {α : Type} [Bare α] (as : List α) : bare as = as.map bare := rfl

/-- What is bare already stays as it is in a list. -/
theorem bare_eq_self {α : Type} [Bare α] {as : List α} (h : ∀ a ∈ as, bare a = a) :
    bare as = as := by
  simpa [bare_list] using List.map_congr_left h

@[simp] theorem bare_append {α : Type} [Bare α] (as bs : List α) :
    bare (as ++ bs) = bare as ++ bare bs := List.map_append

@[simp] theorem bare_pair {α β : Type} [Bare α] [Bare β] (a : α) (b : β) :
    bare (a, b) = (bare a, bare b) := rfl

@[simp] theorem bare_string (s : String) : bare s = s := rfl

@[simp] theorem bare_none {α : Type} [Bare α] : bare (none : Option α) = none := rfl

@[simp] theorem bare_ok {ε α : Type} [Bare α] (a : α) :
    bare (Except.ok a : Except ε α) = .ok (bare a) := rfl

@[simp] theorem bare_error {ε α : Type} [Bare α] (e : ε) :
    bare (Except.error e : Except ε α) = .error e := rfl

@[simp] theorem bare_some {α : Type} [Bare α] (a : α) : bare (some a) = some (bare a) := rfl

@[simp] theorem bare_token (t : Token) : bare (Node.token t) = .token (bare t) := rfl

@[simp] theorem bare_call (f : String) (ps : List Node) (o : Origin) :
    bare (Node.call f ps o) = .call f (bare ps) o.bare := by
  rw [← Node.bareNodes_eq]
  rfl

@[simp] theorem bare_statement (f : String) (ps : List Node) (o : Origin) (data : Node) :
    bare (Node.statement f ps o data) = .statement f (bare ps) o.bare (bare data) := by
  rw [← Node.bareNodes_eq]
  rfl

@[simp] theorem bare_block (es : List (Token × Node)) (o : Origin) :
    bare (Node.block es o) = .block (bare es) .unwritten := by
  rw [← Node.bareEntries_eq]
  rfl

@[simp] theorem bare_array (is : List Node) (o : Origin) :
    bare (Node.array is o) = .array (bare is) .unwritten := by
  rw [← Node.bareNodes_eq]
  rfl

theorem bare_key {k : Token} : bare k = ⟨k.value, k.isContent, false, .unwritten⟩ := rfl

/-! ### Lists that are alike -/

section

variable {α : Type} [Bare α] {as bs : List α} {P : α → Prop}

theorem Alike.length (h : Alike as bs) : as.length = bs.length := by
  simpa [bare_list] using congrArg List.length h

theorem alike_nil_iff : Alike ([] : List α) bs ↔ bs = [] := by
  cases bs <;> simp [Alike]

theorem alike_cons_iff {a : α} :
    Alike (a :: as) bs ↔ ∃ b bs', bs = b :: bs' ∧ Alike a b ∧ Alike as bs' := by
  constructor
  · intro h
    cases bs with
    | nil => simp [Alike] at h
    | cons b bs => exact ⟨b, bs, rfl, List.cons.inj h⟩
  · rintro ⟨b, bs, rfl, hb, hbs⟩
    simp only [Alike, bare_cons] at hb hbs ⊢
    rw [hb, hbs]

/-- Lists that are alike are alike one by one. -/
theorem Alike.forall₂ (h : Alike as bs) : List.Forall₂ Alike as bs := by
  induction as generalizing bs with
  | nil =>
    obtain rfl := alike_nil_iff.mp h
    exact .nil
  | cons a as ih =>
    obtain ⟨b, bs, rfl, hab, hbs⟩ := alike_cons_iff.mp h
    exact .cons hab (ih hbs)

theorem Alike.append {as' bs' : List α} (h : Alike as bs) (h' : Alike as' bs') :
    Alike (as ++ as') (bs ++ bs') := by
  simp only [Alike, bare_append] at h h' ⊢
  rw [h, h']

/-- What holds of whatever is alike to a member of one list holds of the members of another
one, if the lists are alike. -/
theorem Alike.forall_mem (h : Alike as bs) (has : ∀ a ∈ as, ∀ b, Alike a b → P b) :
    ∀ b ∈ bs, P b := by
  intro b hb
  have hmem : bare b ∈ as.map bare := by
    rw [← bare_list, h, bare_list]
    exact List.mem_map_of_mem hb
  obtain ⟨a, ha, hab⟩ := List.mem_map.mp hmem
  exact has a ha b hab

end

/-- What holds of all related members holds in a list. -/
theorem forall₂_imp_mem {α β : Type} {R S : α → β → Prop} {as : List α} {bs : List β}
    (h : List.Forall₂ R as bs) (hRS : ∀ a ∈ as, ∀ b, R a b → S a b) : List.Forall₂ S as bs := by
  induction h with
  | nil => exact .nil
  | cons h _ ih =>
    obtain ⟨ha, has⟩ := List.forall_mem_cons.mp hRS
    exact .cons (ha _ h) (ih has)

/-! ### Saying the same -/

theorem beq_iff_alike {s t : Token} : (s == t) = true ↔ Alike s t := by
  simp [BEq.beq, Alike, bare_key]

instance : EquivBEq Token where
  rfl := beq_iff_alike.mpr (.refl _)
  symm h := beq_iff_alike.mpr (beq_iff_alike.mp h).symm
  trans h h' := beq_iff_alike.mpr ((beq_iff_alike.mp h).trans (beq_iff_alike.mp h'))

theorem Alike.value {s t : Token} (h : Alike s t) : s.value = t.value := by
  have hvalue : (bare s).value = (bare t).value := congrArg TokenOf.value h
  exact hvalue

theorem Alike.isContent {s t : Token} (h : Alike s t) : s.isContent = t.isContent := by
  have hcontent : (bare s).isContent = (bare t).isContent := congrArg TokenOf.isContent h
  exact hcontent

theorem Alike.isNull {s t : Token} (h : Alike s t) : s.isNull = t.isNull := by
  rw [TokenOf.isNull, TokenOf.isNull, h.value, h.isContent]

namespace Node

/-- Whether lists say the same goes by their members. -/
theorem sameAll_iff {ms ns : List Node} :
    sameAll ms ns = true ↔ List.Forall₂ (fun m n => m.same n = true) ms ns := by
  induction ms generalizing ns with
  | nil => cases ns <;> simp [sameAll]
  | cons m ms ih => cases ns <;> simp [sameAll, ih]

theorem sameEntries_iff {es fs : List (Token × Node)} :
    sameEntries es fs = true ↔
      List.Forall₂ (fun e f => Alike e.1 f.1 ∧ e.2.same f.2 = true) es fs := by
  induction es generalizing fs with
  | nil => cases fs <;> simp [sameEntries]
  | cons e es ih => cases fs <;> simp [sameEntries, ih, beq_iff_alike]

end Node

/-- **Nodes that are alike say the same.** -/
theorem Alike.same {m n : Node} (h : Alike m n) : m.same n = true := by
  have hlist : ∀ {ps qs : List Node}, (∀ p ∈ ps, ∀ {q : Node}, Alike p q → p.same q = true) →
      Alike ps qs → Node.sameAll ps qs = true := fun ih hps =>
    Node.sameAll_iff.mpr (forall₂_imp_mem hps.forall₂ fun p hp q => ih p hp)
  induction m generalizing n with
  | token t =>
    cases n <;> simp [Alike] at h
    exact beq_iff_alike.mpr h
  | call f ps o ih =>
    cases n <;> simp [Alike] at h
    obtain ⟨rfl, hps, -⟩ := h
    simp [Node.same, hlist ih hps]
  | statement f ps o data ih ihdata =>
    cases n <;> simp [Alike] at h
    obtain ⟨rfl, hps, -, hdata⟩ := h
    simp [Node.same, hlist ih hps, ihdata hdata]
  | block es o ih =>
    cases n <;> simp [Alike] at h
    refine Node.sameEntries_iff.mpr (forall₂_imp_mem (Alike.forall₂ h) fun e he f hef => ?_)
    exact ⟨(Prod.mk.inj hef).1, ih e he (Prod.mk.inj hef).2⟩
  | array is o ih =>
    cases n <;> simp [Alike] at h
    exact hlist ih h

/-- **What nodes say is in their bare forms**: these say the same if the nodes do. -/
theorem Node.same_bare {m n : Node} (h : m.same n = true) : (bare m).same (bare n) = true := by
  have hlist : ∀ {ps qs : List Node},
      (∀ p ∈ ps, ∀ {q : Node}, p.same q = true → (bare p).same (bare q) = true) →
        sameAll ps qs = true → sameAll (bare ps) (bare qs) = true := by
    intro ps qs ih hps
    rw [sameAll_iff, bare_list, bare_list, List.forall₂_map_left_iff, List.forall₂_map_right_iff]
    exact forall₂_imp_mem (sameAll_iff.mp hps) fun p hp q => ih p hp
  induction m generalizing n with
  | token t => cases n <;> exact h
  | call f ps o ih =>
    cases n <;> simp [same] at h
    simp [same, h.1, hlist ih h.2]
  | statement f ps o data ih ihdata =>
    cases n <;> simp [same] at h
    simp [same, h.1, hlist ih h.1.2, ihdata h.2]
  | block es o ih =>
    cases n <;> simp [same] at h
    rw [bare_block, bare_block, same, sameEntries_iff, bare_list, bare_list,
      List.forall₂_map_left_iff, List.forall₂_map_right_iff]
    refine forall₂_imp_mem (sameEntries_iff.mp h) fun e he f hef => ?_
    exact ⟨congrArg bare hef.1, ih e he hef.2⟩
  | array is o ih =>
    cases n <;> simp [same] at h
    simp [same, hlist ih h]

/-! ### Nodes alike to a given one -/

section

variable {n : Node} {t : Token} {f : String} {ps is : List Node} {o : Origin} {data : Node}
  {es : List (Token × Node)}

theorem Alike.token (h : Alike (.token t) n) : ∃ t', n = .token t' ∧ Alike t t' := by
  cases n with
  | token t' => exact ⟨t', rfl, by simpa [Alike] using h⟩
  | _ => simp [Alike] at h

theorem Alike.call (h : Alike (.call f ps o) n) :
    ∃ ps' o', n = .call f ps' o' ∧ Alike ps ps' ∧ o.bare = OriginOf.bare o' := by
  cases n with
  | call g ps' o' =>
    obtain ⟨rfl, hps, ho⟩ : f = g ∧ bare ps = bare ps' ∧ o.bare = OriginOf.bare o' := by
      simpa [Alike] using h
    exact ⟨ps', o', rfl, hps, ho⟩
  | _ => simp [Alike] at h

theorem Alike.statement (h : Alike (.statement f ps o data) n) :
    ∃ ps' o' data', n = .statement f ps' o' data' ∧ Alike ps ps' ∧ o.bare = OriginOf.bare o' ∧
      Alike data data' := by
  cases n with
  | statement g ps' o' data' =>
    obtain ⟨rfl, hps, ho, hdata⟩ : f = g ∧ bare ps = bare ps' ∧ o.bare = OriginOf.bare o' ∧
        bare data = bare data' := by
      simpa [Alike] using h
    exact ⟨ps', o', data', rfl, hps, ho, hdata⟩
  | _ => simp [Alike] at h

theorem Alike.block (h : Alike (.block es o) n) : ∃ es' o', n = .block es' o' ∧ Alike es es' := by
  cases n with
  | block es' o' => exact ⟨es', o', rfl, by simpa [Alike] using h⟩
  | _ => simp [Alike] at h

theorem Alike.array (h : Alike (.array is o) n) : ∃ is' o', n = .array is' o' ∧ Alike is is' := by
  cases n with
  | array is' o' => exact ⟨is', o', rfl, by simpa [Alike] using h⟩
  | _ => simp [Alike] at h

end

namespace Node

/-! ### What is in the bare form -/

theorem bare_bare (n : Node) : bare (bare n) = bare n := by
  have hlist : ∀ ns : List Node, (∀ n ∈ ns, bare (bare n) = bare n) →
      bare (bare ns) = bare ns := fun ns h => by
    rw [bare_list, bare_list, List.map_map]
    exact List.map_congr_left h
  induction n with
  | token t => rfl
  | call f ps o ih => simp [hlist ps ih]
  | statement f ps o data ih ihdata => simp [hlist ps ih, ihdata]
  | array is o ih => simp [hlist is ih]
  | block es o ih =>
    have hentries : bare (bare es) = bare es := by
      rw [bare_list, bare_list, List.map_map]
      exact List.map_congr_left fun e he => congrArg (Prod.mk (bare e.1)) (ih e he)
    simp [hentries]

theorem bare_bare_list (ns : List Node) : bare (bare ns) = bare ns :=
  bare_eq_self <| List.forall_mem_map.mpr fun n _ => bare_bare n

theorem bare_bare_entries (es : List (Token × Node)) : bare (bare es) = bare es :=
  bare_eq_self <| List.forall_mem_map.mpr fun e _ => congrArg (Prod.mk (bare e.1)) (bare_bare e.2)

@[simp] theorem function?_bare (n : Node) : (bare n).function? = n.function? := by
  cases n <;> simp [function?]

@[simp] theorem isNull_bare (n : Node) : (bare n).isNull = n.isNull := by
  cases n <;> simp [isNull, TokenOf.isNull, bare_key]

theorem markUids_eq (mark : String) (ns : List Node) : markUids mark ns = ns.map (markUid mark) := by
  induction ns with
  | nil => rfl
  | cons n ns ih => exact congrArg (markUid mark n :: ·) ih

theorem markEntryUids_eq (mark : String) (es : List (Token × Node)) :
    markEntryUids mark es = es.map fun e => (e.1, e.2.markUid mark) := by
  induction es with
  | nil => rfl
  | cons e es ih => exact congrArg ((e.1, e.2.markUid mark) :: ·) ih

/-- Marked nodes say what they said. -/
@[simp] theorem bare_markUid (mark : String) (n : Node) : bare (n.markUid mark) = bare n := by
  have hlist : ∀ ns : List Node, (∀ n ∈ ns, bare (n.markUid mark) = bare n) →
      bare (markUids mark ns) = bare ns := fun ns h => by
    rw [markUids_eq, bare_list, bare_list, List.map_map]
    exact List.map_congr_left h
  have hentries : ∀ es : List (Token × Node), (∀ e ∈ es, bare (e.2.markUid mark) = bare e.2) →
      bare (markEntryUids mark es) = bare es := fun es h => by
    rw [markEntryUids_eq, bare_list, bare_list, List.map_map]
    exact List.map_congr_left fun e he => congrArg (Prod.mk (bare e.1)) (h e he)
  induction n with
  | token t => simp [markUid, bare_key]
  | call f ps o ih => simp [markUid, hlist ps ih, OriginOf.bare]
  | statement f ps o data ih ihdata => simp [markUid, hlist ps ih, ihdata, OriginOf.bare]
  | block es o ih => simp [markUid, hentries es ih]
  | array is o ih => simp [markUid, hlist is ih]

theorem alike_markUid (mark : String) (n : Node) : Alike n (n.markUid mark) :=
  (bare_markUid mark n).symm

/-! ### How deep a node is -/

mutual

/-- **How deep a node is**: a token is one deep, any other node one deeper than its parts. -/
def depth : Node → Nat
  | token _ => 1
  | call _ ps _ => depthOfAll ps + 1
  | statement _ ps _ data => max (depthOfAll ps) (depth data) + 1
  | block es _ => depthOfEntries es + 1
  | array is _ => depthOfAll is + 1

/-- The depth of the deepest node in a list. -/
def depthOfAll : List Node → Nat
  | [] => 0
  | n :: ns => max (depth n) (depthOfAll ns)

/-- The depth of the deepest value of entries. -/
def depthOfEntries : List (TokenOf Node × Node) → Nat
  | [] => 0
  | (_, n) :: es => max (depth n) (depthOfEntries es)

end

variable {d : Nat}

theorem depthOfAll_le {ns : List Node} : depthOfAll ns ≤ d ↔ ∀ n ∈ ns, n.depth ≤ d := by
  induction ns with
  | nil => simp [depthOfAll]
  | cons n ns ih => rw [depthOfAll, Nat.max_le, ih, List.forall_mem_cons]

theorem depthOfEntries_le {es : List (Token × Node)} :
    depthOfEntries es ≤ d ↔ ∀ e ∈ es, e.2.depth ≤ d := by
  induction es with
  | nil => simp [depthOfEntries]
  | cons e es ih =>
    obtain ⟨k, n⟩ := e
    rw [depthOfEntries, Nat.max_le, ih, List.forall_mem_cons]

theorem depth_pos (n : Node) : 0 < n.depth := by
  cases n <;> simp [depth]

@[simp] theorem depth_token (t : Token) : (token t).depth = 1 := by simp [depth]

/-- No node is less deep than a token. -/
theorem depth_token_le (t : Token) (n : Node) : (token t).depth ≤ n.depth := by
  rw [depth_token]
  exact n.depth_pos

@[simp] theorem depth_call_le {f : String} {ps : List Node} {o : Origin} :
    (call f ps o).depth ≤ d + 1 ↔ ∀ p ∈ ps, p.depth ≤ d := by
  simp [depth, depthOfAll_le]

@[simp] theorem depth_statement_le {f : String} {ps : List Node} {o : Origin} {data : Node} :
    (statement f ps o data).depth ≤ d + 1 ↔ (∀ p ∈ ps, p.depth ≤ d) ∧ data.depth ≤ d := by
  rw [depth, Nat.add_le_add_iff_right, Nat.max_le, depthOfAll_le]

@[simp] theorem depth_block_le {es : List (Token × Node)} {o : Origin} :
    (block es o).depth ≤ d + 1 ↔ ∀ e ∈ es, e.2.depth ≤ d := by
  simp [depth, depthOfEntries_le]

@[simp] theorem depth_array_le {is : List Node} {o : Origin} :
    (array is o).depth ≤ d + 1 ↔ ∀ i ∈ is, i.depth ≤ d := by
  simp [depth, depthOfAll_le]

end Node

namespace Node

theorem alike_markUids (mark : String) (ns : List Node) : Alike ns (markUids mark ns) := by
  rw [markUids_eq, Alike, bare_list, bare_list, List.map_map]
  exact List.map_congr_left fun n _ => alike_markUid mark n

theorem depthOfAll_eq (ns : List Node) : depthOfAll ns = (ns.map depth).foldr max 0 := by
  induction ns with
  | nil => rfl
  | cons n ns ih => exact congrArg (max n.depth) ih

theorem depthOfEntries_eq (es : List (Token × Node)) :
    depthOfEntries es = (es.map (depth ·.2)).foldr max 0 := by
  induction es with
  | nil => rfl
  | cons e es ih => exact congrArg (max e.2.depth) ih

/-- Nodes that are alike are equally deep. -/
@[simp] theorem depth_bare (n : Node) : (bare n).depth = n.depth := by
  have hlist : ∀ ns : List Node, (∀ n ∈ ns, (bare n).depth = n.depth) →
      depthOfAll (bare ns) = depthOfAll ns := fun ns h => by
    rw [depthOfAll_eq, depthOfAll_eq, bare_list, List.map_map]
    exact congrArg (List.foldr max 0) (List.map_congr_left h)
  have hentries : ∀ es : List (Token × Node), (∀ e ∈ es, (bare e.2).depth = e.2.depth) →
      depthOfEntries (bare es) = depthOfEntries es := fun es h => by
    rw [depthOfEntries_eq, depthOfEntries_eq, bare_list, List.map_map]
    exact congrArg (List.foldr max 0) (List.map_congr_left h)
  induction n with
  | token t => simp
  | call f ps o ih => simp [depth, hlist ps ih]
  | statement f ps o data ih ihdata => simp [depth, hlist ps ih, ihdata]
  | block es o ih => simp [depth, hentries es ih]
  | array is o ih => simp [depth, hlist is ih]

end Node

theorem Alike.depth {m n : Node} (h : Alike m n) : m.depth = n.depth := by
  rw [← Node.depth_bare m, h, Node.depth_bare]

/-! ### Calls -/

/-- The bare form of a call. -/
instance : Bare Call := ⟨fun c => ⟨c.function, bare c.params, c.origin.bare⟩⟩

theorem bare_mkCall (f : String) (ps : List Node) (o : Origin) :
    bare (⟨f, ps, o⟩ : Call) = ⟨f, bare ps, o.bare⟩ := rfl

namespace Node

theorem callsOfAll_eq (ns : List Node) : callsOfAll ns = ns.flatMap calls := by
  induction ns with
  | nil => rfl
  | cons n ns ih => exact congrArg (n.calls ++ ·) ih

theorem callsOfEntries_eq (es : List (Token × Node)) :
    callsOfEntries es = es.flatMap (calls ·.2) := by
  induction es with
  | nil => rfl
  | cons e es ih => exact congrArg (e.2.calls ++ ·) ih

/-- The calls in nodes that are alike are alike. -/
@[simp] theorem calls_bare (n : Node) : (bare n).calls = bare n.calls := by
  have hlist : ∀ ns : List Node, (∀ n ∈ ns, (bare n).calls = bare n.calls) →
      callsOfAll (bare ns) = bare (callsOfAll ns) := fun ns h => by
    rw [callsOfAll_eq, callsOfAll_eq, bare_list, bare_list, List.flatMap_map, List.map_flatMap]
    exact congrArg List.flatten (List.map_congr_left h)
  have hentries : ∀ es : List (Token × Node), (∀ e ∈ es, (bare e.2).calls = bare e.2.calls) →
      callsOfEntries (bare es) = bare (callsOfEntries es) := fun es h => by
    rw [callsOfEntries_eq, callsOfEntries_eq, bare_list, bare_list, List.flatMap_map,
      List.map_flatMap]
    exact congrArg List.flatten (List.map_congr_left h)
  induction n with
  | token t => simp [calls]
  | call f ps o ih => simp [calls, hlist ps ih, bare_mkCall]
  | statement f ps o data ih ihdata => simp [calls, hlist ps ih, ihdata, bare_mkCall]
  | block es o ih => simp [calls, hentries es ih]
  | array is o ih => simp [calls, hlist is ih]

end Node

/-! ### Outcomes -/

namespace Outcome

/-- The nodes of an outcome. -/
def nodes : Outcome → List Node
  | value n => [n]
  | empty => []
  | splice items => items
  | pending => []

@[simp] theorem nodes_value (n : Node) : (value n).nodes = [n] := rfl

@[simp] theorem nodes_empty : empty.nodes = [] := rfl

@[simp] theorem nodes_splice (items : List Node) : (splice items).nodes = items := rfl

@[simp] theorem nodes_pending : pending.nodes = [] := rfl

/-- The bare form of an outcome. -/
instance : Bare Outcome where
  bare
    | value n => value (bare n)
    | empty => empty
    | splice items => splice (bare items)
    | pending => pending

@[simp] theorem bare_value (n : Node) : bare (value n) = value (bare n) := rfl

@[simp] theorem bare_empty : bare empty = empty := rfl

@[simp] theorem bare_splice (items : List Node) : bare (splice items) = splice (bare items) := rfl

@[simp] theorem bare_pending : bare pending = pending := rfl

/-- The outcomes that are a node alike to a given one. -/
theorem alike_value_iff {n : Node} {o : Outcome} :
    Alike (value n) o ↔ ∃ m, o = .value m ∧ Alike n m := by
  cases o <;> simp [Alike]

theorem alike_splice_iff {ns : List Node} {o : Outcome} :
    Alike (splice ns) o ↔ ∃ ms, o = .splice ms ∧ Alike ns ms := by
  cases o <;> simp [Alike]

theorem alike_pending_iff {o : Outcome} : Alike pending o ↔ o = pending := by
  cases o <;> simp [Alike]

theorem alike_empty_iff {o : Outcome} : Alike empty o ↔ o = empty := by
  cases o <;> simp [Alike]

@[simp] theorem nodes_bare (o : Outcome) : (bare o).nodes = bare o.nodes := by
  cases o <;> rfl

end Outcome

end ContentLang
