import ContentLang.Proofs.Loading.Captured
import ContentLang.Proofs.Loading.LaterBinding

/-!
# Slots in sequences and blocks

A node that stands as an item of a sequence, or as a value of a block, is loaded apart from what
stands around it, but for the bindings before it. What is around it comes to the same whatever
stands in that slot, and what comes of the node is put there (`ContentLang.Reduce.exists_slot`).

This holds of nodes that bind nothing and have no data that is the next item; a condition with its
data is one.
-/

namespace ContentLang

open Walk

/-- **A slot in a node**: an item of a sequence or the value of an entry of a block. -/
inductive Slot
  | item (before after : List Node) (o : Origin)
  | entry (before : List (Token × Node)) (key : Token) (after : List (Token × Node)) (o : Origin)

namespace Slot

/-- The node with a given one in the slot. -/
def around : Slot → Node → Node
  | item before after o, n => .array (before ++ n :: after) o
  | entry before key after o, n => .block (before ++ (key, n) :: after) o

/-- The node with what a node in the slot came to, which had a given origin. -/
def filled (origin : Origin) : Slot → Outcome → Option Node
  | item before after o, out => out.toItems?.map fun items => .array (before ++ items ++ after) o
  | entry before key after o, out =>
    (out.toEntries? key origin).map fun es => .block (before ++ es ++ after) o

/-- The nodes that stand after the slot. -/
def after : Slot → List Node
  | item _ after _ => after
  | entry _ _ after _ => after.map (·.2)

/-- Whether it is a slot in a block. -/
def inBlock : Slot → Bool
  | item _ _ _ => false
  | entry _ _ _ _ => true

/-- The bindings that the node around the slot has captured. -/
def context : Slot → Context
  | item _ _ o => o.context
  | entry _ _ _ o => o.context

variable {slot : Slot} {n : Node} {o : Origin} {items : List Node} {w : Node}

theorem around_context : (slot.around n).origin.context = slot.context := by
  cases slot <;> rfl

/-- What comes to one node is replaced by it. -/
theorem filled_value (h : slot.filled o (.value n) = some w) : w = slot.around n := by
  cases slot with
  | item before after o =>
    obtain rfl := Option.some.inj h
    simp [around]
  | entry before key after o =>
    obtain rfl := Option.some.inj h
    simp [around]

/-- In a block several nodes are an array. -/
theorem filled_splice (hblock : slot.inBlock = true) (h : slot.filled o (.splice items) = some w) :
    w = slot.around (.array items o) := by
  cases slot with
  | item before after o => exact nomatch hblock
  | entry before key after o =>
    obtain rfl := Option.some.inj h
    simp [around]

end Slot

namespace Reduce

section

variable {env : Surroundings} (henv : env.Loads) {limit : Nat}
include henv

/-! ### Loading is blind -/

theorem fixed_elements (ctx : Context) (ns : List Node) :
    Fixed (elements env (inContext limit) ctx ns) := by
  let made (r : Option (List Node)) : Outcome :=
    r.elim .pending fun items =>
      .value (.array items { (OriginOf.unwritten : Origin) with context := ctx })
  have harray : inContext (limit + 1) env (.array ns .unwritten) ctx =
      elements env (inContext limit) ctx ns >>= fun r => pure (made r) := by
    show elements env (inContext limit) ctx ns >>= _ = _
    congr 1
    funext r
    cases r <;> rfl
  refine Fixed.of_map (f := made) (fun r r' h => ?_) (harray ▸ blind_inContext _ env henv _ ctx)
  cases r <;> cases r' <;> simp_all [made]

theorem fixed_entries (ctx : Context) (es : List (Token × Node)) :
    Fixed (entries env (inContext limit) ctx es) := by
  let made (r : Option (List (Token × Node))) : Outcome :=
    r.elim .pending fun es =>
      .value (.block es { (OriginOf.unwritten : Origin) with context := ctx })
  have hblock : inContext (limit + 1) env (.block es .unwritten) ctx =
      entries env (inContext limit) ctx es >>= fun r => pure (made r) := by
    show entries env (inContext limit) ctx es >>= _ = _
    congr 1
    funext r
    cases r <;> rfl
  refine Fixed.of_map (f := made) (fun r r' h => ?_) (hblock ▸ blind_inContext _ env henv _ ctx)
  cases r <;> cases r' <;> simp_all [made]

/-! ### Sequences -/

/-- Whether a node is an element that binds nothing and keeps its data. -/
def Plain (env : Surroundings) (rec : Reducer) (n : Node) : Prop :=
  ∀ ctx, element env rec ctx n = plainElement env rec ctx n

theorem element_plain {n : Node} (hn : Plain env (inContext limit) n) {ctx : Context}
    {s : WalkState} {out : Outcome} (hout : (inContext limit env n ctx s).answer = .ok out) :
    (element env (inContext limit) ctx n s).answer = .ok (out.toItems?, ctx) := by
  have hready : out ≠ .pending :=
    gives_answer (ready_inContext limit env henv.late n ctx) hout
  rw [hn, plainElement, visit_loading henv.late, bind_ok hout, orKept_of_ready hready]
  rfl

/-- What a sequence gives from its first element on. -/
theorem answer_elements_cons {ctx c : Context} {n : Node} {ns l m : List Node} {s : WalkState}
    (hfirst : (element env (inContext limit) ctx n s).answer = .ok (some l, c))
    {s' : WalkState} (hrest : (elements env (inContext limit) c ns s').answer = .ok (some m)) :
    (elements env (inContext limit) ctx (n :: ns) s).answer = .ok (some (l ++ m)) := by
  rw [elements, bind_ok hfirst]
  show ((elements env (inContext limit) c ns >>= fun more => pure (more.map (l ++ ·))) _).answer = _
  rw [answer_map, fixed_elements henv c ns _ s', hrest]
  rfl

omit henv in
/-- The same the other way round. -/
theorem exists_of_answer_elements {ctx : Context} {n : Node} {ns l : List Node} {s : WalkState}
    (h : (elements env (inContext limit) ctx (n :: ns) s).answer = .ok (some l)) :
    ∃ l₁ l₂ c s', (element env (inContext limit) ctx n s).answer = .ok (some l₁, c) ∧
      (elements env (inContext limit) c ns s').answer = .ok (some l₂) ∧ l = l₁ ++ l₂ := by
  obtain ⟨⟨r, c⟩, hfirst, hrest, -⟩ := answer_of_bind h
  cases r with
  | none => exact nomatch hrest
  | some l₁ =>
    obtain ⟨r', hr', hmap, -⟩ := answer_of_bind hrest
    cases r' with
    | none => exact nomatch hmap
    | some l₂ => exact ⟨l₁, l₂, c, _, hfirst, hr', (Option.some.inj (Except.ok.inj hmap)).symm⟩

variable (hregistry : env.registry = .builtin)
include hregistry

/-- **A sequence around a slot**: what stands before and after it gives the same whatever stands
there. -/
theorem exists_items {before after : List Node} {ctx : Context}
    (hctx : ctx.Laid env.registry noneShunned) {x : Node} (hx : Plain env (inContext limit) x)
    {s : WalkState} {l : List Node}
    (h : (elements env (inContext limit) ctx (before ++ x :: after) s).answer = .ok (some l)) :
    ∃ (b a : List Node) (c : Context), c.Laid env.registry noneShunned ∧ (c = [] → ctx = []) ∧
      (∃ out s', (inContext limit env x c s').answer = .ok out) ∧
      ∀ y, Plain env (inContext limit) y → ∀ s' out, (inContext limit env y c s').answer = .ok out →
        ∃ items, out.toItems? = some items ∧
          (elements env (inContext limit) ctx (before ++ y :: after) s).answer =
            .ok (some (b ++ items ++ a)) := by
  induction before generalizing ctx s l with
  | nil =>
    obtain ⟨l₁, a, c, s', hfirst, hrest, rfl⟩ := exists_of_answer_elements h
    obtain ⟨out, hout⟩ : ∃ out, (inContext limit env x ctx s).answer = .ok out := by
      rw [hx, plainElement, visit_loading henv.late] at hfirst
      obtain ⟨out, hout, -⟩ := answer_of_bind hfirst
      exact ⟨out, hout⟩
    have hsame := (element_plain henv hx hout).symm.trans hfirst
    obtain rfl : ctx = c := congrArg Prod.snd (Except.ok.inj hsame)
    refine ⟨[], a, ctx, hctx, id, ⟨out, s, hout⟩, fun y hy s₁ out' hout' => ?_⟩
    have hy' := element_plain henv hy ((blind_inContext limit env henv y ctx s s₁).trans hout')
    obtain ⟨items, hitems⟩ := Outcome.toItems?_of_ready
      (gives_answer (ready_inContext limit env henv.late y ctx) hout')
    rw [hitems] at hy'
    exact ⟨items, hitems, answer_elements_cons henv hy' hrest⟩
  | cons n before ih =>
    obtain ⟨l₁, l₂, c', s', hfirst, hrest, rfl⟩ := exists_of_answer_elements h
    obtain ⟨-, -, -, hlaid⟩ := answer_of_loading (settles_element
      (settles_inContext noneShunned limit) (blind_inContext limit) henv hctx
      n.inert_noneShunned) hfirst
    have hbound : c' = [] → ctx = [] := fun hc' => by
      by_contra hne
      exact (gives_answer (captures_element (captures_inContext limit) henv.late
        (hregistry ▸ Function.capturing_builtin) hne (ready_inContext limit) n) hfirst).2 hc'
    obtain ⟨b, a, c, hc, hempty, hown, hothers⟩ := ih hlaid hrest
    refine ⟨l₁ ++ b, a, c, hc, hbound ∘ hempty, hown, fun y hy s₁ out hout => ?_⟩
    obtain ⟨items, hitems, hall⟩ := hothers y hy s₁ out hout
    refine ⟨items, hitems, ?_⟩
    have hwhole := answer_elements_cons henv hfirst hall
    simpa only [List.append_assoc, List.cons_append] using hwhole

/-! ### Blocks -/

omit hregistry in
theorem entries_loading (ctx : Context) (es : List (Token × Node)) :
    entries env (inContext limit) ctx es = inTurn (entriesOf env (inContext limit) ctx) es := by
  refine entries_inTurn _ _ (fun n s out hout => orKept_of_ready ?_ _ _ _) es
  rw [visit_loading henv.late] at hout
  exact gives_answer (ready_inContext limit env henv.late n ctx) hout

omit hregistry in
/-- **A block around a slot**: the entries before and after it give the same whatever stands
there. -/
theorem exists_entries {before after : List (Token × Node)} {k : Token} {ctx : Context} {x : Node}
    {s : WalkState} {l : List (Token × Node)}
    (h : (entries env (inContext limit) ctx (before ++ (k, x) :: after) s).answer = .ok (some l)) :
    ∃ b a : List (Token × Node), (∃ out s', (inContext limit env x ctx s').answer = .ok out) ∧
      ∀ y s' out, (inContext limit env y ctx s').answer = .ok out →
        ∃ es, out.toEntries? k y.origin = some es ∧
          (entries env (inContext limit) ctx (before ++ (k, y) :: after) s).answer =
            .ok (some (b ++ es ++ a)) := by
  have hafter : Fixed (inTurn (entriesOf env (inContext limit) ctx) after) :=
    entries_loading henv ctx after ▸ fixed_entries henv ctx after
  rw [entries_loading henv, inTurn_append, answer_thenAlso] at h
  obtain ⟨b, rest, hb, hrest, -⟩ := h
  rw [inTurn_cons, answer_thenAlso] at hrest
  obtain ⟨es, a, hx, ha, -⟩ := hrest
  obtain ⟨out, hout, -⟩ := answer_of_bind hx
  rw [visit_loading henv.late] at hout
  refine ⟨b, a, ⟨out, _, hout⟩, fun y s' out' hout' => ?_⟩
  obtain ⟨es, hes⟩ := Outcome.toEntries?_of_ready
    (gives_answer (ready_inContext limit env henv.late y ctx) hout') k y.origin
  have hentry : ∀ s, (entriesOf env (inContext limit) ctx (k, y) s).answer = .ok (some es) := by
    intro s
    rw [entriesOf, answer_map, visit_loading henv.late,
      (blind_inContext limit env henv y ctx s s').trans hout']
    exact congrArg Except.ok hes
  refine ⟨es, hes, ?_⟩
  rw [entries_loading henv, inTurn_append, answer_thenAlso]
  refine ⟨b, es ++ a, hb, ?_, (List.append_assoc ..).symm⟩
  rw [inTurn_cons, answer_thenAlso]
  exact ⟨es, a, hentry _, (hafter _ _).trans ha, rfl⟩

/-! ### Slots -/

/-- **What is around a slot is loaded apart from what stands in it**: if it is loaded with one node
in the slot, there are the bindings that nodes in the slot are reduced with, and what is around it
comes to the same with every other node that is loaded with these. -/
theorem exists_slot {ctx : Context} (hctx : ctx.Laid env.registry noneShunned) (slot : Slot)
    {x : Node} (hx : Plain env (inContext limit) x) {s : WalkState} {whole : Outcome}
    (h : (inContext (limit + 1) env (slot.around x) ctx s).answer = .ok whole) :
    ∃ (loaded : Slot) (c : Context), loaded.context = ctx ∧ loaded.inBlock = slot.inBlock ∧
      c.Laid env.registry noneShunned ∧
      (c = [] → ctx = []) ∧ (∃ out s', (inContext limit env x c s').answer = .ok out) ∧
      ∀ y, Plain env (inContext limit) y → ∀ s' out, (inContext limit env y c s').answer = .ok out →
        ∃ w, loaded.filled y.origin out = some w ∧
          (inContext (limit + 1) env (slot.around y) ctx s).answer = .ok (.value w) := by
  cases slot with
  | item before after o =>
    obtain ⟨r, hr, -⟩ := answer_of_bind h
    obtain ⟨l, rfl⟩ := gives_answer (ready_elements (ready_inContext limit) henv.late _) hr
    obtain ⟨b, a, c, hc, hempty, hown, hothers⟩ := exists_items henv hregistry hctx hx hr
    refine ⟨.item b a { o with context := ctx }, c, rfl, rfl, hc, hempty, hown,
      fun y hy s' out hout => ?_⟩
    obtain ⟨items, hitems, hall⟩ := hothers y hy s' out hout
    refine ⟨_, by rw [Slot.filled, hitems]; rfl, ?_⟩
    show ((elements env (inContext limit) ctx (before ++ y :: after) >>= _) s).answer = _
    rw [bind_ok hall]
    rfl
  | entry before k after o =>
    obtain ⟨r, hr, -⟩ := answer_of_bind h
    obtain ⟨l, rfl, -⟩ := gives_answer (ready_entries (ready_inContext limit) henv.late _) hr
    obtain ⟨b, a, hown, hothers⟩ := exists_entries henv hr
    refine ⟨.entry b k a { o with context := ctx }, ctx, rfl, rfl, hctx, id, hown,
      fun y _ s' out hout => ?_⟩
    obtain ⟨es, hes, hall⟩ := hothers y s' out hout
    refine ⟨_, by rw [Slot.filled, hes]; rfl, ?_⟩
    show ((entries env (inContext limit) ctx (before ++ (k, y) :: after) >>= _) s).answer = _
    rw [bind_ok hall]
    rfl

end

/-! ### Consumption -/

section

variable {env : Surroundings} (hlate : env.late = true) {slot : Slot} {x y : Node}
  (hx : (slot.around x).Settled env.registry false)
  (hy : (slot.around y).Settled env.registry false)
  (hafter : ∀ n ∈ slot.after, Forced env slot.context n)
  (hxy : ∀ limit, Regardless Alike (visit env (inContext limit) x slot.context)
    (visit env (inContext limit) y slot.context))
include hlate hx hy hafter hxy

/-- **What is around a slot is consumed alike with nodes in it that are**, if what is drawn before
makes no difference to these, nor to what comes after the slot. -/
theorem ends_around (limit : Nat) (s : WalkState) :
    (visit env (inContext limit) (slot.around x) slot.context s).answer = .error .exhausted ∨
      SameEnd Alike (visit env (inContext limit) (slot.around x) slot.context s).answer
        (visit env (inContext limit) (slot.around y) slot.context s).answer := by
  have hown : ∀ z, contextOf env (slot.around z) slot.context = slot.context := fun z => by
    cases slot <;> simp [contextOf, Slot.around, Slot.context, Node.origin]
  cases limit with
  | zero => exact .inl rfl
  | succ limit =>
    rw [visit, visit, hown, hown]
    cases slot with
    | item b a o =>
      have hitem : Regardless (Option.Rel Alike) (itemsOf env (inContext limit) o.context x)
          (itemsOf env (inContext limit) o.context y) :=
        regardless_map (hxy limit) fun _ _ h => Alike.toItems? h
      have hparts : (inTurn _ (b ++ x :: a) s).answer = _ ∨ _ := ends_inTurn hitem
        (fun n hn => (hafter n hn).itemsOf limit) s
      show ((elements env (inContext limit) o.context (b ++ x :: a) >>= _) s).answer = _ ∨
        SameEnd _ ((elements env (inContext limit) o.context (b ++ x :: a) >>= _) s).answer
          ((elements env (inContext limit) o.context (b ++ y :: a) >>= _) s).answer
      rw [elements_eq_inTurn hlate _ _ (Node.settled_array.mp hx),
        elements_eq_inTurn hlate _ _ (Node.settled_array.mp hy)]
      refine ends_bind hparts fun r r' hr => ?_
      cases hr with
      | none => exact regardless_pure rfl
      | some hr => exact regardless_pure (by simpa [Alike] using hr)
    | entry b k a o =>
      have hentry : Regardless (Option.Rel Alike) (entriesOf env (inContext limit) o.context (k, x))
          (entriesOf env (inContext limit) o.context (k, y)) :=
        regardless_map (hxy limit) fun _ _ h => Alike.toEntries? h (.refl k) x.origin y.origin
      have hparts : (inTurn _ (b ++ (k, x) :: a) s).answer = _ ∨ _ := ends_inTurn hentry
        (fun e he => Forced.entriesOf (hafter e.2 (List.mem_map_of_mem he)) limit) s
      show ((entries env (inContext limit) o.context (b ++ (k, x) :: a) >>= _) s).answer = _ ∨
        SameEnd _ ((entries env (inContext limit) o.context (b ++ (k, x) :: a) >>= _) s).answer
          ((entries env (inContext limit) o.context (b ++ (k, y) :: a) >>= _) s).answer
      rw [entries_eq_inTurn hlate, entries_eq_inTurn hlate]
      refine ends_bind hparts fun r r' hr => ?_
      cases hr with
      | none => exact regardless_pure rfl
      | some hr => exact regardless_pure (by simpa [Alike] using hr)

end

end Reduce

/-- The same of the nodes that are come to. -/
theorem Engine.compares_around {e : Engine} {file : String} (hregistry : e.registry = .builtin)
    {slot : Slot} {x y : Node} (hx : (slot.around x).Settled .builtin false)
    (hy : (slot.around y).Settled .builtin false)
    (hafter : ∀ n ∈ slot.after, Reduce.Forced (e.surroundings true file) slot.context n)
    (hxy : ∀ limit, Regardless ContentLang.Alike
      (Reduce.visit (e.surroundings true file) (Reduce.inContext limit) x slot.context)
      (Reduce.visit (e.surroundings true file) (Reduce.inContext limit) y slot.context)) :
    e.Compares file ContentLang.Alike (slot.around x) (slot.around y) := by
  refine compares_of_ends ?_
  have hown : (e.surroundings true file).registry = .builtin := hregistry
  rw [Slot.around_context, Slot.around_context]
  exact (Reduce.ends_around rfl (by rwa [hown]) (by rwa [hown]) hafter hxy e.limit
    e.state).imp_right fun h => h.imp fun _ _ hab => ContentLang.Alike.toNode? hab _ _

end ContentLang
