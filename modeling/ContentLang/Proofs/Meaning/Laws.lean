import ContentLang.Proofs.Meaning.Reading
import ContentLang.Proofs.Walk.Inert

/-!
# Laws of meanings

What is used of the meanings of functions (`ContentLang.Meaning.Lawful`):

* whether a parameter has to be waited for depends on what the parameters say alone, and not on
  where they stand or on what is bound there (`waits_bare`);
* nothing is waited for if there is no call of anything known in the parameters (`ready`);
* what was read gives a proper outcome (`gives`), made of parts of the parameters and of the
  values that are bound (`closed`).

Each is shown for the ways to read nodes first, and then for the functions of the language.
-/

namespace ContentLang

/-! ### Readings one after the other -/

section

variable {α β : Type} {a : α} {r : Reading α} {f : α → Reading β} {b : β}

theorem Reading.ok_ne_waits : (.ok a : Reading α) ≠ .error .waits := by simp

theorem Reading.wrong_ne_waits : (.error .wrong : Reading α) ≠ .error .waits := by simp

theorem Reading.error_ne_ok {e : Stuck} : (.error e : Reading α) ≠ .ok a := by simp

theorem Reading.bind_eq_ok : (r >>= f) = .ok b ↔ ∃ a, r = .ok a ∧ f a = .ok b := by
  cases r with
  | ok a => exact ⟨fun h => ⟨a, rfl, h⟩, fun ⟨a', ha, h⟩ => Except.ok.inj ha ▸ h⟩
  | error e => exact ⟨fun h => absurd h (by simp [Bind.bind, Except.bind]), by simp⟩

theorem Reading.bind_ne_waits (hr : r ≠ .error .waits)
    (hf : ∀ a, r = .ok a → f a ≠ .error .waits) : (r >>= f) ≠ .error .waits := by
  cases r with
  | ok a => exact hf a rfl
  | error e => simpa [Bind.bind, Except.bind] using hr

variable [Bare α] [Bare β]

theorem Reading.bare_bind {g : α → Reading β} (h : ∀ a, bare (f a) = g (bare a)) :
    bare (r >>= f) = bare r >>= g := by
  cases r with
  | ok a => exact h a
  | error e => rfl

end

/-- Whether two readings correspond: what was read does, or nothing was for the same reason. -/
inductive Reading.Rel {α β : Type} (R : α → β → Prop) : Reading α → Reading β → Prop
  | ok {a : α} {b : β} (h : R a b) : Rel R (.ok a) (.ok b)
  | error (e : Stuck) : Rel R (.error e) (.error e)

theorem Reading.rel_bind {α β γ δ : Type} {R : α → β → Prop} {Q : γ → δ → Prop} {r : Reading α}
    {r' : Reading β} {f : α → Reading γ} {g : β → Reading δ} (h : Rel R r r')
    (hfg : ∀ a b, R a b → Rel Q (f a) (g b)) : Rel Q (r >>= f) (r' >>= g) := by
  cases h with
  | ok h => exact hfg _ _ h
  | error e => exact .error e

theorem bare_strings (xs : List String) : bare xs = xs := List.map_id xs

/-! ### Entries -/

section

variable {m es : Entries Token Node} {k : Token} {n : Node}

theorem beq_bare (s t : Token) : (bare s == bare t) = (s == t) := rfl

namespace Entries

-- Keys are changed so that equal ones stay equal, and no others become so.
variable {f : Token → Token} (hf : ∀ s t, (f s == f t) = (s == t)) (g : Node → Node)
include hf

theorem find?_map (m : Entries Token Node) (k : Token) :
    find? (m.map (Prod.map f g)) (f k) = (find? m k).map (Prod.map f g) := by
  induction m with
  | nil => rfl
  | cons e m ih =>
    simp only [find?, List.map_cons, List.find?_cons, Prod.map_fst, hf] at ih ⊢
    rw [ih]
    cases e.1 == k <;> rfl

theorem erase_map (m : Entries Token Node) (k : Token) :
    erase (m.map (Prod.map f g)) (f k) = (erase m k).map (Prod.map f g) := by
  simp only [erase, List.filter_map, Function.comp_def, Prod.map_fst, hf]

theorem insert_map (m : Entries Token Node) (k : Token) (n : Node) :
    insert (m.map (Prod.map f g)) (f k) (g n) = (insert m k n).map (Prod.map f g) := by
  unfold insert
  rw [find?_map hf]
  cases find? m k with
  | none => simp
  | some old => simp [erase_map hf]

theorem overlay_map (m es : Entries Token Node) :
    overlay (m.map (Prod.map f g)) (es.map (Prod.map f g)) =
      (overlay m es).map (Prod.map f g) := by
  induction es generalizing m with
  | nil => rfl
  | cons e es ih => exact (congrArg (overlay · _) (insert_map hf g ..)).trans (ih _)

end Entries

theorem bare_erase (m : Entries Token Node) (k : Token) :
    bare (Entries.erase m k) = Entries.erase (bare m) (bare k) :=
  (Entries.erase_map beq_bare bare m k).symm

theorem bare_overlay (m es : Entries Token Node) :
    bare (Entries.overlay m es) = Entries.overlay (bare m) (bare es) :=
  (Entries.overlay_map beq_bare bare m es).symm

/-- What holds of all values of a map holds of them after another value is put in. -/
theorem Entries.forall_insert {κ ν : Type} [BEq κ] {m : Entries κ ν} {k : κ} {v : ν}
    {Q : ν → Prop} (hm : ∀ e ∈ m, Q e.2) (hv : Q v) : ∀ e ∈ Entries.insert m k v, Q e.2 := by
  intro e he
  unfold Entries.insert at he
  split at he
  · rcases List.mem_append.mp he with he | he
    · exact hm e (List.mem_filter.mp he).1
    · rw [List.mem_singleton.mp he]
      exact hv
  · rcases List.mem_append.mp he with he | he
    · exact hm e he
    · rw [List.mem_singleton.mp he]
      exact hv

theorem Entries.forall_overlay {κ ν : Type} [BEq κ] {m es : Entries κ ν} {Q : ν → Prop}
    (hm : ∀ e ∈ m, Q e.2) (hes : ∀ e ∈ es, Q e.2) : ∀ e ∈ Entries.overlay m es, Q e.2 := by
  induction es generalizing m with
  | nil => exact hm
  | cons e es ih =>
    obtain ⟨he, hes⟩ := List.forall_mem_cons.mp hes
    exact ih (forall_insert hm he) hes

/-- Removing keys adds no entries. -/
theorem Library.mem_of_withoutKeys {removed : List Token} {e : Token × Node}
    (h : e ∈ withoutKeys es removed) : e ∈ es := by
  induction removed generalizing es with
  | nil => exact h
  | cons k ks ih => exact (List.mem_filter.mp (ih h)).1

end

/-- A value that is bound is one of the values of the context. -/
theorem Context.mem_of_get? {ctx : Context} {name : Token} {value : Node}
    (h : Context.get? ctx name = some value) : ∃ e ∈ ctx, e.2 = value := by
  obtain ⟨e, he, rfl⟩ := Option.map_eq_some_iff.mp h
  exact ⟨e, List.mem_of_find?_eq_some he, rfl⟩

/-- A name is bound, whatever its origin is. -/
theorem Context.get?_of_alike {s t : Token} (h : Alike s t) (ctx : Context) :
    Context.get? ctx s = Context.get? ctx t := by
  have hlabel : ∀ l : Label, (l == s.label) = (l == t.label) := by
    intro l
    show (l.value == s.value && l.isContent == s.isContent) = _
    rw [h.value, h.isContent]
    rfl
  simp only [get?, Entries.get?, Entries.find?, hlabel]

theorem contains_of_alike {s t : Token} (h : Alike s t) (ts : List Token) :
    ts.contains s = ts.contains t := by
  have hbeq : ∀ u : Token, (s == u) = (t == u) := fun u => by
    rw [← beq_bare s u, h, beq_bare]
  simp only [List.contains_eq_any_beq, hbeq]

/-! ### What has been combined -/

open Library (Combined Component)

instance : Bare Combined where
  bare
    | .nothing => .nothing
    | .items ns => .items (bare ns)
    | .entries es => .entries (bare es)

@[simp] theorem bare_nothing : bare Combined.nothing = .nothing := rfl

@[simp] theorem bare_items (ns : List Node) : bare (Combined.items ns) = .items (bare ns) := rfl

@[simp] theorem bare_entries (es : Entries Token Node) :
    bare (Combined.entries es) = .entries (bare es) := rfl

/-! ### What does not depend on origins -/

section

variable (known : String → Bool)

@[simp] theorem Node.isDeferred_bare (n : Node) :
    (bare n).isDeferred known = n.isDeferred known := by
  rw [isDeferred, isDeferred, function?_bare]

theorem tokenOf_bare (n : Node) : tokenOf known (bare n) = bare (tokenOf known n) := by
  cases n <;> rfl

theorem tokensOf_cons (n : Node) (ns : List Node) :
    tokensOf known (n :: ns) = (do
      let t ← tokenOf known n
      let ts ← tokensOf known ns
      return t :: ts) := List.mapM_cons

theorem tokensOf_bare (ns : List Node) :
    tokensOf known (bare ns) = bare (tokensOf known ns) := by
  induction ns with
  | nil => rfl
  | cons n ns ih =>
    simp only [tokensOf, bare_cons, List.mapM_cons] at ih ⊢
    rw [tokenOf_bare, ih]
    refine (Reading.bare_bind fun t => ?_).symm
    exact Reading.bare_bind (g := fun ts => pure (bare t :: ts)) fun ts => rfl

theorem textsOf_bare (n : Node) : textsOf known (bare n) = textsOf known n := by
  induction n with
  | array is o ih =>
    simp only [bare_array, textsOf]
    induction is with
    | nil => rfl
    | cons i is ihs =>
      obtain ⟨hi, his⟩ := List.forall_mem_cons.mp ih
      simp only [bare_cons, textsOfAll, hi, ihs his]
  | _ => rfl

theorem textsOfAll_bare (ns : List Node) : textsOfAll known (bare ns) = textsOfAll known ns := by
  induction ns with
  | nil => rfl
  | cons n ns ih => simp only [bare_cons, textsOfAll, textsOf_bare, ih]

theorem collectionOf_bare (n : Node) :
    collectionOf known (bare n) = bare (collectionOf known n) := by
  cases n <;> rfl

theorem combineWith_null {acc : Combined} {n : Node} (h : n.isNull = true) :
    combineWith known acc n = .ok acc := by
  unfold combineWith
  rw [if_pos h]

theorem combineWith_bare (acc : Combined) (n : Node) :
    combineWith known (bare acc) (bare n) = bare (combineWith known acc n) := by
  unfold combineWith
  rw [Node.isNull_bare]
  by_cases hn : n.isNull = true
  · rw [if_pos hn, if_pos hn]
    rfl
  · rw [if_neg hn, if_neg hn]
    cases n with
    | array is o =>
      cases acc with
      | nothing => simp
      | items js => simp
      | entries fs => rfl
    | block es o =>
      cases acc with
      | nothing => simp [bare_overlay]
      | items js => rfl
      | entries fs => simp [bare_overlay]
    | token t => cases acc <;> rfl
    | call f ps o => cases acc <;> rfl
    | statement f ps o data => cases acc <;> rfl

theorem bare_withoutKeys (es : Entries Token Node) (removed : List Token) :
    bare (Library.withoutKeys es removed) = Library.withoutKeys (bare es) (bare removed) := by
  induction removed generalizing es with
  | nil => rfl
  | cons k ks ih => exact (ih _).trans (congrArg (Library.withoutKeys · (bare ks)) (bare_erase ..))

theorem contains_bare (ts : List Token) (t : Token) :
    (bare ts).contains (bare t) = ts.contains t := by
  induction ts with
  | nil => rfl
  | cons u ts ih => rw [bare_cons, List.contains_cons, List.contains_cons, ih, beq_bare]

theorem without_bare (n : Node) (removed : List Token) :
    (bare n).without (bare removed) = bare (n.without removed) := by
  cases n with
  | array is o =>
    simp only [bare_array, Node.without, bare_list is, List.filter_map]
    congr 2
    refine List.filter_congr fun n _ => ?_
    cases n with
    | token t => exact congrArg (!·) (contains_bare removed t)
    | _ => rfl
  | block es o => simp only [bare_block, Node.without, bare_withoutKeys]
  | token t => rfl
  | call f ps o => simp only [bare_call, Node.without]
  | statement f ps o data => simp only [bare_statement, Node.without]

theorem combine_bare (acc : Combined) (ns : List Node) :
    (bare ns).foldlM (combineWith known) (bare acc) =
      bare (ns.foldlM (combineWith known) acc) := by
  induction ns generalizing acc with
  | nil => rfl
  | cons n ns ih =>
    simp only [bare_cons, List.foldlM_cons, combineWith_bare]
    exact (Reading.bare_bind fun acc => (ih acc).symm).symm

theorem fieldsOf_bare (component : Component) (fields : List (String × Option String))
    (params : List Node) :
    fieldsOf known component fields (bare params) =
      bare (fieldsOf known component fields params) := by
  induction fields generalizing params with
  | nil => rfl
  | cons field fields ih =>
    obtain ⟨key, fallback⟩ := field
    -- The entry of this field comes before the others, which are the same either way.
    have hrest : ∀ (params : List Node) (e : Token × Node),
        (fieldsOf known component fields (bare params) >>= fun es => pure (bare e :: es)) =
          bare (fieldsOf known component fields params >>= fun es => pure (e :: es)) := by
      intro params e
      rw [ih]
      exact (Reading.bare_bind (g := fun es => pure (bare e :: es)) fun es => rfl).symm
    cases params with
    | nil =>
      cases fallback with
      | none => rfl
      | some fallback => exact hrest [] (.key key, .token (.key fallback))
    | cons param params =>
      simp only [bare_cons, fieldsOf, tokenOf_bare]
      refine (Reading.bare_bind fun t => ?_).symm
      have hvalue : (bare t).value = t.value := rfl
      rw [hvalue]
      cases component.fault? t.value with
      | some fault => rfl
      | none => exact (hrest params (.key key, .token t)).symm

end

/-! ### What is ready -/

section

variable {known : String → Bool}

theorem Node.Inert.isDeferred {n : Node} (h : n.Inert known) : n.isDeferred known = false := by
  rw [Node.isDeferred, Option.any_eq_false]
  exact fun f hf => by simp [h.function? hf]

theorem Node.stuck_of_inert {n : Node} (h : n.Inert known) : n.stuck known = .wrong := by
  simp [stuck, h.isDeferred]

/-- A call of something known is waited for. -/
theorem Node.stuck_call {f : String} (hf : known f = true) (ps : List Node) (o : Origin) :
    (Node.call f ps o).stuck known = .waits := by
  simp [stuck, isDeferred, function?, hf]

theorem tokenOf_ready {n : Node} (h : n.Inert known) : tokenOf known n ≠ .error .waits := by
  cases n <;> simp [tokenOf, Node.stuck_of_inert h]

theorem tokensOf_ready {ns : List Node} (h : ∀ n ∈ ns, n.Inert known) :
    tokensOf known ns ≠ .error .waits := by
  induction ns with
  | nil => exact Reading.ok_ne_waits
  | cons n ns ih =>
    obtain ⟨hn, hns⟩ := List.forall_mem_cons.mp h
    rw [tokensOf, List.mapM_cons]
    exact Reading.bind_ne_waits (tokenOf_ready hn) fun t _ =>
      Reading.bind_ne_waits (ih hns) fun _ _ => Reading.ok_ne_waits

theorem textsOfAll_ready {ns : List Node}
    (h : ∀ n ∈ ns, textsOf known n ≠ .error .waits) : textsOfAll known ns ≠ .error .waits := by
  induction ns with
  | nil => exact Reading.ok_ne_waits
  | cons n ns ih =>
    obtain ⟨hn, hns⟩ := List.forall_mem_cons.mp h
    rw [textsOfAll]
    exact Reading.bind_ne_waits hn fun t _ =>
      Reading.bind_ne_waits (ih hns) fun _ _ => Reading.ok_ne_waits

theorem textsOf_ready {n : Node} (h : n.Inert known) : textsOf known n ≠ .error .waits := by
  induction n with
  | token t => exact Reading.ok_ne_waits
  | array is o ih =>
    rw [textsOf]
    exact textsOfAll_ready fun i hi => ih i hi (Node.inert_array.mp h i hi)
  | _ => simp [textsOf, Node.stuck_of_inert h]

theorem combineWith_ready {acc : Combined} {n : Node} (h : n.Inert known) :
    combineWith known acc n ≠ .error .waits := by
  unfold combineWith
  split
  · simp
  · split <;> simp [Node.stuck_of_inert h]

theorem combine_ready {acc : Combined} {ns : List Node} (h : ∀ n ∈ ns, n.Inert known) :
    ns.foldlM (combineWith known) acc ≠ .error .waits := by
  induction ns generalizing acc with
  | nil => exact Reading.ok_ne_waits
  | cons n ns ih =>
    obtain ⟨hn, hns⟩ := List.forall_mem_cons.mp h
    rw [List.foldlM_cons]
    exact Reading.bind_ne_waits (combineWith_ready hn) fun acc _ => ih hns

theorem collectionOf_ready {n : Node} (h : n.Inert known) :
    collectionOf known n ≠ .error .waits := by
  cases n <;> simp [collectionOf, Node.stuck_of_inert h]

theorem fieldsOf_ready {component : Component} {fields : List (String × Option String)}
    {params : List Node} (h : ∀ p ∈ params, p.Inert known) :
    fieldsOf known component fields params ≠ .error .waits := by
  induction fields generalizing params with
  | nil => exact Reading.ok_ne_waits
  | cons field fields ih =>
    obtain ⟨key, fallback⟩ := field
    cases params with
    | nil =>
      cases fallback with
      | none => exact Reading.wrong_ne_waits
      | some fallback => exact Reading.bind_ne_waits (ih h) fun _ _ => Reading.ok_ne_waits
    | cons param params =>
      obtain ⟨hp, hps⟩ := List.forall_mem_cons.mp h
      refine Reading.bind_ne_waits (tokenOf_ready hp) fun t _ => ?_
      cases component.fault? t.value with
      | some fault => exact Reading.wrong_ne_waits
      | none => exact Reading.bind_ne_waits (ih hps) fun _ _ => Reading.ok_ne_waits

end

/-! ### What is made of parts -/

/-- Whether a condition holds of nodes exactly if it holds of their parts, calls aside. -/
structure Node.Closed (N : Node → Prop) : Prop where
  token : ∀ t, N (.token t)
  array : ∀ {is : List Node} {o : Origin}, N (.array is o) ↔ ∀ i ∈ is, N i
  block : ∀ {es : List (Token × Node)} {o : Origin}, N (.block es o) ↔ ∀ e ∈ es, N e.2

theorem Node.closed_inert {known : String → Bool} : Node.Closed (Node.Inert known) :=
  ⟨inert_token, inert_array, inert_block⟩

/-- Whether a condition holds of what has been combined. -/
def Library.Combined.All (N : Node → Prop) : Combined → Prop
  | .nothing => True
  | .items ns => ∀ n ∈ ns, N n
  | .entries es => ∀ e ∈ es, N e.2

section

variable {known : String → Bool} {N : Node → Prop} (hN : Node.Closed N)
include hN

theorem combineWith_all {acc acc' : Combined} {n : Node} (hacc : acc.All N) (hn : N n)
    (h : combineWith known acc n = .ok acc') : acc'.All N := by
  unfold combineWith at h
  split at h
  · exact Except.ok.inj h ▸ hacc
  · split at h
    · exact Except.ok.inj h ▸ hN.array.mp hn
    · exact Except.ok.inj h ▸ List.forall_mem_append.mpr ⟨hacc, hN.array.mp hn⟩
    · exact Except.ok.inj h ▸ Entries.forall_overlay (by simp) (hN.block.mp hn)
    · exact Except.ok.inj h ▸ Entries.forall_overlay hacc (hN.block.mp hn)
    · exact absurd h Reading.error_ne_ok

theorem combine_all {acc acc' : Combined} {ns : List Node} (hacc : acc.All N)
    (hns : ∀ n ∈ ns, N n) (h : ns.foldlM (combineWith known) acc = .ok acc') : acc'.All N := by
  induction ns generalizing acc with
  | nil => exact Except.ok.inj h ▸ hacc
  | cons n ns ih =>
    obtain ⟨hn, hns⟩ := List.forall_mem_cons.mp hns
    rw [List.foldlM_cons] at h
    obtain ⟨acc'', hacc'', h⟩ := Reading.bind_eq_ok.mp h
    exact ih (combineWith_all hN hacc hn hacc'') hns h

omit hN in
/-- The values of a record are tokens. -/
theorem fieldsOf_all (htoken : ∀ t, N (.token t)) {component : Component}
    {fields : List (String × Option String)} {params : List Node} {es : Entries Token Node}
    (h : fieldsOf known component fields params = .ok es) : ∀ e ∈ es, N e.2 := by
  induction fields generalizing params es with
  | nil =>
    rw [← Except.ok.inj h]
    simp
  | cons field fields ih =>
    obtain ⟨key, fallback⟩ := field
    have hrest : ∀ {params : List Node} {t : Token},
        (fieldsOf known component fields params >>= fun es => pure ((.key key, .token t) :: es)) =
          .ok es → ∀ e ∈ es, N e.2 := by
      intro params t h
      obtain ⟨es', hes', h⟩ := Reading.bind_eq_ok.mp h
      rw [← Except.ok.inj h]
      exact List.forall_mem_cons.mpr ⟨htoken t, ih hes'⟩
    cases params with
    | nil =>
      cases fallback with
      | none => exact absurd h Reading.error_ne_ok
      | some fallback => exact hrest h
    | cons param params =>
      obtain ⟨t, -, h⟩ := Reading.bind_eq_ok.mp h
      cases hfault : component.fault? t.value with
      | some fault =>
        simp only [hfault] at h
        exact absurd h Reading.error_ne_ok
      | none =>
        simp only [hfault] at h
        exact hrest h

omit hN in
theorem collectionOf_all {n m : Node} (h : collectionOf known n = .ok m) (hn : N n) : N m := by
  cases n with
  | array is o => exact Except.ok.inj h ▸ hn
  | block es o => exact Except.ok.inj h ▸ hn
  | _ => exact absurd h Reading.error_ne_ok

theorem all_without {n : Node} (hn : N n) (removed : List Token) : N (n.without removed) := by
  cases n with
  | array is o =>
    exact hN.array.mpr fun i hi => hN.array.mp hn i (List.mem_filter.mp hi).1
  | block es o =>
    exact hN.block.mpr fun e he => hN.block.mp hn e (Library.mem_of_withoutKeys he)
  | _ => exact hn

end

/-! ### The functions of the language -/

/-- **Whether a meaning does not depend on where anything stands**, but for the file of the call. -/
structure Meaning.Placeless {α : Type} [Bare α] (m : Meaning α) : Prop where
  read : ∀ known ps, m.read known (bare ps) = bare (m.read known ps)
  give : ∀ w o r, Alike (m.give w o [] r) (m.give w o.bare [] (bare r))

namespace Meaning

section

variable {α : Type} [Bare α] {m : Meaning α} (hm : m.Placeless)
include hm

theorem Placeless.waits_bare (known : String → Bool) (ps : List Node) :
    m.read known (bare ps) = .error .waits ↔ m.read known ps = .error .waits := by
  rw [hm.read]
  cases m.read known ps <;> simp

/-- **The outcome of a call where nothing is bound** is that of its bare form. -/
theorem Placeless.outcome (known : String → Bool) (w : World) (call : Call) :
    Alike (m.outcome known w call [])
      (m.outcome known w ⟨call.function, bare call.params, call.origin.bare⟩ []) := by
  rw [Meaning.outcome, Meaning.outcome, hm.read]
  cases m.read known call.params with
  | ok r => exact hm.give w call.origin r
  | error e => cases e <;> rfl

end

theorem placeless_assetWith (text : World → String → String) : (assetWith text).Placeless where
  read known ps := by
    match ps with
    | [] => rfl
    | [path] => exact tokenOf_bare known path
    | _ :: _ :: _ => rfl
  give _ _ _ := rfl

theorem placeless_concatenate : concatenate.Placeless where
  read known ps := tokensOf_bare known ps
  give w o ts := by
    have hvalues : (bare ts).map (·.value) = ts.map (·.value) := by
      simp [bare_list, bare_key, Function.comp_def]
    simp only [concatenate, hvalues]
    rfl

theorem placeless_join : join.Placeless where
  read known ps := by
    cases ps with
    | nil => rfl
    | cons separator items =>
      simp only [join, bare_cons, tokenOf_bare, textsOfAll_bare]
      refine (Reading.bare_bind fun t => ?_).symm
      cases textsOfAll known items with
      | ok xs => exact congrArg (fun ys => Except.ok (bare t, ys)) (bare_strings xs)
      | error e => rfl
  give w o r := by
    obtain ⟨t, xs⟩ := r
    rw [bare_pair, bare_strings]
    rfl

theorem placeless_combine : combine.Placeless where
  read known ps := combine_bare known .nothing ps
  give w o r := by
    cases r with
    | nothing => rfl
    | items ns => simp [combine, Alike, Node.bare_bare_list]
    | entries es => simp [combine, Alike, Node.bare_bare_entries]

theorem placeless_remove : remove.Placeless where
  read known ps := by
    cases ps with
    | nil => rfl
    | cons collection tokens =>
      simp only [remove, bare_cons, tokensOf_bare, collectionOf_bare]
      refine (Reading.bare_bind fun ts => ?_).symm
      exact Reading.bare_bind (g := fun n => pure (n, bare ts)) fun n => rfl
  give w o r := by
    obtain ⟨n, ts⟩ := r
    simp [remove, Alike, without_bare, Node.bare_bare]

theorem placeless_record (k : Library.RecordKind) : (record k).Placeless where
  read known ps := by
    have hlength : (bare ps).length = ps.length := List.length_map bare
    simp only [record, hlength]
    split
    · exact fieldsOf_bare known k.component k.fields ps
    · rfl
  give w o es := by simp [record, Alike, Node.bare_bare_entries]

theorem placeless_readBinding : readBinding.Placeless where
  read known ps := by
    cases ps with
    | nil => rfl
    | cons name others =>
      have hlength : (bare others).length = others.length := List.length_map bare
      have hhead : (bare others).head? = bare others.head? := List.head?_map
      simp only [readBinding, bare_cons, hlength, hhead, tokenOf_bare]
      split
      · exact (Reading.bare_bind (g := fun t => pure (t, bare others.head?)) fun t => rfl).symm
      · rfl
  give w o r := by
    obtain ⟨t, d⟩ := r
    cases d with
    | none => rfl
    | some d => exact (congrArg Outcome.value (Node.bare_bare d)).symm

end Meaning

/-- **What is used of a meaning.** -/
structure Meaning.Lawful {α : Type} (m : Meaning α) : Prop where
  waits_bare : ∀ known ps,
    m.read known (bare ps) = .error .waits ↔ m.read known ps = .error .waits
  ready : ∀ known ps, (∀ p ∈ ps, p.Inert known) → m.read known ps ≠ .error .waits
  gives : ∀ w o ctx r, m.give w o ctx r ≠ .pending
  closed : ∀ {N : Node → Prop} {known ps} w o {ctx : Context} {r}, Node.Closed N →
    (∀ p ∈ ps, N p) → (∀ e ∈ ctx, N e.2) → m.read known ps = .ok r →
      ∀ n ∈ (m.give w o ctx r).nodes, N n

namespace Meaning

/-- A call is pending only if it waits for something. -/
theorem Lawful.ne_pending {α : Type} {m : Meaning α} (hm : m.Lawful) {known : String → Bool}
    {w : World} {call : Call} {ctx : Context}
    (hread : m.read known call.params ≠ .error .waits) : m.outcome known w call ctx ≠ .pending := by
  rw [Meaning.outcome]
  cases hr : m.read known call.params with
  | ok r => exact hm.gives _ _ _ _
  | error e =>
    cases e with
    | waits => exact absurd hr hread
    | wrong => exact Outcome.noConfusion

/-- **The outcome of a call that waits for nothing** is a proper one, made of parts of the
parameters and of the values that are bound. -/
theorem Lawful.outcome {α : Type} {m : Meaning α} (hm : m.Lawful) {N : Node → Prop}
    (hN : Node.Closed N) {known : String → Bool} (w : World) (call : Call) {ctx : Context}
    (hps : ∀ p ∈ call.params, N p) (hctx : ∀ e ∈ ctx, N e.2)
    (hread : m.read known call.params ≠ .error .waits) :
    m.outcome known w call ctx ≠ .pending ∧ ∀ n ∈ (m.outcome known w call ctx).nodes, N n := by
  refine ⟨hm.ne_pending hread, ?_⟩
  rw [Meaning.outcome]
  cases hr : m.read known call.params with
  | ok r => exact hm.closed _ _ hN hps hctx hr
  | error e =>
    cases e with
    | waits => exact absurd hr hread
    | wrong => exact List.forall_mem_singleton.mpr (hN.token _)

theorem lawful_assetWith (text : World → String → String) : (assetWith text).Lawful where
  waits_bare := (placeless_assetWith text).waits_bare
  ready known ps h := by
    match ps with
    | [] => exact Reading.wrong_ne_waits
    | [path] => exact tokenOf_ready (h path (by simp))
    | _ :: _ :: _ => exact Reading.wrong_ne_waits
  gives _ _ _ _ := Outcome.noConfusion
  closed w o ctx r hN _ _ _ n hn := List.mem_singleton.mp hn ▸ hN.token _

theorem lawful_concatenate : concatenate.Lawful where
  waits_bare := placeless_concatenate.waits_bare
  ready _ _ h := tokensOf_ready h
  gives _ _ _ _ := Outcome.noConfusion
  closed _ _ _ _ hN _ _ _ _ hn := List.mem_singleton.mp hn ▸ hN.token _

theorem lawful_join : join.Lawful where
  waits_bare := placeless_join.waits_bare
  ready known ps h := by
    cases ps with
    | nil => exact Reading.wrong_ne_waits
    | cons separator items =>
      obtain ⟨hs, hitems⟩ := List.forall_mem_cons.mp h
      exact Reading.bind_ne_waits (tokenOf_ready hs) fun t _ =>
        Reading.bind_ne_waits (textsOfAll_ready fun i hi => textsOf_ready (hitems i hi))
          fun _ _ => Reading.ok_ne_waits
  gives _ _ _ _ := Outcome.noConfusion
  closed w o ctx r hN _ _ _ n hn := List.mem_singleton.mp hn ▸ hN.token _

theorem lawful_combine : combine.Lawful where
  waits_bare := placeless_combine.waits_bare
  ready known ps h := combine_ready h
  gives w o ctx r h := by
    cases r <;> exact Outcome.noConfusion h
  closed w o ctx r hN hps _ hr n hn := by
    have hall := combine_all hN (show Combined.All _ .nothing from trivial) hps hr
    cases r with
    | nothing => exact absurd hn (by simp [combine])
    | items ns => exact List.mem_singleton.mp hn ▸ hN.array.mpr hall
    | entries es => exact List.mem_singleton.mp hn ▸ hN.block.mpr hall

theorem lawful_remove : remove.Lawful where
  waits_bare := placeless_remove.waits_bare
  ready known ps h := by
    cases ps with
    | nil => exact Reading.wrong_ne_waits
    | cons collection tokens =>
      obtain ⟨hc, htokens⟩ := List.forall_mem_cons.mp h
      exact Reading.bind_ne_waits (tokensOf_ready htokens) fun ts _ =>
        Reading.bind_ne_waits (collectionOf_ready hc) fun _ _ => Reading.ok_ne_waits
  gives _ _ _ _ := Outcome.noConfusion
  closed {N known ps} w o ctx r hN hps _ hr n hn := by
    cases ps with
    | nil => exact absurd hr Reading.error_ne_ok
    | cons collection tokens =>
      obtain ⟨ts, -, hr⟩ := Reading.bind_eq_ok.mp hr
      obtain ⟨m, hm, hr⟩ := Reading.bind_eq_ok.mp hr
      obtain rfl : (m, ts) = r := Except.ok.inj hr
      have hmem : N m := collectionOf_all hm (hps collection (by simp))
      exact List.mem_singleton.mp hn ▸ all_without hN hmem ts

theorem lawful_record (k : Library.RecordKind) : (record k).Lawful where
  waits_bare := (placeless_record k).waits_bare
  ready known ps h := by
    simp only [record]
    split
    · exact fieldsOf_ready h
    · exact Reading.wrong_ne_waits
  gives _ _ _ _ := Outcome.noConfusion
  closed w o ctx r hN _ _ hr n hn := by
    simp only [record] at hr
    split at hr
    · exact List.mem_singleton.mp hn ▸ hN.block.mpr (fieldsOf_all hN.token hr)
    · exact absurd hr Reading.error_ne_ok

theorem lawful_readBinding : readBinding.Lawful where
  waits_bare := placeless_readBinding.waits_bare
  ready known ps h := by
    cases ps with
    | nil => exact Reading.wrong_ne_waits
    | cons name others =>
      simp only [readBinding]
      split
      · exact Reading.bind_ne_waits (tokenOf_ready (h name (by simp))) fun _ _ =>
          Reading.ok_ne_waits
      · exact Reading.wrong_ne_waits
  gives w o ctx r h := by
    simp only [readBinding] at h
    split at h
    · exact Outcome.noConfusion h
    · split at h <;> exact Outcome.noConfusion h
  closed {N known ps} w o ctx r hN hps hctx hr n hn := by
    -- The default, if there is one, is a parameter.
    have hfallback : ∀ fallback, r.2 = some fallback → N fallback := by
      intro fallback hf
      cases ps with
      | nil => exact absurd hr Reading.error_ne_ok
      | cons name others =>
        simp only [readBinding] at hr
        split at hr
        · obtain ⟨t, -, hr⟩ := Reading.bind_eq_ok.mp hr
          rw [← Except.ok.inj hr] at hf
          exact hps fallback (List.mem_cons_of_mem _ (List.mem_of_head? hf))
        · exact absurd hr Reading.error_ne_ok
    simp only [readBinding] at hn
    split at hn
    next value hvalue =>
      obtain ⟨e, he, rfl⟩ := Context.mem_of_get? hvalue
      exact List.mem_singleton.mp hn ▸ hctx e he
    next =>
      split at hn
      next fallback hf => exact List.mem_singleton.mp hn ▸ hfallback fallback hf
      next => exact List.mem_singleton.mp hn ▸ hN.token _

end Meaning

end ContentLang
