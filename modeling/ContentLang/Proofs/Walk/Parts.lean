import ContentLang.Proofs.Nodes.Bare
import ContentLang.Proofs.Walk.Meets
import ContentLang.Reduce

/-!
# The parts of a node

A node is reduced by reducing its parts, one after the other, and putting what they give
together: parameters one by one, the items of a sequence into what takes their place, the
entries of a block into those that are left of them. What is known of the parts is known of
the whole if it is known **listwise** (`ContentLang.Listwise`): a relation `Q` between a part
and what it gives, and a relation `R` between the parts and all that they give.

The lemmas say how this comes about for any way to reduce the parts that meets such a `Q`. They
are used for each of the walks that are looked at: nodes that stay as they are, the loading
pass, and both passes over nodes that are values.
-/

namespace ContentLang

/-- **Whether what members give adds up** to what their list gives. -/
structure Listwise {α β : Type} (Q : α → List β → Prop) (R : List α → List β → Prop) : Prop where
  nil : R [] []
  cons : ∀ {a l as bs}, Q a l → R as bs → R (a :: as) (l ++ bs)

/-- Members that stay as they are. -/
theorem listwise_alike {α : Type} [Bare α] :
    Listwise (fun (a : α) l => ∃ b, l = [b] ∧ Alike a b) Alike where
  nil := .refl []
  cons := by
    rintro a _ as bs ⟨b, rfl, hab⟩ h
    exact alike_cons_iff.mpr ⟨b, bs, rfl, hab, h⟩

/-- Members that give what satisfies a condition. -/
theorem listwise_forall {α β : Type} (P : β → Prop) :
    Listwise (fun (_ : α) l => ∀ b ∈ l, P b) fun _ bs => ∀ b ∈ bs, P b where
  nil := by simp
  cons hl hbs := List.forall_mem_append.mpr ⟨hl, hbs⟩

/-- Members that give one thing each, as it goes with them. -/
theorem listwise_zip {α β : Type} (X : α → β → Prop) :
    Listwise (fun a l => ∃ b, l = [b] ∧ X a b) fun as bs =>
      as.length = bs.length ∧ ∀ e ∈ as.zip bs, X e.1 e.2 where
  nil := by simp
  cons := by
    rintro a _ as bs ⟨b, rfl, hab⟩ ⟨hlength, h⟩
    exact ⟨congrArg Nat.succ hlength, List.forall_mem_cons.mpr ⟨hab, h⟩⟩

/-- **What is left of members** each of which turns into another thing, as `X` says, or is left
out, in which case `Z` holds of it. -/
inductive Sifted {α β : Type} (X : α → β → Prop) (Z : α → Prop) : List α → List β → Prop
  | nil : Sifted X Z [] []
  | keep {a : α} {b : β} {as : List α} {bs : List β} (h : X a b) (hs : Sifted X Z as bs) :
    Sifted X Z (a :: as) (b :: bs)
  | drop {a : α} {as : List α} {bs : List β} (h : Z a) (hs : Sifted X Z as bs) :
    Sifted X Z (a :: as) bs

section

variable {α β γ : Type} {X : α → β → Prop} {Z : α → Prop} {as : List α} {bs : List β}

/-- Members that give one thing each, or nothing. -/
theorem listwise_sifted :
    Listwise (fun a l => (∃ b, l = [b] ∧ X a b) ∨ l = [] ∧ Z a) (Sifted X Z) where
  nil := .nil
  cons := by
    rintro a l as bs (⟨b, rfl, hab⟩ | ⟨rfl, ha⟩) h
    · exact .keep hab h
    · exact .drop ha h

theorem Sifted.exists_of_mem (h : Sifted X Z as bs) {b : β} (hb : b ∈ bs) : ∃ a ∈ as, X a b := by
  induction h with
  | nil => exact absurd hb (by simp)
  | keep hab hs ih =>
    rcases List.mem_cons.mp hb with rfl | hb
    · exact ⟨_, by simp, hab⟩
    · obtain ⟨a, ha, hab⟩ := ih hb
      exact ⟨a, List.mem_cons_of_mem _ ha, hab⟩
  | drop _ hs ih =>
    obtain ⟨a, ha, hab⟩ := ih hb
    exact ⟨a, List.mem_cons_of_mem _ ha, hab⟩

/-- What is left out counts for nothing. -/
theorem Sifted.filterMap_eq (h : Sifted X Z as bs) {f : α → Option γ} {g : β → Option γ}
    (hX : ∀ a ∈ as, ∀ b, X a b → g b = f a) (hZ : ∀ a ∈ as, Z a → f a = none) :
    bs.filterMap g = as.filterMap f := by
  induction h with
  | nil => rfl
  | keep hab hs ih =>
    obtain ⟨ha, has⟩ := List.forall_mem_cons.mp hX
    rw [List.filterMap_cons, List.filterMap_cons, ha _ hab,
      ih has (List.forall_mem_cons.mp hZ).2]
  | drop hz hs ih =>
    obtain ⟨ha, hZ⟩ := List.forall_mem_cons.mp hZ
    rw [List.filterMap_cons_none (ha hz), ih (List.forall_mem_cons.mp hX).2 hZ]

/-- Where nothing is left out, members match one by one. -/
theorem Sifted.map_eq (h : Sifted X (fun _ => False) as bs) {f : α → γ} {g : β → γ}
    (hX : ∀ a ∈ as, ∀ b, X a b → g b = f a) : bs.map g = as.map f := by
  rw [← List.filterMap_eq_map, ← List.filterMap_eq_map]
  exact h.filterMap_eq (fun a ha b hab => congrArg some (hX a ha b hab)) fun _ _ h => h.elim

end

namespace Outcome

/-- The outcome of a value as entries under a key. -/
def toEntries? (k : Token) (o : Origin) : Outcome → Option (List (Token × Node))
  | value n => some [(k, n)]
  | empty => some []
  | splice items => some [(k, .array items o)]
  | pending => none

/-! Only what is pending gives nothing to put in the place of a part. -/

variable {outcome : Outcome} {origin : Origin}

theorem toNode?_eq_none : outcome.toNode? origin = none ↔ outcome = .pending := by
  cases outcome <;> simp [toNode?]

theorem toItems?_eq_none : outcome.toItems? = none ↔ outcome = .pending := by
  cases outcome <;> simp [toItems?]

theorem toEntries?_eq_none {k : Token} :
    outcome.toEntries? k origin = none ↔ outcome = .pending := by
  cases outcome <;> simp [toEntries?]

theorem toNode?_of_ready (h : outcome ≠ .pending) (origin : Origin) :
    ∃ n, outcome.toNode? origin = some n :=
  Option.ne_none_iff_exists'.mp (mt toNode?_eq_none.mp h)

theorem toItems?_of_ready (h : outcome ≠ .pending) : ∃ items, outcome.toItems? = some items :=
  Option.ne_none_iff_exists'.mp (mt toItems?_eq_none.mp h)

theorem toEntries?_of_ready (h : outcome ≠ .pending) (k : Token) (origin : Origin) :
    ∃ es, outcome.toEntries? k origin = some es :=
  Option.ne_none_iff_exists'.mp (mt toEntries?_eq_none.mp h)

theorem ofItems_ne_pending (items : List Node) : ofItems items ≠ .pending := by
  match items with
  | [] => exact Outcome.noConfusion
  | [_] => exact Outcome.noConfusion
  | _ :: _ :: _ => exact Outcome.noConfusion

end Outcome

namespace Reduce

open Walk

/-- What is not pending is not kept. -/
theorem orKept_of_ready {outcome : Outcome} (h : outcome ≠ .pending) (env : Surroundings)
    (node : Node) (ctx : Context) : orKept env outcome node ctx = pure outcome := by
  cases outcome with
  | pending => exact absurd rfl h
  | _ => rfl

/-- What a call gives as an element of a sequence, and after it what comes next. -/
def elementAnd (env : Surroundings) (rec : Reducer) (ctx : Context) (call : Node)
    (next : Walk (Option (List Node) × Context)) : Walk (Option (List Node) × Context) := do
  let outcome ← orKept env (← rec env call ctx) call ctx
  match outcome.toItems? with
  | none => return (none, ctx)
  | some items =>
    let (more, ctx) ← next
    return (more.map (items ++ ·), ctx)

/-- The data after a call is the next element, if the call takes no data. -/
theorem element_statement (env : Surroundings) (rec : Reducer) (ctx : Context) (f : String)
    (ps : List Node) (o : Origin) (data : Node) :
    element env rec ctx (.statement f ps o data) =
      if f = setName then bind env rec ⟨f, ps, o⟩ ctx >>= fun ctx => element env rec ctx data
      else if takesNoData env f then
        if f ≠ includeName then remarkTrailing ⟨f, ps, o⟩ >>= fun _ =>
          elementAnd env rec ctx (.call f ps o) (element env rec ctx data)
        else elementAnd env rec ctx (.call f ps o) (element env rec ctx data)
      else plainElement env rec ctx (.statement f ps o data) := by
  rw [element]
  rfl

/-- What a binding leaves in a sequence is the context for what comes after it. -/
theorem elements_binding (env : Surroundings) (rec : Reducer) (ctx : Context) (ps : List Node)
    (o : Origin) (ns : List Node) :
    elements env rec ctx (.call setName ps o :: ns) =
      bind env rec ⟨setName, ps, o⟩ ctx >>= fun c => elements env rec c ns := by
  have hmap : ∀ r : Option (List Node), r.map (([] : List Node) ++ ·) = r := by
    intro r
    rcases r with _ | items
    · rfl
    · rfl
  rw [elements, element, if_pos rfl, bind_assoc]
  congr 1
  funext c
  simp only [Walk.pure_bind, hmap]
  exact bind_pure _

/-- A file is included unless it is there already, there are too many, or it is not found. -/
theorem includeFile_eq (env : Surroundings) (rec : Reducer) (call : Call) (file : String)
    (ctx : Context) :
    includeFile env rec call file ctx =
      if env.files.contains file then notIncluded call (.includeCycle (env.files ++ [file]))
      else if env.settings.maxIncludeDepth < env.files.length then
        notIncluded call (.includeDepth env.settings.maxIncludeDepth)
      else Walk.askFile env.host file >>= fun text =>
        text.elim (notIncluded call (.includeNotFound file)) fun text =>
          includeText env rec call file text ctx := by
  unfold includeFile
  refine ite_congr rfl (fun _ => rfl) fun _ => ite_congr rfl (fun _ => rfl) fun _ => ?_
  congr 1
  funext text
  cases text <;> rfl

/-- While loading a node is reduced in the context given. -/
theorem visit_loading {env : Surroundings} (hlate : env.late = false) (rec : Reducer) (node : Node)
    (ctx : Context) : visit env rec node ctx = rec env node ctx := by
  simp [visit, contextOf, hlate]

section

variable {T : Terms} {ends : Prop} {env : Surroundings} {rec : Reducer} {ctx : Context}

/-! ### Parameters and data -/

section

variable {Q : Node → List Node → Prop} {R : List Node → List Node → Prop} {ps : List Node}
  (hR : Listwise Q R)
  (hps : ∀ p ∈ ps, Meets T ends (fun o => ∃ q, o.toNode? p.origin = some q ∧ Q p [q])
    (visit env rec p ctx))
include hR hps

theorem meets_reduceParams :
    Meets T ends (fun r => ∃ qs, r = some qs ∧ R ps qs) (reduceParams env rec ctx ps) := by
  induction ps with
  | nil => exact meets_pure ⟨[], rfl, hR.nil⟩
  | cons p ps ih =>
    obtain ⟨hp, hps⟩ := List.forall_mem_cons.mp hps
    refine meets_bind hp fun o ho => ?_
    obtain ⟨q, hq, hpq⟩ := ho
    simp only [hq]
    refine meets_map (ih hps) fun r hr => ?_
    obtain ⟨qs, rfl, hqs⟩ := hr
    exact ⟨q :: qs, rfl, hR.cons hpq hqs⟩

theorem meets_reduceCallParams (f : String) (o : Origin) :
    Meets T ends (fun r => ∃ qs, r = some ⟨f, qs, { o with context := ctx }⟩ ∧ R ps qs)
      (reduceCallParams env rec ⟨f, ps, o⟩ ctx) := by
  refine meets_map (meets_reduceParams hR hps) fun r hr => ?_
  obtain ⟨qs, rfl, hqs⟩ := hr
  exact ⟨qs, rfl, hqs⟩

theorem meets_keepCall (f : String) (o : Origin) :
    Meets T ends
      (fun out => ∃ qs, out = .value (.call f qs { o with context := ctx }) ∧ R ps qs)
      (keepCall env rec ⟨f, ps, o⟩ none ctx) := by
  refine meets_bind (meets_reduceCallParams hR hps f o) fun r hr => ?_
  obtain ⟨qs, rfl, hqs⟩ := hr
  exact meets_pure ⟨qs, rfl, hqs⟩

theorem meets_keepStatement (f : String) (o : Origin) {data : Node} {D : Node → Prop}
    (hdata : Meets T ends (fun out => ∃ d, out.toNode? data.origin = some d ∧ D d)
      (visit env rec data ctx)) :
    Meets T ends
      (fun out => ∃ qs d, out = .value (.statement f qs { o with context := ctx } d) ∧
        R ps qs ∧ D d)
      (keepCall env rec ⟨f, ps, o⟩ (some data) ctx) := by
  refine meets_bind (meets_reduceCallParams hR hps f o) fun r hr => ?_
  obtain ⟨qs, rfl, hqs⟩ := hr
  refine meets_bind hdata fun out hout => ?_
  obtain ⟨d, hd, hD⟩ := hout
  simp only [hd]
  exact meets_pure ⟨qs, d, rfl, hqs, hD⟩

end

/-! ### Entries -/

theorem meets_entries {Q : Token × Node → List (Token × Node) → Prop}
    {R : List (Token × Node) → List (Token × Node) → Prop} {es : List (Token × Node)}
    (hR : Listwise Q R)
    (hes : ∀ e ∈ es, Meets T ends
      (fun o => ∃ l, o.toEntries? e.1 e.2.origin = some l ∧ Q e l) (visit env rec e.2 ctx)) :
    Meets T ends (fun r => ∃ fs, r = some fs ∧ R es fs) (entries env rec ctx es) := by
  induction es with
  | nil => exact meets_pure ⟨[], rfl, hR.nil⟩
  | cons e es ih =>
    obtain ⟨k, n⟩ := e
    obtain ⟨he, hes⟩ := List.forall_mem_cons.mp hes
    refine meets_bind he fun o ho => ?_
    obtain ⟨l, hl, hQ⟩ := ho
    have hready : o ≠ .pending := by
      rintro rfl
      exact nomatch hl
    rw [orKept_of_ready hready]
    cases o with
    | pending => exact absurd rfl hready
    | empty =>
      obtain rfl : [] = l := Option.some.inj hl
      refine (ih hes).imp fun r hr => ?_
      obtain ⟨fs, rfl, hfs⟩ := hr
      exact ⟨fs, rfl, hR.cons hQ hfs⟩
    | value m =>
      obtain rfl : [(k, m)] = l := Option.some.inj hl
      refine meets_map (ih hes) fun r hr => ?_
      obtain ⟨fs, rfl, hfs⟩ := hr
      exact ⟨(k, m) :: fs, rfl, hR.cons hQ hfs⟩
    | splice items =>
      obtain rfl : [(k, .array items n.origin)] = l := Option.some.inj hl
      refine meets_map (ih hes) fun r hr => ?_
      obtain ⟨fs, rfl, hfs⟩ := hr
      exact ⟨(k, .array items n.origin) :: fs, rfl, hR.cons hQ hfs⟩

/-! ### Sequences -/

/-- An element that is reduced as it stands. -/
theorem meets_plainElement {P : List Node → Prop} {n : Node}
    (hn : Meets T ends (fun o => ∃ l, o.toItems? = some l ∧ P l) (visit env rec n ctx)) :
    Meets T ends (fun r => ∃ l, r = (some l, ctx) ∧ P l) (plainElement env rec ctx n) := by
  refine meets_bind hn fun o ho => ?_
  obtain ⟨l, hl, hP⟩ := ho
  have hready : o ≠ .pending := by
    rintro rfl
    exact nomatch hl
  rw [orKept_of_ready hready]
  exact meets_pure ⟨l, by rw [hl], hP⟩

/-- Elements none of which binds anything. -/
theorem meets_elements {Q : Node → List Node → Prop} {R : List Node → List Node → Prop}
    {ns : List Node} (hR : Listwise Q R)
    (hns : ∀ n ∈ ns, Meets T ends (fun r => ∃ l, r = (some l, ctx) ∧ Q n l)
      (element env rec ctx n)) :
    Meets T ends (fun r => ∃ ms, r = some ms ∧ R ns ms) (elements env rec ctx ns) := by
  induction ns with
  | nil => exact meets_pure ⟨[], rfl, hR.nil⟩
  | cons n ns ih =>
    obtain ⟨hn, hns⟩ := List.forall_mem_cons.mp hns
    refine meets_bind hn fun r hr => ?_
    obtain ⟨l, rfl, hl⟩ := hr
    refine meets_map (ih hns) fun r hr => ?_
    obtain ⟨ms, rfl, hms⟩ := hr
    exact ⟨l ++ ms, rfl, hR.cons hl hms⟩

end

end Reduce

end ContentLang
