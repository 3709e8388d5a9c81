import ContentLang.Proofs.Walk.Parts

/-!
# Nothing is pending while content is loaded

In the loading pass what is not ready is kept, so no outcome is pending there: not of any node,
in any context, with any functions and within any files (`ContentLang.Reduce.never_pending`). A
function may give a pending outcome, and a parameter that has to be a token may be one that is
waited for; but the call that they belong to is kept then.
-/

namespace ContentLang

open Walk

namespace Reduce

/-- Whether a walk of the loading pass gives only what `P` holds of. Nothing else is said of it,
and nothing is relied on. -/
abbrev Gives {α : Type} (P : α → Prop) (m : Walk α) : Prop := Meets .any False P m

/-- Whether a walk gives no pending outcome. -/
abbrev Ready (m : Walk Outcome) : Prop := Gives (· ≠ .pending) m

/-- Every walk gives something. -/
theorem gives_any {α : Type} (m : Walk α) : Gives (fun _ => True) m :=
  fun _ _ => ⟨fun h => h.elim, fun _ _ => trivial, fun h => h.elim, fun _ _ => trivial⟩

/-- What a run comes to is as the walk makes it. -/
theorem gives_answer {α : Type} {P : α → Prop} {m : Walk α} (h : Gives P m) {s : WalkState} {a : α}
    (ha : (m s).answer = .ok a) : P a :=
  (h s fun _ _ => trivial).answer a ha

/-- What comes after any walk. -/
theorem gives_after {α β : Type} {P : β → Prop} {m : Walk α} {f : α → Walk β}
    (h : ∀ a, Gives P (f a)) : Gives P (m >>= f) :=
  meets_bind (gives_any m) fun a _ => h a

/-- **Whether a way to reduce nodes comes to no pending outcome** in the loading pass. -/
def ReadyReducer (rec : Reducer) : Prop :=
  ∀ env : Surroundings, env.late = false → ∀ (node : Node) (ctx : Context),
    Ready (rec env node ctx)

/-- Lists of whose members nothing is known. -/
theorem listwise_any {α β : Type} :
    Listwise (fun (_ : α) (_ : List β) => True) fun _ _ => True :=
  ⟨trivial, fun _ _ => trivial⟩

section

variable {rec : Reducer} (hrec : ReadyReducer rec) {env : Surroundings} (henv : env.late = false)
  {ctx : Context}
include hrec henv

/-! ### Parts -/

theorem ready_visit (n : Node) : Ready (visit env rec n ctx) := hrec env henv n _

theorem ready_param (p : Node) :
    Gives (fun o => ∃ q, o.toNode? p.origin = some q ∧ True) (visit env rec p ctx) :=
  (ready_visit hrec henv p).imp fun _ ho =>
    (Outcome.toNode?_of_ready ho p.origin).imp fun _ hq => ⟨hq, trivial⟩

theorem ready_reduceCallParams (c : Call) :
    Gives (fun r => ∃ processed, r = some processed) (reduceCallParams env rec c ctx) := by
  obtain ⟨f, ps, o⟩ := c
  refine (meets_reduceCallParams listwise_any (fun p _ => ready_param hrec henv p) f o).imp
    fun r hr => ?_
  obtain ⟨qs, rfl, -⟩ := hr
  exact ⟨_, rfl⟩

theorem ready_keepCall (c : Call) (data : Option Node) :
    Ready (keepCall env rec c data ctx) := by
  refine meets_bind (ready_reduceCallParams hrec henv c) fun r hr => ?_
  obtain ⟨processed, rfl⟩ := hr
  rcases data with _ | data
  · exact meets_pure Outcome.noConfusion
  · refine meets_bind (ready_param hrec henv data) fun out hout => ?_
    obtain ⟨d, hd, -⟩ := hout
    simp only [hd]
    exact meets_pure Outcome.noConfusion

theorem ready_withTrailing {outcome : Outcome} (ho : outcome ≠ .pending) (data : Option Node) :
    Ready (withTrailing env rec outcome data ctx) := by
  rcases data with _ | data
  · exact meets_pure ho
  · refine meets_bind (ready_visit hrec henv data) fun trailing htrailing => ?_
    obtain ⟨items, hitems⟩ := Outcome.toItems?_of_ready ho
    obtain ⟨more, hmore⟩ := Outcome.toItems?_of_ready htrailing
    simp only [hitems, hmore]
    exact meets_pure (Outcome.ofItems_ne_pending _)

/-! ### Calls -/

/-- A call of a function that gives a pending outcome is kept. -/
theorem ready_callFunction (function : Function) (c : Call) :
    Ready (callFunction env rec function c ctx) := by
  unfold callFunction
  by_cases hlate : function.late = true
  · simp only [hlate, henv, if_true, Bool.false_eq_true, if_false]
    refine gives_after fun _ => meets_bind (ready_reduceCallParams hrec henv c) fun r hr => ?_
    obtain ⟨processed, rfl⟩ := hr
    exact meets_pure Outcome.noConfusion
  · simp only [hlate, henv, Bool.false_eq_true, if_false, Bool.not_false, Bool.and_true]
    refine meets_bind (ready_reduceCallParams hrec henv c) fun r hr => ?_
    obtain ⟨processed, rfl⟩ := hr
    refine gives_after fun out => meets_ite (fun _ => ?_) fun hready => meets_pure ?_
    · exact gives_after fun _ => meets_pure Outcome.noConfusion
    · rintro rfl
      exact hready rfl

theorem ready_callNamed (c : Call) (data : Option Node) :
    Ready (callNamed env rec c data ctx) := by
  unfold callNamed
  rcases Registry.get? env.registry c.function with _ | function
  · exact gives_after fun _ => ready_keepCall hrec henv c data
  · refine meets_bind (ready_callFunction hrec henv function c) fun out hout => ?_
    have htrailing : Ready (withTrailing env rec out data ctx) :=
      ready_withTrailing hrec henv hout data
    exact meets_ite (fun _ => gives_after fun _ => htrailing) fun _ => htrailing

theorem ready_conditional (c : Call) (data : Option Node) :
    Ready (conditional env rec c data ctx) := by
  unfold conditional
  split
  · refine gives_after fun x => ?_
    rcases x with (n | _ | items | _) | t
    · exact meets_pure Outcome.noConfusion
    · exact meets_pure Outcome.noConfusion
    · exact meets_pure Outcome.noConfusion
    · simp only [henv, Bool.false_eq_true, if_false]
      exact gives_after fun _ => ready_keepCall hrec henv c data
    · refine meets_ite (fun _ => ?_) fun _ => meets_pure Outcome.noConfusion
      rcases data with _ | data
      · exact gives_after fun _ => meets_pure Outcome.noConfusion
      · exact ready_visit hrec henv data
  · exact gives_after fun _ => meets_pure Outcome.noConfusion

/-! ### Sequences -/

theorem ready_plainElement (n : Node) :
    Gives (fun r => ∃ items, r.1 = some items) (plainElement env rec ctx n) := by
  have hvisit : Gives (fun o => ∃ l, o.toItems? = some l ∧ True) (visit env rec n ctx) :=
    (ready_visit hrec henv n).imp fun _ ho =>
      (Outcome.toItems?_of_ready ho).imp fun _ hl => ⟨hl, trivial⟩
  refine (meets_plainElement hvisit).imp fun r hr => ?_
  obtain ⟨l, rfl, -⟩ := hr
  exact ⟨l, rfl⟩

theorem ready_element (n : Node) :
    Gives (fun r => ∃ items, r.1 = some items) (element env rec ctx n) := by
  induction n generalizing ctx with
  | token t => exact ready_plainElement hrec henv _
  | block es o => exact ready_plainElement hrec henv _
  | array is o => exact ready_plainElement hrec henv _
  | call f ps o =>
    rw [element]
    exact meets_ite (fun _ => gives_after fun _ => meets_pure ⟨[], rfl⟩) fun _ =>
      ready_plainElement hrec henv _
  | statement f ps o data _ ihdata =>
    have htail : Gives (fun r => ∃ items, r.1 = some items)
        (elementAnd env rec ctx (.call f ps o) (element env rec ctx data)) := by
      refine meets_bind (hrec env henv (.call f ps o) ctx) fun out hout => ?_
      rw [orKept_of_ready hout]
      obtain ⟨items, hitems⟩ := Outcome.toItems?_of_ready hout
      simp only [Walk.pure_bind, hitems]
      refine meets_map ihdata fun r hr => ?_
      obtain ⟨more, hmore⟩ := hr
      exact ⟨items ++ more, by rw [hmore]; rfl⟩
    rw [element_statement]
    refine meets_ite (fun _ => gives_after fun _ => ihdata) fun _ => meets_ite (fun _ => ?_)
      fun _ => ready_plainElement hrec henv _
    exact meets_ite (fun _ => gives_after fun _ => htail) fun _ => htail

theorem ready_elements (ns : List Node) :
    Gives (fun r => ∃ items, r = some items) (elements env rec ctx ns) := by
  induction ns generalizing ctx with
  | nil => exact meets_pure ⟨[], rfl⟩
  | cons n ns ih =>
    refine meets_bind (ready_element hrec henv n) fun r hr => ?_
    obtain ⟨items, ctx'⟩ := r
    obtain ⟨l, hl⟩ := hr
    obtain rfl : items = some l := hl
    refine meets_map ih fun r hr => ?_
    obtain ⟨ms, rfl⟩ := hr
    exact ⟨l ++ ms, rfl⟩

theorem ready_entries (es : List (Token × Node)) :
    Gives (fun r => ∃ fs, r = some fs ∧ True) (entries env rec ctx es) :=
  meets_entries listwise_any fun e _ => (ready_visit hrec henv e.2).imp fun _ ho =>
    (Outcome.toEntries?_of_ready ho e.1 e.2.origin).imp fun _ hes => ⟨hes, trivial⟩

/-! ### Includes -/

omit hrec henv in
theorem ready_notIncluded (c : Call) (problem : Problem) : Ready (notIncluded c problem) :=
  gives_after fun _ => meets_pure Outcome.noConfusion

omit hrec henv in
theorem spliced_ne_pending (items : List Node) : spliced items ≠ .pending := by
  unfold spliced
  split
  · exact Outcome.noConfusion
  · exact Outcome.ofItems_ne_pending _

/-- An outcome in place of overrides is there. -/
theorem ready_overrides (c : Call) (params : List Node) :
    Gives (fun r => ∀ out, r = .error out → out ≠ .pending) (overrides env rec c ctx params) := by
  let P (r : Except Outcome (List (Token × Node))) : Prop := ∀ out, r = .error out → out ≠ .pending
  have hwrong : ∀ (param : Node) (found : Kind),
      Gives P (do return .error (← overrides.wrong c param found)) := by
    refine fun param found => meets_map (P := (· ≠ .pending))
      (gives_after fun _ => meets_pure Outcome.noConfusion) fun out hout out' hout' => ?_
    obtain rfl : out = out' := Except.error.inj hout'
    exact hout
  rcases params with _ | ⟨param, others⟩
  · exact meets_pure fun out h => absurd h (by simp)
  · refine meets_bind (ready_visit hrec henv param) fun out hout => ?_
    rcases out with n | _ | items | _
    · have hnull : Gives P (if n.isNull then return .ok [] else
          return .error (← overrides.wrong c param n.kind)) :=
        meets_ite (fun _ => meets_pure fun out h => absurd h (by simp)) fun _ => hwrong param n.kind
      cases n with
      | block es o => exact meets_pure fun out h => absurd h (by simp)
      | token t => exact hnull
      | call f ps o => exact hnull
      | statement f ps o d => exact hnull
      | array is o => exact hnull
    · exact hwrong param .nothing
    · exact hwrong param .array
    · exact absurd rfl hout

theorem ready_includeFile (c : Call) (file : String) :
    Ready (includeFile env rec c file ctx) := by
  have hwithin : (env.within file).late = false := henv
  refine meets_ite (fun _ => ready_notIncluded c _) fun _ =>
    meets_ite (fun _ => ready_notIncluded c _) fun _ => gives_after fun text => ?_
  rcases text with _ | text
  · exact ready_notIncluded c _
  · refine gives_after fun _ => gives_after fun _ =>
      meets_bind (ready_elements hrec hwithin _) fun r hr => ?_
    obtain ⟨items, rfl⟩ := hr
    exact meets_pure (spliced_ne_pending items)

theorem ready_includeCall (c : Call) : Ready (includeCall env rec c ctx) := by
  unfold includeCall
  split
  · exact ready_notIncluded c _
  · refine meets_ite (fun _ => ready_notIncluded c _) fun _ => gives_after fun x => ?_
    rcases x with (n | _ | items | _) | t
    · exact meets_pure Outcome.noConfusion
    · exact meets_pure Outcome.noConfusion
    · exact meets_pure Outcome.noConfusion
    · simp only [henv, Bool.false_eq_true, if_false]
      exact gives_after fun _ => ready_keepCall hrec henv c none
    · refine meets_bind (ready_overrides hrec henv c _) fun r hr => ?_
      rcases r with out | es
      · exact meets_pure (hr out rfl)
      · exact ready_includeFile hrec henv c _

/-! ### One node -/

theorem ready_call (c : Call) (data : Option Node) : Ready (call env rec c data ctx) := by
  unfold call
  refine meets_ite (fun _ => ?_) fun _ => meets_ite (fun _ => ready_conditional hrec henv c data)
    fun _ => meets_ite (fun _ => ?_) fun _ => ready_callNamed hrec henv c data
  · exact meets_bind (ready_includeCall hrec henv c) fun out hout =>
      ready_withTrailing hrec henv hout data
  · refine gives_after fun ctx' => ?_
    rcases data with _ | data
    · exact meets_pure Outcome.noConfusion
    · exact ready_visit hrec henv data

end

/-- One step comes to no pending outcome, if the steps within do not. -/
theorem ready_step {rec : Reducer} (hrec : ReadyReducer rec) : ReadyReducer (step rec) := by
  intro env henv node ctx
  cases node with
  | token t => exact meets_pure Outcome.noConfusion
  | array is o =>
    refine meets_bind (ready_elements hrec henv is) fun r hr => ?_
    obtain ⟨items, rfl⟩ := hr
    exact meets_pure Outcome.noConfusion
  | block es o =>
    refine meets_bind (ready_entries hrec henv es) fun r hr => ?_
    obtain ⟨fs, rfl, -⟩ := hr
    exact meets_pure Outcome.noConfusion
  | call f ps o => exact ready_call hrec henv _ none
  | statement f ps o data => exact ready_call hrec henv _ (some data)

theorem ready_inContext (limit : Nat) : ReadyReducer (inContext limit) := by
  induction limit with
  | zero => exact fun _ _ _ _ => meets_halt _ id
  | succ limit ih => exact ready_step ih

/-- An array comes to an array. -/
theorem gives_array (limit : Nat) {env : Surroundings} (henv : env.late = false)
    (items : List Node) (o : Origin) (ctx : Context) :
    Gives (fun out => ∃ is o', out = .value (.array is o'))
      (inContext limit env (.array items o) ctx) := by
  rcases limit with _ | limit
  · exact meets_halt _ id
  · refine meets_bind (ready_elements (ready_inContext limit) henv items) fun r hr => ?_
    obtain ⟨is, rfl⟩ := hr
    exact meets_pure ⟨is, _, rfl⟩

/-- **No outcome is pending while content is loaded**, of whatever node that is reduced. -/
theorem never_pending {env : Surroundings} (henv : env.late = false) (limit : Nat) (node : Node)
    (ctx : Context) (s : WalkState) :
    (inContext limit env node ctx s).answer ≠ .ok .pending := fun h =>
  gives_answer (ready_inContext limit env henv node ctx) h rfl

end Reduce

end ContentLang
