import ContentLang.Proofs.Loading.Removing
import ContentLang.Proofs.Readiness.Monotone
import ContentLang.Proofs.Readiness.Complete

/-!
# What `Remove` takes out

A file with a call of `Remove` is loaded and then consumed, and so is the collection without the
call. What the two come to is compared (`ContentLang.Engine.remove_removes`), by what the collection
is when the loading pass has reduced it:

* a call left for later: the call of `Remove` waits too, and takes the tokens out of what the
  collection comes to (`ContentLang.Reduce.tracked_removeCall`);
* an array: the tokens that are there are taken out, and the elements that are left are consumed as
  they are in the whole array, since tokens draw nothing
  (`ContentLang.Reduce.tracked_elements_without`);
* a block: the entries under the keys are taken out, with what they would have drawn
  (`ContentLang.Reduce.answer_block_without`).

In the second case an element that is a call at that time stays, whatever it comes to; if it comes
to one of the tokens, that token is not taken out (`ContentLang.Engine.remove_misses`).
-/

namespace ContentLang

open Walk

/-- What is put into a block under a key stands under that key. -/
theorem key_of_mem_toEntries {out : Outcome} {k : Token} {o : Origin} {es : List (Token × Node)}
    (h : out.toEntries? k o = some es) {e : Token × Node} (he : e ∈ es) : e.1 = k := by
  cases out with
  | value n =>
    obtain rfl := Option.some.inj h
    rw [List.mem_singleton.mp he]
  | empty =>
    obtain rfl := Option.some.inj h
    exact absurd he List.not_mem_nil
  | splice items =>
    obtain rfl := Option.some.inj h
    rw [List.mem_singleton.mp he]
  | pending => exact nomatch h

namespace Reduce

section

variable {env : Surroundings} (hlate : env.late = true) (limit : Nat) (ctx : Context)
include hlate

/-! ### Calls that waited -/

/-- Tokens that are written out are what they have to be. -/
theorem idle_requireTokens (us : List Token) :
    Idle (fun r => ∃ vs, r = .ok vs ∧ Alike us vs)
      ((evaluator env (inContext limit)).requireTokens ctx (us.map .token)) := by
  induction us with
  | nil => exact idle_pure ⟨[], rfl, .refl []⟩
  | cons u us ih =>
    have htoken : Idle (fun r => ∃ v : Token, r = .ok v ∧ Alike u v)
        ((evaluator env (inContext limit)).requireToken (.token u) ctx) := by
      refine idle_bind (idle_inert hlate limit _ (Node.inert_token u)) fun out hout => ?_
      obtain ⟨m, rfl, hm⟩ := hout
      obtain ⟨v, rfl, hv⟩ := hm.token
      exact idle_pure ⟨v, rfl, hv⟩
    refine idle_bind htoken fun r hr => ?_
    obtain ⟨v, rfl, hv⟩ := hr
    refine idle_bind ih fun r hr => ?_
    obtain ⟨vs, rfl, hvs⟩ := hr
    exact idle_pure ⟨v :: vs, rfl, alike_cons_iff.mpr ⟨v, vs, rfl, hv, hvs⟩⟩

/-- Of inert elements those stay that are not one of the tokens. -/
theorem idle_withoutElements (us : List Token) {ns : List Node}
    (hns : ∀ n ∈ ns, n.Inert (Registry.isKnown env.registry)) :
    Idle (· = ns.filter (Node.stays us))
      (Library.withoutElements (evaluator env (inContext limit)) ctx us ns) := by
  induction ns with
  | nil => exact idle_pure rfl
  | cons n ns ih =>
    obtain ⟨hn, hns⟩ := List.forall_mem_cons.mp hns
    have htoken : Idle (fun t => (!t.any us.contains) = n.stays us)
        ((evaluator env (inContext limit)).token? n ctx) := by
      refine idle_bind (idle_inert hlate limit _ hn) fun out hout => ?_
      obtain ⟨m, rfl, hm⟩ := hout
      rw [Node.stays_alike hm (.refl us)]
      cases m <;> exact idle_pure rfl
    refine idle_bind htoken fun t ht => idle_bind (ih hns) fun rest hrest => ?_
    subst hrest
    rw [List.filter_cons, ← ht]
    cases t with
    | none => exact idle_pure rfl
    | some t =>
      refine idle_pure ?_
      cases hc : us.contains t <;> simp [hc]

/-- **What `Remove` makes of a collection in which all is done.** -/
theorem idle_remove {v : Node} (hv : v.Inert (Registry.isKnown env.registry)) (us : List Token)
    (o : Origin) :
    Idle (fun out => ∃ w, out = .value w ∧ (v.IsCollection → Alike (v.without us) w))
      (Library.remove.reduce (evaluator env (inContext limit))
        ⟨"Remove", v :: us.map .token, o⟩ ctx) := by
  have harity : (Arity.atLeast 1).accepts (v :: us.map Node.token).length = true := by
    simp [Arity.accepts]
  simp only [Library.remove, Function.forgetful, Evaluator.withFirst, harity, if_true]
  refine idle_bind (idle_requireTokens hlate limit ctx us) fun r hr => ?_
  obtain ⟨vs, rfl, hvs⟩ := hr
  refine idle_bind (idle_inert hlate limit _ hv) fun out hout => ?_
  obtain ⟨m, rfl, hm⟩ := hout
  have hwithout : Alike (v.without us) (m.without vs) := by
    rw [Alike, ← without_bare, ← without_bare, hm, hvs]
  have hinert := hm.inert hv
  -- What is no collection is wrong, and not waited for.
  have hother (hno : ¬ m.IsCollection) (fault : Fault) :
      Idle (fun out => ∃ w, out = .value w ∧ (v.IsCollection → Alike (v.without us) w))
        (if (evaluator env (inContext limit)).isDeferred m then pure .pending
        else Evaluator.invalidArgument ⟨"Remove", v :: us.map .token, o⟩ v fault) := by
    have hfound : ¬ (evaluator env (inContext limit)).isDeferred m = true := by
      rw [Evaluator.isDeferred_of_alike (.refl m)]
      exact ne_true_of_eq_false hinert.isDeferred
    rw [if_neg hfound]
    exact idle_map (idle_leave _) fun _ _ => ⟨_, rfl, fun h => absurd (h.alike hm) hno⟩
  cases m with
  | array is o' =>
    refine idle_map (idle_withoutElements hlate limit ctx vs (Node.inert_array.mp hinert))
      fun ns hns => ?_
    subst hns
    exact ⟨_, rfl, fun _ => hwithout⟩
  | block es o' => exact idle_pure ⟨_, rfl, fun _ => hwithout⟩
  | token t => exact hother (by simp [Node.IsCollection]) _
  | call f ps o' => exact hother (by simp [Node.IsCollection]) _
  | statement f ps o' data => exact hother (by simp [Node.IsCollection]) _

/-- The parameters of a call that waited: the collection is there, if it is not pending. -/
theorem tracked_removeParams (hregistry : env.registry = .builtin) {l : Nat} (hl : limit ≤ l)
    (n : Node) (us : List Token) :
    Tracked (fun r out => Option.Rel (fun ps v => v.Inert (Registry.isKnown env.registry) ∧
        ∃ vs : List Token, Alike us vs ∧ ps = v :: vs.map .token) r (out.toNode? n.origin))
      (reduceParams env (inContext limit) ctx (n :: us.map .token))
      (visit env (inContext l) n ctx) := by
  have hfaithful : env.Faithful := ⟨hlate, hregistry ▸ Function.faithful_builtin⟩
  have hvisit := (visit_deeper hregistry hl n ctx).and fun s out hout =>
    (propagates_visit (propagates_inContext limit) hfaithful n ctx s out hout).1
  have htokens : ∀ p ∈ us.map Node.token, p.Inert (Registry.isKnown env.registry) := by
    rintro _ hp
    obtain ⟨u, -, rfl⟩ := List.mem_map.mp hp
    exact Node.inert_token u
  refine Tracked.before hvisit fun out out' hout => ?_
  obtain ⟨rfl, hinert⟩ := hout
  cases hv : out.toNode? n.origin with
  | none => exact idle_pure .none
  | some v =>
    refine idle_map (idle_reduceParams (fun n ctx hn => idle_inert hlate limit ctx hn) ctx htokens)
      fun r hr => ?_
    obtain ⟨qs, rfl, hqs⟩ := hr
    obtain ⟨vs, rfl, hvs⟩ := Node.alike_tokens hqs
    exact .some ⟨hinert.toNode hv, vs, hvs, rfl⟩

/-- **A call of `Remove` that waited** is given the collection as it comes to be, and takes the
tokens out of it. -/
theorem tracked_removeCall (hregistry : env.registry = .builtin) {l : Nat} (hl : limit ≤ l)
    (n : Node) (us : List Token) (o o' : Origin) :
    Tracked (fun out out' => Option.Rel (fun w v => v.IsCollection → Alike (v.without us) w)
        (out.toNode? o') (out'.toNode? n.origin))
      (inContext (limit + 1) env (.call "Remove" (n :: us.map .token) o) ctx)
      (visit env (inContext l) n ctx) := by
  have hfunction : Registry.get? env.registry "Remove" = some Library.remove := by
    rw [hregistry]
    rfl
  have hcall : Tracked (fun out out' =>
        Option.Rel (fun w v => v.IsCollection → Alike (v.without us) w) (out.toNode? o')
          (out'.toNode? n.origin))
      (callFunction env (inContext limit) Library.remove ⟨"Remove", n :: us.map .token, o⟩ ctx)
      (visit env (inContext l) n ctx) := by
    have hearly : ¬ Library.remove.late = true := by decide
    rw [callFunction, if_neg hearly, reduceCallParams, bind_assoc]
    refine Tracked.before (tracked_removeParams hlate limit ctx hregistry hl n us)
      fun r out hr => ?_
    generalize out.toNode? n.origin = given at hr
    rw [pure_bind]
    rcases hr with ⟨hinert, vs, hvs, rfl⟩ | _
    · refine idle_bind (idle_remove hlate limit ctx hinert vs _) fun out' hout' => ?_
      obtain ⟨w, rfl, hw⟩ := hout'
      exact idle_pure (.some fun h => by rw [without_alike hvs]; exact hw h)
    · exact idle_pure .none
  show Tracked _ (call env (inContext limit) ⟨"Remove", n :: us.map .token, o⟩ none ctx) _
  rw [call_eq_callFunction (by decide) hfunction]
  exact hcall

end

/-! ### Blocks -/

/-- **A block of which keys were taken out** is consumed to the same without them, if what is drawn
before makes no difference to its values. -/
theorem answer_block_without {env : Surroundings} (hlate : env.late = true) {limit : Nat}
    {ctx : Context} {es : List (Token × Node)} {o : Origin} (hforced : ∀ x ∈ es,
      Forced env (contextOf env (.block es o) ctx) x.2) {s : WalkState} {out : Outcome} {v : Node}
    (h : (visit env (inContext limit) (.block es o) ctx s).answer = .ok out)
    (hv : out.toNode? o = some v) (ts : List Token) :
    (visit env (inContext limit) ((Node.block es o).without ts) ctx s).answer =
      .ok (.value (v.without ts)) := by
  cases limit with
  | zero => exact nomatch h
  | succ limit =>
    obtain ⟨r, hr, hout, -⟩ := answer_of_bind h
    cases r with
    | none =>
      obtain rfl : Outcome.pending = out := Except.ok.inj hout
      exact nomatch hv
    | some fs =>
      obtain rfl := Except.ok.inj hout
      obtain rfl := Option.some.inj hv
      have hleft : (entries env (inContext limit) (contextOf env (.block es o) ctx)
          (Library.withoutKeys es ts) s).answer = .ok (some (Library.withoutKeys fs ts)) := by
        rw [entries_eq_inTurn hlate] at hr ⊢
        rw [withoutKeys_eq_filter, withoutKeys_eq_filter]
        refine inTurn_filter (fun x hx => (hforced x hx).entriesOf limit)
          (fun x _ s l hl y hy => ?_) hr s
        -- What an entry gives stands under its key.
        obtain ⟨out, -, hout, -⟩ := answer_of_bind hl
        rw [key_of_mem_toEntries (Except.ok.inj hout) hy]
      show ((entries env (inContext limit) (contextOf env (.block es o) ctx)
        (Library.withoutKeys es ts) >>= fun r => _) s).answer = _
      rw [bind_ok hleft]
      rfl

/-! ### Arrays -/

/-- Whether two lists are the same without the tokens that are taken out. -/
def SameWithout (ts : List Token) (l l' : List Node) : Prop :=
  l.filter (Node.stays ts) = l'.filter (Node.stays ts)

/-- Whether a list is another one without the tokens that are taken out. -/
def JustWithout (ts : List Token) (l l' : List Node) : Prop := l.filter (Node.stays ts) = l'

/-- Whether a node is among those that an element may come to. -/
def ComesAmong (env : Surroundings) (ctx : Context) (n m : Node) : Prop :=
  ∃ limit s l, (itemsOf env (inContext limit) ctx n s).answer = .ok (some l) ∧ m ∈ l

section

variable {env : Surroundings} (limit : Nat) (ctx : Context) {ts : List Token}
  {R : List Node → List Node → Prop} (hR : Appends R) (hnil : R [] [])
  (hgone : ∀ u : Token, (Node.token u).stays ts = false → R [.token u] [])

/-- A token as it stands after it was reduced. -/
theorem itemsOf_token (env : Surroundings) (limit : Nat) (ctx : Context) (t : Token) :
    ∃ u, Alike (Node.token t) (.token u) ∧
      itemsOf env (inContext (limit + 1)) ctx (.token t) = pure (some [.token u]) :=
  ⟨{ t with origin := { t.origin with context := contextOf env (.token t) ctx } }, rfl, rfl⟩

include hR hnil hgone

/-- Elements of which tokens were taken out are consumed to related ones, if losing such a token is,
and whatever an element comes to that stays is related to itself. -/
theorem tracked_elements_without {is : List Node} (hself : ∀ i ∈ is, i.stays ts = true →
      ∀ s l, (itemsOf env (inContext limit) ctx i s).answer = .ok (some l) → R l l) :
    Tracked (Option.Rel R) (inTurn (itemsOf env (inContext limit) ctx) is)
      (inTurn (itemsOf env (inContext limit) ctx) (is.filter (Node.stays ts))) := by
  induction is with
  | nil => exact tracked_pure (.some hnil)
  | cons i is ih =>
    obtain ⟨hi, his⟩ := List.forall_mem_cons.mp hself
    cases hstays : i.stays ts with
    | true =>
      rw [List.filter_cons_of_pos hstays]
      refine tracked_thenAlso hR (((tracked_refl (fun _ => rfl) _).and (P := fun r =>
        Option.Rel R r r) fun s r hr => ?_).imp fun r r' ⟨hr, hrr⟩ => hr ▸ hrr) (ih his)
      cases r with
      | none => exact .none
      | some l => exact .some (hi hstays s l hr)
    | false =>
      rw [List.filter_cons_of_neg (by simp [hstays])]
      -- What does not stay is a token, and that comes to itself.
      cases i with
      | token t =>
        cases limit with
        | zero => exact fun s => .inl rfl
        | succ limit =>
          obtain ⟨u, htu, hu⟩ := itemsOf_token env limit ctx t
          have hfirst : inTurn (itemsOf env (inContext (limit + 1)) ctx) (.token t :: is) =
              inTurn (itemsOf env (inContext (limit + 1)) ctx) is >>= fun more =>
                pure (more.map ([.token u] ++ ·)) := by rw [inTurn_cons, hu]; rfl
          rw [hfirst]
          refine Tracked.before (ih his) fun r r' hr => idle_pure ?_
          rcases hr with hll | _
          · exact .some (hR (hgone u ((Node.stays_alike htu (.refl ts)).symm.trans hstays)) hll)
          · exact .none
      | _ => exact absurd hstays (by simp [Node.stays, Node.token?])

end

section

variable {env : Surroundings} (limit : Nat) (ctx : Context) (ts : List Token) (is : List Node)

/-- What is consumed is the same up to the tokens that are taken out. -/
theorem tracked_elements_sameWithout :
    Tracked (Option.Rel (SameWithout ts)) (inTurn (itemsOf env (inContext limit) ctx) is)
      (inTurn (itemsOf env (inContext limit) ctx) (is.filter (Node.stays ts))) :=
  tracked_elements_without (R := SameWithout ts) limit ctx
    (fun h h' => by rw [SameWithout, List.filter_append, List.filter_append, h, h']) rfl
    (fun u hu => by simp [SameWithout, hu]) fun _ _ _ _ _ _ => rfl

/-- It is what is consumed of all elements without the tokens, if those that are no tokens come to
none of them. -/
theorem tracked_elements_justWithout
    (hleft : ∀ i ∈ is, i.token? = none → ∀ m, ComesAmong env ctx i m → m.stays ts = true) :
    Tracked (Option.Rel (JustWithout ts)) (inTurn (itemsOf env (inContext limit) ctx) is)
      (inTurn (itemsOf env (inContext limit) ctx) (is.filter (Node.stays ts))) := by
  refine tracked_elements_without (R := JustWithout ts) limit ctx
    (fun h h' => by rw [JustWithout, List.filter_append, h, h']) rfl
    (fun u hu => by simp [JustWithout, hu]) fun i hi hstays s l hl =>
      List.filter_eq_self.mpr fun m hm => ?_
  cases i with
  | token t =>
    cases limit with
    | zero => exact nomatch hl
    | succ limit =>
      obtain ⟨u, htu, hu⟩ := itemsOf_token env limit ctx t
      rw [hu] at hl
      obtain rfl := Option.some.inj (Except.ok.inj hl)
      rw [List.mem_singleton.mp hm, ← Node.stays_alike htu (.refl ts), hstays]
  | _ => exact hleft _ hi rfl m ⟨limit, s, l, hl, hm⟩

end

/-- **An array of which tokens were taken out** is consumed to related arrays. -/
theorem tracked_array_without {env : Surroundings} (hlate : env.late = true) (limit : Nat)
    {ctx : Context} {ts : List Token} {is : List Node} {o : Origin}
    (his : ∀ i ∈ is, i.Settled env.registry false) {R : List Node → List Node → Prop}
    (h : ∀ limit, Tracked (Option.Rel R)
      (inTurn (itemsOf env (inContext limit) (contextOf env (.array is o) ctx)) is)
      (inTurn (itemsOf env (inContext limit) (contextOf env (.array is o) ctx))
        (is.filter (Node.stays ts)))) :
    Tracked
      (fun a b => Option.Rel (fun v w => ∃ l l' o', R l l' ∧ v = .array l o' ∧ w = .array l' o')
        (a.toNode? o) (b.toNode? o))
      (visit env (inContext limit) (.array is o) ctx)
      (visit env (inContext limit) ((Node.array is o).without ts) ctx) := by
  cases limit with
  | zero => exact fun s => .inl rfl
  | succ limit =>
    have hfew : ∀ i ∈ is.filter (Node.stays ts), i.Settled env.registry false := fun i hi =>
      his i (List.mem_of_mem_filter hi)
    refine tracked_bind (R := Option.Rel R) ?_ fun r r' hr => ?_
    · rw [elements_eq_inTurn hlate _ _ his]
      exact elements_eq_inTurn hlate _ _ hfew ▸ h limit
    · rcases hr with hll | _
      · exact tracked_pure (.some ⟨_, _, _, hll, rfl, rfl⟩)
      · exact tracked_pure .none

/-- **Nodes that read no bindings and include no files** are consumed to kin nodes wherever they
stand. -/
theorem tracked_unread (env : Surroundings) (hregistry : env.registry = .builtin) (limit : Nat)
    {m n : Node} (h : m.Kin .unread n) (c d : Context) :
    Tracked (Outcome.Kin .unread) (visit env (inContext limit) m c)
      (visit env (inContext limit) n d) := by
  let S := Simulation.unread env.late ⟨env.host, env.settings⟩
  have hfits : S.Fits env env := ⟨rfl, .inl, rfl, rfl, rfl, rfl, rfl,
    hregistry ▸ Simulation.unread_respects env.late _, .inl rfl⟩
  have hrec : S.Recursors (inContext limit) (inContext limit) := S.inContext (.inl rfl)
  have hcontexts : S.kin.contexts c d := trivial
  exact Matches.tracked (Simulation.visit hrec hfits h hcontexts)

end Reduce

/-- In a settled node that reads no binding and includes no file nothing depends on bindings. -/
theorem Node.Settled.kin_unread {registry : Registry} {late : Bool} {n : Node}
    (hn : n.Settled registry late)
    (hcalls : ∀ c ∈ n.calls, c.function ≠ "^" ∧ c.function ≠ includeName) : n.Kin .unread n :=
  Node.Kin.refl (fun _ => trivial) fun c hc =>
    ⟨(hcalls c hc).1, (hcalls c hc).2, (hn.of_mem_calls c hc).1.ne_setName⟩

namespace Engine

open Reduce

variable {e : Engine} {file : String}

section

variable (hregistry : e.registry = .builtin) {n : Node} (ts : List Token)
include hregistry

/-- A call of `Remove` that waited comes to the collection without the tokens. -/
theorem compares_removeCall (o : Origin) (hn : o.context = [] ∨ n.origin.context ≠ []) :
    e.Compares file (fun w v => v.IsCollection → ContentLang.Alike (v.without ts) w)
      (.call "Remove" (n :: ts.map .token) o) n := by
  refine compares_of_tracked ?_
  have hown : visit (e.surroundings true file) (inContext e.limit) n o.context =
      visit (e.surroundings true file) (inContext e.limit) n n.origin.context := by
    rw [visit, visit, contextOf_own rfl hn]
  have hcall : contextOf (e.surroundings true file) (.call "Remove" (n :: ts.map .token) o)
      o.context = o.context := by
    simp [contextOf, Node.origin]
  show Tracked _ (visit (e.surroundings true file) (inContext e.limit)
      (.call "Remove" (n :: ts.map .token) o) o.context)
    (visit (e.surroundings true file) (inContext e.limit) n n.origin.context)
  rw [← hown, visit, hcall]
  generalize e.limit = l
  cases l with
  | zero => exact fun s => .inl rfl
  | succ k => exact tracked_removeCall rfl k _ hregistry (Nat.le_succ k) n ts o _

/-- An array without some tokens compares with the array as their elements do. -/
theorem compares_array_without (hn : n.Settled e.registry false) {is : List Node} {o : Origin}
    (harray : n = .array is o) {r : Node} (hr : (n.without ts).Kin .unread r)
    {R : List Node → List Node → Prop} (hlists : ∀ limit, Tracked (Option.Rel R)
      (inTurn (itemsOf (e.surroundings true file) (inContext limit) o.context) is)
      (inTurn (itemsOf (e.surroundings true file) (inContext limit) o.context)
        (is.filter (Node.stays ts))))
    {Q : Node → Node → Prop} (hQ : ∀ l l' o' w, R l l' → (Node.array l' o').Kin .unread w →
      Q (.array l o') w) : e.Compares file Q n r := by
  subst harray
  have hown : contextOf (e.surroundings true file) (.array is o) (Node.array is o).origin.context =
      o.context := by
    simp [contextOf, Node.origin]
  refine compares_of_tracked ?_
  have hwithout : Tracked _ (visit (e.surroundings true file) (inContext e.limit) (.array is o)
      (Node.array is o).origin.context) _ :=
    tracked_array_without rfl e.limit (Node.settled_array.mp hn) (by rwa [hown])
  refine (hwithout.trans (tracked_unread _ hregistry e.limit hr _ r.origin.context)).imp ?_
  rintro a c ⟨b, hab, hbc⟩
  have hkin : Option.Rel (Node.Kin .unread) (b.toNode? o) (c.toNode? r.origin) :=
    hbc.toNode? hr.origin
  generalize hx : a.toNode? o = x, b.toNode? o = y, c.toNode? r.origin = z at hab hkin
  rw [show a.toNode? (Node.array is o).origin = x from hx]
  rcases hab with ⟨l, l', o', hll, rfl, rfl⟩ | _
  · rcases hkin with ⟨hkin⟩
    exact .some (hQ l l' o' _ hll hkin)
  · rcases hkin
    exact .none

/-- An array from which tokens were taken out comes to what it comes to alone without them, if none
of the elements that were left for later comes to one of them; and to the same up to such tokens in
any case. -/
theorem compares_array (hn : n.Settled e.registry false) {is : List Node} {o : Origin}
    (harray : n = .array is o) {r : Node} (hr : (n.without ts).Kin .unread r) :
    e.Compares file (fun v w => ContentLang.Alike (v.without ts) (w.without ts)) n r ∧
      ((∀ i ∈ is, i.token? = none → ∀ m, ComesAmong (e.surroundings true file) o.context i m →
          m.stays ts = true) →
        e.Compares file (fun v w => ContentLang.Alike (v.without ts) w) n r) := by
  refine ⟨compares_array_without hregistry ts hn harray hr
    (fun limit => tracked_elements_sameWithout limit _ ts is) fun l l' o' w hll hkin => ?_,
    fun hleft => compares_array_without hregistry ts hn harray hr
      (fun limit => tracked_elements_justWithout limit _ ts is hleft) fun l l' o' w hll hkin => ?_⟩
  · have hsame : (Node.array l o').without ts = (Node.array l' o').without ts :=
      congrArg (Node.array · o') hll
    rw [hsame]
    exact (hkin.without (.refl ts)).alike
  · have hjust : (Node.array l o').without ts = .array l' o' := congrArg (Node.array · o') hll
    rw [hjust]
    exact hkin.alike

/-- **A block without some keys** comes to what the block comes to, less the entries under them, if
what is drawn before makes no difference to its values. -/
theorem comesTo_block_without {es : List (Token × Node)} {o : Origin} (hblock : n = .block es o)
    (hforced : ∀ x ∈ es, Reduce.Forced (e.surroundings true file) o.context x.2) {r : Node}
    (hr : (n.without ts).Kin .unread r) {v : Node} (hv : e.comesTo file n = .ok (some v)) :
    ∃ w, e.comesTo file r = .ok (some w) ∧ ContentLang.Alike (v.without ts) w := by
  subst hblock
  obtain ⟨out, hout, hv⟩ := ok_of_map hv
  have hown : contextOf (e.surroundings true file) (.block es o) (Node.block es o).origin.context =
      o.context := by
    simp [contextOf, Node.origin]
  have hwithout : (visit (e.surroundings true file) (inContext e.limit)
      ((Node.block es o).without ts) o.context e.state).answer = .ok (.value (v.without ts)) :=
    answer_block_without rfl (by rwa [hown]) hout hv ts
  rcases tracked_unread (e.surroundings true file) hregistry e.limit hr o.context
    r.origin.context e.state with hdeep | ⟨hends, -⟩
  · exact absurd (hwithout.symm.trans hdeep) (by simp)
  · rw [hwithout] at hends
    generalize hanswer : (visit (e.surroundings true file) (inContext e.limit) r r.origin.context
      e.state).answer = answer at hends
    rcases hends with ⟨hkin⟩
    rcases hkin with ⟨hkin⟩
    refine ⟨_, ?_, hkin.alike⟩
    show Except.map _ (visit (e.surroundings true file) (inContext e.limit) r r.origin.context
      e.state).answer = _
    rw [hanswer]
    rfl

/-- **What `Remove` takes out.** The loading pass comes to an answer on the call if it does on the
collection, and consuming what it leaves compares as follows with consuming what it leaves of the
collection alone. If the collection waits, the call waits with it, and comes to the collection
without the tokens. If the collection is there, the tokens that are elements at that time are gone,
and so are the keys. An array then comes to what it comes to alone without the tokens, if none of
the elements that were left for later comes to one of them, and to the same up to such tokens in any
case. A block comes to what it comes to alone without the keys, if what is drawn for the values that
are left out makes no difference to the others. -/
theorem remove_removes (file : String) {env : Surroundings} (hlate : env.late = false)
    (henv : env.registry = .builtin) {limit : Nat} (hlimit : limit ≤ env.limit) {ctx : Context}
    (hctx : ctx.Laid env.registry noneShunned) {x n : Node} {s : WalkState} {out : Outcome}
    (hload : (inContext limit env x ctx s).answer = .ok out) (hn : out.toNode? x.origin = some n)
    (hdepth : n.depth ≤ limit) (o : Origin) (ts : List Token)
    (hready : n.isDeferred Registry.builtin.isKnown = true ∨ n.IsCollection) :
    ∃ r, (inContext (limit + 1) env (.removeCall o x ts) ctx s).answer = .ok (.value r) ∧
      (n.isDeferred Registry.builtin.isKnown = true →
        e.Compares file (fun w v => v.IsCollection → ContentLang.Alike (v.without ts) w) r n) ∧
      ((∀ c ∈ n.calls, c.function ≠ "^" ∧ c.function ≠ includeName) →
        (∀ is a, n = .array is a →
          e.Compares file (fun v w => ContentLang.Alike (v.without ts) (w.without ts)) n r ∧
          ((∀ i ∈ is, i.token? = none → ∀ m, ComesAmong (e.surroundings true file) a.context i m →
              m.stays ts = true) →
            e.Compares file (fun v w => ContentLang.Alike (v.without ts) w) n r)) ∧
        ∀ es b, n = .block es b →
          (∀ entry ∈ es, Reduce.Forced (e.surroundings true file) b.context entry.2) →
          ∀ v, e.comesTo file n = .ok (some v) →
            ∃ w, e.comesTo file r = .ok (some w) ∧ ContentLang.Alike (v.without ts) w) := by
  have hloads := Surroundings.loads_builtin hlate henv
  have hsettled := settled_of_run hloads hctx hload hn
  by_cases hdeferred : n.isDeferred Registry.builtin.isKnown = true
  · -- The call waits with the collection.
    have hcall := surely_removeCall_waits hloads henv hlimit hctx hload hn hdepth o ts
      (henv ▸ hdeferred)
    obtain ⟨out', hrun⟩ := (hcall s fun _ _ => trivial).ends trivial
    obtain ⟨us, hus, rfl⟩ := (hcall s fun _ _ => trivial).answer _ hrun
    have hown : ctx = [] ∨ n.origin.context ≠ [] := by
      by_cases hempty : ctx = []
      · exact .inl hempty
      · refine .inr ?_
        cases captured_of_run hlate henv hempty hload hn with
        | call ho => exact ho
        | statement ho => exact ho
        | _ => exact absurd hdeferred (by simp [Node.isDeferred, Node.function?])
    refine ⟨_, hrun, fun _ => ?_, fun _ => ⟨?_, ?_⟩⟩
    · simp only [without_alike hus]
      exact compares_removeCall hregistry us { o with context := ctx } hown
    · rintro is a rfl
      exact absurd hdeferred (by simp [Node.isDeferred, Node.function?])
    · rintro es b rfl
      exact absurd hdeferred (by simp [Node.isDeferred, Node.function?])
  · -- The tokens are taken out while loading.
    have hcollection := hready.resolve_left hdeferred
    have htaken {K : Kinship} (hK : ∀ c d, K.contexts c d) (hkin : n.Kin K n) :
        ∃ r, (inContext (limit + 1) env (.removeCall o x ts) ctx s).answer = .ok (.value r) ∧
          (n.without ts).Kin K r := by
      have hcall := surely_removeCall_collection hloads henv hlimit hctx hload hn hdepth o ts hK
        hkin hcollection s fun _ _ => trivial
      obtain ⟨out', hrun⟩ := hcall.ends trivial
      obtain ⟨r, rfl, hr⟩ := hcall.answer _ hrun
      exact ⟨r, hrun, hr⟩
    obtain ⟨r, hrun, -⟩ := htaken (K := ⟨fun _ => True, fun _ _ => True⟩) (fun _ _ => trivial)
      (.refl (fun _ => trivial) fun _ _ => trivial)
    refine ⟨r, hrun, fun h => absurd h hdeferred, fun hcalls => ?_⟩
    obtain ⟨r', hrun', hr⟩ := htaken (fun _ _ => trivial) (hsettled.kin_unread hcalls)
    obtain rfl : r' = r := Outcome.value.inj (Except.ok.inj (hrun'.symm.trans hrun))
    have hown : n.Settled e.registry false := hregistry ▸ henv ▸ hsettled
    exact ⟨fun is a harray => compares_array hregistry ts hown harray hr,
      fun es b hblock hforced v hv =>
        comesTo_block_without hregistry ts hblock hforced hr hv⟩

end

/-- An array with a choice in it, of which a token is taken out that stands there as it is. -/
theorem remove_removes_choice :
    let e := Engine.start .standard (.plain (fun _ => none) fun _ => none) 0
    let env := e.surroundings false "main.txt"
    let o : Origin := .unwritten
    let word (s : String) : Token := .content s o
    let x : Node := .array [.token (word "a"), .call "Choose" [.array [.token (word "b")] o] o] o
    let load (limit : Nat) (m : Node) := (inContext limit env m .empty e.state).answer
    ∃ out n r, load 20 x = .ok out ∧ out.toNode? o = some n ∧
      load 21 (.removeCall o x [word "a"]) = .ok (.value r) ∧
      ∃ v w, e.comesTo "main.txt" n = .ok (some v) ∧ e.comesTo "main.txt" r = .ok (some w) ∧
        v.text .compact = "[a, b]" ∧ w.text .compact = "[b]" ∧
        ContentLang.Alike (v.without [word "a"]) (w.without [word "a"]) := by
  intro e env o word x load
  have hrun : ((load 20 x).toOption.any fun out => (out.toNode? o).any fun n =>
      decide (n.depth ≤ 20 ∧ n.items?.isSome ∧ n.calls.map (·.function) = ["Choose"]) &&
        ((e.comesTo "main.txt" n).toOption.join.any fun v =>
          decide (v.text .compact = "[a, b]")) &&
        (load 21 (.removeCall o x [word "a"])).toOption.any fun out' =>
          (out'.toNode? o).any fun r => (e.comesTo "main.txt" r).toOption.join.any fun w =>
            decide (w.text .compact = "[b]")) = true := by decide +kernel
  obtain ⟨out, hload, hrun⟩ := (Option.any_eq_true _ _).mp hrun
  obtain ⟨n, hn, hrun⟩ := (Option.any_eq_true _ _).mp hrun
  obtain ⟨hrun, hother⟩ := Bool.and_eq_true_iff.mp hrun
  obtain ⟨hnode, hrun⟩ := Bool.and_eq_true_iff.mp hrun
  obtain ⟨v, hv, htext⟩ := (Option.any_eq_true _ _).mp hrun
  obtain ⟨hdepth, hitems, hcalls⟩ := of_decide_eq_true hnode
  have harray : ∃ is a, n = .array is a := by
    cases n with
    | array is a => exact ⟨is, a, rfl⟩
    | _ => exact absurd hitems (by simp [Node.items?])
  have hunread : ∀ c ∈ n.calls, c.function ≠ "^" ∧ c.function ≠ includeName := by
    intro c hc
    have hchoice : c.function ∈ ["Choose"] := hcalls ▸ List.mem_map_of_mem hc
    rw [List.mem_singleton.mp hchoice]
    decide
  have hempty : Context.Laid env.registry noneShunned .empty := by
    simp [Context.Laid, Context.empty]
  obtain ⟨r, hremove, -, hleft⟩ := remove_removes (e := e) rfl "main.txt"
    (show env.late = false from rfl) rfl (show 20 ≤ env.limit by decide) hempty
    (toOption_eq_some.mp hload) hn hdepth o [word "a"]
    (.inr (.inl harray))
  obtain ⟨is, a, hisArray⟩ := harray
  have hends := ((hleft hunread).1 is a hisArray).1
  obtain ⟨out', hremove', hother⟩ := (Option.any_eq_true _ _).mp hother
  obtain rfl : Outcome.value r = out' :=
    Except.ok.inj (hremove.symm.trans (toOption_eq_some.mp hremove'))
  obtain ⟨w, hw, htext'⟩ := (Option.any_eq_true _ (e.comesTo "main.txt" r).toOption.join).mp hother
  have hv := join_toOption_eq_some.mp hv
  have hw := join_toOption_eq_some.mp hw
  rw [Compares, hv, hw] at hends
  rcases hends with hdeep | ⟨⟨⟨hsame⟩⟩⟩
  · exact absurd hdeep (by simp)
  · exact ⟨out, n, r, toOption_eq_some.mp hload, hn, hremove, v, w, hv, hw,
      of_decide_eq_true htext, of_decide_eq_true htext', hsame⟩

/-- **`Remove` may leave what it should take out**: an element that comes to one of the tokens, but
is a call while the file is loaded. -/
theorem remove_misses :
    let e := Engine.start .standard (.plain (fun _ => none) fun _ => none) 0
    ∃ v w, e.firstOf "[Choose([a]); b]" "main.txt" = some v ∧
      e.firstOf "Remove([Choose([a]); b], a)" "main.txt" = some w ∧
      (v.without [.content "a" .unwritten]).text .compact = "[b]" ∧
      w.text .compact = "[a, b]" := by
  intro e
  have hrun : (e.firstOf "[Choose([a]); b]" "main.txt").any (fun v =>
      (e.firstOf "Remove([Choose([a]); b], a)" "main.txt").any fun w =>
        decide ((v.without [.content "a" .unwritten]).text .compact = "[b]" ∧
          w.text .compact = "[a, b]")) = true := by
    decide +kernel
  obtain ⟨v, hv, hother⟩ := (Option.any_eq_true _ _).mp hrun
  obtain ⟨w, hw, hdiffers⟩ := (Option.any_eq_true _ _).mp hother
  exact ⟨v, w, hv, hw, of_decide_eq_true hdiffers⟩

end Engine

end ContentLang
