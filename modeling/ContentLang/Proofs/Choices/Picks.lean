import ContentLang.Proofs.Choices.Draws
import ContentLang.Proofs.Loading.LateInclude

/-!
# Choices are fair picks

A choice whose list is written out, and whose options are tokens, does three things when it is
consumed: it reads its options, which are what they are; it samples one generator, that of its seed
or the engine's own; and it reduces one of the members, from where the sample left off. Nothing
else is drawn, remembered or reported, so that the run agrees with the one of the member alone
(`ContentLang.Walked.Agrees`).

Which member is reduced is decided by the sample: by the first draw that is accepted for an even
pick, by one draw and the weights for `ChooseWeighted`. The first is fair, since each member has
the same number of draws (`ContentLang.Reduce.choice_is_fair`).
-/

namespace ContentLang

open Walk

/-! ### Runs that agree -/

/-- **Whether two runs agree**: in what they come to, in the state they leave and in what they
report. -/
structure Walked.Agrees {α : Type} (r r' : Walked α) : Prop where
  answer : r.answer = r'.answer
  state : r.state = r'.state
  diagnostics : diagnosticsOf r.notes = diagnosticsOf r'.notes

theorem Walked.Agrees.trans {α : Type} {r r' r'' : Walked α} (h : r.Agrees r')
    (h' : r'.Agrees r'') : r.Agrees r'' :=
  ⟨h.answer.trans h'.answer, h.state.trans h'.state, h.diagnostics.trans h'.diagnostics⟩

namespace Walk

variable {α β : Type} {m : Walk α} {f : α → Walk β} {s : WalkState} {a : α}

/-- What comes after a walk that reports nothing. -/
theorem agrees_bind (ha : (m s).answer = .ok a) (hd : diagnosticsOf (m s).notes = []) :
    ((m >>= f) s).Agrees (f a (m s).state) := by
  rw [bind_ok ha]
  exact ⟨rfl, rfl, by rw [diagnosticsOf_append, hd, List.nil_append]⟩

/-- What comes after a walk that only gives an answer. -/
theorem Arrives.agrees_bind (h : Arrives s [] a m) : ((m >>= f) s).Agrees (f a s) := by
  have hbind := Walk.agrees_bind (f := f) h.1 h.2.2
  rwa [h.2.1] at hbind

/-- What comes after an answer that is not the end of a function. -/
theorem Arrives.agrees_given {m : Walk (Except Outcome α)} {f : α → Walk Outcome}
    (h : Arrives s [] (.ok a) m) : (m.given f s).Agrees (f a s) :=
  h.agrees_bind

end Walk

namespace Library

namespace ChoiceOptions

/-- The generator that a choice samples. -/
def source (options : ChoiceOptions) (host : Host) (s : WalkState) : Generator :=
  match options.seed with
  | .none => s.generator
  | some seed => host.random seed options.isStatic

/-- The state that a choice leaves with the generator that it sampled: the engine's own is
replaced, that of a seed is forgotten. -/
def left (options : ChoiceOptions) (s : WalkState) (g : Generator) : WalkState :=
  match options.seed with
  | .none => { s with generator := g }
  | some _ => s

/-- What holds of options as soon as it does of one of the tokens. -/
theorem foldl_take {P : ChoiceOptions → Bool} {q : Token → Bool}
    (h : ∀ options t, P (options.take t) = (P options || q t)) (options : ChoiceOptions)
    (ts : List Token) : P (ts.foldl take options) = (P options || ts.any q) := by
  induction ts generalizing options with
  | nil => simp
  | cons t ts ih => rw [List.foldl_cons, ih, h, List.any_cons, Bool.or_assoc]

theorem take_flatten (options : ChoiceOptions) (t : Token) :
    (options.take t).flatten = (options.flatten || decide (t.value = flattenOption)) := by
  unfold take
  split
  next h => simp [h]
  next h => split <;> simp [h]

theorem take_isStatic (options : ChoiceOptions) (t : Token) :
    (options.take t).isStatic = (options.isStatic || decide (t.value = staticOption)) := by
  have hne : flattenOption ≠ staticOption := by decide
  unfold take
  split
  next h => simp [h, hne]
  next => split <;> simp [*]

theorem take_seed (options : ChoiceOptions) (t : Token) :
    (options.take t).seed.isSome =
      (options.seed.isSome || decide (t.value ≠ flattenOption ∧ t.value ≠ staticOption)) := by
  unfold take
  split
  next h => simp [h]
  next => split <;> simp [*]

/-- Whether options ask for a static choice, and none of them is a seed. -/
def TakesSeed (ts : List Token) : Prop :=
  (∃ t ∈ ts, t.value = staticOption) ∧
    ∀ t ∈ ts, t.value = flattenOption ∨ t.value = staticOption

/-- **The seed of a static choice that names none** is the fingerprint of the identity. -/
theorem TakesSeed.seed {ts : List Token} (h : TakesSeed ts) (uid : String) :
    (ofTokens uid ts).seed = some (fingerprint uid) := by
  obtain ⟨⟨t, ht, hstatic⟩, hnone⟩ := h
  have hasked : (ts.foldl take .none).isStatic = true := by
    rw [foldl_take take_isStatic, List.any_eq_true.mpr ⟨t, ht, decide_eq_true hstatic⟩,
      Bool.or_true]
  have hunnamed : (ts.foldl take .none).seed = Option.none := by
    have hsome := foldl_take (P := fun options => options.seed.isSome) take_seed .none ts
    rw [← Option.isNone_iff_eq_none, ← Option.not_isSome, hsome]
    simpa [ChoiceOptions.none, imp_iff_not_or] using hnone
  rw [ofTokens, hasked, hunnamed]
  rfl

/-- **Members are unwrapped if some option says so.** -/
theorem ofTokens_flatten (uid : String) (ts : List Token) :
    (ofTokens uid ts).flatten = ts.any fun t => decide (t.value = flattenOption) := by
  have htaken := foldl_take take_flatten .none ts
  unfold ofTokens
  dsimp only
  split
  · exact htaken
  · exact htaken

end ChoiceOptions

/-- A sample of the generator that the options name. -/
theorem run_sample {α : Type} (ev : Evaluator) (options : ChoiceOptions) {s : WalkState}
    {f : Generator → Option (α × Generator)} {a : α} {g : Generator}
    (hf : f (options.source ev.host s) = some (a, g)) :
    let run := ev.sample options.seed options.isStatic f s
    run.answer = .ok a ∧ run.state = options.left s g ∧ diagnosticsOf run.notes = [] := by
  unfold ChoiceOptions.source at hf
  unfold ChoiceOptions.left Evaluator.sample
  cases hseed : options.seed with
  | none =>
    rw [hseed] at hf
    dsimp only at hf
    simp only [Walk.draw, hf]
    exact ⟨trivial, trivial, rfl⟩
  | some seed =>
    rw [hseed] at hf
    dsimp only at hf
    have hask : Arrives s [] (ev.host.random seed options.isStatic)
        (Walk.askRandom ev.host seed options.isStatic) :=
      ⟨rfl, rfl, diagnosticsOf_questionNotes _ _⟩
    refine arrives_bind hask ?_
    simp only [hf]
    exact arrives_pure a

/-! ### Weights that are written out -/

/-- Whether the weight of a member, if it has one, is a token as it stands. -/
def Weighed (member : Node) : Prop :=
  ∀ weight, memberEntry weightKey member = some weight → ∃ t, weight = .token t

/-- What a member weighs whose weight is a token. -/
def weightIn (member : Node) : Float :=
  match memberEntry weightKey member with
  | some (.token t) => (weight? t.value).getD 1.0
  | _ => 1.0

/-- The weights of members, as partial sums. -/
def weighted : List Node → Weighted
  | [] => ⟨[], 0.0⟩
  | member :: members => .ofWeights (weightIn member) (members.map weightIn)

theorem weighted_index_lt {members : List Node} (h : members ≠ []) (v : UInt64) :
    (weighted members).index v < members.length := by
  obtain ⟨member, members, rfl⟩ := List.exists_cons_of_ne_nil h
  have hlt := Weighted.index_lt (weightIn member) (members.map weightIn) v
  rwa [List.length_cons, List.length_map] at hlt

theorem arrives_weightOf (t : Token) (s : WalkState) :
    Arrives s [] ((weight? t.value).getD 1.0) (weightOf t) := by
  unfold weightOf
  cases weight? t.value with
  | some x => exact arrives_pure x
  | none => exact arrives_remark (arrives_pure 1.0)

end Library

open Library

namespace Reduce

variable {env : Surroundings} {limit : Nat} {ctx : Context} {s : WalkState}

/-! ### Tokens as they stand -/

/-- A token as it is visited. -/
def seen (env : Surroundings) (ctx : Context) (t : Token) : Token :=
  { t with origin := { t.origin with context := contextOf env (.token t) ctx } }

theorem requireToken_written (t : Token) :
    (evaluator env (inContext (limit + 1))).requireToken (.token t) ctx =
      Pure.pure (.ok (seen env ctx t)) :=
  rfl

/-- Options that are tokens are read as they stand. -/
theorem requireTokens_written (ts : List Token) :
    (evaluator env (inContext (limit + 1))).requireTokens ctx (ts.map .token) =
      Pure.pure (.ok (ts.map (seen env ctx))) := by
  induction ts with
  | nil => rfl
  | cons t ts ih =>
    show (Walk.also _ _ : Walk _) = _
    rw [requireToken_written]
    show (Walk.also _ _ : Walk _) = _
    rw [ih]
    rfl

/-- What they spell does not depend on where they are read. -/
theorem ofTokens_seen (uid : String) (ts : List Token) :
    ChoiceOptions.ofTokens uid (ts.map (seen env ctx)) = ChoiceOptions.ofTokens uid ts := by
  simp only [ChoiceOptions.ofTokens, List.foldl_map]
  rfl

theorem arrives_weights {items : List Node} (h : ∀ n ∈ items, Weighed n) (s : WalkState) :
    Arrives s [] (.ok (items.map weightIn))
      (weights (evaluator env (inContext (limit + 1))) ctx items) := by
  induction items with
  | nil => exact arrives_pure _
  | cons n items ih =>
    obtain ⟨hn, hitems⟩ := List.forall_mem_cons.mp h
    have hrest (x : Float) : Arrives s [] (.ok (x :: items.map weightIn))
        ((weights (evaluator env (inContext (limit + 1))) ctx items).also fun xs =>
          Pure.pure (.ok (x :: xs))) :=
      arrives_bind (ih hitems) (arrives_pure _)
    unfold weights
    rw [List.map_cons, weightIn]
    cases hentry : memberEntry weightKey n with
    | none => exact hrest 1.0
    | some weight =>
      obtain ⟨t, rfl⟩ := hn weight hentry
      exact arrives_bind (arrives_weightOf (seen env ctx t) s) (hrest _)

/-! ### Choices that are written out -/

section

variable {items : List Node} (ts : List Token) (o o' : Origin)

/-- The members and the options of a choice that is written out are those that stand there. -/
theorem withMembers_written {f : String} (k : Node → List Node → ChoiceOptions → Walk Outcome) :
    withMembers (evaluator env (inContext (limit + 1)))
        ⟨f, .array items o' :: ts.map .token, o⟩ ctx k =
      match items with
      | [] => Evaluator.invalidArgument ⟨f, .array items o' :: ts.map .token, o⟩ (.array items o')
          .nothingToChoose
      | _ :: _ => k (.array items o') items (.ofTokens o.uid ts) := by
  have haccepts : (Arity.atLeast 1).accepts
      (Node.array items o' :: ts.map Node.token).length = true := by
    simp [Arity.accepts]
  unfold withMembers Evaluator.withFirst
  dsimp only
  rw [if_pos haccepts, requireTokens_written]
  cases items with
  | nil => rfl
  | cons n items =>
    show k _ _ (.ofTokens o.uid (ts.map (seen env ctx))) = _
    rw [ofTokens_seen]

/-- A sample that gives the index of a member is gone on from with this member. -/
theorem agrees_pick (options : ChoiceOptions)
    {f : Generator → Option (Nat × Generator)} {i : Nat} {g : Generator}
    (hf : f (options.source env.host s) = some (i, g)) (hi : i < items.length)
    (change : Node → Node) (otherwise : Walk Outcome) :
    (((evaluator env (inContext limit)).sample options.seed options.isStatic f >>= fun i =>
      match items[i]? with
      | some member => visit env (inContext limit) (change member) ctx
      | none => otherwise) s).Agrees
      (visit env (inContext limit) (change items[i]) ctx (options.left s g)) := by
  obtain ⟨hanswer, hstate, hnotes⟩ := run_sample (evaluator env (inContext limit)) options hf
  have hafter := agrees_bind (f := fun i => match items[i]? with
    | some member => visit env (inContext limit) (change member) ctx
    | none => otherwise) hanswer hnotes
  rw [hstate, List.getElem?_eq_getElem hi] at hafter
  exact hafter

variable (hitems : items ≠ []) (hlate : env.late = true) (hregistry : env.registry = .builtin)
include hitems hlate hregistry

/-- **An even choice is the member that its draw gives**, from the state that the draw leaves. -/
theorem agrees_choose {k i : Nat} (hk : k < env.limit) {options : ChoiceOptions}
    (hoptions : ChoiceOptions.ofTokens o.uid ts = options)
    (hdraw : (options.source env.host s).EndsAt items.length k i) (hi : i < items.length) :
    (inContext (limit + 2) env (.call "Choose" (.array items o' :: ts.map .token) o) ctx s).Agrees
      (visit env (inContext (limit + 1)) items[i] ctx
        (options.left s ((options.source env.host s).ahead (k + 1)))) := by
  have hget : Registry.get? env.registry "Choose" = some choose := by
    rw [hregistry]
    rfl
  rw [inContext_late hlate (by decide) hget rfl]
  simp only [choose, Function.forgetful]
  rw [withMembers_written, hoptions]
  obtain ⟨n, rest, rfl⟩ := List.exists_cons_of_ne_nil hitems
  exact agrees_pick options (uniformIndex_of_endsAt hdraw hk) hi id _

/-- **A choice by weight is the member that one draw gives**, without its weight. -/
theorem agrees_chooseWeighted (hweights : ∀ n ∈ items, Weighed n) {options : ChoiceOptions}
    (hoptions : ChoiceOptions.ofTokens o.uid ts = options)
    (hpositive : ((weighted items).total == 0.0) = false)
    (hfinite : (weighted items).total.isInf = false) {i : Nat}
    (hdraw : (weighted items).index (options.source env.host s).value = i)
    (hi : i < items.length) :
    (inContext (limit + 2) env (.call "ChooseWeighted" (.array items o' :: ts.map .token) o) ctx
      s).Agrees
      (visit env (inContext (limit + 1)) (strip weightKey options.flatten items[i]) ctx
        (options.left s (options.source env.host s).advance)) := by
  have hget : Registry.get? env.registry "ChooseWeighted" = some chooseWeighted := by
    rw [hregistry]
    rfl
  rw [inContext_late hlate (by decide) hget rfl]
  simp only [chooseWeighted, Function.forgetful]
  rw [withMembers_written, hoptions]
  obtain ⟨n, rest, rfl⟩ := List.exists_cons_of_ne_nil hitems
  refine (arrives_weights hweights s).agrees_given.trans ?_
  have htotal : (weighted (n :: rest)).total =
      (Weighted.ofWeights (weightIn n) (rest.map weightIn)).total := rfl
  rw [htotal] at hpositive hfinite
  rw [List.map_cons]
  simp only [hpositive, hfinite, Bool.false_eq_true, if_false]
  refine agrees_pick options ?_ hi _ _
  rw [← hdraw]
  rfl

end

/-- **A choice is a fair pick of a member.** Let the list of a choice be written out, with some
member, and let its options be tokens. What is sampled is the generator `g` of the options.

* If an even pick from `g` ends, `Choose` agrees with the reduction of the member at its index, from
  the state that the draws leave.
* If the weights are tokens and add up to more than nothing and less than infinity,
  `ChooseWeighted` agrees with the reduction of the member at the index of one draw, without its
  weight, or of the only value that is then left of it if it is to be unwrapped.
* Every index has the same number of draws that an even pick accepts. -/
theorem choice_is_fair {env : Surroundings} (hlate : env.late = true)
    (hregistry : env.registry = .builtin) {items : List Node} (hitems : items ≠ [])
    (ts : List Token) (o o' : Origin) (ctx : Context) (limit : Nat) (s : WalkState) :
    let options := ChoiceOptions.ofTokens o.uid ts
    let g := options.source env.host s
    let consumed (f : String) :=
      inContext (limit + 2) env (.call f (.array items o' :: ts.map .token) o) ctx s
    let reduced (member : Node) (drawn : Nat) :=
      visit env (inContext (limit + 1)) member ctx (options.left s (g.ahead drawn))
    (∀ k < env.limit, ∀ i, g.EndsAt items.length k i →
      ∃ hi : i < items.length, (consumed "Choose").Agrees (reduced items[i] (k + 1))) ∧
    ((∀ n ∈ items, Weighed n) → ((weighted items).total == 0.0) = false →
      (weighted items).total.isInf = false →
      ∃ i, ∃ hi : i < items.length, (weighted items).index g.value = i ∧
        (consumed "ChooseWeighted").Agrees
          (reduced (strip weightKey (ts.any fun t => decide (t.value = flattenOption)) items[i])
            1)) ∧
    (items.length ≤ drawRange → ∀ i < items.length,
      ((Finset.range drawRange).filter fun v => acceptedIndex? items.length v = some i).card =
        drawRange / items.length) := by
  intro options g consumed reduced
  have hlength := List.length_pos_iff.mpr hitems
  refine ⟨fun k hk i hdraw => ?_, fun hweights hpositive hfinite => ?_, fun hrange i hi => ?_⟩
  · have hi : i < items.length := acceptedIndex?_lt (g.ahead k).value.toNat_lt hdraw.2 hlength
    exact ⟨hi, agrees_choose ts o o' hitems hlate hregistry hk rfl hdraw hi⟩
  · have hi := weighted_index_lt hitems g.value
    refine ⟨_, hi, rfl, ?_⟩
    rw [← ChoiceOptions.ofTokens_flatten o.uid ts]
    exact agrees_chooseWeighted ts o o' hitems hlate hregistry hweights rfl hpositive hfinite rfl hi
  · exact card_accepted hlength hrange hi

/-- Two members, of which the second weighs two, and a draw from the upper half of the range. -/
theorem choice_is_fair_two :
    let env := (Engine.start .standard (.plain (fun _ => none) fun _ => none) 0).surroundings true ""
    let o : Origin := .unwritten
    let word (s : String) : Node := .token (.content s o)
    let heavy := Node.block [(.content "Weight" o, word "2"), (.content "x" o, word "b")] o
    let consumed (f : String) (ts : List Token) :=
      inContext 9 env (.call f (.array [word "a", heavy] o :: ts.map .token) o) .empty
        ⟨.listed [0xc000000000000000], []⟩
    let reduced (member : Node) :=
      visit env (inContext 8) member .empty ⟨(Generator.listed [0xc000000000000000]).ahead 1, []⟩
    (consumed "Choose" []).Agrees (reduced heavy) ∧
      (consumed "ChooseWeighted" [.content "Flatten" o]).Agrees (reduced (word "b")) ∧
      ((Finset.range drawRange).filter fun v => acceptedIndex? 2 v = some 1).card =
        9223372036854775808 := by
  intro env o word heavy consumed reduced
  let s : WalkState := ⟨.listed [0xc000000000000000], []⟩
  have hweights : ∀ n ∈ [word "a", heavy], Weighed n := by
    have hweight : memberEntry weightKey heavy = some (word "2") := rfl
    intro n hn w hw
    rcases List.mem_pair.mp hn with rfl | rfl
    · exact nomatch hw
    · exact ⟨_, Option.some.inj (hw.symm.trans hweight)⟩
  obtain ⟨heven, -, hshare⟩ := choice_is_fair (show env.late = true from rfl) rfl
    (List.cons_ne_nil (word "a") [heavy]) [] o o .empty 7 s
  obtain ⟨-, hweighed, -⟩ := choice_is_fair (show env.late = true from rfl) rfl
    (List.cons_ne_nil (word "a") [heavy]) [.content "Flatten" o] o o .empty 7 s
  obtain ⟨_, hchosen⟩ := heven 0 (by decide +kernel) 1 (by decide +kernel)
  obtain ⟨i, hi, hdraw, hpicked⟩ := hweighed hweights (by decide +kernel) (by decide +kernel)
  have hindex : (weighted [word "a", heavy]).index
      ((ChoiceOptions.ofTokens o.uid [.content "Flatten" o]).source env.host s).value = 1 := by
    decide +kernel
  obtain rfl : i = 1 := hdraw.symm.trans hindex
  have hrange : 2 ≤ drawRange := by decide
  exact ⟨hchosen, hpicked, (hshare hrange 1 Nat.one_lt_two).trans (by decide +kernel)⟩

end Reduce

end ContentLang
