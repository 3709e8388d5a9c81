import Mathlib.Data.List.Basic
import ContentLang.Proofs.Settled.Settled

/-!
# What pure nodes yield

A node is **pure** (`ContentLang.Node.Pure`) if it is made of tokens, arrays, blocks, calls of
names that are not known, calls of the functions that look at nothing but their parameters
(`ContentLang.pureNames`), and choices between one token. What a pass makes of such a node does
not depend on conditions or on generators. It is computed by `ContentLang.Node.yield`, which
goes bottom up and takes the meaning of each function:

| a node | yields |
|---|---|
| token | itself |
| array, block | what its parts yield, without those that yield nothing |
| call of a name that is not known | the call, of what the parameters yield |
| call of a pure function | what it means, of what the parameters yield; a call of these if it waits |
| choice between one token | while content is loaded the choice, and in consumption the token |

The two passes differ in choices alone, and in what waits for them. A `Combine` yields nothing,
if none of its parameters yields anything but null. In parameters and data null takes the place
of nothing (`ContentLang.Node.yieldNode`). What is yielded is in bare form.
-/

namespace ContentLang

/-! ### Functions that are pure -/

/-- What a call comes to, its parameters being what they come to. -/
abbrev Evaluation := World → Call → Outcome

/-- What a function means where nothing is bound. -/
def Meaning.evaluation {α : Type} (m : Meaning α) : Evaluation := fun w call =>
  m.outcome Registry.builtin.isKnown w call []

/-- The functions that look at nothing but their parameters, and what they mean. -/
def pureFunctions : Entries String Evaluation :=
  [("@", (Meaning.assetWith fun w path => w.host.assetName path).evaluation),
   ("@@", (Meaning.assetWith fun w path => Path.compose w.settings.contentRoot path).evaluation),
   ("Concatenate", Meaning.concatenate.evaluation), ("Join", Meaning.join.evaluation),
   ("Combine", Meaning.combine.evaluation),
   ("Vector2", (Meaning.record .vector).evaluation),
   ("Point", (Meaning.record .vector).evaluation),
   ("Rectangle", (Meaning.record .rectangle).evaluation),
   ("Color", (Meaning.record .color).evaluation), ("^", Meaning.readBinding.evaluation)]

/-- The names of the functions that look at nothing but their parameters. -/
def pureNames : List String :=
  ["@", "@@", "Concatenate", "Join", "Combine", "Vector2", "Point", "Rectangle", "Color", "^"]

/-- What a choice between one member means. -/
def onlyMember : Evaluation := fun _ call =>
  match call.params with
  | [.array [n] _] => .value n
  | _ => .error call.origin

/-- What is known of calls in pure nodes: choices are made in consumption alone. -/
def evaluations (late : Bool) : Entries String Evaluation :=
  if late then ("Choose", onlyMember) :: pureFunctions else pureFunctions

/-- What is left of a call that came to an outcome: the call itself, if it has to wait. -/
def Outcome.left (call : Node) : Outcome → Option Node
  | value n => some (bare n)
  | pending => some call
  | _ => none

theorem Outcome.bare_left {out : Outcome} {call m : Node} (hcall : bare call = call)
    (h : out.left call = some m) : bare m = m := by
  cases out with
  | value n => rw [← Option.some.inj h, Node.bare_bare]
  | pending => rw [← Option.some.inj h, hcall]
  | empty => exact nomatch h
  | splice items => exact nomatch h

/-- It does not matter where an outcome stands. -/
theorem Outcome.left_of_alike {out out' : Outcome} (h : Alike out out') (call : Node) :
    out.left call = out'.left call := by
  cases out <;> cases out' <;> simp_all [Alike, left]

/-- What a call yields, of what its parameters yield. -/
def evaluate (w : World) (late : Bool) (f : String) (ps : List Node) (o : Origin) : Option Node :=
  match Entries.get? (evaluations late) f with
  | some d => (d w ⟨f, ps, o⟩).left (.call f ps o)
  | none => some (.call f ps o)

namespace Node

/-- **The pure nodes**, whose arrays, blocks and calls come from where `P` holds. -/
inductive Pure (P : Origin → Prop) : Node → Prop
  | token (t : Token) : Pure P (.token t)
  | array {is : List Node} {o : Origin} (ho : P o) (his : ∀ i ∈ is, Pure P i) :
    Pure P (.array is o)
  | block {es : List (Token × Node)} {o : Origin} (ho : P o) (hes : ∀ e ∈ es, Pure P e.2) :
    Pure P (.block es o)
  | unknown {f : String} {ps : List Node} {o : Origin}
    (hf : Registry.builtin.isKnown f = false) (ho : P o) (hps : ∀ p ∈ ps, Pure P p) :
    Pure P (.call f ps o)
  | statement {f : String} {ps : List Node} {o : Origin} {data : Node}
    (hf : Registry.builtin.isKnown f = false) (ho : P o) (hps : ∀ p ∈ ps, Pure P p)
    (hdata : Pure P data) : Pure P (.statement f ps o data)
  | call {f : String} {ps : List Node} {o : Origin} (hf : f ∈ pureNames) (ho : P o)
    (hps : ∀ p ∈ ps, Pure P p) : Pure P (.call f ps o)
  | choice (t : Token) (o : Origin) {o' : Origin} (ho : P o') :
    Pure P (.call "Choose" [.array [.token t] o] o')

theorem Pure.bare {P : Origin → Prop} {n : Node} (h : n.Pure P) : (bare n).Pure fun _ => True := by
  induction h with
  | token t => exact .token _
  | array _ _ ih =>
    rw [bare_array]
    exact .array trivial (List.forall_mem_map.mpr ih)
  | block _ _ ih =>
    rw [bare_block]
    exact .block trivial (List.forall_mem_map.mpr ih)
  | unknown hf _ _ ih =>
    rw [bare_call]
    exact .unknown hf trivial (List.forall_mem_map.mpr ih)
  | statement hf _ _ _ ih ihdata =>
    rw [bare_statement]
    exact .statement hf trivial (List.forall_mem_map.mpr ih) ihdata
  | call hf _ _ ih =>
    rw [bare_call]
    exact .call hf trivial (List.forall_mem_map.mpr ih)
  | choice t o _ => exact .choice _ _ trivial

/-! ### What nodes yield -/

/-- What takes the place of nothing. -/
def nullNode : Node := .token (bare (.null .unwritten))

mutual

/-- **What a node yields** in a pass, if anything. -/
def yield (w : World) (late : Bool) : Node → Option Node
  | token t => some (token (bare t))
  | call f ps o => evaluate w late f (yieldParams w late ps) o.bare
  | statement f ps o data =>
    some (statement f (yieldParams w late ps) o.bare ((yield w late data).getD nullNode))
  | block es _ => some (block (yieldEntries w late es) .unwritten)
  | array is _ => some (array (yieldItems w late is) .unwritten)

/-- What parameters yield, with null in place of nothing. -/
def yieldParams (w : World) (late : Bool) : List Node → List Node
  | [] => []
  | p :: ps => (yield w late p).getD nullNode :: yieldParams w late ps

/-- What items yield. -/
def yieldItems (w : World) (late : Bool) : List Node → List Node
  | [] => []
  | i :: is => (yield w late i).toList ++ yieldItems w late is

/-- What the values of entries yield, under their keys. -/
def yieldEntries (w : World) (late : Bool) :
    List (TokenOf Node × Node) → List (TokenOf Node × Node)
  | [] => []
  | (k, n) :: es => ((yield w late n).map (bare k, ·)).toList ++ yieldEntries w late es

end

/-- What a node yields where there has to be one. -/
def yieldNode (w : World) (late : Bool) (n : Node) : Node := (yield w late n).getD nullNode

/-- What an entry yields. -/
def yieldEntry (w : World) (late : Bool) (e : Token × Node) : Option (Token × Node) :=
  (yield w late e.2).map (bare e.1, ·)

variable {w : World} {late : Bool}

theorem yieldParams_eq (ps : List Node) : yieldParams w late ps = ps.map (yieldNode w late) := by
  induction ps with
  | nil => rfl
  | cons p ps ih => exact congrArg (yieldNode w late p :: ·) ih

theorem yieldItems_eq (is : List Node) : yieldItems w late is = is.filterMap (yield w late) := by
  induction is with
  | nil => rfl
  | cons i is ih =>
    rw [yieldItems, ih, List.filterMap_cons]
    cases yield w late i <;> rfl

theorem yieldEntries_eq (es : List (Token × Node)) :
    yieldEntries w late es = es.filterMap (yieldEntry w late) := by
  induction es with
  | nil => rfl
  | cons e es ih =>
    obtain ⟨k, n⟩ := e
    rw [yieldEntries, ih, List.filterMap_cons, yieldEntry]
    cases yield w late n <;> rfl

@[simp] theorem yield_token (t : Token) : yield w late (token t) = some (token (bare t)) := rfl

@[simp] theorem yield_array (is : List Node) (o : Origin) :
    yield w late (array is o) = some (array (is.filterMap (yield w late)) .unwritten) := by
  rw [yield, yieldItems_eq]

@[simp] theorem yield_block (es : List (Token × Node)) (o : Origin) :
    yield w late (block es o) = some (block (es.filterMap (yieldEntry w late)) .unwritten) := by
  rw [yield, yieldEntries_eq]

@[simp] theorem yield_call (f : String) (ps : List Node) (o : Origin) :
    yield w late (call f ps o) = evaluate w late f (ps.map (yieldNode w late)) o.bare := by
  rw [yield, yieldParams_eq]

@[simp] theorem yield_statement (f : String) (ps : List Node) (o : Origin) (data : Node) :
    yield w late (statement f ps o data) =
      some (statement f (ps.map (yieldNode w late)) o.bare (yieldNode w late data)) := by
  rw [yield, yieldParams_eq]
  rfl

theorem yieldNode_of_some {n m : Node} (h : yield w late n = some m) : yieldNode w late n = m := by
  simp [yieldNode, h]

theorem yieldNode_of_none {n : Node} (h : yield w late n = none) :
    yieldNode w late n = nullNode := by
  simp [yieldNode, h]

/-! ### What is yielded is bare -/

theorem bare_yield {n m : Node} (h : yield w late n = some m) : bare m = m := by
  have hparam : ∀ {p : Node}, (∀ m, yield w late p = some m → bare m = m) →
      bare (yieldNode w late p) = yieldNode w late p := fun {p} hp => by
    cases hy : yield w late p with
    | none => simp [yieldNode, hy, nullNode, bare_key]
    | some m => simpa [yieldNode, hy] using hp m hy
  have hparams : ∀ {ps : List Node}, (∀ p ∈ ps, ∀ m, yield w late p = some m → bare m = m) →
      bare (ps.map (yieldNode w late)) = ps.map (yieldNode w late) := fun hps =>
    bare_eq_self <| List.forall_mem_map.mpr fun p hp => hparam (hps p hp)
  induction n generalizing m with
  | token t => rw [← Option.some.inj h]; rfl
  | array is o ih =>
    have hitems : bare (is.filterMap (yield w late)) = is.filterMap (yield w late) :=
      bare_eq_self fun m hm => by
        obtain ⟨i, hi, hm⟩ := List.mem_filterMap.mp hm
        exact ih i hi hm
    rw [yield_array] at h
    simp [← Option.some.inj h, hitems]
  | block es o ih =>
    have hentries : bare (es.filterMap (yieldEntry w late)) = es.filterMap (yieldEntry w late) :=
      bare_eq_self fun e' he' => by
        obtain ⟨e, he, he'⟩ := List.mem_filterMap.mp he'
        obtain ⟨m, hm, rfl⟩ := Option.map_eq_some_iff.mp he'
        exact congrArg (Prod.mk (bare e.1)) (ih e he hm)
    rw [yield_block] at h
    simp [← Option.some.inj h, hentries]
  | call f ps o ih =>
    have hcall : bare (call f (ps.map (yieldNode w late)) o.bare) =
        call f (ps.map (yieldNode w late)) o.bare := by
      rw [bare_call, hparams fun p hp m hm => ih p hp hm, OriginOf.bare_bare]
    rw [yield_call, evaluate] at h
    split at h
    · exact Outcome.bare_left hcall h
    · rw [← Option.some.inj h, hcall]
  | statement f ps o data ih ihdata =>
    rw [yield_statement] at h
    simp [← Option.some.inj h, hparams fun p hp m hm => ih p hp hm, hparam fun m hm => ihdata hm]

theorem bare_yieldItems (is : List Node) :
    bare (is.filterMap (yield w late)) = is.filterMap (yield w late) :=
  bare_eq_self <| List.forall_mem_filterMap.mpr fun _ _ _ hm => bare_yield hm

theorem bare_yieldEntry {e e' : Token × Node} (h : yieldEntry w late e = some e') :
    bare e' = e' := by
  obtain ⟨n, hn, rfl⟩ := Option.map_eq_some_iff.mp h
  exact congrArg (Prod.mk (bare e.1)) (bare_yield hn)

@[simp] theorem bare_yieldNode (n : Node) : bare (yieldNode w late n) = yieldNode w late n := by
  cases h : yield w late n with
  | none => rw [yieldNode_of_none h]; rfl
  | some m => rw [yieldNode_of_some h, bare_yield h]

/-! ### Nodes that are alike -/

theorem yield_bare (n : Node) : yield w late (bare n) = yield w late n := by
  have hparams : ∀ {ps : List Node}, (∀ p ∈ ps, yield w late (bare p) = yield w late p) →
      (bare ps).map (yieldNode w late) = ps.map (yieldNode w late) := fun {ps} hps => by
    rw [bare_list, List.map_map]
    exact List.map_congr_left fun p hp => by simp [yieldNode, hps p hp]
  induction n with
  | token t => rfl
  | call f ps o ih => simp [hparams ih]
  | statement f ps o data ih ihdata => simp [hparams ih, yieldNode, ihdata]
  | array is o ih =>
    have hitems : (bare is).filterMap (yield w late) = is.filterMap (yield w late) := by
      rw [bare_list, List.filterMap_map]
      exact List.filterMap_congr ih
    simp [hitems]
  | block es o ih =>
    have hentries : (bare es).filterMap (yieldEntry w late) = es.filterMap (yieldEntry w late) := by
      rw [bare_list, List.filterMap_map]
      exact List.filterMap_congr fun e he => congrArg (Option.map _) (ih e he)
    simp [hentries]

end Node

/-! ### Names -/

/-- What is not known has no evaluation. -/
theorem evaluations_of_unknown {f : String} (hf : Registry.builtin.isKnown f = false)
    (late : Bool) : Entries.get? (evaluations late) f = none := by
  have hnames : ∀ late, ∀ e ∈ evaluations late, Registry.builtin.isKnown e.1 = true := by decide
  cases hd : Entries.find? (evaluations late) f with
  | none => simp [Entries.get?, hd]
  | some e =>
    have hname : e.1 = f := by simpa using List.find?_some hd
    exact absurd (hnames late e (List.mem_of_find?_eq_some hd)) (by simp [hname, hf])

theorem known_of_pure {f : String} (hf : f ∈ pureNames) : Registry.builtin.isKnown f = true := by
  have hnames : ∀ f ∈ pureNames, Registry.builtin.isKnown f = true := by decide
  exact hnames f hf

theorem not_construct_of_pure {f : String} (hf : f ∈ pureNames) : f ∉ constructs := by
  have hnames : ∀ f ∈ pureNames, f ∉ constructs := by decide
  exact hnames f hf

/-- What is known of calls that are not late does not depend on the pass. -/
theorem evaluations_of_not_late {f : String} (hf : Registry.builtin.isLate f = false) :
    Entries.get? (evaluations false) f = Entries.get? (evaluations true) f := by
  have hchoose : Registry.builtin.isLate "Choose" = true := by decide
  have hname : "Choose" ≠ f := fun h => by simp [← h, hchoose] at hf
  simp [evaluations, Entries.get?, Entries.find?, hname]

namespace Node

variable {w : World} {late : Bool}

/-- A call that is not known yields a call that is not known. -/
theorem yield_unknown {f : String} (hf : Registry.builtin.isKnown f = false) (ps : List Node)
    (o : Origin) :
    (call f ps o).yield w late = some (.call f (ps.map (yieldNode w late)) o.bare) := by
  rw [yield_call, evaluate, evaluations_of_unknown hf]

/-- A choice between one token is left until it is consumed, and comes to the token. -/
theorem yield_choice (t : Token) (o o' : Origin) :
    (call "Choose" [.array [.token t] o] o').yield w late =
      some (if late then .token (bare t) else bare (call "Choose" [.array [.token t] o] o')) := by
  rw [yield_call, List.map_singleton, yieldNode_of_some (yield_array _ _)]
  cases late <;> rfl

/-! ### Inert nodes -/

/-- An inert node yields itself. -/
theorem Inert.yield {n : Node} (h : n.Inert Registry.builtin.isKnown) :
    n.yield w late = some (bare n) := by
  have hparams : ∀ {ps : List Node}, (∀ p ∈ ps, p.yield w late = some (bare p)) →
      ps.map (yieldNode w late) = bare ps := fun hps =>
    List.map_congr_left fun p hp => yieldNode_of_some (hps p hp)
  induction n with
  | token t => rfl
  | array is o ih =>
    have hitems : is.filterMap (Node.yield w late) = bare is := by
      rw [bare_list, ← List.filterMap_eq_map]
      exact List.filterMap_congr fun i hi => ih i hi (inert_array.mp h i hi)
    rw [yield_array, hitems, bare_array]
  | block es o ih =>
    have hentries : es.filterMap (yieldEntry w late) = bare es := by
      rw [bare_list, ← List.filterMap_eq_map]
      exact List.filterMap_congr fun e he => by
        rw [yieldEntry, ih e he (inert_block.mp h e he)]
        rfl
    rw [yield_block, hentries, bare_block]
  | call f ps o ih =>
    obtain ⟨hf, hps⟩ := inert_call.mp h
    rw [yield_unknown hf, hparams fun p hp => ih p hp (hps p hp), bare_call]
  | statement f ps o data ih ihdata =>
    obtain ⟨-, hps, hdata⟩ := inert_statement.mp h
    rw [yield_statement, hparams fun p hp => ih p hp (hps p hp),
      yieldNode_of_some (ihdata hdata), bare_statement]

/-- **Where nothing is late both passes yield the same.** -/
theorem yield_of_not_late {n : Node} (h : n.Inert Registry.builtin.isLate) :
    n.yield w false = n.yield w true := by
  have hparams : ∀ {ps : List Node}, (∀ p ∈ ps, p.yield w false = p.yield w true) →
      ps.map (yieldNode w false) = ps.map (yieldNode w true) := fun hps =>
    List.map_congr_left fun p hp => congrArg (Option.getD · nullNode) (hps p hp)
  induction n with
  | token t => rfl
  | array is o ih =>
    rw [yield_array, yield_array,
      List.filterMap_congr fun i hi => ih i hi (inert_array.mp h i hi)]
  | block es o ih =>
    have hentries : es.filterMap (yieldEntry w false) = es.filterMap (yieldEntry w true) :=
      List.filterMap_congr fun e he => congrArg (Option.map _) (ih e he (inert_block.mp h e he))
    rw [yield_block, yield_block, hentries]
  | call f ps o ih =>
    obtain ⟨hf, hps⟩ := inert_call.mp h
    rw [yield_call, yield_call, hparams fun p hp => ih p hp (hps p hp), evaluate, evaluate,
      evaluations_of_not_late hf]
  | statement f ps o data ih ihdata =>
    obtain ⟨-, hps, hdata⟩ := inert_statement.mp h
    rw [yield_statement, yield_statement, hparams fun p hp => ih p hp (hps p hp), yieldNode,
      yieldNode, ihdata hdata]

end Node

end ContentLang
