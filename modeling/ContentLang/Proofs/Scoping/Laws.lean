import ContentLang.Proofs.Scoping.Evaluation
import ContentLang.Proofs.Walk.Inert
import ContentLang.Proofs.Walk.Parts
import ContentLang.Reduce

/-!
# Laws of evaluation

What is used of values and of evaluation in a scope (`ContentLang.Scoping.result`):

* values as nodes hold no calls, and a result takes its place in a parameter, a sequence or a block
  as the outcome does that is alike (`ContentLang.Scoping.Result.outcome`);
* what a node comes to does not depend on the identities in it
  (`ContentLang.Scoping.evaluate_markUid`), so that the marks that includes put on a file make no
  difference;
* of the calls that are evaluated, each has the effect that is due to its name
  (`ContentLang.Scoping.effect_bind` and those after it).
-/

namespace ContentLang

namespace Scoping

open Walk

/-! ### Values as nodes -/

theorem alike_token_iff {w : Word} {t : Token} : Alike w.token t ↔ wordOf t = w := by
  constructor
  · intro h
    rw [wordOf, ← h.value, ← h.isContent]
    rfl
  · rintro rfl
    rfl

namespace Value

@[simp] theorem node_word (w : Word) : (word w).node = .token w.token := by simp [node]

theorem nodes_eq (vs : List Value) : nodes vs = vs.map node := by
  induction vs with
  | nil => rfl
  | cons v vs ih => exact congrArg (v.node :: ·) ih

theorem nodeEntries_eq (es : List (Word × Value)) :
    nodeEntries es = es.map fun e => (e.1.token, e.2.node) := by
  induction es with
  | nil => rfl
  | cons e es ih => exact congrArg ((e.1.token, e.2.node) :: ·) ih

@[simp] theorem node_array (vs : List Value) :
    (array vs).node = .array (vs.map node) .unwritten := by
  rw [node, nodes_eq]

@[simp] theorem node_block (es : List (Word × Value)) :
    (block es).node = .block (es.map fun e => (e.1.token, e.2.node)) .unwritten := by
  rw [node, nodeEntries_eq]

mutual

/-- No call is left in a value. -/
theorem inert_node {known : String → Bool} : ∀ v : Value, v.node.Inert known
  | word w => by simp
  | array vs => Node.inert_array.mpr (inert_nodes vs)
  | block es => Node.inert_block.mpr (inert_nodeEntries es)

theorem inert_nodes {known : String → Bool} : ∀ vs : List Value, ∀ n ∈ nodes vs, n.Inert known
  | [] => by simp [nodes]
  | v :: vs => List.forall_mem_cons.mpr ⟨inert_node v, inert_nodes vs⟩

theorem inert_nodeEntries {known : String → Bool} :
    ∀ es : List (Word × Value), ∀ e ∈ nodeEntries es, e.2.Inert known
  | [] => by simp [nodeEntries]
  | (_, v) :: es => List.forall_mem_cons.mpr ⟨inert_node v, inert_nodeEntries es⟩

end

end Value

/-! ### Results as outcomes -/

namespace Result

/-- A result as an outcome. -/
def outcome : Result → Outcome
  | value v => .value v.node
  | nothing => .empty
  | several vs => .splice (vs.map Value.node)

variable {r : Result} {out : Outcome} {vs : List Value} {ns : List Node}

theorem toNode_outcome (h : Alike r.outcome out) (o : Origin) :
    ∃ n, out.toNode? o = some n ∧ Alike r.single.node n := by
  cases r with
  | value v =>
    obtain ⟨n, rfl, hn⟩ := Outcome.alike_value_iff.mp h
    exact ⟨n, rfl, hn⟩
  | nothing =>
    obtain rfl := Outcome.alike_empty_iff.mp h
    exact ⟨_, rfl, rfl⟩
  | several vs =>
    obtain ⟨ns, rfl, hns⟩ := Outcome.alike_splice_iff.mp h
    exact ⟨_, rfl, by simpa [single, Alike] using hns⟩

theorem toItems_outcome (h : Alike r.outcome out) :
    ∃ ns, out.toItems? = some ns ∧ Alike (r.items.map Value.node) ns := by
  cases r with
  | value v =>
    obtain ⟨n, rfl, hn⟩ := Outcome.alike_value_iff.mp h
    exact ⟨[n], rfl, alike_cons_iff.mpr ⟨n, [], rfl, hn, rfl⟩⟩
  | nothing =>
    obtain rfl := Outcome.alike_empty_iff.mp h
    exact ⟨[], rfl, rfl⟩
  | several vs =>
    obtain ⟨ns, rfl, hns⟩ := Outcome.alike_splice_iff.mp h
    exact ⟨ns, rfl, hns⟩

theorem toEntries_outcome (h : Alike r.outcome out) (k : Token) (o : Origin) :
    ∃ es, out.toEntries? k o = some es ∧
      Alike ((r.fields (wordOf k)).map fun e => (e.1.token, e.2.node)) es := by
  have hkey : Alike (wordOf k).token k := alike_token_iff.mpr rfl
  have hone : ∀ {m n : Node}, Alike m n → Alike [((wordOf k).token, m)] [(k, n)] := fun hmn =>
    congrArg (fun e => [e]) (Prod.ext hkey hmn)
  cases r with
  | value v =>
    obtain ⟨n, rfl, hn⟩ := Outcome.alike_value_iff.mp h
    exact ⟨_, rfl, hone hn⟩
  | nothing =>
    obtain rfl := Outcome.alike_empty_iff.mp h
    exact ⟨[], rfl, rfl⟩
  | several vs =>
    obtain ⟨ns, rfl, hns⟩ := Outcome.alike_splice_iff.mp h
    exact ⟨_, rfl, hone (by simpa [Alike] using hns)⟩

theorem alike_ofItems (h : Alike (vs.map Value.node) ns) :
    Alike (ofItems vs).outcome (.ofItems ns) := by
  match vs, h with
  | [], h =>
    obtain rfl := alike_nil_iff.mp h
    rfl
  | [v], h =>
    obtain ⟨n, rest, rfl, hn, hrest⟩ := alike_cons_iff.mp h
    obtain rfl := alike_nil_iff.mp hrest
    exact Outcome.alike_value_iff.mpr ⟨n, rfl, hn⟩
  | v :: w :: vs, h =>
    obtain ⟨m, rest, rfl, hm, hrest⟩ := alike_cons_iff.mp h
    obtain ⟨n, rest, rfl, hn, hrest'⟩ := alike_cons_iff.mp hrest
    exact Outcome.alike_splice_iff.mpr ⟨_, rfl, h⟩

/-- Only the elements of a file that are a single array are taken out of it. -/
theorem alike_ofFile (h : Alike (vs.map Value.node) ns) :
    Alike (ofFile vs).outcome (Reduce.spliced ns) := by
  by_cases harray : ∃ ws, vs = [.array ws]
  · obtain ⟨ws, rfl⟩ := harray
    obtain ⟨n, rest, rfl, hn, hrest⟩ := alike_cons_iff.mp h
    obtain rfl := alike_nil_iff.mp hrest
    obtain ⟨ms, o, rfl, hms⟩ := (Value.node_array ws ▸ hn).array
    exact Outcome.alike_splice_iff.mpr ⟨ms, rfl, hms⟩
  · have hspliced : Reduce.spliced ns = .ofItems ns := by
      unfold Reduce.spliced
      split
      next is o =>
        refine absurd ?_ harray
        obtain ⟨v, rfl⟩ : ∃ v, vs = [v] := List.length_eq_one_iff.mp (by simpa using h.length)
        obtain ⟨n, rest, hns, hn, hrest⟩ := alike_cons_iff.mp h
        obtain ⟨rfl, rfl⟩ := List.cons.inj hns
        cases v with
        | array ws => exact ⟨ws, rfl⟩
        | word w => simp [Alike] at hn
        | block es => simp [Alike] at hn
      next => rfl
    have hown : ofFile vs = ofItems vs := by
      unfold ofFile
      split
      next ws => exact absurd ⟨ws, rfl⟩ harray
      next => rfl
    rw [hspliced, hown]
    exact alike_ofItems h

end Result

/-! ### Content that is evaluated -/

theorem front_of_isFront {files : String → Bool} {o : Origin} {f : String} {ps : List Node}
    (h : isFront files o f ps = true) : Front files o f ps := by
  unfold isFront at h
  split at h
  next t =>
    simp only [Bool.or_eq_true, Bool.and_eq_true, decide_eq_true_eq] at h
    rcases h with rfl | ⟨rfl, hfile⟩
    · exact .read t
    · exact .file t hfile
  next t p =>
    simp only [Bool.or_eq_true, Bool.and_eq_true, decide_eq_true_eq] at h
    rcases h with (rfl | rfl) | ⟨⟨rfl, hblock⟩, hfile⟩
    · exact .bind t p
    · exact .readOr t p
    · cases p with
      | block es o' => exact .fileWith t es o' hfile
      | _ => simp [Node.entries?] at hblock
  next => exact absurd h Bool.false_ne_true

end Scoping

namespace Node

variable {files : String → Bool}

@[simp] theorem lexicalAll_iff {ns : List Node} :
    lexicalAll files ns = true ↔ ∀ n ∈ ns, n.lexical files = true := by
  induction ns with
  | nil => simp
  | cons n ns ih => rw [lexicalAll, Bool.and_eq_true, ih, List.forall_mem_cons]

@[simp] theorem lexicalEntries_iff {es : List (Token × Node)} :
    lexicalEntries files es = true ↔ ∀ e ∈ es, e.2.lexical files = true := by
  induction es with
  | nil => simp
  | cons e es ih => rw [lexicalEntries, Bool.and_eq_true, ih, List.forall_mem_cons]

theorem lexical_token (t : Token) : (token t).lexical files = true := rfl

theorem lexical_array {items : List Node} {o : Origin} :
    (array items o).lexical files = true ↔ ∀ n ∈ items, n.lexical files = true := by
  rw [lexical, lexicalAll_iff]

theorem lexical_block {es : List (Token × Node)} {o : Origin} :
    (block es o).lexical files = true ↔ ∀ e ∈ es, e.2.lexical files = true := by
  rw [lexical, lexicalEntries_iff]

theorem lexical_call {f : String} {ps : List Node} {o : Origin} :
    (call f ps o).lexical files = true ↔
      Scoping.isFront files o f ps = true ∧ ∀ p ∈ ps, p.lexical files = true := by
  rw [lexical, Bool.and_eq_true, lexicalAll_iff]

theorem lexical_statement {f : String} {ps : List Node} {o : Origin} {data : Node} :
    (statement f ps o data).lexical files = true ↔
      (call f ps o).lexical files = true ∧ data.lexical files = true := by
  rw [lexical, lexical, Bool.and_eq_true]

/-- Marks on identities make no difference for whether a call is evaluated. -/
theorem isFront_markUids (mark : String) (o : Origin) (f : String) (ps : List Node) :
    Scoping.isFront files { o with uid := mark ++ o.uid } f (markUids mark ps) =
      Scoping.isFront files o f ps := by
  match ps with
  | [] => rfl
  | [p] => cases p <;> rfl
  | [p, q] => cases p <;> cases q <;> rfl
  | p :: _ :: _ :: _ => cases p <;> rfl

/-- Marked nodes are evaluated if they were before. -/
theorem lexical_markUid (mark : String) {n : Node} (h : n.lexical files = true) :
    (n.markUid mark).lexical files = true := by
  have hlist : ∀ {ns : List Node},
      (∀ n ∈ ns, n.lexical files = true → (n.markUid mark).lexical files = true) →
        (∀ n ∈ ns, n.lexical files = true) → ∀ n ∈ markUids mark ns, n.lexical files = true := by
    intro ns ih hns n hn
    rw [markUids_eq] at hn
    obtain ⟨m, hm, rfl⟩ := List.mem_map.mp hn
    exact ih m hm (hns m hm)
  induction n with
  | token t => simp [markUid]
  | call f ps o ih =>
    obtain ⟨hfront, hps⟩ := lexical_call.mp h
    rw [markUid]
    exact lexical_call.mpr ⟨(isFront_markUids mark o f ps).trans hfront, hlist ih hps⟩
  | statement f ps o data ih ihdata =>
    obtain ⟨hcall, hdata⟩ := lexical_statement.mp h
    obtain ⟨hfront, hps⟩ := lexical_call.mp hcall
    rw [markUid]
    exact lexical_statement.mpr
      ⟨lexical_call.mpr ⟨(isFront_markUids mark o f ps).trans hfront, hlist ih hps⟩, ihdata hdata⟩
  | block es o ih =>
    have hes := lexical_block.mp h
    rw [markUid, lexical_block, markEntryUids_eq]
    intro e he
    obtain ⟨e', he', rfl⟩ := List.mem_map.mp he
    exact ih e' he' (hes e' he')
  | array is o ih =>
    rw [markUid, lexical_array]
    exact hlist ih (lexical_array.mp h)

end Node

namespace Scoping

variable {included : String → Scope → Result} {mark : String}

theorem length_params (scope : Scope) (ps : List Node) :
    (params included scope ps).length = ps.length := by
  induction ps with
  | nil => rfl
  | cons p ps ih => exact congrArg Nat.succ ih

/-! ### Effects -/

section

variable {scope : Scope} {file : String} {name path : Token} {n : Node}

theorem effect_bind : effect included scope setName file (params included scope [.token name, n]) =
    .binds (wordOf name) (result included scope n).single := by
  simp [Result.single]

theorem effect_read : effect included scope "^" file (params included scope [.token name]) =
    .gives (.value ((scope.lookup (wordOf name)).getD
      (.content (Library.unboundText name.value)))) := by
  simp [Result.single, show (wordOf name).value = name.value from rfl]

theorem effect_readOr : effect included scope "^" file (params included scope [.token name, n]) =
    .gives (.value ((scope.lookup (wordOf name)).getD (result included scope n).single)) := by
  simp [Result.single, setName]

theorem effect_file : effect included scope includeName file (params included scope [.token path]) =
    .gives (included (Path.resolve file path.value) scope) := by
  simp [Result.single, includeName, wordOf]

theorem effect_fileWith :
    effect included scope includeName file (params included scope [.token path, n]) =
      .gives (included (Path.resolve file path.value)
        (scope.overlaid (result included scope n).single)) := by
  simp [Result.single, includeName, setName, wordOf]

end

/-! ### Marked nodes -/

theorem sequence_markUids_of {ns : List Node} (h : ∀ n ∈ ns, ∀ scope,
    element included scope (n.markUid mark) = element included scope n) (scope : Scope) :
    sequence included scope (Node.markUids mark ns) = sequence included scope ns := by
  induction ns generalizing scope with
  | nil => rfl
  | cons n ns ih =>
    obtain ⟨hn, hns⟩ := List.forall_mem_cons.mp h
    rw [Node.markUids, sequence, sequence, hn, ih hns]

theorem params_markUids_of {ps : List Node} (h : ∀ p ∈ ps, ∀ scope,
    result included scope (p.markUid mark) = result included scope p) (scope : Scope) :
    params included scope (Node.markUids mark ps) = params included scope ps := by
  induction ps with
  | nil => rfl
  | cons p ps ih =>
    obtain ⟨hp, hps⟩ := List.forall_mem_cons.mp h
    rw [Node.markUids, params, params, hp, ih hps]

theorem fields_markEntryUids_of {es : List (Token × Node)} (h : ∀ e ∈ es, ∀ scope,
    result included scope (e.2.markUid mark) = result included scope e.2) (scope : Scope) :
    fields included scope (Node.markEntryUids mark es) = fields included scope es := by
  induction es with
  | nil => rfl
  | cons e es ih =>
    obtain ⟨he, hes⟩ := List.forall_mem_cons.mp h
    rw [Node.markEntryUids, fields, fields, he, ih hes]

/-- **Marks on identities make no difference** for what a node comes to, by itself or as an element
of a sequence. -/
theorem evaluate_markUid (mark : String) (n : Node) :
    (∀ scope, result included scope (n.markUid mark) = result included scope n) ∧
      ∀ scope, element included scope (n.markUid mark) = element included scope n := by
  induction n with
  | token t => exact ⟨fun _ => rfl, fun _ => rfl⟩
  | array is o ih =>
    have his := sequence_markUids_of fun i hi => (ih i hi).2
    simp only [Node.markUid, result, element, his, implies_true, and_self]
  | block es o ih =>
    have hes := fields_markEntryUids_of fun e he => (ih e he).1
    simp only [Node.markUid, result, element, hes, implies_true, and_self]
  | call f ps o ih =>
    have hps := params_markUids_of fun p hp => (ih p hp).1
    simp only [Node.markUid, result, element, hps, implies_true, and_self]
  | statement f ps o data ih ihdata =>
    have hps := params_markUids_of fun p hp => (ih p hp).1
    simp only [Node.markUid, result, element, hps, ihdata.1, ihdata.2, implies_true, and_self]

theorem sequence_markUids (mark : String) (scope : Scope) (ns : List Node) :
    sequence included scope (Node.markUids mark ns) = sequence included scope ns :=
  sequence_markUids_of (fun n _ => (evaluate_markUid mark n).2) scope

end Scoping

end ContentLang
