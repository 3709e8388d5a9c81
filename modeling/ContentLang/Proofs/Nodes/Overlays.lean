import ContentLang.Proofs.Nodes.Entries

/-!
# Contexts as ordered maps

A context is put together from nothing by bindings, one at a time or several at once
(`ContentLang.Context.Reachable`). Where a name is bound again, its value is replaced and its place
is the last, while the token that it was first written with stays. So what an overlay comes to can
be said without going through the bindings one by one (`ContentLang.Context.overlay_ordered_map`).

| of an overlaid context | what it is |
|---|---|
| the value of a name | that of the last entry under an equal name, or else the one before |
| the names | pairwise different |
| their order | the old ones that are not bound again, then the others by their last entry |
| each name | the token that came first |
| one overlay after another | the overlay of both lists, one behind the other |

These are laws of entries, whatever the keys are (`ContentLang.Entries.overlay_eq`); only that
names differ is an invariant of what is reachable.
-/

namespace ContentLang

namespace Context

variable {ctx : Context}

/-- **The contexts that there are**: those made from the empty one. -/
inductive Reachable : Context → Prop
  | empty : Reachable .empty
  | bind {ctx : Context} (h : Reachable ctx) (name : Token) (value : Node) :
    Reachable (ctx.bind name value)
  | overlay {ctx : Context} (h : Reachable ctx) (es : List (Token × Node)) :
    Reachable (ctx.overlay es)

/-- Entries as bindings: each value under what its name is called. -/
def bindings (es : List (Token × Node)) : Context := es.map fun e => (e.1.label, e.2)

/-- No name is bound twice in a context that is reachable. -/
theorem Reachable.distinct (h : ctx.Reachable) : Entries.Distinct ctx := by
  induction h with
  | empty => exact List.Pairwise.nil
  | bind _ name value ih => exact ih.insert name.label value
  | overlay _ es ih => exact ih.overlay (bindings es)

/-- The value that the last of some entries under an equal name has. -/
theorem get?_bindings_reverse (es : List (Token × Node)) (name : Token) :
    Entries.get? (bindings es).reverse name.label =
      (es.reverse.find? fun e => e.1 == name).map (·.2) := by
  unfold Entries.get? Entries.find? bindings
  rw [← List.map_reverse, List.find?_map, Option.map_map]
  rfl

/-- The names of an overlaid context, in order. -/
theorem names_overlay (ctx : Context) (es : List (Token × Node)) :
    (ctx.overlay es).names =
      ctx.names.filter (fun k => !Entries.contains (bindings es) k) ++
        (Entries.keys (Entries.latest (bindings es))).map fun k =>
          (Entries.key? (ctx ++ bindings es) k).getD k := by
  have hentries := Entries.overlay_eq ctx (bindings es)
  unfold names
  rw [show ctx.overlay es = Entries.overlay ctx (bindings es) from rfl, hentries]
  simp only [Entries.keys, List.map_append, List.map_map, List.filter_map, Function.comp_def]

/-- **Overlays make contexts into maps with an order.** In a reachable context that some entries are
put over, a name has the value of the last entry under an equal name, or else the value it had
before. No two names are equal. First come the names that are not overlaid, in the order that they
had, then the others in the order of the last entries under them, and of equal names it is the one
that was there first. Two overlays, one after the other, are one overlay with both lists. -/
theorem overlay_ordered_map (h : ctx.Reachable) (es fs : List (Token × Node)) (name : Token) :
    (ctx.overlay es).get? name =
        ((es.reverse.find? fun e => e.1 == name).map (·.2)).or (ctx.get? name) ∧
      (ctx.overlay es).names.Pairwise (fun k l => (k == l) = false) ∧
      (ctx.overlay es).names =
        ctx.names.filter (fun k => !Entries.contains (bindings es) k) ++
          (Entries.keys (Entries.latest (bindings es))).map (fun k =>
            (Entries.key? (ctx ++ bindings es) k).getD k) ∧
      (ctx.overlay es).overlay fs = ctx.overlay (es ++ fs) := by
  refine ⟨?_, (h.overlay es).distinct, names_overlay ctx es, ?_⟩
  · rw [← get?_bindings_reverse]
    exact Entries.get?_overlay_last ctx (bindings es) name.label
  · have hboth : bindings (es ++ fs) = bindings es ++ bindings fs := List.map_append
    show Entries.overlay (Entries.overlay ctx (bindings es)) (bindings fs) =
      Entries.overlay ctx (bindings (es ++ fs))
    rw [hboth, Entries.overlay_append]

/-- A name that is bound again twice, and the null value beside the content that reads like it. -/
theorem overlay_ordered_map_shadowed :
    let name (line : Nat) (text : String) : Token :=
      .content text (.written ⟨"main.txt", line, 1⟩ 1)
    let value (text : String) : Node := .token (.key text)
    let ctx := (Context.empty.bind (name 1 "a") (value "1")).overlay
      [(name 2 "~", value "2"), (name 3 "b", value "3")]
    let es := [(name 4 "a", value "4"), (.null .unwritten, value "5"), (name 6 "a", value "6")]
    ctx.Reachable ∧
      (((ctx.overlay es).get? (.key "a")).bind Node.token?).map (·.value) = some "6" ∧
      (((ctx.overlay es).get? (.key "~")).bind Node.token?).map (·.value) = some "2" ∧
      (ctx.overlay es).names.map (fun k => (k.value, k.location.line)) =
        [("~", 2), ("b", 3), ("~", 0), ("a", 1)] := by
  intro name value ctx es
  have hctx : ctx.Reachable := (Reachable.empty.bind _ _).overlay _
  obtain ⟨hlast, -, hnames, -⟩ := overlay_ordered_map hctx es [] (.key "a")
  obtain ⟨hother, -⟩ := overlay_ordered_map hctx es [] (.key "~")
  refine ⟨hctx, ?_, ?_, ?_⟩
  · rw [hlast]
    decide +kernel
  · rw [hother]
    decide +kernel
  · rw [hnames]
    decide +kernel

end Context

end ContentLang
