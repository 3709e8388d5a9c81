import ContentLang.Engine
import ContentLang.Proofs.Deferral.Builds
import ContentLang.Proofs.Typed.Numerals
import ContentLang.Toml.Record

/-!
# Typed values of records of numbers

What `Vector2`, `Point`, `Rectangle` and `Color` give, if they give a block, has a table as its
typed value: with the keys of the record, and under each the typed value of the token that was
accepted for it (`ContentLang.record_typed`). The functions look at the text of a token alone, and
not at blanks around it. The conversion looks at quotes too: quoted content is a string, whatever it
reads. So it is for **bare** tokens (`ContentLang.TokenOf.Bare`) that what the functions accept
becomes a number, and a host can read the record if all its values are such.
-/

namespace ContentLang

open Walk

theorem Node.entries?_eq_some {n : Node} {es : Entries Token Node} :
    n.entries? = some es ↔ ∃ o, n = .block es o := by
  cases n <;> simp [entries?]

theorem Node.token?_eq_some {n : Node} {t : Token} : n.token? = some t ↔ n = .token t := by
  cases n <;> simp [token?]

/-! ### Accepted tokens -/

/-- Whether a token is content without quotes, and has no blanks at its ends. -/
def TokenOf.Bare {ν : Type} (t : TokenOf ν) : Prop :=
  t.isContent = true ∧ t.quoted = false ∧ trim t.value.toList = t.value.toList

instance {ν : Type} (t : TokenOf ν) : Decidable t.Bare :=
  inferInstanceAs (Decidable (_ ∧ _ ∧ _))

namespace Library

namespace Component

/-- **Whether a typed value is what the fields of a record are to hold**: a number, or an integer
that is a channel. -/
def Holds : Component → Toml.Value → Prop
  | number, v => v.isNumber = true
  | channel, v => ∃ n, v = .integer n ∧ 0 ≤ n ∧ n ≤ 255

/-- An accepted text, without blanks around it, is converted to what the fields hold. -/
theorem holds_number? {c : Component} {s : String} (h : c.fault? s = none) :
    ∃ v, Toml.number? (trim s.toList) = some v ∧ c.Holds v := by
  cases c with
  | number =>
    simp only [fault?] at h
    split at h
    next x hx =>
      have hfinite : x.isFinite = true := by
        rw [← Bool.not_eq_false]
        intro hnot
        simp [hnot] at h
      exact Toml.number?_of_readFloat? hx hfinite
    next => exact nomatch h
  | channel =>
    simp only [fault?] at h
    split at h
    next n hn =>
      obtain ⟨hnumber, hrange⟩ := Toml.number?_of_byte hn
      exact ⟨.integer n, hnumber, n, rfl, hrange⟩
    next => exact nomatch h

/-- **An accepted token that is bare is converted to what the fields hold.** -/
theorem holds_ofToken {c : Component} {t : Token} (h : c.fault? t.value = none) (ht : t.Bare) :
    c.Holds (Toml.ofToken t) := by
  obtain ⟨hcontent, hquoted, htrim⟩ := ht
  obtain ⟨v, hv, hholds⟩ := holds_number? h
  rw [htrim] at hv
  have htoken : Toml.ofToken t = Toml.ofPlain t.value := by simp [Toml.ofToken, hcontent, hquoted]
  rw [htoken, Toml.ofPlain_of_number? hv]
  exact hholds

/-- No component is null. -/
theorem not_isNull {c : Component} {t : Token} (h : c.fault? t.value = none) :
    t.isNull = false := by
  rw [Bool.eq_false_iff]
  intro hnull
  simp only [TokenOf.isNull, Bool.and_eq_true, beq_iff_eq] at hnull
  obtain ⟨v, hv, -⟩ := holds_number? h
  have hnone : Toml.number? (trim nullSymbol.toList) = none := rfl
  rw [hnull.2, hnone] at hv
  exact absurd hv (by simp)

end Component

end Library

theorem Toml.ofToken_quoted {t : Token} (h : t.quoted = true) :
    Toml.ofToken t = .string t.value := by
  simp [Toml.ofToken, h]

/-! ### Reading a table -/

namespace Toml

/-- The fields of a table, where there is one entry for each. -/
theorem Value.fields?_table {names : List String} (hd : names.Nodup) {vs : List Value}
    (hlen : vs.length = names.length) :
    (Value.table (names.zip vs)).fields? names = some (vs.map some) := by
  have hfind : ∀ {names : List String} {vs : List Value}, names.Nodup →
      vs.length = names.length →
        names.map (fun name => ((names.zip vs).find? (·.1 == name)).map (·.2)) = vs.map some := by
    intro names
    induction names with
    | nil => intro vs _ hlen; simp [List.length_eq_zero_iff.mp hlen]
    | cons name names ih =>
      intro vs hd hlen
      obtain ⟨v, vs, rfl⟩ := List.exists_cons_of_length_eq_add_one hlen
      obtain ⟨hname, hd⟩ := List.nodup_cons.mp hd
      have hrest : names.map (fun other => (((name, v) :: names.zip vs).find?
          (·.1 == other)).map (·.2)) = vs.map some := by
        rw [← ih hd (by simpa using hlen)]
        refine List.map_congr_left fun other hother => ?_
        have hne : (name == other) = false := by
          rw [beq_eq_false_iff_ne]
          rintro rfl
          exact hname hother
        simp [hne]
      simpa using hrest
  exact congrArg some (hfind hd hlen)

/-- **A record of numbers with a fraction**, by the names of its fields. -/
def Value.floats? (names : List String) (v : Value) : Option (List Float) := do
  (← v.fields? names).mapM (required Value.float?)

theorem Value.float?_isSome (v : Value) : v.float?.isSome = v.isNumber := by
  cases v <;> rfl

theorem Value.byte?_isSome (v : Value) :
    (v.integer? .byte).isSome = true ↔ Library.Component.channel.Holds v := by
  unfold Library.Component.Holds
  cases v with
  | integer n =>
    simp only [Value.integer?]
    by_cases h : IntegerRange.byte.least ≤ n ∧ n ≤ IntegerRange.byte.greatest
    · rw [if_pos h]
      exact iff_of_true rfl ⟨n, rfl, h⟩
    · rw [if_neg h]
      exact iff_of_false (by simp) fun ⟨m, hm, hr⟩ => h (Value.integer.inj hm ▸ hr)
  | _ => exact iff_of_false (by simp [Value.integer?]) (by simp)

theorem mapM_isSome_iff {α β : Type} (f : α → Option β) (as : List α) :
    (as.mapM f).isSome = true ↔ ∀ a ∈ as, (f a).isSome = true := by
  induction as with
  | nil => simp
  | cons a as ih =>
    rw [List.mapM_cons, List.forall_mem_cons, ← ih]
    cases f a with
    | none => simp
    | some b => cases as.mapM f <;> simp

end Toml

namespace Library

namespace RecordKind

/-- The keys of a record. -/
def names (k : RecordKind) : List String := k.fields.map (·.1)

/-- **Whether a host can read a node as a record**: of numbers with a fraction, or as a color. -/
def Reads (k : RecordKind) (n : Node) : Prop :=
  match k.component with
  | .number => ∃ xs, n.read (Toml.Value.floats? k.names) = .ok xs
  | .channel => ∃ color, n.read ColorRecord.ofValue? = .ok color

end RecordKind

/-- **The functions that make records of numbers.** -/
def records : List (String × RecordKind) :=
  [("Vector2", .vector), ("Point", .vector), ("Rectangle", .rectangle), ("Color", .color)]

end Library

theorem read_isOk_iff {α : Type} {ofValue? : Toml.Value → Option α} {n : Node} {v : Toml.Value}
    (h : Toml.ofNode n = .ok (some v)) :
    (∃ a, n.read ofValue? = .ok a) ↔ (ofValue? v).isSome = true := by
  simp only [Node.read, h]
  cases ofValue? v <;> simp

/-- A color can be read if all its values are channels. -/
theorem ColorRecord.ofValue?_isSome_iff {vs : List Toml.Value} (hlen : vs.length = 4) :
    (ColorRecord.ofValue? (.table (names.zip vs))).isSome = true ↔
      ∀ v ∈ vs, Library.Component.channel.Holds v := by
  have hdistinct : names.Nodup := by decide
  have hfields := Toml.Value.fields?_table hdistinct hlen
  match vs, hlen with
  | [r, g, b, a], _ =>
    simp only [List.forall_mem_cons, List.not_mem_nil, false_imp_iff, implies_true, and_true,
      ← Toml.Value.byte?_isSome]
    simp only [ColorRecord.ofValue?, hfields, List.map_cons, List.map_nil, Toml.required,
      Option.bind_eq_bind, Option.bind_some]
    generalize Toml.Value.integer? .byte r = r, Toml.Value.integer? .byte g = g,
      Toml.Value.integer? .byte b = b, Toml.Value.integer? .byte a = a
    cases r <;> cases g <;> cases b <;> cases a <;> simp

/-- **A record can be read if and only if all its values are what its fields are to hold.** -/
theorem Library.RecordKind.reads_iff {f : String} {k : RecordKind} (hk : (f, k) ∈ records)
    {n : Node} {vs : List Toml.Value} (hlen : vs.length = k.names.length)
    (h : Toml.ofNode n = .ok (some (.table (k.names.zip vs)))) :
    k.Reads n ↔ ∀ v ∈ vs, k.component.Holds v := by
  have hfloats : k.names.Nodup → k.component = .number →
      (k.Reads n ↔ ∀ v ∈ vs, k.component.Holds v) := by
    intro hd hnumber
    simp only [Reads, hnumber, read_isOk_iff h, Toml.Value.floats?,
      Toml.Value.fields?_table hd hlen, Option.bind_eq_bind, Option.bind_some,
      Toml.mapM_isSome_iff, List.forall_mem_map, Toml.required, Toml.Value.float?_isSome,
      Component.Holds]
  simp only [records, List.mem_cons, Prod.mk.injEq, List.not_mem_nil, or_false] at hk
  rcases hk with ⟨-, rfl⟩ | ⟨-, rfl⟩ | ⟨-, rfl⟩ | ⟨-, rfl⟩
  · exact hfloats (by decide) rfl
  · exact hfloats (by decide) rfl
  · exact hfloats (by decide) rfl
  · exact (read_isOk_iff h).trans (ColorRecord.ofValue?_isSome_iff hlen)

/-! ### What the functions give -/

namespace Library

/-- The entries of a record: its keys with tokens for them. -/
def recordOf (o : Origin) (names : List String) (ts : List Token) : Entries Token Node :=
  List.zipWith (fun name t => (.content name o, .token t)) names ts

/-- Whether entries are a record of accepted tokens. -/
def IsRecord (component : Component) (names : List String) (o : Origin)
    (es : Entries Token Node) : Prop :=
  ∃ ts : List Token, es = recordOf o names ts ∧ ts.length = names.length ∧
    ∀ t ∈ ts, component.fault? t.value = none

/-- Tokens are all that a record is made of, and all that it ends with before. -/
theorem layered_token (M : Node → Prop) :
    Node.Layered (fun _ => False) M fun n => ∃ t, n = .token t := by
  refine ⟨fun t => ⟨t, rfl⟩, ?_, ?_⟩
  · exact iff_of_false (fun ⟨t, ht⟩ => nomatch ht) fun h => h.1
  · exact iff_of_false (fun ⟨t, ht⟩ => nomatch ht) fun h => h.1

/-- **The entries for some fields**, whose values to fall back on are accepted, are a record. -/
theorem always_isRecord (ev : Evaluator) (call : Call) (ctx : Context) (component : Component)
    (fields : List (String × Option String)) (ps : List Node)
    (hd : ∀ field ∈ fields, ∀ d ∈ field.2, component.fault? d = none) :
    Always (Gathers (fun n => ∃ t, n = .token t)
      (IsRecord component (fields.map (·.1)) call.origin))
      (recordEntries ev call ctx component fields ps) := by
  have hlayered := layered_token fun _ => True
  induction fields generalizing ps with
  | nil => exact meets_pure ⟨[], rfl, rfl, by simp⟩
  | cons field fields ih =>
    obtain ⟨key, fallback⟩ := field
    obtain ⟨hfirst, hd⟩ := List.forall_mem_cons.mp hd
    have hmore : ∀ ps (t : Token), component.fault? t.value = none →
        Always (Gathers (fun n => ∃ t, n = .token t)
          (IsRecord component (((key, fallback) :: fields).map (·.1)) call.origin))
          ((recordEntries ev call ctx component fields ps).also fun es =>
            pure (.ok ((.content key call.origin, .token t) :: es))) := by
      refine fun ps t ht => always_also (ih ps hd) fun es hes => meets_pure ?_
      obtain ⟨ts, rfl, hlen, hts⟩ := hes
      exact ⟨t :: ts, rfl, by simp [hlen], List.forall_mem_cons.mpr ⟨ht, hts⟩⟩
    cases ps with
    | nil =>
      cases fallback with
      | none => exact meets_pure (hlayered.token _)
      | some fallback => exact hmore [] _ (hfirst fallback rfl)
    | cons p ps =>
      refine always_also (Evaluator.always_requireToken hlayered ev p ctx) fun t _ => ?_
      cases hfault : component.fault? t.value with
      | some fault => exact Evaluator.always_fault hlayered call p fault
      | none => exact hmore ps t hfault

/-- Whether an outcome, if it is a block, is a record of accepted tokens. -/
def RecordKind.Gives (k : RecordKind) (outcome : Outcome) : Prop :=
  ∀ es o, outcome = .value (.block es o) → IsRecord k.component k.names o es

theorem RecordKind.gives_of_token {k : RecordKind} {outcome : Outcome}
    (h : outcome.One fun n => ∃ t, n = .token t) : k.Gives outcome := by
  rintro es o rfl
  obtain ⟨t, ht⟩ := h
  exact nomatch ht

/-- All that the values to fall back on are for is to be accepted. -/
theorem accepted_fallback {f : String} {k : RecordKind} (hk : (f, k) ∈ records) :
    ∀ field ∈ k.fields, ∀ d ∈ field.2, k.component.fault? d = none := by
  simp only [records, List.mem_cons, Prod.mk.injEq, List.not_mem_nil, or_false] at hk
  rcases hk with ⟨-, rfl⟩ | ⟨-, rfl⟩ | ⟨-, rfl⟩ | ⟨-, rfl⟩ <;> decide

theorem always_record {f : String} {k : RecordKind} (hk : (f, k) ∈ records) (ev : Evaluator)
    (call : Call) (ctx : Context) : Always k.Gives ((record k).reduce ev call ctx) := by
  have hlayered := layered_token fun _ => True
  refine meets_ite (fun _ => ?_) fun _ =>
    (Evaluator.always_wrongArity hlayered call _).imp fun _ => RecordKind.gives_of_token
  refine meets_bind (always_isRecord ev call ctx k.component k.fields call.params
    (accepted_fallback hk)) fun r hr => ?_
  cases r with
  | error outcome => exact meets_pure (RecordKind.gives_of_token hr)
  | ok es =>
    refine meets_pure ?_
    rintro _ _ ⟨⟩
    exact hr

end Library

namespace Reduce

variable {env : Surroundings} {f : String} {k : Library.RecordKind}

theorem always_callFunction_record (hk : (f, k) ∈ Library.records) (rec : Reducer) (call : Call)
    (ctx : Context) :
    Always k.Gives (callFunction env rec (Library.record k) call ctx) := by
  refine always_after fun processed => ?_
  cases processed with
  | none => exact meets_pure (Library.RecordKind.gives_of_token trivial)
  | some processed =>
    refine meets_bind (Library.always_record hk _ processed ctx) fun outcome houtcome => ?_
    -- What waits stays a call, and that is no block.
    refine meets_ite (fun _ => always_after fun _ => meets_pure ?_) fun _ => meets_pure houtcome
    exact fun _ _ h => nomatch h

/-- **A call of one of the functions comes to a block only if that is a record of accepted
tokens.** -/
theorem always_reduce_record (hk : (f, k) ∈ Library.records)
    (hf : Registry.get? env.registry f = some (Library.record k)) (ps : List Node) (o : Origin)
    (ctx : Context) : Always k.Gives (reduce env (.call f ps o) ctx) := by
  have hname : f ≠ includeName ∧ f ≠ ifName ∧ f ≠ setName := by
    simp only [Library.records, List.mem_cons, Prod.mk.injEq, List.not_mem_nil, or_false] at hk
    rcases hk with ⟨rfl, -⟩ | ⟨rfl, -⟩ | ⟨rfl, -⟩ | ⟨rfl, -⟩ <;> decide
  unfold reduce visit
  cases env.limit with
  | zero => exact meets_halt _ not_false
  | succ n =>
    have hcall : ∀ c, inContext (n + 1) env (.call f ps o) c =
        callNamed env (inContext n) ⟨f, ps, o⟩ none c := fun c => by
      simp only [inContext, step, call, if_neg hname.1, if_neg hname.2.1, if_neg hname.2.2]
    rw [hcall, callNamed]
    simp only [hf]
    refine meets_bind (always_callFunction_record hk _ _ _) fun outcome houtcome => ?_
    exact meets_pure houtcome

end Reduce

/-! ### Typed values of records -/

theorem Toml.ofEntries_token {k t : Token} {es : Entries Token Node} {vs : List (String × Value)}
    (ht : t.isNull = false) (h : ofEntries es = .ok vs) :
    ofEntries ((k, .token t) :: es) = .ok ((k.value, ofToken t) :: vs) := by
  rw [ofEntries, h, ofNode, ht]
  rfl

theorem Toml.ofEntries_recordOf {names : List String} {ts : List Token} (o : Origin)
    (hlen : ts.length = names.length) (h : ∀ t ∈ ts, t.isNull = false) :
    Toml.ofEntries (Library.recordOf o names ts) = .ok (names.zip (ts.map Toml.ofToken)) := by
  induction names generalizing ts with
  | nil =>
    rw [List.length_eq_zero_iff.mp hlen]
    rfl
  | cons name names ih =>
    obtain ⟨t, ts, rfl⟩ := List.exists_cons_of_length_eq_add_one hlen
    obtain ⟨ht, hts⟩ := List.forall_mem_cons.mp h
    have hrest := ih (by simpa using hlen) hts
    unfold Library.recordOf at hrest ⊢
    rw [List.zipWith_cons_cons, ofEntries_token ht hrest]
    rfl

theorem Library.keys_recordOf {names : List String} {ts : List Token} (o : Origin)
    (hlen : ts.length = names.length) :
    (recordOf o names ts).map (·.1.value) = names ∧
      (recordOf o names ts).map (·.2) = ts.map Node.token := by
  induction names generalizing ts with
  | nil =>
    rw [List.length_eq_zero_iff.mp hlen]
    exact ⟨rfl, rfl⟩
  | cons name names ih =>
    obtain ⟨t, ts, rfl⟩ := List.exists_cons_of_length_eq_add_one hlen
    obtain ⟨hkeys, hvalues⟩ := ih (by simpa using hlen)
    unfold recordOf at hkeys hvalues ⊢
    rw [List.zipWith_cons_cons, List.map_cons, List.map_cons, hkeys, hvalues]
    exact ⟨rfl, rfl⟩

/-- **The typed value of a record**: a table with the keys of the record, whose values are what its
fields are to hold for tokens that are bare, and strings for quoted ones. A host can read the record
if and only if all values are what its fields are to hold. -/
theorem record_typed {env : Surroundings} {f : String} {k : Library.RecordKind}
    (hk : (f, k) ∈ Library.records)
    (hf : Registry.get? env.registry f = some (Library.record k)) {ps : List Node} {o o' : Origin}
    {ctx : Context} {s : WalkState} {es : Entries Token Node}
    (h : (reduce env (.call f ps o) ctx s).answer = .ok (.value (.block es o'))) :
    ∃ ts : List Token, es.map (·.1.value) = k.names ∧ es.map (·.2) = ts.map Node.token ∧
      Toml.ofNode (.block es o') = .ok (some (.table (k.names.zip (ts.map Toml.ofToken)))) ∧
      (∀ t ∈ ts, t.Bare → k.component.Holds (Toml.ofToken t)) ∧
      (∀ t ∈ ts, t.quoted = true → Toml.ofToken t = .string t.value) ∧
      (k.Reads (.block es o') ↔ ∀ t ∈ ts, k.component.Holds (Toml.ofToken t)) := by
  have hgives := (Reduce.always_reduce_record hk hf ps o ctx s fun _ _ => trivial).answer _ h
  obtain ⟨ts, rfl, hlen, hts⟩ := hgives es o' rfl
  obtain ⟨hkeys, hvalues⟩ := Library.keys_recordOf o' hlen
  have hnode : Toml.ofNode (.block (Library.recordOf o' k.names ts) o') =
      .ok (some (.table (k.names.zip (ts.map Toml.ofToken)))) := by
    rw [Toml.ofNode, Toml.ofEntries_recordOf o' hlen fun t ht =>
      Library.Component.not_isNull (hts t ht)]
    rfl
  refine ⟨ts, hkeys, hvalues, hnode, fun t ht hbare =>
    Library.Component.holds_ofToken (hts t ht) hbare, fun t _ => Toml.ofToken_quoted, ?_⟩
  rw [Library.RecordKind.reads_iff hk (by simpa using hlen) hnode, List.forall_mem_map]

/-- A color whose alpha channel is left out. -/
theorem record_typed_color :
    let env : Surroundings :=
      ⟨.builtin, .plain (fun _ => none) fun _ => none, .standard, true, ["main.txt"], 100⟩
    let o : Origin := .unwritten
    let text (s : String) : Node := .token (.content s o)
    let call : Node := .call "Color" [text "255", text "0", text "10"] o
    let s : WalkState := ⟨.standard 0, []⟩
    ∃ es o', (reduce env call [] s).answer = .ok (.value (.block es o')) ∧
      es.map (·.1.value) = ["R", "G", "B", "A"] ∧
        ∃ color, (Node.block es o').read ColorRecord.ofValue? = .ok color := by
  intro env o text call s
  have hrun : ((reduce env call [] s).answer.toOption.any fun out => (out.toNode? o).any fun n =>
      n.entries?.any fun es => es.all fun e => e.2.token?.any fun t => decide t.Bare) = true := by
    decide +kernel
  obtain ⟨out, hout, hrun⟩ := (Option.any_eq_true _ _).mp hrun
  obtain ⟨n, hn, hrun⟩ := (Option.any_eq_true _ _).mp hrun
  obtain ⟨es, hes, hbare⟩ := (Option.any_eq_true _ _).mp hrun
  obtain ⟨o', rfl⟩ := Node.entries?_eq_some.mp hes
  obtain rfl : out = .value (.block es o') := by
    cases out with
    | value m => exact congrArg Outcome.value (Option.some.inj hn)
    | _ => simp [Outcome.toNode?] at hn
  have hanswer := toOption_eq_some.mp hout
  obtain ⟨ts, hkeys, hvalues, -, hholds, -, hreads⟩ :=
    record_typed (f := "Color") (k := .color) (by simp [Library.records]) rfl hanswer
  refine ⟨es, o', hanswer, hkeys, hreads.mpr fun t ht => hholds t ht ?_⟩
  have hmem : Node.token t ∈ es.map (·.2) := hvalues ▸ List.mem_map_of_mem ht
  obtain ⟨e, he, het⟩ := List.mem_map.mp hmem
  have htoken := List.all_eq_true.mp hbare e he
  rw [het] at htoken
  simpa [Node.token?] using htoken

/-- A quoted channel is accepted, and yet the color cannot be read. -/
theorem quoted_channel_unread :
    ∃ l es o, ((Engine.start .standard (.plain (fun _ => none) fun _ => none) 0).loadText
        "Color('255', 0, 10)" "main.txt").answer = .ok l ∧
      l.diagnostics = [] ∧ l.items = [.block es o] ∧
        (∃ vs, Toml.ofNode (.block es o) = .ok (some (.table (("R", .string "255") :: vs)))) ∧
          (Node.block es o).read ColorRecord.ofValue? = .error .toml := by
  have hrun : (((Engine.start .standard (.plain (fun _ => none) fun _ => none) 0).loadText
        "Color('255', 0, 10)" "main.txt").answer.toOption.any fun l =>
      l.diagnostics.isEmpty && decide (l.items.length = 1) &&
        l.items.all fun n => n.entries?.any fun es => (Toml.ofEntries es.tail).toOption.isSome &&
          es.head?.any fun e => decide (e.1.value = "R") && e.2.token?.any fun t =>
            decide (t.quoted = true ∧ t.value = "255" ∧ t.isNull = false)) = true := by
    decide +kernel
  obtain ⟨l, hl, hrun⟩ := (Option.any_eq_true _ _).mp hrun
  obtain ⟨hrun, hall⟩ := Bool.and_eq_true_iff.mp hrun
  obtain ⟨hdiagnostics, hlength⟩ := Bool.and_eq_true_iff.mp hrun
  obtain ⟨n, hn⟩ := List.length_eq_one_iff.mp (of_decide_eq_true hlength)
  obtain ⟨es, hes, hrun⟩ :=
    (Option.any_eq_true _ _).mp (List.all_eq_true.mp hall n (by simp [hn]))
  obtain ⟨o, rfl⟩ := Node.entries?_eq_some.mp hes
  obtain ⟨hrest, hrun⟩ := Bool.and_eq_true_iff.mp hrun
  obtain ⟨⟨k, n⟩, hhead, hrun⟩ := (Option.any_eq_true _ _).mp hrun
  obtain ⟨rest, rfl⟩ := List.head?_eq_some_iff.mp hhead
  obtain ⟨hkey, hrun⟩ := Bool.and_eq_true_iff.mp hrun
  obtain ⟨t, ht, htoken⟩ := (Option.any_eq_true _ _).mp hrun
  obtain rfl := Node.token?_eq_some.mp ht
  obtain ⟨hquoted, hvalue, hnull⟩ := of_decide_eq_true htoken
  obtain ⟨vs, hvs⟩ := Option.isSome_iff_exists.mp hrest
  have hkey : k.value = "R" := of_decide_eq_true hkey
  have hvs : Toml.ofEntries rest = .ok vs := toOption_eq_some.mp hvs
  have hnode : Toml.ofNode (.block ((k, .token t) :: rest) o) =
      .ok (some (.table (("R", .string "255") :: vs))) := by
    rw [Toml.ofNode, Toml.ofEntries_token hnull hvs, Toml.ofToken_quoted hquoted, hkey, hvalue]
    rfl
  refine ⟨l, _, o, toOption_eq_some.mp hl, List.isEmpty_iff.mp hdiagnostics, hn, ⟨vs, hnode⟩, ?_⟩
  have hnone : ColorRecord.ofValue? (.table (("R", .string "255") :: vs)) = none := rfl
  simp only [Node.read, hnode, hnone]

end ContentLang
