import ContentLang.Engine
import ContentLang.Proofs.Loading.Settling

/-!
# What a loaded file holds

The root of a loaded file is settled, whatever its text and the files it includes
(`ContentLang.Engine.loadText_laid`). Two things follow.

* Every call that is left in it waits for a late function: it is a call of one, of nothing that
  is known, or there is a call of a late function in its parameters
  (`ContentLang.Engine.loaded_calls_wait`). Where no file calls a late function, nothing that is
  known is left.
* The loading pass leaves the root as it is (`ContentLang.Engine.loaded_root_stays`), although
  it starts without the bindings that were there when the file was loaded: what a settled node
  comes to does not depend on them.
-/

namespace ContentLang

open Walk

namespace Engine

/-! ### Loading a text -/

/-- The files that take part when a text is loaded: its own, and those that are asked for. -/
def Involves (e : Engine) (text file f t : String) : Prop :=
  (f = file ∧ t = text) ∨
    (.asked (.file f) ∈ (e.loadText text file).notes ∧ e.host.fileText f = some t)

/-- The root of a file is what the loading pass gave. -/
theorem process_root {e : Engine} {l l' : Loaded} (h : (e.process l).answer = .ok l') :
    (e.processed l.file l.source e.state).answer = .ok l'.root := by
  cases ha : (e.processed l.file l.source e.state).answer with
  | error halt => exact absurd h (by simp [process, carryOut, ha, Except.map])
  | ok root =>
    simp only [process, carryOut, ha, Except.map, Except.ok.injEq] at h
    rw [← h]

/-- **The root of a loaded file is settled**; it calls what is shunned only if a file does that
takes part. -/
theorem loadText_laid {e : Engine} (horderly : e.registry.Orderly) {text file : String}
    {l : Loaded} (hload : (e.loadText text file).answer = .ok l) {shunned : String → Bool}
    (hfiles : ∀ f t, e.Involves text file f t →
      ∀ n ∈ (parseText t f e.settings.uniqueId).1, n.Inert shunned) :
    l.root.Laid e.registry shunned := by
  have hsource : (e.read text file).source.Inert shunned :=
    Node.inert_array.mpr (hfiles file text (.inl ⟨rfl, rfl⟩))
  have hprocessed : Reduce.Loading (e.surroundings false file) shunned
      (fun n => n.Laid e.registry shunned) (e.processed file (e.read text file).source) := by
    refine meets_map (Reduce.settles_reduce ⟨rfl, horderly⟩ hsource
      (by simp [Context.Laid, Context.empty])) fun out hout => ?_
    obtain ⟨n, hn, hlaid⟩ := hout.toNode (e.read text file).source.origin
    rw [hn]
    exact hlaid
  have htrust : ∀ note ∈ (e.processed file (e.read text file).source e.forgetful.state).notes,
      Reduce.Trusts (e.surroundings false file) shunned note := by
    rintro note hnote f t rfl htext
    exact hfiles f t (.inr ⟨List.mem_cons_of_mem _ hnote, htext⟩)
  have hroot := process_root hload
  exact (hprocessed e.forgetful.state htrust).answer l.root hroot

/-- **What is left in a loaded file waits for a late function.** No binding is left. A call of
something known is one of a late function, or there is a call of a late function in its
parameters. If none of the files that take part calls a late function, nothing is left that is
known. -/
theorem loaded_calls_wait (e : Engine) (text file : String) (l : Loaded)
    (hregistry : e.registry = .builtin) (hload : (e.loadText text file).answer = .ok l) :
    (∀ c ∈ l.root.calls, c.function ≠ setName ∧
      (e.registry.isKnown c.function = true → e.registry.isLate c.function = true ∨
        ∃ d ∈ Node.callsOfAll c.params, e.registry.isLate d.function = true)) ∧
    ((∀ f t, e.Involves text file f t →
        ∀ n ∈ (parseText t f e.settings.uniqueId).1, ∀ c ∈ n.calls,
          e.registry.isLate c.function = false) →
      ∀ c ∈ l.root.calls, e.registry.isKnown c.function = false) := by
  have horderly : e.registry.Orderly := hregistry ▸ Registry.orderly_builtin
  refine ⟨fun c hc => ?_, fun hfiles => ?_⟩
  · have hlaid : l.root.Laid e.registry fun _ => false :=
      loadText_laid horderly hload fun _ _ _ _ _ _ _ => rfl
    obtain ⟨hrests, hps⟩ := hlaid.1.of_mem_calls c hc
    refine ⟨hrests.ne_setName, fun hknown => ?_⟩
    by_cases hlate : ∃ d ∈ Node.callsOfAll c.params, e.registry.isLate d.function = true
    · exact .inr hlate
    · -- Without a late call in them the parameters are inert, and only a late function rests.
      have hinert : ∀ p ∈ c.params, p.Inert e.registry.isKnown := fun p hp =>
        (hps p hp).inert fun d hd => by
          rw [← Bool.not_eq_true]
          exact fun h => hlate ⟨d, Node.mem_callsOfAll.mpr ⟨p, hp, hd⟩, h⟩
      exact .inl ((hrests.unknown_or_late hinert).resolve_left (by simp [hknown]))
  · obtain ⟨hsettled, hinert⟩ := loadText_laid horderly hload hfiles
    exact hsettled.inert hinert

/-- A file where a call waits, and another one that it includes. -/
theorem loaded_calls_wait_join :
    let host := Host.plain (fun _ => none) fun f => if f = "b" then some "Join(-, x, y)" else none
    let e := Engine.start .standard host 0
    ∃ l, (e.loadText "Include(b); Join(-, Choose([x]), y)" "main.txt").answer = .ok l ∧
      l.root.calls.map (·.function) = ["Join", "Choose"] ∧
      ∀ c ∈ l.root.calls, c.function ≠ setName ∧
        (e.registry.isKnown c.function = true → e.registry.isLate c.function = true ∨
          ∃ d ∈ Node.callsOfAll c.params, e.registry.isLate d.function = true) := by
  intro host e
  have hrun : (match (e.loadText "Include(b); Join(-, Choose([x]), y)" "main.txt").answer with
      | .ok l => decide (l.root.calls.map (·.function) = ["Join", "Choose"])
      | .error _ => false) = true := by decide +kernel
  cases hload : (e.loadText "Include(b); Join(-, Choose([x]), y)" "main.txt").answer with
  | error halt =>
    rw [hload] at hrun
    exact absurd hrun Bool.false_ne_true
  | ok l =>
    rw [hload] at hrun
    exact ⟨l, rfl, of_decide_eq_true hrun, (loaded_calls_wait e _ _ l rfl hload).1⟩

/-! ### Loading again what was loaded -/

/-- **The loading pass leaves the root of a loaded file as it is**, in any engine, beside any
host and from any state: what it comes to is a node that is the same, nothing is reported, and
the engine is what it was. It comes to something if walks may be nested as deep as the root is. -/
theorem loaded_root_stays (e e' : Engine) (text file : String) (l : Loaded)
    (hregistry : e.registry = .builtin) (hregistry' : e'.registry = .builtin)
    (hload : (e.loadText text file).answer = .ok l) :
    (l.root.depth ≤ e'.limit → ∃ out, (e'.reduceNode false l.root).answer = .ok out) ∧
      (∀ out, (e'.reduceNode false l.root).answer = .ok out →
        ∃ n, out = .value n ∧ l.root.same n = true) ∧
      (e'.reduceNode false l.root).notes.filterMap Note.diagnostic? = [] ∧
      (e'.reduceNode false l.root).engine = e' := by
  have hlaid : l.root.Laid e.registry fun _ => false :=
    loadText_laid (hregistry ▸ Registry.orderly_builtin) hload fun _ _ _ _ _ _ _ => rfl
  have hsettled : l.root.Settled e'.registry false := by
    rw [hregistry', ← hregistry]
    exact hlaid.1
  obtain ⟨hends, hanswer, hnotes, hstate⟩ :=
    Reduce.still_run (e'.surroundings false l.root.location.file) l.root.origin.context e'.state
      hsettled
  have hsilent : (e'.reduceNode false l.root).notes.filterMap Note.diagnostic? = [] := by
    refine List.filterMap_eq_nil_iff.mpr fun note hnote => ?_
    obtain ⟨r, rfl⟩ := hnotes note hnote
    rfl
  have hengine : (e'.reduceNode false l.root).engine = { e' with
      state := (reduce (e'.surroundings false l.root.location.file) l.root
        l.root.origin.context e'.state).state
      diagnostics := e'.diagnostics ++
        (e'.reduceNode false l.root).notes.filterMap Note.diagnostic? } := rfl
  refine ⟨hends, hanswer, hsilent, ?_⟩
  rw [hengine, hsilent, hstate, List.append_nil]

/-- A file that was reported on, where calls are left that wait. -/
theorem loaded_root_stays_reported :
    let host := Host.plain (fun _ => none) fun _ => none
    let e := Engine.start .standard host 0
    let text := "Set^(A, Choose([x])); Include(b); If(^(A)) {k: Join(-, ^(A), y)}"
    ∃ l, (e.loadText text "main.txt").answer = .ok l ∧ l.diagnostics ≠ [] ∧
      l.root.calls.length = 4 ∧
      (l.root.depth ≤ e.limit → ∃ out, (e.reduceNode false l.root).answer = .ok out) ∧
      ∀ out, (e.reduceNode false l.root).answer = .ok out →
        ∃ n, out = .value n ∧ l.root.same n = true := by
  intro host e text
  have hrun : (match (e.loadText text "main.txt").answer with
      | .ok l => decide (l.diagnostics ≠ [] ∧ l.root.calls.length = 4)
      | .error _ => false) = true := by decide +kernel
  cases hload : (e.loadText text "main.txt").answer with
  | error halt =>
    rw [hload] at hrun
    exact absurd hrun Bool.false_ne_true
  | ok l =>
    rw [hload] at hrun
    obtain ⟨hreported, hcalls⟩ := of_decide_eq_true hrun
    obtain ⟨hends, hanswer, -⟩ := loaded_root_stays e e text "main.txt" l rfl rfl hload
    exact ⟨l, rfl, hreported, hcalls, hends, hanswer⟩

end Engine

end ContentLang
