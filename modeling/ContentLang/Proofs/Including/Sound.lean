import ContentLang.Proofs.Including.Chain
import ContentLang.Proofs.Loading.Loaded
import ContentLang.Proofs.Loading.Terminating

/-!
# The include stack is sound

Whatever an engine does, the files that are being processed are pairwise different and in normal
form, and not too many (`ContentLang.Engine.include_stack_sound`). A file is asked for only if it
is not one of them. And where files include one another in a chain, it is told exactly if the chain
is too long.
-/

namespace ContentLang

open Walk Reduce

namespace Engine

variable {e : Engine}

/-- The diagnostics of a text that was loaded: those of the text itself, and those of the pass. -/
theorem loadText_diagnostics {text file : String} {l : Loaded}
    (h : (e.loadText text file).answer = .ok l) :
    l.diagnostics = (e.read text file).diagnostics.filter (·.problem.isTextual) ++
      (e.forgetful.processed file (e.read text file).source e.forgetful.state).notes.filterMap
        Note.diagnostic? := by
  have hroot := process_root h
  replace h : (e.forgetful.process (e.read text file)).answer = .ok l := h
  simp only [process, carryOut] at h
  rw [show (e.forgetful.processed (e.read text file).file (e.read text file).source
    e.forgetful.state).answer = .ok l.root from hroot] at h
  exact (congrArg Loaded.diagnostics (Except.ok.inj h)).symm

/-- That a file is included too deep is no matter of the text, so it is reported if the pass notes
it. -/
theorem reports_tooDeep_iff {text file : String} {l : Loaded}
    (h : (e.loadText text file).answer = .ok l) :
    (∃ d ∈ l.diagnostics, d.problem.isTooDeep = true) ↔
      ∃ d, .report d ∈ (e.forgetful.processed file
        (rootOf file (parseText text file e.settings.uniqueId).1) e.forgetful.state).notes ∧
          d.problem.isTooDeep = true := by
  have htextual : ∀ problem : Problem, problem.isTextual = true → problem.isTooDeep = false := by
    intro problem h
    cases problem <;> first | rfl | exact absurd h (by simp [Problem.isTextual])
  rw [loadText_diagnostics h, show (e.read text file).source =
    rootOf file (parseText text file e.settings.uniqueId).1 from rfl]
  constructor
  · rintro ⟨d, hd, hdeep⟩
    rcases List.mem_append.mp hd with hd | hd
    · have hd := htextual _ (List.mem_filter.mp hd).2
      exact absurd (hd.symm.trans hdeep) Bool.false_ne_true
    · obtain ⟨note, hnote, hd⟩ := List.mem_filterMap.mp hd
      cases note with
      | report d' =>
        obtain rfl : d' = d := Option.some.inj hd
        exact ⟨d', hnote, hdeep⟩
      | _ => simp [Note.diagnostic?] at hd
  · rintro ⟨d, hnote, hdeep⟩
    exact ⟨d, List.mem_append_right _ (List.mem_filterMap.mpr ⟨_, hnote, rfl⟩), hdeep⟩

section

variable {k : Nat} {names texts : Nat → String}

/-- The content of the first file of a chain, as it is written. -/
def chainStart (settings : Settings) (names texts : Nat → String) : Node :=
  rootOf (names 0) (parseText (texts 0) (names 0) settings.uniqueId).1

/-- The files of a chain after the first one. -/
def chained (k : Nat) (names : Nat → String) : List String :=
  (List.range k).map fun i => names (i + 1)

theorem leadsOnly_chained (h : IncludeChain e.host e.settings k names texts) {i : Nat}
    (hi : i ≤ k) : LeadsOnly e.settings (· ∈ chained k names) (names i) (texts i) := by
  intro n hn c hc hinclude
  obtain ⟨t, others, hparams, hlt, hfile⟩ := h.only i hi n hn c hc hinclude
  exact ⟨t, others, hparams, List.mem_map.mpr ⟨i, List.mem_range.mpr hlt, hfile.symm⟩⟩

/-- **In a chain that is not too long** nothing is reported to be included too deep. -/
theorem processed_few (hregistry : e.registry = .builtin)
    (h : IncludeChain e.host e.settings k names texts) (hfew : k ≤ e.settings.maxIncludeDepth)
    (s : WalkState) {d : Diagnostic}
    (hd : .report d ∈ (e.processed (names 0) (chainStart e.settings names texts) s).notes) :
    d.problem.isTooDeep = false := by
  have hreads : ∀ file ∈ chained k names, ∀ text, e.host.fileText file = some text →
      LeadsOnly e.settings (· ∈ chained k names) file text := by
    intro file hfile text htext
    obtain ⟨i, hi, rfl⟩ := List.mem_map.mp hfile
    have hi := List.mem_range.mp hi
    obtain rfl : texts (i + 1) = text := Option.some.inj ((h.there i hi).symm.trans htext)
    exact leadsOnly_chained h hi
  let W := Watch.among e.host e.settings (Path.normalize (names 0)) (chained k names) hreads
    (by simpa [chained] using hfew)
  have hfits : W.Fits (e.surroundings false (names 0)) :=
    ⟨rfl, rfl, ⟨by simp [surroundings], by simp [surroundings]⟩, fun _ => rfl,
      fun f hf files => Function.abiding_builtin (Watch.bylaws files) f (hregistry ▸ hf)⟩
  have hroot : W.Fair (chainStart e.settings names texts) :=
    Watch.fair_closed.array.mpr fun n hn c hc hinclude _ =>
      leadsOnly_chained h (Nat.zero_le k) n hn c hc hinclude
  have hreduce := Watch.keeps_visit (W.minds_inContext e.limit) hfits hroot
    (by simp [Context.All, Context.empty] : Context.empty.All W.Fair)
  have hkeeps : W.Keeps (e.surroundings false (names 0)) (fun _ => True)
      (e.processed (names 0) (chainStart e.settings names texts)) :=
    meets_map hreduce fun _ _ => trivial
  exact (hkeeps s fun _ _ => trivial).notes _ hd d rfl

/-- **In a chain that is too long** a file is reported to be included too deep. -/
theorem processed_long (h : IncludeChain e.host e.settings k names texts)
    (hlong : e.settings.maxIncludeDepth < k) {s : WalkState} {root : Node}
    (hroot : (e.processed (names 0) (chainStart e.settings names texts) s).answer = .ok root) :
    ∃ d, .report d ∈ (e.processed (names 0) (chainStart e.settings names texts) s).notes ∧
      d.problem = .includeDepth e.settings.maxIncludeDepth := by
  have hat : IncludeChain.At e.host e.settings k names 0 (e.surroundings false (names 0)) :=
    ⟨Nat.zero_lt_of_lt hlong, Nat.zero_le _, rfl, rfl, rfl, rfl⟩
  obtain ⟨n, hn, hincludes⟩ := h.next 0 hat.before
  have hsource : (chainStart e.settings names texts).Includes (names 1) := .member hn hincludes
  have htells : Tells (Note.TooDeep e.settings.maxIncludeDepth)
      (e.processed (names 0) (chainStart e.settings names texts)) :=
    tells_bind (IncludeChain.tells_inContext h hlong e.limit hat _ hsource)
  obtain ⟨note, hnote, d, rfl, hd⟩ := htells s root hroot
  exact ⟨d, hnote, hd⟩

/-- Whether a chain is too long is told when its first file is loaded. -/
theorem reports_chain_iff (hregistry : e.registry = .builtin)
    (h : IncludeChain e.host e.settings k names texts) {l : Loaded}
    (hload : (e.loadText (texts 0) (names 0)).answer = .ok l) :
    (∃ d ∈ l.diagnostics, d.problem.isTooDeep = true) ↔ e.settings.maxIncludeDepth < k := by
  have hroot : (e.forgetful.processed (names 0) (chainStart e.settings names texts)
      e.forgetful.state).answer = .ok l.root :=
    process_root (e := e.forgetful) (l := e.read (texts 0) (names 0)) hload
  rw [reports_tooDeep_iff hload]
  constructor
  · rintro ⟨d, hd, hdeep⟩
    by_contra hfew
    have hnone := processed_few (e := e.forgetful) hregistry h (Nat.le_of_not_lt hfew) _ hd
    exact Bool.false_ne_true (hnone.symm.trans hdeep)
  · intro hlong
    obtain ⟨d, hd, hdeep⟩ := processed_long (e := e.forgetful) h hlong hroot
    exact ⟨d, hd, by rw [hdeep]; rfl⟩

end

/-- **The include stack is sound.**

* The files that an operation of an engine starts with are a sound stack.
* In a walk of either pass that starts with a sound stack, each step has a sound stack, and it has
  the one of the step around it or that with one file more. For if each step that has not did
  something else, `stray`, the walk would be the same. That what follows a node has the stack of
  before it again is `ContentLang.Reduce.elements_after`, and the lemmas beside it.
* Each file that is asked for in such a walk is in normal form and not on the stack. This is so for
  every step of it, so the file is on none of the stacks of the steps that it is asked for within.
* In a chain of different files, each including only the next, the first file is loaded, and it is
  reported that files are included too deep if and only if the chain has more includes than the
  settings allow.

Functions of hosts may be called in between, if they ask for no files themselves. -/
theorem include_stack_sound (e : Engine) (hfunctions : ∀ f ∈ e.registry, f.2.AsksNoFile) :
    (∀ late file, (e.surroundings late file).Sound) ∧
      (∀ env : Surroundings, env.registry = e.registry → env.Sound →
        ∀ (limit : Nat) (node : Node) (ctx : Context),
          (∀ stray, confined stray limit env.files env node ctx = inContext limit env node ctx) ∧
            AsksOnly (fun file => Path.normalize file = file ∧ file ∉ env.files)
              (inContext limit env node ctx)) ∧
      (e.registry = .builtin → ∀ (k : Nat) (names texts : Nat → String),
        IncludeChain e.host e.settings k names texts →
          ∃ (n : Nat) (l : Loaded), ∀ limit, n ≤ limit →
            ((e.upTo limit).loadText (texts 0) (names 0)).answer = .ok l ∧
              ((∃ d ∈ l.diagnostics, d.problem.isTooDeep = true) ↔
                e.settings.maxIncludeDepth < k)) := by
  refine ⟨fun late file => ?_, fun env hregistry hsound limit node ctx => ⟨fun stray => ?_, ?_⟩,
    fun hregistry k names texts hchain => ?_⟩
  · refine ⟨by simp [surroundings], ?_, Nat.le_add_left 1 _⟩
    simp [surroundings, Path.normalize_normalize]
  · exact congrFun (congrFun (confined_eq stray limit ⟨.inl rfl, hsound⟩) node) ctx
  · exact asksOnly_inContext (hregistry ▸ hfunctions) limit node ctx
  · obtain ⟨⟨n, l, -, -, -, hload⟩, -⟩ := loadText_terminates e hregistry (texts 0) (names 0)
    exact ⟨n, l, fun limit hlimit => ⟨hload limit hlimit,
      reports_chain_iff (e := e.upTo limit) hregistry hchain (hload limit hlimit)⟩⟩

/-- A chain of three files where no more than one file may be included within another. -/
theorem include_stack_sound_chain :
    let host := Host.plain (fun _ => none) fun f =>
      if f = "b" then some "Include(c)" else if f = "c" then some "x" else none
    let e := Engine.start { Settings.standard with maxIncludeDepth := 1 } host 0
    ∃ (n : Nat) (l : Loaded), ((e.upTo n).loadText "Include(b)" "a").answer = .ok l ∧
      ∃ d ∈ l.diagnostics, d.problem.isTooDeep = true := by
  intro host e
  let names : Nat → String := fun i => ["a", "b", "c"].getD i ""
  let texts : Nat → String := fun i => ["Include(b)", "Include(c)", "x"].getD i ""
  have hnext : ∀ i < 2, (parseText (texts i) (names i) e.settings.uniqueId).1.any
      (·.isInclude (names (i + 1))) = true := by decide +kernel
  have hchain : IncludeChain host e.settings 2 names texts :=
    { distinct := by decide +kernel
      there := by decide +kernel
      next := fun i hi => by
        obtain ⟨n, hn, hincludes⟩ := List.any_eq_true.mp (hnext i hi)
        exact ⟨n, hn, Node.includes_of_isInclude hincludes⟩
      only := by decide +kernel }
  obtain ⟨n, l, hload⟩ := (include_stack_sound e Function.asksNoFile_builtin).2.2 rfl 2 names texts
    hchain
  obtain ⟨hload, htold⟩ := hload n (Nat.le_refl n)
  exact ⟨n, l, hload, htold.mpr (by decide)⟩

end Engine

end ContentLang
