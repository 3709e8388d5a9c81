import ContentLang.Proofs.Loading.Refresh

/-!
# Loading and chance

Two engines load the same, however the dice fall and whatever conditions hold: what loading and
refreshing come to is decided by the texts of files, the names of assets and the settings, apart
from the seed and the fixed answers to conditions
(`ContentLang.Engine.loads_independently`). An engine that loads goes on with the generator that
it had. So whatever is random is left in the tree, and is rolled afresh each time content is
consumed.
-/

namespace ContentLang

/-- Settings with another seed, and other answers to conditions. -/
def Settings.withChance (s : Settings) (seed : Option UInt64) (conditions : Entries String Bool) :
    Settings :=
  { s with seed, conditions }

namespace Engine

/-- **Whether two engines differ at most in chance and conditions**: in the seed and the fixed
answers that their settings name, in the conditions, generators and remarks of their hosts, and
in what they drew and remember. -/
structure Alike (e e' : Engine) : Prop where
  settings : e.settings.withChance e'.settings.seed e'.settings.conditions = e'.settings
  assetName : e.host.assetName = e'.host.assetName
  fileText : e.host.fileText = e'.host.fileText
  registry : e'.registry = e.registry
  limit : e.limit = e'.limit

variable {e e' : Engine}

theorem Alike.refl (e : Engine) : e.Alike e := ⟨rfl, rfl, rfl, rfl, rfl⟩

/-- Engines that differ in chance and conditions are beside worlds that are the same to the
loading pass. -/
theorem Alike.loadsAs (h : e.Alike e') : e.world.LoadsAs e'.world where
  assetName := h.assetName
  fileText := h.fileText
  uniqueId := by rw [world, world, ← h.settings]; rfl
  contentRoot := by rw [world, world, ← h.settings]; rfl
  maxIncludeDepth := by rw [world, world, ← h.settings]; rfl

theorem Alike.forgetful (h : e.Alike e') : e.forgetful.Alike e'.forgetful :=
  ⟨h.settings, h.assetName, h.fileText, h.registry, h.limit⟩

/-- What two engines make of one tree in the loading pass. -/
theorem Alike.process_answer (h : e.Alike e') (hfunctions : ∀ f ∈ e.registry, f.2.LoadsAlike)
    (l : Loaded) : (e.process l).answer = (e'.process l).answer := by
  obtain ⟨answer, ds, ha, ha'⟩ :=
    process_alike e e' h.loadsAs h.registry hfunctions h.limit (l := l) rfl rfl
  rw [ha, ha']

/-- An engine is left as it was by the loading pass. -/
theorem process_engine (hfunctions : ∀ f ∈ e.registry, f.2.LoadsAlike) (l : Loaded) :
    (e.process l).engine = e := by
  have hstate := (processed_alike e e (.refl e.world) rfl hfunctions rfl l.file l.source e.state
    e.state).2.1
  show { e with state := (e.processed l.file l.source e.state).state } = e
  rw [hstate]

/-- **A text is loaded the same** by engines that differ in chance and conditions. -/
theorem Alike.loadText_answer (h : e.Alike e') (hfunctions : ∀ f ∈ e.registry, f.2.LoadsAlike)
    (text file : String) : (e.loadText text file).answer = (e'.loadText text file).answer := by
  have hid : e.settings.uniqueId = e'.settings.uniqueId := h.loadsAs.uniqueId
  have hread : e.read text file = e'.read text file := by simp only [read, hid]
  calc (e.loadText text file).answer
      = (e.forgetful.process (e'.read text file)).answer := by rw [← hread]; rfl
    _ = (e'.forgetful.process (e'.read text file)).answer :=
      h.forgetful.process_answer hfunctions _
    _ = (e'.loadText text file).answer := rfl

/-- A file is loaded the same, if it is there. -/
theorem Alike.loadFile_answer (h : e.Alike e') (hfunctions : ∀ f ∈ e.registry, f.2.LoadsAlike)
    (path : String) : (e.loadFile path).answer = (e'.loadFile path).answer := by
  simp only [loadFile, remarking, h.fileText]
  rcases e'.host.fileText (Path.normalize path) with _ | text
  · rfl
  · exact congrArg (Except.map Except.ok) (h.loadText_answer hfunctions text (Path.normalize path))

/-- Nothing is drawn where a file is loaded. -/
theorem loadFile_generator (hfunctions : ∀ f ∈ e.registry, f.2.LoadsAlike) (path : String) :
    (e.loadFile path).engine.state.generator = e.state.generator := by
  simp only [loadFile, remarking]
  rcases e.host.fileText (Path.normalize path) with _ | text
  · rfl
  · have hengine : (e.loadText text (Path.normalize path)).engine = e.forgetful :=
      process_engine (e := e.forgetful) hfunctions _
    exact congrArg (·.state.generator) hengine

/-- **Loading is independent of chance and conditions.** Two engines that differ in nothing else
load every text, load every file and refresh every loaded file to the same: the same trees with
all that is noted in them, and the same diagnostics in the same order. An engine that loads
forgets what its functions remember, one that refreshes is left as it was, and neither draws a
random number. -/
theorem loads_independently (e e' : Engine) (halike : e.Alike e')
    (hfunctions : ∀ f ∈ e.registry, f ∈ Registry.builtin ∨ f.2.LoadsAlike) :
    (∀ text file, (e.loadText text file).answer = (e'.loadText text file).answer ∧
        (e.loadText text file).engine = e.forgetful) ∧
      (∀ path, (e.loadFile path).answer = (e'.loadFile path).answer ∧
        (e.loadFile path).engine.state.generator = e.state.generator) ∧
      ∀ l, (e.refresh l).answer = (e'.refresh l).answer ∧ (e.refresh l).engine = e := by
  have hloads : ∀ f ∈ e.registry, f.2.LoadsAlike := fun f hf =>
    (hfunctions f hf).elim Function.loadsAlike_builtin id
  refine ⟨fun text file => ⟨halike.loadText_answer hloads text file, ?_⟩,
    fun path => ⟨halike.loadFile_answer hloads path, loadFile_generator hloads path⟩,
    fun l => ⟨halike.process_answer hloads l, process_engine hloads l⟩⟩
  exact process_engine (e := e.forgetful) hloads _

/-- A choice and a condition, loaded by two engines of which only one knows the condition, and
that would choose differently. -/
theorem loads_independently_choice :
    let files (f : String) :=
      if f = "b" then some "FilterByCondition([{Condition: c; V: 1}])" else none
    let e := Engine.start { Settings.standard with seed := some 1, conditions := [("c", true)] }
      (.plain (fun _ => some true) files) 0
    let e' := Engine.start .standard (.plain (fun _ => none) files) 7
    e.host.condition "c" ≠ e'.host.condition "c" ∧
      e.state.generator.value ≠ e'.state.generator.value ∧
      ∃ l, (e.loadText "Include(b); Choose([x; y])" "main.txt").answer = .ok l ∧
        (e'.loadText "Include(b); Choose([x; y])" "main.txt").answer = .ok l ∧
        l.root.calls.map (·.function) = ["FilterByCondition", "Choose"] := by
  intro files e e'
  have hdiffers : e.state.generator.value ≠ e'.state.generator.value := by decide +kernel
  obtain ⟨hload, -⟩ := loads_independently e e' ⟨rfl, rfl, rfl, rfl, rfl⟩ fun f hf => .inl hf
  have hrun : (match (e.loadText "Include(b); Choose([x; y])" "main.txt").answer with
      | .ok l => decide (l.root.calls.map (·.function) = ["FilterByCondition", "Choose"])
      | .error _ => false) = true := by decide +kernel
  refine ⟨by decide, hdiffers, ?_⟩
  rcases h : (e.loadText "Include(b); Choose([x; y])" "main.txt").answer with halt | l
  · rw [h] at hrun
    exact absurd hrun Bool.false_ne_true
  · rw [h] at hrun
    refine ⟨l, rfl, ?_, of_decide_eq_true hrun⟩
    rw [← h]
    exact (hload _ _).1.symm

end Engine

end ContentLang
