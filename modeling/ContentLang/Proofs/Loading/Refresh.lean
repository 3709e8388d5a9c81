import ContentLang.Engine
import ContentLang.Proofs.Grammar.Reports
import ContentLang.Proofs.Loading.Blind

/-!
# Refreshing and loading again

A loaded file that is refreshed gets the root that its text would get if it were loaded
again beside the current host, whatever the files were when it was loaded, and however
often it was refreshed since. Its diagnostics need not be the same. Refreshing keeps those
that are about a text, to which the ones of the file's own text belong; but the loading
pass reports what is wrong with the texts of included files each time, and these reports
are kept as well. So the diagnostics agree exactly if those kept are those of the file's
own text (`ContentLang.Engine.refresh_iff_own_reports`).
-/

namespace ContentLang

/-- **Where a loaded file comes from**: a text was loaded, and the file refreshed since any
number of times, by engines with the given settings, whatever their hosts and functions. -/
inductive LoadedFrom (settings : Settings) (text file : String) : Loaded → Prop
  | load (e : Engine) (l : Loaded) (hs : e.settings = settings)
      (h : (e.loadText text file).answer = .ok l) : LoadedFrom settings text file l
  | refresh (e : Engine) (l l' : Loaded) (hl : LoadedFrom settings text file l)
      (h : (e.refresh l).answer = .ok l') : LoadedFrom settings text file l'

/-- The reports that refreshing keeps. -/
def Loaded.kept (l : Loaded) : List Diagnostic := l.diagnostics.filter (·.problem.isTextual)

namespace Engine

/-- What an engine's walks are carried out beside. -/
def world (e : Engine) : World := ⟨e.host, e.settings⟩

/-- A file after the loading pass keeps its path and the tree that was read. -/
theorem process_source {e : Engine} {l l' : Loaded} (h : (e.process l).answer = .ok l') :
    l'.file = l.file ∧ l'.source = l.source := by
  unfold process at h
  dsimp only at h
  cases ha : (e.carryOut (e.processed l.file l.source)).answer with
  | error halt =>
    rw [ha] at h
    exact absurd h (by simp [Except.map])
  | ok root =>
    rw [ha] at h
    simp only [Except.map, Except.ok.injEq] at h
    subst h
    exact ⟨rfl, rfl⟩

/-- The loading pass of two engines on one tree, beside worlds that are the same to it. -/
theorem processed_alike (e e' : Engine) (hw : e.world.LoadsAs e'.world)
    (hregistry : e'.registry = e.registry) (hfunctions : ∀ f ∈ e.registry, f.2.LoadsAlike)
    (hlimit : e.limit = e'.limit) (file : String) (source : Node) :
    LoadAlike (e.processed file source) (e'.processed file source) := by
  have henv : e'.surroundings false file = (e.surroundings false file).beside e'.world := by
    simp [surroundings, Surroundings.beside, world, hregistry, hlimit]
  have hreduce : LoadAlike (reduce ((e.surroundings false file).beside e.world) source .empty)
      (reduce ((e.surroundings false file).beside e'.world) source .empty) :=
    reduce_loading hw rfl hfunctions source .empty
  rw [← henv] at hreduce
  exact loadAlike_bind hreduce fun outcome _ _ => ⟨rfl, rfl, rfl, rfl⟩

/-- The reports of a text are all kept. -/
theorem kept_read (e : Engine) (text file : String) :
    (e.read text file).kept = (parseText text file e.settings.uniqueId).2 :=
  List.filter_eq_self.mpr (textual_parseText text file e.settings.uniqueId)

/-- Two files with one tree are loaded as one, up to the reports that are kept. -/
theorem process_alike (e e' : Engine) (hw : e.world.LoadsAs e'.world)
    (hregistry : e'.registry = e.registry) (hfunctions : ∀ f ∈ e.registry, f.2.LoadsAlike)
    (hlimit : e.limit = e'.limit) {l l' : Loaded} (hf : l.file = l'.file)
    (hs : l.source = l'.source) :
    ∃ (answer : Except Halt Node) (ds : List Diagnostic),
      (e.process l).answer =
          answer.map (fun root => { l with root, diagnostics := l.kept ++ ds }) ∧
        (e'.process l').answer =
          answer.map (fun root => { l' with root, diagnostics := l'.kept ++ ds }) := by
  obtain ⟨ha, -, -, hd⟩ := processed_alike e e' hw hregistry hfunctions hlimit l.file l.source
    e.state e'.state
  refine ⟨(e.carryOut (e.processed l.file l.source)).answer,
    diagnosticsOf (e.carryOut (e.processed l.file l.source)).notes, rfl, ?_⟩
  have ha' : (e'.carryOut (e'.processed l'.file l'.source)).answer =
      (e.carryOut (e.processed l.file l.source)).answer := by
    rw [← hf, ← hs]
    exact ha.symm
  have hd' : diagnosticsOf (e'.carryOut (e'.processed l'.file l'.source)).notes =
      diagnosticsOf (e.carryOut (e.processed l.file l.source)).notes := by
    rw [← hf, ← hs]
    exact hd.symm
  rw [← ha', ← hd']
  rfl

end Engine

/-- However a file was loaded, its tree is that of its text. -/
theorem LoadedFrom.source {settings : Settings} {text file : String} {l : Loaded}
    (h : LoadedFrom settings text file l) (e : Engine) (he : e.settings = settings) :
    l.file = file ∧ l.source = (e.read text file).source := by
  induction h with
  | load e' l hs h =>
    obtain ⟨hf, hsource⟩ := Engine.process_source h
    refine ⟨hf, hsource.trans ?_⟩
    simp only [Engine.read, hs, he]
  | refresh e' l l' hl h ih =>
    obtain ⟨hf, hsource⟩ := Engine.process_source h
    exact ⟨hf.trans ih.1, hsource.trans ih.2⟩

namespace Engine

/-- A file that comes from a text is refreshed as the text is loaded, up to the reports
that are kept. -/
theorem refresh_alike {e : Engine} (hfunctions : ∀ f ∈ e.registry, f.2.LoadsAlike)
    {text file : String} {l : Loaded} (hl : LoadedFrom e.settings text file l) :
    ∃ (answer : Except Halt Node) (ds : List Diagnostic),
      (e.refresh l).answer =
          answer.map (fun root => { l with root, diagnostics := l.kept ++ ds }) ∧
        (e.loadText text file).answer =
          answer.map (fun root => { l with
            root, diagnostics := (parseText text file e.settings.uniqueId).2 ++ ds }) := by
  obtain ⟨hf, hs⟩ := hl.source e rfl
  obtain ⟨answer, ds, ha, ha'⟩ :=
    process_alike e e.forgetful (.refl e.world) rfl hfunctions rfl hf hs
  refine ⟨answer, ds, ha, ?_⟩
  rw [kept_read] at ha'
  refine ha'.trans ?_
  congr 1
  funext root
  simp only [hf, hs]
  rfl

/-- **Refreshing and loading again.** Beside the current host, refreshing a file that was
loaded from a text gives the root that loading the text again gives. The diagnostics are
the same exactly if the reports kept are those of the text itself; then, if the text is
loaded as this very file, refreshing does not change it. -/
theorem refresh_iff_own_reports (e : Engine) (text file : String) (l : Loaded)
    (hfunctions : ∀ f ∈ e.registry, f ∈ Registry.builtin ∨ f.2.LoadsAlike)
    (hl : LoadedFrom e.settings text file l) :
    (e.refresh l).answer.map Loaded.root = (e.loadText text file).answer.map Loaded.root ∧
      (∀ l₁ l₂, (e.refresh l).answer = .ok l₁ → (e.loadText text file).answer = .ok l₂ →
        (l₁.diagnostics = l₂.diagnostics ↔
          l.kept = (parseText text file e.settings.uniqueId).2)) ∧
      ((e.loadText text file).answer = .ok l →
        ((e.refresh l).answer = .ok l ↔
          l.kept = (parseText text file e.settings.uniqueId).2)) := by
  obtain ⟨answer, ds, ha, ha'⟩ := refresh_alike
    (fun f hf => (hfunctions f hf).elim Function.loadsAlike_builtin id) hl
  rw [ha, ha']
  cases answer with
  | error halt =>
    refine ⟨rfl, fun l₁ l₂ h => ?_, fun h => ?_⟩
    · exact absurd h (by simp [Except.map])
    · exact absurd h (by simp [Except.map])
  | ok root =>
    refine ⟨rfl, fun l₁ l₂ h₁ h₂ => ?_, fun h => ?_⟩
    · simp only [Except.map, Except.ok.injEq] at h₁ h₂
      rw [← h₁, ← h₂]
      exact List.append_left_inj ds
    · -- The file itself holds the reports of its text and those of the pass.
      simp only [Except.map, Except.ok.injEq] at h
      have hroot : root = l.root := by rw [← h]
      have hds : (parseText text file e.settings.uniqueId).2 ++ ds = l.diagnostics := by rw [← h]
      rw [Except.map, Except.ok.injEq, hroot, Loaded.mk.injEq, ← hds]
      simp

/-- A file that includes a file without mistakes, and is refreshed. -/
theorem refresh_include_of_correct :
    let host := Host.plain (fun _ => none) fun f => if f = "b" then some "x; y" else none
    let e := Engine.start .standard host 0
    ∃ l, LoadedFrom e.settings "Include(b)" "main.txt" l ∧
      (e.refresh l).answer.map Loaded.root =
          (e.loadText "Include(b)" "main.txt").answer.map Loaded.root ∧
        l.kept = (parseText "Include(b)" "main.txt" e.settings.uniqueId).2 ∧
        (e.refresh l).answer = .ok l := by
  intro host e
  have hrun : (match (e.loadText "Include(b)" "main.txt").answer with
      | .ok l => decide (l.kept = (parseText "Include(b)" "main.txt" e.settings.uniqueId).2)
      | .error _ => false) = true := by decide +kernel
  cases hload : (e.loadText "Include(b)" "main.txt").answer with
  | error halt =>
    rw [hload] at hrun
    exact absurd hrun Bool.false_ne_true
  | ok l =>
    rw [hload] at hrun
    have hl : LoadedFrom e.settings "Include(b)" "main.txt" l := .load e l rfl hload
    have hkept := of_decide_eq_true hrun
    obtain ⟨hroot, -, hsame⟩ := refresh_iff_own_reports e "Include(b)" "main.txt" l
      (fun f hf => .inl hf) hl
    exact ⟨l, hl, hload ▸ hroot, hkept, (hsame hload).mpr hkept⟩

/-- The parse error of an included file is reported once more by a refresh. -/
theorem refresh_repeats_reports :
    let host := Host.plain (fun _ => none) fun f => if f = "b" then some "[" else none
    let e := Engine.start .standard host 0
    ∃ l l', (e.loadText "Include(b)" "main.txt").answer = .ok l ∧
      (e.refresh l).answer = .ok l' ∧ l.diagnostics ≠ [] ∧
        l'.diagnostics = l.diagnostics ++ l.diagnostics := by
  intro host e
  have hrun : (match (e.loadText "Include(b)" "main.txt").answer with
      | .ok l => match (e.refresh l).answer with
        | .ok l' => decide (l.diagnostics ≠ [] ∧ l'.diagnostics = l.diagnostics ++ l.diagnostics)
        | .error _ => false
      | .error _ => false) = true := by decide +kernel
  cases hload : (e.loadText "Include(b)" "main.txt").answer with
  | error halt =>
    rw [hload] at hrun
    exact absurd hrun Bool.false_ne_true
  | ok l =>
    simp only [hload] at hrun
    cases hrefresh : (e.refresh l).answer with
    | error halt =>
      rw [hrefresh] at hrun
      exact absurd hrun Bool.false_ne_true
    | ok l' =>
      rw [hrefresh] at hrun
      obtain ⟨hne, hd⟩ := of_decide_eq_true hrun
      exact ⟨l, l', rfl, hrefresh, hne, hd⟩

end Engine

end ContentLang
