import ContentLang.Proofs.Walk.Congruence

/-!
# What loading depends on

The loading pass depends on the texts of files and the names of assets, and on nothing else
outside: not on conditions, generators, what functions remember, or what was drawn before
(`ContentLang.reduce_loading`). It leaves the generator and the memory as they were.

It is the congruence of walks that give the same answer and the same diagnostics from all
states, and change none (`ContentLang.Congruence.loading`).
-/

namespace ContentLang

/-- The diagnostics among notes. -/
def diagnosticsOf (notes : List Note) : List Diagnostic := notes.filterMap Note.diagnostic?

theorem diagnosticsOf_append (ns ms : List Note) :
    diagnosticsOf (ns ++ ms) = diagnosticsOf ns ++ diagnosticsOf ms :=
  List.filterMap_append ..

/-- The notes of a question hold no diagnostics. -/
theorem diagnosticsOf_questionNotes (host : Host) (q : Query) :
    diagnosticsOf (Walk.questionNotes host q) = [] := by
  simp [diagnosticsOf, Walk.questionNotes, Note.diagnostic?]

/-- **Whether two walks load alike**: from all states, with one answer and the same
diagnostics, and without a change of either state. -/
def LoadAlike {α : Type} (m₁ m₂ : Walk α) : Prop :=
  ∀ s₁ s₂, (m₁ s₁).answer = (m₂ s₂).answer ∧ (m₁ s₁).state = s₁ ∧ (m₂ s₂).state = s₂ ∧
    diagnosticsOf (m₁ s₁).notes = diagnosticsOf (m₂ s₂).notes

theorem loadAlike_bind {α β : Type} {m₁ m₂ : Walk α} {f₁ f₂ : α → Walk β}
    (h : LoadAlike m₁ m₂) (hf : ∀ a, LoadAlike (f₁ a) (f₂ a)) :
    LoadAlike (m₁ >>= f₁) (m₂ >>= f₂) := by
  intro s₁ s₂
  obtain ⟨ha, hs₁, hs₂, hd⟩ := h s₁ s₂
  cases hm : (m₁ s₁).answer with
  | error e =>
    rw [Walk.bind_error hm, Walk.bind_error (ha ▸ hm)]
    exact ⟨rfl, hs₁, hs₂, hd⟩
  | ok a =>
    -- Neither state has changed, so the second walks start where the first did.
    obtain ⟨ha', hs₁', hs₂', hd'⟩ := hf a s₁ s₂
    rw [Walk.bind_ok hm, Walk.bind_ok (ha ▸ hm), hs₁, hs₂]
    refine ⟨ha', hs₁', hs₂', ?_⟩
    rw [diagnosticsOf_append, diagnosticsOf_append, hd, hd']

/-- Whether two worlds are the same to the loading pass. -/
structure World.LoadsAs (w₁ w₂ : World) : Prop where
  assetName : w₁.host.assetName = w₂.host.assetName
  fileText : w₁.host.fileText = w₂.host.fileText
  uniqueId : w₁.settings.uniqueId = w₂.settings.uniqueId
  contentRoot : w₁.settings.contentRoot = w₂.settings.contentRoot
  maxIncludeDepth : w₁.settings.maxIncludeDepth = w₂.settings.maxIncludeDepth

theorem World.LoadsAs.refl (w : World) : w.LoadsAs w := ⟨rfl, rfl, rfl, rfl, rfl⟩

/-- **Loading alike is a congruence** of the loading pass. -/
def Congruence.loading {w₁ w₂ : World} (h : w₁.LoadsAs w₂) : Congruence false w₁ w₂ where
  rel := LoadAlike
  pure _ _ _ := ⟨rfl, rfl, rfl, rfl⟩
  bind := loadAlike_bind
  halt _ _ _ := ⟨rfl, rfl, rfl, rfl⟩
  leave _ _ _ := ⟨rfl, rfl, rfl, rfl⟩
  askAsset path _ _ := by
    refine ⟨?_, rfl, rfl, ?_⟩
    · simp [Walk.askAsset, h.assetName]
    · simp [Walk.askAsset, diagnosticsOf_questionNotes]
  askFile path _ _ := by
    refine ⟨?_, rfl, rfl, ?_⟩
    · simp [Walk.askFile, h.fileText]
    · simp [Walk.askFile, diagnosticsOf_questionNotes]
  askCondition hlate := absurd hlate (by decide)
  askRandom hlate := absurd hlate (by decide)
  draw hlate := absurd hlate (by decide)
  remember hlate := absurd hlate (by decide)
  uniqueId := h.uniqueId
  contentRoot := h.contentRoot
  maxIncludeDepth := h.maxIncludeDepth

/-- **What is asked of a function that a host adds**: what it does while content is loaded
depends on the texts of files and the names of assets alone. Nothing is asked of late
functions, which do nothing then. -/
def Function.LoadsAlike (f : Function) : Prop :=
  ∀ (w₁ w₂ : World) (h : w₁.LoadsAs w₂), (Congruence.loading h).Respects f

/-- The functions of the language are as those that a host adds should be. -/
theorem Function.loadsAlike_builtin {e : String × Function} (he : e ∈ Registry.builtin) :
    e.2.LoadsAlike :=
  fun _ _ h => (Congruence.loading h).respects_builtin e he

/-- **What the loading pass depends on**: beside two worlds in which files and assets are
the same it gives the same answer and the same diagnostics, from whatever states. -/
theorem reduce_loading {w₁ w₂ : World} (h : w₁.LoadsAs w₂) {env : Surroundings}
    (hlate : env.late = false) (hfunctions : ∀ e ∈ env.registry, e.2.LoadsAlike) (node : Node)
    (ctx : Context) :
    LoadAlike (reduce (env.beside w₁) node ctx) (reduce (env.beside w₂) node ctx) :=
  (Congruence.loading h).reduce ⟨hlate, fun e he => hfunctions e he w₁ w₂ h⟩ node ctx

end ContentLang
