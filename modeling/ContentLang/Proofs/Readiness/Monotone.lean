import ContentLang.Engine
import ContentLang.Proofs.Readiness.Reduction

/-!
# Hosts that know more

One host knows more than another (`ContentLang.Host.Below`) if it gives every answer the other
gives, and maybe more. A node that is consumed beside a host comes to the same beside one
that knows more, as long as no condition was asked for that the first host could not answer
(`ContentLang.Congruence.following`); and as long as no binding is dropped, no such
condition was asked for if the node came to anything at all
(`ContentLang.Reduce.propagates_reduce`). Together they are
`ContentLang.Engine.resolve_ready`.

A dropped binding is what breaks it: where a value that is bound is not ready, the walk goes
on without the binding, and a default stands in for it that another host would not have
given.
-/

namespace ContentLang

/-- **Whether a host knows less than another one**: files, assets and generators are the
same, and what it answers the other answers alike. -/
structure Host.Below (h₁ h₂ : Host) : Prop where
  assetName : h₁.assetName = h₂.assetName
  fileText : h₁.fileText = h₂.fileText
  random : h₁.random = h₂.random
  condition : ∀ text answer, h₁.condition text = some answer → h₂.condition text = some answer

/-- Of two hosts with the same files, the one that answers more conditions knows more. -/
theorem Host.plain_below {c₁ c₂ : String → Option Bool} {files : String → Option String}
    (h : ∀ text answer, c₁ text = some answer → c₂ text = some answer) :
    (Host.plain c₁ files).Below (Host.plain c₂ files) := ⟨rfl, rfl, rfl, h⟩

/-- **Whether one walk follows another**: unless that one was blocked, to the same answer and
the same state. -/
def Follows {α : Type} (host : Host) (m₁ m₂ : Walk α) : Prop :=
  ∀ s, ¬ Blocked host (m₁ s).notes →
    (m₂ s).answer = (m₁ s).answer ∧ (m₂ s).state = (m₁ s).state

theorem follows_bind {α β : Type} {host : Host} {m₁ m₂ : Walk α} {f₁ f₂ : α → Walk β}
    (h : Follows host m₁ m₂) (hf : ∀ a, Follows host (f₁ a) (f₂ a)) :
    Follows host (m₁ >>= f₁) (m₂ >>= f₂) :=
  Walk.sameUnless_bind blocked_append h hf

/-- **Following is a congruence** beside a host and one that knows more. -/
def Congruence.following {h₁ h₂ : Host} (settings : Settings) (h : h₁.Below h₂) :
    Congruence true ⟨h₁, settings⟩ ⟨h₂, settings⟩ where
  rel := Follows h₁
  pure _ _ _ := ⟨rfl, rfl⟩
  bind := follows_bind
  halt _ _ _ := ⟨rfl, rfl⟩
  leave _ _ _ := ⟨rfl, rfl⟩
  askAsset path _ _ := ⟨by simp [Walk.askAsset, h.assetName], rfl⟩
  askFile path _ _ := ⟨by simp [Walk.askFile, h.fileText], rfl⟩
  askCondition _ text s hs := by
    cases hc : h₁.condition text with
    -- Without an answer the run is blocked, and nothing is asked of the other one.
    | none => exact absurd ⟨text, by simp [Walk.askCondition, Walk.questionNotes], hc⟩ hs
    | some answer => exact ⟨by simp [Walk.askCondition, hc, h.condition text answer hc], rfl⟩
  askRandom _ seed isStatic _ _ := ⟨by simp [Walk.askRandom, h.random], rfl⟩
  draw _ _ _ _ _ := ⟨rfl, rfl⟩
  remember _ _ _ _ _ _ := ⟨rfl, rfl⟩
  uniqueId := rfl
  contentRoot := rfl
  maxIncludeDepth := rfl

/-- **What is asked of a function that a host adds**: it propagates what is not ready, and
does the same beside a host that knows more. -/
structure Function.Ready (f : Function) : Prop where
  faithful : f.Faithful
  follows : ∀ {h₁ h₂ : Host} (settings : Settings) (h : h₁.Below h₂),
    (Congruence.following settings h).Respects f

/-- The functions of the language are as those that a host adds should be. -/
theorem Function.ready_builtin {e : String × Function} (he : e ∈ Registry.builtin) : e.2.Ready :=
  ⟨Function.faithful_builtin e he,
    fun settings h => (Congruence.following settings h).respects_builtin e he⟩

/-! ### Consuming a node -/

/-- A host with one file, where a default stands behind a binding that asks for a condition. -/
def guardedHost (condition : String → Option Bool) : Host :=
  .plain condition fun f =>
    if f = "sub.txt" then
      some "Set^(A, FilterByCondition([\x7bCondition: c; V: 1\x7d])); ^(A, dflt)"
    else none

/-- The node that includes the file. -/
def guardedNode : Node :=
  .call includeName [.token (.content "sub.txt" .unwritten)] (.written (.startOf "main.txt") 1)

namespace Engine

variable {e : Engine}

/-- The run that consumes a node. -/
def consumption (e : Engine) (node : Node) : Walked Outcome :=
  reduce (e.surroundings true node.location.file) node node.origin.context e.state

theorem resolve_answer (node : Node) :
    (e.resolve node).answer = (e.consumption node).answer.map (·.toNode? node.origin) := rfl

theorem resolve_notes (node : Node) : (e.resolve node).notes = (e.consumption node).notes := rfl

/-- The node that a node comes to, if the run ends and it is known yet. -/
def delivered (e : Engine) (node : Node) : Option Node := (e.resolve node).answer.toOption.join

theorem delivered_eq_some {node m : Node} :
    e.delivered node = some m ↔ (e.resolve node).answer = .ok (some m) :=
  Walk.join_toOption_eq_some

/-- A node comes to nothing, or a binding is dropped, exactly if the run was blocked. -/
theorem blocked_iff (hfunctions : ∀ f ∈ e.registry, f.2.Ready) {node : Node} {r : Option Node}
    (hr : (e.resolve node).answer = .ok r) :
    (r = none ∨ Dropped (e.resolve node).notes) ↔ Blocked e.host (e.resolve node).notes := by
  rw [resolve_notes]
  rw [resolve_answer] at hr
  cases ho : (e.consumption node).answer with
  | error halt => exact absurd hr (by simp [ho, Except.map])
  | ok o =>
    rw [ho] at hr
    obtain rfl : o.toNode? node.origin = r := Except.ok.inj hr
    have henv : (e.surroundings true node.location.file).Faithful :=
      ⟨rfl, fun f hf => (hfunctions f hf).faithful⟩
    have hrun := (Reduce.propagates_reduce henv node node.origin.context e.state o ho).2
    exact (or_congr_left Outcome.toNode?_eq_none).trans hrun

/-- Beside a host that knows more, a node comes to what it came to in a run that was not
blocked. -/
theorem resolve_follows (hfunctions : ∀ f ∈ e.registry, f.2.Ready) {h₂ : Host}
    (hhost : e.host.Below h₂) {node : Node} (h : ¬ Blocked e.host (e.resolve node).notes) :
    ((e.withHost h₂).resolve node).answer = (e.resolve node).answer := by
  let R := Congruence.following e.settings hhost
  have henv : R.Fits (e.surroundings true node.location.file) :=
    ⟨rfl, fun f hf => (hfunctions f hf).follows e.settings hhost⟩
  have hrun : ((e.withHost h₂).consumption node).answer = (e.consumption node).answer :=
    (R.reduce henv node node.origin.context e.state h).1
  rw [resolve_answer, resolve_answer, hrun]

/-- **What is not ready in consumption.** Beside a host, a node comes to nothing, or a binding
is dropped, exactly if a condition was asked for that the host has no answer to. What a node
comes to without a dropped binding, it comes to beside every host that knows more. -/
theorem resolve_ready (e : Engine) (h₂ : Host) (node : Node) (r : Option Node)
    (hfunctions : ∀ f ∈ e.registry, f ∈ Registry.builtin ∨ f.2.Ready) (hhost : e.host.Below h₂)
    (hr : (e.resolve node).answer = .ok r) :
    ((r = none ∨ Dropped (e.resolve node).notes) ↔ Blocked e.host (e.resolve node).notes) ∧
      ∀ m, r = some m → ¬ Dropped (e.resolve node).notes →
        ((e.withHost h₂).resolve node).answer = .ok (some m) := by
  have hready : ∀ f ∈ e.registry, f.2.Ready := fun f hf =>
    (hfunctions f hf).elim Function.ready_builtin id
  have hblocked := blocked_iff hready hr
  refine ⟨hblocked, fun m hm hdropped => ?_⟩
  have hnot : ¬ Blocked e.host (e.resolve node).notes := by
    rw [← hblocked, hm]
    simpa using hdropped
  rw [resolve_follows hready hhost hnot, hr, hm]

/-- A binding in an included file that asks for a condition, which the host answers. -/
theorem resolve_ready_guarded :
    let e := Engine.start .standard (guardedHost fun c => if c = "c" then some true else none) 0
    let h₂ := guardedHost fun _ => some true
    ∃ m, (e.resolve guardedNode).answer = .ok (some m) ∧ e.host.Below h₂ ∧
      ¬ Dropped (e.resolve guardedNode).notes ∧
        ((e.withHost h₂).resolve guardedNode).answer = .ok (some m) := by
  intro e h₂
  have hcomes : (e.delivered guardedNode).isSome = true := by decide +kernel
  have hnone : (e.resolve guardedNode).notes.any Note.isUnbound = false := by decide +kernel
  have hhost : e.host.Below h₂ := Host.plain_below fun text answer h => by
    split at h
    · exact h
    · exact absurd h (by simp)
  obtain ⟨m, hm⟩ := Option.isSome_iff_exists.mp hcomes
  have hr := delivered_eq_some.mp hm
  have hdropped : ¬ Dropped (e.resolve guardedNode).notes := by
    rw [dropped_iff, hnone]
    exact Bool.false_ne_true
  have hready := resolve_ready e h₂ guardedNode (some m) (fun f hf => .inl hf) hhost hr
  exact ⟨m, hr, hhost, hdropped, hready.2 m rfl hdropped⟩

/-- **A dropped binding lets a default stand in**: without an answer to the condition the node
comes to the default, and with the answer to something else. -/
theorem dropped_binding_is_delivered :
    let e := Engine.start .standard (guardedHost fun _ => none) 0
    let h₂ := guardedHost fun _ => some true
    e.host.Below h₂ ∧ ∃ m m', (e.resolve guardedNode).answer = .ok (some m) ∧
      ((e.withHost h₂).resolve guardedNode).answer = .ok (some m') ∧ m.same m' = false := by
  intro e h₂
  refine ⟨Host.plain_below fun _ _ h => absurd h (by simp), ?_⟩
  have hcome : (e.delivered guardedNode).any (fun m =>
      ((e.withHost h₂).delivered guardedNode).any fun m' => !m.same m') = true := by decide +kernel
  obtain ⟨m, hm, hother⟩ := (Option.any_eq_true _ _).mp hcome
  obtain ⟨m', hm', hsame⟩ := (Option.any_eq_true _ _).mp hother
  exact ⟨m, m', delivered_eq_some.mp hm, delivered_eq_some.mp hm', by simpa using hsame⟩

end Engine

end ContentLang
