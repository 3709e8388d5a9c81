import ContentLang.Proofs.Settled.Still
import ContentLang.Proofs.Walk.InTurn

/-!
# Inert nodes are idle

Consuming an inert node again gives a node that is alike, and does nothing else
(`ContentLang.Reduce.idle_inert`). It can only be given up as too deep; that is what is said here
beside `ContentLang.Reduce.still_inContext`.
-/

namespace ContentLang

open Walk

namespace Walk

/-- Idle walks in turn. -/
theorem idle_inTurn {α : Type} [Bare α] {f : α → Walk (Option (List α))} {as : List α}
    (h : ∀ a ∈ as, Idle (fun r => ∃ b, r = some [b] ∧ Alike a b) (f a)) :
    Idle (fun r => ∃ bs, r = some bs ∧ Alike as bs) (inTurn f as) := by
  induction as with
  | nil => exact idle_pure ⟨[], rfl, .refl []⟩
  | cons a as ih =>
    obtain ⟨ha, has⟩ := List.forall_mem_cons.mp h
    refine idle_bind ha fun r hr => ?_
    obtain ⟨b, rfl, hab⟩ := hr
    refine idle_map (ih has) fun r hr => ?_
    obtain ⟨bs, rfl, hbs⟩ := hr
    exact ⟨b :: bs, rfl, alike_cons_iff.mpr ⟨b, bs, rfl, hab, hbs⟩⟩

end Walk

namespace Reduce

section

variable {env : Surroundings} (hlate : env.late = true) {rec : Reducer}
  (hrec : ∀ n ctx, n.Inert (Registry.isKnown env.registry) → Idle (Says n) (rec env n ctx))
  (ctx : Context)
include hrec

theorem idle_visit {n : Node} (hn : n.Inert (Registry.isKnown env.registry)) :
    Idle (Says n) (visit env rec n ctx) :=
  hrec n _ hn

theorem idle_reduceParams {ps : List Node}
    (hps : ∀ p ∈ ps, p.Inert (Registry.isKnown env.registry)) :
    Idle (fun r => ∃ qs, r = some qs ∧ Alike ps qs) (reduceParams env rec ctx ps) := by
  induction ps with
  | nil => exact idle_pure ⟨[], rfl, .refl []⟩
  | cons p ps ih =>
    obtain ⟨hp, hps⟩ := List.forall_mem_cons.mp hps
    refine idle_bind (idle_visit hrec ctx hp) fun out hout => ?_
    obtain ⟨q, rfl, hpq⟩ := hout
    refine idle_map (ih hps) fun r hr => ?_
    obtain ⟨qs, rfl, hqs⟩ := hr
    exact ⟨q :: qs, rfl, alike_cons_iff.mpr ⟨q, qs, rfl, hpq, hqs⟩⟩

theorem idle_reduceCallParams {f : String} {ps : List Node} (o : Origin)
    (hps : ∀ p ∈ ps, p.Inert (Registry.isKnown env.registry)) :
    Idle (fun r => ∃ qs, r = some ⟨f, qs, { o with context := ctx }⟩ ∧ Alike ps qs)
      (reduceCallParams env rec ⟨f, ps, o⟩ ctx) := by
  refine idle_map (idle_reduceParams hrec ctx hps) fun r hr => ?_
  obtain ⟨qs, rfl, hqs⟩ := hr
  exact ⟨qs, rfl, hqs⟩

/-- A call of nothing known is kept. -/
theorem idle_call {f : String} {ps : List Node} {o : Origin}
    (hn : (Node.call f ps o).Inert (Registry.isKnown env.registry)) :
    Idle (Says (.call f ps o)) (call env rec ⟨f, ps, o⟩ none ctx) := by
  obtain ⟨hf, hps⟩ := Node.inert_call.mp hn
  rw [call_eq_callNamed (Registry.not_isKnown_iff.mp hf).1]
  unfold callNamed
  simp only [Registry.get?_of_not_isKnown hf]
  refine idle_bind (idle_leave _) fun _ _ =>
    idle_bind (idle_reduceCallParams hrec ctx o hps) fun r hr => ?_
  obtain ⟨qs, rfl, hqs⟩ := hr
  exact idle_pure ⟨.call f qs { o with context := ctx }, rfl,
    by simp [Alike, show bare ps = bare qs from hqs]⟩

/-- The same with data after it. -/
theorem idle_statement {f : String} {ps : List Node} {o : Origin} {data : Node}
    (hn : (Node.statement f ps o data).Inert (Registry.isKnown env.registry)) :
    Idle (Says (.statement f ps o data)) (call env rec ⟨f, ps, o⟩ (some data) ctx) := by
  obtain ⟨hf, hps, hdata⟩ := Node.inert_statement.mp hn
  rw [call_eq_callNamed (Registry.not_isKnown_iff.mp hf).1]
  unfold callNamed
  simp only [Registry.get?_of_not_isKnown hf]
  refine idle_bind (idle_leave _) fun _ _ =>
    idle_bind (idle_reduceCallParams hrec ctx o hps) fun r hr => ?_
  obtain ⟨qs, rfl, hqs⟩ := hr
  refine idle_bind (idle_visit hrec ctx hdata) fun out hout => ?_
  obtain ⟨d, rfl, hd⟩ := hout
  exact idle_pure ⟨.statement f qs { o with context := ctx } d, rfl, by
    simp [Alike, show bare ps = bare qs from hqs, show bare data = bare d from hd]⟩

include hlate

theorem idle_step {n : Node} (hn : n.Inert (Registry.isKnown env.registry)) :
    Idle (Says n) (step rec env n ctx) := by
  cases n with
  | token t => exact idle_pure ⟨_, rfl, rfl⟩
  | array is o =>
    have his := Node.inert_array.mp hn
    have hitems : Idle (fun r => ∃ bs, r = some bs ∧ Alike is bs) (elements env rec ctx is) := by
      rw [elements_eq_inTurn hlate rec ctx fun i hi => (his i hi).settled]
      refine idle_inTurn fun i hi => idle_map (idle_visit hrec ctx (his i hi)) fun out hout => ?_
      obtain ⟨m, rfl, hm⟩ := hout
      exact ⟨m, rfl, hm⟩
    refine idle_bind hitems fun r hr => ?_
    obtain ⟨bs, rfl, hbs⟩ := hr
    exact idle_pure ⟨_, rfl, by simp [Alike, show bare is = bare bs from hbs]⟩
  | block es o =>
    have hes := Node.inert_block.mp hn
    have hentries : Idle (fun r => ∃ fs, r = some fs ∧ Alike es fs) (entries env rec ctx es) := by
      rw [entries_eq_inTurn hlate rec ctx]
      refine idle_inTurn fun e he =>
        idle_map (idle_visit hrec ctx (hes e he)) fun out hout => ?_
      obtain ⟨m, rfl, hm⟩ := hout
      exact ⟨(e.1, m), rfl, congrArg (Prod.mk _) hm⟩
    refine idle_bind hentries fun r hr => ?_
    obtain ⟨fs, rfl, hfs⟩ := hr
    exact idle_pure ⟨_, rfl, by simp [Alike, show bare es = bare fs from hfs]⟩
  | call f ps o => exact idle_call hrec ctx hn
  | statement f ps o data => exact idle_statement hrec ctx hn

end

/-- **Consuming an inert node again is idle.** -/
theorem idle_inert {env : Surroundings} (hlate : env.late = true) (limit : Nat) {n : Node}
    (ctx : Context) (hn : n.Inert (Registry.isKnown env.registry)) :
    Idle (Says n) (inContext limit env n ctx) := by
  induction limit generalizing n ctx with
  | zero => exact fun _ => .inl rfl
  | succ limit ih => exact idle_step hlate (fun n ctx hn => ih ctx hn) ctx hn

end Reduce

end ContentLang
