import ContentLang.Proofs.Choices.Picks
import ContentLang.Proofs.Identity.Reduction
import ContentLang.Proofs.Loading.Loaded
import ContentLang.Proofs.Loading.Refresh
import ContentLang.Proofs.Nodes.Entries

/-!
# Each call has an identity of its own

What functions remember is kept for the identity of a call. The calls and statements in the root of
a loaded file have identities that are pairwise different
(`ContentLang.Engine.loaded_calls_apart`), so what is remembered of one call is never taken for what
is remembered of another.

A static choice without a seed takes its identity for one, but only the fingerprint, of which there
are no more than numbers of 64 bits. Two choices have one seed exactly if their identities collide
(`ContentLang.Uid.Collide`), and identities that a file is loaded with can
(`ContentLang.Engine.loaded_seeds_collide`).

The identities that a text is read with are the places of its tokens, which differ. From there on
the loading pass makes what it leaves stem from what was read
(`ContentLang.Reduce.sprouts_reduce`), and that is where the copies are: a file is marked with the
identity of the `Include` each time it is included, a value with that of the `^` each time it is
read. The identities of a value that is bound are those of the place where it was bound. That they
are the same at each read does no harm, since nothing but marked copies leaves a context.
-/

namespace ContentLang

open Library Node Reduce Uid Walk

namespace Registry

/-- The functions of the language keep identities apart. -/
theorem sprouts_builtin {env : Surroundings} (hlate : env.late = false)
    (hregistry : env.registry = .builtin) : env.Sprouts :=
  ⟨hlate, hregistry ▸ Function.stemming_builtin⟩

end Registry

/-- Whether two identities are different, and have one fingerprint. -/
def Uid.Collide (u v : String) : Prop := u ≠ v ∧ fingerprint u = fingerprint v

namespace Engine

/-- The tree that is read from a text has identities that are apart. -/
theorem apart_read (e : Engine) (text file : String) : AllApart (e.read text file).source.uids := by
  have hitems := apart_parseText text file e.settings.uniqueId
  simpa [read, rootOf] using hitems

/-- **What the loading pass makes of the tree of a file stems from it.** -/
theorem sprouts_processed {e : Engine} (hregistry : e.registry = .builtin) {file : String}
    {source : Node} (hsource : AllApart source.uids) :
    Gives (fun n => Stems source.uids n.uids) (e.processed file source) := by
  have hempty : Context.empty.Apart := fun _ h => nomatch h
  refine meets_map (sprouts_reduce (Registry.sprouts_builtin rfl hregistry) hsource hempty)
    fun o ho => ?_
  cases o with
  | value n => simpa [Outcome.toNode?] using ho
  | empty => exact stems_nil _
  | splice items => simpa [Outcome.toNode?] using ho
  | pending => exact .refl hsource

/-- The root of a file has identities that are apart, whether the file was just loaded or was
refreshed since. -/
theorem apart_root {e : Engine} (hregistry : e.registry = .builtin) {text file : String}
    {l : Loaded} (hload : (e.loadText text file).answer = .ok l ∨
      ∃ l₀, LoadedFrom e.settings text file l₀ ∧ (e.refresh l₀).answer = .ok l) :
    AllApart l.root.uids := by
  rcases hload with hload | ⟨l₀, hl₀, hrefresh⟩
  · have hsource := e.forgetful.apart_read text file
    have hroot := process_root (e := e.forgetful) hload
    exact (gives_answer (sprouts_processed hregistry hsource) hroot).apart
  · obtain ⟨-, hsource⟩ := hl₀.source e rfl
    have hapart : AllApart l₀.source.uids := hsource ▸ e.apart_read text file
    have hroot := process_root (e := e) hrefresh
    exact (gives_answer (sprouts_processed hregistry hapart) hroot).apart

/-- **Each call and statement in the root of a loaded file has an identity of its own**, whatever
is included and however often, and however often a value is read. Neither of two identities is
marked with the other one. So what is remembered of one call is never taken for what is remembered
of another; and two static choices that name no seed have one seed only if their identities
collide. -/
theorem loaded_calls_apart (e : Engine) (text file : String) (l : Loaded)
    (hregistry : e.registry = .builtin)
    (hload : (e.loadText text file).answer = .ok l ∨
      ∃ l₀, LoadedFrom e.settings text file l₀ ∧ (e.refresh l₀).answer = .ok l) :
    l.root.calls.Pairwise fun c d =>
      c.origin.uid ≠ d.origin.uid ∧ Apart c.origin.uid d.origin.uid ∧
        (∀ (memory : Memory) (answers : List Bool),
          Entries.get? (Entries.insert memory (c.function, c.origin.uid) answers)
              (d.function, d.origin.uid) =
            Entries.get? memory (d.function, d.origin.uid)) ∧
        ∀ ts us : List Token, ChoiceOptions.TakesSeed ts → ChoiceOptions.TakesSeed us →
          ((ChoiceOptions.ofTokens c.origin.uid ts).seed =
            (ChoiceOptions.ofTokens d.origin.uid us).seed ↔ Collide c.origin.uid d.origin.uid) := by
  have hapart : l.root.calls.Pairwise fun c d => Apart c.origin.uid d.origin.uid :=
    List.pairwise_map.mp (apart_root hregistry hload)
  refine hapart.imp fun {c d} hcd =>
    ⟨hcd.ne, hcd, fun memory answers => ?_, fun ts us hts hus => ?_⟩
  · have hkey : ((c.function, c.origin.uid) == (d.function, d.origin.uid)) = false := by
      rw [beq_eq_false_iff_ne]
      exact fun h => hcd.ne (congrArg Prod.snd h)
    exact Entries.get?_insert_of_ne hkey
  · rw [hts.seed, hus.seed, Option.some_inj, Collide]
    exact ⟨fun h => ⟨hcd.ne, h⟩, fun h => h.2⟩

/-- A file that is included twice, with a value that is bound there to two choices and read twice
each time: eight calls are left. -/
theorem loaded_calls_apart_copies :
    let host := Host.plain (fun _ => none) fun f =>
      if f = "b" then some "Set^(A, [Choose([x]); Choose([y])]); ^(A); ^(A)" else none
    let e := Engine.start .standard host 0
    ∃ l, (e.loadText "Include(b); Include(b)" "main.txt").answer = .ok l ∧
      l.root.calls.length = 8 ∧
      l.root.calls.Pairwise fun c d => c.origin.uid ≠ d.origin.uid := by
  intro host e
  have hrun : ((e.loadText "Include(b); Include(b)" "main.txt").answer.toOption.any fun l =>
      decide (l.root.calls.length = 8)) = true := by decide +kernel
  obtain ⟨l, hload, hlength⟩ := (Option.any_eq_true _ _).mp hrun
  have hload := Walk.toOption_eq_some.mp hload
  exact ⟨l, hload, of_decide_eq_true hlength,
    (loaded_calls_apart e _ _ l rfl (.inl hload)).imp fun h => h.1⟩

/-- **Two static choices of a loaded file may have one seed**: of two files with one choice each,
included under names that were searched for, the choices have different identities of one
fingerprint. -/
theorem loaded_seeds_collide :
    let host := Host.plain (fun _ => none) fun f =>
      if f = "w4p5tb2ry4b2c" ∨ f = "rjc2t2cp3npjd" then some "Choose([x; y], Static)" else none
    let e := Engine.start .standard host 0
    let optionsOf (c : Call) := ChoiceOptions.ofTokens c.origin.uid (c.params.tail.filterMap token?)
    ∃ l c d seed,
      (e.loadText "Include(w4p5tb2ry4b2c)\nInclude(rjc2t2cp3npjd)" "main.txt").answer = .ok l ∧
        c ∈ l.root.calls ∧ d ∈ l.root.calls ∧ c.origin.uid ≠ d.origin.uid ∧
        c.function = "Choose" ∧ d.function = "Choose" ∧
        (optionsOf c).seed = some seed ∧ (optionsOf d).seed = some seed := by
  intro host e optionsOf
  have hrun : ((e.loadText "Include(w4p5tb2ry4b2c)\nInclude(rjc2t2cp3npjd)"
      "main.txt").answer.toOption.any fun l => l.root.calls.any fun c => l.root.calls.any fun d =>
        decide (c.origin.uid ≠ d.origin.uid ∧ c.function = "Choose" ∧ d.function = "Choose" ∧
          (optionsOf c).seed = some 10488984491064025644 ∧
          (optionsOf d).seed = some 10488984491064025644)) = true := by decide +kernel
  obtain ⟨l, hload, hcalls⟩ := (Option.any_eq_true _ _).mp hrun
  obtain ⟨c, hc, hcalls⟩ := List.any_eq_true.mp hcalls
  obtain ⟨d, hd, hcalls⟩ := List.any_eq_true.mp hcalls
  exact ⟨l, c, d, _, Walk.toOption_eq_some.mp hload, hc, hd, of_decide_eq_true hcalls⟩

end Engine

end ContentLang
