import ContentLang.Proofs.Including.Watch
import ContentLang.Proofs.Paths.Normal

/-!
# The files that are being processed

While a file is processed, the stack holds it above the files that include it. A stack is **sound**
(`ContentLang.SoundStack`) if its files are pairwise different, in normal form, and not too many.

To say that a walk keeps to sound stacks, each step of it is checked
(`ContentLang.Reduce.confined`): where the stack is not sound, or is not the one of the step around
it with at most one file more, something else is done, whatever it be. A walk that starts with a
sound stack does not notice the checks (`ContentLang.Reduce.confined_eq`), so none of its steps
fails them.

What has to be known of a step for that is which reductions it depends on
(`ContentLang.Reduce.step_congr`): those with its own stack, and those with one more file, if the
file is in normal form, is not on the stack, and the stack is not too high. Only the elements of the
file are reduced with one more. What follows the include, in a sequence
(`ContentLang.Reduce.elements_after`) or as its data (`ContentLang.Reduce.call_include_after`),
depends on reductions with the stack of before alone.
-/

namespace ContentLang

open Walk

/-- Whether files may be processed one within another: they are pairwise different, in normal form,
and at most one more than may be included one within another. -/
def SoundStack (maxIncludeDepth : Nat) (files : List String) : Prop :=
  files.Nodup ∧ (∀ file ∈ files, Path.normalize file = file) ∧ files.length ≤ maxIncludeDepth + 1

instance (maxIncludeDepth : Nat) (files : List String) :
    Decidable (SoundStack maxIncludeDepth files) := by
  unfold SoundStack
  infer_instance

/-- A file that is included is put on a sound stack. -/
theorem SoundStack.push {maxIncludeDepth : Nat} {files : List String} {file : String}
    (h : SoundStack maxIncludeDepth files) (hnormal : Path.normalize file = file)
    (hnew : file ∉ files) (hlength : files.length ≤ maxIncludeDepth) :
    SoundStack maxIncludeDepth (files ++ [file]) := by
  obtain ⟨hnodup, hnormals, -⟩ := h
  refine ⟨List.nodup_append.mpr ⟨hnodup, by simp, ?_⟩, ?_, by simpa using hlength⟩
  · rintro f hf g hg rfl
    exact hnew (List.mem_singleton.mp hg ▸ hf)
  · exact List.forall_mem_append.mpr ⟨hnormals, List.forall_mem_singleton.mpr hnormal⟩

/-- The stack of the surroundings, sound in the settings. -/
abbrev Surroundings.Sound (env : Surroundings) : Prop :=
  SoundStack env.settings.maxIncludeDepth env.files

/-- **Whether a step may be carried out within another one**, on whose stack `around` it has at
most one file more: its own stack has to be sound. -/
def Surroundings.Follows (around : List String) (env : Surroundings) : Prop :=
  (env.files = around ∨ env.files ≠ [] ∧ env.files.dropLast = around) ∧ env.Sound

instance (around : List String) (env : Surroundings) : Decidable (env.Follows around) := by
  unfold Surroundings.Follows
  infer_instance

namespace Reduce

/-! ### Walks that are checked -/

/-- Steps that are checked: one that may not be carried out within a stack is something else. -/
def confine (stray : Reducer) (around : List String) (rec : Reducer) : Reducer := fun env =>
  if env.Follows around then rec env else stray env

/-- **The walk with each step checked**, within a stack. -/
def confined (stray : Reducer) : Nat → List String → Reducer
  | 0, around => confine stray around fun _ _ _ => Walk.halt .exhausted
  | n + 1, around => confine stray around fun env => step (confined stray n env.files) env

/-! ### What a step depends on -/

section

variable {rec₁ rec₂ : Reducer} {env : Surroundings} (h : rec₁ env = rec₂ env)
include h

theorem visit_congr : visit env rec₁ = visit env rec₂ := by
  funext node ctx
  rw [visit, visit, h]

theorem evaluator_congr : evaluator env rec₁ = evaluator env rec₂ := by
  rw [evaluator, evaluator, visit_congr h]

theorem reduceParams_congr (ctx : Context) (ps : List Node) :
    reduceParams env rec₁ ctx ps = reduceParams env rec₂ ctx ps := by
  induction ps with
  | nil => rfl
  | cons p ps ih => simp only [reduceParams, visit_congr h, ih]

theorem keepCall_congr (c : Call) (data : Option Node) (ctx : Context) :
    keepCall env rec₁ c data ctx = keepCall env rec₂ c data ctx := by
  simp only [keepCall, reduceCallParams, reduceParams_congr h, visit_congr h]

theorem withTrailing_congr (outcome : Outcome) (data : Option Node) (ctx : Context) :
    withTrailing env rec₁ outcome data ctx = withTrailing env rec₂ outcome data ctx := by
  simp only [withTrailing, visit_congr h]

theorem bindCall_congr (c : Call) (ctx : Context) :
    Reduce.bind env rec₁ c ctx = Reduce.bind env rec₂ c ctx := by
  simp only [Reduce.bind, evaluator_congr h, visit_congr h]

theorem callNamed_congr (c : Call) (data : Option Node) (ctx : Context) :
    callNamed env rec₁ c data ctx = callNamed env rec₂ c data ctx := by
  simp only [callNamed, callFunction, reduceCallParams, reduceParams_congr h, evaluator_congr h,
    keepCall_congr h, withTrailing_congr h]

theorem conditional_congr (c : Call) (data : Option Node) (ctx : Context) :
    conditional env rec₁ c data ctx = conditional env rec₂ c data ctx := by
  simp only [conditional, evaluator_congr h, keepCall_congr h, visit_congr h]

theorem element_congr (ctx : Context) (n : Node) :
    element env rec₁ ctx n = element env rec₂ ctx n := by
  induction n generalizing ctx with
  | statement f ps o data _ ih =>
    simp only [element_statement, elementAnd, plainElement, bindCall_congr h, visit_congr h, h, ih]
  | _ => simp only [element, plainElement, bindCall_congr h, visit_congr h]

theorem elements_congr (ctx : Context) (ns : List Node) :
    elements env rec₁ ctx ns = elements env rec₂ ctx ns := by
  induction ns generalizing ctx with
  | nil => rfl
  | cons n ns ih => simp only [elements, element_congr h, ih]

theorem entries_congr (ctx : Context) (es : List (Token × Node)) :
    entries env rec₁ ctx es = entries env rec₂ ctx es := by
  induction es with
  | nil => rfl
  | cons e es ih => simp only [entries, visit_congr h, ih]

theorem overrides_congr (c : Call) (ctx : Context) (params : List Node) :
    overrides env rec₁ c ctx params = overrides env rec₂ c ctx params := by
  cases params with
  | nil => rfl
  | cons param others => simp only [overrides, visit_congr h, keepCall_congr h]

omit h in
/-- A file is included only if it is not on the stack and the stack is not too high. -/
theorem includeFile_congr {file : String}
    (hfile : file ∉ env.files → env.files.length ≤ env.settings.maxIncludeDepth →
      rec₁ (env.within file) = rec₂ (env.within file)) (c : Call) (ctx : Context) :
    includeFile env rec₁ c file ctx = includeFile env rec₂ c file ctx := by
  unfold includeFile
  split
  next => rfl
  next hnew =>
    split
    next => rfl
    next hlength =>
      have hwithin := hfile (by simpa using hnew) (Nat.le_of_not_lt hlength)
      simp only [includeText, elements_congr hwithin]

variable (hfiles : ∀ file, Path.normalize file = file → file ∉ env.files →
  env.files.length ≤ env.settings.maxIncludeDepth → rec₁ (env.within file) = rec₂ (env.within file))
include hfiles

theorem includeCall_congr (c : Call) (ctx : Context) :
    includeCall env rec₁ c ctx = includeCall env rec₂ c ctx := by
  have hfile : ∀ path ctx, includeFile env rec₁ c (Path.resolve c.origin.location.file path) ctx =
      includeFile env rec₂ c (Path.resolve c.origin.location.file path) ctx := fun path =>
    includeFile_congr (hfiles _ (Path.normalize_resolve _ path)) c
  simp only [includeCall, evaluator_congr h, keepCall_congr h, overrides_congr h, hfile]

theorem call_congr (c : Call) (data : Option Node) (ctx : Context) :
    call env rec₁ c data ctx = call env rec₂ c data ctx := by
  simp only [call, includeCall_congr h hfiles, withTrailing_congr h, conditional_congr h,
    bindCall_congr h, visit_congr h, callNamed_congr h]

/-- **What a step depends on**: reductions with its own stack, and with one more file that may be
included. -/
theorem step_congr : step rec₁ env = step rec₂ env := by
  funext node ctx
  cases node with
  | token t => rfl
  | array is o => simp only [step, elements_congr h]
  | block es o => simp only [step, entries_congr h]
  | call f ps o => exact call_congr h hfiles ⟨f, ps, o⟩ none ctx
  | statement f ps o data => exact call_congr h hfiles ⟨f, ps, o⟩ (some data) ctx

end

/-! ### What follows an include

Once an element is reduced, the stack is what it was before. So what follows may be reduced `after`
it in any way that is the same with this stack, and differs at will with all others. -/

section

variable {rec after : Reducer} {env : Surroundings} (h : after env = rec env)
include h

/-- **The elements that follow an element are reduced with the stack of before**, whatever was
included by it. -/
theorem elements_after (ctx : Context) (n : Node) (ns : List Node) :
    elements env rec ctx (n :: ns) = element env rec ctx n >>= fun
      | (none, _) => Pure.pure none
      | (some items, ctx) =>
        elements env after ctx ns >>= fun more => Pure.pure (more.map (items ++ ·)) := by
  simp only [elements_congr h]
  rfl

/-- The data after an include in a sequence is its next element. -/
theorem element_include_after (ctx : Context) (ps : List Node) (o : Origin) (data : Node) :
    element env rec ctx (.statement includeName ps o data) =
      elementAnd env rec ctx (.call includeName ps o) (element env after ctx data) := by
  have htakes : takesNoData env includeName = true := by simp [takesNoData]
  rw [element_statement, if_neg (by decide), if_pos htakes, if_neg (by simp), element_congr h]

/-- So is the data after an include anywhere else. -/
theorem call_include_after (ps : List Node) (o : Origin) (data : Node) (ctx : Context) :
    call env rec ⟨includeName, ps, o⟩ (some data) ctx =
      includeCall env rec ⟨includeName, ps, o⟩ ctx >>= fun outcome =>
        withTrailing env after outcome (some data) ctx := by
  simp only [call, if_true, withTrailing_congr h]

end

/-- **No step fails the check** in a walk that starts with a sound stack. -/
theorem confined_eq (stray : Reducer) (limit : Nat) {around : List String} {env : Surroundings}
    (henv : env.Follows around) : confined stray limit around env = inContext limit env := by
  induction limit generalizing around env with
  | zero => rw [confined, confine, if_pos henv, inContext]
  | succ limit ih =>
    rw [confined, confine, if_pos henv, inContext]
    refine step_congr (ih ⟨.inl rfl, henv.2⟩) fun file hnormal hnew hlength => ih ?_
    exact ⟨.inr ⟨by simp [Surroundings.within], by simp [Surroundings.within]⟩,
      henv.2.push hnormal hnew hlength⟩

end Reduce

/-! ### Questions for files -/

/-- Whether each file that a walk asks for is one of those given. -/
def Walk.AsksOnly {α : Type} (F : String → Prop) (m : Walk α) : Prop :=
  ∀ s file, Note.asked (.file file) ∈ (m s).notes → F file

/-- Whether a function asks for no files beside those that the reductions it carries out ask
for. -/
def Function.AsksNoFile (f : Function) : Prop :=
  ∀ (F : String → Prop) (ev : Evaluator), (∀ n ctx, AsksOnly F (ev.reduce n ctx)) →
    ∀ call ctx, AsksOnly F (f.reduce ev call ctx)

/-- The notes that ask for no files but those given. -/
def Note.AsksOnly (F : String → Prop) (note : Note) : Prop :=
  ∀ file, note = .asked (.file file) → F file

theorem Note.asksOnly_of_ordinary {F : String → Prop} {note : Note} (h : note.isOrdinary = true) :
    note.AsksOnly F := by
  rintro file rfl
  exact absurd h (by simp [Note.isOrdinary])

/-- Where nothing is asked of nodes, to abide by a condition on questions is to leave no others. -/
theorem Walk.abides_asksOnly {F : String → Prop} {N : Node → Prop} (hN : ∀ n, N n)
    {m : Walk Outcome} :
    Abides (Note.AsksOnly F) (Outcome.All N) m ↔ AsksOnly F m := by
  constructor
  · intro h s file hnote
    exact (h s fun _ _ => trivial).notes _ hnote file rfl
  · refine fun h s _ => ⟨fun h => h.elim, ?_, fun h => h.elim, fun _ _ n _ => hN n⟩
    rintro note hnote file rfl
    exact h s file hnote

/-- **The functions of the language ask for no files.** -/
theorem Function.asksNoFile_builtin : ∀ e ∈ Registry.builtin, e.2.AsksNoFile := by
  intro e he F ev hev call ctx
  have hlaws : Bylaws (Note.AsksOnly F) fun _ => True :=
    ⟨fun _ => Note.asksOnly_of_ordinary, ⟨by simp, by simp, by simp⟩, fun _ _ => trivial⟩
  rw [← abides_asksOnly fun _ => trivial]
  refine Function.abiding_builtin hlaws e he ev (fun n ctx _ _ => ?_) call ctx (by simp)
    fun _ _ => trivial
  exact (abides_asksOnly fun _ => trivial).mpr (hev n ctx)

/-- The watch for questions: each file that is asked for is in normal form and not on the
stack. -/
def Watch.questions (host : Host) (settings : Settings) : Watch where
  host := host
  settings := settings
  written := False
  targets file := Path.normalize file = file
  nestings _ := True
  leaves files := Note.AsksOnly fun file => Path.normalize file = file ∧ file ∉ files
  ordinary := Note.asksOnly_of_ordinary
  within h file hnote := by
    obtain ⟨hnormal, hnew⟩ := h file hnote
    exact ⟨hnormal, fun hmem => hnew (List.mem_append_left _ hmem)⟩
  resolved _ := Path.normalize_resolve
  opens _ _ _ _ := trivial
  asks := by
    rintro files file - hnormal hnew _ ⟨⟩
    exact ⟨hnormal, hnew⟩
  reads _ _ _ _ _ _ _ h := h.elim
  refuses _ _ _ _ _ h := nomatch h

/-- **Each file that is asked for is in normal form and not on the stack.** -/
theorem Reduce.asksOnly_inContext {env : Surroundings}
    (hfunctions : ∀ e ∈ env.registry, e.2.AsksNoFile) (limit : Nat) (node : Node) (ctx : Context) :
    AsksOnly (fun file => Path.normalize file = file ∧ file ∉ env.files)
      (inContext limit env node ctx) := by
  have hopen : ∀ n, (Watch.questions env.host env.settings).Fair n := Watch.fair_of_open id
  have hfits : (Watch.questions env.host env.settings).Fits env := by
    refine ⟨rfl, rfl, trivial, fun h => h.elim, fun e he files ev hev call ctx _ _ => ?_⟩
    refine (abides_asksOnly hopen).mpr (hfunctions e he _ ev (fun n ctx => ?_) call ctx)
    exact (abides_asksOnly hopen).mp (hev n ctx (hopen n) fun e _ => hopen e.2)
  have hminds := (Watch.questions env.host env.settings).minds_inContext limit
  exact (abides_asksOnly hopen).mp (hminds.node hfits (hopen node) fun e _ => hopen e.2)

end ContentLang
