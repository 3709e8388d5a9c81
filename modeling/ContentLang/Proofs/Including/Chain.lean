import ContentLang.Proofs.Including.Stack
import ContentLang.Proofs.Loading.Ready
import ContentLang.Proofs.Settled.Still
import Mathlib.Data.List.Perm.Subperm

/-!
# Chains of includes

In a chain of files each one includes the next one, and no other (`ContentLang.IncludeChain`).
When the first one is loaded, the stack that a file is processed on holds it and those before it,
so one include after the other is carried out until the stack is too high or the chain is at its
end. Whether files are found to be included too deep is settled by which of these comes first.

* That nothing is reported in a chain that is short enough holds of any files that include only
  one another, if they are few (`ContentLang.Watch.among`): the stack never holds a file twice, so
  it is not too high where there is still a file that is not on it.
* That something is reported in a longer one needs includes that are carried out whatever else
  there is in the file (`ContentLang.Node.Includes`). Whatever comes before one of them is done
  without being pending, as nothing is pending while content is loaded.
-/

namespace ContentLang

open Walk

/-! ### Files that include one another -/

/-- Whether each include in the text of a file is written out, and leads to one of the files
given. -/
def LeadsOnly (settings : Settings) (targets : String → Prop) (file text : String) : Prop :=
  ∀ n ∈ (parseText text file settings.uniqueId).1, ∀ c ∈ n.calls, c.function = includeName →
    c.Leads targets

instance (settings : Settings) (targets : String → Prop) [DecidablePred targets]
    (file text : String) : Decidable (LeadsOnly settings targets file text) :=
  inferInstanceAs (Decidable (∀ n ∈ (parseText text file settings.uniqueId).1, ∀ c ∈ n.calls,
    c.function = includeName → c.Leads targets))

/-- Different files of those that there are, and one more of them. -/
theorem nodup_more {files others : List String} {root file : String}
    (hfiles : files.Nodup ∧ files ⊆ root :: others) (hfile : file ∈ others) (hnew : file ∉ files) :
    (files ++ [file]).Nodup ∧ files ++ [file] ⊆ root :: others := by
  obtain ⟨hnodup, hsub⟩ := hfiles
  refine ⟨?_, ?_⟩
  · exact List.nodup_append.mpr ⟨hnodup, by simp, fun f hf g hg h =>
      hnew (List.mem_singleton.mp hg ▸ h ▸ hf)⟩
  · exact List.append_subset.mpr ⟨hsub, by simp [hfile]⟩

/-- There are more of them than those that another one can be added to. -/
theorem length_le_of_more {files others : List String} {root file : String}
    (hfiles : files.Nodup ∧ files ⊆ root :: others) (hfile : file ∈ others) (hnew : file ∉ files) :
    files.length ≤ others.length := by
  obtain ⟨hnodup, hsub⟩ := nodup_more hfiles hfile hnew
  have hlength := (List.subperm_of_subset hnodup hsub).length_le
  simp only [List.length_append, List.length_cons, List.length_nil] at hlength
  omega

/-- The watch for a few files that include only one another: from `root` on, none of them is
included too deep. -/
def Watch.among (host : Host) (settings : Settings) (root : String) (others : List String)
    (hreads : ∀ file ∈ others, ∀ text, host.fileText file = some text →
      LeadsOnly settings (· ∈ others) file text)
    (hfew : others.length ≤ settings.maxIncludeDepth) : Watch where
  host := host
  settings := settings
  written := True
  targets file := file ∈ others
  nestings files := files.Nodup ∧ files ⊆ root :: others
  leaves _ note := ∀ d, note = .report d → d.problem.isTooDeep = false
  ordinary h d hd := by
    subst hd
    simpa [Note.isOrdinary] using h
  within h := h
  resolved h := absurd trivial h
  opens hfiles hfile hnew _ := nodup_more hfiles hfile hnew
  asks _ _ _ _ h := Note.noConfusion h
  reads hfile htext n hn c hc hinclude _ := hreads _ hfile _ htext n hn c hc hinclude
  refuses hfiles hfile hnew hdeep :=
    absurd hdeep (Nat.not_lt.mpr (Nat.le_trans (length_le_of_more hfiles hfile hnew) hfew))

namespace Walk

variable {α β : Type} {P : Note → Prop} {m : Walk α} {f : α → Walk β}

/-! ### Notes that are left in any case -/

/-- **Whether each run of a walk that comes to an answer leaves a note with `P`.** -/
def Tells (P : Note → Prop) (m : Walk α) : Prop :=
  ∀ s a, (m s).answer = .ok a → ∃ note ∈ (m s).notes, P note

theorem tells_bind (h : Tells P m) : Tells P (m >>= f) := by
  intro s b hb
  obtain ⟨a, ha, -, hnotes⟩ := answer_of_bind hb
  obtain ⟨note, hnote, hP⟩ := h s a ha
  exact ⟨note, hnotes ▸ List.mem_append_left _ hnote, hP⟩

theorem tells_after {Q : α → Prop} (hm : Reduce.Gives Q m) (hf : ∀ a, Q a → Tells P (f a)) :
    Tells P (m >>= f) := by
  intro s b hb
  obtain ⟨a, ha, hfb, hnotes⟩ := answer_of_bind hb
  obtain ⟨note, hnote, hP⟩ := hf a (Reduce.gives_answer hm ha) _ b hfb
  exact ⟨note, hnotes ▸ List.mem_append_right _ hnote, hP⟩

/-- What comes after a walk of whose answer nothing matters. -/
theorem tells_next (hf : ∀ a, Tells P (f a)) : Tells P (m >>= f) :=
  tells_after (Reduce.gives_any m) fun a _ => hf a

theorem tells_leave {notes : List Note} (h : ∃ note ∈ notes, P note) :
    Tells P (Walk.leave notes) := fun _ _ _ => h

theorem tells_ite {c : Prop} [Decidable c] {m' : Walk α} (h : c → Tells P m)
    (h' : ¬ c → Tells P m') : Tells P (if c then m else m') := by
  split
  next hc => exact h hc
  next hc => exact h' hc

end Walk

/-! ### Includes that are carried out -/

/-- **Whether an include of a file stands in a node** where it is carried out while content is
loaded, whatever else there is: nothing depends on a condition there, and its path is written
out. -/
inductive Node.Includes (file : String) : Node → Prop
  | path {ps : List Node} {o : Origin} {t : Token}
    (hps : ps = [.token t] ∨ ∃ es o', ps = [.token t, .block es o'])
    (hfile : Path.resolve o.location.file t.value = file) : Includes file (.call includeName ps o)
  | param {f : String} {ps : List Node} {o : Origin} {p : Node} (hf : f ∉ constructs)
    (hp : p ∈ ps) (h : Includes file p) : Includes file (.call f ps o)
  | bound {o : Origin} {t : Token} {value : Node} (h : Includes file value) :
    Includes file (.call setName [.token t, value] o)
  | before {f : String} {ps : List Node} {o : Origin} {data : Node}
    (h : Includes file (.call f ps o)) : Includes file (.statement f ps o data)
  | data {f : String} {ps : List Node} {o : Origin} {data : Node} (hf : f ≠ ifName)
    (h : Includes file data) : Includes file (.statement f ps o data)
  | entry {es : List (Token × Node)} {o : Origin} {e : Token × Node} (he : e ∈ es)
    (h : Includes file e.2) : Includes file (.block es o)
  | member {is : List Node} {o : Origin} {i : Node} (hi : i ∈ is) (h : Includes file i) :
    Includes file (.array is o)

/-- Whether a node is an include of a file whose path is written out, and nothing else. -/
def Node.isInclude (file : String) : Node → Bool
  | .call f [.token t] o => f == includeName && Path.resolve o.location.file t.value == file
  | _ => false

theorem Node.includes_of_isInclude {file : String} {n : Node} (h : n.isInclude file = true) :
    n.Includes file := by
  unfold Node.isInclude at h
  split at h
  next f t o =>
    obtain ⟨hf, hfile⟩ := Bool.and_eq_true_iff.mp h
    obtain rfl := eq_of_beq hf
    exact .path (.inl rfl) (eq_of_beq hfile)
  next => exact absurd h Bool.false_ne_true

theorem Alike.exists_mem {α : Type} [Bare α] {as bs : List α} (h : Alike as bs) {a : α}
    (ha : a ∈ as) : ∃ b ∈ bs, Alike a b := by
  induction as generalizing bs with
  | nil => exact absurd ha (by simp)
  | cons a' as ih =>
    obtain ⟨b, bs, rfl, hb, hbs⟩ := alike_cons_iff.mp h
    rcases List.mem_cons.mp ha with rfl | ha
    · exact ⟨b, by simp, hb⟩
    · obtain ⟨b', hb', hab⟩ := ih hbs ha
      exact ⟨b', List.mem_cons_of_mem _ hb', hab⟩

/-- Where a node stands makes no difference to what is included in it. -/
theorem Alike.includes {file : String} {m n : Node} (h : Alike m n) (hm : m.Includes file) :
    n.Includes file := by
  induction hm generalizing n with
  | @path ps o t hps hfile =>
    obtain ⟨qs, o', rfl, hqs, ho⟩ := Alike.call h
    have hplace : o.location.file = o'.location.file := congrArg (·.location.file) ho
    rcases hps with rfl | ⟨es, o'', rfl⟩
    · obtain ⟨q, qs, rfl, hq, hnil⟩ := alike_cons_iff.mp hqs
      obtain ⟨u, rfl, hu⟩ := Alike.token hq
      obtain rfl := alike_nil_iff.mp hnil
      exact .path (.inl rfl) (hplace ▸ hu.value ▸ hfile)
    · obtain ⟨q, rest, rfl, hq, hrest⟩ := alike_cons_iff.mp hqs
      obtain ⟨u, rfl, hu⟩ := Alike.token hq
      obtain ⟨r, rest, rfl, hr, hnil⟩ := alike_cons_iff.mp hrest
      obtain ⟨fs, o₃, rfl, -⟩ := Alike.block hr
      obtain rfl := alike_nil_iff.mp hnil
      exact .path (.inr ⟨fs, o₃, rfl⟩) (hplace ▸ hu.value ▸ hfile)
  | param hf hp _ ih =>
    obtain ⟨qs, o', rfl, hqs, -⟩ := Alike.call h
    obtain ⟨q, hq, hpq⟩ := hqs.exists_mem hp
    exact .param hf hq (ih hpq)
  | bound _ ih =>
    obtain ⟨qs, o', rfl, hqs, -⟩ := Alike.call h
    obtain ⟨q, rest, rfl, hq, hrest⟩ := alike_cons_iff.mp hqs
    obtain ⟨u, rfl, -⟩ := Alike.token hq
    obtain ⟨r, rest, rfl, hr, hnil⟩ := alike_cons_iff.mp hrest
    obtain rfl := alike_nil_iff.mp hnil
    exact .bound (ih hr)
  | before _ ih =>
    obtain ⟨qs, o', data', rfl, hqs, ho, -⟩ := Alike.statement h
    exact .before (ih (by simp [Alike, show bare _ = bare qs from hqs, ho]))
  | data hf _ ih =>
    obtain ⟨qs, o', data', rfl, -, -, hdata⟩ := Alike.statement h
    exact .data hf (ih hdata)
  | entry he _ ih =>
    obtain ⟨fs, o', rfl, hfs⟩ := Alike.block h
    obtain ⟨e', he', hee'⟩ := hfs.exists_mem he
    exact .entry he' (ih (congrArg Prod.snd hee'))
  | member hi _ ih =>
    obtain ⟨js, o', rfl, hjs⟩ := Alike.array h
    obtain ⟨j, hj, hij⟩ := hjs.exists_mem hi
    exact .member hj (ih hij)

/-- **A chain of files** from `names 0` to `names k`, beside a host: they are different files, each
but the last includes the next one, and no include leads anywhere else. -/
structure IncludeChain (host : Host) (settings : Settings) (k : Nat) (names texts : Nat → String) :
    Prop where
  distinct : ∀ i ≤ k, ∀ j ≤ k, Path.normalize (names i) = Path.normalize (names j) → i = j
  there : ∀ i < k, host.fileText (names (i + 1)) = some (texts (i + 1))
  next : ∀ i < k, ∃ n ∈ (parseText (texts i) (names i) settings.uniqueId).1,
    n.Includes (names (i + 1))
  only : ∀ i ≤ k, LeadsOnly settings (fun file => i < k ∧ file = names (i + 1)) (names i) (texts i)

/-- The report that files are included too deep. -/
def Note.TooDeep (limit : Nat) (note : Note) : Prop :=
  ∃ d, note = .report d ∧ d.problem = .includeDepth limit

namespace IncludeChain

variable {host : Host} {settings : Settings} {k : Nat} {names texts : Nat → String}

/-- Whether the surroundings are those of the loading pass at the file `names i` of a chain, which
is not the last one and not too deep. -/
structure At (host : Host) (settings : Settings) (k : Nat) (names : Nat → String) (i : Nat)
    (env : Surroundings) : Prop where
  before : i < k
  within : i ≤ settings.maxIncludeDepth
  late : env.late = false
  host : env.host = host
  settings : env.settings = settings
  files : env.files = (List.range (i + 1)).map fun j => Path.normalize (names j)

open Reduce

/-! ### What is written out -/

theorem gives_token (limit : Nat) (env : Surroundings) (t : Token) (ctx : Context) :
    Gives (fun o => ∃ u, o = .value (.token u) ∧ u.value = t.value)
      (inContext limit env (.token t) ctx) := by
  cases limit with
  | zero => exact meets_halt _ id
  | succ limit => exact meets_pure ⟨_, rfl, rfl⟩

theorem gives_requireToken (limit : Nat) (env : Surroundings) (t : Token) (ctx : Context) :
    Gives (fun r => ∃ u, r = .ok u ∧ u.value = t.value)
      ((evaluator env (inContext limit)).requireToken (.token t) ctx) := by
  refine meets_bind (gives_token limit env t _) fun o ho => ?_
  obtain ⟨u, rfl, hu⟩ := ho
  exact meets_pure ⟨u, rfl, hu⟩

theorem gives_block (limit : Nat) {env : Surroundings} (henv : env.late = false)
    (es : List (Token × Node)) (o : Origin) (ctx : Context) :
    Gives (fun out => ∃ fs o', out = .value (.block fs o'))
      (inContext limit env (.block es o) ctx) := by
  cases limit with
  | zero => exact meets_halt _ id
  | succ limit =>
    refine meets_bind (ready_entries (ready_inContext limit) henv es) fun r hr => ?_
    obtain ⟨fs, rfl, -⟩ := hr
    exact meets_pure ⟨fs, _, rfl⟩

section

variable {P : Note → Prop} {limit i : Nat} {env : Surroundings}
  (hrec : ∀ {node : Node} (ctx : Context), node.Includes (names (i + 1)) →
    Tells P (inContext limit env node ctx)) {ctx : Context}
include hrec

/-! ### Parts -/

theorem tells_reduceParams (henv : env.late = false) {p : Node} {ps : List Node} (hp : p ∈ ps)
    (h : p.Includes (names (i + 1))) : Tells P (reduceParams env (inContext limit) ctx ps) := by
  induction ps with
  | nil => exact absurd hp (by simp)
  | cons q ps ih =>
    rcases List.mem_cons.mp hp with rfl | hp
    · exact tells_bind (hrec _ h)
    · refine tells_after (ready_param (ready_inContext limit) henv q) fun o ho => ?_
      obtain ⟨r, hr, -⟩ := ho
      simp only [hr]
      exact tells_bind (ih hp)

theorem tells_reduceCallParams (henv : env.late = false) {c : Call} {p : Node} (hp : p ∈ c.params)
    (h : p.Includes (names (i + 1))) :
    Tells P (reduceCallParams env (inContext limit) c ctx) :=
  tells_bind (tells_reduceParams hrec henv hp h)

/-- A name that is written out is bound to what its value comes to. -/
theorem tells_bindCall {ps : List Node} {o : Origin}
    (h : (Node.call setName ps o).Includes (names (i + 1))) :
    Tells P (Reduce.bind env (inContext limit) ⟨setName, ps, o⟩ ctx) := by
  generalize hf : setName = f at h
  cases h with
  | path => exact absurd hf (by decide)
  | param hf' => exact absurd (hf ▸ hf') (by decide)
  | bound h =>
    refine tells_after (gives_requireToken limit env _ ctx) fun r hr => ?_
    obtain ⟨u, rfl, -⟩ := hr
    exact tells_bind (hrec _ h)

theorem tells_callNamed (henv : env.late = false) {f : String} {ps : List Node} (o : Origin)
    (data : Option Node) {p : Node} (hp : p ∈ ps) (h : p.Includes (names (i + 1))) :
    Tells P (callNamed env (inContext limit) ⟨f, ps, o⟩ data ctx) := by
  have hparams : Tells P (reduceCallParams env (inContext limit) ⟨f, ps, o⟩ ctx) :=
    tells_reduceCallParams hrec henv (c := ⟨f, ps, o⟩) hp h
  unfold callNamed
  cases Registry.get? env.registry f with
  | none => exact tells_next fun _ => tells_bind hparams
  | some function =>
    refine tells_bind (tells_ite (fun _ => ?_) fun _ => tells_bind hparams)
    simp only [henv, Bool.false_eq_true, if_false]
    exact tells_next fun _ => tells_bind hparams

/-- Data is reduced unless it depends on a condition. -/
theorem tells_callData (henv : env.late = false) {f : String} (ps : List Node) (o : Origin)
    {data : Node} (hf : f ≠ ifName) (h : data.Includes (names (i + 1))) :
    Tells P (call env (inContext limit) ⟨f, ps, o⟩ (some data) ctx) := by
  have htrailing : ∀ out, Tells P (withTrailing env (inContext limit) out (some data) ctx) :=
    fun out => tells_bind (hrec _ h)
  refine tells_ite (fun _ => tells_next htrailing) fun _ => ?_
  rw [if_neg hf]
  refine tells_ite (fun _ => tells_next fun _ => hrec _ h) fun _ => ?_
  unfold callNamed
  cases Registry.get? env.registry f with
  | none =>
    refine tells_next fun _ =>
      tells_after (ready_reduceCallParams (ready_inContext limit) henv ⟨f, ps, o⟩) fun r hr => ?_
    obtain ⟨processed, rfl⟩ := hr
    exact tells_bind (hrec _ h)
  | some function =>
    refine tells_next fun out => ?_
    simp only [Option.isSome_some, if_true]
    exact tells_next fun _ => htrailing out

theorem tells_plainElement {n : Node} (h : n.Includes (names (i + 1))) :
    Tells P (plainElement env (inContext limit) ctx n) :=
  tells_bind (hrec _ h)

theorem tells_element (henv : env.late = false) {n : Node} (h : n.Includes (names (i + 1))) :
    Tells P (element env (inContext limit) ctx n) := by
  induction n generalizing ctx with
  | token t => exact tells_plainElement hrec h
  | block es o => exact tells_plainElement hrec h
  | array is o => exact tells_plainElement hrec h
  | call f ps o =>
    rw [element]
    refine tells_ite (fun hf => ?_) fun _ => tells_plainElement hrec h
    subst hf
    exact tells_bind (tells_bindCall hrec h)
  | statement f ps o data _ ihdata =>
    have hparts : (Node.call f ps o).Includes (names (i + 1)) ∨ data.Includes (names (i + 1)) := by
      cases h with
      | before h => exact .inl h
      | data _ h => exact .inr h
    have htail : Tells P (elementAnd env (inContext limit) ctx (.call f ps o)
        (element env (inContext limit) ctx data)) := by
      rcases hparts with hcall | hdata
      · exact tells_bind (hrec _ hcall)
      · refine tells_after (ready_inContext limit env henv (.call f ps o) ctx) fun o ho => ?_
        rw [orKept_of_ready ho]
        obtain ⟨items, hitems⟩ := Outcome.toItems?_of_ready ho
        simp only [Walk.pure_bind, hitems]
        exact tells_bind (ihdata hdata)
    rw [element_statement]
    refine tells_ite (fun hf => ?_) fun _ => tells_ite (fun _ => ?_) fun _ =>
      tells_plainElement hrec h
    · subst hf
      rcases hparts with hcall | hdata
      · exact tells_bind (tells_bindCall hrec hcall)
      · exact tells_next fun _ => ihdata hdata
    · exact tells_ite (fun _ => tells_next fun _ => htail) fun _ => htail

theorem tells_elements (henv : env.late = false) {n : Node} {ns : List Node} (hn : n ∈ ns)
    (h : n.Includes (names (i + 1))) : Tells P (elements env (inContext limit) ctx ns) := by
  induction ns generalizing ctx with
  | nil => exact absurd hn (by simp)
  | cons m ns ih =>
    rcases List.mem_cons.mp hn with rfl | hn
    · exact tells_bind (tells_element hrec henv h)
    · refine tells_after (ready_element (ready_inContext limit) henv m) fun r hr => ?_
      obtain ⟨items, ctx'⟩ := r
      obtain ⟨l, hl⟩ := hr
      obtain rfl : items = some l := hl
      exact tells_bind (ih hn)

theorem tells_entries (henv : env.late = false) {e : Token × Node} {es : List (Token × Node)}
    (he : e ∈ es) (h : e.2.Includes (names (i + 1))) :
    Tells P (entries env (inContext limit) ctx es) := by
  induction es with
  | nil => exact absurd he (by simp)
  | cons e' es ih =>
    obtain ⟨k, n⟩ := e'
    rcases List.mem_cons.mp he with rfl | he
    · exact tells_bind (hrec _ h)
    · refine tells_after (ready_visit (ready_inContext limit) henv n) fun o ho => ?_
      rw [orKept_of_ready ho, Walk.pure_bind]
      cases o with
      | value m => exact tells_bind (ih he)
      | empty => exact ih he
      | splice items => exact tells_bind (ih he)
      | pending => exact absurd rfl ho

end

/-! ### From one file to the next -/

section

variable (hchain : IncludeChain host settings k names texts)
  (hlong : settings.maxIncludeDepth < k) {limit : Nat}
  (hrec : ∀ {i : Nat} {env : Surroundings}, At host settings k names i env →
    ∀ {node : Node} (ctx : Context), node.Includes (names (i + 1)) →
      Tells (Note.TooDeep settings.maxIncludeDepth) (inContext limit env node ctx))
  {i : Nat} {env : Surroundings} (henv : At host settings k names i env) {ctx : Context}
include hchain hlong hrec henv

/-- **The next file of a chain is one too many, or in it the one after it is included.** -/
theorem tells_includeFile (c : Call) (hnormal : Path.normalize (names (i + 1)) = names (i + 1)) :
    Tells (Note.TooDeep settings.maxIncludeDepth)
      (includeFile env (inContext limit) c (names (i + 1)) ctx) := by
  have hnew : names (i + 1) ∉ env.files := by
    rw [henv.files]
    intro hmem
    obtain ⟨j, hj, hsame⟩ := List.mem_map.mp hmem
    have hj := List.mem_range.mp hj
    have := hchain.distinct j (by have := henv.before; omega) (i + 1) henv.before
      (hsame.trans hnormal.symm)
    omega
  have hlength : env.files.length = i + 1 := by simp [henv.files]
  rw [includeFile_eq, if_neg (by simpa using hnew), henv.settings]
  refine tells_ite (fun _ => ?_) fun hmore => ?_
  · exact tells_bind (tells_leave ⟨_, List.mem_singleton_self _, _, rfl, rfl⟩)
  · have hmore : i + 1 ≤ settings.maxIncludeDepth := hlength ▸ Nat.le_of_not_lt hmore
    have hnext : i + 1 < k := Nat.lt_of_le_of_lt hmore hlong
    have hwithin : At host settings k names (i + 1) (env.within (names (i + 1))) := by
      refine ⟨hnext, hmore, henv.late, henv.host, henv.settings, ?_⟩
      rw [List.range_succ, List.map_append, List.map_singleton, hnormal, ← henv.files]
      rfl
    have hfile : Gives (· = some (texts (i + 1))) (Walk.askFile env.host (names (i + 1))) := by
      refine fun _ _ => ⟨fun h => h.elim, fun _ _ => trivial, fun h => h.elim, fun r hr => ?_⟩
      rw [← hchain.there i henv.before, ← henv.host]
      exact (Except.ok.inj hr).symm
    refine tells_after hfile fun text htext => ?_
    subst htext
    obtain ⟨n, hn, hincludes⟩ := hchain.next (i + 1) hnext
    have hmarked := (Node.alike_markUids (c.origin.uid ++ ">")
      (parseText (texts (i + 1)) (names (i + 1)) settings.uniqueId).1).exists_mem hn
    obtain ⟨m, hm, hnm⟩ := hmarked
    refine tells_next fun _ => ?_
    rw [henv.settings]
    exact tells_next fun _ => tells_bind
      (tells_elements (hrec hwithin) henv.late hm (hnm.includes hincludes))

theorem tells_includeCall {ps : List Node} {o : Origin} {t : Token}
    (hps : ps = [.token t] ∨ ∃ es o', ps = [.token t, .block es o'])
    (hfile : Path.resolve o.location.file t.value = names (i + 1)) :
    Tells (Note.TooDeep settings.maxIncludeDepth)
      (includeCall env (inContext limit) ⟨includeName, ps, o⟩ ctx) := by
  have hincluded : ∀ u : Token, u.value = t.value → ∀ ctx,
      Tells (Note.TooDeep settings.maxIncludeDepth)
        (includeFile env (inContext limit) ⟨includeName, ps, o⟩
          (Path.resolve o.location.file u.value) ctx) := by
    intro u hu ctx
    rw [hu, hfile]
    exact tells_includeFile hchain hlong hrec henv _ (hfile ▸ Path.normalize_resolve _ _)
  rcases hps with rfl | ⟨es, o', rfl⟩
  · refine tells_after (gives_requireToken limit env t ctx) fun r hr => ?_
    obtain ⟨u, rfl, hu⟩ := hr
    exact hincluded u hu _
  · refine tells_after (gives_requireToken limit env t ctx) fun r hr => ?_
    obtain ⟨u, rfl, hu⟩ := hr
    have hblock : Gives (fun r => ∃ fs, r = .ok fs) (overrides env (inContext limit)
        ⟨includeName, [.token t, .block es o'], o⟩ ctx [.block es o']) := by
      refine meets_bind (gives_block limit henv.late es o' _) fun out hout => ?_
      obtain ⟨fs, o'', rfl⟩ := hout
      exact meets_pure ⟨fs, rfl⟩
    refine tells_after hblock fun r hr => ?_
    obtain ⟨fs, rfl⟩ := hr
    exact hincluded u hu _

theorem tells_call {f : String} {ps : List Node} {o : Origin} (data : Option Node)
    (h : (Node.call f ps o).Includes (names (i + 1))) :
    Tells (Note.TooDeep settings.maxIncludeDepth)
      (call env (inContext limit) ⟨f, ps, o⟩ data ctx) := by
  cases h with
  | path hps hfile => exact tells_bind (tells_includeCall hchain hlong hrec henv hps hfile)
  | param hf hp h =>
    rw [call_eq_callNamed hf]
    exact tells_callNamed (hrec henv) henv.late o data hp h
  | bound h =>
    have hset : ¬ setName = includeName ∧ ¬ setName = ifName := by decide
    simp only [call, hset.1, hset.2, if_false, if_true]
    exact tells_bind (tells_bindCall (hrec henv) (.bound h))

/-- One step tells, if the steps within do. -/
theorem tells_step {node : Node} (h : node.Includes (names (i + 1))) :
    Tells (Note.TooDeep settings.maxIncludeDepth) (step (inContext limit) env node ctx) := by
  cases node with
  | token t => cases h
  | array is o =>
    cases h with
    | member hi h => exact tells_bind (tells_elements (hrec henv) henv.late hi h)
  | block es o =>
    cases h with
    | entry he h => exact tells_bind (tells_entries (hrec henv) henv.late he h)
  | call f ps o => exact tells_call hchain hlong hrec henv none h
  | statement f ps o data =>
    cases h with
    | before h => exact tells_call hchain hlong hrec henv (some data) h
    | data hf h => exact tells_callData (hrec henv) henv.late ps o hf h

end

/-- **In a chain that is too long**, a file that is included too deep is reported. -/
theorem tells_inContext (hchain : IncludeChain host settings k names texts)
    (hlong : settings.maxIncludeDepth < k) (limit : Nat) {i : Nat} {env : Surroundings}
    (henv : At host settings k names i env) {node : Node} (ctx : Context)
    (h : node.Includes (names (i + 1))) :
    Tells (Note.TooDeep settings.maxIncludeDepth) (inContext limit env node ctx) := by
  induction limit generalizing i env node ctx with
  | zero => exact fun s a ha => absurd ha (by simp [inContext, Walk.halt])
  | succ limit ih =>
    exact tells_step hchain hlong ih henv h

end IncludeChain

end ContentLang
