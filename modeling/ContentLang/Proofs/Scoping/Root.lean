import ContentLang.Proofs.Loading.Loaded
import ContentLang.Proofs.Loading.Terminating
import ContentLang.Proofs.Scoping.Agreement

/-!
# Roots of files that only bind and read

A file whose calls are bindings, reads and includes of such files is loaded to the value that its
tree is evaluated to in the empty scope (`ContentLang.Engine.root_evaluated`). So a read gives the
latest value of its name among the bindings made before it, in its own sequence or in those around
it, or else among the overrides that its file is included with; a binding leaves no element behind;
and none is seen outside the array, block, parameter or file that it is made in.

That there is such a root at all is that loading terminates.
-/

namespace ContentLang

open Scoping Walk

namespace Engine

/-- **The value of a tree** as the root of a file, in the empty scope. -/
def rootValue (e : Engine) (file : String) (source : Node) : Value :=
  (result (including e.host e.settings e.settings.maxIncludeDepth [Path.normalize file]) []
    source).single

/-- **Whether an operation loads a file with the given root**: it comes to no file with another one,
under any limit, and to one if walks may be nested deep enough. -/
def LoadsRoot (e : Engine) (operation : Engine → Reply Loaded) (root : Value) : Prop :=
  (∀ limit l, (operation (e.upTo limit)).answer = .ok l → l.root.same root.node = true) ∧
    ∃ n, ∀ limit, n ≤ limit → ∃ l, (operation (e.upTo limit)).answer = .ok l

/-- The loading pass over a tree comes to a node, if walks may be nested deep enough. -/
theorem processed_comes {e : Engine} (hregistry : e.registry = .builtin) (file : String)
    (source : Node) :
    ∃ n, ∀ limit, n ≤ limit →
      ∃ root, ((e.upTo limit).processed file source e.state).answer = .ok root := by
  let env := e.surroundings false file
  have henv : env.Loads := Surroundings.loads_builtin rfl hregistry
  have hempty : Context.Laid env.registry noneShunned .empty := by
    simp [Context.Laid, Context.empty]
  have hnode := Reduce.terminates_files (env.settings.maxIncludeDepth + 1) henv hregistry
    (by omega) source
  obtain ⟨out, n, hn⟩ := Reduce.terminates_visit henv hempty hnode
  refine ⟨n, fun limit hlimit => ⟨(out.toNode? source.origin).getD source, ?_⟩⟩
  have hreduce : (reduce ((e.upTo limit).surroundings false file) source .empty e.state).answer =
      .ok out := hn limit limit hlimit hlimit e.state
  unfold processed
  rw [bind_ok hreduce]
  rfl

/-- A file is processed, if walks may be nested deep enough. -/
theorem process_comes {e : Engine} (hregistry : e.registry = .builtin) (l : Loaded) :
    ∃ n, ∀ limit, n ≤ limit → ∃ l', ((e.upTo limit).process l).answer = .ok l' := by
  obtain ⟨n, hn⟩ := processed_comes hregistry l.file l.source
  refine ⟨n, fun limit hlimit => ?_⟩
  obtain ⟨root, hroot⟩ := hn limit hlimit
  have hanswer : ((e.upTo limit).processed l.file l.source (e.upTo limit).state).answer =
      .ok root := hroot
  simp only [process, carryOut, hanswer, Except.map]
  exact ⟨_, rfl⟩

/-- **The loading pass over a tree comes to its value.** -/
theorem process_evaluated {e : Engine} (hregistry : e.registry = .builtin) {files : String → Bool}
    (hfiles : ∀ f t, files f = true → e.host.fileText f = some t →
      ∀ n ∈ (parseText t f e.settings.uniqueId).1, n.lexical files = true)
    {l : Loaded} (hsource : l.source.lexical files = true) :
    e.LoadsRoot (·.process l) (e.rootValue l.file l.source) := by
  refine ⟨fun limit l' hload => ?_, process_comes hregistry l⟩
  have henv : ((e.upTo limit).surroundings false l.file).Lexical files :=
    ⟨rfl, hregistry, hfiles⟩
  have hprocessed : Reduce.Gives (ContentLang.Alike (e.rootValue l.file l.source).node)
      ((e.upTo limit).processed l.file l.source) := by
    refine meets_map (Reduce.evaluates_visit (Reduce.evaluates_inContext files limit) henv
      Context.shows_empty hsource) fun out hout => ?_
    obtain ⟨n, hn, halike⟩ := Result.toNode_outcome hout l.source.origin
    rw [hn]
    exact halike
  exact (Reduce.gives_answer hprocessed (process_root hload)).symm.same

/-- **Reads follow the scopes of sequences.** Let all calls of the given files be bindings and reads
of names that are written out, and includes of such files with overrides that are written out. A
tree of this kind is loaded to the value that it is evaluated to, from a text or once more. -/
theorem root_evaluated (e : Engine) (hregistry : e.registry = .builtin) (files : String → Bool)
    (hfiles : ∀ f t, files f = true → e.host.fileText f = some t →
      ∀ n ∈ (parseText t f e.settings.uniqueId).1, n.lexical files = true) :
    (∀ text file, (e.read text file).source.lexical files = true →
      e.LoadsRoot (·.loadText text file) (e.rootValue file (e.read text file).source)) ∧
    ∀ l : Loaded, l.source.lexical files = true →
      e.LoadsRoot (·.refresh l) (e.rootValue l.file l.source) := by
  refine ⟨fun text file hsource => ?_, fun l hsource => ?_⟩
  · -- What functions remember is forgotten first, which makes no difference for the value.
    have hroot := process_evaluated (e := e.forgetful) hregistry hfiles hsource
    exact ⟨fun limit l hload => hroot.1 limit l hload, hroot.2⟩
  · have hroot := process_evaluated hregistry hfiles hsource
    exact ⟨fun limit l' hload => hroot.1 limit l' hload, hroot.2⟩

/-- A file that another one is included in twice, and the value of both. -/
theorem root_evaluated_part :
    let part := "Set^(A, [^(A, 0)]); ^(A); ^(B)"
    let text := "Include(part); Set^(A, 1); Include(part, \x7bB: ^(A)\x7d) ^(A); " ++
      "[Set^(A, 2) ^(A)]; \x7bk: Set^(B, 3); l: ^(B)\x7d"
    let e := Engine.start .standard
      (.plain (fun _ => none) fun f => if f = "part" then some part else none) 0
    let files (f : String) : Bool := f = "part"
    e.registry = .builtin ∧
      (∀ f t, files f = true → e.host.fileText f = some t →
        ∀ n ∈ (parseText t f e.settings.uniqueId).1, n.lexical files = true) ∧
      (e.read text "main.txt").source.lexical files = true ∧
      (e.rootValue "main.txt" (e.read text "main.txt").source).node.text .compact =
        "[[0], invalid context value B, [1], 1, 1, [2], { l: invalid context value B }]" ∧
      e.LoadsRoot (·.loadText text "main.txt")
        (e.rootValue "main.txt" (e.read text "main.txt").source) := by
  intro part text e files
  have hfiles : ∀ f t, files f = true → e.host.fileText f = some t →
      ∀ n ∈ (parseText t f e.settings.uniqueId).1, n.lexical files = true := by
    intro f t hf ht
    obtain rfl : f = "part" := of_decide_eq_true hf
    obtain rfl : part = t := Option.some.inj ht
    exact Node.lexicalAll_iff.mp (by decide +kernel)
  have hsource : (e.read text "main.txt").source.lexical files = true := by decide +kernel
  exact ⟨rfl, hfiles, hsource, by decide +kernel,
    (root_evaluated e rfl files hfiles).1 text "main.txt" hsource⟩

end Engine

end ContentLang
