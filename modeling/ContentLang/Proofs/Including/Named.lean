import ContentLang.Engine
import ContentLang.Proofs.Paths.Following
import ContentLang.Proofs.Settled.Still

/-!
# Files that are named and files that are read

`@@(path)` gives the path of a file below the content root, and `Include(path)` reads one. Written
in the same place, and with paths that come to the same token, they are about one file: from the
path on, the one only gives a name (`ContentLang.Reduce.assetFile_eq`), the other asks the host,
which reads (`ContentLang.Reduce.include_reads`), and the file that is read is found at the path
that is named (`ContentLang.Reduce.named_is_read`). The content root must have no backslash for
that, since the two take it for different things (`ContentLang.Reduce.named_not_read`).

The path may be anything that is reduced to a token. It is reduced once by either call, from the
same state, so that it comes to the same also where something is drawn.
-/

namespace ContentLang

open Walk

namespace Walk

variable {α β : Type} {m : Walk α} {f g : α → Walk β} {s : WalkState} {a : α}

/-- Walks that go on in the same way from what a walk comes to. -/
theorem bind_congr_of_answer (h : (m s).answer = .ok a) (hfg : f a = g a) :
    (m >>= f) s = (m >>= g) s := by
  rw [bind_ok h, bind_ok h, hfg]

end Walk

namespace Reduce

/-- What an include does once the host has tried to read the file. -/
def afterReading (env : Surroundings) (rec : Reducer) (call : Call) (file : String)
    (ctx : Context) : Except FileFault String → Walk Outcome
  | .ok text => includeText env rec call file text ctx
  | .error _ => notIncluded call (.includeNotFound file)

section

variable {env : Surroundings} {depth : Nat} {n : Node} {o : Origin} {ctx : Context} {s : WalkState}
  {t : Token}

/-- **A call of `@@` whose path comes to a token** gives the composed path of the file. -/
theorem assetFile_eq (hregistry : Registry.get? env.registry "@@" = some Library.assetFile)
    (hn : (visit env (inContext (depth + 1)) n ctx s).answer = .ok (.value (.token t))) :
    inContext (depth + 2) env (.call "@@" [n] o) ctx s =
      (visit env (inContext (depth + 1)) n ctx >>= fun _ => Pure.pure (.content
        (Path.compose env.settings.contentRoot (Path.resolve o.location.file t.value))
        { o with context := ctx })) s := by
  have hcall : inContext (depth + 2) env (.call "@@" [n] o) ctx =
      callFunction env (inContext (depth + 1)) Library.assetFile ⟨"@@", [n], o⟩ ctx :=
    call_eq_callFunction (by decide) hregistry [n] o ctx
  rw [hcall, callFunction, if_neg (by decide), reduceCallParams, reduceParams, bind_assoc,
    bind_assoc]
  exact bind_congr_of_answer hn rfl

/-- **A host that reads a directory** is asked for a file, and reads it at its content path. -/
theorem includeFile_reads {read : String → Except FileFault String} {rec : Reducer} {call : Call}
    {file : String} (hhost : env.host = .ofFiles env.settings read) (hfile : file ∉ env.files)
    (hdepth : env.files.length ≤ env.settings.maxIncludeDepth) :
    includeFile env rec call file ctx =
      Walk.leave (questionNotes env.host (.file file)) >>= fun _ =>
        afterReading env rec call file ctx (read (env.settings.contentPath file)) := by
  have htext : env.host.fileText file = (read (env.settings.contentPath file)).toOption := by
    rw [hhost]
    show (Host.readFile env.settings read file).1.toOption = _
    unfold Host.readFile
    cases h : read (env.settings.contentPath file) <;> simp only [h]
  have hasked : Walk.askFile env.host file =
      Walk.leave (questionNotes env.host (.file file)) >>= fun _ =>
        Pure.pure (read (env.settings.contentPath file)).toOption := by
    funext s
    rw [← htext]
    exact congrArg (Walked.mk _ s) (List.append_nil _).symm
  rw [Reduce.includeFile_eq, if_neg (by simpa using hfile), if_neg (Nat.not_lt.mpr hdepth), hasked,
    bind_assoc]
  cases read (env.settings.contentPath file) <;> rfl

/-- **An include whose path comes to a token** asks the host for the file, and goes on from what is
read at its content path. -/
theorem include_reads {read : String → Except FileFault String}
    (hhost : env.host = .ofFiles env.settings read)
    (hn : (visit env (inContext (depth + 1)) n ctx s).answer = .ok (.value (.token t)))
    (hfile : Path.resolve o.location.file t.value ∉ env.files)
    (hdepth : env.files.length ≤ env.settings.maxIncludeDepth) :
    let file := Path.resolve o.location.file t.value
    inContext (depth + 2) env (.call includeName [n] o) ctx s =
      (visit env (inContext (depth + 1)) n ctx >>= fun _ =>
        Walk.leave (questionNotes env.host (.file file)) >>= fun _ =>
          afterReading env (inContext (depth + 1)) ⟨includeName, [n], o⟩ file ctx
            (read (env.settings.contentPath file))) s := by
  intro file
  have hcall : inContext (depth + 2) env (.call includeName [n] o) ctx =
      includeCall env (inContext (depth + 1)) ⟨includeName, [n], o⟩ ctx := by
    show includeCall env _ ⟨includeName, [n], o⟩ ctx >>= (fun outcome => Pure.pure outcome) = _
    exact bind_pure _
  have harity : (Arity.either 1 2).accepts [n].length = true := rfl
  rw [hcall, includeCall]
  simp only [harity, Bool.not_true, Bool.false_eq_true, if_false]
  rw [Evaluator.requireToken, bind_assoc]
  exact bind_congr_of_answer hn (includeFile_reads hhost hfile hdepth)

end

/-- **The file that is named is the one that is read**, if the content root has no backslash. For
every content root and every path `p` from there:

* the normal form of the path that is read is the composed path without its slash at the start, and
  this slash is there exactly if the root starts with a slash or a backslash;
* the path that is read starts with the whole content root, whatever `p` is;
* the two are spelled alike, but for their backslashes;
* whatever a directory reads at the path that is read, it reads at the composed path too, if no
  backslash is in the content root. The folder that relative paths start from is no file;
* `@@(n)` gives the composed path, and `Include(n)` in the same place goes on from what is read at
  the other one, in either pass and at any depth, if `n` comes to a token that is resolved to `p`.
  Nothing is read if `p` is being processed already, or too deep. -/
theorem named_is_read (settings : Settings) (p : String) :
    let root := settings.contentRoot
    let full := settings.contentPath p
    let named := Path.compose root p
    named = (if Path.isRooted root.toList then "/" else "") ++ Path.normalize full ∧
      Path.isAbsolute (Path.normalize full).toList = false ∧
      Path.isAbsolute named.toList = Path.isRooted root.toList ∧
      full = root ++ String.ofList (Path.between root.toList) ++ Path.normalize p ∧
      Path.SameFile full named ∧
      ('\\' ∉ root.toList → ∀ (d : Directory) (bytes : ByteArray), d.bytes? d.base = none →
        d.read full = .ok bytes → d.read named = .ok bytes) ∧
      ∀ (read : String → Except FileFault String) (env : Surroundings), env.settings = settings →
        env.host = .ofFiles settings read →
        Registry.get? env.registry "@@" = some Library.assetFile →
        ∀ (depth : Nat) (n : Node) (o : Origin) (ctx : Context) (s : WalkState) (t : Token),
          let path := visit env (inContext (depth + 1)) n ctx
          (path s).answer = .ok (.value (.token t)) → Path.resolve o.location.file t.value = p →
            inContext (depth + 2) env (.call "@@" [n] o) ctx s =
              (path >>= fun _ => Pure.pure (.content named { o with context := ctx })) s ∧
            (p ∉ env.files → env.files.length ≤ settings.maxIncludeDepth →
              inContext (depth + 2) env (.call includeName [n] o) ctx s =
                (path >>= fun _ => Walk.leave (questionNotes env.host (.file p)) >>= fun _ =>
                  afterReading env (inContext (depth + 1)) ⟨includeName, [n], o⟩ p ctx
                    (read full)) s) := by
  intro root full named
  refine ⟨Path.compose_eq settings p, ?_, Path.isAbsolute_compose settings p,
    Path.contentPath_eq settings p, Path.sameFile_compose settings p,
    fun hroot d bytes hd hread => Directory.read_compose hroot hd hread, ?_⟩
  · rw [Path.normalize, String.toList_ofList]
    exact Path.isAbsolute_normalizeChars _
  · intro read env hsettings hhost hregistry depth n o ctx s t path hn hfile
    subst hsettings hfile
    exact ⟨assetFile_eq hregistry hn, fun hnew hdepth => include_reads hhost hn hnew hdepth⟩

/-- From the folder `srv/app`, a content root that leads up, with a detour and a slash at its end,
and an absolute one; the path looks absolute. -/
theorem named_is_read_detour :
    let settings := { Settings.standard with contentRoot := "../old/../base/" }
    let placed := ((Directory.mk [] [] []).put "srv/base/maps/town.txt" "x".toUTF8).put
      "srv/old/a" "".toUTF8
    let d := { placed.put "srv/app/a" "".toUTF8 with base := Directory.segments "srv/app" }
    let host := Host.ofFiles settings fun f => d.read f >>= textOfBytes
    let e := Engine.start settings host 0
    let env := e.surroundings true "data/items.txt"
    let o : Origin := .written ⟨"data/items.txt", 1, 1⟩ 1
    let path : Node := .token (.content "/maps//town.txt" o)
    (d.read "../old/../base/maps/town.txt" = .ok "x".toUTF8 ∧
      d.read "../base/maps/town.txt" = .ok "x".toUTF8) ∧
      (d.read "/srv/old/../base/maps/town.txt" = .ok "x".toUTF8 ∧
        d.read "/srv/base/maps/town.txt" = .ok "x".toUTF8) ∧
      (inContext 2 env (.call "@@" [path] o) .empty e.state).answer =
        .ok (.content "../base/maps/town.txt" o) ∧
      (inContext 2 env (.call includeName [path] o) .empty e.state).notes.filterMap Note.query? =
        [.file "maps/town.txt"] ∧
      (((inContext 2 env (.call includeName [path] o) .empty e.state).answer.toOption.bind
        (·.toNode? o)).bind Node.token?).map (·.value) = some "x" := by
  intro settings placed d host e env o path
  have hnamed : Path.compose settings.contentRoot "maps/town.txt" = "../base/maps/town.txt" := by
    decide
  have hfull : settings.contentPath "maps/town.txt" = "../old/../base/maps/town.txt" := by
    decide
  obtain ⟨-, -, -, -, -, hdirectory, hwalks⟩ := named_is_read settings "maps/town.txt"
  rw [hnamed, hfull] at hdirectory hwalks
  obtain ⟨hname, hinclude⟩ := hwalks _ env rfl rfl rfl 0 path o .empty e.state _ rfl (by decide)
  have hincluded := hinclude (by decide) (by decide)
  have hread : d.read "../old/../base/maps/town.txt" = .ok "x".toUTF8 :=
    Directory.read_eq_ok_iff.mpr ⟨by decide, by decide,
      Directory.segments "srv/base/maps/town.txt", by decide +kernel, rfl⟩
  have hreadAbsolute : d.read "/srv/old/../base/maps/town.txt" = .ok "x".toUTF8 :=
    Directory.read_eq_ok_iff.mpr ⟨by decide, by decide,
      Directory.segments "srv/base/maps/town.txt", by decide +kernel, rfl⟩
  let absolute := { settings with contentRoot := "/srv/old/../base" }
  have hnamedAbsolute : Path.compose absolute.contentRoot "maps/town.txt" =
      "/srv/base/maps/town.txt" := by decide
  have hfullAbsolute : absolute.contentPath "maps/town.txt" = "/srv/old/../base/maps/town.txt" := by
    decide
  obtain ⟨-, -, -, -, -, habsolute, -⟩ := named_is_read absolute "maps/town.txt"
  rw [hnamedAbsolute, hfullAbsolute] at habsolute
  refine ⟨⟨hread, hdirectory (by decide) d _ rfl hread⟩,
    ⟨hreadAbsolute, habsolute (by decide) d _ rfl hreadAbsolute⟩, ?_, ?_, ?_⟩
  · rw [hname]
    rfl
  · rw [hincluded]
    decide +kernel
  · rw [hincluded]
    decide +kernel

/-- **A backslash in the content root parts the two**: to the directory it is part of a name, and in
the path that is named it is a slash. -/
theorem named_not_read :
    let settings := { Settings.standard with contentRoot := "a\\b" }
    let d := (Directory.empty.put "a\\b/x.txt" "read".toUTF8).put "a/b/x.txt" "named".toUTF8
    let host := Host.ofFiles settings fun f => d.read f >>= textOfBytes
    let e := Engine.start settings host 0
    let env := e.surroundings true "main.txt"
    let o : Origin := .written ⟨"main.txt", 1, 1⟩ 1
    let path : Node := .token (.content "x.txt" o)
    (inContext 2 env (.call "@@" [path] o) .empty e.state).answer = .ok (.content "a/b/x.txt" o) ∧
      d.read "a/b/x.txt" = .ok "named".toUTF8 ∧
      (((inContext 2 env (.call includeName [path] o) .empty e.state).answer.toOption.bind
        (·.toNode? o)).bind Node.token?).map (·.value) = some "read" := by
  intro settings d host e env o path
  refine ⟨?_, ?_, ?_⟩
  · let t : Token := .content "x.txt" o
    have hpath : (visit env (inContext 1) path .empty e.state).answer = .ok (.value (.token t)) :=
      rfl
    have hnamed : Path.compose env.settings.contentRoot (Path.resolve o.location.file t.value) =
        "a/b/x.txt" := by decide
    rw [assetFile_eq rfl hpath, hnamed]
    rfl
  · exact Directory.read_eq_ok_iff.mpr ⟨by decide, by decide,
      d.base ++ Directory.segments "a/b/x.txt", by decide +kernel, rfl⟩
  · decide +kernel

end Reduce

end ContentLang
