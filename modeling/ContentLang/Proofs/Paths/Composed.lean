import ContentLang.Proofs.Paths.Canonical
import ContentLang.Settings

/-!
# Two ways to a file below the content root

The path of a content file is put together in two ways. To read the file, its normal form is joined
to the content root as file systems do it (`ContentLang.Settings.contentPath`); to name it, it is
written behind the root, and the whole is brought into normal form (`ContentLang.Path.compose`).

Since a normal form starts with no slash, nothing is ever lost of the root when it is joined
(`ContentLang.Path.joinChars_normalizeChars`), and since normalizing goes with joining, the two ways
differ in nothing but spelling (`ContentLang.Path.compose_eq`): both paths name one file
(`ContentLang.Path.SameFile`).

The content root stays as it was given. Whether it starts with a slash is not to be seen from its
normal form, so that has to be said apart.
-/

namespace ContentLang

namespace Path

/-! ### Slashes that make no difference -/

theorem normalizeChars_map_slash (cs : List Char) :
    normalizeChars (cs.map slash) = normalizeChars cs := by
  have hslash : ∀ c, slash (slash c) = slash c := by
    intro c
    unfold slash
    split <;> simp_all
  rw [normalizeChars, normalizeChars, reduce, reduce, List.map_map]
  simp only [Function.comp_def, hslash]

/-- A slash at the start is left out. -/
theorem normalizeChars_slash_cons (cs : List Char) :
    normalizeChars ('/' :: cs) = normalizeChars cs := by
  have hsegments : segments ('/' :: cs) = [] :: segments cs := segments_join [] cs
  rw [normalizeChars, normalizeChars, reduce_eq, reduce_eq, hsegments, reduceSegments,
    List.foldl_cons, push_nil]
  rfl

/-- A slash at the end is left out. -/
theorem normalizeChars_concat_slash (cs : List Char) :
    normalizeChars (cs ++ ['/']) = normalizeChars cs := by
  have hsegments : segments (cs ++ ['/']) = segments cs ++ [[]] := segments_join cs []
  rw [normalizeChars, normalizeChars, reduce_eq, reduce_eq, hsegments, reduceSegments,
    List.foldl_append, List.foldl_cons, List.foldl_nil, push_nil]
  rfl

/-- Normal forms are relative. -/
theorem isRooted_normalizeChars (cs : List Char) : isRooted (normalizeChars cs) = false := by
  cases h : normalizeChars cs with
  | nil => rfl
  | cons c ds =>
    have hslash : c ≠ '/' := fun hc => (slash_normalizeChars cs ds).1 (hc ▸ h)
    have hback : c ≠ '\\' := fun hc => backslash_normalizeChars cs (by rw [h, hc]; simp)
    simp [isRooted, hslash, hback]

theorem isAbsolute_normalizeChars (cs : List Char) : isAbsolute (normalizeChars cs) = false := by
  have hrelative := isRooted_normalizeChars cs
  cases h : normalizeChars cs with
  | nil => rfl
  | cons c ds =>
    rw [h] at hrelative
    simp_all [isAbsolute, isRooted]

/-- Once its backslashes are slashes, a path is absolute if it starts at a root. -/
theorem isAbsolute_map_slash (cs : List Char) : isAbsolute (cs.map slash) = isRooted cs := by
  cases cs with
  | nil => rfl
  | cons c ds => by_cases hc : c = '\\' <;> simp [isAbsolute, isRooted, slash, hc]

/-! ### The two ways -/

/-- What is put between a root and what is joined to it. -/
def between (root : List Char) : List Char :=
  if root = [] ∨ root.getLast? = some '/' then [] else ['/']

/-- **What is joined to a root never replaces it**, if it is in normal form. -/
theorem joinChars_normalizeChars (root cs : List Char) :
    joinChars root (normalizeChars cs) = root ++ between root ++ normalizeChars cs := by
  unfold joinChars between
  rw [isAbsolute_normalizeChars, if_neg Bool.false_ne_true]
  split
  next => rw [List.append_nil]
  next => rw [List.append_assoc, List.singleton_append]

/-- **Joining a normal form is the same, up to spelling, as writing the path behind the root.** -/
theorem normalizeChars_joinChars (root cs : List Char) :
    normalizeChars (joinChars root (normalizeChars cs)) = normalizeChars (root ++ '/' :: cs) := by
  rw [joinChars_normalizeChars]
  by_cases hroot : root = []
  · subst hroot
    calc normalizeChars ([] ++ between [] ++ normalizeChars cs)
      _ = normalizeChars cs := normalizeChars_normalizeChars cs
      _ = normalizeChars ('/' :: cs) := (normalizeChars_slash_cons cs).symm
  · by_cases hlast : root.getLast? = some '/'
    · obtain ⟨dir, rfl⟩ := List.getLast?_eq_some_iff.mp hlast
      rw [between, if_pos (.inr hlast), List.append_nil, List.append_assoc, List.singleton_append,
        normalizeChars_join, normalizeChars_join (dir ++ ['/']), normalizeChars_normalizeChars,
        normalizeChars_concat_slash]
    · rw [between, if_neg (by simp [hroot, hlast]), List.append_assoc, List.singleton_append,
        normalizeChars_join, normalizeChars_join root cs, normalizeChars_normalizeChars]

theorem isRooted_joinChars (root cs : List Char) :
    isRooted (joinChars root (normalizeChars cs)) = isRooted root := by
  rw [joinChars_normalizeChars]
  cases root with
  | nil => exact isRooted_normalizeChars cs
  | cons c dir => rfl

theorem composeChars_eq (root cs : List Char) :
    composeChars root cs = (if isRooted root then ['/'] else []) ++
      normalizeChars (joinChars root (normalizeChars cs)) := by
  have hbehind : normalizeChars (root.map slash ++ '/' :: cs) = normalizeChars (root ++ '/' :: cs) :=
    by rw [normalizeChars_join, normalizeChars_map_slash, ← normalizeChars_join]
  have hrooted : (root.map slash).head? = some '/' ↔ isRooted root = true := by
    rw [← isAbsolute_map_slash, isAbsolute, decide_eq_true_eq]
  show (if (root.map slash).head? = some '/' then '/' :: normalizeChars (root.map slash ++ '/' :: cs)
    else normalizeChars (root.map slash ++ '/' :: cs)) = _
  rw [normalizeChars_joinChars, hbehind]
  simp only [hrooted]
  split <;> rfl

theorem toList_contentPath (s : Settings) (p : String) :
    (s.contentPath p).toList = joinChars s.contentRoot.toList (normalizeChars p.toList) := by
  simp only [Settings.contentPath, join, normalize, String.toList_ofList]

/-- **A content path starts with the content root**, whatever the path in it is. -/
theorem contentPath_eq (s : Settings) (p : String) :
    s.contentPath p =
      s.contentRoot ++ String.ofList (between s.contentRoot.toList) ++ normalize p := by
  apply String.toList_inj.mp
  simp only [toList_contentPath, joinChars_normalizeChars, normalize, String.toList_append,
    String.toList_ofList]

theorem isRooted_contentPath (s : Settings) (p : String) :
    isRooted (s.contentPath p).toList = isRooted s.contentRoot.toList := by
  rw [toList_contentPath, isRooted_joinChars]

/-- Only the root can bring a backslash into a content path. -/
theorem backslash_contentPath {s : Settings} (h : '\\' ∉ s.contentRoot.toList) (p : String) :
    '\\' ∉ (s.contentPath p).toList := by
  have hbetween : '\\' ∉ between s.contentRoot.toList := by
    unfold between
    split <;> simp
  rw [toList_contentPath, joinChars_normalizeChars]
  simp only [List.mem_append, not_or]
  exact ⟨⟨h, hbetween⟩, backslash_normalizeChars _⟩

/-! ### Names of files -/

/-- **Whether two paths name one file**, as far as texts go: they are spellings of one another, and
both start at a root or neither does. -/
structure SameFile (p q : String) : Prop where
  rooted : isRooted p.toList = isRooted q.toList
  respelled : Respelled p.toList q.toList

theorem toList_compose (s : Settings) (p : String) :
    (compose s.contentRoot p).toList =
      (if isRooted s.contentRoot.toList then ['/'] else []) ++
        normalizeChars (s.contentPath p).toList := by
  rw [compose, String.toList_ofList, composeChars_eq, toList_contentPath]

/-- **The composed path is the normal form of the joined one**, behind a slash if the root starts
with one. -/
theorem compose_eq (s : Settings) (p : String) :
    compose s.contentRoot p =
      (if isRooted s.contentRoot.toList then "/" else "") ++ normalize (s.contentPath p) := by
  apply String.toList_inj.mp
  rw [toList_compose, String.toList_append, normalize, String.toList_ofList,
    apply_ite String.toList]
  rfl

theorem isAbsolute_compose (s : Settings) (p : String) :
    isAbsolute (compose s.contentRoot p).toList = isRooted s.contentRoot.toList := by
  rw [toList_compose]
  cases isRooted s.contentRoot.toList with
  | true => rfl
  | false => rw [if_neg Bool.false_ne_true, List.nil_append, isAbsolute_normalizeChars]

/-- **The path that a file is read at and the path that it is composed to name one file.** -/
theorem sameFile_compose (s : Settings) (p : String) :
    SameFile (s.contentPath p) (compose s.contentRoot p) := by
  refine ⟨?_, respelled_iff.mpr ?_⟩
  · rw [toList_compose, isRooted_contentPath]
    cases isRooted s.contentRoot.toList with
    | true => rfl
    | false => rw [if_neg Bool.false_ne_true, List.nil_append, isRooted_normalizeChars]
  · rw [toList_compose]
    cases isRooted s.contentRoot.toList with
    | true =>
      rw [if_pos rfl, List.singleton_append, normalizeChars_slash_cons,
        normalizeChars_normalizeChars]
    | false => rw [if_neg Bool.false_ne_true, List.nil_append, normalizeChars_normalizeChars]

end Path

end ContentLang
