import ContentLang.Directory
import ContentLang.Proofs.Paths.Composed

/-!
# Where directories find a path

Normalizing never asks the file system. A directory follows a path folder by folder, so it may not
find what the normal form names: a detour `x/..` leads nowhere if there is no folder `x`. But
whatever it does find, it finds at the normal form as well (`ContentLang.Directory.follow_normal`).
For what remains of a path, segment by segment, always leads to where one is
(`ContentLang.Directory.follow_push`): `..` takes away a name only if that name was entered last, so
that one is above it again, and otherwise it stays and is followed itself.

So a file that is read below a content root is the one that its composed path names
(`ContentLang.Directory.read_compose`), whether the root is absolute or not and however far it leads
up. Only a backslash may not be in it: that is part of a name to a directory, but a slash to what
composes paths.
-/

namespace ContentLang

namespace Path

/-- What is on a stack after a segment was pushed is the segment or was there before. -/
theorem mem_push {stack : List Segment} {s t : Segment} (h : t ∈ push stack s) :
    t = s ∨ t ∈ stack := by
  unfold push at h
  split at h
  next => exact .inr h
  next =>
    split at h
    next hs =>
      cases stack with
      | nil => exact .inl (List.mem_singleton.mp h)
      | cons last rest =>
        dsimp only at h
        split at h
        next => exact List.mem_cons.mp h
        next => exact .inr (List.mem_cons_of_mem _ h)
    next => exact List.mem_cons.mp h

theorem mem_foldl_push {ss stack : List Segment} {t : Segment} (h : t ∈ ss.foldl push stack) :
    t ∈ ss ∨ t ∈ stack := by
  induction ss generalizing stack with
  | nil => exact .inr h
  | cons s ss ih =>
    rcases ih h with h | h
    · exact .inl (List.mem_cons_of_mem _ h)
    · rcases mem_push h with rfl | h
      · exact .inl List.mem_cons_self
      · exact .inr h

/-- A normal form has no characters but slashes and those of the path. -/
theorem mem_of_mem_normalizeChars {cs : List Char} {c : Char} (h : c ∈ normalizeChars cs) :
    c = '/' ∨ c ∈ cs := by
  rcases mem_unsplit h with h | ⟨s, hs, hc⟩
  · exact .inl h
  · have hmem : s ∈ (segments cs).foldl push [] := List.mem_reverse.mp hs
    rcases mem_foldl_push hmem with hs | hs
    · obtain ⟨b, hb, rfl⟩ := List.mem_map.mp (mem_of_mem_split hs hc).1
      unfold slash
      split
      next => exact .inl rfl
      next => exact .inr hb
    · exact absurd hs List.not_mem_nil

end Path

open ContentLang.Path

namespace Directory

variable {d : Directory} {start place target : List Segment} {stack ss ts : List Segment}
  {s : Segment}

/-! ### Following one segment -/

/-- **What follows is followed from where one has come to.** -/
theorem follow_append : d.follow start (ss ++ ts) = .ok target ↔
    ∃ place, d.follow start ss = .ok place ∧ d.follow place ts = .ok target := by
  induction ss generalizing start with
  | nil =>
    refine ⟨fun h => ⟨start, rfl, h⟩, ?_⟩
    rintro ⟨place, hplace, h⟩
    obtain rfl : start = place := Except.ok.inj hplace
    exact h
  | cons s ss ih =>
    rw [List.cons_append, follow, follow]
    split
    next => simp
    next =>
      split
      next => exact ih
      next =>
        split
        next => exact ih
        next =>
          split
          next => simp
          next => exact ih

/-- Whatever is followed is followed from a folder. -/
theorem isFolder_of_follow (h : d.follow place (s :: ss) = .ok target) :
    d.isFolder place = true := by
  rw [follow] at h
  split at h
  next => exact nomatch h
  next hfolder => simpa using hfolder

/-- **All that one segment can lead to**: what is empty or `.` leads nowhere else, `..` to the
folder above, and a name to what it names. -/
theorem follow_singleton (h : d.follow place [s] = .ok target) :
    ((s = [] ∨ s = ['.']) → target = place) ∧ (s = ['.', '.'] → target = place.dropLast) ∧
      (IsName s → target = place ++ [s]) := by
  rw [follow, if_neg (by simp [isFolder_of_follow h])] at h
  split at h
  next hnothing =>
    refine ⟨fun _ => (Except.ok.inj h).symm, ?_, fun hs => ?_⟩
    · rintro rfl
      exact absurd hnothing (by decide)
    · exact absurd hnothing (not_or.mpr ⟨hs.ne_nil, hs.ne_current⟩)
  next hnothing =>
    refine ⟨fun hs => absurd hs hnothing, ?_⟩
    split at h
    next hparent =>
      exact ⟨fun _ => (Except.ok.inj h).symm, fun hs => absurd hparent hs.ne_parent⟩
    next hparent =>
      refine ⟨fun hs => absurd hs hparent, fun _ => ?_⟩
      split at h
      next => exact nomatch h
      next => exact (Except.ok.inj h).symm

/-- What is empty or `.` leads to the folder itself. -/
theorem follow_nothing (hs : s = [] ∨ s = ['.']) (hplace : d.isFolder place = true) :
    d.follow place [s] = .ok place := by
  rw [follow, if_neg (by simp [hplace]), if_pos hs]
  rfl

/-! ### Following what remains -/

/-- **Where one is after one more segment is where what remains with it leads.** -/
theorem follow_push (hstack : InOrder stack) (hs : ∀ c ∈ s, c ≠ '/' ∧ c ≠ '\\')
    (hplace : d.follow start stack.reverse = .ok place) (h : d.follow place [s] = .ok target) :
    d.follow start (push stack s).reverse = .ok target := by
  have hkept : d.follow start (s :: stack).reverse = .ok target := by
    rw [List.reverse_cons]
    exact follow_append.mpr ⟨place, hplace, h⟩
  obtain ⟨hstays, hleaves, -⟩ := follow_singleton h
  rcases push_cases hstack hs with ⟨hnothing, hpush⟩ | ⟨name, rest, hparent, rfl, hname, hpush⟩ |
    ⟨-, -, hpush⟩ | ⟨-, hpush⟩
  · rw [hpush, hstays hnothing, hplace]
  · -- The name on top was entered last, so `..` leads to where one was before.
    rw [List.reverse_cons] at hplace
    obtain ⟨above, habove, hentered⟩ := follow_append.mp hplace
    obtain rfl : place = above ++ [name] := (follow_singleton hentered).2.2 hname
    rw [hpush, hleaves hparent, List.dropLast_concat, habove]
  · rw [hpush, hkept]
  · rw [hpush, hkept]

/-- **What remains of segments leads where they lead.** -/
theorem follow_foldl_push (hstack : InOrder stack) (hss : ∀ s ∈ ss, ∀ c ∈ s, c ≠ '/' ∧ c ≠ '\\')
    (hplace : d.follow start stack.reverse = .ok place) (h : d.follow place ss = .ok target) :
    d.follow start (ss.foldl push stack).reverse = .ok target := by
  induction ss generalizing stack place with
  | nil =>
    obtain rfl : place = target := Except.ok.inj h
    exact hplace
  | cons s ss ih =>
    obtain ⟨hs, hlater⟩ := List.forall_mem_cons.mp hss
    have hfirst : s :: ss = [s] ++ ss := rfl
    rw [hfirst] at h
    obtain ⟨next, hnext, h⟩ := follow_append.mp h
    exact ih (hstack.push hs) hlater (follow_push hstack hs hplace hnext) h

/-- **What a directory finds at a path, it finds at the normal form**, if no backslash is in the
path. -/
theorem follow_normal {cs : List Char} (hcs : '\\' ∉ cs)
    (h : d.follow start (split cs) = .ok place) :
    d.follow start (split (normalizeChars cs)) = .ok place := by
  have hsegments : Path.segments cs = split cs := by rw [Path.segments, map_slash hcs]
  have hreduced : d.follow start (reduce cs) = .ok place := by
    rw [reduce_eq, reduceSegments]
    exact follow_foldl_push inOrder_nil (fun s => noSlash_of_mem_segments) rfl (hsegments ▸ h)
  by_cases hnil : reduce cs = []
  · -- Nothing remains, so the path leads back to the folder that it starts from.
    rw [hnil] at hreduced
    obtain rfl : start = place := Except.ok.inj hreduced
    obtain ⟨s, ss, hsplit⟩ := List.exists_cons_of_ne_nil (split_ne_nil cs)
    rw [hsplit] at h
    rw [normalizeChars, hnil]
    exact follow_nothing (.inl rfl) (isFolder_of_follow h)
  · have horder := inOrder_reduce cs
    have hslash : ∀ s ∈ reduce cs, '/' ∉ s := fun s hs hmem =>
      (horder.noSlash s (List.mem_reverse.mpr hs) _ hmem).1 rfl
    rwa [normalizeChars, split_unsplit hnil hslash]

/-! ### What is read -/

theorem read_eq_ok_iff {path : String} {bytes : ByteArray} :
    d.read path = .ok bytes ↔ '\x00' ∉ path.toList ∧ path.toList ≠ [] ∧
      ∃ place, d.follow (d.start path.toList) (split path.toList) = .ok place ∧
        d.bytes? place = some bytes := by
  unfold Directory.read
  by_cases hnull : '\x00' ∈ path.toList
  · simp [hnull, throw, throwThe, MonadExceptOf.throw, bind, Except.bind]
  by_cases hnil : path.toList = []
  · simp [hnil, throw, throwThe, MonadExceptOf.throw, bind, Except.bind]
  cases hfollow : d.follow (d.start path.toList) (split path.toList) with
  | error fault => simp [hnull, hnil, hfollow, bind, Except.bind]
  | ok place =>
    cases hbytes : d.bytes? place <;>
      simp [hnull, hnil, hfollow, hbytes, throw, throwThe, MonadExceptOf.throw, bind,
        Except.bind, pure, Except.pure]

/-- The normal form of a path, behind a slash if the path is absolute, leads where the path
leads. -/
theorem follow_named {cs : List Char} (hcs : '\\' ∉ cs)
    (h : d.follow (d.start cs) (split cs) = .ok place) :
    let named := (if isAbsolute cs then ['/'] else []) ++ normalizeChars cs
    d.follow (d.start named) (split named) = .ok place := by
  have hnormal := follow_normal hcs h
  rw [start] at hnormal
  cases habsolute : isAbsolute cs with
  | true =>
    rw [habsolute, if_pos rfl] at hnormal
    exact hnormal
  | false =>
    rw [habsolute, if_neg Bool.false_ne_true] at hnormal
    show d.follow (d.start (normalizeChars cs)) _ = _
    rwa [start, isAbsolute_normalizeChars, if_neg Bool.false_ne_true]

/-- **A file that is read below a content root is read at its composed path**, if the root holds no
backslash. The working folder is no file. -/
theorem read_compose {settings : Settings} {p : String} {bytes : ByteArray}
    (hroot : '\\' ∉ settings.contentRoot.toList) (hd : d.bytes? d.base = none)
    (h : d.read (settings.contentPath p) = .ok bytes) :
    d.read (compose settings.contentRoot p) = .ok bytes := by
  obtain ⟨hnull, -, place, hplace, hbytes⟩ := read_eq_ok_iff.mp h
  have hback := backslash_contentPath hroot p
  have hnamed : (compose settings.contentRoot p).toList =
      (if isAbsolute (settings.contentPath p).toList then ['/'] else []) ++
        normalizeChars (settings.contentPath p).toList := by
    rw [toList_compose, ← isRooted_contentPath settings p, ← isAbsolute_map_slash, map_slash hback]
  have hfollow := follow_named hback hplace
  rw [← hnamed] at hfollow
  refine read_eq_ok_iff.mpr ⟨fun hmem => ?_, fun hnil => ?_, place, hfollow, hbytes⟩
  · rw [hnamed, List.mem_append] at hmem
    rcases hmem with hmem | hmem
    · split at hmem <;> simp at hmem
    · rcases mem_of_mem_normalizeChars hmem with h | h
      · exact absurd h (by decide)
      · exact hnull h
  · rw [hnil] at hfollow
    obtain rfl : place = d.base := (follow_singleton hfollow).1 (.inl rfl)
    exact nomatch hd.symm.trans hbytes

end Directory

end ContentLang
