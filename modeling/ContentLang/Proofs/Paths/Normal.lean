import ContentLang.Path
import Mathlib.Data.List.Basic

/-!
# Normal forms of paths

The segments that remain of a path are **in order** (`ContentLang.Path.InOrder`): none is empty or
`.`, none holds a slash, and `..` stands only before proper names. Segments in order are what
remains of the text that they are written as (`ContentLang.Path.reduce_unsplit`), so normal forms
are their own normal forms (`ContentLang.Path.normalize_normalize`). Whatever a path is resolved
to is in normal form (`ContentLang.Path.normalize_resolve`).
-/

namespace ContentLang

namespace Path

variable {s : Segment} {ss stack : List Segment} {cs : List Char}

/-! ### Segments of texts -/

theorem split_ne_nil (cs : List Char) : split cs ≠ [] := by
  cases cs with
  | nil => simp [split]
  | cons c r =>
    unfold split
    split
    · simp
    · split <;> simp

/-- A segment of a text is made of its characters, without slashes. -/
theorem mem_of_mem_split (h : s ∈ split cs) {c : Char} (hc : c ∈ s) : c ∈ cs ∧ c ≠ '/' := by
  induction cs generalizing s with
  | nil =>
    obtain rfl : s = [] := by simpa [split] using h
    exact absurd hc (by simp)
  | cons d r ih =>
    unfold split at h
    split at h
    next hd =>
      rcases List.mem_cons.mp h with rfl | h
      · exact absurd hc (by simp)
      · exact ⟨List.mem_cons_of_mem _ (ih h hc).1, (ih h hc).2⟩
    next hd =>
      cases hr : split r with
      | nil => exact absurd hr (split_ne_nil r)
      | cons t ts =>
        rw [hr] at h ih
        rcases List.mem_cons.mp h with rfl | h
        · rcases List.mem_cons.mp hc with rfl | hc
          · exact ⟨by simp, hd⟩
          · have hmem := ih (List.mem_cons_self ..) hc
            exact ⟨List.mem_cons_of_mem _ hmem.1, hmem.2⟩
        · have hmem := ih (List.mem_cons_of_mem _ h) hc
          exact ⟨List.mem_cons_of_mem _ hmem.1, hmem.2⟩

theorem split_of_noSlash (h : '/' ∉ s) : split s = [s] := by
  induction s with
  | nil => rfl
  | cons c s ih =>
    obtain ⟨hc, hs⟩ : ¬ '/' = c ∧ '/' ∉ s := by simpa using h
    rw [split, if_neg fun heq => hc heq.symm, ih hs]

theorem split_append (h : '/' ∉ s) (r : List Char) : split (s ++ '/' :: r) = s :: split r := by
  induction s with
  | nil => simp [split]
  | cons c s ih =>
    obtain ⟨hc, hs⟩ : ¬ '/' = c ∧ '/' ∉ s := by simpa using h
    rw [List.cons_append, split, if_neg fun heq => hc heq.symm, ih hs]

/-- Segments are those of the text that they are written as. -/
theorem split_unsplit (hss : ss ≠ []) (h : ∀ s ∈ ss, '/' ∉ s) : split (unsplit ss) = ss := by
  induction ss with
  | nil => exact absurd rfl hss
  | cons s ss ih =>
    obtain ⟨hs, h⟩ := List.forall_mem_cons.mp h
    cases ss with
    | nil => exact split_of_noSlash hs
    | cons t ts =>
      have hmore : split (unsplit (t :: ts)) = t :: ts := ih (by simp) h
      rw [unsplit, split_append hs, hmore]
      simp

theorem mem_unsplit {c : Char} (h : c ∈ unsplit ss) : c = '/' ∨ ∃ s ∈ ss, c ∈ s := by
  induction ss with
  | nil => exact absurd h (by simp [unsplit])
  | cons s ss ih =>
    cases ss with
    | nil => exact .inr ⟨s, by simp, h⟩
    | cons t ts =>
      have hparts : c ∈ s ∨ c = '/' ∨ c ∈ unsplit (t :: ts) := by simpa [unsplit] using h
      rcases hparts with h | rfl | h
      · exact .inr ⟨s, by simp, h⟩
      · exact .inl rfl
      · rcases ih h with h | ⟨u, hu, hc⟩
        · exact .inl h
        · exact .inr ⟨u, List.mem_cons_of_mem _ hu, hc⟩

/-- A path without a backslash is spelled with slashes already. -/
theorem map_slash (h : '\\' ∉ cs) : cs.map slash = cs :=
  (List.map_congr_left fun _ hc => if_neg (ne_of_mem_of_not_mem hc h)).trans (List.map_id cs)

/-- The segments that a path is written with. -/
def segments (cs : List Char) : List Segment := split (cs.map slash)

/-- The segments of a path hold no slash of either kind. -/
theorem noSlash_of_mem_segments (h : s ∈ segments cs) : ∀ c ∈ s, c ≠ '/' ∧ c ≠ '\\' := by
  intro c hc
  obtain ⟨hmem, hslash⟩ := mem_of_mem_split h hc
  obtain ⟨d, -, rfl⟩ := List.mem_map.mp hmem
  refine ⟨hslash, ?_⟩
  unfold slash
  split
  · decide
  next hd => exact hd

/-! ### Segments in order -/

/-- Whether segments, the last one on top, are **in order**: each is one that a normal form may
have, and `..` has nothing but `..` below it. -/
structure InOrder (stack : List Segment) : Prop where
  ne_nil : ∀ s ∈ stack, s ≠ []
  ne_current : ∀ s ∈ stack, s ≠ ['.']
  noSlash : ∀ s ∈ stack, ∀ c ∈ s, c ≠ '/' ∧ c ≠ '\\'
  parents : stack.Pairwise fun s t => s = ['.', '.'] → t = ['.', '.']

theorem inOrder_nil : InOrder [] := ⟨by simp, by simp, by simp, .nil⟩

/-- What is below is in order too. -/
theorem InOrder.below (h : InOrder (ss ++ stack)) : InOrder stack where
  ne_nil s hs := h.ne_nil s (List.mem_append_right _ hs)
  ne_current s hs := h.ne_current s (List.mem_append_right _ hs)
  noSlash s hs := h.noSlash s (List.mem_append_right _ hs)
  parents := (List.pairwise_append.mp h.parents).2.1

theorem InOrder.tail (h : InOrder (s :: stack)) : InOrder stack :=
  below (show InOrder ([s] ++ stack) from h)

/-- A segment in order is put on the stack as it is. -/
theorem push_of_inOrder (h : InOrder (s :: stack)) : push stack s = s :: stack := by
  have hs : ¬ (s = [] ∨ s = ['.']) := by
    rw [not_or]
    exact ⟨h.ne_nil s (by simp), h.ne_current s (by simp)⟩
  unfold push
  rw [if_neg hs]
  split
  next hparent =>
    cases stack with
    | nil => rw [hparent]
    | cons last rest =>
      have hlast := (List.pairwise_cons.mp h.parents).1 last (by simp) hparent
      simp only [hlast, if_true]
  next => rfl

/-- **Pushing keeps segments in order.** -/
theorem InOrder.push (h : InOrder stack) (hs : ∀ c ∈ s, c ≠ '/' ∧ c ≠ '\\') :
    InOrder (push stack s) := by
  have hcons : s ≠ [] → s ≠ ['.'] → (s = ['.', '.'] → ∀ t ∈ stack, t = ['.', '.']) →
      InOrder (s :: stack) := fun hnil hcurrent hparents =>
    ⟨List.forall_mem_cons.mpr ⟨hnil, h.ne_nil⟩, List.forall_mem_cons.mpr ⟨hcurrent, h.ne_current⟩,
      List.forall_mem_cons.mpr ⟨hs, h.noSlash⟩,
      List.pairwise_cons.mpr ⟨fun t ht hparent => hparents hparent t ht, h.parents⟩⟩
  unfold Path.push
  split
  next => exact h
  next hother =>
    obtain ⟨hnil, hcurrent⟩ := not_or.mp hother
    split
    next hparent =>
      cases stack with
      | nil => exact hcons hnil hcurrent (by simp)
      | cons last rest =>
        dsimp only
        split
        next hlast =>
          refine hcons hnil hcurrent fun _ => List.forall_mem_cons.mpr ⟨hlast, fun t ht => ?_⟩
          exact (List.pairwise_cons.mp h.parents).1 t ht hlast
        next => exact h.tail
    next hparent => exact hcons hnil hcurrent fun h => absurd h hparent

theorem InOrder.foldl_push (h : InOrder stack) (hss : ∀ s ∈ ss, ∀ c ∈ s, c ≠ '/' ∧ c ≠ '\\') :
    InOrder (ss.foldl Path.push stack) := by
  induction ss generalizing stack with
  | nil => exact h
  | cons s ss ih =>
    obtain ⟨hs, hss⟩ := List.forall_mem_cons.mp hss
    exact ih (h.push hs) hss

/-- Segments in order are put on the stack as they are. -/
theorem foldl_push_of_inOrder (h : InOrder (ss.reverse ++ stack)) :
    ss.foldl push stack = ss.reverse ++ stack := by
  induction ss generalizing stack with
  | nil => rfl
  | cons s ss ih =>
    rw [List.reverse_cons, List.append_assoc, List.singleton_append] at h
    rw [List.foldl_cons, push_of_inOrder h.below, ih h, List.reverse_cons, List.append_assoc,
      List.singleton_append]

/-- **What remains of a path is in order.** -/
theorem inOrder_reduce (cs : List Char) : InOrder (reduce cs).reverse := by
  rw [reduce, List.reverse_reverse]
  exact inOrder_nil.foldl_push fun s => noSlash_of_mem_segments

/-! ### Normal forms -/

/-- **Segments in order are what remains of the text that they are written as.** -/
theorem reduce_unsplit (h : InOrder ss.reverse) : reduce (unsplit ss) = ss := by
  have hplain : ∀ s ∈ ss, ∀ c ∈ s, c ≠ '/' ∧ c ≠ '\\' := fun s hs =>
    h.noSlash s (List.mem_reverse.mpr hs)
  have hback : '\\' ∉ unsplit ss := by
    intro hc
    rcases mem_unsplit hc with hc | ⟨s, hs, hc⟩
    · exact absurd hc (by decide)
    · exact (hplain s hs _ hc).2 rfl
  rw [reduce, map_slash hback]
  cases ss with
  | nil => rfl
  | cons s ss =>
    rw [split_unsplit (by simp) fun s hs hc => (hplain s hs _ hc).1 rfl,
      foldl_push_of_inOrder (by simpa using h), List.append_nil, List.reverse_reverse]

theorem normalizeChars_normalizeChars (cs : List Char) :
    normalizeChars (normalizeChars cs) = normalizeChars cs := by
  rw [normalizeChars, normalizeChars, reduce_unsplit (inOrder_reduce cs)]

/-- **Normal forms are their own normal forms.** -/
theorem normalize_normalize (path : String) : normalize (normalize path) = normalize path := by
  simp only [normalize, String.toList_ofList, normalizeChars_normalizeChars]

/-- **Whatever a path is resolved to is in normal form.** -/
theorem normalize_resolve (file path : String) :
    normalize (resolve file path) = resolve file path := by
  simp only [normalize, resolve, String.toList_ofList]
  unfold resolveChars
  split
  · rw [normalizeChars_normalizeChars]
  · split
    · rw [normalizeChars_normalizeChars]
    · rw [normalizeChars_normalizeChars]

end Path

end ContentLang
