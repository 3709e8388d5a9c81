import ContentLang.Context
import Mathlib.Data.List.Induction

/-!
# Entries put over entries

What is found in entries after something was put into them, by whether the key looked for is equal
to the one that it was put under. Keys may be equal without being the same, so equality of keys
is only required to be an equivalence.

What entries come to that are put over others can be said without putting in one after the other
(`ContentLang.Entries.overlay_eq`): the old ones that are not replaced come first, and of the new
ones under equal keys the last one stays, where it is, and under the key that came first. Entries
that are put over nothing are **merged** in this way (`ContentLang.Entries.overlay_eq_merged`), and
it does not matter whether some of them were merged before (`ContentLang.Entries.overlay_overlay`).
No two keys become equal (`ContentLang.Entries.Distinct.overlay`).

The bindings of a context are entries whose keys are equal when they read the same.
-/

namespace ContentLang

namespace Entries

variable {κ ν : Type} [BEq κ] [EquivBEq κ] {m es fs : Entries κ ν} {k l : κ} {v : ν}

omit [EquivBEq κ] in
/-- What is found is there, under an equal key. -/
theorem exists_of_get? (h : get? m k = some v) : ∃ l, (l, v) ∈ m ∧ (l == k) = true := by
  obtain ⟨e, he, rfl⟩ := Option.map_eq_some_iff.mp h
  exact ⟨e.1, List.mem_of_find?_eq_some he, List.find?_some (p := fun e : κ × ν => e.1 == k) he⟩

/-- What was put under an equal key is found. -/
theorem get?_insert_of_beq (h : (k == l) = true) : get? (insert m k v) l = some v := by
  unfold get? insert
  split
  next old hold =>
    have hkey : (old.1 == l) = true :=
      PartialEquivBEq.trans (List.find?_some (p := fun e : κ × ν => e.1 == k) hold) h
    have hnone : List.find? (fun e => e.1 == l) (erase m k) = none := by
      refine List.find?_eq_none.mpr fun e he hel => ?_
      have hne := (List.mem_filter.mp he).2
      rw [PartialEquivBEq.trans hel (PartialEquivBEq.symm h)] at hne
      exact Bool.false_ne_true hne
    simp [find?, List.find?_append, hnone, hkey]
  next hnone =>
    have hnone' : List.find? (fun e => e.1 == l) m = none := by
      refine List.find?_eq_none.mpr fun e he hel => ?_
      exact List.find?_eq_none.mp hnone e he (PartialEquivBEq.trans hel (PartialEquivBEq.symm h))
    simp [find?, List.find?_append, hnone', h]

/-- Under other keys there is what there was before. -/
theorem get?_insert_of_ne (h : (k == l) = false) : get? (insert m k v) l = get? m l := by
  unfold get? insert
  split
  next old hold =>
    have hold' : (old.1 == k) = true := List.find?_some (p := fun e : κ × ν => e.1 == k) hold
    have hkey : (old.1 == l) = false := by
      rw [← Bool.not_eq_true]
      intro hl
      rw [PartialEquivBEq.trans (PartialEquivBEq.symm hold') hl] at h
      exact Bool.false_ne_true h.symm
    have hkept : ∀ e : κ × ν, (!(e.1 == k) && e.1 == l) = (e.1 == l) := by
      intro e
      cases hel : e.1 == l with
      | false => exact Bool.and_false _
      | true =>
        cases hek : e.1 == k with
        | false => rfl
        | true =>
          rw [PartialEquivBEq.trans (PartialEquivBEq.symm hek) hel] at h
          exact absurd h.symm Bool.false_ne_true
    simp [find?, erase, List.find?_append, List.find?_filter, hkept, hkey]
  next => simp [find?, List.find?_append, h]

omit [EquivBEq κ] in
theorem overlay_append (m es fs : Entries κ ν) :
    overlay m (es ++ fs) = overlay (overlay m es) fs := List.foldl_append

/-- **What is found after some entries were put over others** is the value of the last of them under
an equal key, or what was found before. -/
theorem get?_overlay_last (m es : Entries κ ν) (k : κ) :
    get? (overlay m es) k = (get? es.reverse k).or (get? m k) := by
  induction es using List.reverseRecOn with
  | nil => rfl
  | append_singleton es e ih =>
    have hlast : overlay m (es ++ [e]) = insert (overlay m es) e.1 e.2 := overlay_append m es [e]
    rw [hlast, List.reverse_concat]
    cases hek : e.1 == k with
    | true =>
      rw [get?_insert_of_beq hek]
      simp [get?, find?, hek]
    | false =>
      rw [get?_insert_of_ne hek, ih]
      simp [get?, find?, hek]

theorem get?_overlay_nil (es : Entries κ ν) (k : κ) :
    get? (overlay [] es) k = get? es.reverse k := by
  rw [get?_overlay_last]
  exact Option.or_none

/-- It is the same if the entries are put over nothing first. -/
theorem get?_overlay (m es : Entries κ ν) (l : κ) :
    get? (overlay m es) l = (get? (overlay [] es) l).or (get? m l) := by
  rw [get?_overlay_last, get?_overlay_nil]

/-- What is found among entries that were put over nothing is one of them. -/
theorem exists_of_get?_overlay (h : get? (overlay [] es) l = some v) :
    ∃ k, (k, v) ∈ es ∧ (k == l) = true := by
  rw [get?_overlay_nil] at h
  obtain ⟨k, hk, hkl⟩ := exists_of_get? h
  exact ⟨k, List.mem_reverse.mp hk, hkl⟩

/-! ### Keys that come first -/

/-- The first key that is equal to a given one. -/
def key? (m : Entries κ ν) (k : κ) : Option κ := (find? m k).map (·.1)

omit [EquivBEq κ] in
theorem beq_of_key? (h : key? m k = some l) : (l == k) = true := by
  obtain ⟨e, he, rfl⟩ := Option.map_eq_some_iff.mp h
  exact List.find?_some (p := fun e : κ × ν => e.1 == k) he

theorem beq_getD_key? (m : Entries κ ν) (k : κ) : ((key? m k).getD k == k) = true := by
  cases h : key? m k with
  | none => exact BEq.rfl
  | some l => exact beq_of_key? h

theorem key?_congr (m : Entries κ ν) (h : (k == l) = true) : key? m k = key? m l := by
  unfold key? find?
  simp only [BEq.congr_right h]

theorem erase_congr (m : Entries κ ν) (h : (k == l) = true) : erase m k = erase m l := by
  unfold erase
  simp only [BEq.congr_right h]

omit [EquivBEq κ] in
theorem key?_append (m es : Entries κ ν) (l : κ) :
    key? (m ++ es) l = (key? m l).or (key? es l) := by
  unfold key? find?
  rw [List.find?_append, Option.map_or]

omit [EquivBEq κ] in
theorem key?_singleton (k : κ) (v : ν) (l : κ) :
    key? [(k, v)] l = if k == l then some k else none := by
  unfold key? find?
  rw [List.find?_singleton]
  exact apply_ite (Option.map _) _ _ _

omit [EquivBEq κ] in
theorem key?_erase_self (m : Entries κ ν) (k : κ) : key? (erase m k) k = none := by
  simp [key?, find?, erase]

theorem key?_erase_of_ne (m : Entries κ ν) (h : (k == l) = false) :
    key? (erase m k) l = key? m l := by
  have hkept : ∀ e : κ × ν, (!(e.1 == k) && e.1 == l) = (e.1 == l) := by
    intro e
    cases hel : e.1 == l with
    | false => exact Bool.and_false _
    | true => rw [BEq.congr_left hel, BEq.comm, h]; rfl
  simp [key?, find?, erase, List.find?_filter, hkept]

omit [EquivBEq κ] in
/-- A value is put at the end, under the key that came first. -/
theorem insert_eq (m : Entries κ ν) (k : κ) (v : ν) :
    insert m k v = erase m k ++ [((key? m k).getD k, v)] := by
  unfold insert key?
  cases h : find? m k with
  | some old => rfl
  | none =>
    have hkept : erase m k = m := by
      refine List.filter_eq_self.mpr fun e he => ?_
      simpa using List.find?_eq_none.mp h e he
    rw [hkept]
    rfl

theorem key?_insert (m : Entries κ ν) (k : κ) (v : ν) (l : κ) :
    key? (insert m k v) l = (key? m l).or (if k == l then some k else none) := by
  rw [insert_eq, key?_append, key?_singleton]
  cases hkl : k == l with
  | false =>
    rw [key?_erase_of_ne m hkl, (BEq.congr_left (beq_getD_key? m k)).trans hkl]
    rfl
  | true =>
    rw [← key?_congr _ hkl, key?_erase_self, ← BEq.congr_right hkl, beq_getD_key?,
      ← key?_congr m hkl]
    cases key? m k <;> rfl

theorem key?_overlay (m es : Entries κ ν) (l : κ) :
    key? (overlay m es) l = (key? m l).or (key? es l) := by
  induction es generalizing m with
  | nil => exact (Option.or_none).symm
  | cons e es ih =>
    calc key? (overlay (insert m e.1 e.2) es) l
      _ = (key? (insert m e.1 e.2) l).or (key? es l) := ih _
      _ = (key? m l).or ((key? [e] l).or (key? es l)) := by
        rw [key?_insert, Option.or_assoc, key?_singleton]
      _ = (key? m l).or (key? (e :: es) l) := by rw [← key?_append, List.singleton_append]

/-! ### Keys that differ -/

/-- Whether no two keys are equal. -/
def Distinct (m : Entries κ ν) : Prop := (keys m).Pairwise fun k l => (k == l) = false

/-- **Putting in a value keeps keys distinct.** -/
theorem Distinct.insert (h : Distinct m) (k : κ) (v : ν) : Distinct (insert m k v) := by
  unfold Distinct keys at h ⊢
  rw [insert_eq, List.map_append, List.pairwise_append]
  refine ⟨h.sublist (List.filter_sublist.map _), List.pairwise_singleton _ _, fun l hl => ?_⟩
  obtain ⟨e, he, rfl⟩ := List.mem_map.mp hl
  have hne : (e.1 == k) = false := by simpa using (List.mem_filter.mp he).2
  simpa [BEq.congr_right (beq_getD_key? m k)] using hne

theorem Distinct.overlay (h : Distinct m) (es : Entries κ ν) : Distinct (overlay m es) := by
  induction es generalizing m with
  | nil => exact h
  | cons e es ih => exact ih (h.insert e.1 e.2)

/-- Where keys differ, entries under equal keys are one and the same. -/
theorem Distinct.eq_of_beq (h : Distinct m) {e f : κ × ν} (he : e ∈ m) (hf : f ∈ m)
    (hef : (e.1 == f.1) = true) : e = f := by
  induction m with
  | nil => exact absurd he List.not_mem_nil
  | cons d m ih =>
    obtain ⟨hd, hm⟩ := List.pairwise_cons.mp h
    have hne : ∀ f ∈ m, (d.1 == f.1) = false := fun f hf => hd f.1 (List.mem_map_of_mem hf)
    cases he with
    | head =>
      cases hf with
      | head => rfl
      | tail _ hf => exact absurd hef (by simp [hne f hf])
    | tail _ he =>
      cases hf with
      | head => exact absurd (PartialEquivBEq.symm hef) (by simp [hne e he])
      | tail _ hf => exact ih hm he hf

/-! ### Merged entries -/

omit [EquivBEq κ] in
theorem erase_append (m es : Entries κ ν) (k : κ) : erase (m ++ es) k = erase m k ++ erase es k :=
  List.filter_append _ _

omit [EquivBEq κ] in
theorem erase_comm (m : Entries κ ν) (k l : κ) : erase (erase m k) l = erase (erase m l) k := by
  simp only [erase, List.filter_filter, Bool.and_comm]

omit [EquivBEq κ] in
theorem erase_erase (m : Entries κ ν) (k : κ) : erase (erase m k) k = erase m k := by
  simp only [erase, List.filter_filter, Bool.and_self]

theorem erase_insert (m : Entries κ ν) (k : κ) (v : ν) (l : κ) :
    erase (insert m k v) l = if k == l then erase m l else insert (erase m l) k v := by
  have hlast : (k == l) = ((key? m k).getD k == l) := (BEq.congr_left (beq_getD_key? m k)).symm
  rw [insert_eq, erase_append]
  split
  next h =>
    rw [erase_congr m h]
    simp [erase, ← hlast, h]
  next h =>
    have hlk : (l == k) = false := by rw [BEq.comm]; simpa using h
    rw [insert_eq, key?_erase_of_ne m hlk, erase_comm]
    simp [erase, ← hlast, h]

theorem erase_overlay (m es : Entries κ ν) (k : κ) :
    erase (overlay m es) k = overlay (erase m k) (erase es k) := by
  induction es generalizing m with
  | nil => rfl
  | cons e es ih =>
    show erase (overlay (insert m e.1 e.2) es) k = _
    rw [ih, erase_insert]
    cases h : e.1 == k <;> simp [erase, h, overlay]

theorem overlay_insert (m es : Entries κ ν) (k : κ) (v : ν) :
    overlay m (insert es k v) = insert (overlay m es) k v := by
  have hkey := beq_getD_key? es k
  calc overlay m (insert es k v)
    _ = insert (overlay m (erase es k)) ((key? es k).getD k) v := by
      rw [insert_eq, overlay_append]
      rfl
    _ = overlay (erase m k) (erase es k) ++ [((key? m k).getD ((key? es k).getD k), v)] := by
      rw [insert_eq, erase_congr _ hkey, key?_congr _ hkey, erase_overlay, key?_overlay,
        key?_erase_self, Option.or_none, erase_erase]
    _ = insert (overlay m es) k v := by
      rw [insert_eq, erase_overlay, key?_overlay, Option.getD_or]

/-- **Entries may be merged before they are put over others.** -/
theorem overlay_overlay (m es fs : Entries κ ν) :
    overlay m (overlay es fs) = overlay (overlay m es) fs := by
  induction fs generalizing es with
  | nil => rfl
  | cons f fs ih =>
    show overlay m (overlay (insert es f.1 f.2) fs) = overlay (insert (overlay m es) f.1 f.2) fs
    rw [ih, overlay_insert]

/-- The entries that have no later one under an equal key. -/
def latest : Entries κ ν → Entries κ ν
  | [] => []
  | e :: es => if contains es e.1 then latest es else e :: latest es

/-- **Entries, each key once**: the last under each key, with the key that came first. -/
def merged (es : Entries κ ν) : Entries κ ν :=
  (latest es).map fun e => ((key? es e.1).getD e.1, e.2)

omit [EquivBEq κ] in
theorem mem_of_mem_latest {e : κ × ν} (h : e ∈ latest es) : e ∈ es := by
  induction es with
  | nil => exact h
  | cons f es ih =>
    rw [latest] at h
    split at h
    · exact List.mem_cons_of_mem f (ih h)
    · exact List.mem_cons.mpr ((List.mem_cons.mp h).imp id ih)

omit [EquivBEq κ] in
/-- Where equal keys are the same, it does not matter which of them came first. -/
theorem merged_eq_latest (h : ∀ e ∈ es, ∀ f ∈ es, (e.1 == f.1) = true → e.1 = f.1) :
    merged es = latest es := by
  refine (List.map_congr_left fun e he => ?_).trans (List.map_id _)
  cases hkey : key? es e.1 with
  | none => rfl
  | some l =>
    obtain ⟨f, hf, rfl⟩ := Option.map_eq_some_iff.mp hkey
    have hfirst := h f (List.mem_of_find?_eq_some hf) e (mem_of_mem_latest he)
      (List.find?_some (p := fun f : κ × ν => f.1 == e.1) hf)
    exact Prod.ext hfirst rfl

theorem latest_concat (es : Entries κ ν) (k : κ) (v : ν) :
    latest (es ++ [(k, v)]) = erase (latest es) k ++ [(k, v)] := by
  induction es with
  | nil => rfl
  | cons e es ih =>
    have hcontains : contains (es ++ [(k, v)]) e.1 = (contains es e.1 || e.1 == k) := by
      rw [contains, find?, List.find?_append, Option.isSome_or, List.find?_singleton, BEq.comm]
      cases e.1 == k <;> rfl
    rw [List.cons_append, latest, latest, hcontains, ih]
    cases contains es e.1 <;> cases hek : e.1 == k <;> simp [erase, hek]

omit [EquivBEq κ] in
theorem contains_iff : contains m k = true ↔ ∃ e ∈ m, (e.1 == k) = true := by
  rw [contains, find?, List.find?_isSome]

/-- Under every key there is a last entry. -/
theorem exists_mem_latest (h : contains es k = true) : ∃ e ∈ latest es, (e.1 == k) = true := by
  induction es with
  | nil => exact absurd h Bool.false_ne_true
  | cons e es ih =>
    rw [latest]
    cases hlater : contains es e.1 with
    | true =>
      refine ih ?_
      obtain ⟨f, hf, hfk⟩ := contains_iff.mp h
      rcases List.mem_cons.mp hf with rfl | hf
      · obtain ⟨g, hg, hgf⟩ := contains_iff.mp hlater
        exact contains_iff.mpr ⟨g, hg, PartialEquivBEq.trans hgf hfk⟩
      · exact contains_iff.mpr ⟨f, hf, hfk⟩
    | false =>
      obtain ⟨f, hf, hfk⟩ := contains_iff.mp h
      rcases List.mem_cons.mp hf with rfl | hf
      · exact ⟨f, List.mem_cons_self, hfk⟩
      · obtain ⟨l, hl, hlk⟩ := ih (contains_iff.mpr ⟨f, hf, hfk⟩)
        exact ⟨l, List.mem_cons_of_mem e hl, hlk⟩

/-- Entries may be left out before or after only the last under each key are taken, if with the last
one under a key all those under it are left out. -/
theorem latest_filterMap {g : κ × ν → Option (κ × ν)}
    (hg : ∀ e e', g e = some e' → (e'.1 == e.1) = true)
    (h : ∀ e ∈ latest es, g e = none → ∀ f ∈ es, (f.1 == e.1) = true → g f = none) :
    (latest es).filterMap g = latest (es.filterMap g) := by
  induction es with
  | nil => rfl
  | cons e es ih =>
    have hsub : ∀ f ∈ latest es, f ∈ latest (e :: es) := fun f hf => by
      rw [latest]
      split
      · exact hf
      · exact List.mem_cons_of_mem e hf
    have ih := ih fun f hf hnone f' hf' => h f (hsub f hf) hnone f' (List.mem_cons_of_mem e hf')
    cases he : g e with
    | none =>
      rw [List.filterMap_cons_none he, ← ih, latest]
      split
      · rfl
      · rw [List.filterMap_cons_none he]
    | some e' =>
      -- What is left of an entry has a later one exactly if the entry has.
      have hlater : contains (es.filterMap g) e'.1 = contains es e.1 := by
        rw [Bool.eq_iff_iff]
        constructor
        · intro hleft
          obtain ⟨f', hf', hkey⟩ := contains_iff.mp hleft
          obtain ⟨f, hf, hff'⟩ := List.mem_filterMap.mp hf'
          exact contains_iff.mpr ⟨f, hf, PartialEquivBEq.trans
            (PartialEquivBEq.trans (PartialEquivBEq.symm (hg f f' hff')) hkey) (hg e e' he)⟩
        · intro hes
          obtain ⟨l, hl, hle⟩ := exists_mem_latest hes
          cases hleft : g l with
          | none =>
            have hnone := h l (hsub l hl) hleft e List.mem_cons_self (PartialEquivBEq.symm hle)
            exact absurd (he.symm.trans hnone) (Option.some_ne_none e')
          | some l' =>
            exact contains_iff.mpr ⟨l', List.mem_filterMap.mpr ⟨l, mem_of_mem_latest hl, hleft⟩,
              PartialEquivBEq.trans (PartialEquivBEq.trans (hg l l' hleft) hle)
                (PartialEquivBEq.symm (hg e e' he))⟩
      rw [List.filterMap_cons_some he, latest, latest, hlater, ← ih]
      split
      · rfl
      · exact List.filterMap_cons_some he

/-- No two last entries are under equal keys. -/
theorem distinct_latest (es : Entries κ ν) : Distinct (latest es) := by
  induction es with
  | nil => exact List.Pairwise.nil
  | cons e es ih =>
    rw [latest]
    cases hlater : contains es e.1 with
    | true => exact ih
    | false =>
      refine List.pairwise_cons.mpr ⟨fun k hk => ?_, ih⟩
      obtain ⟨f, hf, rfl⟩ := List.mem_map.mp hk
      rw [← Bool.not_eq_true]
      exact fun hkey => absurd (contains_iff.mpr ⟨f, mem_of_mem_latest hf,
        PartialEquivBEq.symm hkey⟩) (by simp [hlater])

/-- Where the last entry under a key is left out, no other one takes its place. -/
theorem not_contains_latest {g : κ × ν → Option (κ × ν)}
    (hg : ∀ e e', g e = some e' → (e'.1 == e.1) = true) {e : κ × ν} (he : e ∈ latest es)
    (hnone : g e = none) : contains ((latest es).filterMap g) e.1 = false := by
  rw [← Bool.not_eq_true]
  intro hcontains
  obtain ⟨l', hl', hkey⟩ := contains_iff.mp hcontains
  obtain ⟨l, hl, hll'⟩ := List.mem_filterMap.mp hl'
  have hle : (l.1 == e.1) = true :=
    PartialEquivBEq.trans (PartialEquivBEq.symm (hg l l' hll')) hkey
  rw [(distinct_latest es).eq_of_beq hl he hle, hnone] at hll'
  cases hll'

/-- **What entries come to that are put over others**: the old ones that are not replaced, in their
order; then the new ones that have no later one under an equal key, each under the key that came
first. -/
theorem overlay_eq (m es : Entries κ ν) :
    overlay m es = m.filter (fun e => !contains es e.1) ++
      (latest es).map fun e => ((key? (m ++ es) e.1).getD e.1, e.2) := by
  induction es using List.reverseRecOn with
  | nil =>
    have hall : m.filter (fun e => !contains ([] : Entries κ ν) e.1) = m :=
      List.filter_eq_self.mpr fun _ _ => rfl
    rw [hall]
    exact (List.append_nil m).symm
  | append_singleton es e ih =>
    obtain ⟨k, v⟩ := e
    have hcontains : ∀ l, contains (es ++ [(k, v)]) l = (contains es l || k == l) := fun l => by
      rw [contains, find?, List.find?_append, Option.isSome_or, List.find?_singleton]
      cases k == l <;> rfl
    have hkey : ∀ l, key? (m ++ (es ++ [(k, v)])) l =
        (key? (m ++ es) l).or (if k == l then some k else none) := fun l => by
      rw [← List.append_assoc, key?_append (m ++ es), key?_singleton]
    -- The new entry takes away what it replaces from the old ones, and from the new ones.
    have hold : erase (m.filter fun e => !contains es e.1) k =
        m.filter fun e => !contains (es ++ [(k, v)]) e.1 := by
      simp only [erase, List.filter_filter, hcontains, Bool.not_or, Bool.and_comm,
        BEq.comm (a := k)]
    have hnew : erase ((latest es).map fun e => ((key? (m ++ es) e.1).getD e.1, e.2)) k =
        (erase (latest es) k).map fun e => ((key? (m ++ (es ++ [(k, v)])) e.1).getD e.1, e.2) := by
      unfold erase
      rw [List.filter_map]
      simp only [Function.comp_def, BEq.congr_left (beq_getD_key? (m ++ es) _)]
      refine List.map_congr_left fun e he => ?_
      have hne : (k == e.1) = false := by simpa [BEq.comm] using (List.mem_filter.mp he).2
      rw [hkey, hne, if_neg Bool.false_ne_true, Option.or_none]
    calc overlay m (es ++ [(k, v)])
      _ = insert (overlay m es) k v := overlay_append m es [(k, v)]
      _ = erase (overlay m es) k ++ [((key? (m ++ es) k).getD k, v)] := by
        rw [insert_eq, key?_overlay, key?_append]
      _ = m.filter (fun e => !contains (es ++ [(k, v)]) e.1) ++
          (latest (es ++ [(k, v)])).map fun e =>
            ((key? (m ++ (es ++ [(k, v)])) e.1).getD e.1, e.2) := by
        rw [ih, erase_append, hold, hnew, latest_concat, List.map_append, List.append_assoc]
        simp [hkey, Option.getD_or]

/-- **What entries come to when they are put in one after the other** is what they are merged to. -/
theorem overlay_eq_merged (es : Entries κ ν) : overlay [] es = merged es := overlay_eq [] es

end Entries

/-! ### Names of bindings -/

/-- What a label reads. -/
def Label.reading (k : Label) : String × Bool := (k.value, k.isContent)

theorem Label.beq_eq (k l : Label) : (k == l) = decide (k.reading = l.reading) := by
  rw [Bool.eq_iff_iff, decide_eq_true_eq, Label.reading, Label.reading, Prod.mk.injEq]
  show (k.value == l.value && k.isContent == l.isContent) = true ↔ _
  simp

theorem Label.beq_iff {k l : Label} : (k == l) = true ↔ k.reading = l.reading := by
  rw [Label.beq_eq, decide_eq_true_eq]

instance : EquivBEq Label where
  rfl := Label.beq_iff.mpr rfl
  symm h := Label.beq_iff.mpr (Label.beq_iff.mp h).symm
  trans h h' := Label.beq_iff.mpr ((Label.beq_iff.mp h).trans (Label.beq_iff.mp h'))

namespace Context

variable {ctx : Context} {t a : Token} {n : Node}

/-- A name that was just bound is bound to the value. -/
theorem get?_bind_self (h : t.label.reading = a.label.reading) :
    (ctx.bind t n).get? a = some n :=
  Entries.get?_insert_of_beq (Label.beq_iff.mpr h)

/-- Other names are bound to what they were bound to before. -/
theorem get?_bind_of_ne (h : t.label.reading ≠ a.label.reading) :
    (ctx.bind t n).get? a = ctx.get? a :=
  Entries.get?_insert_of_ne ((Label.beq_eq _ _).trans (decide_eq_false h))

/-- **A token that reads like the one a value was just bound under** is bound to the value. -/
theorem get?_bind_of_beq (h : (a == t) = true) : (ctx.bind t n).get? a = some n := by
  have hlabel : (a.label == t.label) = true := h
  exact get?_bind_self (Label.beq_iff.mp hlabel).symm

end Context

end ContentLang
