import ContentLang.Proofs.Nodes.Bare
import Mathlib.Data.List.Pairwise
import Mathlib.Data.List.Perm.Subperm

/-!
# Identities that stay apart

The identity of a node is the place where the node was written. What is copied from there is
marked: by an `Include` that puts the elements of a file in its place, and by a `^` that puts
the value of a binding there, the identity of the call and a `>` are put before every identity
in the copy. So identities are chains, and one of them lies **within** another
(`ContentLang.Uid.Within`) if it is that one, or was marked with it.

Two identities of which neither lies within the other are **apart** (`ContentLang.Uid.Apart`).
That is more than being different, and it is what marking preserves: whatever comes to lie within
two identities that are apart is apart as well (`ContentLang.Uid.Apart.of_within`). The
identities that a walk makes **stem** from those it was given (`ContentLang.Uid.Stems`) if they
are apart from one another and each lies within one of the given ones.
-/

namespace ContentLang

/-! ### Two identities -/

namespace Uid

variable {u v w u' v' : String}

/-- Whether an identity is another one, or is marked with it: `u>` is where `v>` begins. -/
def Within (v u : String) : Prop := (u ++ ">").toList <+: (v ++ ">").toList

theorem Within.refl (u : String) : Within u u := List.prefix_refl _

theorem Within.trans (h : Within w v) (h' : Within v u) : Within w u := List.IsPrefix.trans h' h

/-- What is marked with an identity lies within it. -/
theorem within_marked (u v : String) : Within (u ++ ">" ++ v) u := by
  refine ⟨(v ++ ">").toList, ?_⟩
  simp [String.toList_append]

/-- A mark before two identities changes nothing between them. -/
theorem within_mark_iff (mark : String) : Within (mark ++ v) (mark ++ u) ↔ Within v u := by
  simp only [Within, String.toList_append, List.append_assoc]
  exact List.prefix_append_right_inj _

/-- Nothing that is marked with an identity is that identity. -/
theorem marked_ne (u v : String) : u ++ ">" ++ v ≠ u := by
  intro h
  have hlength := congrArg List.length (String.toList_inj.mpr h)
  simp at hlength

/-- Whether neither of two identities lies within the other. -/
def Apart (u v : String) : Prop := ¬ Within u v ∧ ¬ Within v u

theorem Apart.symm (h : Apart u v) : Apart v u := And.symm h

theorem Apart.ne (h : Apart u v) : u ≠ v := by
  rintro rfl
  exact h.1 (.refl u)

/-- **What lies within identities that are apart is apart.** Of two identities that a third one
lies within, one lies within the other. -/
theorem Apart.of_within (h : Apart u v) (hu : Within u' u) (hv : Within v' v) : Apart u' v' := by
  have hmeet : ∀ {w}, Within w u → ¬ Within w v := fun hwu hwv =>
    (List.prefix_or_prefix_of_prefix hwu hwv).elim h.2 h.1
  exact ⟨fun huv => hmeet hu (huv.trans hv), fun hvu => hmeet (hvu.trans hu) hv⟩

theorem apart_mark_iff (mark : String) : Apart (mark ++ u) (mark ++ v) ↔ Apart u v := by
  rw [Apart, Apart, within_mark_iff, within_mark_iff]

/-! ### Lists of identities -/

variable {us vs ws us' vs' : List String}

/-- Whether no two of some identities meet. -/
abbrev AllApart (us : List String) : Prop := us.Pairwise Apart

theorem AllApart.subperm (h : AllApart us) (hvs : vs.Subperm us) : AllApart vs := by
  obtain ⟨ws, hws, hsub⟩ := hvs
  exact (h.sublist hsub).perm hws Apart.symm

theorem AllApart.nodup (h : AllApart us) : us.Nodup := h.imp Apart.ne

/-- Of some identities that are apart none lies within another one. -/
theorem AllApart.eq_of_within (h : AllApart us) (hv : v ∈ us) (hu : u ∈ us) (hvu : Within v u) :
    v = u := by
  by_contra hne
  have : Std.Symm Apart := ⟨fun _ _ => Apart.symm⟩
  exact (h.forall hu hv (Ne.symm hne)).2 hvu

theorem AllApart.mark (h : AllApart us) (mark : String) : AllApart (us.map (mark ++ ·)) :=
  List.pairwise_map.mpr (h.imp (apart_mark_iff mark).mpr)

/-- **Whether identities stem from others**: they are apart, and each lies within one of those. -/
structure Stems (us vs : List String) : Prop where
  apart : AllApart vs
  within : ∀ v ∈ vs, ∃ u ∈ us, Within v u

theorem stems_nil (us : List String) : Stems us [] := ⟨.nil, by simp⟩

theorem Stems.refl (h : AllApart us) : Stems us us := ⟨h, fun v hv => ⟨v, hv, .refl v⟩⟩

theorem Stems.trans (h : Stems us vs) (h' : Stems vs ws) : Stems us ws := by
  refine ⟨h'.apart, fun w hw => ?_⟩
  obtain ⟨v, hv, hwv⟩ := h'.within w hw
  obtain ⟨u, hu, hvu⟩ := h.within v hv
  exact ⟨u, hu, hwv.trans hvu⟩

theorem Stems.subperm (h : Stems us vs) (hws : ws.Subperm vs) : Stems us ws :=
  ⟨h.apart.subperm hws, fun w hw => h.within w (hws.subset hw)⟩

theorem Stems.mono (h : Stems us vs) (hus : us ⊆ us') : Stems us' vs :=
  ⟨h.apart, fun v hv => (h.within v hv).imp fun _ hu => ⟨hus hu.1, hu.2⟩⟩

/-- What stems from two lists that are apart can be put together. -/
theorem Stems.append (hus : AllApart (us ++ us')) (h : Stems us vs) (h' : Stems us' vs') :
    Stems (us ++ us') (vs ++ vs') := by
  obtain ⟨-, -, hcross⟩ := List.pairwise_append.mp hus
  refine ⟨List.pairwise_append.mpr ⟨h.apart, h'.apart, fun v hv v' hv' => ?_⟩, ?_⟩
  · obtain ⟨u, hu, hvu⟩ := h.within v hv
    obtain ⟨u', hu', hvu'⟩ := h'.within v' hv'
    exact (hcross u hu u' hu').of_within hvu hvu'
  · intro v hv
    rcases List.mem_append.mp hv with hv | hv
    · exact (h.within v hv).imp fun _ hu => ⟨List.mem_append_left _ hu.1, hu.2⟩
    · exact (h'.within v hv).imp fun _ hu => ⟨List.mem_append_right _ hu.1, hu.2⟩

/-- An identity that stays, before what stems from the others. -/
theorem Stems.cons (hus : AllApart (u :: us)) (h : Stems us vs) : Stems (u :: us) (u :: vs) :=
  Stems.append hus (Stems.refl (List.pairwise_singleton Apart u)) h

/-- Copies that are marked with an identity stem from it. -/
theorem stems_marked (u : String) (h : AllApart vs) : Stems [u] (vs.map (u ++ ">" ++ ·)) := by
  refine ⟨h.mark _, fun v hv => ?_⟩
  obtain ⟨v, -, rfl⟩ := List.mem_map.mp hv
  exact ⟨u, List.mem_singleton_self u, within_marked u v⟩

end Uid

/-! ### The identities in a node -/

namespace Node

/-- The identities of the calls in a node. -/
def uids (n : Node) : List String := n.calls.map (·.origin.uid)

/-- The identities of the calls in a list of nodes. -/
def uidsOfAll (ns : List Node) : List String := ns.flatMap uids

/-- The identities of the calls in the values of entries. -/
def uidsOfEntries (es : List (Token × Node)) : List String := es.flatMap (uids ·.2)

end Node

/-- The identities of a call and of what is in its parameters. -/
def Call.uids (c : Call) : List String := c.origin.uid :: Node.uidsOfAll c.params

namespace Node

section

variable {n : Node} {ns ms : List Node} {k : Token} {es fs : List (Token × Node)} {o : Origin}

@[simp] theorem uidsOfAll_nil : uidsOfAll [] = [] := rfl

@[simp] theorem uidsOfAll_cons : uidsOfAll (n :: ns) = n.uids ++ uidsOfAll ns :=
  List.flatMap_cons

@[simp] theorem uidsOfAll_append : uidsOfAll (ns ++ ms) = uidsOfAll ns ++ uidsOfAll ms :=
  List.flatMap_append

@[simp] theorem uidsOfEntries_nil : uidsOfEntries [] = [] := rfl

@[simp] theorem uidsOfEntries_cons :
    uidsOfEntries ((k, n) :: es) = n.uids ++ uidsOfEntries es :=
  List.flatMap_cons

@[simp] theorem uidsOfEntries_append :
    uidsOfEntries (es ++ fs) = uidsOfEntries es ++ uidsOfEntries fs :=
  List.flatMap_append

theorem map_callsOfAll (ns : List Node) : (callsOfAll ns).map (·.origin.uid) = uidsOfAll ns := by
  rw [callsOfAll_eq, List.map_flatMap]
  rfl

theorem map_callsOfEntries (es : List (Token × Node)) :
    (callsOfEntries es).map (·.origin.uid) = uidsOfEntries es := by
  rw [callsOfEntries_eq, List.map_flatMap]
  rfl

@[simp] theorem uids_token (t : Token) : (token t).uids = [] := by simp [uids, calls]

@[simp] theorem uids_call (f : String) (ps : List Node) :
    (call f ps o).uids = o.uid :: uidsOfAll ps := by
  simp [uids, calls, map_callsOfAll]

@[simp] theorem uids_statement (f : String) (ps : List Node) (data : Node) :
    (statement f ps o data).uids = o.uid :: (uidsOfAll ps ++ data.uids) := by
  simp [uids, calls, map_callsOfAll]

@[simp] theorem uids_block : (block es o).uids = uidsOfEntries es := by
  simp [uids, calls, map_callsOfEntries]

@[simp] theorem uids_array : (array ns o).uids = uidsOfAll ns := by
  simp [uids, calls, map_callsOfAll]

theorem uids_ofCall (c : Call) : (ofCall c).uids = c.uids := uids_call c.function c.params

theorem uids_ofStatement (c : Call) (n : Node) : (ofStatement c n).uids = c.uids ++ n.uids := by
  simp [ofStatement, Call.uids]

/-- What is bound at a node has no part in its identities. -/
@[simp] theorem uids_withContext (n : Node) (ctx : Context) :
    (n.withContext ctx).uids = n.uids := by
  cases n <;> simp [withContext, withOrigin, origin]

/-- Of what is left out of a list the identities are left out. -/
theorem flatMap_sublist {α : Type} {as bs : List α} (h : as.Sublist bs) (f : α → List String) :
    (as.flatMap f).Sublist (bs.flatMap f) := by
  induction h with
  | slnil => exact .refl _
  | cons b _ ih => exact ih.trans (List.sublist_append_right _ _)
  | cons_cons b _ ih => exact ih.append_left (f b)

theorem uids_subset_of_mem (h : n ∈ ns) : n.uids ⊆ uidsOfAll ns :=
  fun _ hu => List.mem_flatMap.mpr ⟨n, h, hu⟩

end

/-- A mark is put before every identity. -/
@[simp] theorem uids_markUid (mark : String) (n : Node) :
    (n.markUid mark).uids = n.uids.map (mark ++ ·) := by
  have hlist : ∀ ns : List Node, (∀ n ∈ ns, (n.markUid mark).uids = n.uids.map (mark ++ ·)) →
      uidsOfAll (markUids mark ns) = (uidsOfAll ns).map (mark ++ ·) := fun ns h => by
    rw [markUids_eq, uidsOfAll, uidsOfAll, List.flatMap_map, List.map_flatMap]
    exact congrArg List.flatten (List.map_congr_left h)
  have hentries : ∀ es : List (Token × Node),
      (∀ e ∈ es, (e.2.markUid mark).uids = e.2.uids.map (mark ++ ·)) →
      uidsOfEntries (markEntryUids mark es) = (uidsOfEntries es).map (mark ++ ·) := fun es h => by
    rw [markEntryUids_eq, uidsOfEntries, uidsOfEntries, List.flatMap_map, List.map_flatMap]
    exact congrArg List.flatten (List.map_congr_left h)
  induction n with
  | token t => simp [markUid]
  | call f ps o ih => simp [markUid, hlist ps ih]
  | statement f ps o data ih ihdata => simp [markUid, hlist ps ih, ihdata]
  | block es o ih => simp [markUid, hentries es ih]
  | array is o ih => simp [markUid, hlist is ih]

@[simp] theorem uidsOfAll_markUids (mark : String) (ns : List Node) :
    uidsOfAll (markUids mark ns) = (uidsOfAll ns).map (mark ++ ·) := by
  simp [markUids_eq, uidsOfAll, List.flatMap_map, List.map_flatMap]

end Node

end ContentLang
