import DataServer.Tree.Frame

/-! The owner deltas a transaction writes back to the intended store: `GetDeletesForOwner` keeps the
owner's variants still marked for deletion, `GetUpdatesForOwner` the live new or updated ones,
and applied to the old intent they give exactly the new one. -/
namespace DataServer

theorem Entry.getByOwner_mk (o n : String) (cs : Childs) (lv : LeafVariants) (s r)
    (result : List LeafEntry) :
    (Entry.mk n cs lv s r).getByOwner o result = cs.getByOwner o (result ++ (lv.getByOwner o).toList) := by
  simp only [Entry.getByOwner]
  cases lv.getByOwner o <;> simp

mutual
theorem Entry.getByOwner_append (o : String) :
    ∀ (result : List LeafEntry) (e : Entry), e.getByOwner o result = result ++ e.getByOwner o []
  | result, .mk n cs lv s r => by
    rw [Entry.getByOwner_mk, Entry.getByOwner_mk, Childs.getByOwner_append o _ cs,
      Childs.getByOwner_append o (_ ++ _) cs]
    simp
theorem Childs.getByOwner_append (o : String) :
    ∀ (result : List LeafEntry) (cs : Childs), cs.getByOwner o result = result ++ cs.getByOwner o []
  | result, .nil => by simp [Childs.getByOwner]
  | result, .cons _ c rest => by
    simp only [Childs.getByOwner]
    rw [Childs.getByOwner_append o _ rest, Entry.getByOwner_append o result c,
      Childs.getByOwner_append o (c.getByOwner o []) rest]
    simp
end

theorem Entry.getByOwner_eq (o : String) (e : Entry) :
    e.getByOwner o [] = (e.leafVariants.getByOwner o).toList ++ e.childs.getByOwner o [] := by
  obtain ⟨n, cs, lv, s, r⟩ := e
  rw [Entry.getByOwner_mk, Childs.getByOwner_append]
  simp

theorem Childs.getByOwner_cons (o k : String) (c : Entry) (rest : Childs) :
    (Childs.cons k c rest).getByOwner o [] = c.getByOwner o [] ++ rest.getByOwner o [] := by
  simp only [Childs.getByOwner]
  exact Childs.getByOwner_append o _ rest

theorem getByOwner_leafVariantsAt_cons {o k : String} {p : List String} {e : Entry} {l : LeafEntry} :
    (e.leafVariantsAt (k :: p)).getByOwner o = some l ↔
      ∃ c, e.childs.lookup k = some c ∧ (c.leafVariantsAt p).getByOwner o = some l := by
  rw [Entry.leafVariantsAt_cons]
  cases e.childs.lookup k <;> simp [LeafVariants.getByOwner]

mutual
theorem Entry.mem_getByOwner {o : String} {l : LeafEntry} :
    ∀ {path : List String} (e : Entry), e.WellFormed path →
      (l ∈ e.getByOwner o [] ↔ ∃ q, (e.leafVariantsAt q).getByOwner o = some l)
  | _, .mk n cs lv s r, ⟨_, _, hc⟩ => by
    rw [Entry.getByOwner_eq, Entry.childs_mk, Entry.leafVariants_mk, List.mem_append,
      Childs.mem_getByOwner cs hc]
    constructor
    · rintro (h | ⟨k, c, q, hk, hq⟩)
      · exact ⟨[], by simpa using h⟩
      · exact ⟨k :: q, getByOwner_leafVariantsAt_cons.mpr ⟨c, hk, hq⟩⟩
    · rintro ⟨_ | ⟨k, q⟩, h⟩
      · exact .inl (by simpa using h)
      · obtain ⟨c, hk, hq⟩ := getByOwner_leafVariantsAt_cons.mp h
        exact .inr ⟨k, c, q, hk, hq⟩
theorem Childs.mem_getByOwner {o : String} {l : LeafEntry} :
    ∀ {path : List String} (cs : Childs), cs.WellFormed path →
      (l ∈ cs.getByOwner o [] ↔ ∃ k c q, cs.lookup k = some c ∧ (c.leafVariantsAt q).getByOwner o = some l)
  | _, .nil, _ => by simp [Childs.getByOwner, Childs.lookup]
  | _, .cons k c rest, ⟨_, hc, hk, hr⟩ => by
    rw [Childs.getByOwner_cons, List.mem_append, Entry.mem_getByOwner c hc, Childs.mem_getByOwner rest hr]
    constructor
    · rintro (⟨q, h⟩ | ⟨k', c', q, hk', h⟩)
      · exact ⟨k, c, q, by simp [Childs.lookup], h⟩
      · have hne : k ≠ k' := fun h => hk (h ▸ by_contra fun hn => by
          simp [Childs.lookup_eq_none_iff.mpr hn] at hk')
        exact ⟨k', c', q, by simp [Childs.lookup, hne, hk'], h⟩
    · rintro ⟨k', c', q, hk', h⟩
      simp only [Childs.lookup] at hk'
      split at hk'
      · cases hk'; exact .inl ⟨q, h⟩
      · exact .inr ⟨k', c', q, hk', h⟩
end

mutual
theorem Entry.getByOwner_sublist_paths {o : String} :
    ∀ {path : List String} (e : Entry), e.WellFormed path →
      ((e.getByOwner o []).map (·.update.path)).Sublist (e.paths path)
  | path, .mk n cs lv s r, ⟨hp, _, hc⟩ => by
    rw [Entry.getByOwner_eq, List.map_append]
    simp only [Entry.paths, Entry.leafVariants_mk, Entry.childs_mk]
    have hcs := Childs.getByOwner_sublist_paths (o := o) cs hc
    cases hl : lv.getByOwner o with
    | none => exact hcs.cons path
    | some l =>
      simpa [hp l (List.mem_of_find?_eq_some hl)] using hcs.cons₂ path
theorem Childs.getByOwner_sublist_paths {o : String} :
    ∀ {path : List String} (cs : Childs), cs.WellFormed path →
      ((cs.getByOwner o []).map (·.update.path)).Sublist (cs.paths path)
  | _, .nil, _ => by simp [Childs.getByOwner]
  | path, .cons k c rest, ⟨hn, hc, _, hr⟩ => by
    rw [Childs.getByOwner_cons, List.map_append]
    simp only [Childs.paths, hn]
    exact (Entry.getByOwner_sublist_paths c hc).append (Childs.getByOwner_sublist_paths rest hr)
end

/-- The last of the updates at `p`: what writing them in order leaves there. -/
def lastAt (us : List Update) (p : List String) : Option Update := (us.filter (·.path = p)).getLast?

theorem lastAt_cons (u : Update) (us : List Update) (p : List String) :
    lastAt (u :: us) p = if u.path = p then some ((lastAt us p).getD u) else lastAt us p := by
  by_cases h : u.path = p
  · simp only [lastAt, List.filter_cons, h, decide_True, if_true, List.getLast?_cons]
  · simp only [lastAt, List.filter_cons, h, decide_False, Bool.false_eq_true, if_false]

theorem lastAt_eq_some_iff {p : List String} {w : Update} :
    ∀ {us : List Update}, (us.map (·.path)).Nodup → (lastAt us p = some w ↔ w ∈ us ∧ w.path = p)
  | [], _ => by simp [lastAt]
  | u :: us, h => by
    rw [List.map_cons, List.nodup_cons] at h
    rw [lastAt_cons]
    by_cases hu : u.path = p
    · have hnone : lastAt us p = none := by
        simp only [lastAt, List.getLast?_eq_none_iff, List.filter_eq_nil_iff, decide_eq_true_eq]
        exact fun x hx hx' => h.1 (hu ▸ hx' ▸ List.mem_map_of_mem _ hx)
      rw [if_pos hu, hnone, Option.getD_none, Option.some.injEq, List.mem_cons]
      constructor
      · rintro rfl; exact ⟨.inl rfl, hu⟩
      · rintro ⟨hw | hw, hp⟩
        · exact hw.symm
        · exact absurd (by rw [hu, ← hp]; exact List.mem_map_of_mem _ hw) h.1
    · simp only [hu, if_false, lastAt_eq_some_iff h.2, List.mem_cons]
      exact ⟨fun ⟨hw, hp⟩ => ⟨.inr hw, hp⟩, fun ⟨hw, hp⟩ => ⟨hw.resolve_left fun hw => hu (hw ▸ hp), hp⟩⟩

/-- One owner's view of a store: the update it holds at each path. -/
abbrev OwnerStore := List String → Option Update

/-- Modelled from the spec: the cache is not in the sources. `Modify(deletes, updates)` on an
owner's view of a store removes the deletes, then writes the updates in order. -/
def OwnerStore.modify (m : OwnerStore) (deletes : List (List String)) (updates : List Update) :
    OwnerStore :=
  updates.foldl (fun (m : OwnerStore) u => Function.update m u.path (some u))
    fun p => if p ∈ deletes then none else m p

/-- The view that holds exactly the given updates, a later one for a path replacing an earlier one.
-/
def OwnerStore.ofUpdates (us : List Update) : OwnerStore := OwnerStore.modify (fun _ => none) [] us

theorem foldl_write_apply (p : List String) :
    ∀ (us : List Update) (m : OwnerStore),
      us.foldl (fun (m : OwnerStore) u => Function.update m u.path (some u)) m p = (lastAt us p).or (m p)
  | [], _ => by simp [lastAt]
  | u :: us, m => by
    rw [List.foldl_cons, foldl_write_apply p us, lastAt_cons]
    by_cases h : u.path = p
    · subst h; cases lastAt us u.path <;> simp
    · simp [h, Function.update_noteq (Ne.symm h)]

theorem OwnerStore.modify_apply (m : OwnerStore) (deletes : List (List String)) (updates : List Update)
    (p : List String) :
    m.modify deletes updates p = (lastAt updates p).or (if p ∈ deletes then none else m p) :=
  foldl_write_apply p updates _

theorem OwnerStore.ofUpdates_apply (us : List Update) (p : List String) :
    OwnerStore.ofUpdates us p = lastAt us p := by
  simp [OwnerStore.ofUpdates, OwnerStore.modify_apply]

theorem lastAt_getByOwnerFiltered {t : Entry} (ht : t.WellFormed []) (o : String)
    (fs : List (LeafEntry → Bool)) (p : List String) :
    lastAt ((getByOwnerFiltered t o fs).map (·.update)) p =
      (((t.leafVariantsAt p).getByOwner o).filter fun e => fs.all fun f => f e).map (·.update) := by
  have hnd : (((getByOwnerFiltered t o fs).map (·.update)).map (·.path)).Nodup := by
    rw [List.map_map]
    exact ((List.filter_sublist _).map _ |>.trans (Entry.getByOwner_sublist_paths t ht)).nodup
      (Entry.nodup_paths t ht)
  refine Option.ext fun w => ?_
  rw [Option.mem_def, Option.mem_def, lastAt_eq_some_iff hnd]
  simp only [getByOwnerFiltered, List.mem_map, List.mem_filter, Entry.mem_getByOwner t ht,
    Option.map_eq_some', Option.filter_eq_some, Option.mem_def]
  constructor
  · rintro ⟨⟨l, ⟨⟨q, hq⟩, hf⟩, rfl⟩, hp⟩
    obtain rfl : q = p :=
      (Entry.path_of_mem_leafVariantsAt ht (List.mem_of_find?_eq_some hq)).symm.trans hp
    exact ⟨l, ⟨hq, hf⟩, rfl⟩
  · rintro ⟨l, ⟨hl, hf⟩, rfl⟩
    exact ⟨⟨l, ⟨⟨p, hl⟩, hf⟩, rfl⟩, Entry.path_of_mem_leafVariantsAt ht (List.mem_of_find?_eq_some hl)⟩

theorem mem_map_path_iff (us : List Update) (p : List String) :
    p ∈ us.map (·.path) ↔ (lastAt us p).isSome := by
  simp [lastAt, List.getLast?_eq_none_iff, List.filter_eq_nil_iff, Option.isSome_iff_ne_none]

section WrittenBack

variable {t : Entry} (hw : t.WellFormed []) (o : String) (p : List String)
include hw

theorem lastAt_getByOwner :
    lastAt ((t.getByOwner o []).map (·.update)) p = ((t.leafVariantsAt p).getByOwner o).map (·.update) := by
  have hS := lastAt_getByOwnerFiltered hw o [] p
  simp only [getByOwnerFiltered, List.all_nil, List.filter_true] at hS
  rwa [show ∀ x : Option LeafEntry, x.filter (fun _ => true) = x from fun x => by cases x <;> rfl] at hS

theorem mem_getDeletesForOwner_iff :
    p ∈ getDeletesForOwner t o ↔ (((t.leafVariantsAt p).getByOwner o).filter filterDeleted).isSome := by
  have h := mem_map_path_iff ((getByOwnerFiltered t o [filterDeleted]).map (·.update)) p
  rw [List.map_map, lastAt_getByOwnerFiltered hw] at h
  simpa [getDeletesForOwner] using h

theorem lastAt_getUpdatesForOwner :
    lastAt (getUpdatesForOwner t o) p =
      (((t.leafVariantsAt p).getByOwner o).filter filterNonDeletedButNewOrUpdated).map (·.update) := by
  simpa using lastAt_getByOwnerFiltered hw o [filterNonDeletedButNewOrUpdated] p

end WrittenBack

namespace LeafVariants

variable {o : String}

theorem getByOwner_markOwnerDelete (lv : LeafVariants) :
    (lv.markOwnerDelete o).getByOwner o = (lv.getByOwner o).map LeafEntry.markDelete :=
  getByOwner_modifyByOwner (f := LeafEntry.markDelete) (fun _ h => h) lv

theorem filter_markOwnerDelete (lv : LeafVariants) :
    (lv.markOwnerDelete o).filter (·.owner ≠ o) = lv.filter (·.owner ≠ o) :=
  filter_modifyByOwner (f := LeafEntry.markDelete) (fun _ h => h) lv

theorem getByOwner_foldl_addCacheUpdate {new : Bool} :
    ∀ {us : List Update} (lv : LeafVariants), (∀ u ∈ us, u.owner = o) →
      (us.foldl (fun lv u => lv.addCacheUpdate u new) lv).getByOwner o =
        us.foldl (fun ov u => some (ownerInsert u new ov)) (lv.getByOwner o)
  | [], _, _ => rfl
  | u :: us, lv, h => by
    rw [List.foldl_cons, List.foldl_cons,
      getByOwner_foldl_addCacheUpdate _ fun u' hu' => h u' (List.mem_cons_of_mem _ hu'),
      ← h u (List.mem_cons_self _ _), getByOwner_addCacheUpdate]

theorem filter_foldl_addCacheUpdate {new : Bool} :
    ∀ {us : List Update} (lv : LeafVariants), (∀ u ∈ us, u.owner = o) →
      (us.foldl (fun lv u => lv.addCacheUpdate u new) lv).filter (·.owner ≠ o) = lv.filter (·.owner ≠ o)
  | [], _, _ => rfl
  | u :: us, lv, h => by
    rw [List.foldl_cons, filter_foldl_addCacheUpdate _ fun u' hu' => h u' (List.mem_cons_of_mem _ hu'),
      ← h u (List.mem_cons_self _ _), filter_addCacheUpdate]

/-- What the owner's variant at `q` can be once its old variant `s` was marked for deletion and some
of the owner's updates at `q` were inserted: it sits at `q`, and it is new, or updated, or it
holds the old update. -/
def OwnerVariantInv (s : Option LeafEntry) (q : List String) (v : LeafEntry) : Prop :=
  v.update.path = q ∧ (v.isNew = true ∨ v.isUpdated = true ∨ s.map (·.update) = some v.update)

theorem ownerInsert_update {u : Update} {new : Bool} {ov : Option LeafEntry}
    (h : ∀ v, ov = some v → v.update.path = u.path) : (ownerInsert u new ov).update = u := by
  rcases ov with _ | v
  · rfl
  · simp only [ownerInsert, refreshVariant]
    split
    · exact Update.eq_of_equalSkipPath ‹_› (h v rfl)
    · rfl

theorem ownerInsert_delete (u : Update) (new : Bool) (ov : Option LeafEntry) :
    (ownerInsert u new ov).delete = false := by
  rcases ov with _ | v
  · rfl
  · simp only [ownerInsert, refreshVariant]
    split <;> rfl

theorem ownerVariantInv_ownerInsert {s : Option LeafEntry} {q : List String} {u : Update}
    {ov : Option LeafEntry} (hu : u.path = q) (h : ∀ v, ov = some v → OwnerVariantInv s q v) :
    OwnerVariantInv s q (ownerInsert u true ov) := by
  rcases ov with _ | v
  · exact ⟨hu, .inl rfl⟩
  · obtain ⟨hq, hv⟩ := h v rfl
    simp only [ownerInsert, refreshVariant]
    split
    · exact ⟨hq, hv⟩
    · exact ⟨hu, .inr (.inl rfl)⟩

theorem foldl_ownerInsert_inv {s : Option LeafEntry} {q : List String} :
    ∀ {us : List Update} {ov : Option LeafEntry}, (∀ u ∈ us, u.path = q) →
      (∀ v, ov = some v → OwnerVariantInv s q v) →
        ∀ v, us.foldl (fun ov u => some (ownerInsert u true ov)) ov = some v → OwnerVariantInv s q v
  | [], _, _, h => h
  | u :: us, ov, hus, h =>
    @foldl_ownerInsert_inv s q us (some (ownerInsert u true ov))
      (fun u' hu' => hus u' (List.mem_cons_of_mem _ hu'))
      fun _ hv => Option.some.inj hv ▸ ownerVariantInv_ownerInsert (hus u (List.mem_cons_self _ _)) h

theorem ownerDelta_at_leaf {s : Option LeafEntry} {q : List String}
    (hs : ∀ v, s = some v → v.update.path = q) {us : List Update} (hus : ∀ u ∈ us, u.path = q) :
    (((us.foldl (fun ov u => some (ownerInsert u true ov)) (s.map LeafEntry.markDelete)).filter
        filterNonDeletedButNewOrUpdated).map (·.update)).or
      (if ((us.foldl (fun ov u => some (ownerInsert u true ov)) (s.map LeafEntry.markDelete)).filter
          filterDeleted).isSome then none else s.map (·.update)) = us.getLast? := by
  rcases List.eq_nil_or_concat us with rfl | ⟨us, u, rfl⟩
  · cases s <;> simp [filterNonDeletedButNewOrUpdated, filterDeleted]
  · have hu : u.path = q := hus u (by simp)
    have hinit : ∀ v, s.map LeafEntry.markDelete = some v → OwnerVariantInv s q v := by
      intro v hv
      obtain ⟨s', rfl, rfl⟩ := Option.map_eq_some'.mp hv
      exact ⟨hs s' rfl, .inr (.inr rfl)⟩
    have hinv := @foldl_ownerInsert_inv s q us _ (fun u' hu' => hus u' (by simp [hu'])) hinit
    set ov := us.foldl (fun ov u => some (ownerInsert u true ov)) (s.map LeafEntry.markDelete)
    have hupd : (ownerInsert u true ov).update = u :=
      ownerInsert_update fun v hv => (hinv v hv).1.trans hu.symm
    have hdel := ownerInsert_delete u true ov
    obtain ⟨-, hnew⟩ := ownerVariantInv_ownerInsert hu hinv
    rw [List.concat_eq_append, List.foldl_append, List.foldl_cons, List.foldl_nil, List.getLast?_concat]
    generalize ownerInsert u true (us.foldl _ _) = w at hupd hdel hnew ⊢
    simp only [Option.filter_some, filterDeleted, filterNonDeletedButNewOrUpdated, hdel]
    rcases hnew with h | h | h
    · simp [h, hupd]
    · simp [h, hupd]
    · split <;> simp [h, hupd]

end LeafVariants

/-- Owner deltas rewrite the owner's stored intent exactly: once a tree the code builds has the
owner's variants marked and its new updates inserted, the paths of `GetDeletesForOwner` and
`GetUpdatesForOwner` are disjoint, they turn the old intent into the new one, and other owners'
variants are unchanged. -/
theorem ownerDeltas_rewrite_intent {tc : TreeContext} {t t' : Entry} {o : String}
    {us : List Update} (ht : Reachable tc t) (hus : ∀ u ∈ us, u.owner = o)
    (hins : addCacheUpdates tc true (t.markOwnerDelete o) us = .ok t') :
    (∀ p ∈ getDeletesForOwner t' o, ∀ w ∈ getUpdatesForOwner t' o, w.path ≠ p) ∧
      OwnerStore.modify (OwnerStore.ofUpdates ((t.getByOwner o []).map (·.update)))
          (getDeletesForOwner t' o) (getUpdatesForOwner t' o) = OwnerStore.ofUpdates us ∧
      ∀ p, (t'.leafVariantsAt p).filter (·.owner ≠ o) = (t.leafVariantsAt p).filter (·.owner ≠ o) := by
  have hw := ht.wellFormed
  have hw' := wellFormed_addCacheUpdates (Entry.wellFormed_markOwnerDelete o t hw) hins
  have hus' : ∀ p, ∀ u ∈ us.filter (·.path = p), u.owner = o :=
    fun p u hu => hus u (List.mem_of_mem_filter hu)
  have hat : ∀ p, t'.leafVariantsAt p = (us.filter (·.path = p)).foldl
      (fun lv u => lv.addCacheUpdate u true) ((t.leafVariantsAt p).markOwnerDelete o) := fun p => by
    rw [leafVariantsAt_addCacheUpdates hins, Entry.leafVariantsAt_markOwnerDelete]
  have hown : ∀ p, (t'.leafVariantsAt p).getByOwner o =
      (us.filter (·.path = p)).foldl (fun ov u => some (LeafVariants.ownerInsert u true ov))
        (((t.leafVariantsAt p).getByOwner o).map LeafEntry.markDelete) := fun p => by
    rw [hat, LeafVariants.getByOwner_foldl_addCacheUpdate _ (hus' p),
      LeafVariants.getByOwner_markOwnerDelete]
  refine ⟨fun p hp w hw hwp => ?_, funext fun p => ?_, fun p => ?_⟩
  · have hdel := (mem_getDeletesForOwner_iff hw' o p).mp hp
    have hupd : (lastAt (getUpdatesForOwner t' o) p).isSome := by
      rw [← mem_map_path_iff]; exact hwp ▸ List.mem_map_of_mem _ hw
    rw [lastAt_getUpdatesForOwner hw', Option.isSome_map'] at hupd
    generalize (t'.leafVariantsAt p).getByOwner o = ov at hdel hupd
    rcases ov with _ | v
    · simp at hdel
    · cases hd : v.delete <;>
        simp [Option.filter_some, filterDeleted, filterNonDeletedButNewOrUpdated, hd] at hdel hupd
  · rw [OwnerStore.modify_apply, OwnerStore.ofUpdates_apply, OwnerStore.ofUpdates_apply, lastAt_getByOwner hw,
      lastAt_getUpdatesForOwner hw']
    simp only [mem_getDeletesForOwner_iff hw', hown]
    exact LeafVariants.ownerDelta_at_leaf
      (fun v hv => Entry.path_of_mem_leafVariantsAt hw (List.mem_of_find?_eq_some hv))
      fun u hu => of_decide_eq_true (List.mem_filter.mp hu).2
  · rw [hat, LeafVariants.filter_foldl_addCacheUpdate _ (hus' p), LeafVariants.filter_markOwnerDelete]

/-- An intended store loaded for `owner1`, which holds `a/b` and `a/c`, next to `owner2`'s value at
`a/c`. -/
def ownerDeltaBase : Entry :=
  buildTree sampleContext (.mk "" .nil [] (some sampleContainer) [])
    [.addCacheUpdate ⟨["a", "b"], [1], 10, "owner1"⟩ false,
      .addCacheUpdate ⟨["a", "c"], [2], 10, "owner1"⟩ false,
      .addCacheUpdate ⟨["a", "c"], [5], 20, "owner2"⟩ false]

/-- The new intent of `owner1`: `a/b` unchanged, `a/c` dropped, `a/d` written twice. -/
def ownerDeltaUpdates : List Update :=
  [⟨["a", "b"], [1], 10, "owner1"⟩, ⟨["a", "d"], [3], 10, "owner1"⟩, ⟨["a", "d"], [4], 10, "owner1"⟩]

def ownerDeltaResult : Entry :=
  buildTree sampleContext (ownerDeltaBase.markOwnerDelete "owner1")
    (ownerDeltaUpdates.map (TreeOp.addCacheUpdate · true))

theorem ownerDeltas_rewrite_intent_sample :
    Reachable sampleContext ownerDeltaBase ∧ (∀ u ∈ ownerDeltaUpdates, u.owner = "owner1") ∧
      addCacheUpdates sampleContext true (ownerDeltaBase.markOwnerDelete "owner1") ownerDeltaUpdates =
        .ok ownerDeltaResult ∧
      ((∀ p ∈ getDeletesForOwner ownerDeltaResult "owner1",
          ∀ w ∈ getUpdatesForOwner ownerDeltaResult "owner1", w.path ≠ p) ∧
        OwnerStore.modify (OwnerStore.ofUpdates ((ownerDeltaBase.getByOwner "owner1" []).map (·.update)))
            (getDeletesForOwner ownerDeltaResult "owner1") (getUpdatesForOwner ownerDeltaResult "owner1") =
          OwnerStore.ofUpdates ownerDeltaUpdates ∧
        ∀ p, (ownerDeltaResult.leafVariantsAt p).filter (·.owner ≠ "owner1") =
          (ownerDeltaBase.leafVariantsAt p).filter (·.owner ≠ "owner1")) :=
  have hbase : Reachable sampleContext ownerDeltaBase := ⟨_, _, rfl, rfl⟩
  have howner : ∀ u ∈ ownerDeltaUpdates, u.owner = "owner1" := by decide
  have hins : addCacheUpdates sampleContext true (ownerDeltaBase.markOwnerDelete "owner1")
      ownerDeltaUpdates = .ok ownerDeltaResult := rfl
  ⟨hbase, howner, hins, ownerDeltas_rewrite_intent hbase howner hins⟩

/-- The sample's deltas: `a/c` is deleted and the last value of `a/d` is written; `a/b`, whose
value did not change, is in neither. -/
example : getDeletesForOwner ownerDeltaResult "owner1" = [["a", "c"]] ∧
    getUpdatesForOwner ownerDeltaResult "owner1" = [⟨["a", "d"], [4], 10, "owner1"⟩] := by
  decide

end DataServer
