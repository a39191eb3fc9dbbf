import DataServer.Tree.Paths

/-! What the calls that build the tree change, read at one path. An insert changes only the
variants of the entry at its update's path, and `MarkOwnerDelete` rewrites every entry's
variants in the same way; so after any run of inserts the variants at a path are the starting
ones, run through the inserts whose update has that path, in order. -/
namespace DataServer

/-- The leaf variants of the entry at `p`; none when there is no entry there. -/
def Entry.leafVariantsAt (e : Entry) (p : List String) : LeafVariants :=
  ((e.getAt p).map Entry.leafVariants).getD []

namespace Entry

@[simp] theorem leafVariantsAt_nil (e : Entry) : e.leafVariantsAt [] = e.leafVariants := rfl

theorem leafVariantsAt_cons (e : Entry) (k : String) (p : List String) :
    e.leafVariantsAt (k :: p) = ((e.childs.lookup k).map (leafVariantsAt · p)).getD [] := by
  simp only [leafVariantsAt, getAt]
  cases e.childs.lookup k <;> rfl

theorem leafVariantsAt_of_empty {e : Entry} (hc : e.childs = .nil) (hl : e.leafVariants = []) :
    ∀ p, e.leafVariantsAt p = []
  | [] => hl
  | _ :: _ => by simp [leafVariantsAt_cons, hc, Childs.lookup]

theorem path_of_mem_leafVariantsAt {t : Entry} (ht : t.WellFormed []) {q : List String}
    {l : LeafEntry} (hl : l ∈ t.leafVariantsAt q) : l.update.path = q := by
  unfold leafVariantsAt at hl
  cases hE : t.getAt q with
  | none => simp [hE] at hl
  | some E => simpa using (wellFormed_iff.mp (wellFormed_getAt ht hE)).1 l (by simpa [hE] using hl)

end Entry

section Insert

variable (tc : TreeContext) (c : Update) (new : Bool)

theorem leafVariantsAt_addCacheUpdateRecursive :
    ∀ (rest path : List String) (anc : List (Option SchemaElem)) (r : Entry),
      (addCacheUpdateRecursive tc c new rest path anc r).2 = .ok () → ∀ q,
        (addCacheUpdateRecursive tc c new rest path anc r).1.leafVariantsAt q =
          if q = rest then (r.leafVariantsAt q).addCacheUpdate c new else r.leafVariantsAt q
  | [], _, _, r, _, [] => rfl
  | [], _, _, r, _, k :: q => by simp [addCacheUpdateRecursive, Entry.leafVariantsAt_cons]
  | key :: rest, path, anc, r, hok, q => by
    cases hl : r.childs.lookup key with
    | some e =>
      simp only [addCacheUpdateRecursive, hl] at hok ⊢
      have ih := leafVariantsAt_addCacheUpdateRecursive rest _ _ e hok
      rcases q with _ | ⟨k, q⟩
      · simp
      · by_cases hk : k = key
        · subst hk; simp [Entry.leafVariantsAt_cons, hl, ih]
        · simp [Entry.leafVariantsAt_cons, Childs.lookup_insert_ne _ hk, hk]
    | none =>
      cases hne : newEntry tc anc path r key with
      | error => simp [addCacheUpdateRecursive, hl, hne] at hok
      | ok re =>
        obtain ⟨r', e⟩ := re
        simp only [addCacheUpdateRecursive, hl, hne] at hok ⊢
        obtain ⟨-, hce, hle, -, rfl⟩ := newEntry_ok hne
        have ih := leafVariantsAt_addCacheUpdateRecursive rest _ _ e hok
        rcases q with _ | ⟨k, q⟩
        · simp
        · by_cases hk : k = key
          · subst hk
            simp [Entry.leafVariantsAt_cons, hl, ih, Entry.leafVariantsAt_of_empty hce hle]
          · simp [Entry.leafVariantsAt_cons, Childs.lookup_insert_ne _ hk, hk]

end Insert

theorem Entry.childs_markOwnerDelete (o : String) (e : Entry) :
    (e.markOwnerDelete o).childs = e.childs.markOwnerDelete o := by
  cases e; rfl

theorem Entry.leafVariants_markOwnerDelete (o : String) (e : Entry) :
    (e.markOwnerDelete o).leafVariants = e.leafVariants.markOwnerDelete o := by
  cases e; rfl

theorem Childs.lookup_markOwnerDelete (o k : String) :
    ∀ cs : Childs, (cs.markOwnerDelete o).lookup k = (cs.lookup k).map (Entry.markOwnerDelete o)
  | .nil => rfl
  | .cons k' e rest => by
    by_cases h : k' = k
    · simp [Childs.markOwnerDelete, Childs.lookup, h]
    · simp [Childs.markOwnerDelete, Childs.lookup, h, Childs.lookup_markOwnerDelete o k rest]

theorem Entry.leafVariantsAt_markOwnerDelete (o : String) :
    ∀ (p : List String) (e : Entry),
      (e.markOwnerDelete o).leafVariantsAt p = (e.leafVariantsAt p).markOwnerDelete o
  | [], e => leafVariants_markOwnerDelete o e
  | k :: p, e => by
    rw [leafVariantsAt_cons, leafVariantsAt_cons, childs_markOwnerDelete, Childs.lookup_markOwnerDelete]
    cases e.childs.lookup k with
    | none => rfl
    | some c => exact Entry.leafVariantsAt_markOwnerDelete o p c

section Run

variable {tc : TreeContext} {new : Bool}

theorem addCacheUpdates_cons {root t' : Entry} {u : Update} {us : List Update} :
    addCacheUpdates tc new root (u :: us) = .ok t' ↔
      (addCacheUpdateRecursive tc u new u.path [] [] root).2 = .ok () ∧
        addCacheUpdates tc new (addCacheUpdateRecursive tc u new u.path [] [] root).1 us = .ok t' := by
  simp only [addCacheUpdates, List.foldlM_cons]
  rcases (addCacheUpdateRecursive tc u new u.path [] [] root).2 with _ | ⟨⟩ <;>
    simp [bind, Except.bind, Except.map]

theorem leafVariantsAt_addCacheUpdates :
    ∀ {us : List Update} {root t' : Entry}, addCacheUpdates tc new root us = .ok t' → ∀ q,
      t'.leafVariantsAt q =
        (us.filter (·.path = q)).foldl (fun lv u => lv.addCacheUpdate u new) (root.leafVariantsAt q)
  | [], _, _, h, _ => by cases h; rfl
  | u :: us, root, t', h, q => by
    obtain ⟨hok, h⟩ := addCacheUpdates_cons.mp h
    rw [leafVariantsAt_addCacheUpdates h, leafVariantsAt_addCacheUpdateRecursive tc u new _ _ _ _ hok,
      List.filter_cons]
    by_cases hq : u.path = q
    · simp [hq]
    · simp [hq, Ne.symm hq]

theorem wellFormed_addCacheUpdates :
    ∀ {us : List Update} {root t' : Entry}, root.WellFormed [] → addCacheUpdates tc new root us = .ok t' →
      t'.WellFormed []
  | [], _, _, hw, h => by cases h; exact hw
  | u :: us, _, _, hw, h =>
    wellFormed_addCacheUpdates (wellFormed_addCacheUpdateRecursive tc u new u.path [] [] _ rfl hw)
      (addCacheUpdates_cons.mp h).2

theorem addCacheUpdates_eq_buildTree :
    ∀ {us : List Update} {root t' : Entry}, addCacheUpdates tc new root us = .ok t' →
      t' = buildTree tc root (us.map (TreeOp.addCacheUpdate · new))
  | [], _, _, h => by cases h; rfl
  | _ :: _, _, _, h => by rw [addCacheUpdates_eq_buildTree (addCacheUpdates_cons.mp h).2]; rfl

theorem Reachable.addCacheUpdates {t t' : Entry} {us : List Update} (ht : Reachable tc t)
    (h : addCacheUpdates tc new t us = .ok t') : Reachable tc t' := by
  obtain ⟨root, ops, hroot, rfl⟩ := ht
  exact ⟨root, ops ++ us.map (TreeOp.addCacheUpdate · new), hroot,
    by rw [addCacheUpdates_eq_buildTree h, buildTree, buildTree, buildTree, List.foldl_append]⟩

end Run

theorem Reachable.markOwnerDelete {tc : TreeContext} {t : Entry} (o : String) (ht : Reachable tc t) :
    Reachable tc (t.markOwnerDelete o) := by
  obtain ⟨root, ops, hroot, rfl⟩ := ht
  exact ⟨root, ops ++ [.markOwnerDelete o], hroot, by simp [buildTree, List.foldl_append, TreeOp.apply]⟩

end DataServer
