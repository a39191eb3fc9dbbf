import DataServer.Tree.Shadow
import Mathlib.Data.List.Sort
import Mathlib.Data.String.Basic

/-! The tree read without the order of the calls that built it: `canon` sorts every entry's children
by key and its variants by owner, and in a well-formed tree forgets that order and nothing else. -/
namespace DataServer

/-- The order by a string key that `canon` sorts by. -/
def ByKey {α : Type} (f : α → String) (a b : α) : Prop := f a ≤ f b

instance {α : Type} (f : α → String) : DecidableRel (ByKey f) := fun a b =>
  inferInstanceAs (Decidable (f a ≤ f b))
instance {α : Type} (f : α → String) : IsTotal α (ByKey f) := ⟨fun a b => le_total (f a) (f b)⟩
instance {α : Type} (f : α → String) : IsTrans α (ByKey f) := ⟨fun _ _ _ => le_trans⟩

theorem insertionSort_eq_of_perm {α : Type} {f : α → String} {l₁ l₂ : List α}
    (hnd : (l₁.map f).Nodup) (hp : l₁.Perm l₂) :
    l₁.insertionSort (ByKey f) = l₂.insertionSort (ByKey f) := by
  have hs : ∀ l : List α, (l.map f).Nodup →
      (l.insertionSort (ByKey f)).Sorted fun a b => f a < f b := fun l hl =>
    have hnd' : ((l.insertionSort (ByKey f)).map f).Nodup :=
      ((List.perm_insertionSort (ByKey f) l).map f).nodup_iff.mpr hl
    ((List.sorted_insertionSort (ByKey f) l).and (List.pairwise_map.mp hnd')).imp
      fun h => lt_of_le_of_ne h.1 h.2
  haveI : IsAntisymm α fun a b => f a < f b := ⟨fun _ _ h h' => absurd (h.trans h') (lt_irrefl _)⟩
  exact List.eq_of_perm_of_sorted
    (((List.perm_insertionSort _ l₁).trans hp).trans (List.perm_insertionSort _ l₂).symm)
    (hs l₁ hnd) (hs l₂ ((hp.map f).nodup_iff.mp hnd))

namespace LeafVariants

theorem mem_iff_getByOwner {lv : LeafVariants} (hnd : (lv.map LeafEntry.owner).Nodup) {l : LeafEntry} :
    l ∈ lv ↔ lv.getByOwner l.owner = some l := by
  refine ⟨fun hl => ?_, fun h => List.mem_of_find?_eq_some h⟩
  obtain ⟨x, hx⟩ := Option.isSome_iff_exists.mp (getByOwner_isSome.mpr (List.mem_map_of_mem _ hl))
  have hxo : x.owner = l.owner := by simpa using List.find?_some hx
  rw [hx, List.inj_on_of_nodup_map hnd (List.mem_of_find?_eq_some hx) hl hxo]

theorem perm_of_getByOwner {lv lv' : LeafVariants} (hnd : (lv.map LeafEntry.owner).Nodup)
    (hnd' : (lv'.map LeafEntry.owner).Nodup) (h : ∀ o, lv.getByOwner o = lv'.getByOwner o) :
    lv.Perm lv' :=
  (List.perm_ext_iff_of_nodup hnd.of_map hnd'.of_map).mpr fun l => by
    rw [mem_iff_getByOwner hnd, mem_iff_getByOwner hnd', h]

theorem getByOwner_perm {lv lv' : LeafVariants} (hp : lv.Perm lv') (hnd : (lv.map LeafEntry.owner).Nodup)
    (o : String) : lv.getByOwner o = lv'.getByOwner o := by
  have hnd' := (hp.map LeafEntry.owner).nodup_iff.mp hnd
  cases h : lv.getByOwner o with
  | none =>
    exact (getByOwner_eq_none.mpr (fun hm => getByOwner_eq_none.mp h ((hp.map _).mem_iff.mpr hm))).symm
  | some l =>
    have ho : l.owner = o := by simpa using List.find?_some h
    subst ho
    exact ((mem_iff_getByOwner hnd').mp (hp.subset (List.mem_of_find?_eq_some h))).symm

theorem getByOwner_modifyByOwner_of_ne {o o' : String} {f : LeafEntry → LeafEntry} (h : o ≠ o')
    (hf : ∀ l, l.owner = o' → (f l).owner = o') :
    ∀ lv : LeafVariants, (lv.modifyByOwner o' f).getByOwner o = lv.getByOwner o
  | [] => rfl
  | e :: lv => by
    have ih := getByOwner_modifyByOwner_of_ne h hf lv
    simp only [getByOwner] at ih
    by_cases he : e.owner = o'
    · simp [modifyByOwner, getByOwner, he, hf e he, Ne.symm h, ih]
    · simp only [modifyByOwner, he, if_false, getByOwner, List.find?_cons, ih]

theorem getByOwner_addCacheUpdate_of_ne {o : String} {c : Update} (h : o ≠ c.owner) (new : Bool)
    (lv : LeafVariants) : (lv.addCacheUpdate c new).getByOwner o = lv.getByOwner o := by
  by_cases hm : c.owner ∈ lv.map LeafEntry.owner
  · rw [addCacheUpdate_of_mem hm,
      getByOwner_modifyByOwner_of_ne h fun l h' => (owner_refreshVariant h').trans h']
  · rw [addCacheUpdate_of_not_mem hm]
    simp [getByOwner, List.find?_append, LeafEntry.newLeafEntry, LeafEntry.owner, Ne.symm h]

theorem addCacheUpdate_perm {lv lv' : LeafVariants} (hp : lv.Perm lv')
    (hnd : (lv.map LeafEntry.owner).Nodup) (c : Update) (new : Bool) :
    (lv.addCacheUpdate c new).Perm (lv'.addCacheUpdate c new) := by
  have hnd' := (hp.map LeafEntry.owner).nodup_iff.mp hnd
  refine perm_of_getByOwner (nodup_addCacheUpdate hnd) (nodup_addCacheUpdate hnd') fun o => ?_
  by_cases ho : o = c.owner
  · rw [ho, getByOwner_addCacheUpdate, getByOwner_addCacheUpdate, getByOwner_perm hp hnd]
  · rw [getByOwner_addCacheUpdate_of_ne ho, getByOwner_addCacheUpdate_of_ne ho, getByOwner_perm hp hnd]

theorem addCacheUpdate_comm {lv : LeafVariants} (hnd : (lv.map LeafEntry.owner).Nodup)
    {c d : Update} (h : c.owner ≠ d.owner) (nc nd : Bool) :
    ((lv.addCacheUpdate c nc).addCacheUpdate d nd).Perm ((lv.addCacheUpdate d nd).addCacheUpdate c nc) := by
  refine perm_of_getByOwner (nodup_addCacheUpdate (nodup_addCacheUpdate hnd))
    (nodup_addCacheUpdate (nodup_addCacheUpdate hnd)) fun o => ?_
  by_cases hd : o = d.owner
  · subst hd
    rw [getByOwner_addCacheUpdate, getByOwner_addCacheUpdate_of_ne (Ne.symm h),
      getByOwner_addCacheUpdate_of_ne (Ne.symm h), getByOwner_addCacheUpdate]
  · by_cases hc : o = c.owner
    · subst hc
      rw [getByOwner_addCacheUpdate_of_ne hd, getByOwner_addCacheUpdate, getByOwner_addCacheUpdate,
        getByOwner_addCacheUpdate_of_ne hd]
    · simp only [getByOwner_addCacheUpdate_of_ne hc, getByOwner_addCacheUpdate_of_ne hd]

end LeafVariants

/-- The children of a list, in its order. -/
def Childs.ofList : List (String × Entry) → Childs
  | [] => .nil
  | (k, e) :: l => .cons k e (ofList l)

mutual
/-- The canonical form of an entry: its children sorted by key and its variants by owner, all the
way down. -/
def Entry.canon : Entry → Entry
  | .mk n cs lv s r =>
    .mk n (.ofList (cs.canonList.insertionSort (ByKey Prod.fst))) (lv.insertionSort (ByKey LeafEntry.owner)) s r
/-- The children with their canonical forms, in their order. -/
def Childs.canonList : Childs → List (String × Entry)
  | .nil => []
  | .cons k e rest => (k, e.canon) :: rest.canonList
end

namespace Childs

theorem WellFormed.nodup_keys {path : List String} : ∀ {cs : Childs}, cs.WellFormed path → cs.keys.Nodup
  | .nil, _ => List.nodup_nil
  | .cons _ _ _, ⟨_, _, hk, hr⟩ => List.nodup_cons.mpr ⟨hk, WellFormed.nodup_keys hr⟩

@[simp] theorem keys_ofList : ∀ l : List (String × Entry), (ofList l).keys = l.map Prod.fst
  | [] => rfl
  | (k, _) :: l => congrArg (k :: ·) (keys_ofList l)

theorem lookup_ofList_eq_some {k : String} {e : Entry} :
    ∀ {l : List (String × Entry)}, (l.map Prod.fst).Nodup → ((ofList l).lookup k = some e ↔ (k, e) ∈ l)
  | [], _ => by simp [ofList, lookup]
  | (k', e') :: l, hnd => by
    rw [List.map_cons, List.nodup_cons] at hnd
    by_cases h : k' = k
    · subst h
      simp only [ofList, lookup, if_true, Option.some.injEq, List.mem_cons, Prod.mk.injEq, true_and]
      exact ⟨fun h => .inl h.symm, fun h => h.elim Eq.symm fun hm => absurd (List.mem_map_of_mem _ hm) hnd.1⟩
    · simp [ofList, lookup, h, lookup_ofList_eq_some hnd.2, Ne.symm h]

@[simp] theorem map_fst_canonList : ∀ cs : Childs, cs.canonList.map Prod.fst = cs.keys
  | .nil => rfl
  | .cons k _ rest => congrArg (k :: ·) (map_fst_canonList rest)

theorem mem_canonList {k : String} {x : Entry} :
    ∀ {cs : Childs}, cs.keys.Nodup → ((k, x) ∈ cs.canonList ↔ (cs.lookup k).map Entry.canon = some x)
  | .nil, _ => by simp [canonList, lookup]
  | .cons k' e rest, hnd => by
    rw [keys, List.nodup_cons] at hnd
    by_cases h : k' = k
    · subst h
      have : (k', x) ∉ rest.canonList := fun hm => hnd.1 (by simpa using List.mem_map_of_mem Prod.fst hm)
      simp [canonList, lookup, this, eq_comm]
    · simp [canonList, lookup, h, mem_canonList hnd.2, Ne.symm h]

theorem canonList_ofList : ∀ l : List (String × Entry),
    (ofList l).canonList = l.map fun x => (x.1, x.2.canon)
  | [] => rfl
  | (k, e) :: l => congrArg ((k, e.canon) :: ·) (canonList_ofList l)

theorem canonList_perm {cs cs' : Childs} (hk : cs.keys.Nodup) (hk' : cs'.keys.Nodup)
    (h : ∀ k, (cs.lookup k).map Entry.canon = (cs'.lookup k).map Entry.canon) :
    cs.canonList.Perm cs'.canonList :=
  (List.perm_ext_iff_of_nodup (List.Nodup.of_map Prod.fst (by simpa using hk))
      (List.Nodup.of_map Prod.fst (by simpa using hk'))).mpr fun ⟨k, x⟩ => by
    rw [mem_canonList hk, mem_canonList hk', h]

end Childs

namespace Entry

@[simp] theorem pathElemName_canon (e : Entry) : e.canon.pathElemName = e.pathElemName := by
  cases e; rfl
@[simp] theorem schema_canon (e : Entry) : e.canon.schema = e.schema := by cases e; rfl
@[simp] theorem choicesResolvers_canon (e : Entry) : e.canon.choicesResolvers = e.choicesResolvers := by
  cases e; rfl
theorem leafVariants_canon (e : Entry) :
    e.canon.leafVariants = e.leafVariants.insertionSort (ByKey LeafEntry.owner) := by cases e; rfl
theorem childs_canon (e : Entry) :
    e.canon.childs = .ofList (e.childs.canonList.insertionSort (ByKey Prod.fst)) := by cases e; rfl

theorem perm_leafVariants_canon (e : Entry) : e.canon.leafVariants.Perm e.leafVariants := by
  rw [leafVariants_canon]; exact List.perm_insertionSort _ _

theorem keys_canon_perm (e : Entry) : e.canon.childs.keys.Perm e.childs.keys := by
  rw [childs_canon, Childs.keys_ofList, ← Childs.map_fst_canonList]
  exact (List.perm_insertionSort _ _).map _

theorem lookup_canon {e : Entry} (hk : e.childs.keys.Nodup) (k : String) :
    e.canon.childs.lookup k = (e.childs.lookup k).map canon := by
  have hnd : ((e.childs.canonList.insertionSort (ByKey Prod.fst)).map Prod.fst).Nodup :=
    (((List.perm_insertionSort _ _).map Prod.fst).nodup_iff).mpr (by simpa using hk)
  refine Option.ext fun x => ?_
  rw [childs_canon, Option.mem_def, Option.mem_def, Childs.lookup_ofList_eq_some hnd,
    List.mem_insertionSort, Childs.mem_canonList hk]

theorem canon_eq_canon {e e' : Entry} (hn : e.pathElemName = e'.pathElemName)
    (hs : e.schema = e'.schema) (hr : e.choicesResolvers = e'.choicesResolvers)
    (hlv : e.leafVariants.Perm e'.leafVariants) (hnd : (e.leafVariants.map LeafEntry.owner).Nodup)
    (hk : e.childs.keys.Nodup) (hk' : e'.childs.keys.Nodup)
    (hc : ∀ k, (e.childs.lookup k).map canon = (e'.childs.lookup k).map canon) :
    e.canon = e'.canon := by
  obtain ⟨n, cs, lv, s, r⟩ := e
  obtain ⟨n', cs', lv', s', r'⟩ := e'
  simp only [pathElemName_mk, schema_mk, choicesResolvers_mk, leafVariants_mk, childs_mk] at *
  subst hn hs hr
  rw [canon, canon, insertionSort_eq_of_perm hnd hlv,
    insertionSort_eq_of_perm (by simpa using hk) (Childs.canonList_perm hk hk' hc)]

end Entry

mutual
theorem Entry.canon_canon : ∀ e : Entry, e.canon.canon = e.canon
  | .mk n cs lv s r => by
    have hid : ∀ x ∈ cs.canonList.insertionSort (ByKey Prod.fst), (x.1, x.2.canon) = x :=
      fun x hx => Prod.ext rfl (Childs.canon_of_mem_canonList cs ((List.mem_insertionSort _).mp hx))
    rw [Entry.canon, Entry.canon, Childs.canonList_ofList, List.map_congr_left hid, List.map_id',
      (List.sorted_insertionSort _ _).insertionSort_eq, (List.sorted_insertionSort _ _).insertionSort_eq]
theorem Childs.canon_of_mem_canonList :
    ∀ (cs : Childs) {x : String × Entry}, x ∈ cs.canonList → x.2.canon = x.2
  | .nil, _, h => absurd h (List.not_mem_nil _)
  | .cons _ e rest, _, h => by
    rcases List.mem_cons.mp h with rfl | h
    · exact Entry.canon_canon e
    · exact Childs.canon_of_mem_canonList rest h
end

namespace Entry

theorem getAt_canon : ∀ (p : List String) {path : List String} {e : Entry}, e.WellFormed path →
    e.canon.getAt p = (e.getAt p).map canon
  | [], _, _, _ => rfl
  | k :: p, path, e, he => by
    simp only [getAt, lookup_canon (wellFormed_iff.mp he).2.2.nodup_keys]
    cases hc : e.childs.lookup k with
    | none => rfl
    | some c =>
      exact getAt_canon p ((wellFormed_iff.mp he).2.2.lookup hc).2

end Entry

end DataServer
