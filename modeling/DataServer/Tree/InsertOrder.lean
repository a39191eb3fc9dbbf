import DataServer.Tree.CanonRead
import Mathlib.Data.List.Rotate

/-! The order of inserts. Inserts of distinct owners, or at paths neither a proper prefix of the
other, commute up to canonical form; so any two orders of pairwise commuting inserts build trees
of one canonical form, whichever inserts fail. -/
namespace DataServer

/-- Two updates whose inserts commute: at one path they are of distinct owners, and neither path is
a proper prefix of the other. -/
def Update.Independent (u v : Update) : Prop :=
  (u.path = v.path → u.owner ≠ v.owner) ∧ (u.path <+: v.path → u.path = v.path) ∧
    (v.path <+: u.path → v.path = u.path)

theorem Update.Independent.symm {u v : Update} (h : u.Independent v) : v.Independent u :=
  ⟨fun hp => (h.1 hp.symm).symm, h.2.2, h.2.1⟩

theorem Entry.withChilds_self (e : Entry) : e.withChilds e.childs = e := by cases e; rfl

@[simp] theorem Entry.withChilds_withChilds (e : Entry) (c c' : Childs) :
    (e.withChilds c).withChilds c' = e.withChilds c' := rfl

theorem Childs.nodup_keys_insert {key : String} {e : Entry} :
    ∀ {cs : Childs}, cs.keys.Nodup → (cs.insert key e).keys.Nodup
  | .nil, _ => by simp [Childs.insert, Childs.keys]
  | .cons k _ rest, h => by
    rw [Childs.keys, List.nodup_cons] at h
    by_cases hk : k = key
    · simpa [Childs.insert, hk, Childs.keys] using h
    · simp only [Childs.insert, hk, if_false, Childs.keys, List.nodup_cons]
      exact ⟨fun hm => (Childs.mem_keys_insert.mp hm).elim h.1 hk, nodup_keys_insert h.2⟩

section Insert

variable (tc : TreeContext)

/-- The child `AddCacheUpdateRecursive` goes down into under `key`: the one stored there, or the one
`newEntry` creates; none when creating it fails. -/
def Entry.childFor (anc : List (Option SchemaElem)) (path : List String) (r : Entry) (key : String) :
    Option Entry :=
  match r.childs.lookup key with
  | some e => some e
  | none => (newEntry tc anc path r key).toOption.map Prod.snd

theorem newEntry_snd (anc : List (Option SchemaElem)) (path : List String) (r : Entry) (key : String) :
    (newEntry tc anc path r key).toOption.map Prod.snd =
      (newSharedEntryAttributes tc (r.schema :: anc) (path ++ [key]) key).toOption.bind fun e =>
        if r.leafVariants.length > 0 ∧ SchemaElem.getContainer r.schema = none then none else some e := by
  unfold newEntry
  cases newSharedEntryAttributes tc (r.schema :: anc) (path ++ [key]) key with
  | error => rfl
  | ok e => by_cases h : r.leafVariants.length > 0 ∧ SchemaElem.getContainer r.schema = none <;>
      simp [bind, Except.bind, addChild_eq, h, Except.toOption, pure, Except.pure]

theorem Entry.childFor_congr {anc : List (Option SchemaElem)} {path : List String} {r r' : Entry}
    {key : String} (hs : r'.schema = r.schema) (hl : r'.leafVariants.length = r.leafVariants.length)
    (hk : r'.childs.lookup key = r.childs.lookup key) :
    r'.childFor tc anc path key = r.childFor tc anc path key := by
  simp only [Entry.childFor, hk, newEntry_snd, hs, hl]

theorem Entry.childFor_wellFormed {anc : List (Option SchemaElem)} {path : List String} {r e : Entry}
    {key : String} (hr : r.WellFormed path) (h : r.childFor tc anc path key = some e) :
    e.pathElemName = key ∧ e.WellFormed (path ++ [key]) := by
  unfold Entry.childFor at h
  split at h
  · cases h; exact (wellFormed_iff.mp hr).2.2.lookup ‹_›
  · cases hne : newEntry tc anc path r key with
    | error => simp [hne, Except.toOption] at h
    | ok re =>
      simp only [hne, Except.toOption, Option.map_some', Option.some.injEq] at h
      subst h
      obtain ⟨hn, hce, hle, -, -⟩ := newEntry_ok hne
      exact ⟨hn, wellFormed_of_empty hce hle _⟩

variable (c : Update) (new : Bool)

theorem addCacheUpdateRecursive_cons_fst (key : String) (rest path : List String)
    (anc : List (Option SchemaElem)) (r : Entry) :
    (addCacheUpdateRecursive tc c new (key :: rest) path anc r).1 =
      match r.childFor tc anc path key with
      | some e => r.withChilds (r.childs.insert key
          (addCacheUpdateRecursive tc c new rest (path ++ [e.pathElemName]) (r.schema :: anc) e).1)
      | none => r := by
  simp only [addCacheUpdateRecursive, Entry.childFor]
  cases r.childs.lookup key with
  | some e => rfl
  | none =>
    cases hne : newEntry tc anc path r key with
    | error => rfl
    | ok re =>
      obtain ⟨r', e⟩ := re
      obtain ⟨-, -, -, -, rfl⟩ := newEntry_ok hne
      simp [Except.toOption]

@[simp] theorem schema_addCacheUpdateRecursive (rest path : List String)
    (anc : List (Option SchemaElem)) (r : Entry) :
    (addCacheUpdateRecursive tc c new rest path anc r).1.schema = r.schema := by
  cases rest with
  | nil => rfl
  | cons key rest => rw [addCacheUpdateRecursive_cons_fst]; split <;> rfl

@[simp] theorem choicesResolvers_addCacheUpdateRecursive (rest path : List String)
    (anc : List (Option SchemaElem)) (r : Entry) :
    (addCacheUpdateRecursive tc c new rest path anc r).1.choicesResolvers = r.choicesResolvers := by
  cases rest with
  | nil => rfl
  | cons key rest => rw [addCacheUpdateRecursive_cons_fst]; split <;> rfl

@[simp] theorem leafVariants_addCacheUpdateRecursive_cons (key : String) (rest path : List String)
    (anc : List (Option SchemaElem)) (r : Entry) :
    (addCacheUpdateRecursive tc c new (key :: rest) path anc r).1.leafVariants = r.leafVariants := by
  rw [addCacheUpdateRecursive_cons_fst]; split <;> rfl

theorem lookup_addCacheUpdateRecursive_cons (key : String) (rest path : List String)
    (anc : List (Option SchemaElem)) (r : Entry) (k : String) :
    (addCacheUpdateRecursive tc c new (key :: rest) path anc r).1.childs.lookup k =
      if k = key then (r.childFor tc anc path key).map fun e =>
        (addCacheUpdateRecursive tc c new rest (path ++ [e.pathElemName]) (r.schema :: anc) e).1
      else r.childs.lookup k := by
  rw [addCacheUpdateRecursive_cons_fst]
  cases hc : r.childFor tc anc path key with
  | some e =>
    by_cases hk : k = key
    · simp [hk]
    · simp [hk, Childs.lookup_insert_ne _ hk]
  | none =>
    by_cases hk : k = key
    · subst hk
      unfold Entry.childFor at hc
      split at hc
      · cases hc
      · simpa
    · simp [hk]

theorem childFor_addCacheUpdateRecursive_cons (key : String) (rest path : List String)
    (anc : List (Option SchemaElem)) (r : Entry) (k : String) :
    (addCacheUpdateRecursive tc c new (key :: rest) path anc r).1.childFor tc anc path k =
      if k = key then (r.childFor tc anc path key).map fun e =>
        (addCacheUpdateRecursive tc c new rest (path ++ [e.pathElemName]) (r.schema :: anc) e).1
      else r.childFor tc anc path k := by
  by_cases hk : k = key
  · subst hk
    cases hc : r.childFor tc anc path k with
    | some e =>
      rw [if_pos rfl, Option.map_some']
      unfold Entry.childFor
      rw [lookup_addCacheUpdateRecursive_cons, if_pos rfl, hc, Option.map_some']
    | none => rw [addCacheUpdateRecursive_cons_fst, hc]; simpa using hc
  · rw [if_neg hk]
    exact Entry.childFor_congr tc (by simp) (by simp)
      (by rw [lookup_addCacheUpdateRecursive_cons, if_neg hk])

end Insert

section Canon

variable (tc : TreeContext)

theorem childFor_canon {anc : List (Option SchemaElem)} {path : List String} {r : Entry}
    (hk : r.childs.keys.Nodup) (key : String) :
    r.canon.childFor tc anc path key = (r.childFor tc anc path key).map Entry.canon := by
  unfold Entry.childFor
  rw [Entry.lookup_canon hk]
  cases r.childs.lookup key with
  | some e => rfl
  | none =>
    simp only [Option.map_none', newEntry_snd, Entry.schema_canon, (Entry.perm_leafVariants_canon r).length_eq]
    cases hs : newSharedEntryAttributes tc (r.schema :: anc) (path ++ [key]) key with
    | error => rfl
    | ok e =>
      obtain ⟨_, rfl⟩ := newSharedEntryAttributes_ok hs
      simp only [Except.toOption, Option.some_bind]
      split <;> rfl

theorem canon_withChilds_insert {path : List String} {r : Entry} (hr : r.WellFormed path)
    {key : String} {X Y : Entry} (h : X.canon = Y.canon) :
    (r.canon.withChilds (r.canon.childs.insert key X)).canon = (r.withChilds (r.childs.insert key Y)).canon := by
  obtain ⟨-, hnd, hc⟩ := Entry.wellFormed_iff.mp hr
  refine Entry.canon_eq_canon (by simp) (by simp) (by simp) (Entry.perm_leafVariants_canon r)
    (((Entry.perm_leafVariants_canon r).map _).nodup_iff.mpr hnd)
    (Childs.nodup_keys_insert ((Entry.keys_canon_perm r).nodup_iff.mpr hc.nodup_keys))
    (Childs.nodup_keys_insert hc.nodup_keys) fun k => ?_
  by_cases hk : k = key
  · subst hk; simp [h]
  · simp [Childs.lookup_insert_ne _ hk, Entry.lookup_canon hc.nodup_keys, Option.map_map,
      Function.comp_def, Entry.canon_canon]

variable (c : Update) (new : Bool)

theorem canon_addCacheUpdateRecursive_canon :
    ∀ (rest path : List String) (anc : List (Option SchemaElem)) (r : Entry),
      path ++ rest = c.path → r.WellFormed path →
        (addCacheUpdateRecursive tc c new rest path anc r.canon).1.canon =
          (addCacheUpdateRecursive tc c new rest path anc r).1.canon
  | [], _, _, r, _, hr => by
    obtain ⟨-, hnd, hc⟩ := Entry.wellFormed_iff.mp hr
    have hnd' := ((Entry.perm_leafVariants_canon r).map LeafEntry.owner).nodup_iff.mpr hnd
    refine Entry.canon_eq_canon (by simp [addCacheUpdateRecursive]) (by simp [addCacheUpdateRecursive])
      (by simp [addCacheUpdateRecursive])
      (LeafVariants.addCacheUpdate_perm (Entry.perm_leafVariants_canon r) hnd' c new)
      (LeafVariants.nodup_addCacheUpdate hnd')
      ((Entry.keys_canon_perm r).nodup_iff.mpr hc.nodup_keys) hc.nodup_keys fun k => ?_
    simp [addCacheUpdateRecursive, Entry.lookup_canon hc.nodup_keys, Option.map_map, Function.comp_def,
      Entry.canon_canon]
  | key :: rest, path, anc, r, hp, hr => by
    rw [addCacheUpdateRecursive_cons_fst, addCacheUpdateRecursive_cons_fst,
      childFor_canon tc (Entry.wellFormed_iff.mp hr).2.2.nodup_keys]
    cases hc : r.childFor tc anc path key with
    | none => exact Entry.canon_canon r
    | some e =>
      obtain ⟨hn, he⟩ := Entry.childFor_wellFormed tc hr hc
      refine canon_withChilds_insert hr ?_
      simpa [hn] using canon_addCacheUpdateRecursive_canon rest (path ++ [key]) (r.schema :: anc) e
        (by simpa using hp) he

end Canon

section Comm

variable (tc : TreeContext) {u v : Update} (nu nv : Bool)

theorem canon_addCacheUpdateRecursive_comm (huv : u.Independent v) :
    ∀ (ru rv path : List String) (anc : List (Option SchemaElem)) (r : Entry),
      path ++ ru = u.path → path ++ rv = v.path → r.WellFormed path →
        (addCacheUpdateRecursive tc v nv rv path anc (addCacheUpdateRecursive tc u nu ru path anc r).1).1.canon =
          (addCacheUpdateRecursive tc u nu ru path anc (addCacheUpdateRecursive tc v nv rv path anc r).1).1.canon
  | [], [], _, _, r, hu, hv, hr => by
    obtain ⟨-, hnd, hc⟩ := Entry.wellFormed_iff.mp hr
    exact Entry.canon_eq_canon rfl rfl rfl
      (LeafVariants.addCacheUpdate_comm hnd (huv.1 (by simpa using hu.symm.trans hv)) nu nv)
      (LeafVariants.nodup_addCacheUpdate (LeafVariants.nodup_addCacheUpdate hnd)) hc.nodup_keys
      hc.nodup_keys fun _ => rfl
  | [], _ :: _, path, _, _, hu, hv, _ => by
    have := huv.2.1 ⟨_, (List.append_nil path ▸ hu) ▸ hv⟩
    simp [← hu, ← hv] at this
  | _ :: _, [], path, _, _, hu, hv, _ => by
    have := huv.2.2 ⟨_, (List.append_nil path ▸ hv) ▸ hu⟩
    simp [← hu, ← hv] at this
  | k₁ :: ru, k₂ :: rv, path, anc, r, hu, hv, hr => by
    obtain ⟨-, hnd, hc⟩ := Entry.wellFormed_iff.mp hr
    have hw := fun (w : Update) (nw : Bool) (rw : List String) (r' : Entry) (h : path ++ rw = w.path)
      (hr' : r'.WellFormed path) =>
      (Entry.wellFormed_iff.mp (wellFormed_addCacheUpdateRecursive tc w nw rw path anc r' h hr')).2.2.nodup_keys
    refine Entry.canon_eq_canon (by simp) (by simp) (by simp) (by simp) (by simpa using hnd)
      (hw v nv _ _ hv (wellFormed_addCacheUpdateRecursive tc u nu _ path anc r hu hr))
      (hw u nu _ _ hu (wellFormed_addCacheUpdateRecursive tc v nv _ path anc r hv hr)) fun k => ?_
    simp only [lookup_addCacheUpdateRecursive_cons, childFor_addCacheUpdateRecursive_cons,
      schema_addCacheUpdateRecursive, pathElemName_addCacheUpdateRecursive]
    by_cases h₁ : k = k₁ <;> by_cases h₂ : k = k₂
    · subst h₁ h₂
      simp only [if_true]
      cases he : r.childFor tc anc path k with
      | none => rfl
      | some e =>
        obtain ⟨hn, hwe⟩ := Entry.childFor_wellFormed tc hr he
        simpa using canon_addCacheUpdateRecursive_comm huv ru rv (path ++ [e.pathElemName]) (r.schema :: anc) e
          (by simpa [hn] using hu) (by simpa [hn] using hv) (hn ▸ hwe)
    · subst h₁; simp [h₂, Ne.symm h₂]
    · subst h₂; simp [h₁, Ne.symm h₁]
    · simp [h₁, h₂]

end Comm

/-- The tree after the inserts of the updates of `us`, in the order of the list, each with its own
`new` flag; a failing insert leaves what it built so far, as in `buildTree`. -/
def insertAll (tc : TreeContext) (t : Entry) (us : List (Update × Bool)) : Entry :=
  buildTree tc t (us.map fun x => .addCacheUpdate x.1 x.2)

section Run

variable {tc : TreeContext}

theorem insertAll_cons (t : Entry) (x : Update × Bool) (us : List (Update × Bool)) :
    insertAll tc t (x :: us) = insertAll tc (addCacheUpdateRecursive tc x.1 x.2 x.1.path [] [] t).1 us :=
  rfl

theorem wellFormed_insertAll (tc : TreeContext) (us : List (Update × Bool)) {t : Entry} (h : t.WellFormed []) :
    (insertAll tc t us).WellFormed [] :=
  wellFormed_buildTree tc _ h

theorem wellFormed_addCacheUpdateRecursive_root (x : Update × Bool) {t : Entry} (h : t.WellFormed []) :
    (addCacheUpdateRecursive tc x.1 x.2 x.1.path [] [] t).1.WellFormed [] :=
  wellFormed_addCacheUpdateRecursive tc x.1 x.2 _ [] [] t rfl h

theorem canon_insertAll_congr : ∀ (us : List (Update × Bool)) {t t' : Entry}, t.WellFormed [] →
    t'.WellFormed [] → t.canon = t'.canon → (insertAll tc t us).canon = (insertAll tc t' us).canon
  | [], _, _, _, _, h => h
  | x :: us, t, t', ht, ht', h => by
    rw [insertAll_cons, insertAll_cons]
    refine canon_insertAll_congr us (wellFormed_addCacheUpdateRecursive_root x ht)
      (wellFormed_addCacheUpdateRecursive_root x ht') ?_
    rw [← canon_addCacheUpdateRecursive_canon tc x.1 x.2 _ [] [] t rfl ht, h,
      canon_addCacheUpdateRecursive_canon tc x.1 x.2 _ [] [] t' rfl ht']

theorem canon_insertAll_perm {us vs : List (Update × Bool)} (hp : us.Perm vs) :
    ∀ {t : Entry}, t.WellFormed [] → us.Pairwise (fun x y => x.1.Independent y.1) →
      (insertAll tc t us).canon = (insertAll tc t vs).canon := by
  induction hp with
  | nil => exact fun _ _ => rfl
  | cons x _ ih =>
    exact fun ht hpw => ih (wellFormed_addCacheUpdateRecursive_root x ht) (List.pairwise_cons.mp hpw).2
  | swap x y l =>
    intro t ht hpw
    have hyx := (List.pairwise_cons.mp hpw).1 x (List.mem_cons_self _ _)
    exact canon_insertAll_congr l (wellFormed_addCacheUpdateRecursive_root x (wellFormed_addCacheUpdateRecursive_root y ht))
      (wellFormed_addCacheUpdateRecursive_root y (wellFormed_addCacheUpdateRecursive_root x ht))
      (canon_addCacheUpdateRecursive_comm tc y.2 x.2 hyx _ _ [] [] t rfl rfl ht)
  | trans h₁₂ _ ih₁₂ ih₂₃ =>
    exact fun ht hpw => (ih₁₂ ht hpw).trans (ih₂₃ ht ((h₁₂.pairwise_iff fun h => h.symm).mp hpw))

end Run

/-- Two entries alike but for the order of their variants: the same name, schema and resolvers, and
the same variants. -/
def Entry.SameUpToOrder (e e' : Entry) : Prop :=
  e.pathElemName = e'.pathElemName ∧ e.schema = e'.schema ∧
    e.choicesResolvers = e'.choicesResolvers ∧ e.leafVariants.Perm e'.leafVariants

theorem Entry.sameUpToOrder_of_canon_eq {e e' : Entry} (h : e.canon = e'.canon) : e.SameUpToOrder e' :=
  ⟨by simpa using congrArg pathElemName h, by simpa using congrArg schema h,
    by simpa using congrArg choicesResolvers h,
    (e.perm_leafVariants_canon.symm.trans (by rw [h])).trans e'.perm_leafVariants_canon⟩

section SameCanon

variable {e e' : Entry} (h : e.canon = e'.canon)
include h

theorem Entry.getAt_sameUpToOrder {path path' : List String} (hw : e.WellFormed path)
    (hw' : e'.WellFormed path') (p : List String) :
    Option.Rel Entry.SameUpToOrder (e.getAt p) (e'.getAt p) := by
  have hp := congrArg (Entry.getAt p) h
  rw [getAt_canon p hw, getAt_canon p hw'] at hp
  cases h₁ : e.getAt p <;> cases h₂ : e'.getAt p <;>
    simp only [h₁, h₂, Option.map_none', Option.map_some', Option.some.injEq, reduceCtorEq] at hp
  · exact .none
  · exact .some (Entry.sameUpToOrder_of_canon_eq hp)

theorem Entry.every_nodup_priority_of_canon_eq
    (he : e.Every fun e => (e.leafVariants.map LeafEntry.priority).Nodup) :
    e'.Every fun e => (e.leafVariants.map LeafEntry.priority).Nodup := by
  have hQ : ∀ e : Entry, (e.canon.leafVariants.map LeafEntry.priority).Nodup ↔
      (e.leafVariants.map LeafEntry.priority).Nodup := fun e => (e.perm_leafVariants_canon.map _).nodup_iff
  rwa [← Entry.every_canon hQ, ← h, Entry.every_canon hQ]

theorem Entry.getHighestPrecedence_perm_of_canon_eq (b : Bool)
    (he : e.Every fun e => (e.leafVariants.map LeafEntry.priority).Nodup) :
    (e.getHighestPrecedence b []).Perm (e'.getHighestPrecedence b []) := by
  have h₁ := Entry.getHighestPrecedence_canon b e he
  rw [h] at h₁
  exact h₁.symm.trans (Entry.getHighestPrecedence_canon b e' (Entry.every_nodup_priority_of_canon_eq h he))

theorem Entry.getDeletes_map_ofList_of_canon_eq {path : List String} (anc : List (Option SchemaElem))
    (hw : e.WellFormed path) (hw' : e'.WellFormed path) :
    (e.getDeletes path anc []).map Multiset.ofList = (e'.getDeletes path anc []).map Multiset.ofList := by
  rw [← Entry.getDeletes_canon path anc e hw, h, Entry.getDeletes_canon path anc e' hw']

end SameCanon

/-- Two orders of the same inserts into a tree the code builds, at distinct (owner, path) pairs with
no path a proper prefix of another, give the same entries and variants up to order; after
`FinishInsertionPhase`, with no two variants of an entry at one priority, `GetHighestPrecedence`
and `GetDeletes` agree up to order. -/
theorem insertion_order_does_not_matter {tc : TreeContext} {t : Entry} {us vs : List (Update × Bool)}
    (ht : Reachable tc t) (hperm : us.Perm vs)
    (hkeys : (us.map fun x => (x.1.owner, x.1.path)).Nodup)
    (hpre : ∀ x ∈ us, ∀ y ∈ us, x.1.path <+: y.1.path → x.1.path = y.1.path)
    (hprio : (insertAll tc t us).Every fun e => (e.leafVariants.map LeafEntry.priority).Nodup) :
    (∀ p, Option.Rel Entry.SameUpToOrder ((insertAll tc t us).getAt p) ((insertAll tc t vs).getAt p)) ∧
      (∀ b, (rootGetHighestPrecedence (rootFinishInsertionPhase tc (insertAll tc t us)) b).Perm
        (rootGetHighestPrecedence (rootFinishInsertionPhase tc (insertAll tc t vs)) b)) ∧
      (rootGetDeletes (rootFinishInsertionPhase tc (insertAll tc t us))).map Multiset.ofList =
        (rootGetDeletes (rootFinishInsertionPhase tc (insertAll tc t vs))).map Multiset.ofList := by
  have hw₁ := wellFormed_insertAll tc us ht.wellFormed
  have hw₂ := wellFormed_insertAll tc vs ht.wellFormed
  have hpw : us.Pairwise fun x y => x.1.Independent y.1 :=
    (List.pairwise_map.mp hkeys).imp_of_mem fun hx hy hne =>
      ⟨fun hp ho => hne (Prod.ext ho hp), hpre _ hx _ hy, hpre _ hy _ hx⟩
  have hc : (insertAll tc t us).canon = (insertAll tc t vs).canon := canon_insertAll_perm hperm ht.wellFormed hpw
  have hfin : (rootFinishInsertionPhase tc (insertAll tc t us)).canon =
      (rootFinishInsertionPhase tc (insertAll tc t vs)).canon := by
    rw [rootFinishInsertionPhase, rootFinishInsertionPhase, ← Entry.finishInsertionPhase_canon tc [] _ hw₁,
      ← Entry.finishInsertionPhase_canon tc [] _ hw₂, hc]
  have hprio₁ : (rootFinishInsertionPhase tc (insertAll tc t us)).Every
      fun e => (e.leafVariants.map LeafEntry.priority).Nodup :=
    Entry.every_finishInsertionPhase (R := fun lv => (lv.map LeafEntry.priority).Nodup) tc [] _ hprio
  exact ⟨Entry.getAt_sameUpToOrder hc hw₁ hw₂, fun b => Entry.getHighestPrecedence_perm_of_canon_eq hfin b hprio₁,
    Entry.getDeletes_map_ofList_of_canon_eq hfin [] (wellFormed_rootFinishInsertionPhase tc hw₁)
      (wellFormed_rootFinishInsertionPhase tc hw₂)⟩

/-- Three inserts of two owners under `a`, on the device of the samples: `owner1` and `owner2` at
`a/b` with priorities 10 and 5, and `owner2` at `a/c`. -/
def insertOrderUpdates : List (Update × Bool) :=
  [(⟨["a", "b"], [1], 10, "owner1"⟩, true), (⟨["a", "c"], [2], 20, "owner2"⟩, false),
    (⟨["a", "b"], [3], 5, "owner2"⟩, true)]

def insertOrderUpdates' : List (Update × Bool) := insertOrderUpdates.rotate 1

theorem insertion_order_does_not_matter_sample :
    Reachable sampleContext (.mk "" .nil [] (some sampleContainer) []) ∧
      insertOrderUpdates.Perm insertOrderUpdates' ∧
      (insertOrderUpdates.map fun x => (x.1.owner, x.1.path)).Nodup ∧
      (∀ x ∈ insertOrderUpdates, ∀ y ∈ insertOrderUpdates, x.1.path <+: y.1.path → x.1.path = y.1.path) ∧
      (insertAll sampleContext (.mk "" .nil [] (some sampleContainer) []) insertOrderUpdates).Every
        (fun e => (e.leafVariants.map LeafEntry.priority).Nodup) ∧
      ((∀ p, Option.Rel Entry.SameUpToOrder
          ((insertAll sampleContext (.mk "" .nil [] (some sampleContainer) []) insertOrderUpdates).getAt p)
          ((insertAll sampleContext (.mk "" .nil [] (some sampleContainer) []) insertOrderUpdates').getAt p)) ∧
        (∀ b, (rootGetHighestPrecedence (rootFinishInsertionPhase sampleContext
            (insertAll sampleContext (.mk "" .nil [] (some sampleContainer) []) insertOrderUpdates)) b).Perm
          (rootGetHighestPrecedence (rootFinishInsertionPhase sampleContext
            (insertAll sampleContext (.mk "" .nil [] (some sampleContainer) []) insertOrderUpdates')) b)) ∧
        (rootGetDeletes (rootFinishInsertionPhase sampleContext
            (insertAll sampleContext (.mk "" .nil [] (some sampleContainer) []) insertOrderUpdates))).map
            Multiset.ofList =
          (rootGetDeletes (rootFinishInsertionPhase sampleContext
            (insertAll sampleContext (.mk "" .nil [] (some sampleContainer) []) insertOrderUpdates'))).map
            Multiset.ofList) :=
  have ht : Reachable sampleContext (.mk "" .nil [] (some sampleContainer) []) := ⟨_, [], rfl, rfl⟩
  have hp : insertOrderUpdates.Perm insertOrderUpdates' := (List.rotate_perm _ 1).symm
  ⟨ht, hp, by decide, by decide, by decide,
    insertion_order_does_not_matter ht hp (by decide) (by decide) (by decide)⟩

/-- The two orders build different trees: the children of `a` are stored in another order. -/
example : ((insertAll sampleContext (.mk "" .nil [] (some sampleContainer) []) insertOrderUpdates).getAt
      ["a"]).map (·.childs.keys) = some ["b", "c"] ∧
    ((insertAll sampleContext (.mk "" .nil [] (some sampleContainer) []) insertOrderUpdates').getAt
      ["a"]).map (·.childs.keys) = some ["c", "b"] := by
  decide

/-- Two builds of the same inserts into the root that draw different case orders: the device gets
`c/x` from the build in the schema's order and `c/y` from the one where `caseB` comes first,
though the inserts are at distinct paths with one variant each. -/
theorem insertion_order_depends_on_case_order :
    Reachable (tieContext .schema) (.mk "" .nil [] (some sampleContainer) []) ∧
      Reachable (tieContext .reversed) (.mk "" .nil [] (some sampleContainer) []) ∧
      tieUpdates.Perm tieUpdates.reverse ∧ (tieUpdates.map fun x => (x.1.owner, x.1.path)).Nodup ∧
      (∀ x ∈ tieUpdates, ∀ y ∈ tieUpdates, x.1.path <+: y.1.path → x.1.path = y.1.path) ∧
      (insertAll (tieContext .schema) (.mk "" .nil [] (some sampleContainer) []) tieUpdates).Every
        (fun e => (e.leafVariants.map LeafEntry.priority).Nodup) ∧
      rootGetHighestPrecedence (rootFinishInsertionPhase (tieContext .schema)
        (insertAll (tieContext .schema) (.mk "" .nil [] (some sampleContainer) []) tieUpdates)) true =
        [⟨["c", "x"], [1], 10, "owner1"⟩] ∧
      rootGetHighestPrecedence (rootFinishInsertionPhase (tieContext .reversed)
        (insertAll (tieContext .reversed) (.mk "" .nil [] (some sampleContainer) []) tieUpdates.reverse)) true =
        [⟨["c", "y"], [2], 10, "owner1"⟩] :=
  ⟨⟨_, [], rfl, rfl⟩, ⟨_, [], rfl, rfl⟩, List.reverse_perm _ |>.symm, by decide, by decide, by decide,
    by decide, by decide⟩

namespace LeafVariants

theorem refreshVariant_refreshVariant (c : Update) (l : LeafEntry) :
    refreshVariant c (refreshVariant c l) = refreshVariant c l := by
  by_cases h : l.update.equalSkipPath c <;> simp [refreshVariant, h, LeafEntry.markUpdate]

theorem modifyByOwner_modifyByOwner {o : String} {f g : LeafEntry → LeafEntry}
    (hf : ∀ l, l.owner = o → (f l).owner = o) :
    ∀ lv : LeafVariants, (lv.modifyByOwner o f).modifyByOwner o g = lv.modifyByOwner o (g ∘ f)
  | [] => rfl
  | e :: lv => by
    by_cases he : e.owner = o
    · simp [modifyByOwner, he, hf e he]
    · simp [modifyByOwner, he, modifyByOwner_modifyByOwner hf lv]

theorem addCacheUpdate_addCacheUpdate (lv : LeafVariants) (c : Update) (new : Bool) :
    (lv.addCacheUpdate c new).addCacheUpdate c new = lv.addCacheUpdate c new := by
  have hm' : c.owner ∈ (lv.addCacheUpdate c new).map LeafEntry.owner := by
    rw [map_owner_addCacheUpdate]; split <;> simp_all
  rw [addCacheUpdate_of_mem hm']
  by_cases hm : c.owner ∈ lv.map LeafEntry.owner
  · rw [addCacheUpdate_of_mem hm, modifyByOwner_modifyByOwner fun l h => (owner_refreshVariant h).trans h]
    congr 1
    funext l
    exact refreshVariant_refreshVariant c l
  · rw [addCacheUpdate_of_not_mem hm, modifyByOwner_append_of_not_mem _ hm]
    simp [modifyByOwner, refreshVariant, LeafEntry.newLeafEntry, LeafEntry.owner]

end LeafVariants

theorem addCacheUpdateRecursive_cons_of_lookup (tc : TreeContext) (c : Update) (new : Bool) {key : String}
    {rest path : List String} {anc : List (Option SchemaElem)} {r e : Entry} (h : r.childs.lookup key = some e) :
    addCacheUpdateRecursive tc c new (key :: rest) path anc r =
      (r.withChilds (r.childs.insert key
          (addCacheUpdateRecursive tc c new rest (path ++ [e.pathElemName]) (r.schema :: anc) e).1),
        (addCacheUpdateRecursive tc c new rest (path ++ [e.pathElemName]) (r.schema :: anc) e).2) := by
  simp only [addCacheUpdateRecursive, h]

theorem addCacheUpdateRecursive_cons_ok {tc : TreeContext} {c : Update} {new : Bool} {key : String}
    {rest path : List String} {anc : List (Option SchemaElem)} {r : Entry}
    (h : (addCacheUpdateRecursive tc c new (key :: rest) path anc r).2 = .ok ()) :
    ∃ R e : Entry, R.schema = r.schema ∧
      (addCacheUpdateRecursive tc c new rest (path ++ [e.pathElemName]) (r.schema :: anc) e).2 = .ok () ∧
      addCacheUpdateRecursive tc c new (key :: rest) path anc r =
        (R.withChilds (R.childs.insert key
          (addCacheUpdateRecursive tc c new rest (path ++ [e.pathElemName]) (r.schema :: anc) e).1), .ok ()) := by
  cases hl : r.childs.lookup key with
  | some e =>
    rw [addCacheUpdateRecursive_cons_of_lookup tc c new hl] at h ⊢
    exact ⟨r, e, rfl, h, by rw [h]⟩
  | none =>
    simp only [addCacheUpdateRecursive, hl] at h ⊢
    cases hne : newEntry tc anc path r key with
    | error => simp [hne] at h
    | ok re =>
      obtain ⟨r', e⟩ := re
      simp only [hne] at h ⊢
      obtain ⟨-, -, -, -, rfl⟩ := newEntry_ok hne
      exact ⟨r.withChilds (r.childs.insert key e), e, rfl, h, by rw [h]⟩

theorem addCacheUpdateRecursive_idem (tc : TreeContext) (c : Update) (new : Bool) :
    ∀ (rest path : List String) (anc : List (Option SchemaElem)) (r : Entry),
      (addCacheUpdateRecursive tc c new rest path anc r).2 = .ok () →
        addCacheUpdateRecursive tc c new rest path anc (addCacheUpdateRecursive tc c new rest path anc r).1 =
          ((addCacheUpdateRecursive tc c new rest path anc r).1, .ok ())
  | [], _, _, r, _ => by
    simp only [addCacheUpdateRecursive, Entry.withLeafVariants_leafVariants,
      LeafVariants.addCacheUpdate_addCacheUpdate]
    rfl
  | key :: rest, path, anc, r, h => by
    obtain ⟨R, e, hs, he, hfirst⟩ := addCacheUpdateRecursive_cons_ok h
    rw [hfirst]
    dsimp only
    rw [addCacheUpdateRecursive_cons_of_lookup tc c new (Childs.lookup_insert_self _ _ _),
      pathElemName_addCacheUpdateRecursive, Entry.withChilds_schema, hs,
      addCacheUpdateRecursive_idem tc c new rest _ _ e he]
    simp

/-- Inserting an update into a tree a second time, with the same flag, after an insert that
succeeded, leaves the tree as the first insert left it: the same entries, variants and flags. -/
theorem insert_twice_is_insert_once {tc : TreeContext} {t : Entry} {u : Update} {new : Bool}
    (h : (addCacheUpdateRecursive tc u new u.path [] [] t).2 = .ok ()) :
    addCacheUpdateRecursive tc u new u.path [] [] (addCacheUpdateRecursive tc u new u.path [] [] t).1 =
      ((addCacheUpdateRecursive tc u new u.path [] [] t).1, .ok ()) :=
  addCacheUpdateRecursive_idem tc u new u.path [] [] t h

def repeatedUpdate : Update := ⟨["a", "b"], [3], 5, "owner2"⟩

theorem insert_twice_is_insert_once_sample :
    (addCacheUpdateRecursive sampleContext repeatedUpdate true repeatedUpdate.path [] []
        (insertAll sampleContext (.mk "" .nil [] (some sampleContainer) []) insertOrderUpdates)).2 = .ok () ∧
      addCacheUpdateRecursive sampleContext repeatedUpdate true repeatedUpdate.path [] []
          (addCacheUpdateRecursive sampleContext repeatedUpdate true repeatedUpdate.path [] []
            (insertAll sampleContext (.mk "" .nil [] (some sampleContainer) []) insertOrderUpdates)).1 =
        ((addCacheUpdateRecursive sampleContext repeatedUpdate true repeatedUpdate.path [] []
            (insertAll sampleContext (.mk "" .nil [] (some sampleContainer) []) insertOrderUpdates)).1, .ok ()) := by
  have h : (addCacheUpdateRecursive sampleContext repeatedUpdate true repeatedUpdate.path [] []
      (insertAll sampleContext (.mk "" .nil [] (some sampleContainer) []) insertOrderUpdates)).2 = .ok () := by
    decide
  exact ⟨h, insert_twice_is_insert_once h⟩

end DataServer
