import DataServer.Datastore.IntentStore
import DataServer.Tree.Canon
import DataServer.Tree.Restore

/-! The owner's entries of the INTENDED store across a transaction. `populateTree` loads what the
intended store holds for the intent's owner, marks it for deletion and inserts the request's
updates; after `FinishInsertionPhase`, `SetIntentUpdate` writes the owner's deltas back with one
`Modify`. When the owner's entries are what the transaction loaded, a successful transaction leaves
them as the request's updates, the last one for a path winning. -/
namespace DataServer

theorem except_bind_eq_ok {ε α β : Type} {x : Except ε α} {f : α → Except ε β} {b : β} :
    x >>= f = .ok b ↔ ∃ a, x = .ok a ∧ f a = .ok b := by
  cases x <;> simp [bind, Except.bind]

theorem Run.result_bind_eq_ok {α β : Type} {r : Run α} {f : α → Run β} {b : β} :
    (r >>= f).result = .ok b ↔ ∃ a, r.result = .ok a ∧ (f a).result = .ok b := by
  simp only [Run.bind_eq, Run.bind]
  split <;> simp_all

/-- The cache updates `populateTree` builds from the request: each expanded update with its
completed path and its marshalled value, under the intent's priority and owner, once its value
is validated. -/
def newCacheUpdates (env : Env) (req : SetIntentRequest) : Except Fault (List Update) := do
  let expandedReqUpdates ← env.expandUpdates req.update
  expandedReqUpdates.mapM fun u => do
    let pathslice ← env.completePath u
    env.validateUpdate u
    let val ← env.marshalValue u
    pure (⟨pathslice, val, req.priority, req.intent⟩ : Update)

theorem owner_of_newCacheUpdates {env : Env} {req : SetIntentRequest} {us : List Update}
    (h : newCacheUpdates env req = .ok us) : ∀ u ∈ us, u.owner = req.intent := by
  simp only [newCacheUpdates, except_bind_eq_ok] at h
  obtain ⟨xs, -, hm⟩ := h
  induction xs generalizing us with
  | nil =>
    rw [List.mapM_nil] at hm
    cases hm
    exact List.forall_mem_nil _
  | cons x xs ih =>
    rw [List.mapM_cons] at hm
    obtain ⟨u, hu, hm⟩ := except_bind_eq_ok.1 hm
    obtain ⟨us', hus', hm⟩ := except_bind_eq_ok.1 hm
    cases hm
    simp only [except_bind_eq_ok] at hu
    obtain ⟨_, -, _, -, _, -, hu⟩ := hu
    cases hu
    exact List.forall_mem_cons.2 ⟨rfl, ih hus'⟩

theorem populateTree_eq_ok {env : Env} {req : SetIntentRequest} {tc tc' : TreeContext} {root : Entry}
    (h : populateTree env req tc = .ok (root, tc')) :
    ∃ root0 idx us, newTreeRoot tc = .ok root0 ∧ env.intendedStoreKeysMeta = .ok idx ∧
      tc' = { tc with storeIndex := idx } ∧ newCacheUpdates env req = .ok us ∧
      addCacheUpdates tc' true (loadIntendedStoreOwnerData tc' req.intent env.ownerData root0) us = .ok root := by
  simp only [populateTree, except_bind_eq_ok] at h
  obtain ⟨root0, h0, idx, hidx, xs, hxs, us, hus, t, ht, h⟩ := h
  cases h
  exact ⟨root0, idx, us, h0, hidx, rfl, except_bind_eq_ok.2 ⟨xs, hxs, hus⟩, ht⟩

theorem setIntentUpdateApply_eq_ok {env : Env} {req : SetIntentRequest} {name : String}
    {x : List Update × List (List String) × Entry} (h : (setIntentUpdateApply env req name).result = .ok x) :
    ∃ root tc, populateTree env req ⟨env.getSchema, req.intent, [], env.caseOrder⟩ = .ok (root, tc) ∧
      x.2.2 = rootFinishInsertionPhase tc root := by
  simp only [setIntentUpdateApply] at h
  obtain ⟨⟨root, tc⟩, hp, h⟩ := Run.result_bind_eq_ok.1 h
  refine ⟨root, tc, hp, ?_⟩
  simp only [Run.result_bind_eq_ok, Run.result_lift] at h
  obtain ⟨deletes, -, sdUpdates, -, h⟩ := h
  split at h
  · simp at h
  · simp only [Run.result_bind_eq_ok, Run.result_lift, Run.result_issue, Run.result_pure] at h
    obtain ⟨_, -, _, -, _, -, h⟩ := h
    cases h
    rfl

theorem applyCalls_intended_setIntent {env : Env} {req : SetIntentRequest} (st : CacheStore)
    (hok : (setIntent env req).result.isOk) (hd : req.dispatches) :
    ∃ x, (setIntentUpdateApply env req (candidateName req env.now)).result = .ok x ∧
      st.applyCalls env.answer .intended (setIntent env req).calls =
        st.modify (getDeletesForOwner x.2.2 req.intent) (getUpdatesForOwner x.2.2 req.intent) := by
  cases hl : env.tryLock
  · simp [setIntent_of_locked env req hl] at hok
  cases hc : env.answer (.createCandidate (candidateName req env.now)) with
  | error e => simp [setIntent_of_not_created env req hl hc] at hok
  | ok u =>
    rw [setIntent_of_created env req hl hc, setIntentDispatch_eq, if_pos hd, setIntentUpdate, Run.bind_eq] at hok ⊢
    cases ha : (setIntentUpdateApply env req (candidateName req env.now)).result with
    | error e => simp [Run.bind_of_error _ ha] at hok
    | ok x =>
      rw [Run.bind_of_ok _ ha] at hok ⊢
      rw [result_updateIntendedStore_isOk, Bool.and_eq_true, Bool.and_eq_true] at hok
      have hrest : ∀ c ∈ (rawIntentWrite env req).calls, c.store? ≠ some .intended := fun c hc => by
        rw [(calls_rawIntentWrite env req).2 c hc]; simp
      refine ⟨x, rfl, ?_⟩
      simp only [CacheStore.applyCalls_cons, CacheStore.applyCalls_append, CacheStore.applyCall,
        CacheStore.applyCalls_of_noWrites (noWrites_setIntentUpdateApply env req _), calls_updateIntendedStore, hok.1.1,
        if_true, true_and, CacheStore.applyCalls_nil]
      rw [if_neg (by simp), if_pos hok.1.2, CacheStore.applyCalls_of_store_ne hrest]

mutual
theorem Entry.getByOwner_finishInsertionPhase (tc : TreeContext) (o : String) :
    ∀ (path : List String) (e : Entry) (r : List LeafEntry),
      (e.finishInsertionPhase tc path).getByOwner o r = e.getByOwner o r
  | path, .mk n cs lv s cr, r => by
    simp only [Entry.finishInsertionPhase, Entry.getByOwner, Childs.getByOwner_finishInsertionPhase]
theorem Childs.getByOwner_finishInsertionPhase (tc : TreeContext) (o : String) :
    ∀ (path skip : List String) (cs : Childs) (r : List LeafEntry),
      (cs.finishInsertionPhase tc path skip).getByOwner o r = cs.getByOwner o r
  | _, _, .nil, _ => rfl
  | path, skip, .cons k c rest, r => by
    simp only [Childs.finishInsertionPhase, Childs.getByOwner]
    split
    · rw [Childs.getByOwner_finishInsertionPhase]
    · rw [Entry.getByOwner_finishInsertionPhase, Childs.getByOwner_finishInsertionPhase]
end

theorem ownerDeltas_rootFinishInsertionPhase (tc : TreeContext) (t : Entry) (o : String) :
    getDeletesForOwner (rootFinishInsertionPhase tc t) o = getDeletesForOwner t o ∧
      getUpdatesForOwner (rootFinishInsertionPhase tc t) o = getUpdatesForOwner t o := by
  simp [getDeletesForOwner, getUpdatesForOwner, getByOwnerFiltered, rootFinishInsertionPhase,
    Entry.getByOwner_finishInsertionPhase]

theorem LeafVariants.getByOwner_foldl_addCacheUpdate_update {o : String} {p : List String} {new : Bool} :
    ∀ (us : List Update) (lv : LeafVariants), (∀ u ∈ us, u.path = p) → (∀ l ∈ lv, l.update.path = p) →
      ((us.foldl (fun lv u => lv.addCacheUpdate u new) lv).getByOwner o).map (·.update) =
        ((us.filter (·.owner = o)).getLast?).or ((lv.getByOwner o).map (·.update))
  | [], _, _, _ => by simp
  | u :: us, lv, hus, hlv => by
    have hu := hus u (List.mem_cons_self u us)
    rw [List.foldl_cons, getByOwner_foldl_addCacheUpdate_update us _ (fun u' h => hus u' (List.mem_cons_of_mem u h))
      (path_addCacheUpdate hu hlv), List.filter_cons]
    by_cases ho : u.owner = o
    · subst ho
      have hv : ∀ v, lv.getByOwner u.owner = some v → v.update.path = u.path :=
        fun v hv => (hlv v (List.mem_of_find?_eq_some hv)).trans hu.symm
      rw [getByOwner_addCacheUpdate, Option.map_some', ownerInsert_update hv, if_pos (decide_eq_true rfl),
        List.getLast?_cons]
      cases (us.filter (·.owner = u.owner)).getLast? <;> rfl
    · rw [getByOwner_addCacheUpdate_of_ne (Ne.symm ho)]
      simp [ho]

theorem getByOwner_leafVariantsAt_loaded {tc tc' : TreeContext} {root0 t0 : Entry} {o : String}
    {entries : List Update} (h0 : newTreeRoot tc = .ok root0) (h : addCacheUpdates tc' false root0 entries = .ok t0)
    (p : List String) :
    ((t0.leafVariantsAt p).getByOwner o).map (·.update) = lastAt (entries.filter (·.owner = o)) p := by
  have hempty : root0.leafVariantsAt p = [] := by
    obtain ⟨_, rfl⟩ := newSharedEntryAttributes_ok h0
    exact Entry.leafVariantsAt_of_empty (by rfl) (by rfl) p
  rw [leafVariantsAt_addCacheUpdates h, hempty,
    LeafVariants.getByOwner_foldl_addCacheUpdate_update _ _ (fun u hu => of_decide_eq_true (List.mem_filter.1 hu).2)
      (List.forall_mem_nil _),
    lastAt, List.filter_filter, List.filter_filter]
  simp only [Bool.and_comm]
  exact Option.or_none

theorem ownerStore_modify_ownerDeltas {tc : TreeContext} {t t' : Entry} {o : String} {us : List Update}
    (hw : t.WellFormed []) (hus : ∀ u ∈ us, u.owner = o)
    (hins : addCacheUpdates tc true (t.markOwnerDelete o) us = .ok t') (p : List String) :
    OwnerStore.modify (fun q => ((t.leafVariantsAt q).getByOwner o).map (·.update)) (getDeletesForOwner t' o)
      (getUpdatesForOwner t' o) p = lastAt us p := by
  have hw' := wellFormed_addCacheUpdates (Entry.wellFormed_markOwnerDelete o t hw) hins
  have hown : (t'.leafVariantsAt p).getByOwner o = (us.filter (·.path = p)).foldl
      (fun ov u => some (LeafVariants.ownerInsert u true ov)) (((t.leafVariantsAt p).getByOwner o).map LeafEntry.markDelete) := by
    rw [leafVariantsAt_addCacheUpdates hins, Entry.leafVariantsAt_markOwnerDelete,
      LeafVariants.getByOwner_foldl_addCacheUpdate _ fun u hu => hus u (List.mem_of_mem_filter hu),
      LeafVariants.getByOwner_markOwnerDelete]
  rw [OwnerStore.modify_apply, lastAt_getUpdatesForOwner hw']
  simp only [mem_getDeletesForOwner_iff hw', hown]
  exact LeafVariants.ownerDelta_at_leaf
    (fun v hv => Entry.path_of_mem_leafVariantsAt hw (List.mem_of_find?_eq_some hv))
    fun u hu => of_decide_eq_true (List.mem_filter.mp hu).2

/-- `LoadIntendedStoreOwnerData` loads all it reads: each entry of `env.ownerData`, in order, is
inserted without error into the tree `NewTreeRoot` returns. -/
def OwnerDataLoads (env : Env) (req : SetIntentRequest) : Prop :=
  ∀ idx root, env.intendedStoreKeysMeta = .ok idx → newTreeRoot ⟨env.getSchema, req.intent, [], env.caseOrder⟩ = .ok root →
    (addCacheUpdates ⟨env.getSchema, req.intent, idx, env.caseOrder⟩ false root env.ownerData).isOk

/-- A successful transaction with something to dispatch rewrites the owner's entries of the INTENDED
store to the request's cache updates, the last one for a path winning, when those entries are
what the transaction loads and all of them load into the tree. -/
theorem setIntent_rewrites_owner_entries {env : Env} {req : SetIntentRequest} {st : CacheStore}
    (hok : (setIntent env req).result = .ok ()) (hd : req.dispatches) (hload : OwnerDataLoads env req)
    (hst : st.lookup = OwnerStore.ofUpdates (env.ownerData.filter (·.owner = req.intent))) :
    ∃ us, newCacheUpdates env req = .ok us ∧
      (st.applyCalls env.answer .intended (setIntent env req).calls).lookup = OwnerStore.ofUpdates us := by
  obtain ⟨x, hx, happ⟩ := applyCalls_intended_setIntent st (by rw [hok]; rfl) hd
  obtain ⟨root, tc, hp, hroot⟩ := setIntentUpdateApply_eq_ok hx
  obtain ⟨root0, idx, us, h0, hidx, rfl, hus, hins⟩ := populateTree_eq_ok hp
  obtain ⟨t0, ht0⟩ := Except.isOk_iff_exists.1 (hload idx root0 hidx h0)
  have hloaded : loadIntendedStoreOwnerData ⟨env.getSchema, req.intent, idx, env.caseOrder⟩ req.intent env.ownerData root0 =
      t0.markOwnerDelete req.intent := by
    rw [loadIntendedStoreOwnerData, buildTree, List.foldl_append, addCacheUpdates_eq_buildTree ht0]
    rfl
  have hbase : OwnerStore.ofUpdates (env.ownerData.filter (·.owner = req.intent)) =
      fun q => ((t0.leafVariantsAt q).getByOwner req.intent).map (·.update) :=
    funext fun q => by rw [OwnerStore.ofUpdates_apply, getByOwner_leafVariantsAt_loaded h0 ht0]
  dsimp only at hins hroot
  rw [hloaded] at hins
  refine ⟨us, hus, ?_⟩
  rw [happ, CacheStore.lookup_modify, hst, hroot, (ownerDeltas_rootFinishInsertionPhase _ _ _).1,
    (ownerDeltas_rootFinishInsertionPhase _ _ _).2, hbase]
  exact funext fun p => (ownerStore_modify_ownerDeltas (wellFormed_addCacheUpdates (wellFormed_newTreeRoot h0) ht0)
    (owner_of_newCacheUpdates hus) hins p).trans (OwnerStore.ofUpdates_apply us p).symm

/-- The sample device of `sampleContext`, whose intended store holds `a/b` for `owner1` and `a/c`
for `owner2`, and which accepts everything. -/
def ownerEntriesEnv : Env where
  name := "ds"
  tryLock := true
  now := 0
  getSchema := sampleContext.getSchema
  caseOrder := .schema
  intendedStoreKeysMeta := .ok []
  expandUpdates := .ok
  completePath u := .ok u.path
  validateUpdate _ := .ok ()
  marshalValue u := .ok u.value
  ownerData := [⟨["a", "b"], [1], 10, "owner1"⟩, ⟨["a", "c"], [5], 20, "owner2"⟩]
  cacheUpdateToUpdate u := .ok ⟨u.path, u.value⟩
  validate _ := []
  validateMustStatement _ := .ok ()
  validateLeafRef _ := .ok ()
  marshalRequest _ := .ok []
  newUpdate k b := .ok ⟨[k], b, 0, ""⟩
  answer _ := .ok ()

/-- `owner1`'s new intent drops `a/b` and adds `a/d`. -/
def ownerEntriesRequest : SetIntentRequest := ⟨"ds", "owner1", 10, [⟨["a", "d"], [3]⟩], false⟩

def ownerEntriesStore : CacheStore := ⟨[⟨["a", "b"], [1], 10, "owner1"⟩], by decide⟩

theorem setIntent_rewrites_owner_entries_sample :
    (setIntent ownerEntriesEnv ownerEntriesRequest).result = .ok () ∧ ownerEntriesRequest.dispatches ∧
      OwnerDataLoads ownerEntriesEnv ownerEntriesRequest ∧
      ownerEntriesStore.lookup =
        OwnerStore.ofUpdates (ownerEntriesEnv.ownerData.filter (·.owner = ownerEntriesRequest.intent)) ∧
      ∃ us, newCacheUpdates ownerEntriesEnv ownerEntriesRequest = .ok us ∧
        (ownerEntriesStore.applyCalls ownerEntriesEnv.answer .intended
          (setIntent ownerEntriesEnv ownerEntriesRequest).calls).lookup = OwnerStore.ofUpdates us :=
  have hok : (setIntent ownerEntriesEnv ownerEntriesRequest).result = .ok () := rfl
  have hload : OwnerDataLoads ownerEntriesEnv ownerEntriesRequest := by
    rintro idx root ⟨⟩ h
    cases h
    decide
  have hst : ownerEntriesStore.lookup =
      OwnerStore.ofUpdates (ownerEntriesEnv.ownerData.filter (·.owner = ownerEntriesRequest.intent)) :=
    funext fun p => (OwnerStore.ofUpdates_apply _ p).symm
  ⟨hok, rfl, hload, hst, setIntent_rewrites_owner_entries hok rfl hload hst⟩

theorem every_buildTree_addCacheUpdate {R : LeafVariants → Prop} (h0 : R [])
    (hadd : ∀ c new lv, R lv → R (lv.addCacheUpdate c new)) (tc : TreeContext) (new : Bool) :
    ∀ (us : List Update) {t : Entry}, t.Every (R ·.leafVariants) →
      (buildTree tc t (us.map (TreeOp.addCacheUpdate · new))).Every (R ·.leafVariants)
  | [], _, ht => ht
  | u :: us, _, ht => every_buildTree_addCacheUpdate h0 hadd tc new us
      (every_addCacheUpdateRecursive tc u new (fun r h => hadd u new r.leafVariants h) (fun _ _ h => h)
        (fun hne => (newEntry_ok hne).2.2.1 ▸ h0) _ _ _ _ ht)

theorem populateTree_onlyOwnerDeleted {env : Env} {req : SetIntentRequest} {tc tc' : TreeContext}
    {root : Entry} (h : populateTree env req tc = .ok (root, tc')) :
    (rootFinishInsertionPhase tc' root).Every (·.leafVariants.OnlyOwnerDeleted req.intent) := by
  obtain ⟨root0, idx, us, h0, -, rfl, -, hins⟩ := populateTree_eq_ok h
  obtain ⟨_, rfl⟩ := newSharedEntryAttributes_ok h0
  have hadd := fun c new (lv : LeafVariants) (h : lv.OnlyOwnerDeleted req.intent) =>
    LeafVariants.onlyOwnerDeleted_addCacheUpdate h c new
  rw [loadIntendedStoreOwnerData, buildTree, List.foldl_append, ← buildTree] at hins
  rw [addCacheUpdates_eq_buildTree hins]
  have hnil := LeafVariants.onlyOwnerDeleted_nil req.intent
  exact Entry.every_finishInsertionPhase _ [] _ (every_buildTree_addCacheUpdate hnil hadd _ true us
    (Entry.every_markOwnerDelete req.intent (fun _ _ _ _ _ h => LeafVariants.onlyOwnerDeleted_markOwnerDelete h) _
      (every_buildTree_addCacheUpdate hnil hadd _ false env.ownerData ⟨hnil, trivial⟩)))

/-- So every entry of the tree `SetIntentUpdate` builds holds at most one variant marked for
deletion, and at every entry that is not to be deleted and holds a live variant,
`GetHighestPrecedence(false)` returns a live variant of least priority among the live ones. -/
theorem populateTree_getHighestPrecedence_false {env : Env} {req : SetIntentRequest}
    {tc tc' : TreeContext} {root : Entry} (h : populateTree env req tc = .ok (root, tc')) :
    (rootFinishInsertionPhase tc' root).Every fun e =>
      (e.leafVariants.filter (·.delete)).length ≤ 1 ∧
        (e.leafVariants.shouldDelete = false → (∃ l ∈ e.leafVariants, l.delete = false) →
          ∃ l, e.leafVariants.getHighestPrecedence false = some l ∧ l ∈ e.leafVariants ∧ l.delete = false ∧
            ∀ x ∈ e.leafVariants, x.delete = false → l.priority ≤ x.priority) :=
  Entry.Every.mono (fun _ he => have hlen := LeafVariants.length_filter_delete_le_one he
    ⟨hlen, fun hsd hlive => LeafVariants.getHighestPrecedence_false_least_live hsd hlen hlive⟩) _
    (populateTree_onlyOwnerDeleted h)

theorem populateTree_getHighestPrecedence_false_sample :
    ∃ root tc', populateTree ownerEntriesEnv ownerEntriesRequest
        ⟨ownerEntriesEnv.getSchema, "owner1", [], .schema⟩ = .ok (root, tc') ∧
      ((rootFinishInsertionPhase tc' root).getAt ["a", "b"]).map
        (fun e => (e.leafVariants.filter (·.delete)).length) = some 1 ∧
      (rootFinishInsertionPhase tc' root).Every fun e =>
        (e.leafVariants.filter (·.delete)).length ≤ 1 ∧
          (e.leafVariants.shouldDelete = false → (∃ l ∈ e.leafVariants, l.delete = false) →
            ∃ l, e.leafVariants.getHighestPrecedence false = some l ∧ l ∈ e.leafVariants ∧ l.delete = false ∧
              ∀ x ∈ e.leafVariants, x.delete = false → l.priority ≤ x.priority) :=
  ⟨_, _, rfl, by decide, @populateTree_getHighestPrecedence_false ownerEntriesEnv ownerEntriesRequest
    ⟨ownerEntriesEnv.getSchema, "owner1", [], .schema⟩ _ _ rfl⟩

end DataServer
