import DataServer.Datastore.SetIntent
import DataServer.Tree.OwnerDelta

/-! The INTENTS store across transactions: `saveRawIntent` keeps each request under its raw-intent
key, read back by `GetIntent` and listed by `ListIntent`. Over any history it holds, for each
name and priority, the request of the last successful transaction for them. -/
namespace DataServer

@[simp] theorem Except.isOk_ok {ε α : Type} (a : α) : (Except.ok a : Except ε α).isOk = true := rfl

@[simp] theorem Except.isOk_error {ε α : Type} (e : ε) : (Except.error e : Except ε α).isOk = false := rfl

theorem Except.isOk_iff_exists {ε α : Type} {x : Except ε α} : x.isOk ↔ ∃ a, x = .ok a := by
  cases x <;> simp

/-- Modelled from the spec: the cache is not in the sources. One store of a device, as the list of
its updates, at most one at each path. -/
structure CacheStore where
  updates : List Update
  nodup : (updates.map (·.path)).Nodup

namespace CacheStore

/-- The store of a new device, with nothing in it. -/
def empty : CacheStore := ⟨[], List.nodup_nil⟩

/-- One update written: it replaces the update at its path. -/
def writeOne (us : List Update) (u : Update) : List Update := us.filter (·.path ≠ u.path) ++ [u]

theorem nodup_writeOne {us : List Update} (h : (us.map (·.path)).Nodup) (u : Update) :
    ((writeOne us u).map (·.path)).Nodup := by
  rw [writeOne, List.map_append, List.nodup_append]
  refine ⟨h.sublist ((List.filter_sublist _).map _), List.nodup_singleton _, ?_⟩
  simp only [List.Disjoint, List.mem_map, List.mem_filter, List.mem_singleton]
  rintro _ ⟨x, ⟨-, hx⟩, rfl⟩ ⟨_, rfl, hu⟩
  simp [hu] at hx

theorem nodup_foldl_writeOne (updates : List Update) :
    ∀ {us : List Update}, (us.map (·.path)).Nodup → ((updates.foldl writeOne us).map (·.path)).Nodup := by
  induction updates with
  | nil => exact id
  | cons u updates ih => exact fun h => ih (nodup_writeOne h u)

/-- `Modify(deletes, updates)`, atomic per call: the deletes removed, then the updates written in
order. -/
def modify (st : CacheStore) (deletes : List (List String)) (updates : List Update) : CacheStore :=
  ⟨updates.foldl writeOne (st.updates.filter (·.path ∉ deletes)),
    nodup_foldl_writeOne updates (st.nodup.sublist ((List.filter_sublist _).map _))⟩

/-- `Read` of a list of paths: the updates at them. -/
def read (st : CacheStore) (paths : List (List String)) : List Update := st.updates.filter (·.path ∈ paths)

/-- A keys-only `Read` of `*`: the path of every update of the store. -/
def keys (st : CacheStore) : List (List String) := st.updates.map (·.path)

/-- The update at a path: the store seen as a map from path to update. -/
def lookup (st : CacheStore) (p : List String) : Option Update := lastAt st.updates p

theorem lastAt_filter_of_path (us : List Update) (q : Update → Bool) {p : List String}
    (hq : ∀ u : Update, u.path = p → q u) : lastAt (us.filter q) p = lastAt us p := by
  simp only [lastAt, List.filter_filter]
  exact congrArg _ (List.filter_congr fun u _ => by by_cases h : u.path = p <;> simp [h, hq])

theorem lastAt_filter_eq_none (us : List Update) (q : Update → Bool) {p : List String}
    (hq : ∀ u : Update, u.path = p → q u = false) : lastAt (us.filter q) p = none := by
  simp only [lastAt, List.filter_filter, List.getLast?_eq_none_iff, List.filter_eq_nil_iff]
  intro u _
  by_cases h : u.path = p <;> simp [h, hq]

theorem lastAt_append (xs ys : List Update) (p : List String) :
    lastAt (xs ++ ys) p = (lastAt ys p).or (lastAt xs p) := by
  simp only [lastAt, List.filter_append, List.getLast?_append]

theorem lastAt_writeOne (us : List Update) (u : Update) :
    lastAt (writeOne us u) = Function.update (lastAt us) u.path (some u) := by
  funext p
  by_cases h : u.path = p
  · subst h
    simp [lastAt, writeOne]
  · rw [Function.update_noteq (Ne.symm h), writeOne, lastAt_append,
      lastAt_filter_of_path us _ fun w hw => by simpa [hw] using Ne.symm h]
    simp [lastAt, h]

theorem lastAt_filter_not_mem (us : List Update) (deletes : List (List String)) :
    lastAt (us.filter (·.path ∉ deletes)) = fun p => if p ∈ deletes then none else lastAt us p := by
  funext p
  split
  · exact lastAt_filter_eq_none us _ fun u hu => by simpa [hu]
  · exact lastAt_filter_of_path us _ fun u hu => by simpa [hu]

theorem lookup_modify (st : CacheStore) (deletes : List (List String)) (updates : List Update) :
    (st.modify deletes updates).lookup = OwnerStore.modify st.lookup deletes updates := by
  unfold lookup modify OwnerStore.modify
  rw [← lastAt_filter_not_mem, List.foldl_hom (lastAt) writeOne _ updates _ fun us u => (lastAt_writeOne us u).symm]

theorem read_singleton (st : CacheStore) (k : List String) : st.read [k] = (st.lookup k).toList := by
  have hn : ((st.updates.filter (·.path = k)).map (·.path)).Nodup :=
    st.nodup.sublist ((List.filter_sublist _).map _)
  have hp : ∀ u ∈ st.updates.filter (·.path = k), u.path = k := fun u hu => by
    simpa using (List.mem_filter.1 hu).2
  rw [show st.read [k] = st.updates.filter (·.path = k) by simp [read], lookup, lastAt]
  generalize st.updates.filter (·.path = k) = l at hn hp ⊢
  match l, hn, hp with
  | [], _, _ => rfl
  | [_], _, _ => rfl
  | u :: v :: _, hn, hp =>
    simp only [List.map_cons, List.nodup_cons, List.mem_cons] at hn
    exact (hn.1 (.inl ((hp u (by simp)).trans (hp v (by simp)).symm))).elim

theorem mem_keys (st : CacheStore) (k : List String) : k ∈ st.keys ↔ (st.lookup k).isSome := by
  simp [keys, lookup, Option.isSome_iff_exists, lastAt_eq_some_iff st.nodup]

theorem mem_keys_modify {st : CacheStore} {deletes : List (List String)} {updates : List Update}
    {k : List String} (h : k ∈ (st.modify deletes updates).keys) : k ∈ st.keys ∨ k ∈ updates.map (·.path) := by
  rw [mem_keys, lookup_modify, OwnerStore.modify_apply] at h
  rw [mem_keys]
  cases hl : lastAt updates k with
  | some w =>
    have hw := List.mem_filter.1 (List.mem_of_getLast?_eq_some hl)
    exact .inr (List.mem_map.2 ⟨w, hw.1, by simpa using hw.2⟩)
  | none =>
    rw [hl, Option.none_or] at h
    split at h
    · simp at h
    · exact .inl h

/-- A call's effect on the store `s` of the cache: a `Modify` of `s` the cache accepted; `Modify` is
atomic, so a refused one changes nothing. -/
def applyCall (answer : Call → Except Fault Unit) (s : Store) (st : CacheStore) : Call → CacheStore
  | .modify s' deletes updates =>
    if s' = s ∧ (answer (.modify s' deletes updates)).isOk then st.modify deletes updates else st
  | _ => st

/-- The effect of a run's calls on the store `s`, in order. -/
def applyCalls (answer : Call → Except Fault Unit) (s : Store) (st : CacheStore) (calls : List Call) :
    CacheStore :=
  calls.foldl (applyCall answer s) st

variable {answer : Call → Except Fault Unit} {s : Store} {st : CacheStore}

@[simp] theorem applyCalls_nil : st.applyCalls answer s [] = st := rfl

@[simp] theorem applyCalls_cons (c : Call) (cs : List Call) :
    st.applyCalls answer s (c :: cs) = (applyCall answer s st c).applyCalls answer s cs := rfl

@[simp] theorem applyCalls_append (cs ds : List Call) :
    st.applyCalls answer s (cs ++ ds) = (st.applyCalls answer s cs).applyCalls answer s ds :=
  List.foldl_append _ _ _ _

theorem applyCall_of_store_ne {c : Call} (h : c.store? ≠ some s) : applyCall answer s st c = st := by
  cases c <;> simp_all [applyCall, Call.store?]

theorem applyCalls_of_store_ne {cs : List Call} (h : ∀ c ∈ cs, c.store? ≠ some s) :
    st.applyCalls answer s cs = st := by
  induction cs generalizing st with
  | nil => rfl
  | cons c cs ih =>
    rw [applyCalls_cons, applyCall_of_store_ne (h c (List.mem_cons_self c cs)),
      ih fun c' hc' => h c' (List.mem_cons_of_mem c hc')]

theorem applyCalls_of_noWrites {α : Type} {r : Run α} (h : r.NoWrites) : st.applyCalls answer s r.calls = st :=
  applyCalls_of_store_ne fun c hc => by simp [h c hc]

end CacheStore

theorem Run.result_bind_unit_isOk {β : Type} (r : Run Unit) (f : Unit → Run β) :
    (r >>= f).result.isOk = (r.result.isOk && (f ()).result.isOk) := by
  simp only [Run.bind_eq, Run.bind]
  split <;> simp_all

section Transaction

variable (env : Env) (req : SetIntentRequest) (st : CacheStore)

/-- The INTENTS store once a transaction's raw-intent write succeeded: the request's key removed for
a delete, the update `saveRawIntent` built written otherwise. -/
def rawIntentModify : CacheStore :=
  if req.delete then st.modify [[rawIntentName req.intent req.priority]] []
  else match env.marshalRequest req >>= env.newUpdate (rawIntentName req.intent req.priority) with
    | .ok u => st.modify [] [u]
    | .error _ => st

theorem applyCalls_rawIntentWrite :
    st.applyCalls env.answer .intents (rawIntentWrite env req).calls =
      if (rawIntentWrite env req).result.isOk then rawIntentModify env req st else st := by
  unfold rawIntentWrite rawIntentModify saveRawIntent deleteRawIntent
  split
  · simp [CacheStore.applyCall]
  · cases env.marshalRequest req with
    | error e => rfl
    | ok b =>
      cases h : env.newUpdate (rawIntentName req.intent req.priority) b <;>
        simp [Run.bind, CacheStore.applyCall, h, bind, Except.bind]

theorem result_updateIntendedStore_isOk (x : List Update × List (List String) × Entry) :
    (updateIntendedStore env req x).result.isOk =
      ((env.answer (.modify .intended (getDeletesForOwner x.2.2 req.intent)
        (getUpdatesForOwner x.2.2 req.intent))).isOk &&
        (env.answer (.modify .config x.2.1 x.1)).isOk && (rawIntentWrite env req).result.isOk) := by
  obtain ⟨updates, deletes, root⟩ := x
  simp only [updateIntendedStore, Run.result_bind_unit_isOk, Run.result_wrapError_isOk, Run.result_issue,
    rawIntentWrite, Bool.and_assoc]

theorem applyCalls_updateIntendedStore (x : List Update × List (List String) × Entry) :
    st.applyCalls env.answer .intents (updateIntendedStore env req x).calls =
      if (updateIntendedStore env req x).result.isOk then rawIntentModify env req st else st := by
  rw [calls_updateIntendedStore, result_updateIntendedStore_isOk]
  cases env.answer (.modify .intended (getDeletesForOwner x.2.2 req.intent) (getUpdatesForOwner x.2.2 req.intent)) <;>
    cases env.answer (.modify .config x.2.1 x.1) <;>
    simp [CacheStore.applyCall, applyCalls_rawIntentWrite]

theorem rawIntentModify_of_save (h : (rawIntentWrite env req).result.isOk) (hd : req.delete = false) :
    ∃ b u, env.marshalRequest req = .ok b ∧ env.newUpdate (rawIntentName req.intent req.priority) b = .ok u ∧
      rawIntentModify env req st = st.modify [] [u] := by
  unfold rawIntentWrite saveRawIntent at h
  unfold rawIntentModify
  rw [hd, if_neg Bool.false_ne_true] at h ⊢
  cases hm : env.marshalRequest req with
  | error e => simp [hm, Run.bind] at h
  | ok b =>
    cases hn : env.newUpdate (rawIntentName req.intent req.priority) b with
    | error e => simp [hm, hn, Run.bind] at h
    | ok u => exact ⟨b, u, rfl, hn, by simp [bind, Except.bind, hn]⟩

theorem applyCalls_setIntentUpdate (name : String) :
    st.applyCalls env.answer .intents (setIntentUpdate env req name).calls =
      if (setIntentUpdate env req name).result.isOk then rawIntentModify env req st else st := by
  have hno : st.applyCalls env.answer .intents (setIntentUpdateApply env req name).calls = st :=
    CacheStore.applyCalls_of_noWrites (noWrites_setIntentUpdateApply env req name)
  rw [setIntentUpdate, Run.bind_eq]
  cases ha : (setIntentUpdateApply env req name).result with
  | error e => simpa [Run.bind_of_error _ ha] using hno
  | ok x =>
    rw [Run.bind_of_ok _ ha, CacheStore.applyCalls_append, hno]
    exact applyCalls_updateIntendedStore env req st x

theorem applyCalls_setIntent :
    st.applyCalls env.answer .intents (setIntent env req).calls =
      if (setIntent env req).result.isOk ∧ req.dispatches then rawIntentModify env req st else st := by
  cases hl : env.tryLock
  · rw [setIntent_of_locked env req hl]
    rfl
  cases hc : env.answer (.createCandidate (candidateName req env.now)) with
  | error e =>
    rw [setIntent_of_not_created env req hl hc]
    rfl
  | ok u =>
    rw [setIntent_of_created env req hl hc]
    simp only [CacheStore.applyCalls_cons, CacheStore.applyCalls_append, CacheStore.applyCall,
      CacheStore.applyCalls_nil, setIntentDispatch_eq]
    cases req.dispatches
    · rfl
    · simpa using applyCalls_setIntentUpdate env req st _

theorem rawIntentWrite_ok_of_setIntent_ok (h : (setIntent env req).result.isOk) (hd : req.dispatches) :
    (rawIntentWrite env req).result.isOk := by
  cases hl : env.tryLock
  · simp [setIntent_of_locked env req hl] at h
  cases hc : env.answer (.createCandidate (candidateName req env.now)) with
  | error e => simp [setIntent_of_not_created env req hl hc] at h
  | ok u =>
    rw [setIntent_of_created env req hl hc, setIntentDispatch_eq, if_pos hd, setIntentUpdate, Run.bind_eq] at h
    cases ha : (setIntentUpdateApply env req (candidateName req env.now)).result with
    | error e => simp [Run.bind_of_error _ ha] at h
    | ok x =>
      rw [Run.bind_of_ok _ ha, result_updateIntendedStore_isOk, Bool.and_eq_true] at h
      exact h.2

end Transaction

/-- `ErrIntentNotFound`. -/
def errIntentNotFound : Fault := .error "intent not found"

/-- What `getRawIntent` asks of the libraries: `upd.Value()` followed by `GetBytesVal()`, the bytes
of an update's value, and `proto.Unmarshal` into a request. -/
structure IntentCodec where
  bytesVal : Update → Except Fault (List UInt8)
  unmarshal : List UInt8 → Except Fault SetIntentRequest

/-- The request a stored update decodes to. -/
def IntentCodec.decode (codec : IntentCodec) (u : Update) : Except Fault SetIntentRequest :=
  codec.bytesVal u >>= codec.unmarshal

/-- `getRawIntent`: the INTENTS store read at the raw-intent key of the name and priority, and the
first update found decoded. -/
def getRawIntent (codec : IntentCodec) (read : List (List String) → List Update) (intentName : String)
    (priority : Int32) : Except Fault SetIntentRequest :=
  match read [[rawIntentName intentName priority]] with
  | [] => .error errIntentNotFound
  | u :: _ => codec.decode u

/-- `sdcpb.GetIntentResponse`: the datastore's name, and the intent's name, priority and updates. -/
structure GetIntentResponse where
  name : String
  intent : String
  priority : Int32
  update : List ReqUpdate
deriving DecidableEq, Repr

/-- `GetIntent`, for the datastore named `dsName`. -/
def getIntent (dsName : String) (codec : IntentCodec) (read : List (List String) → List Update)
    (intent : String) (priority : Int32) : Except Fault GetIntentResponse := do
  let r ← getRawIntent codec read intent priority
  pure ⟨dsName, r.intent, r.priority, r.update⟩

/-- `sdcpb.ListIntentResponse`. -/
structure ListIntentResponse where
  name : String
  intent : List Intent
deriving DecidableEq, Repr

/-- `ListIntent` for the request named `reqName`, over the keys a keys-only read of the INTENTS
store returns. -/
def listIntent (reqName : String) (keys : List (List String)) : Except Fault ListIntentResponse := do
  let intents ← listRawIntent keys
  pure ⟨reqName, intents⟩

theorem rawIntentName_inj {n n' : String} {p p' : Int32} :
    rawIntentName n p = rawIntentName n' p' ↔ n = n' ∧ p = p' := by
  refine ⟨fun h => ?_, fun ⟨h1, h2⟩ => h1 ▸ h2 ▸ rfl⟩
  have hd := rawIntentOfPath_rawIntentName n p
  rw [h, rawIntentOfPath_rawIntentName] at hd
  cases hd
  exact ⟨rfl, rfl⟩

/-- The INTENTS store holds the view `σ`, which gives the request stored for each name and priority.
-/
structure CacheStore.Holds (codec : IntentCodec) (st : CacheStore)
    (σ : String → Int32 → Option SetIntentRequest) : Prop where
  /-- Every key of the store is the raw-intent key of a name and priority. -/
  keys : ∀ k ∈ st.keys, ∃ n p, k = [rawIntentName n p]
  /-- The key of a name and priority holds an update exactly when `σ` does, decoding to it. -/
  lookup : ∀ n p, (st.lookup [rawIntentName n p]).map codec.decode = (σ n p).map .ok

namespace CacheStore.Holds

variable {codec : IntentCodec} {st : CacheStore} {σ : String → Int32 → Option SetIntentRequest}

theorem empty : CacheStore.empty.Holds codec fun _ _ => none :=
  ⟨fun _ h => absurd h (List.not_mem_nil _), fun _ _ => rfl⟩

theorem isSome_lookup (h : st.Holds codec σ) (n : String) (p : Int32) :
    (st.lookup [rawIntentName n p]).isSome = (σ n p).isSome := by
  simpa using congrArg Option.isSome (h.lookup n p)

theorem modify_delete (h : st.Holds codec σ) (n₀ : String) (p₀ : Int32) :
    (st.modify [[rawIntentName n₀ p₀]] []).Holds codec
      fun n p => if n = n₀ ∧ p = p₀ then none else σ n p := by
  refine ⟨fun k hk => (mem_keys_modify hk).elim (h.keys k) (by simp), fun n p => ?_⟩
  rw [lookup_modify, OwnerStore.modify_apply]
  simp only [List.mem_singleton, List.cons.injEq, and_true, rawIntentName_inj]
  split_ifs
  · rfl
  · exact h.lookup n p

theorem modify_save (h : st.Holds codec σ) {n₀ : String} {p₀ : Int32} {u : Update} {r : SetIntentRequest}
    (hpath : u.path = [rawIntentName n₀ p₀]) (hdec : codec.decode u = .ok r) :
    (st.modify [] [u]).Holds codec fun n p => if n = n₀ ∧ p = p₀ then some r else σ n p := by
  refine ⟨fun k hk => (mem_keys_modify hk).elim (h.keys k) fun hk => ?_, fun n p => ?_⟩
  · exact ⟨n₀, p₀, by simpa [hpath] using hk⟩
  rw [lookup_modify, OwnerStore.modify_apply, lastAt_cons, hpath]
  simp only [List.cons.injEq, and_true, rawIntentName_inj, List.not_mem_nil, if_false]
  by_cases hnp : n = n₀ ∧ p = p₀
  · obtain ⟨rfl, rfl⟩ := hnp
    simp [hdec, lastAt]
  · rw [if_neg fun h' => hnp ⟨h'.1.symm, h'.2.symm⟩, if_neg hnp]
    exact h.lookup n p

theorem getRawIntent_eq (h : st.Holds codec σ) (n : String) (p : Int32) :
    getRawIntent codec st.read n p = match σ n p with
      | some r => .ok r
      | none => .error errIntentNotFound := by
  have hl := h.lookup n p
  unfold getRawIntent
  rw [read_singleton]
  cases hk : st.lookup [rawIntentName n p] <;> cases hσ : σ n p <;> simp_all

theorem listRawIntent_eq (h : st.Holds codec σ) :
    ∃ intents, listRawIntent st.keys = .ok intents ∧
      (∀ i, i ∈ intents ↔ (σ i.intent i.priority).isSome) ∧ intents.Sorted fun a b => a.key < b.key := by
  let g : List String → Intent := fun k => (rawIntentOfPath k).toOption.getD ⟨"", 0⟩
  have hg : ∀ k ∈ st.keys, rawIntentOfPath k = .ok (g k) ∧ k = [rawIntentName (g k).intent (g k).priority] := by
    intro k hk
    obtain ⟨n, p, rfl⟩ := h.keys k hk
    simp only [g, rawIntentOfPath_rawIntentName]
    exact ⟨rfl, rfl⟩
  have hnd : ((st.keys.map g).map fun i => (i.intent, i.priority)).Nodup := by
    rw [List.map_map]
    refine st.nodup.map_on fun k hk k' hk' he => ?_
    simp only [Function.comp_apply, Prod.mk.injEq] at he
    rw [(hg k hk).2, (hg k' hk').2, he.1, he.2]
  have hmem : ∀ i, i ∈ st.keys.map g ↔ (σ i.intent i.priority).isSome := fun i => by
    rw [← h.isSome_lookup, ← mem_keys, List.mem_map]
    constructor
    · rintro ⟨k, hk, rfl⟩
      exact (hg k hk).2 ▸ hk
    · intro hk
      refine ⟨_, hk, ?_⟩
      simp only [g, rawIntentOfPath_rawIntentName]
      rfl
  refine ⟨(st.keys.map g).mergeSort fun a b => !intentLess b a, ?_, fun i => List.mem_mergeSort.trans (hmem i),
    sorted_mergeSort_intentLess _ hnd⟩
  unfold listRawIntent
  split
  · rw [show st.keys = [] from List.length_eq_zero.1 ‹_›, List.map_nil, List.mergeSort_nil]
  · rw [mapM_eq_ok _ g _ fun k hk => (hg k hk).1]
    rfl

end CacheStore.Holds

/-- Whether a transaction stores or removes the raw intent of a name and priority: it returned
success, had something to dispatch, and is for that name and priority. -/
def writesIntent (n : String) (p : Int32) (tx : Env × SetIntentRequest) : Bool :=
  (setIntent tx.1 tx.2).result.isOk && tx.2.dispatches && tx.2.intent == n && tx.2.priority == p

/-- The request a history of transactions leaves stored for a name and priority, read off their
responses: that of the last successful transaction for them with something to dispatch, or none
when there is none or that one was a delete. -/
def lastStored (txs : List (Env × SetIntentRequest)) (n : String) (p : Int32) : Option SetIntentRequest :=
  ((txs.filter (writesIntent n p)).getLast?.map (·.2)).filter fun r => !r.delete

/-- The INTENTS store of a device after a history of transactions, from the empty store. -/
def intentsAfter (txs : List (Env × SetIntentRequest)) : CacheStore :=
  txs.foldl (fun st tx => st.applyCalls tx.1.answer .intents (setIntent tx.1 tx.2).calls) CacheStore.empty

/-- The library calls of a transaction's save, as the round trip through the store needs them:
`NewUpdate` keeps the one-element path it is given, and the update's bytes unmarshal to the
request `proto.Marshal` encoded. -/
def SavesDecodably (codec : IntentCodec) (env : Env) (req : SetIntentRequest) : Prop :=
  ∀ b u, env.marshalRequest req = .ok b → env.newUpdate (rawIntentName req.intent req.priority) b = .ok u →
    u.path = [rawIntentName req.intent req.priority] ∧ codec.decode u = .ok req

theorem lastStored_append_singleton (txs : List (Env × SetIntentRequest)) (env : Env) (req : SetIntentRequest)
    (n : String) (p : Int32) :
    lastStored (txs ++ [(env, req)]) n p =
      if (setIntent env req).result.isOk ∧ req.dispatches ∧ n = req.intent ∧ p = req.priority then
        (if req.delete then none else some req)
      else lastStored txs n p := by
  unfold lastStored
  rw [List.filter_append]
  by_cases hw : writesIntent n p (env, req)
  · have hc : (setIntent env req).result.isOk ∧ req.dispatches ∧ n = req.intent ∧ p = req.priority := by
      simp only [writesIntent, Bool.and_eq_true, beq_iff_eq] at hw
      exact ⟨hw.1.1.1, hw.1.1.2, hw.1.2.symm, hw.2.symm⟩
    rw [List.filter_singleton, hw, if_pos hc]
    cases hd : req.delete <;> simp [hd]
  · have hc : ¬((setIntent env req).result.isOk ∧ req.dispatches ∧ n = req.intent ∧ p = req.priority) := by
      rintro ⟨h1, h2, rfl, rfl⟩
      simp [writesIntent, h1, h2] at hw
    rw [List.filter_singleton, if_neg hc]
    simp [hw]

theorem lastStored_eq_some {txs : List (Env × SetIntentRequest)} {n : String} {p : Int32} {r : SetIntentRequest}
    (h : lastStored txs n p = some r) : r.intent = n ∧ r.priority = p := by
  simp only [lastStored, Option.filter_eq_some, Option.mem_def, Option.map_eq_some'] at h
  obtain ⟨⟨tx, hl, rfl⟩, -⟩ := h
  have hw := (List.mem_filter.1 (List.mem_of_getLast?_eq_some hl)).2
  simp only [writesIntent, Bool.and_eq_true, beq_iff_eq] at hw
  exact ⟨hw.1.2, hw.2⟩

theorem CacheStore.Holds.setIntent {codec : IntentCodec} {st : CacheStore} {txs : List (Env × SetIntentRequest)}
    (h : st.Holds codec (lastStored txs)) {env : Env} {req : SetIntentRequest} (hs : SavesDecodably codec env req) :
    (st.applyCalls env.answer .intents (setIntent env req).calls).Holds codec (lastStored (txs ++ [(env, req)])) := by
  have hview := lastStored_append_singleton txs env req
  rw [applyCalls_setIntent]
  split_ifs with hok
  · have hσ : lastStored (txs ++ [(env, req)]) = fun n p =>
        if n = req.intent ∧ p = req.priority then (if req.delete then none else some req) else lastStored txs n p := by
      funext n p
      simp only [hview, hok, true_and]
    have hw := rawIntentWrite_ok_of_setIntent_ok env req hok.1 hok.2
    rw [hσ]
    cases hd : req.delete
    · obtain ⟨b, u, hb, hu, heq⟩ := rawIntentModify_of_save env req st hw hd
      obtain ⟨hpath, hdec⟩ := hs b u hb hu
      simpa only [heq, Bool.false_eq_true, if_false] using h.modify_save hpath hdec
    · simpa only [rawIntentModify, hd, if_true] using h.modify_delete req.intent req.priority
  · refine ⟨h.keys, fun n p => ?_⟩
    rw [h.lookup, hview, if_neg fun h' => hok ⟨h'.1, h'.2.1⟩]

theorem holds_intentsAfter (codec : IntentCodec) (txs : List (Env × SetIntentRequest))
    (hs : ∀ tx ∈ txs, SavesDecodably codec tx.1 tx.2) : (intentsAfter txs).Holds codec (lastStored txs) := by
  induction txs using List.reverseRecOn with
  | nil => exact CacheStore.Holds.empty
  | append_singleton txs tx ih =>
    rw [intentsAfter, List.foldl_append, ← intentsAfter]
    exact (ih fun t ht => hs t (List.mem_append_left _ ht)).setIntent (hs tx (by simp))

/-- A device whose cache and libraries accept everything: `proto.Marshal` gives no bytes,
`NewUpdate` builds the update at the key it is given, and every call is answered with success. -/
def acceptingEnv : Env where
  name := "ds"
  tryLock := true
  now := 0
  getSchema _ := .ok none
  caseOrder := .schema
  intendedStoreKeysMeta := .ok []
  expandUpdates := .ok
  completePath u := .ok u.path
  validateUpdate _ := .ok ()
  marshalValue u := .ok u.value
  ownerData := []
  cacheUpdateToUpdate u := .ok ⟨u.path, u.value⟩
  validate _ := []
  validateMustStatement _ := .ok ()
  validateLeafRef _ := .ok ()
  marshalRequest _ := .ok []
  newUpdate k b := .ok ⟨[k], b, 0, ""⟩
  answer _ := .ok ()

theorem savesDecodably_acceptingEnv (req : SetIntentRequest) :
    SavesDecodably ⟨fun u => .ok u.value, fun _ => .ok req⟩ acceptingEnv req := by
  rintro b u ⟨⟩ ⟨⟩
  exact ⟨rfl, rfl⟩

/-- `GetIntent` after any history of transactions: for each name and priority it returns that name
and priority with the updates of the last transaction for them that returned success and had
something to dispatch, and `ErrIntentNotFound` when there is none or the last one was a delete. -/
theorem getIntent_after_history (dsName : String) (codec : IntentCodec) (txs : List (Env × SetIntentRequest))
    (hs : ∀ tx ∈ txs, SavesDecodably codec tx.1 tx.2) (n : String) (p : Int32) :
    getIntent dsName codec (intentsAfter txs).read n p =
      match lastStored txs n p with
      | some r => .ok ⟨dsName, n, p, r.update⟩
      | none => .error errIntentNotFound := by
  unfold getIntent
  rw [(holds_intentsAfter codec txs hs).getRawIntent_eq n p]
  cases hr : lastStored txs n p with
  | none => rfl
  | some r =>
    obtain ⟨rfl, rfl⟩ := lastStored_eq_some hr
    rfl

theorem getIntent_after_history_sample :
    let req : SetIntentRequest := ⟨"ds", "a", 5, [⟨["x"], [1]⟩], false⟩
    (∀ tx ∈ [(acceptingEnv, req)], SavesDecodably ⟨fun u => .ok u.value, fun _ => .ok req⟩ tx.1 tx.2) ∧
      getIntent "ds" ⟨fun u => .ok u.value, fun _ => .ok req⟩ (intentsAfter [(acceptingEnv, req)]).read "a" 5 =
        match lastStored [(acceptingEnv, req)] "a" 5 with
        | some r => .ok ⟨"ds", "a", 5, r.update⟩
        | none => .error errIntentNotFound :=
  ⟨fun _ h => by obtain rfl := List.mem_singleton.1 h; exact savesDecodably_acceptingEnv _,
    getIntent_after_history _ _ _ (fun _ h => by obtain rfl := List.mem_singleton.1 h; exact savesDecodably_acceptingEnv _) _ _⟩

/-- `ListIntent` after any history of transactions lists exactly the names and priorities whose last
successful transaction with something to dispatch stored a request, that is those `GetIntent`
finds, each once, sorted by priority and then by name. -/
theorem listIntent_after_history (reqName : String) (codec : IntentCodec) (txs : List (Env × SetIntentRequest))
    (hs : ∀ tx ∈ txs, SavesDecodably codec tx.1 tx.2) :
    ∃ intents, listIntent reqName (intentsAfter txs).keys = .ok ⟨reqName, intents⟩ ∧
      (∀ n p, ⟨n, p⟩ ∈ intents ↔ (lastStored txs n p).isSome) ∧
      intents.Sorted fun a b => a.priority < b.priority ∨ a.priority = b.priority ∧ a.intent < b.intent := by
  obtain ⟨intents, hl, hmem, hsort⟩ := (holds_intentsAfter codec txs hs).listRawIntent_eq
  refine ⟨intents, by rw [listIntent, hl]; rfl, fun n p => hmem ⟨n, p⟩, hsort.imp fun h => ?_⟩
  simpa only [Intent.key, Prod.Lex.lt_iff] using h

theorem listIntent_after_history_sample :
    let req : SetIntentRequest := ⟨"ds", "a", 5, [⟨["x"], [1]⟩], false⟩
    (∀ tx ∈ [(acceptingEnv, req)], SavesDecodably ⟨fun u => .ok u.value, fun _ => .ok req⟩ tx.1 tx.2) ∧
      ∃ intents, listIntent "ds" (intentsAfter [(acceptingEnv, req)]).keys = .ok ⟨"ds", intents⟩ ∧
        (∀ n p, ⟨n, p⟩ ∈ intents ↔ (lastStored [(acceptingEnv, req)] n p).isSome) ∧
        intents.Sorted fun a b => a.priority < b.priority ∨ a.priority = b.priority ∧ a.intent < b.intent :=
  ⟨fun _ h => by obtain rfl := List.mem_singleton.1 h; exact savesDecodably_acceptingEnv _,
    listIntent_after_history _ _ _ fun _ h => by obtain rfl := List.mem_singleton.1 h; exact savesDecodably_acceptingEnv _⟩

end DataServer
