import DataServer.Datastore.RawIntent
import DataServer.Tree.Query
import DataServer.Tree.Deletes

/-! The intent transaction: `SetIntent` takes the intent mutex, creates a candidate, runs
`SetIntentUpdate` and deletes the candidate on the way out. Everything outside the data server
answers through an `Env`; a run records the calls that act on the cache or the device, in
program order. -/
namespace DataServer

/-- The stores of the cache a transaction modifies. -/
inductive Store where
  | intended
  | config
  | intents
deriving DecidableEq, Repr

/-- `sdcpb.Update` as the transaction passes it on: a path and an encoded value. -/
structure ReqUpdate where
  path : List String
  value : List UInt8
deriving DecidableEq, Repr

/-- `sdcpb.SetIntentRequest`. -/
structure SetIntentRequest where
  name : String
  intent : String
  priority : Int32
  update : List ReqUpdate
  delete : Bool
deriving DecidableEq, Repr

/-- `sdcpb.SetDataRequest` addressed to the transaction's candidate. -/
structure SetDataRequest where
  name : String
  candidate : String
  owner : String
  priority : Int32
  update : List ReqUpdate
  delete : List (List String)
deriving DecidableEq, Repr

/-- The calls of a transaction that act on the cache or the device. -/
inductive Call where
  | createCandidate (name : String)
  | deleteCandidate (name : String)
  | setCandidate (req : SetDataRequest)
  | sbiSet (update : List ReqUpdate) (delete : List (List String))
  | modify (store : Store) (deletes : List (List String)) (updates : List Update)
deriving DecidableEq, Repr

/-- The store a call modifies, if it is a `Modify`. -/
def Call.store? : Call → Option Store
  | .modify s _ _ => some s
  | _ => none

/-- The answers of everything a transaction calls out to. -/
structure Env where
  /-- `d.Name()`. -/
  name : String
  /-- `d.intentMutex.TryLock()`. -/
  tryLock : Bool
  /-- `time.Now().UnixNano()`. -/
  now : Int
  /-- The schema service, as the tree context asks it. -/
  getSchema : List String → Except String (Option SchemaElem)
  /-- The order in which the tree's entries visit their choices' cases. -/
  caseOrder : CaseOrder
  /-- `readIntendedStoreKeysMeta`. -/
  intendedStoreKeysMeta : Except Fault (List (String × List Update))
  /-- `expandUpdates`. -/
  expandUpdates : List ReqUpdate → Except Fault (List ReqUpdate)
  /-- `utils.CompletePath`. -/
  completePath : ReqUpdate → Except Fault (List String)
  /-- `validateUpdate`. -/
  validateUpdate : ReqUpdate → Except Fault Unit
  /-- `proto.Marshal` of an update's value. -/
  marshalValue : ReqUpdate → Except Fault (List UInt8)
  /-- The intended-store entries `LoadIntendedStoreOwnerData` reads. -/
  ownerData : List Update
  /-- `cacheUpdateToUpdate`. -/
  cacheUpdateToUpdate : Update → Except Fault ReqUpdate
  /-- The errors `root.Validate` sends on its channel. -/
  validate : Entry → List String
  /-- `validateMustStatement` on an update's path. -/
  validateMustStatement : ReqUpdate → Except Fault Unit
  /-- `validateLeafRef`. -/
  validateLeafRef : ReqUpdate → Except Fault Unit
  /-- `proto.Marshal` of the request. -/
  marshalRequest : SetIntentRequest → Except Fault (List UInt8)
  /-- `cacheClient.NewUpdate` of a one-element path and a bytes value. -/
  newUpdate : String → List UInt8 → Except Fault Update
  /-- The answer to each call on the cache or the device. -/
  answer : Call → Except Fault Unit

/-- A run of code that calls out: the calls it made, in order, and how it ended. -/
structure Run (α : Type) where
  calls : List Call
  result : Except Fault α

namespace Run

variable {α β : Type}

def bind (r : Run α) (f : α → Run β) : Run β :=
  match r.result with
  | .ok a => ⟨r.calls ++ (f a).calls, (f a).result⟩
  | .error e => ⟨r.calls, .error e⟩

instance : Monad Run where
  pure a := ⟨[], .ok a⟩
  bind := bind

/-- Code that calls nothing out. -/
def lift (e : Except Fault α) : Run α := ⟨[], e⟩

/-- A call on the cache or the device, answered by the environment. -/
def issue (env : Env) (c : Call) : Run Unit := ⟨[c], env.answer c⟩

/-- `defer`: the call is made after the run, whichever way it ended; its own answer is only logged.
-/
def deferCall (r : Run α) (c : Call) : Run α := ⟨r.calls ++ [c], r.result⟩

/-- `fmt.Errorf(msg + "%w", err)` around the error the run returned. -/
def wrapError (msg : String) (r : Run α) : Run α :=
  ⟨r.calls, match r.result with
    | .error (.error e) => .error (.error (msg ++ e))
    | res => res⟩

@[simp] theorem bind_eq (r : Run α) (f : α → Run β) : r >>= f = r.bind f := rfl

@[simp] theorem calls_pure (a : α) : (pure a : Run α).calls = [] := rfl

@[simp] theorem result_pure (a : α) : (pure a : Run α).result = .ok a := rfl

@[simp] theorem calls_lift (e : Except Fault α) : (lift e).calls = [] := rfl

@[simp] theorem result_lift (e : Except Fault α) : (lift e).result = e := rfl

@[simp] theorem calls_issue (env : Env) (c : Call) : (issue env c).calls = [c] := rfl

@[simp] theorem result_issue (env : Env) (c : Call) : (issue env c).result = env.answer c := rfl

@[simp] theorem calls_wrapError (msg : String) (r : Run α) : (wrapError msg r).calls = r.calls := rfl

theorem result_wrapError_isOk (msg : String) (r : Run α) :
    (wrapError msg r).result.isOk = r.result.isOk := by
  unfold wrapError
  rcases r with ⟨_, (_ | _) | _⟩ <;> rfl

theorem bind_of_ok {r : Run α} {a : α} (f : α → Run β) (h : r.result = .ok a) :
    r.bind f = ⟨r.calls ++ (f a).calls, (f a).result⟩ := by
  simp only [bind, h]

theorem bind_of_error {r : Run α} {e : Fault} (f : α → Run β) (h : r.result = .error e) :
    r.bind f = ⟨r.calls, .error e⟩ := by
  simp only [bind, h]

end Run

/-- Modelled from the spec: `LoadIntendedStoreOwnerData` is not in the sources. Steps 5 to 7 of
`SetIntentUpdate`'s comment: the entries read from the intended store are added with `new`
unset, then every variant of the owner is marked for deletion; the call's result is not checked. -/
def loadIntendedStoreOwnerData (tc : TreeContext) (owner : String) (entries : List Update)
    (root : Entry) : Entry :=
  buildTree tc root (entries.map (TreeOp.addCacheUpdate · false) ++ [.markOwnerDelete owner])

/-- `populateTree`: a root from `NewTreeRoot`; the intended-store index set into the tree context;
the request's updates expanded and turned into cache updates of the intent's owner and priority;
the owner's intended data loaded; then every new update added with `new` set. -/
def populateTree (env : Env) (req : SetIntentRequest) (tc : TreeContext) :
    Except Fault (Entry × TreeContext) := do
  let root ← newTreeRoot tc
  let storeIndex ← env.intendedStoreKeysMeta
  let tc := { tc with storeIndex := storeIndex }
  let expandedReqUpdates ← env.expandUpdates req.update
  let newCacheUpdates ← expandedReqUpdates.mapM fun u => do
    let pathslice ← env.completePath u
    env.validateUpdate u
    let val ← env.marshalValue u
    pure (⟨pathslice, val, req.priority, req.intent⟩ : Update)
  let root := loadIntendedStoreOwnerData tc req.intent env.ownerData root
  let root ← addCacheUpdates tc true root newCacheUpdates
  pure (root, tc)

/-- `applyIntent`: the must statements and the leafrefs of every update are checked, and the updates
and deletes are sent southbound when there are any. -/
def applyIntent (env : Env) (candidateName : String) (sdreq : SetDataRequest) : Run Unit := do
  if candidateName = "" then Run.lift (.error (.error "missing candidate name")) else
  Run.lift (sdreq.update.forM env.validateMustStatement)
  Run.lift (sdreq.update.forM env.validateLeafRef)
  if sdreq.update.length + sdreq.delete.length > 0 then Run.issue env (.sbiSet sdreq.update sdreq.delete)

/-- `SetIntentUpdate` up to `applyIntent`: the tree is built and finished, the device updates and
deletes are computed, the tree is validated, the candidate is written and the result applied to
the device. -/
def setIntentUpdateApply (env : Env) (req : SetIntentRequest) (candidateName : String) :
    Run (List Update × List (List String) × Entry) := do
  let tc : TreeContext := ⟨env.getSchema, req.intent, [], env.caseOrder⟩
  let (root, tc) ← Run.lift (populateTree env req tc)
  let root := rootFinishInsertionPhase tc root
  let updates := rootGetHighestPrecedence root true
  let deletes ← Run.lift (rootGetDeletes root)
  let sdUpdates ← Run.lift (updates.mapM env.cacheUpdateToUpdate)
  let validationErrors := env.validate root
  if validationErrors ≠ [] then
    Run.lift (.error (.error ("cumulated validation errors:\n" ++ "\n".intercalate validationErrors)))
  else
  let sdDeletes ← Run.lift (deletes.mapM fun u => env.cacheUpdateToUpdate ⟨u, [], req.priority, req.intent⟩)
  let setDataReq : SetDataRequest :=
    ⟨req.name, candidateName, req.intent, req.priority, sdUpdates, sdDeletes.map (·.path)⟩
  Run.issue env (.setCandidate setDataReq)
  applyIntent env candidateName setDataReq
  pure (updates, deletes, root)

/-- `saveRawIntent`: the request, marshalled, under its raw-intent key in the INTENTS store. -/
def saveRawIntent (env : Env) (intentName : String) (req : SetIntentRequest) : Run Unit := do
  let b ← Run.lift (env.marshalRequest req)
  let upd ← Run.lift (env.newUpdate (rawIntentName intentName req.priority) b)
  Run.issue env (.modify .intents [] [upd])

/-- `deleteRawIntent`. -/
def deleteRawIntent (env : Env) (intentName : String) (priority : Int32) : Run Unit :=
  Run.issue env (.modify .intents [[rawIntentName intentName priority]] [])

/-- The rest of `SetIntentUpdate` ("update intent in intended store"): the owner's updates and
deletes to the intended store, the device deltas to the config store, then the raw intent saved,
or deleted for a delete request. -/
def updateIntendedStore (env : Env) (req : SetIntentRequest)
    (x : List Update × List (List String) × Entry) : Run Unit := do
  let (updates, deletes, root) := x
  let updatesOwner := getUpdatesForOwner root req.intent
  let deletesOwner := getDeletesForOwner root req.intent
  Run.wrapError ("failed updating the intended store for " ++ env.name ++ ": ")
    (Run.issue env (.modify .intended deletesOwner updatesOwner))
  Run.wrapError ("failed updating the running config store for " ++ env.name ++ ": ")
    (Run.issue env (.modify .config deletes updates))
  if req.delete then deleteRawIntent env req.intent req.priority
  else saveRawIntent env req.intent req

/-- `SetIntentUpdate`. -/
def setIntentUpdate (env : Env) (req : SetIntentRequest) (candidateName : String) : Run Unit :=
  setIntentUpdateApply env req candidateName >>= updateIntendedStore env req

/-- Modelled from the spec: `SetIntentDelete` is not in the sources. The spec runs one pipeline for
an intent's update and its deletion (build, finalize, compute the deltas, validate, apply,
persist), and `SetIntentUpdate` already persists a request with `delete` set by deleting its raw
intent. -/
def setIntentDelete (env : Env) (req : SetIntentRequest) (candidateName : String) : Run Unit :=
  setIntentUpdate env req candidateName

/-- The candidate of a request: `fmt.Sprintf("%s-%d", req.GetIntent(), now)`. -/
def candidateName (req : SetIntentRequest) (now : Int) : String :=
  req.intent ++ "-" ++ ⟨Go.formatInt now⟩

/-- Whether `SetIntent` dispatches the request: it has updates, or it is a delete. -/
def SetIntentRequest.dispatches (req : SetIntentRequest) : Bool := !req.update.isEmpty || req.delete

/-- The `switch` of `SetIntent`: `SetIntentUpdate` for a request with updates, `SetIntentDelete` for
a delete, nothing otherwise. -/
def setIntentDispatch (env : Env) (req : SetIntentRequest) (candidateName : String) : Run Unit :=
  if !req.update.isEmpty then setIntentUpdate env req candidateName
  else if req.delete then setIntentDelete env req candidateName
  else pure ()

/-- `SetIntent`. -/
def setIntent (env : Env) (req : SetIntentRequest) : Run Unit :=
  if !env.tryLock then
    Run.lift (.error (.error ("datastore " ++ env.name ++ " has an ongoing SetIntentRequest")))
  else
    let name := candidateName req env.now
    Run.issue env (.createCandidate name) >>= fun _ =>
      Run.deferCall (setIntentDispatch env req name) (.deleteCandidate name)

/-- A run that makes no store write. -/
def Run.NoWrites {α : Type} (r : Run α) : Prop := ∀ c ∈ r.calls, c.store? = none

namespace Run

variable {α β : Type}

theorem NoWrites.bind {r : Run α} {f : α → Run β} (hr : r.NoWrites) (hf : ∀ a, (f a).NoWrites) :
    (r >>= f).NoWrites := by
  intro c hc
  simp only [bind_eq, Run.bind] at hc
  split at hc
  · rcases List.mem_append.1 hc with hc | hc
    · exact hr c hc
    · exact hf _ c hc
  · exact hr c hc

theorem calls_bind_unit (r : Run Unit) (f : Unit → Run β) :
    (r >>= f).calls = r.calls ++ if r.result.isOk then (f ()).calls else [] := by
  simp only [bind_eq, Run.bind]
  split <;> simp_all [Except.isOk, Except.toBool]

theorem noWrites_lift (e : Except Fault α) : (lift e).NoWrites := fun _ h => absurd h (List.not_mem_nil _)

theorem noWrites_pure (a : α) : (pure a : Run α).NoWrites := fun _ h => absurd h (List.not_mem_nil _)

theorem noWrites_issue {env : Env} {c : Call} (h : c.store? = none) : (issue env c).NoWrites := by
  intro c' hc'
  rw [calls_issue, List.mem_singleton] at hc'
  exact hc' ▸ h

end Run

section Transaction

variable (env : Env) (req : SetIntentRequest) (name : String)

theorem noWrites_applyIntent (sdreq : SetDataRequest) : (applyIntent env name sdreq).NoWrites := by
  unfold applyIntent
  split
  · exact Run.noWrites_lift _
  · refine (Run.noWrites_lift _).bind fun _ => (Run.noWrites_lift _).bind fun _ => ?_
    split
    · exact Run.noWrites_issue rfl
    · exact Run.noWrites_pure _

theorem noWrites_setIntentUpdateApply : (setIntentUpdateApply env req name).NoWrites := by
  refine (Run.noWrites_lift _).bind fun ⟨root, tc⟩ =>
    (Run.noWrites_lift _).bind fun _ => (Run.noWrites_lift _).bind fun _ => ?_
  dsimp only
  split
  · exact Run.noWrites_lift _
  · exact (Run.noWrites_lift _).bind fun _ => (@Run.noWrites_issue env (.setCandidate _) rfl).bind fun _ =>
      (noWrites_applyIntent env name _).bind fun _ => Run.noWrites_pure _

/-- The raw-intent write of a transaction. -/
def rawIntentWrite : Run Unit :=
  if req.delete then deleteRawIntent env req.intent req.priority else saveRawIntent env req.intent req

theorem calls_rawIntentWrite :
    (rawIntentWrite env req).calls.length ≤ 1 ∧
      ∀ c ∈ (rawIntentWrite env req).calls, c.store? = some .intents := by
  unfold rawIntentWrite saveRawIntent deleteRawIntent
  split
  · simp [Call.store?]
  · cases env.marshalRequest req <;> simp only [Run.bind_eq, Run.bind, Run.result_lift, Run.calls_lift]
    · simp
    · cases env.newUpdate (rawIntentName req.intent req.priority) _ <;> simp [Run.bind, Call.store?]

theorem calls_updateIntendedStore (x : List Update × List (List String) × Entry) :
    (updateIntendedStore env req x).calls =
      .modify .intended (getDeletesForOwner x.2.2 req.intent) (getUpdatesForOwner x.2.2 req.intent) ::
        if (env.answer (.modify .intended (getDeletesForOwner x.2.2 req.intent)
          (getUpdatesForOwner x.2.2 req.intent))).isOk then
          .modify .config x.2.1 x.1 :: if (env.answer (.modify .config x.2.1 x.1)).isOk then
            (rawIntentWrite env req).calls else []
        else [] := by
  obtain ⟨updates, deletes, root⟩ := x
  simp only [updateIntendedStore, Run.calls_bind_unit, Run.calls_wrapError, Run.result_wrapError_isOk,
    Run.calls_issue, Run.result_issue, rawIntentWrite, List.singleton_append]

theorem setIntentDispatch_eq :
    setIntentDispatch env req name = if req.dispatches then setIntentUpdate env req name else pure () := by
  unfold setIntentDispatch setIntentDelete SetIntentRequest.dispatches
  cases req.update.isEmpty <;> cases req.delete <;> rfl

theorem setIntent_of_locked (hl : env.tryLock = false) :
    setIntent env req = Run.lift (.error (.error ("datastore " ++ env.name ++ " has an ongoing SetIntentRequest"))) := by
  simp only [setIntent, hl, Bool.not_false, if_true]

theorem setIntent_of_not_created {e : Fault} (hl : env.tryLock = true)
    (hc : env.answer (.createCandidate (candidateName req env.now)) = .error e) :
    setIntent env req = ⟨[.createCandidate (candidateName req env.now)], .error e⟩ := by
  simp only [setIntent, hl, Bool.not_true, Bool.false_eq_true, if_false, Run.bind_eq,
    Run.bind_of_error _ (show (Run.issue env _).result = .error e from hc), Run.calls_issue]

theorem setIntent_of_created (hl : env.tryLock = true)
    (hc : env.answer (.createCandidate (candidateName req env.now)) = .ok ()) :
    setIntent env req = ⟨.createCandidate (candidateName req env.now) ::
      (setIntentDispatch env req (candidateName req env.now)).calls ++
        [.deleteCandidate (candidateName req env.now)],
      (setIntentDispatch env req (candidateName req env.now)).result⟩ := by
  simp only [setIntent, hl, Bool.not_true, Bool.false_eq_true, if_false, Run.bind_eq,
    Run.bind_of_ok _ (show (Run.issue env _).result = .ok () from hc), Run.calls_issue, Run.deferCall,
    List.singleton_append, List.cons_append, List.nil_append]

end Transaction

end DataServer
