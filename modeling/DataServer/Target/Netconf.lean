import DataServer.Datastore.SetIntent
import Mathlib.Data.List.Infix

/-! The NETCONF target (`ncTarget`): `Get`, the periodic sync into the sync channel, and the
southbound `Set` to the device's candidate. The XML builders, the driver and the device answer
through an environment whose every answer is arbitrary. -/
namespace DataServer

/-- `strings.Contains(s, substr)`. -/
def stringsContains (s substr : String) : Bool := decide (substr.toList <:+: s.toList)

/-- The datastore type of a `GetDataRequest`. -/
inductive DatastoreType where
  | main
  | candidate
  | other
deriving DecidableEq, Repr

/-- The `source` of `Get`'s `GetConfig`: `running` for the main datastore, `candidate` for the
candidate, empty otherwise. -/
def DatastoreType.source : DatastoreType → String
  | .main => "running"
  | .candidate => "candidate"
  | .other => ""

/-- The answers `ncTarget.Get` receives: the path filter builder's `AddElements` for each path and
its `GetDoc`, the driver's `GetConfig` of a source and a filter, and the adapter's `Transform`
of the response into a notification of type `ν`. -/
structure NcGetEnv (ν : Type) where
  addElements : List String → Except String Unit
  getDoc : Except String String
  getConfig : String → String → Except String String
  transform : String → Except String ν

/-- A run of `ncTarget.Get`: whether the target is still connected after it, and the notifications
it returned. -/
structure NcGetRun (ν : Type) where
  connected : Bool
  result : Except String (List ν)

/-- `ncTarget.Get` for the datastore type `dsType` and the paths `paths`; an `EOF` of `GetConfig`
closes the driver and marks the target disconnected. -/
def ncGet {ν : Type} (connected : Bool) (env : NcGetEnv ν) (dsType : DatastoreType)
    (paths : List (List String)) : NcGetRun ν :=
  if !connected then ⟨false, .error "not connected"⟩
  else match paths.forM env.addElements with
    | .error err => ⟨true, .error err⟩
    | .ok () => match env.getDoc with
      | .error err => ⟨true, .error err⟩
      | .ok filterDoc => match env.getConfig dsType.source filterDoc with
        | .error err => if stringsContains err "EOF" then ⟨false, .error err⟩ else ⟨true, .error err⟩
        | .ok rsp => match env.transform rsp with
          | .error err => ⟨true, .error err⟩
          | .ok noti => ⟨true, .ok [noti]⟩

theorem ncGet_false {ν : Type} (env : NcGetEnv ν) (dsType : DatastoreType) (paths : List (List String)) :
    ncGet false env dsType paths = ⟨false, .error "not connected"⟩ := rfl

/-- `SyncUpdate`, one message on the sync channel; notifications are of type `ν`. -/
inductive SyncUpdate (ν : Type) where
  /-- `SyncUpdate{Start: true, Force: force}`. -/
  | start (force : Bool)
  /-- `SyncUpdate{Update: n}`. -/
  | update (n : ν)
  /-- `SyncUpdate{End: true}`. -/
  | finish
deriving DecidableEq, Repr

/-- What one run of `internalSync` finds: whether the target is connected, the configured paths as
`utils.ParsePath` parses them, and the answers its `Get` receives. -/
structure SyncRun (ν : Type) where
  connected : Bool
  parsed : Except String (List (List String))
  env : NcGetEnv ν

/-- `internalSync`: the messages one run sends on `syncCh`, nothing when the target is not
connected, a path does not parse or the `Get` of the main datastore fails. -/
def internalSync {ν : Type} (r : SyncRun ν) (force : Bool) : List (SyncUpdate ν) :=
  if !r.connected then []
  else match r.parsed with
    | .error _ => []
    | .ok paths => match (ncGet true r.env .main paths).result with
      | .error _ => []
      | .ok ns => .start force :: ns.map .update ++ [.finish]

/-- The messages of the goroutine `Sync` starts for one entry of the sync configuration: a forced
run, then one run at each tick of the entry's interval until the context is done. -/
def syncGoroutine {ν : Type} (first : SyncRun ν) (ticks : List (SyncRun ν)) : List (SyncUpdate ν) :=
  internalSync first true ++ ticks.flatMap (internalSync · false)

/-- The orders in which the messages several goroutines send on one channel can arrive: each message
is the next one of some goroutine. -/
inductive Interleaving {α : Type} : List (List α) → List α → Prop
  | nil {qs : List (List α)} : (∀ q ∈ qs, q = []) → Interleaving qs []
  | send {qs : List (List α)} {i : Nat} {x : α} {xs out : List α} :
      qs[i]? = some (x :: xs) → Interleaving (qs.set i xs) out → Interleaving qs (x :: out)

/-- The sequences `Sync` can deliver on `syncCh` once its goroutines have stopped, when the entries
of the sync configuration found the runs `runs` (per entry, its forced run and its runs at the
ticks). -/
def SyncDelivers {ν : Type} (runs : List (SyncRun ν × List (SyncRun ν))) (out : List (SyncUpdate ν)) :
    Prop :=
  Interleaving (runs.map fun r => syncGoroutine r.1 r.2) out

/-- The messages of one complete round: `Start`, the `Update`s, `End`. -/
def SyncUpdate.round {ν : Type} (force : Bool) (ns : List ν) : List (SyncUpdate ν) :=
  .start force :: ns.map .update ++ [.finish]

/-- A concatenation of complete rounds. -/
def SyncRounds {ν : Type} (ms : List (SyncUpdate ν)) : Prop :=
  ∃ rounds : List (Bool × List ν), ms = rounds.flatMap fun r => SyncUpdate.round r.1 r.2

section Rounds

variable {ν : Type}

theorem SyncRounds.nil : SyncRounds ([] : List (SyncUpdate ν)) := ⟨[], rfl⟩

theorem SyncRounds.append {a b : List (SyncUpdate ν)} (ha : SyncRounds a) (hb : SyncRounds b) :
    SyncRounds (a ++ b) := by
  obtain ⟨ra, rfl⟩ := ha
  obtain ⟨rb, rfl⟩ := hb
  exact ⟨ra ++ rb, by rw [List.flatMap_append]⟩

theorem SyncRounds.flatMap {β : Type} {f : β → List (SyncUpdate ν)} (hf : ∀ b, SyncRounds (f b)) :
    ∀ bs : List β, SyncRounds (bs.flatMap f)
  | [] => .nil
  | b :: bs => by rw [List.flatMap_cons]; exact (hf b).append (SyncRounds.flatMap hf bs)

theorem internalSync_rounds (r : SyncRun ν) (force : Bool) : SyncRounds (internalSync r force) := by
  unfold internalSync
  split
  · exact .nil
  · split
    · exact .nil
    · split
      · exact .nil
      · exact ⟨[(force, ‹List ν›)], by simp [SyncUpdate.round]⟩

theorem syncGoroutine_rounds (first : SyncRun ν) (ticks : List (SyncRun ν)) :
    SyncRounds (syncGoroutine first ticks) :=
  (internalSync_rounds first true).append (.flatMap (internalSync_rounds · false) ticks)

theorem interleaving_singleton {α : Type} {qs : List (List α)} {out : List α}
    (h : Interleaving qs out) : ∀ q, qs = [q] → out = q := by
  induction h with
  | nil hq => intro q hqs; subst hqs; exact (hq q (List.mem_singleton_self q)).symm
  | @send qs i x xs out hi _ ih =>
    intro q hqs
    subst hqs
    obtain ⟨rfl, hq⟩ : i = 0 ∧ q = x :: xs := by
      cases i with
      | zero => exact ⟨rfl, by simpa using hi⟩
      | succ i => simp at hi
    rw [ih xs rfl, hq]

/-- With one entry in the sync configuration, the channel receives complete rounds. -/
theorem syncDelivers_single_rounds {run : SyncRun ν × List (SyncRun ν)} {out : List (SyncUpdate ν)}
    (h : SyncDelivers [run] out) : SyncRounds out := by
  rw [interleaving_singleton h _ rfl]
  exact syncGoroutine_rounds run.1 run.2

/-- A device that answers every `Get` with one notification. -/
def syncGetEnv : NcGetEnv Unit := ⟨fun _ => .ok (), .ok "<filter/>", fun _ _ => .ok "<data/>", fun _ => .ok ()⟩

def syncRunOk : SyncRun Unit := ⟨true, .ok [["a"]], syncGetEnv⟩

theorem syncDelivers_single_rounds_sample :
    SyncDelivers [(syncRunOk, [{ syncRunOk with connected := false }])] [.start true, .update (), .finish] ∧
      SyncRounds (ν := Unit) [.start true, .update (), .finish] :=
  have h : SyncDelivers [(syncRunOk, [{ syncRunOk with connected := false }])] [.start true, .update (), .finish] :=
    .send (i := 0) rfl (.send (i := 0) rfl (.send (i := 0) rfl (.nil (by simp [internalSync]))))
  ⟨h, syncDelivers_single_rounds h⟩

end Rounds

/-- Two entries whose forced runs each find the one notification of their `Get`: both goroutines
send `Start`, their `Update`, then `End`, and the channel can receive both `Start`s first, which
is no concatenation of rounds. -/
theorem sync_rounds_interleave :
    SyncDelivers [(syncRunOk, []), (syncRunOk, [])]
        [.start true, .start true, .update (), .update (), .finish, .finish] ∧
      ¬ SyncRounds (ν := Unit) [.start true, .start true, .update (), .update (), .finish, .finish] := by
  refine ⟨?_, ?_⟩
  · refine .send (i := 0) rfl (.send (i := 1) rfl (.send (i := 0) rfl (.send (i := 1) rfl
      (.send (i := 0) rfl (.send (i := 1) rfl (.nil ?_))))))
    simp
  · rintro ⟨_ | ⟨⟨f, _ | ⟨n, ns⟩⟩, rounds⟩, h⟩ <;> simp [SyncUpdate.round] at h

/-- What the XML config builders of `Set` encode: the deletes and the updates of the request. -/
inductive XmlEdit where
  | delete (p : List String)
  | addValue (u : ReqUpdate)
deriving DecidableEq, Repr

/-- The calls `ncTarget.Set` makes on its XML config builders and on the NETCONF driver. -/
inductive NcCall where
  /-- `xmlCBDelete.Delete(ctx, p)`. -/
  | delete (p : List String)
  /-- `xmlCBAdd.AddValue(ctx, u.Path, u.Value)`. -/
  | addValue (u : ReqUpdate)
  /-- `GetDoc()` of the builder that holds the edits. -/
  | getDoc (edits : List XmlEdit)
  | editConfig (target doc : String)
  | discard
  | commit
  | close
deriving DecidableEq, Repr

/-- The answers of the XML config builders and of the NETCONF driver, each from the calls made
before it: an error, or for `GetDoc` the document. -/
structure NcEnv where
  answer : List NcCall → NcCall → Except String Unit
  getDoc : List NcCall → List XmlEdit → Except String String

/-- A run of `ncTarget.Set`: its calls in order, whether the target is still connected after it, and
what it returned. -/
structure NcSetRun where
  calls : List NcCall
  connected : Bool
  result : Except String Unit

/-- The loops over the deletes and over the updates of the request: each item is passed to its
builder, whose error is dropped; the builder holds the edits it encoded. -/
def encodeLoop {α : Type} (env : NcEnv) (call : α → NcCall) (edit : α → XmlEdit) :
    List NcCall → List XmlEdit → List α → List NcCall × List XmlEdit
  | calls, b, [] => (calls, b)
  | calls, b, x :: xs =>
    encodeLoop env call edit (calls ++ [call x])
      (match env.answer calls (call x) with
        | .ok () => b ++ [edit x]
        | .error _ => b) xs

/-- The commit at the end of `Set`; on an `EOF` the driver is closed and the target marked
disconnected, for a goroutine to reconnect it. -/
def commitStep (env : NcEnv) (calls : List NcCall) : NcSetRun :=
  match env.answer calls .commit with
  | .ok () => ⟨calls ++ [.commit], true, .ok ()⟩
  | .error err =>
    if stringsContains err "EOF" then ⟨calls ++ [.commit, .close], false, .error err⟩
    else ⟨calls ++ [.commit], true, .error err⟩

/-- The loop over the two builders, deletes first: the document of each, skipped when empty, is sent
with `EditConfig` to the candidate; a failed `EditConfig` ends `Set`, with a `Discard` unless it
was an `EOF`. -/
def editLoop (env : NcEnv) : List NcCall → List (List XmlEdit) → NcSetRun
  | calls, [] => commitStep env calls
  | calls, b :: bs =>
    match env.getDoc calls b with
    | .error err => ⟨calls ++ [.getDoc b], true, .error err⟩
    | .ok xdoc =>
      if xdoc.length = 0 then editLoop env (calls ++ [.getDoc b]) bs
      else
        let c := NcCall.editConfig "candidate" xdoc
        match env.answer (calls ++ [.getDoc b]) c with
        | .ok () => editLoop env (calls ++ [.getDoc b, c]) bs
        | .error err =>
          if stringsContains err "EOF" then ⟨calls ++ [.getDoc b, c, .close], false, .error err⟩
          else ⟨calls ++ [.getDoc b, c, .discard], true, .error err⟩

/-- `ncTarget.Set` on a target that is connected or not. -/
def ncSet (connected : Bool) (env : NcEnv) (req : SetDataRequest) : NcSetRun :=
  if !connected then ⟨[], false, .error "not connected"⟩
  else
    let (calls, xmlCBDelete) := encodeLoop env .delete .delete [] [] req.delete
    let (calls, xmlCBAdd) := encodeLoop env .addValue .addValue calls [] req.update
    editLoop env calls [xmlCBDelete, xmlCBAdd]

/-- The calls of the loop over the builders before it ends: documents fetched and candidate edits.
-/
def NcCall.isEdit : NcCall → Bool
  | .getDoc _ | .editConfig _ _ => true
  | _ => false

theorem encodeLoop_calls {α : Type} (env : NcEnv) (call : α → NcCall) (edit : α → XmlEdit) :
    ∀ (calls : List NcCall) (b : List XmlEdit) (xs : List α),
      (encodeLoop env call edit calls b xs).1 = calls ++ xs.map call
  | _, _, [] => by simp [encodeLoop]
  | calls, b, x :: xs => by simp [encodeLoop, encodeLoop_calls env call edit _ _ xs]

theorem editLoop_cases (env : NcEnv) :
    ∀ (calls : List NcCall) (bs : List (List XmlEdit)), ∃ mid : List NcCall, (∀ c ∈ mid, c.isEdit) ∧
      (editLoop env calls bs = commitStep env (calls ++ mid) ∨
        (∃ err, (editLoop env calls bs).result = .error err) ∧
          ∃ tail, NcCall.commit ∉ tail ∧ (editLoop env calls bs).calls = calls ++ mid ++ tail)
  | calls, [] => ⟨[], by simp, .inl (by simp [editLoop])⟩
  | calls, b :: bs => by
    unfold editLoop
    split
    · exact ⟨[], by simp, .inr ⟨⟨_, rfl⟩, [.getDoc b], by simp⟩⟩
    · rename_i xdoc _
      split
      · obtain ⟨mid, hmid, h⟩ := editLoop_cases env (calls ++ [.getDoc b]) bs
        refine ⟨.getDoc b :: mid, by simpa [NcCall.isEdit] using hmid, ?_⟩
        simpa using h
      · dsimp only
        split
        · obtain ⟨mid, hmid, h⟩ := editLoop_cases env (calls ++ [.getDoc b, .editConfig "candidate" xdoc]) bs
          refine ⟨.getDoc b :: .editConfig "candidate" xdoc :: mid, by simpa [NcCall.isEdit] using hmid, ?_⟩
          simpa using h
        · split
          · exact ⟨[], by simp, .inr ⟨⟨_, rfl⟩, [.getDoc b, .editConfig "candidate" xdoc, .close], by simp⟩⟩
          · exact ⟨[], by simp, .inr ⟨⟨_, rfl⟩, [.getDoc b, .editConfig "candidate" xdoc, .discard], by simp⟩⟩

theorem commitStep_calls (env : NcEnv) (calls : List NcCall) :
    ∃ last, (commitStep env calls).calls = calls ++ last ∧ NcCall.discard ∉ last := by
  unfold commitStep
  split
  · exact ⟨_, rfl, by simp⟩
  · split
    · exact ⟨_, rfl, by simp⟩
    · exact ⟨_, rfl, by simp⟩

theorem ncSet_true (env : NcEnv) (req : SetDataRequest) :
    ncSet true env req =
      let enc := encodeLoop env .delete .delete [] [] req.delete
      let add := encodeLoop env .addValue .addValue enc.1 [] req.update
      editLoop env add.1 [enc.2, add.2] := rfl

theorem ncSet_true_calls_encode (env : NcEnv) (req : SetDataRequest) :
    ∀ c ∈ (encodeLoop env .addValue .addValue (encodeLoop env .delete .delete [] [] req.delete).1 []
      req.update).1, c ≠ .commit ∧ c ≠ .discard := by
  simp only [encodeLoop_calls, List.nil_append, List.mem_append, List.mem_map]
  rintro c (⟨_, -, rfl⟩ | ⟨_, -, rfl⟩) <;> simp

/-- `Set` succeeds only through an accepted `Commit`, its last call. -/
theorem ncSet_result_ok {connected : Bool} {env : NcEnv} {req : SetDataRequest}
    (h : (ncSet connected env req).result = .ok ()) :
    ∃ calls, (ncSet connected env req).calls = calls ++ [.commit] ∧ env.answer calls .commit = .ok () := by
  cases connected
  · cases h
  rw [ncSet_true] at h ⊢
  dsimp only at h ⊢
  generalize (encodeLoop env .addValue .addValue _ [] req.update).1 = calls at h ⊢
  obtain ⟨mid, -, hrun | ⟨⟨err, herr⟩, -⟩⟩ := editLoop_cases env calls [_, _]
  · rw [hrun] at h ⊢
    unfold commitStep at h ⊢
    cases ha : env.answer (calls ++ mid) .commit with
    | ok u => exact ⟨_, rfl, ha⟩
    | error err => simp only [ha] at h; split at h <;> cases h
  · rw [herr] at h; cases h

/-- Once `Set` has called `Commit`, it discards nothing: a failed commit leaves the edits of the
call pending in the candidate. -/
theorem ncSet_no_discard_after_commit (connected : Bool) (env : NcEnv) (req : SetDataRequest)
    (h : NcCall.commit ∈ (ncSet connected env req).calls) : NcCall.discard ∉ (ncSet connected env req).calls := by
  cases connected
  · cases h
  have henc := ncSet_true_calls_encode env req
  rw [ncSet_true] at h ⊢
  dsimp only at h ⊢
  generalize (encodeLoop env .addValue .addValue _ [] req.update).1 = calls at henc h ⊢
  obtain ⟨mid, hmid, hrun | ⟨-, tail, htail, hcalls⟩⟩ := editLoop_cases env calls [_, _]
  · obtain ⟨last, hl, hd⟩ := commitStep_calls env (calls ++ mid)
    rw [hrun, hl]
    simp only [List.mem_append, not_or]
    exact ⟨⟨fun h => (henc _ h).2 rfl, fun h => by simpa [NcCall.isEdit] using hmid _ h⟩, hd⟩
  · rw [hcalls] at h
    simp only [List.mem_append] at h
    rcases h with (h | h) | h
    · exact absurd rfl (henc _ h).1
    · simpa [NcCall.isEdit] using hmid _ h
    · exact absurd h htail

/-- A builder whose `Delete` fails, and a driver whose `Commit` fails; documents are empty exactly
when their builder is. -/
def ncEnvFailing (deleteFails commitFails : Bool) : NcEnv where
  answer _ c := match c with
    | .delete _ => if deleteFails then .error "unknown path" else .ok ()
    | .commit => if commitFails then .error "commit failed" else .ok ()
    | _ => .ok ()
  getDoc _ edits := .ok (if edits.isEmpty then "" else "<config/>")

def ncSampleRequest : SetDataRequest :=
  ⟨"dev1", "candidate1", "owner1", 10, [⟨["a", "b"], [1]⟩], [["a", "c"]]⟩

theorem ncSet_result_ok_sample :
    (ncSet true (ncEnvFailing false false) ncSampleRequest).result = .ok () ∧
      ∃ calls, (ncSet true (ncEnvFailing false false) ncSampleRequest).calls = calls ++ [.commit] ∧
        (ncEnvFailing false false).answer calls .commit = .ok () :=
  ⟨by decide, ncSet_result_ok (by decide)⟩

theorem ncSet_no_discard_after_commit_sample :
    NcCall.commit ∈ (ncSet true (ncEnvFailing false true) ncSampleRequest).calls ∧
      NcCall.discard ∉ (ncSet true (ncEnvFailing false true) ncSampleRequest).calls :=
  ⟨by decide, ncSet_no_discard_after_commit _ _ _ (by decide)⟩

/-- `Set` succeeds although the delete of `a/c` was never encoded, since the builder's error is
dropped; and when the commit fails, `Set` returns the error without discarding the two edits it
made in the candidate. -/
theorem ncSet_not_all_or_nothing :
    (ncSet true (ncEnvFailing true false) ncSampleRequest).result = .ok () ∧
      (encodeLoop (ncEnvFailing true false) .delete .delete [] [] ncSampleRequest.delete).2 = [] ∧
      (ncSet true (ncEnvFailing false true) ncSampleRequest).result = .error "commit failed" ∧
      (ncSet true (ncEnvFailing false true) ncSampleRequest).calls =
        [.delete ["a", "c"], .addValue ⟨["a", "b"], [1]⟩, .getDoc [.delete ["a", "c"]],
          .editConfig "candidate" "<config/>", .getDoc [.addValue ⟨["a", "b"], [1]⟩],
          .editConfig "candidate" "<config/>", .commit] := by
  refine ⟨?_, rfl, ?_, rfl⟩ <;> decide

end DataServer
