import DataServer.Datastore.IntentStore

/-! Concurrent `SetIntent` calls on one datastore. A call takes `intentMutex` with `TryLock`,
returning at once when it is taken; the steps of the calls interleave in any order, and the
mutex serialises the transactions. -/
namespace DataServer

/-- A call the cache or the device receives, with the answer it gets. -/
abbrev AnsweredCall := (Call → Except Fault Unit) × Call

/-- The calls a transaction makes, each with its answer. -/
def answeredCalls (tx : Env × SetIntentRequest) : List AnsweredCall :=
  (setIntent tx.1 tx.2).calls.map (tx.1.answer, ·)

theorem answeredCalls_refused (env : Env) (req : SetIntentRequest) :
    answeredCalls ({ env with tryLock := false }, req) = [] := by
  rw [answeredCalls, setIntent_of_locked _ _ rfl]
  rfl

/-- The `SetIntent` calls of one datastore. -/
structure IntentMutex where
  /-- The call holding `intentMutex`, with the calls its transaction has still to make. -/
  holder : Option ((Env × SetIntentRequest) × List Call)
  /-- The transactions that took the mutex, in order. -/
  served : List (Env × SetIntentRequest)
  /-- The calls the cache and the device received, in order. -/
  log : List AnsweredCall

/-- What one `SetIntent` call does in one step. -/
inductive IntentMutex.Event where
  /-- A call arrives, with the answers its transaction receives, and tries the mutex. -/
  | setIntent (env : Env) (req : SetIntentRequest)
  /-- The holder makes its next call. -/
  | call
  /-- The holder returns, and its deferred `Unlock` runs. -/
  | unlock

namespace IntentMutex

/-- No call holds the mutex, and none was made. -/
def init : IntentMutex := ⟨none, [], []⟩

/-- The calls the holder has still to make, with their answers. -/
def pending (s : IntentMutex) : List AnsweredCall :=
  match s.holder with
  | some (tx, cs) => cs.map (tx.1.answer, ·)
  | none => []

/-- `TryLock`: on a free mutex the call takes it and its transaction runs with `TryLock` succeeding;
on a taken one the call runs with `TryLock` failing. -/
def tryLock (s : IntentMutex) (env : Env) (req : SetIntentRequest) : IntentMutex :=
  match s.holder with
  | none =>
    let tx := ({ env with tryLock := true }, req)
    ⟨some (tx, (setIntent tx.1 tx.2).calls), s.served ++ [tx], s.log⟩
  | some _ => { s with log := s.log ++ answeredCalls ({ env with tryLock := false }, req) }

/-- The holder's next call. -/
def call (s : IntentMutex) : IntentMutex :=
  match s.holder with
  | some (tx, c :: cs) => ⟨some (tx, cs), s.served, s.log ++ [(tx.1.answer, c)]⟩
  | _ => s

/-- The holder's return: the deferred `Unlock` runs after the deferred deletion of the candidate,
the transaction's last call. -/
def unlock (s : IntentMutex) : IntentMutex :=
  match s.holder with
  | some (_, []) => { s with holder := none }
  | _ => s

def step (s : IntentMutex) : Event → IntentMutex
  | .setIntent env req => s.tryLock env req
  | .call => s.call
  | .unlock => s.unlock

/-- The state after the steps `evs`, in order. -/
def run (s : IntentMutex) (evs : List Event) : IntentMutex := evs.foldl step s

/-- The calls received, then those the holder has still to make, are the calls of the transactions
that took the mutex, whole and in order. -/
def Serial (s : IntentMutex) : Prop := s.log ++ s.pending = s.served.flatMap answeredCalls

theorem serial_tryLock {s : IntentMutex} (h : s.Serial) (env : Env) (req : SetIntentRequest) :
    (s.tryLock env req).Serial := by
  unfold tryLock
  split
  · rename_i hn
    simp only [Serial, pending, hn, List.append_nil] at h
    simp only [Serial, pending, List.flatMap_append, List.flatMap_singleton, h]
    rfl
  · rename_i hs
    simpa only [Serial, pending, hs, answeredCalls_refused, List.append_nil] using h

theorem serial_call {s : IntentMutex} (h : s.Serial) : s.call.Serial := by
  unfold call
  split
  · rename_i tx c cs hs
    simp only [Serial, pending, hs, List.map_cons] at h
    simpa only [Serial, pending, List.append_assoc, List.singleton_append] using h
  · exact h

theorem serial_unlock {s : IntentMutex} (h : s.Serial) : s.unlock.Serial := by
  unfold unlock
  split
  · rename_i hs
    simpa only [Serial, pending, hs, List.map_nil] using h
  · exact h

theorem serial_run {s : IntentMutex} (h : s.Serial) : ∀ evs, (s.run evs).Serial
  | [] => h
  | ev :: evs => by
    have hstep : (s.step ev).Serial := by
      cases ev with
      | setIntent env req => exact serial_tryLock h env req
      | call => exact serial_call h
      | unlock => exact serial_unlock h
    exact serial_run hstep evs

/-- The INTENTS store after the calls `log`, each answered as it was. -/
def intents (st : CacheStore) (log : List AnsweredCall) : CacheStore :=
  log.foldl (fun st c => CacheStore.applyCall c.1 .intents st c.2) st

theorem intents_flatMap_answeredCalls :
    ∀ (st : CacheStore) (txs : List (Env × SetIntentRequest)),
      intents st (txs.flatMap answeredCalls) =
        txs.foldl (fun st tx => st.applyCalls tx.1.answer .intents (setIntent tx.1 tx.2).calls) st
  | _, [] => rfl
  | st, tx :: txs => by
    rw [List.flatMap_cons, intents, List.foldl_append, answeredCalls, List.foldl_map, ← intents,
      intents_flatMap_answeredCalls]
    rfl

/-- Concurrent `SetIntent` calls are serialised by `intentMutex`: in any interleaving, the calls
received, then the holder's pending ones, are the calls of the transactions that took the mutex,
each whole and in order, and a call that found it taken made none; once the mutex is free, the
INTENTS store is that of their sequential history. -/
theorem setIntent_serialized (evs : List Event) :
    (init.run evs).log ++ (init.run evs).pending = (init.run evs).served.flatMap answeredCalls ∧
      ((init.run evs).holder = none → intents CacheStore.empty (init.run evs).log = intentsAfter (init.run evs).served) := by
  have h := serial_run (s := init) rfl evs
  refine ⟨h, fun hn => ?_⟩
  rw [Serial, pending, hn, List.append_nil] at h
  rw [h, intents_flatMap_answeredCalls]
  rfl

end IntentMutex

end DataServer
