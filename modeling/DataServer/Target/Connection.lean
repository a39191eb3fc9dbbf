import DataServer.Target.Netconf

/-! The connection of an `ncTarget`, shared by its goroutines. `Get`, `Set` and the sync runs mark
it disconnected on an `EOF` error and start `reconnect`, which takes the mutex and creates
drivers until one is created; each goroutine's handling of the connection is one step, in any
interleaving. -/
namespace DataServer

/-- The connection state of an `ncTarget`. -/
structure NcConn where
  connected : Bool
  /-- The `reconnect` goroutines started and not yet returned. -/
  reconnecting : Nat
  /-- The `internalSync` runs whose `Get` returned an `EOF` error they have not yet handled. -/
  syncEOF : Nat
deriving DecidableEq, Repr

/-- What a goroutine does with the connection in one step. -/
inductive NcEvent where
  /-- A `Get` call, with the answers it receives. -/
  | get (env : NcGetEnv Unit) (dsType : DatastoreType) (paths : List (List String))
  /-- A `Set` call, with the answers it receives. -/
  | set (env : NcEnv) (req : SetDataRequest)
  /-- An `internalSync` run up to the return of its `Get`, with the parsed paths and its answers. -/
  | syncGet (parsed : Except String (List (List String))) (env : NcGetEnv Unit)
  /-- An `internalSync` run handling the `EOF` error of its `Get`. -/
  | syncHandle
  /-- A `reconnect` goroutine checking `connected`, or creating a driver, with success or not. -/
  | reconnect (created : Bool)

namespace NcConn

/-- The target after `newNCTarget`: connected when the driver was created. -/
def new (created : Bool) : NcConn := ⟨created, 0, 0⟩

/-- A call that found the target connected and left it disconnected has closed the driver and
started a `reconnect` goroutine. -/
def afterCall (s : NcConn) (connected : Bool) : NcConn :=
  if s.connected && !connected then { s with connected := false, reconnecting := s.reconnecting + 1 } else s

/-- An `internalSync` run up to the return of its `Get`: nothing when the target is not connected or
a path does not parse; otherwise the `Get` on the main datastore, and an error of it whose text
contains `EOF` left for the run to handle. -/
def syncGet (s : NcConn) (parsed : Except String (List (List String))) (env : NcGetEnv Unit) : NcConn :=
  if !s.connected then s
  else match parsed with
    | .error _ => s
    | .ok paths =>
      let r := ncGet true env .main paths
      let s := s.afterCall r.connected
      match r.result with
      | .error err => if stringsContains err "EOF" then { s with syncEOF := s.syncEOF + 1 } else s
      | .ok _ => s

/-- `internalSync` handling the `EOF` error of its `Get`: the driver closed, the target marked
disconnected and a `reconnect` goroutine started, whatever happened since the `Get` returned. -/
def syncHandle (s : NcConn) : NcConn :=
  if s.syncEOF = 0 then s else ⟨false, s.reconnecting + 1, s.syncEOF - 1⟩

/-- A step of a `reconnect` goroutine: it returns when the target is connected; otherwise it
connects the target when the driver is created, and tries again when not. -/
def reconnect (s : NcConn) (created : Bool) : NcConn :=
  if s.reconnecting = 0 then s
  else if s.connected then { s with reconnecting := s.reconnecting - 1 }
  else if created then { s with connected := true, reconnecting := s.reconnecting - 1 }
  else s

/-- One step of one goroutine. -/
def step (s : NcConn) : NcEvent → NcConn
  | .get env dsType paths => s.afterCall (ncGet s.connected env dsType paths).connected
  | .set env req => s.afterCall (ncSet s.connected env req).connected
  | .syncGet parsed env => s.syncGet parsed env
  | .syncHandle => s.syncHandle
  | .reconnect created => s.reconnect created

/-- The state after the steps `evs`, in order. -/
def run (s : NcConn) (evs : List NcEvent) : NcConn := evs.foldl step s

/-- A disconnected target has a `reconnect` goroutine on its way. -/
def Recovering (s : NcConn) : Prop := s.connected = false → 0 < s.reconnecting

theorem recovering_afterCall {s : NcConn} (h : s.Recovering) (c : Bool) : (s.afterCall c).Recovering := by
  unfold afterCall
  split
  · exact fun _ => Nat.succ_pos _
  · exact h

theorem recovering_syncGet {s : NcConn} (h : s.Recovering) (parsed : Except String (List (List String)))
    (env : NcGetEnv Unit) : (s.syncGet parsed env).Recovering := by
  unfold syncGet
  split
  · exact h
  · rcases parsed with _ | paths
    · exact h
    · have ha := recovering_afterCall h (ncGet true env .main paths).connected
      dsimp only
      split <;> (try split) <;> exact ha

theorem recovering_syncHandle {s : NcConn} (h : s.Recovering) : s.syncHandle.Recovering := by
  unfold syncHandle
  split
  · exact h
  · exact fun _ => Nat.succ_pos _

theorem recovering_reconnect {s : NcConn} (h : s.Recovering) (created : Bool) : (s.reconnect created).Recovering := by
  unfold reconnect Recovering at *
  split_ifs <;> simp_all

theorem recovering_step {s : NcConn} (h : s.Recovering) : ∀ ev, (s.step ev).Recovering
  | .get .. | .set .. => recovering_afterCall h _
  | .syncGet parsed env => recovering_syncGet h parsed env
  | .syncHandle => recovering_syncHandle h
  | .reconnect created => recovering_reconnect h created

theorem recovering_run {s : NcConn} (h : s.Recovering) (evs : List NcEvent) : (s.run evs).Recovering := by
  induction evs generalizing s with
  | nil => exact h
  | cons ev evs ih => exact ih (recovering_step h ev)

/-- No reconnect is ever lost: whatever the calls, the sync runs and the `reconnect` goroutines of a
target whose driver was created do, in whatever order their steps interleave, a disconnected
target has a `reconnect` goroutine pending, and the next driver it creates connects the target
again. -/
theorem disconnected_until_reconnect (evs : List NcEvent) (h : ((new true).run evs).connected = false) :
    0 < ((new true).run evs).reconnecting ∧
      (((new true).run evs).step (.reconnect true)).connected = true := by
  have hr := recovering_run (s := new true) (fun h => nomatch h) evs h
  refine ⟨hr, ?_⟩
  simp [step, reconnect, Nat.pos_iff_ne_zero.1 hr, h]

/-- A `Get` whose `GetConfig` the device cuts off. -/
def ncGetEnvEOF : NcGetEnv Unit := ⟨fun _ => .ok (), .ok "<filter/>", fun _ _ => .error "EOF", fun _ => .ok ()⟩

theorem disconnected_until_reconnect_sample :
    ((new true).run [.get ncGetEnvEOF .main [["a"]]]).connected = false ∧
      0 < ((new true).run [.get ncGetEnvEOF .main [["a"]]]).reconnecting ∧
      (((new true).run [.get ncGetEnvEOF .main [["a"]]]).step (.reconnect true)).connected = true :=
  ⟨by decide, disconnected_until_reconnect _ (by decide)⟩

/-- The target whose driver could not be created stays as `newNCTarget` left it. -/
theorem run_new_false (evs : List NcEvent) : (new false).run evs = new false := by
  induction evs with
  | nil => rfl
  | cons ev evs ih =>
    have hstep : (new false).step ev = new false := by
      cases ev <;> rfl
    rw [run, List.foldl_cons, hstep]
    exact ih

end NcConn

end DataServer
