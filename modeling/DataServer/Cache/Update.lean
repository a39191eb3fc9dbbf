import DataServer.Go

/-! `cache.Update`, the record the tree stores for every leaf value: a path, the marshalled
value bytes, a priority and an owner. The timestamp of a cache update is read by no function
of the tree and is left out. -/
namespace DataServer

/-- `cache.Update`. -/
structure Update where
  path : List String
  value : List UInt8
  priority : Int32
  owner : String
deriving DecidableEq, Repr

namespace Update

/-- Modelled from the spec: `cache.Update.EqualSkipPath` is not in the sources. The spec calls it
path-ignored equality of updates, whose equality ignores the timestamp, so owner, priority and
value bytes are compared. -/
def equalSkipPath (u c : Update) : Bool :=
  u.owner == c.owner && u.priority == c.priority && u.value == c.value

@[simp] theorem equalSkipPath_iff {u c : Update} :
    u.equalSkipPath c = true ↔ u.owner = c.owner ∧ u.priority = c.priority ∧ u.value = c.value := by
  simp [equalSkipPath, and_assoc]

theorem eq_of_equalSkipPath {u c : Update} (h : u.equalSkipPath c = true) (hp : u.path = c.path) :
    u = c := by
  obtain ⟨ho, hpr, hv⟩ := equalSkipPath_iff.mp h
  cases u; cases c; simp_all

end Update

/-- Modelled from the spec: the constant `RunningIntentName` is not in the sources; the spec names
the reserved owner of the device's running configuration `"running"`. -/
def runningIntentName : String := "running"

end DataServer
