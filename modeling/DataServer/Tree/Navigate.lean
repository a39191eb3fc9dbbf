import DataServer.Tree.Validate

/-! `Navigate`, which moves from an entry along a relative path. An entry is named by its
`Path()` in the tree; its parent is the entry one element up, and the root has a nil parent. The
loop over the segments is entered only while its flag `cont` is set, and the flag starts unset:
the loop never runs, and every non-empty path ends in the error after it. -/
namespace DataServer

section Navigate

variable (tc : TreeContext) (readRunning : List String → Except String (Option Update))

/-- `s.filterActiveChoiceCaseChilds()[name]` of the entry `s` at `pos` in the tree `root`. -/
def activeChild (root : Entry) (pos : List String) (name : String) : Option Entry :=
  (root.getAt pos).bind (·.filterActiveChoiceCaseChilds.lookup name)

/-- Modelled from the spec: `TreeContext.ReadRunning` is not in the sources; `readRunning` is its
answer. `tryLoading(path)` on the entry `s` at `pos`: the update read is added with `new` unset,
then `s.childs[path[0]]` returned. -/
def tryLoading (root : Entry) (pos : List String) (name : String) (path : List String) :
    Entry × Except Fault (Option Entry) :=
  match readRunning (pos ++ path) with
  | .error err => (root, .error (.error err))
  | .ok none => (root, .error (.error ("reached " ++ Go.stringSlice pos ++ " but child " ++ name ++ " does not exist")))
  | .ok (some upd) =>
    match addCacheUpdateRecursive tc upd false upd.path [] [] root with
    | (root, .error err) => (root, .error err)
    | (root, .ok ()) => (root, .ok ((root.getAt pos).bind (·.childs.lookup name)))

/-- The error `Navigate` returns after its loop. -/
def navigateError (pos path : List String) : String :=
  "navigating tree, reached " ++ Go.stringSlice pos ++ " but child " ++ Go.stringSlice path ++ " does not exist"

/-- The loop `for cont` of `Navigate(path)` on the entry at `pos`, at index `idx`; its cases `..`
and default read `path[0]` and `path[1:]`, not `path[idx]`. -/
def navigateLoop (nav : Entry → List String → Entry × Except Fault (List String)) (name : String)
    (path : List String) (root : Entry) (pos : List String) :
    Nat → List String → Bool → Entry × Except Fault (List String)
  | _, _, false => (root, .error (.error (navigateError pos path)))
  | idx, [], true => (root, .error (Fault.indexOutOfRange idx path.length))
  | idx, "." :: segs, true => navigateLoop nav name path root pos (idx + 1) segs true
  | _, ".." :: _, true => if pos = [] then (root, .error Fault.nilDereference) else nav root pos.dropLast
  | _, _ :: _, true =>
    match activeChild root pos name with
    | some _ => nav root (pos ++ [name])
    | none =>
      match tryLoading tc readRunning root pos name path with
      | (root, .error err) => (root, .error err)
      | (root, .ok none) => (root, .error Fault.nilDereference)
      | (root, .ok (some _)) => nav root (pos ++ [name])

/-- `Navigate(path)` on the entry at `pos` of `root`: the tree after the call and the `Path()` of
the entry returned. -/
def navigate : List String → Entry → List String → Entry × Except Fault (List String)
  | [], root, pos => (root, .ok pos)
  | path@(name :: rest), root, pos =>
    let cont := false
    navigateLoop tc readRunning (navigate rest) name path root pos 0 path cont

theorem navigate_eq (root : Entry) (pos : List String) :
    ∀ path, navigate tc readRunning path root pos =
      (root, if path = [] then .ok pos else .error (.error (navigateError pos path)))
  | [] => rfl
  | _ :: _ => by simp [navigate, navigateLoop]

end Navigate

/-- The resolution the spec describes for a relative path, from the entry at `pos`: `.` stays, `..`
moves to the parent, a name moves to the active child of that name; `none` when a step leaves
the tree. -/
def resolveRelative (root : Entry) : List String → List String → Option (List String)
  | pos, [] => some pos
  | pos, "." :: rest => resolveRelative root pos rest
  | pos, ".." :: rest => if pos = [] then none else resolveRelative root pos.dropLast rest
  | pos, name :: rest => (activeChild root pos name).bind fun _ => resolveRelative root (pos ++ [name]) rest

/-- On the choice sample after `FinishInsertionPhase`, the paths `y` and `.` resolve from the root,
to `y` and to the root; `Navigate` returns an error for both, whatever the running store holds. -/
theorem navigate_fails_on_resolved_path :
    Reachable (choiceContext []) mandatorySampleTree ∧
      resolveRelative (rootFinishInsertionPhase (choiceContext []) mandatorySampleTree) [] ["y"] = some ["y"] ∧
      resolveRelative (rootFinishInsertionPhase (choiceContext []) mandatorySampleTree) [] ["."] = some [] ∧
      ∀ readRunning : List String → Except String (Option Update),
        (navigate (choiceContext []) readRunning ["y"] (rootFinishInsertionPhase (choiceContext []) mandatorySampleTree) []).2 =
            .error (.error "navigating tree, reached [] but child [y] does not exist") ∧
        (navigate (choiceContext []) readRunning ["."] (rootFinishInsertionPhase (choiceContext []) mandatorySampleTree) []).2 =
            .error (.error "navigating tree, reached [] but child [.] does not exist") :=
  ⟨⟨_, _, rfl, rfl⟩, by decide, rfl, fun _ => ⟨rfl, rfl⟩⟩

end DataServer
