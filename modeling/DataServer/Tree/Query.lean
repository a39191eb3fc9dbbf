import DataServer.Tree.Entry

/-! The read side of the tree: the precedence of a branch, the choice resolution of
`FinishInsertionPhase`, the device updates of `GetHighestPrecedence`, and the owner-scoped
updates and deletes written back to the intended store. -/
namespace DataServer

/-- Modelled from the spec: `TreeContext.GetBranchesHighesPrecedence` is not in the sources. It is
the highest precedence (least priority) in the intended-store index on the branch rooted at
`path`, among the updates the filter keeps; `math.MaxInt32` when there is none. -/
def TreeContext.getBranchesHighesPrecedence (tc : TreeContext) (path : List String)
    (filter : Update → Bool) : Int32 :=
  (tc.storeIndex.flatMap (·.2)).foldl (fun result u =>
    if path.isPrefixOf u.path && filter u && u.priority < result then u.priority else result)
    Int32.maxInt32

/-- Modelled from the spec: `CacheUpdateFilterExcludeOwner` is not in the sources; the spec's query
excludes the updates of the current intent's owner. -/
def cacheUpdateFilterExcludeOwner (owner : String) (u : Update) : Bool := u.owner != owner

mutual
/-- `GetHighestPrecedenceValueOfBranch`: the least priority of a non-deleted variant in the branch,
over all children. -/
def Entry.getHighestPrecedenceValueOfBranch : Entry → Int32
  | .mk _ childs lv _ _ =>
    let result := childs.getHighestPrecedenceValueOfBranch Int32.maxInt32
    let val := lv.getHighestPrecedenceValue
    if val < result then val else result
def Childs.getHighestPrecedenceValueOfBranch (result : Int32) : Childs → Int32
  | .nil => result
  | .cons _ e rest =>
    let val := e.getHighestPrecedenceValueOfBranch
    rest.getHighestPrecedenceValueOfBranch (if val < result then val else result)
end

/-- The children `filterActiveChoiceCaseChilds` leaves out: none for an entry without schema, the
skip set of its choice resolvers otherwise. -/
def Entry.skipElements (e : Entry) : List String :=
  match e.schema with
  | none => []
  | some _ => e.choicesResolvers.getSkipElements

/-- `filterActiveChoiceCaseChilds`. -/
def Childs.filterActive (skip : List String) : Childs → Childs
  | .nil => .nil
  | .cons k e rest => if k ∈ skip then rest.filterActive skip else .cons k e (rest.filterActive skip)

def Entry.filterActiveChoiceCaseChilds (e : Entry) : Childs := e.childs.filterActive e.skipElements

/-- One iteration of `populateChoiceCaseResolvers`' loop over a resolver's elements, on the entry
`s` at `path`: the store's value for the branch, queried at `path`, as the element's old value,
and the tree's value of the child of that name, when there is one, as its new value. -/
def Entry.populateElement (tc : TreeContext) (path : List String) (s : Entry)
    (choiceResolver : ChoiceCasesResolver) (elem : String) : ChoiceCasesResolver :=
  let val := tc.getBranchesHighesPrecedence path (cacheUpdateFilterExcludeOwner tc.actualOwner)
  let choiceResolver := if val < Int32.maxInt32 then choiceResolver.setValue elem val false
    else choiceResolver
  match s.childs.lookup elem with
  | some child => choiceResolver.setValue elem child.getHighestPrecedenceValueOfBranch true
  | none => choiceResolver

/-- The resolvers after `populateChoiceCaseResolvers` on the entry `s` at `path`: every element of
every resolver is populated in turn. -/
def Entry.populatedResolvers (tc : TreeContext) (path : List String) (s : Entry) :
    ChoiceCasesResolvers :=
  s.choicesResolvers.map fun (choiceName, choiceResolver) =>
    (choiceName, choiceResolver.getElementNames.foldl (s.populateElement tc path) choiceResolver)

/-- `populateChoiceCaseResolvers`, which does nothing on an entry without schema. -/
def Entry.populateChoiceCaseResolvers (tc : TreeContext) (path : List String) (s : Entry) : Entry :=
  match s.schema with
  | none => s
  | some _ => s.withChoicesResolvers (s.populatedResolvers tc path)

mutual
/-- `FinishInsertionPhase` on the entry at `path`: its resolvers are populated, then the call
recurses into the children that stay active. -/
def Entry.finishInsertionPhase (tc : TreeContext) (path : List String) : Entry → Entry
  | e@(.mk n childs lv schema _) =>
    let e' := e.populateChoiceCaseResolvers tc path
    .mk n (childs.finishInsertionPhase tc path e'.skipElements) lv schema e'.choicesResolvers
def Childs.finishInsertionPhase (tc : TreeContext) (path : List String) (skip : List String) :
    Childs → Childs
  | .nil => .nil
  | .cons k c rest =>
    .cons k (if k ∈ skip then c else c.finishInsertionPhase tc (path ++ [c.pathElemName]))
      (rest.finishInsertionPhase tc path skip)
end

mutual
/-- `GetHighestPrecedence(result, onlyNewOrUpdated)`: the leaf's pick, then the active children. -/
def Entry.getHighestPrecedence (onlyNewOrUpdated : Bool) (result : List Update) : Entry → List Update
  | e@(.mk _ childs lv _ _) =>
    let result := match lv.getHighestPrecedence onlyNewOrUpdated with
      | some l => result ++ [l.update]
      | none => result
    childs.getHighestPrecedence onlyNewOrUpdated e.skipElements result
/-- The loop over `filterActiveChoiceCaseChilds()`: the children not in the skip set. -/
def Childs.getHighestPrecedence (onlyNewOrUpdated : Bool) (skip : List String)
    (result : List Update) : Childs → List Update
  | .nil => result
  | .cons k c rest =>
    let result := if k ∈ skip then result else c.getHighestPrecedence onlyNewOrUpdated result
    rest.getHighestPrecedence onlyNewOrUpdated skip result
end

/-- `RootEntry.GetHighestPrecedence`. -/
def rootGetHighestPrecedence (root : Entry) (onlyNewOrUpdated : Bool) : List Update :=
  root.getHighestPrecedence onlyNewOrUpdated []

/-- `RootEntry.FinishInsertionPhase`. -/
def rootFinishInsertionPhase (tc : TreeContext) (root : Entry) : Entry :=
  root.finishInsertionPhase tc []

mutual
/-- `GetByOwner`: the owner's variant of every entry, over all children. -/
def Entry.getByOwner (owner : String) (result : List LeafEntry) : Entry → List LeafEntry
  | .mk _ childs lv _ _ =>
    childs.getByOwner owner (match lv.getByOwner owner with
      | some l => result ++ [l]
      | none => result)
def Childs.getByOwner (owner : String) (result : List LeafEntry) : Childs → List LeafEntry
  | .nil => result
  | .cons _ c rest => rest.getByOwner owner (c.getByOwner owner result)
end

/-- Modelled from the spec: `FilterNonDeletedButNewOrUpdated` is not in the sources. As its name and
the comment at its call site say, it keeps the variants not marked for deletion that are new or
updated. -/
def filterNonDeletedButNewOrUpdated (e : LeafEntry) : Bool := !e.delete && (e.isNew || e.isUpdated)

/-- Modelled from the spec: `FilterDeleted` is not in the sources; it keeps the variants marked for
deletion. -/
def filterDeleted (e : LeafEntry) : Bool := e.delete

/-- `RootEntry.getByOwnerFiltered`: the owner's variants that pass every filter. -/
def getByOwnerFiltered (root : Entry) (owner : String) (f : List (LeafEntry → Bool)) :
    List LeafEntry :=
  (root.getByOwner owner []).filter fun e => f.all fun filter => filter e

/-- `RootEntry.GetUpdatesForOwner`. -/
def getUpdatesForOwner (root : Entry) (owner : String) : List Update :=
  (getByOwnerFiltered root owner [filterNonDeletedButNewOrUpdated]).map (·.update)

/-- `RootEntry.GetDeletesForOwner`. -/
def getDeletesForOwner (root : Entry) (owner : String) : List (List String) :=
  (getByOwnerFiltered root owner [filterDeleted]).map (·.update.path)

end DataServer
