import DataServer.Tree.Query

/-! The deletes the tree sends to the device: `ShouldDelete` of a branch, the aggregation of a
whole list instance whose key leaves are all deleted, the old case of a choice whose active case
switched, and the leaves whose variants are all deleted. -/
namespace DataServer

mutual
/-- `ShouldDelete`: the verdict of the leaf variants when there are any, else every child. -/
def Entry.shouldDelete : Entry → Bool
  | .mk _ childs lv _ _ => if lv.length > 0 then lv.shouldDelete else childs.allShouldDelete
def Childs.allShouldDelete : Childs → Bool
  | .nil => true
  | .cons _ c rest => c.shouldDelete && rest.allShouldDelete
end

/-- `IsDeleteKeyAttributesInLevelDown` on the entry `s` at `path`: its path is a delete when no key
attribute is a child that should stay; a missing key child does not keep it. -/
def Entry.isDeleteKeyAttributesInLevelDown (s : Entry) (path : List String)
    (keyAttributes : List String) (result : List (List String)) : List (List String) :=
  let doDelete := keyAttributes.all fun n =>
    match s.childs.lookup n with
    | some c => c.shouldDelete
    | none => true
  if doDelete then result ++ [path] else result

/-- The deletes of the container `s` at `path` for its choices whose active case switched:
`s.Path()` followed by the old best case's name. -/
def choiceSwitchDeletes (path : List String) (resolvers : ChoiceCasesResolvers) :
    List (List String) :=
  resolvers.filterMap fun (_, v) =>
    let oldBestCase := v.getOldBestCaseName
    let newBestCase := v.getBestCaseName
    if oldBestCase ≠ "" ∧ newBestCase ≠ "" ∧ oldBestCase ≠ newBestCase then some (path ++ [oldBestCase])
    else none

/-- The `switch` on the schema type in `GetDeletes`: a container adds the old cases of its switched
choices; any other entry adds nothing. -/
def switchedCaseDeletes (path : List String) (schema : Option SchemaElem)
    (resolvers : ChoiceCasesResolvers) (deletes : List (List String)) : List (List String) :=
  match schema with
  | some ⟨some (.container _)⟩ => deletes ++ choiceSwitchDeletes path resolvers
  | _ => deletes

/-- The regular processing of `GetDeletes` on the entry at `path` with the given variants, schema
and resolvers: the switched cases of a container; then the entry's own path when its variants
should all be deleted, or else the deletes of its children (`childDeletes`). -/
def regularDeletes (path : List String) (lv : LeafVariants) (schema : Option SchemaElem)
    (resolvers : ChoiceCasesResolvers) (deletes : List (List String))
    (childDeletes : List (List String) → Except Fault (List (List String))) :
    Except Fault (List (List String)) :=
  let deletes := switchedCaseDeletes path schema resolvers deletes
  match lv.shouldDelete, lv with
  | true, l :: _ => pure (deletes ++ [l.update.path])
  | _, _ => childDeletes deletes

mutual
/-- `GetDeletes(deletes)` on the entry at `path` with ancestor schemas `anc`; an entry without
schema as many levels below a keyed container as it has keys is a list instance, handled by the
key check alone. -/
def Entry.getDeletes (path : List String) (anc : List (Option SchemaElem))
    (deletes : List (List String)) : Entry → Except Fault (List (List String))
  | s@(.mk _ childs lv schema resolvers) =>
    let regular := regularDeletes path lv schema resolvers deletes (childs.getDeletes path (schema :: anc))
    match schema with
    | some _ => regular
    | none => do
      let (ancestorSchema, level) ← getAncestorSchema anc
      match SchemaElem.getContainer (some ancestorSchema) with
      | some contschema =>
        if level = contschema.keys.length then
          let deletes' := s.isDeleteKeyAttributesInLevelDown path contschema.keys deletes
          if deletes'.length = deletes.length then childs.getDeletes path (none :: anc) deletes'
          else pure deletes'
        else regular
      | none => regular
/-- The loop over all children of the entry at `path`, whose schemas start `anc`. -/
def Childs.getDeletes (path : List String) (anc : List (Option SchemaElem))
    (deletes : List (List String)) : Childs → Except Fault (List (List String))
  | .nil => pure deletes
  | .cons _ c rest => do
    let deletes ← c.getDeletes (path ++ [c.pathElemName]) anc deletes
    rest.getDeletes path anc deletes
end

/-- `RootEntry.GetDeletes`: called on the root's `sharedEntryAttributes`, whose `GetAncestorSchema`
has no parent to ask. -/
def rootGetDeletes (root : Entry) : Except Fault (List (List String)) := root.getDeletes [] [] []

end DataServer
