import DataServer.Tree.LeafVariants
import DataServer.Tree.Schema

/-! The tree of `pkg/tree/entry.go`. An entry (`sharedEntryAttributes`) holds its name, its
children map, its leaf variants, its schema and its choice resolvers. The parent back-reference
is the enclosing entry: every function walks down from the root and carries the entry's
`Path()` and the schemas of its ancestors, which is all the code reads through `parent`. -/
namespace DataServer

/-- `TreeContext`, with the services the tree calls. -/
structure TreeContext where
  /-- `treeSchemaCacheClient.GetSchema`: the schema of a path, or the error of the service. -/
  getSchema : List String → Except String (Option SchemaElem)
  /-- `GetActualOwner`: the owner of the intent being applied. -/
  actualOwner : String
  /-- The intended-store index given by `SetStoreIndex`: joined path ↦ the updates at it. -/
  storeIndex : List (String × List Update)
  /-- The order in which this build's `initChoiceCasesResolvers` calls visit the cases. -/
  caseOrder : CaseOrder

mutual
/-- `sharedEntryAttributes`. -/
inductive Entry where
  | mk (pathElemName : String) (childs : Childs) (leafVariants : LeafVariants)
      (schema : Option SchemaElem) (choicesResolvers : ChoiceCasesResolvers)
/-- The `childs` map, its keys in insertion order. -/
inductive Childs where
  | nil
  | cons (key : String) (child : Entry) (rest : Childs)
end

namespace Entry

def pathElemName : Entry → String | mk n _ _ _ _ => n
def childs : Entry → Childs | mk _ c _ _ _ => c
def leafVariants : Entry → LeafVariants | mk _ _ lv _ _ => lv
def schema : Entry → Option SchemaElem | mk _ _ _ s _ => s
def choicesResolvers : Entry → ChoiceCasesResolvers | mk _ _ _ _ r => r

def withChilds (e : Entry) (c : Childs) : Entry :=
  mk e.pathElemName c e.leafVariants e.schema e.choicesResolvers
def withLeafVariants (e : Entry) (lv : LeafVariants) : Entry :=
  mk e.pathElemName e.childs lv e.schema e.choicesResolvers
def withChoicesResolvers (e : Entry) (r : ChoiceCasesResolvers) : Entry :=
  mk e.pathElemName e.childs e.leafVariants e.schema r

@[simp] theorem pathElemName_mk (n c lv s r) : (mk n c lv s r).pathElemName = n := rfl
@[simp] theorem childs_mk (n c lv s r) : (mk n c lv s r).childs = c := rfl
@[simp] theorem leafVariants_mk (n c lv s r) : (mk n c lv s r).leafVariants = lv := rfl
@[simp] theorem schema_mk (n c lv s r) : (mk n c lv s r).schema = s := rfl
@[simp] theorem choicesResolvers_mk (n c lv s r) : (mk n c lv s r).choicesResolvers = r := rfl

@[simp] theorem withChilds_childs (e : Entry) (c) : (e.withChilds c).childs = c := rfl
@[simp] theorem withChilds_pathElemName (e : Entry) (c) :
    (e.withChilds c).pathElemName = e.pathElemName := rfl
@[simp] theorem withChilds_leafVariants (e : Entry) (c) :
    (e.withChilds c).leafVariants = e.leafVariants := rfl
@[simp] theorem withChilds_schema (e : Entry) (c) : (e.withChilds c).schema = e.schema := rfl
@[simp] theorem withChilds_choicesResolvers (e : Entry) (c) :
    (e.withChilds c).choicesResolvers = e.choicesResolvers := rfl
@[simp] theorem withLeafVariants_childs (e : Entry) (lv) :
    (e.withLeafVariants lv).childs = e.childs := rfl
@[simp] theorem withLeafVariants_pathElemName (e : Entry) (lv) :
    (e.withLeafVariants lv).pathElemName = e.pathElemName := rfl
@[simp] theorem withLeafVariants_leafVariants (e : Entry) (lv) :
    (e.withLeafVariants lv).leafVariants = lv := rfl
@[simp] theorem withLeafVariants_schema (e : Entry) (lv) :
    (e.withLeafVariants lv).schema = e.schema := rfl
@[simp] theorem withLeafVariants_choicesResolvers (e : Entry) (lv) :
    (e.withLeafVariants lv).choicesResolvers = e.choicesResolvers := rfl

end Entry

namespace Childs

/-- `childs[key]`. -/
def lookup (key : String) : Childs → Option Entry
  | nil => none
  | cons k e rest => if k = key then some e else lookup key rest

/-- `childs[key] = e`: the entry under `key` is replaced, or added after the others. -/
def insert (key : String) (e : Entry) : Childs → Childs
  | nil => cons key e nil
  | cons k e' rest => if k = key then cons k e rest else cons k e' (insert key e rest)

def keys : Childs → List String
  | nil => []
  | cons k _ rest => k :: keys rest

theorem lookup_eq_none_iff {key : String} : ∀ {cs : Childs}, cs.lookup key = none ↔ key ∉ cs.keys
  | nil => by simp [lookup, keys]
  | cons k e rest => by
    by_cases h : k = key
    · simp [lookup, keys, h]
    · simp [lookup, keys, h, Ne.symm h, lookup_eq_none_iff]

theorem mem_keys_of_lookup {key : String} {cs : Childs} {e : Entry} (h : cs.lookup key = some e) :
    key ∈ cs.keys :=
  by_contra fun hk => by simp [lookup_eq_none_iff.mpr hk] at h

theorem mem_keys_insert {key k : String} {e : Entry} :
    ∀ {cs : Childs}, k ∈ (cs.insert key e).keys ↔ k ∈ cs.keys ∨ k = key
  | nil => by simp [insert, keys]
  | cons k' e' rest => by
    by_cases h : k' = key
    · subst h; simp only [insert, if_true, keys, List.mem_cons]; tauto
    · simp only [insert, h, if_false, keys, List.mem_cons, mem_keys_insert]; tauto

@[simp] theorem lookup_insert_self (key : String) (e : Entry) :
    ∀ cs : Childs, (cs.insert key e).lookup key = some e
  | nil => by simp [insert, lookup]
  | cons k e' rest => by
    by_cases h : k = key
    · simp [insert, lookup, h]
    · simp [insert, lookup, h, lookup_insert_self key e rest]

theorem lookup_insert_ne {key k : String} (e : Entry) (h : k ≠ key) :
    ∀ cs : Childs, (cs.insert key e).lookup k = cs.lookup k
  | nil => by simp [insert, lookup, Ne.symm h]
  | cons k' e' rest => by
    by_cases h' : k' = key
    · subst h'; simp [insert, lookup, Ne.symm h]
    · simp only [insert, h', if_false, lookup, lookup_insert_ne e h rest]

@[simp] theorem insert_insert (key : String) (e e' : Entry) :
    ∀ cs : Childs, (cs.insert key e).insert key e' = cs.insert key e'
  | nil => by simp [insert]
  | cons k e'' rest => by
    by_cases h : k = key
    · simp [insert, h]
    · simp [insert, h, insert_insert key e e' rest]

end Childs

/-- `GetAncestorSchema` of an entry whose proper ancestors carry the schemas `anc`, nearest first;
with no schema above, the recursion calls the method on the root's nil parent. -/
def getAncestorSchema : List (Option SchemaElem) → Except Fault (SchemaElem × Nat)
  | [] => .error Fault.nilDereference
  | some s :: _ => .ok (s, 1)
  | none :: anc => (getAncestorSchema anc).map fun (s, levelUp) => (s, levelUp + 1)

/-- Whether `newSharedEntryAttributes` asks the schema service for the entry whose proper ancestors
carry the schemas `anc` (empty exactly for the root): always at the root, and below it unless
the nearest ancestor schema is a container with at least as many keys as it is levels up, which
makes the entry a key level of a keyed list. -/
def needsSchema (anc : List (Option SchemaElem)) : Except Fault Bool :=
  match anc with
  | [] => pure true
  | _ => do
    let (ancesterschema, levelUp) ← getAncestorSchema anc
    pure <| match ancesterschema.schema with
      | some (.container c) => !(c.keys.length ≥ levelUp)
      | _ => true

/-- `newSharedEntryAttributes` for the entry at `path` with ancestor schemas `anc`. -/
def newSharedEntryAttributes (tc : TreeContext) (anc : List (Option SchemaElem))
    (path : List String) (pathElemName : String) : Except Fault Entry := do
  let getSchema ← needsSchema anc
  let schema ← if getSchema then (tc.getSchema path).mapError Fault.error else pure none
  pure (Entry.mk pathElemName .nil [] schema (initChoiceCasesResolvers tc.caseOrder path schema))

theorem newSharedEntryAttributes_ok {tc : TreeContext} {anc : List (Option SchemaElem)}
    {path : List String} {n : String} {e : Entry}
    (h : newSharedEntryAttributes tc anc path n = .ok e) :
    ∃ schema, e = Entry.mk n .nil [] schema (initChoiceCasesResolvers tc.caseOrder path schema) := by
  unfold newSharedEntryAttributes at h
  cases hg : needsSchema anc with
  | error => simp only [hg, bind, Except.bind] at h; cases h
  | ok b =>
    cases b <;> simp only [hg, bind, Except.bind, if_true, Bool.false_eq_true, if_false, pure,
      Except.pure] at h
    · cases h; exact ⟨_, rfl⟩
    · cases hs : tc.getSchema path <;> simp only [hs, Except.mapError] at h
      · cases h
      · cases h; exact ⟨_, rfl⟩

/-- `AddChild` of `e` to the entry `s` at `path`. -/
def addChild (path : List String) (s e : Entry) : Except Fault Entry := do
  if s.leafVariants.length > 0 then
    -- `s.schema.Schema.(*sdcpb.SchemaElem_Container)` reads through `s.schema`; then
    -- `!is_container && !contSchema.Container.IsPresence` reads through the nil `contSchema`
    -- when the schema is not a container, and stops at `!is_container` when it is one.
    match s.schema with
    | none => throw Fault.nilDereference
    | some sch =>
      match sch.schema with
      | some (.container _) => pure ()
      | _ => throw Fault.nilDereference
  -- `e.Path()`: the parent of `e` is `s`
  let ePath := path ++ [e.pathElemName]
  if path ≠ ePath.dropLast then
    if path = [] then throw Fault.nilDereference
    let parent := String.intercalate "/" path.dropLast
    let child := String.intercalate "/" ePath.dropLast
    throw (.error s!"adding Child with diverging path, parent: {parent}, child: {child}")
  pure (s.withChilds (s.childs.insert e.pathElemName e))

/-- `newEntry` under the entry `parent` at `path` (ancestor schemas `anc`): the new entry and the
parent it was added to. -/
def newEntry (tc : TreeContext) (anc : List (Option SchemaElem)) (path : List String)
    (parent : Entry) (pathElemName : String) : Except Fault (Entry × Entry) := do
  let e ← newSharedEntryAttributes tc (parent.schema :: anc) (path ++ [pathElemName]) pathElemName
  let parent ← addChild path parent e
  pure (parent, e)

/-- `AddCacheUpdateRecursive(c, new)` on the entry `r` at `path` (ancestor schemas `anc`), the rest
`c.GetPath()[r.GetLevel():]` given; the tree after the call, also when it fails. -/
def addCacheUpdateRecursive (tc : TreeContext) (c : Update) (new : Bool) :
    List String → List String → List (Option SchemaElem) → Entry → Entry × Except Fault Unit
  | [], _, _, r => (r.withLeafVariants (r.leafVariants.addCacheUpdate c new), .ok ())
  | key :: rest, path, anc, r =>
    match r.childs.lookup key with
    | some e =>
      let e' := addCacheUpdateRecursive tc c new rest (path ++ [e.pathElemName]) (r.schema :: anc) e
      (r.withChilds (r.childs.insert key e'.1), e'.2)
    | none =>
      match newEntry tc anc path r key with
      | .error err => (r, .error err)
      | .ok (r', e) =>
        let e' := addCacheUpdateRecursive tc c new rest (path ++ [e.pathElemName]) (r.schema :: anc) e
        (r'.withChilds (r'.childs.insert key e'.1), e'.2)

mutual
/-- `MarkOwnerDelete`: the delete flag on every variant of the owner. -/
def Entry.markOwnerDelete (o : String) : Entry → Entry
  | .mk n childs lv s r => .mk n (childs.markOwnerDelete o) (lv.markOwnerDelete o) s r
def Childs.markOwnerDelete (o : String) : Childs → Childs
  | .nil => .nil
  | .cons k e rest => .cons k (e.markOwnerDelete o) (rest.markOwnerDelete o)
end

theorem addChild_eq (path : List String) (s e : Entry) :
    addChild path s e =
      if s.leafVariants.length > 0 ∧ SchemaElem.getContainer s.schema = none then
        .error Fault.nilDereference
      else .ok (s.withChilds (s.childs.insert e.pathElemName e)) := by
  rcases s with ⟨n, cs, lv, _ | ⟨_ | _ | _ | _⟩, r⟩ <;>
    by_cases h : lv.length > 0 <;> simp [addChild, h, SchemaElem.getContainer] <;> rfl

theorem newEntry_ok {tc : TreeContext} {anc : List (Option SchemaElem)} {path : List String}
    {parent parent' e : Entry} {key : String}
    (h : newEntry tc anc path parent key = .ok (parent', e)) :
    e.pathElemName = key ∧ e.childs = .nil ∧ e.leafVariants = [] ∧
      e.choicesResolvers = initChoiceCasesResolvers tc.caseOrder (path ++ [key]) e.schema ∧
      parent' = parent.withChilds (parent.childs.insert key e) := by
  unfold newEntry at h
  cases hs : newSharedEntryAttributes tc (parent.schema :: anc) (path ++ [key]) key with
  | error err => simp only [hs, bind, Except.bind] at h; cases h
  | ok e₀ =>
    obtain ⟨schema, rfl⟩ := newSharedEntryAttributes_ok hs
    by_cases hc : parent.leafVariants.length > 0 ∧ SchemaElem.getContainer parent.schema = none
    · simp only [hs, bind, Except.bind, addChild_eq, hc, and_self, if_true] at h
      cases h
    · simp only [hs, bind, Except.bind, addChild_eq, hc, if_false, pure, Except.pure,
        Except.ok.injEq, Prod.mk.injEq] at h
      obtain ⟨rfl, rfl⟩ := h
      exact ⟨rfl, rfl, rfl, rfl, rfl⟩

@[simp] theorem pathElemName_markOwnerDelete (o : String) (e : Entry) :
    (e.markOwnerDelete o).pathElemName = e.pathElemName := by cases e; rfl

@[simp] theorem keys_markOwnerDelete (o : String) : ∀ cs : Childs, (cs.markOwnerDelete o).keys = cs.keys
  | .nil => rfl
  | .cons k _ rest => congrArg (k :: ·) (keys_markOwnerDelete o rest)

@[simp] theorem pathElemName_addCacheUpdateRecursive (tc : TreeContext) (c : Update) (new : Bool)
    (rest path : List String) (anc : List (Option SchemaElem)) (r : Entry) :
    (addCacheUpdateRecursive tc c new rest path anc r).1.pathElemName = r.pathElemName := by
  cases rest with
  | nil => rfl
  | cons key rest =>
    simp only [addCacheUpdateRecursive]
    split
    · rfl
    · split
      · rfl
      · rename_i heq; rw [(newEntry_ok heq).2.2.2.2]; rfl

/-- `NewTreeRoot`: the root entry, whose schema is that of the empty path. -/
def newTreeRoot (tc : TreeContext) : Except Fault Entry := newSharedEntryAttributes tc [] [] ""

/-- The calls that build the tree of a transaction. -/
inductive TreeOp where
  | addCacheUpdate (u : Update) (new : Bool)
  | markOwnerDelete (o : String)

/-- One call on the root; a failed `AddCacheUpdateRecursive` leaves what it built so far. -/
def TreeOp.apply (tc : TreeContext) (root : Entry) : TreeOp → Entry
  | .addCacheUpdate u new => (addCacheUpdateRecursive tc u new u.path [] [] root).1
  | .markOwnerDelete o => root.markOwnerDelete o

/-- The tree after a sequence of calls. -/
def buildTree (tc : TreeContext) (root : Entry) (ops : List TreeOp) : Entry :=
  ops.foldl (TreeOp.apply tc) root

/-- The loop of `populateTree` that adds cache updates to the tree one after the other, with the
given `new` flag, and returns at the first error. -/
def addCacheUpdates (tc : TreeContext) (new : Bool) (root : Entry) (us : List Update) :
    Except Fault Entry :=
  us.foldlM (fun root upd =>
    let r := addCacheUpdateRecursive tc upd new upd.path [] [] root
    r.2.map fun _ => r.1) root

/-- The trees a transaction can hold: a root from `NewTreeRoot` after any sequence of calls. -/
def Reachable (tc : TreeContext) (t : Entry) : Prop :=
  ∃ root ops, newTreeRoot tc = .ok root ∧ t = buildTree tc root ops

end DataServer
