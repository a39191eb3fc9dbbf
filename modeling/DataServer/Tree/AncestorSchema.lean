import DataServer.Tree.Paths
import DataServer.Tree.Deletes

/-! `GetAncestorSchema`, which walks up the parents to the nearest one with a schema. Children link
to the root's `sharedEntryAttributes`, so a walk that finds no schema calls the method on the
root's nil parent and panics. -/
namespace DataServer

theorem getAncestorSchema_eq_error_iff :
    ∀ {anc : List (Option SchemaElem)}, getAncestorSchema anc = .error Fault.nilDereference ↔ ∀ s ∈ anc, s = none
  | [] => by simp [getAncestorSchema]
  | some _ :: _ => by simp [getAncestorSchema]
  | none :: anc => by
    have ih := @getAncestorSchema_eq_error_iff anc
    simp only [getAncestorSchema, List.mem_cons, forall_eq_or_imp, true_and]
    cases h : getAncestorSchema anc <;> simp_all [Except.map]

theorem getAncestorSchema_replicate_append (s : SchemaElem) (rest : List (Option SchemaElem)) :
    ∀ n, getAncestorSchema (List.replicate n none ++ some s :: rest) = .ok (s, n + 1)
  | 0 => rfl
  | n + 1 => by
    rw [List.replicate_succ, List.cons_append, getAncestorSchema, getAncestorSchema_replicate_append s rest n]
    rfl

/-- The root of a device whose schema service has no schema for the root, as long as nothing could
be created below it. -/
def Entry.BareRoot (t : Entry) : Prop := t.schema = none ∧ t.childs = .nil

section BareRoot

variable {tc : TreeContext}

theorem addCacheUpdateRecursive_bareRoot {t : Entry} (ht : t.BareRoot) (u : Update) (new : Bool)
    (key : String) (rest : List String) :
    addCacheUpdateRecursive tc u new (key :: rest) [] [] t = (t, .error Fault.nilDereference) := by
  obtain ⟨n, cs, lv, s, r⟩ := t
  obtain ⟨rfl, rfl⟩ := ht
  rfl

theorem TreeOp.bareRoot_apply {t : Entry} (ht : t.BareRoot) : ∀ op : TreeOp, (op.apply tc t).BareRoot
  | .addCacheUpdate u new => by
    cases hp : u.path with
    | nil =>
      simp only [TreeOp.apply, hp, addCacheUpdateRecursive]
      exact ht
    | cons key rest => simpa only [TreeOp.apply, hp, addCacheUpdateRecursive_bareRoot ht] using ht
  | .markOwnerDelete o => by
    obtain ⟨n, cs, lv, s, r⟩ := t
    obtain ⟨rfl, rfl⟩ := ht
    exact ⟨rfl, rfl⟩

theorem bareRoot_buildTree : ∀ (ops : List TreeOp) {t : Entry}, t.BareRoot → (buildTree tc t ops).BareRoot
  | [], _, h => h
  | op :: ops, _, h => bareRoot_buildTree ops (TreeOp.bareRoot_apply h op)

theorem Reachable.bareRoot {t : Entry} (ht : Reachable tc t) (hs : tc.getSchema [] = .ok none) : t.BareRoot := by
  obtain ⟨root, ops, hroot, rfl⟩ := ht
  refine bareRoot_buildTree ops ?_
  simp only [newTreeRoot, newSharedEntryAttributes, needsSchema, hs, pure, Except.pure, bind, Except.bind,
    if_true, Except.mapError, Except.ok.injEq] at hroot
  subst hroot
  exact ⟨rfl, rfl⟩

end BareRoot

theorem schemaless_root_panics {tc : TreeContext} {t : Entry} (ht : Reachable tc t)
    (hs : tc.getSchema [] = .ok none) :
    (∀ (u : Update) (new : Bool), u.path ≠ [] →
      addCacheUpdateRecursive tc u new u.path [] [] t = (t, .error Fault.nilDereference)) ∧
      rootGetDeletes (rootFinishInsertionPhase tc t) = .error Fault.nilDereference := by
  have hb := ht.bareRoot hs
  refine ⟨fun u new hu => ?_, ?_⟩
  · obtain ⟨key, rest, hp⟩ := List.exists_cons_of_ne_nil hu
    rw [hp]
    exact addCacheUpdateRecursive_bareRoot hb u new key rest
  · obtain ⟨n, cs, lv, s, r⟩ := t
    obtain ⟨rfl, rfl⟩ := hb
    rfl

/-- A schema service that has no schema for any path. -/
def schemalessContext : TreeContext where
  getSchema _ := .ok none
  actualOwner := "owner1"
  storeIndex := []
  caseOrder := .schema

/-- With that service, the root `NewTreeRoot` builds is a tree of the code in which every insert
below the root and `GetDeletes` panic. -/
theorem schemalessContext_panics :
    Reachable schemalessContext (.mk "" .nil [] none []) ∧ schemalessContext.getSchema [] = .ok none ∧
      ((∀ (u : Update) (new : Bool), u.path ≠ [] →
        addCacheUpdateRecursive schemalessContext u new u.path [] [] (.mk "" .nil [] none []) =
          (.mk "" .nil [] none [], .error Fault.nilDereference)) ∧
        rootGetDeletes (rootFinishInsertionPhase schemalessContext (.mk "" .nil [] none [])) =
          .error Fault.nilDereference) :=
  have ht : Reachable schemalessContext (.mk "" .nil [] none []) := ⟨_, [], rfl, rfl⟩
  ⟨ht, rfl, schemaless_root_panics ht rfl⟩

end DataServer
