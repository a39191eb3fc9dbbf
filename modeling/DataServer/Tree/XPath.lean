import DataServer.Tree.Paths
import DataServer.Utils.Srnges

/-! The value of a tree entry as the XPath engine of must statements sees it
(`yangParserEntryAdapter.GetValue`): a container is true, an entry without a leaf value the
empty node set, and a leaf its value of highest precedence, coerced by its typed value's case. -/
namespace DataServer

/-- Modelled from the spec: `xpath.Datum` of the yang-parser is not in the sources. The datums
`GetValue` builds: a boolean, a literal, a number, and the node set, which it builds empty. -/
inductive Datum where
  | boolDatum (b : Bool)
  | literalDatum (s : String)
  | numDatum (x : Float)
  | nodesetDatum

/-- What `GetValue` asks through the entry. Modelled from the spec: `getHighestPrecedenceLeafValue`
is not in the sources; it answers the entry's leaf variant of highest precedence, none, or an
error. `value` unmarshals an update's bytes. -/
structure LeafValueEnv where
  getHighestPrecedenceLeafValue : Entry → Except Fault (Option LeafEntry)
  value : Update → Except Fault TypedValue

/-- The prefix of a `StringVal` in `GetValue`: the identity prefix and a colon when the schema is a
leaf of type `identityref`, nothing otherwise. -/
def identityrefPrefix (schema : Option SchemaElem) : String :=
  match schema with
  | some ⟨some (.field f)⟩ => if f.typeName = "identityref" then f.identityPrefix ++ ":" else ""
  | _ => ""

/-- The `switch` of `GetValue` on the case of the typed value, with the prefix of strings. -/
def TypedValue.toDatum (pfx : String) : TypedValue → Datum
  | .boolVal b => .boolDatum b
  | .stringVal s => .literalDatum (pfx ++ s)
  | .uintVal n => .numDatum n.toFloat
  | tv => .literalDatum tv.getStringVal

/-- `yangParserEntryAdapter.GetValue` on the entry `e`. -/
def getValue (env : LeafValueEnv) (e : Entry) : Except Fault Datum := do
  if (SchemaElem.getContainer e.schema).isSome then return .boolDatum true
  match ← env.getHighestPrecedenceLeafValue e with
  | none => return .nodesetDatum
  | some lv =>
    let tv ← env.value lv.update
    return tv.toDatum (identityrefPrefix e.schema)

/-- Its schema service answers a container for the root and every top-level name, and an `int32`
leaf below. -/
def intLeafContext : TreeContext where
  getSchema p := .ok (some (if p.length ≤ 1 then sampleContainer else ⟨some (.field ⟨"int32", ""⟩)⟩))
  actualOwner := "owner1"
  storeIndex := []
  caseOrder := .schema

/-- The leaf of highest precedence as `GetHighestPrecedence(false)` picks it, and values stored as
their decimal text, read as `isWithinAnyRange` without ranges reads an integer leaf. -/
def intLeafEnv : LeafValueEnv where
  getHighestPrecedenceLeafValue e := .ok (e.leafVariants.getHighestPrecedence false)
  value u := ((SRnges.mk []).isWithinAnyRange (String.mk (u.value.map fun b => Char.ofNat b.toNat))).mapError
    Fault.error

def intLeafTree : Entry :=
  buildTree intLeafContext (.mk "" .nil [] (some sampleContainer) [])
    [.addCacheUpdate ⟨["a", "b"], [49], 10, "owner1"⟩ true, .addCacheUpdate ⟨["a", "c"], [50], 10, "owner1"⟩ true]

/-- The leaves `a/b` and `a/c` hold the `IntVal`s 1 and 2, and `GetValue` gives both the empty
literal. -/
theorem int_leaves_share_datum :
    Reachable intLeafContext intLeafTree ∧
      ((intLeafTree.getAt ["a", "b"]).bind fun e => e.leafVariants.getHighestPrecedence false).map
        (intLeafEnv.value ·.update) = some (.ok (.intVal 1)) ∧
      ((intLeafTree.getAt ["a", "c"]).bind fun e => e.leafVariants.getHighestPrecedence false).map
        (intLeafEnv.value ·.update) = some (.ok (.intVal 2)) ∧
      (intLeafTree.getAt ["a", "b"]).map (getValue intLeafEnv) = some (.ok (.literalDatum "")) ∧
      (intLeafTree.getAt ["a", "c"]).map (getValue intLeafEnv) = some (.ok (.literalDatum "")) :=
  ⟨⟨_, _, rfl, rfl⟩, by decide, by decide, rfl, rfl⟩

end DataServer
