import DataServer.Go

/-! The typed values of leaves (`sdcpb.TypedValue`) and `SRnges` of `pkg/utils/srnges.go`, the
signed ranges of an integer leaf type: `isWithinAnyRange` parses a leaf value as a decimal `int64`
and accepts it, as an `IntVal`, when no range is defined or one of the ranges holds it. -/
namespace DataServer

/-- `sdcpb.TypedValue`: the cases the data server tells apart, and `asciiVal`, which holds a string
too; `other` stands for the remaining cases of the oneof (bytes, float, decimal, leaf-list, any,
JSON, JSON-IETF, proto bytes, double, empty), which no modelled function tells apart. -/
inductive TypedValue where
  | stringVal (s : String)
  | intVal (i : Int)
  | uintVal (n : UInt64)
  | boolVal (b : Bool)
  | asciiVal (s : String)
  | other
deriving DecidableEq, Repr

/-- `GetStringVal()`: the string of a `StringVal`, `""` for every other case. -/
def TypedValue.getStringVal : TypedValue → String
  | .stringVal s => s
  | _ => ""

/-- `SRng`, a range of `int64` values. -/
structure SRng where
  min : Int
  max : Int
deriving DecidableEq, Repr

def SRng.isInRange (r : SRng) (value : Int) : Bool := r.min ≤ value && value ≤ r.max

/-- `SRnges`. -/
structure SRnges where
  rnges : List SRng
deriving DecidableEq, Repr

/-- `isWithinAnyRange(value)`: the value parsed by `strconv.ParseInt(value, 10, 64)`, as an
`IntVal`, when no range is defined or some range holds it. -/
def SRnges.isWithinAnyRange (r : SRnges) (value : String) : Except String TypedValue := do
  let intValue ← (Go.parseInt value.toList).mapError (·.message "ParseInt" value)
  let tv := TypedValue.intVal intValue
  if r.rnges = [] then return tv
  if r.rnges.any (·.isInRange intValue) then return tv
  .error (Go.quote value ++ " not within ranges")

end DataServer
