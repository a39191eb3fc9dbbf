import DataServer.Go

/-! Schema elements as the schema service returns them (`sdcpb.SchemaElem`), with the fields the
tree reads, and the choice/case resolvers a container entry builds from its schema. -/
namespace DataServer

/-- `sdcpb.ContainerSchema`: key names, mandatory children, presence, and the choices as choice name
↦ case name ↦ element names. -/
structure ContainerSchema where
  keys : List String
  mandatoryChildren : List String
  isPresence : Bool
  choiceInfo : List (String × List (String × List String))
deriving DecidableEq, Repr

/-- `sdcpb.LeafSchema`: the type name and the identity prefix of an identityref. -/
structure LeafSchema where
  typeName : String
  identityPrefix : String
deriving DecidableEq, Repr

/-- The `oneof schema` of `sdcpb.SchemaElem`. -/
inductive SchemaKind where
  | container (c : ContainerSchema)
  | field (f : LeafSchema)
  | leaflist
deriving DecidableEq, Repr

/-- `sdcpb.SchemaElem`; its oneof may be unset. -/
structure SchemaElem where
  schema : Option SchemaKind
deriving DecidableEq, Repr

/-- `GetContainer()` through a possibly nil `*sdcpb.SchemaElem`. -/
def SchemaElem.getContainer : Option SchemaElem → Option ContainerSchema
  | some ⟨some (.container c)⟩ => some c
  | _ => none

/-- One element of a case with the priorities fed to it, `math.MaxInt32` when none was. -/
structure ChoicesCaseElement where
  name : String
  old : Int32
  new : Int32
deriving DecidableEq, Repr

structure ChoicesCase where
  name : String
  elements : List ChoicesCaseElement
deriving DecidableEq, Repr

/-- Modelled from the spec: `choiceCasesResolvers` and its methods are not in the sources. The
resolver of one choice, its cases in the order they were added; a case's precedence is the least
of its elements' values, and the best case the case of least precedence. -/
structure ChoiceCasesResolver where
  cases : List ChoicesCase
deriving DecidableEq, Repr

/-- `choiceCasesResolvers`: choice name ↦ resolver. -/
abbrev ChoiceCasesResolvers := List (String × ChoiceCasesResolver)

namespace ChoiceCasesResolver

/-- `AddCase`: a case whose elements hold no priority yet. -/
def addCase (r : ChoiceCasesResolver) (caseName : String) (elements : List String) :
    ChoiceCasesResolver :=
  ⟨r.cases ++ [⟨caseName, elements.map fun e => ⟨e, Int32.maxInt32, Int32.maxInt32⟩⟩]⟩

/-- `SetValue`: the old or the new priority of the element. -/
def setValue (r : ChoiceCasesResolver) (elemName : String) (v : Int32) (new : Bool) :
    ChoiceCasesResolver :=
  ⟨r.cases.map fun c => { c with
    elements := c.elements.map fun e =>
      if e.name = elemName then (if new then { e with new := v } else { e with old := v }) else e }⟩

/-- `GetElementNames`: the elements of all cases. -/
def getElementNames (r : ChoiceCasesResolver) : List String :=
  r.cases.flatMap fun c => c.elements.map (·.name)

/-- The precedence of a case from the chosen value of each element. -/
def casePrecedence (value : ChoicesCaseElement → Int32) (c : ChoicesCase) : Int32 :=
  c.elements.foldl (fun best e => min best (value e)) Int32.maxInt32

/-- The first case of strictly least precedence, `""` when no case is below `math.MaxInt32`. -/
def bestCaseBy (value : ChoicesCaseElement → Int32) (r : ChoiceCasesResolver) : String :=
  (r.cases.foldl (fun (best : String × Int32) c =>
    if casePrecedence value c < best.2 then (c.name, casePrecedence value c) else best)
    ("", Int32.maxInt32)).1

/-- `getBestCaseName`: each element counts with the better of its old and new values. -/
def getBestCaseName (r : ChoiceCasesResolver) : String := r.bestCaseBy fun e => min e.old e.new

/-- `getOldBestCaseName`: each element counts with its old value only. -/
def getOldBestCaseName (r : ChoiceCasesResolver) : String := r.bestCaseBy (·.old)

/-- `GetSkipElements`: the elements of every case but the best one. -/
def getSkipElements (r : ChoiceCasesResolver) : List String :=
  (r.cases.filter fun c => c.name ≠ r.getBestCaseName).flatMap fun c => c.elements.map (·.name)

end ChoiceCasesResolver

/-- `choiceCasesResolvers.GetSkipElements`: the skip sets of all choices. -/
def ChoiceCasesResolvers.getSkipElements (rs : ChoiceCasesResolvers) : List String :=
  rs.flatMap fun r => r.2.getSkipElements

/-- The order in which Go's `range` over the protobuf map `choice.GetCase()` visits a choice's
cases, which Go draws anew at each `range`: for the path of the entry being created and the
choice, the schema's cases in visiting order. -/
structure CaseOrder where
  arrange : List String → String → List (String × List String) → List (String × List String)
  perm : ∀ path choiceName cases, (arrange path choiceName cases).Perm cases

/-- The cases in the order the schema lists them. -/
def CaseOrder.schema : CaseOrder := ⟨fun _ _ cases => cases, fun _ _ _ => List.Perm.refl _⟩

/-- `initChoiceCasesResolvers` of the entry at `path`: one resolver per choice of a container
schema, its cases added in the order `order` visits them; nothing for an entry without schema. -/
def initChoiceCasesResolvers (order : CaseOrder) (path : List String) (schema : Option SchemaElem) :
    ChoiceCasesResolvers :=
  match schema with
  | none => []
  | some _ =>
    ((SchemaElem.getContainer schema).map (·.choiceInfo) |>.getD []).map fun (choiceName, cases) =>
      (choiceName, (order.arrange path choiceName cases).foldl
        (fun r (caseName, elements) => r.addCase caseName elements) ⟨[]⟩)

end DataServer
