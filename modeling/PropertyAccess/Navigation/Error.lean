import PropertyAccess.Conversion.Strategy

/-! What can go wrong on the way along a path, and how it is put into words. An
error keeps the value it is about, so its words depend on the graph at the time
of writing them, and where that value has no text there are none. -/

namespace PropertyAccess

def ConversionReason.message : ConversionReason → String
  | .noStrategy => ": no matching converter or conversion strategy found"
  | .inappropriate converter produced =>
    ": converter `" ++ converter ++ "` returned inappropriate value of type `" ++ produced ++ "`"
  | .converterFailed converter message =>
    ": converter `" ++ converter ++ "` failed: " ++ message
  | .serviceFailed message => ": conversion service failed: " ++ message

def ConversionError.message (σ : Schema) (h : Heap) (e : ConversionError) : Option String :=
  let place := match e.path with
    | some p => " for property `" ++ p ++ "`"
    | none => ""
  (σ.valueText? h e.value).map fun text =>
    "Cannot convert value `" ++ text ++ "` of type `" ++ σ.typeName e.value ++
      "` to required type `" ++ σ.typeText e.required ++ "`" ++ place ++ e.reason.message

def ConvertError.message (σ : Schema) (h : Heap) : ConvertError → Option String
  | .conversion e => e.message σ h
  | .overflow e => some e.message
  | .endless => none

inductive ErrorKind
  | malformedPath | nullIntermediate | invalidIndex | invalidTargetType | notReadable
  | notWritable | access | typeClash | conversion | numericOverflow | uninstantiable | batch
  /-- What stands for a kind where the program does not come back. -/
  | endless
  deriving DecidableEq

def ErrorKind.name : ErrorKind → String
  | .malformedPath => "MalformedPath"
  | .nullIntermediate => "NullIntermediate"
  | .invalidIndex => "InvalidIndex"
  | .invalidTargetType => "InvalidTargetType"
  | .notReadable => "NotReadable"
  | .notWritable => "NotWritable"
  | .access => "Access"
  | .typeClash => "TypeClash"
  | .conversion => "Conversion"
  | .numericOverflow => "NumericOverflow"
  | .uninstantiable => "Uninstantiable"
  | .batch => "Batch"
  | .endless => "Endless"

/-- A failure at one path. The root is named by the path of its class. -/
inductive PathError
  | malformedPath (e : MalformedPath)
  | nullIntermediate (root path : String)
  | invalidIndex (root path reason : String)
  | invalidTargetType (root path found : String)
  | notReadable (root path : String)
  | notWritable (root path reason : String)
  | access (root path message : String)
  | typeClash (path : String) (required : Ty) (found : String)
  | conversion (e : ConversionError)
  | numericOverflow (e : Overflow)
  | uninstantiable (path : String) (type : Ty) (fault : InstanceFault)
  /-- The program does not come back from a conversion on the way. -/
  | endless
  deriving DecidableEq

namespace PathError

def kind : PathError → ErrorKind
  | .malformedPath _ => .malformedPath
  | .nullIntermediate _ _ => .nullIntermediate
  | .invalidIndex _ _ _ => .invalidIndex
  | .invalidTargetType _ _ _ => .invalidTargetType
  | .notReadable _ _ => .notReadable
  | .notWritable _ _ _ => .notWritable
  | .access _ _ _ => .access
  | .typeClash _ _ _ => .typeClash
  | .conversion _ => .conversion
  | .numericOverflow _ => .numericOverflow
  | .uninstantiable _ _ _ => .uninstantiable
  | .endless => .endless

def ofConvert : ConvertError → PathError
  | .conversion e => .conversion e
  | .overflow e => .numericOverflow e
  | .endless => .endless

/-- A failure that a batch collects while it goes on. -/
def isCollected (e : PathError) : Bool :=
  match e.kind with
  | .access | .typeClash | .conversion | .numericOverflow => true
  | _ => false

def message (σ : Schema) (h : Heap) : PathError → Option String
  | .malformedPath e => e.message
  | .nullIntermediate root path =>
    some ("Value of nested property `" ++ path ++ "` is null on bean `" ++ root ++ "`")
  | .invalidIndex root path reason =>
    some ("Invalid index or key in property path `" ++ path ++ "` of bean `" ++ root ++ "`: " ++
      reason)
  | .invalidTargetType root path found =>
    some ("Property referenced in indexed path `" ++ path ++ "` of bean `" ++ root ++
      "` is neither an array nor a list, set or map; found `" ++ found ++ "`")
  | .notReadable root path =>
    some ("Property `" ++ path ++ "` of bean `" ++ root ++ "` is not readable")
  | .notWritable root path reason =>
    some ("Property `" ++ path ++ "` of bean `" ++ root ++ "` is not writable: " ++ reason)
  | .access root path message =>
    some ("Failed to access property `" ++ path ++ "` of bean `" ++ root ++ "`: " ++ message)
  | .typeClash path required found =>
    some ("Property `" ++ path ++ "` requires `" ++ σ.typeText required ++ "` but was given `" ++
      found ++ "`")
  | .conversion e => e.message σ h
  | .numericOverflow e => e.message
  | .uninstantiable path type fault =>
    some ("Could not instantiate `" ++ σ.typeText type ++ "` to auto-grow property path `" ++
      path ++ "`: " ++ fault.message)
  | .endless => none

/-- For a write, what cannot be read on the way makes the whole path not writable. -/
def whileWriting (root path : String) : PathError → PathError
  | .notReadable _ inner =>
    .notWritable root path ("nested property `" ++ inner ++ "` does not exist")
  | e => e

end PathError

/-- How a batch ends without success: at a failure that stops it, or with all
those that it collected, by the paths as given. -/
inductive BatchError
  | stopped (e : PathError)
  | collected (failures : List (String × PathError))
  deriving DecidableEq

namespace BatchError

def message (σ : Schema) (h : Heap) : BatchError → Option String
  | .stopped e => e.message σ h
  | .collected failures =>
    failures.foldlM (fun text f => do return text ++ "; `" ++ f.1 ++ "`: " ++ (← f.2.message σ h))
      ("Failed properties: " ++ toString failures.length ++ " failure(s)")

def kind : BatchError → ErrorKind
  | .stopped e => e.kind
  | .collected _ => .batch

def failureFor? (path : String) : BatchError → Option PathError
  | .stopped _ => none
  | .collected failures => failures.lookup path

end BatchError

end PropertyAccess
