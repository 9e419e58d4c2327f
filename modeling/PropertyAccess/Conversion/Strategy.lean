import PropertyAccess.Conversion.Defaults
import PropertyAccess.Conversion.Service
import PropertyAccess.Schema.Instance

/-! Converting a raw value to a required type. These are tried in turn: a
registered converter; the conversion service, whose failure is kept for later;
the default converter; then fixed rules, which convert the contents of
containers one by one, take the only element of an array, write primitives as
text, and read text as an instance of a class, a constant or nothing. A value
that is an instance already is left alone, unless a registered converter
applies. The failure of the service comes out at the end only if nothing else
made an instance.

The contents are converted like any value, to the element and key types. The
required type gets smaller on the way in, which is what makes this end. -/

namespace PropertyAccess

inductive ConversionReason
  | noStrategy
  | inappropriate (converter produced : String)
  | converterFailed (converter message : String)
  | serviceFailed (message : String)
  deriving DecidableEq

structure ConversionError where
  value : Value
  required : Ty
  path : Option String
  reason : ConversionReason
  deriving DecidableEq

inductive ConvertError
  | conversion (e : ConversionError)
  | overflow (e : Overflow)
  /-- No failure that anyone is told: a container that holds itself was to be written
  as text, and the program does not come back. -/
  | endless
  deriving DecidableEq

structure Strategies where
  registered : Registrations
  defaults : DefaultTable
  service : Option ConversionService

/-- A conversion to one type: of a value, for the property at a path if there is one. -/
abbrev Conversion := Option String → Value → Run ConvertError Value

structure ContentConversions where
  element : Conversion
  key : Conversion

def ContentConversions.none : ContentConversions := ⟨fun _ v => return v, fun _ v => return v⟩

/-- The text of a value, where it is needed. -/
def written (σ : Schema) (v : Value) : Run ConvertError String :=
  Run.inspect fun h => ((σ.valueText? h v).map Except.ok).getD (.error .endless)

def keyedPath (path : Option String) (key : String) : Option String :=
  path.map fun p => p ++ "[" ++ key ++ "]"

def convertItems (element : Conversion) (path : Option String) :
    Nat → List Value → Run ConvertError (List Value)
  | _, [] => return []
  | index, v :: vs => do
    let w ← element (keyedPath path (toString index)) v
    let ws ← convertItems element path (index + 1) vs
    return w :: ws

/-- The path of an entry. Its key is written only where there is a path to put it into. -/
def pathOfEntry (σ : Schema) (path : Option String) (key : Value) :
    Run ConvertError (Option String) :=
  match path with
  | none => return none
  | some p => return keyedPath p (← written σ key)

/-- Converts entries in order, the key of each before its value. -/
def convertEntries (σ : Schema) (contents : ContentConversions) (path : Option String) :
    List (Value × Value) → Run ConvertError (List (Value × Value))
  | [] => return []
  | (key, value) :: es => do
    let here ← pathOfEntry σ path key
    let newKey ← contents.key here key
    let newValue ← contents.element here value
    let rest ← convertEntries σ contents path es
    return (newKey, newValue) :: rest

def sameItems : List Value → List Value → Bool
  | v :: vs, w :: ws => w.same v && sameItems vs ws
  | _, _ => true

def sameEntries : List (Value × Value) → List (Value × Value) → Bool
  | (k, v) :: es, (l, w) :: fs => l.same k && w.same v && sameEntries es fs
  | _, _ => true

namespace Strategies

variable (σ : Schema) (S : Strategies)

def custom? (required : Ty) (path : Option String) : Option Converter :=
  S.registered.find? σ required path

inductive Served
  | converted (v : Value)
  | failed (e : ConversionError)
  | unable

/-- Asks the service, which never sees null. -/
def serve (required : Ty) (path : Option String) (v : Value) : Run ConvertError Served :=
  match S.service with
  | none => return .unable
  | some service =>
    if v.isNull || !service.canConvert σ v.runtimeType required then return .unable
    else do
      match ← Run.outcome (service.convert σ v v.runtimeType required) with
      | .ok w => return .converted w
      | .error e => return .failed ⟨v, required, path, .serviceFailed e.message⟩

/-- A value that is not text goes through the converter first. A result other
than the value itself is what counts from there on, and without the converter. -/
def throughValue (converter : Option Converter) (current : Value) (required : Ty) :
    Run ConvertError (Option Converter × Value) :=
  match converter with
  | none => return (none, current)
  | some c =>
    if current.isText then return (some c, current)
    else do
      match ← Run.outcome (c.fromValue σ current required) with
      | .ok w => return if w.same current then (some c, current) else (none, w)
      | .error _ => return (some c, current)

/-- The text that a value is to a converter of text: an array of texts is
joined by commas, unless an array is required. -/
def textOf? (h : Heap) (current : Value) (required : Ty) :
    Except ConvertError (Option String) :=
  match current with
  | .text s => .ok (some s)
  | .array .text l =>
    if required.isArray then .ok none
    else
      (((h.items l).mapM (σ.valueText? h)).map fun texts =>
        Except.ok (some (",".intercalate texts))).getD (.error .endless)
  | _ => .ok none

def failureOf (given : Value) (required : Ty) (path : Option String) (c : Converter) :
    ConvertFailure → ConvertError
  | .overflow e => .overflow e
  | .invalid message => .conversion ⟨given, required, path, .converterFailed c.name message⟩

def throughText (given : Value) (converter : Option Converter) (current : Value)
    (required : Ty) (path : Option String) : Run ConvertError Value := do
  match ← Run.inspect fun h => textOf? σ h current required with
  | none => return current
  | some text =>
    match converter with
    | some c =>
      Run.mapError (failureOf given required path c) (c.fromText σ text required)
    | none => return if required = .text then .text text else current

/-- The registered converter or, where none applies, the default one. -/
def chosen? (required : Ty) (path : Option String) : Option Converter :=
  match S.custom? σ required path with
  | some c => some c
  | none => S.defaults.find? σ required

/-- Comma-separated text as an array of texts where constants are `wanted`. -/
def splitIf (wanted : Bool) (v : Value) : Run ConvertError Value :=
  match v with
  | .text s => if wanted then newTextArray s else return v
  | v => return v

/-- Applies the registered converter or, to a value that is no instance yet,
the default one. The converter that was chosen is named in later failures. -/
def applied (required : Ty) (path : Option String) (v : Value) :
    Run ConvertError (Option Converter × Value) :=
  if (S.custom? σ required path).isNone && σ.accepts required v then return (none, v)
  else do
    let given ← splitIf (required.isCollection && (required.element?.map Ty.isEnum).getD false) v
    let (active, current) ← throughValue σ (S.chosen? σ required path) given required
    let result ← throughText σ v active current required path
    return (S.chosen? σ required path, result)

def newConverted (elem : Ty) (contents : ContentConversions) (path : Option String)
    (items : List Value) : Run ConvertError Value := do
  Run.newArray elem (← convertItems contents.element path 0 items)

def toArray (elem : Ty) (contents : ContentConversions) (path : Option String) (v : Value) :
    Run ConvertError Value :=
  match v with
  | .array e l =>
    if e = elem && !S.registered.hasElementConverter σ (some elem) path then return v
    else do newConverted elem contents path (← Run.lookup (·.items l))
  | .list _ l | .set _ l => do newConverted elem contents path (← Run.lookup (·.items l))
  | v => newConverted elem contents path [v]

/-- The collection of the required shape; an open shape keeps that of a list
where a list is required, and of a set where a set is. -/
def newCollection (required : Ty) (given : Value) (items : List Value) :
    Run ConvertError Value :=
  match required.unwrapped, given with
  | .list .any _, .list s _ => Run.newList s items
  | .set .any _, .set s _ => Run.newSet s items
  | .set s _, _ => Run.newSet s items
  | .list s _, _ => Run.newList s items
  | _, _ => Run.newList .vector items

/-- A list or set with converted elements. It stays the same one if it is an
instance of the required type and all its elements stay the same. -/
def toCollection (required : Ty) (contents : ContentConversions) (path : Option String)
    (given : Value) : Run ConvertError Value := do
  match required.element? with
  | none => return given
  | some elem =>
    let allowed := σ.accepts required given
    if !required.isCollection ||
        (elem.isUnknown && allowed && !S.registered.hasElementConverter σ none path) then
      return given
    else
      let items ← Run.lookup fun h => (h.elements? given).getD []
      let converted ← convertItems contents.element path 0 items
      if allowed && sameItems items converted then return given
      else newCollection required given converted

def toMap (required : Ty) (contents : ContentConversions) (path : Option String)
    (given : Value) : Run ConvertError Value := do
  match required.unwrapped, given with
  | .map shape key value, .map s l =>
    let allowed := σ.accepts required given
    if key.isUnknown && value.isUnknown && allowed &&
        !S.registered.hasElementConverter σ none path then
      return given
    else
      let entries ← Run.lookup (·.entries l)
      let converted ← convertEntries σ contents path entries
      if allowed && sameEntries entries converted then return given
      else Run.newMap (if shape = .any then s else shape) converted
  | _, _ => return given

/-- What the fixed rules came to: a result, or a value still to be checked
against the required type, with the mark whether a rule had to do with it. -/
inductive Ruled
  | done (v : Value)
  | open (v : Value) (standard : Bool)

/-- The constant that a text names, with or without the enumeration before it. -/
def constantOf? (e : EnumId) (text : String) : Option Nat :=
  (σ.enum? e).bind fun info =>
    match info.qualified? text with
    | some i => some i
    | none => info.indexOf? text

/-- Makes an instance from a text, which a failure of the service rules out. -/
def construct? (required : Ty) (text : String) (deferred : Bool) :
    Run ConvertError (Option Value) :=
  match required with
  | .object c =>
    if deferred || σ.isAbstract c then return none
    else
      match σ.fromText? c text with
      | none => return none
      | some make => do
        match ← Run.outcome make with
        | .ok v => return some v
        | .error _ => return none
  | _ => return none

def ruleText (required : Ty) (text : String) (deferred : Bool) : Run ConvertError Ruled := do
  match ← construct? σ required text deferred with
  | some v => return .done v
  | none =>
    match required.unwrapped with
    | .enum e =>
      let trimmed := Text.trimmed text
      if trimmed.isEmpty then return .done .null
      else
        match constantOf? σ e trimmed with
        | some i => return .open (.enum e i) true
        | none => return .open (.text text) true
    | _ => return .open (.text text) true

def ruleScalar (required : Ty) (deferred : Bool) (v : Value) (standard : Bool) :
    Run ConvertError Ruled := do
  if required = .text && v.isPrimitive then
    return .done (.text (← written σ v))
  else
    match v with
    | .text s =>
      if σ.accepts required v then return .open v standard
      else ruleText σ required s deferred
    | .number n =>
      match required.unwrapped with
      | .number k =>
        match n.convert k with
        | .ok m => return .open (.number m) true
        | .error e => throw (.overflow e)
      | _ => return .open v standard
    | v => return .open v standard

/-- The contents of containers, and the only element of an array in its place. -/
def ruleContainer (required : Ty) (contents : ContentConversions) (path : Option String)
    (v : Value) : Run ConvertError (Value × Bool) := do
  match v with
  | .list _ _ | .set _ _ => return (← S.toCollection σ required contents path v, true)
  | .map _ _ => return (← S.toMap σ required contents path v, true)
  | v => return (v, false)

def soleElement (v : Value) (standard : Bool) : Run ConvertError (Value × Bool) := do
  match v with
  | .array _ l =>
    match ← Run.lookup (·.items l) with
    | [x] => return (x, true)
    | _ => return (v, standard)
  | v => return (v, standard)

def rules (required : Ty) (contents : ContentConversions) (path : Option String)
    (deferred : Bool) (v : Value) : Run ConvertError Ruled := do
  if v.isNull then return .open v false
  else if required.isUnknown then return .done v
  else
    match required.unwrapped with
    | .array elem =>
      let given ← splitIf elem.isEnum v
      return .done (← S.toArray σ elem contents path given)
    | _ =>
      let (v, standard) ← S.ruleContainer σ required contents path v
      let (v, standard) ← soleElement v standard
      ruleScalar σ required deferred v standard

/-- The last check. What is no instance is given to the service once more. -/
def checked (required : Ty) (path : Option String) (given : Value)
    (converter : Option Converter) (deferred : Option ConversionError) (v : Value)
    (standard : Bool) : Run ConvertError Value := do
  if σ.accepts required v then
    match deferred with
    | some e =>
      if converter.isNone && !standard && !required.isUnknown then throw (.conversion e)
      else return v
    | none => return v
  else
    match deferred with
    | some e => throw (.conversion e)
    | none =>
      match ← S.serve σ required path given with
      | .converted w => return w
      | .failed e => throw (.conversion e)
      | .unable =>
        let reason := match converter with
          | some c => .inappropriate c.name (σ.typeName v)
          | none => .noStrategy
        throw (.conversion ⟨given, required, path, reason⟩)

def withoutService (required : Ty) (contents : ContentConversions) (path : Option String)
    (v : Value) (deferred : Option ConversionError) : Run ConvertError Value := do
  let (converter, current) ← S.applied σ required path v
  match ← S.rules σ required contents path deferred.isSome current with
  | .done w => return w
  | .open w standard => S.checked σ required path v converter deferred w standard

/-- The service is asked where no registered converter applies. -/
def ask (required : Ty) (path : Option String) (v : Value) : Run ConvertError Served :=
  if (S.custom? σ required path).isSome then return .unable else S.serve σ required path v

/-- One conversion, given those of the contents. -/
def step (required : Ty) (contents : ContentConversions) : Conversion := fun path v => do
  match ← S.ask σ required path v with
  | .converted w => return w
  | .failed e => S.withoutService σ required contents path v (some e)
  | .unable => S.withoutService σ required contents path v none

def contents : Ty → ContentConversions
  | .array e | .list _ e | .set _ e => ⟨S.step σ e (contents e), S.step σ e (contents e)⟩
  | .map _ k e => ⟨S.step σ e (contents e), S.step σ k (contents k)⟩
  | .nullable t => contents t
  | _ => .none

def convert (required : Ty) : Conversion := S.step σ required (S.contents σ required)

end Strategies

end PropertyAccess
