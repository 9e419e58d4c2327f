import PropertyAccess.Conversion.Converter
import PropertyAccess.Schema.Assignability

/-! The converters that are always there: for booleans, characters, numbers,
arrays of bytes, characters and texts, and for giving collections and maps
another shape. Where a primitive may be null, blank text means null. -/

namespace PropertyAccess.Converter

def builtinName (short : String) : String := "pw_bind::convert::builtin::" ++ short ++ "Converter"

/-- A text in which nothing but ASCII case may differ from one of these. -/
def oneOf (words : List String) (text : List Char) : Bool :=
  words.any fun w => Text.lowered text == w.toList

def truths : List String := ["true", "on", "yes", "1"]
def falsehoods : List String := ["false", "off", "no", "0"]

def boolOf (allowEmpty : Bool) (text : String) : Except ConvertFailure Value :=
  let input := Text.trim text.toList
  if allowEmpty && input.isEmpty then .ok .null
  else if oneOf truths input then .ok (.bool true)
  else if oneOf falsehoods input then .ok (.bool false)
  else .error (.invalid ("invalid boolean value `" ++ text ++ "`"))

def bool (allowEmpty : Bool) : Converter :=
  .ofText (builtinName "Bool") fun _ text _ => ExceptT.mk (pure (boolOf allowEmpty text))

/-- The character with a code point, if it is one of a character. -/
def charOfCode? (n : Nat) : Option Char :=
  if h : n.isValidChar then some (Char.ofNatAux n h) else none

/-- Four bytes behind an escape are its code. -/
def escapeCode? : List Char → Option (List Char)
  | '\\' :: 'u' :: code => if Text.utf8Length code = 4 then some code else none
  | _ => none

def charOf (allowEmpty : Bool) (text : String) : Except ConvertFailure Value :=
  let cs := text.toList
  if allowEmpty && cs.isEmpty then .ok .null
  else
    match escapeCode? cs with
    | some code =>
      match (Text.unsigned? 16 (Nat.pow 2 32) code).bind charOfCode? with
      | some c => .ok (.char c)
      | none => .error (.invalid ("invalid unicode escape `" ++ text ++ "`"))
    | none =>
      match cs with
      | [c] => .ok (.char c)
      | _ => .error (.invalid
          ("`" ++ text ++ "` is neither a single character nor a unicode escape"))

def char (allowEmpty : Bool) : Converter :=
  .ofText (builtinName "Char") fun _ text _ => ExceptT.mk (pure (charOf allowEmpty text))

def numberOf (k : NumberKind) (allowEmpty : Bool) (text : String) : Except ConvertFailure Value :=
  if allowEmpty && (Text.trim text.toList).isEmpty then .ok .null
  else (readNumber text k).map Value.number

def numberOfValue (k : NumberKind) : Value → Except ConvertFailure Value
  | .number n => (narrowNumber n k).map Value.number
  | v => .ok v

def number (k : NumberKind) (allowEmpty : Bool) : Converter :=
  ⟨builtinName "Number", fun _ text _ => ExceptT.mk (pure (numberOf k allowEmpty text)),
    fun _ v _ => ExceptT.mk (pure (numberOfValue k v))⟩

theorem holds_byte (b : UInt8) : IntKind.u8.Holds b.toNat := by
  have hb := b.toNat_lt
  have hg : IntKind.u8.greatest = 255 := rfl
  exact ⟨Int.natCast_nonneg _, by omega⟩

def byteValue (b : UInt8) : Value := .number (.int .u8 b.toNat (holds_byte b))

def bytes : Converter :=
  .ofText (builtinName "Bytes") fun _ text _ =>
    Run.newArray (.number (.int .u8)) (text.toUTF8.toList.map byteValue)

def chars : Converter :=
  .ofText (builtinName "Chars") fun _ text _ =>
    Run.newArray .char (text.toList.map Value.char)

def textArray : Converter :=
  .ofText (builtinName "StringArray") fun _ text _ => newTextArray text

/-- Keeps an instance of the required type, copies any other collection or
array, and makes any other value the only element. -/
def collectionOf (σ : Schema) (v : Value) (required : Ty) : Run ConvertFailure Value := do
  if v.isNull || σ.accepts required v then return v
  else
    let items ← Run.lookup fun h => (h.elements? v).getD [v]
    match required.unwrapped with
    | .list s _ => Run.newList s items
    | .set s _ => Run.newSet s items
    | _ => return v

def collection : Converter :=
  ⟨builtinName "Collection", fun σ text required => collectionOf σ (.text text) required,
    collectionOf⟩

def mapOf (σ : Schema) (v : Value) (required : Ty) : Run ConvertFailure Value := do
  if v.isNull || σ.accepts required v then return v
  else
    match v, required.unwrapped with
    | .map _ l, .map s _ _ => Run.newMap s (← Run.lookup (·.entries l))
    | v, _ =>
      throw (.invalid ("value of type `" ++ σ.typeName v ++ "` cannot be converted to a map"))

def map : Converter :=
  ⟨builtinName "Map",
    fun _ text _ => throw (.invalid ("text `" ++ text ++ "` cannot be converted to a map")),
    mapOf⟩

end PropertyAccess.Converter
