import PropertyAccess.Number.Conversion
import PropertyAccess.Schema.Text

/-! A converter turns a value, mostly a text, into one of a required type. Text
goes one way and every other value another. A converter may build new objects
and containers, so it works on the heap. -/

namespace PropertyAccess

inductive ConvertFailure
  | invalid (message : String)
  | overflow (e : Overflow)
  deriving DecidableEq

def ConvertFailure.message : ConvertFailure → String
  | .invalid message => message
  | .overflow e => e.message

structure Converter where
  name : String
  fromText : Schema → String → Ty → Run ConvertFailure Value
  fromValue : Schema → Value → Ty → Run ConvertFailure Value

/-- A converter of text, which leaves every other value as it is. -/
def Converter.ofText (name : String) (convert : Schema → String → Ty → Run ConvertFailure Value) :
    Converter :=
  ⟨name, convert, fun _ v _ => return v⟩

/-- Reading a number, with the failure that a converter reports. -/
def readNumber (text : String) (k : NumberKind) : Except ConvertFailure Number :=
  match Number.parse text k with
  | .ok n => .ok n
  | .error .malformed => .error (.invalid ("cannot parse `" ++ text ++ "` as `" ++ k.name ++ "`"))
  | .error (.overflow e) => .error (.overflow e)

def narrowNumber (n : Number) (k : NumberKind) : Except ConvertFailure Number :=
  match n.convert k with
  | .ok m => .ok m
  | .error e => .error (.overflow e)

/-- The items of comma-separated text, trimmed; empty text has none. -/
def commaItems (text : String) : List String :=
  if text.isEmpty then []
  else (Text.splitAt ',' text.toList).map fun item => String.ofList (Text.trim item)

def newTextArray {ε : Type} (text : String) : Run ε Value :=
  Run.newArray .text ((commaItems text).map Value.text)

end PropertyAccess
