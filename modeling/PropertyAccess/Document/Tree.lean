import PropertyAccess.Navigation.Batch

/-! Documents as trees of data, and what they are as raw values. An integer of
any kind is a signed one of 64 bits if it fits, else an unsigned one. Sequences
are lists, mappings keep the order of their entries. Byte strings, integers wider
than 64 bits and wrapped values have no raw value. -/

namespace PropertyAccess

inductive Document
  | absent
  | unit
  | bool (b : Bool)
  | number (n : Number)
  /-- An integer given in 128 bits. -/
  | wide (z : Int)
  | char (c : Char)
  | text (s : String)
  | bytes
  /-- A value inside a named wrapper. -/
  | wrapped
  /-- An optional value that is there. -/
  | present (d : Document)
  | sequence (items : List Document)
  | mapping (entries : List (Document × Document))

/-- Of the integers only large ones are not signed ones of 64 bits. -/
theorem IntKind.holds_u64 {k : IntKind} {z : Int} (inRange : k.Holds z)
    (large : ¬ i64.Holds z) : u64.Holds z := by
  cases k <;> simp [Holds, least, greatest, span, isSigned, width] at * <;> omega

def Number.widened : Number → Number
  | .int _ z inRange =>
    if fits : IntKind.i64.Holds z then .int .i64 z fits else .int .u64 z (IntKind.holds_u64 inRange fits)
  | .float k x => .float .f64 (Number.float k x).toDouble

namespace Document

def refusal (unexpected : String) : String :=
  "invalid type: " ++ unexpected ++ ", expected any raw property value"

mutual

def toValue : Document → Run String Value
  | .absent | .unit => return .null
  | .bool b => return .bool b
  | .number n => return .number n.widened
  | .wide z => throw (refusal ("integer `" ++ toString z ++ "` as i128"))
  | .char c => return .char c
  | .text s => return .text s
  | .bytes => throw (refusal "byte array")
  | .wrapped => throw (refusal "newtype struct")
  | .present d => d.toValue
  | .sequence items => do Run.newList .vector (← toValues items)
  | .mapping entries => do Run.newMap .linked (← toEntries entries)

def toValues : List Document → Run String (List Value)
  | [] => return []
  | d :: ds => do
    let v ← d.toValue
    let vs ← toValues ds
    return v :: vs

def toEntries : List (Document × Document) → Run String (List (Value × Value))
  | [] => return []
  | e :: es => do
    let entry ← toEntry e
    let rest ← toEntries es
    return entry :: rest

def toEntry : Document × Document → Run String (Value × Value)
  | (key, value) => do
    let k ← key.toValue
    let v ← value.toValue
    return (k, v)

end

def toBatch : List (Document × Document) → Run String Batch
  | [] => return []
  | (.text path, value) :: rest => do
    let v ← value.toValue
    let vs ← toBatch rest
    return ⟨path, v, false⟩ :: vs
  | _ => throw (refusal "key")

/-- A document whose top is a mapping from paths to values. -/
def batch? : Document → Run String Batch
  | .mapping entries => do return Batch.ofList (← toBatch entries)
  | _ => throw "invalid type: expected a map of property paths to raw values"

end Document

end PropertyAccess
