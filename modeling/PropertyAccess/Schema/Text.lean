import PropertyAccess.Schema.Basic

/-! How types and values are written in messages and when they become text. A
container is written with its contents, an object only with the path of its
class and a mark where its identity would stand. Writing a container that holds
itself, at whatever depth, has no end: it has no text. -/

namespace PropertyAccess.Schema

def typeText (σ : Schema) : Ty → String
  | .any => "any"
  | .bool => "bool"
  | .char => "char"
  | .text => "String"
  | .number k => k.name
  | .nullable t => "Option<" ++ σ.typeText t ++ ">"
  | .enum e => σ.enumPath e
  | .object c => σ.classPath c
  | .array e => "[" ++ σ.typeText e ++ "]"
  | .list s e => s.name ++ "<" ++ σ.typeText e ++ ">"
  | .set s e => s.setName ++ "<" ++ σ.typeText e ++ ">"
  | .map s k v => s.mapName ++ "<" ++ σ.typeText k ++ ", " ++ σ.typeText v ++ ">"
  | .param name => name
  | .self => "Self"

def typeName (σ : Schema) : Value → String
  | .null => "null"
  | .bool _ => "bool"
  | .char _ => "char"
  | .number n => n.kind.name
  | .text _ => "String"
  | .enum e _ => σ.enumPath e
  | .object o => σ.classPath o.cls
  | .array e _ => "[" ++ σ.typeText e ++ "]"
  | .list s _ => s.name
  | .set s _ => s.setName
  | .map s _ => s.mapName

def constantName (σ : Schema) (e : EnumId) (index : Nat) : String :=
  ((σ.constants e)[index]?).getD ""

def entryText (inner : Value → Option String) (e : Value × Value) : Option String := do
  return (← inner e.1) ++ "=" ++ (← inner e.2)

/-- The text of a value, given those of the values that it holds. -/
def textWith (σ : Schema) (h : Heap) (inner : Value → Option String) : Value → Option String
  | .null => some "null"
  | .bool b => some (if b then "true" else "false")
  | .char c => some (String.singleton c)
  | .number n => some n.toText
  | .text s => some s
  | .enum e i => some (σ.constantName e i)
  | .object o => some (σ.classPath o.cls ++ "@PTR")
  | .array _ l | .list _ l | .set _ l =>
    ((h.items l).mapM inner).map fun texts => "[" ++ ", ".intercalate texts ++ "]"
  | .map _ l =>
    ((h.entries l).mapM (entryText inner)).map fun texts =>
      "\x7b" ++ ", ".intercalate texts ++ "\x7d"

/-- Where the container is that a value refers to. -/
def containerOf? : Value → Option Loc
  | .array _ l | .list _ l | .set _ l | .map _ l => some l
  | _ => none

/-- The text down to a depth, and none if containers nest deeper. -/
def textWithin (σ : Schema) (h : Heap) : Nat → Value → Option String
  | 0, _ => none
  | depth + 1, v => σ.textWith h (σ.textWithin h depth) v

/-- Containers nest no deeper than there are locations, unless one holds itself. -/
def valueText? (σ : Schema) (h : Heap) (v : Value) : Option String :=
  σ.textWithin h (h.size + 1) v

end PropertyAccess.Schema
