import PropertyAccess.Conversion.Builtin
import PropertyAccess.Conversion.Registrations

/-! The table of default converters, looked at after all registrations: first
converters that override, then the builtin ones, both by erased type, and for a
class or an enumeration at last the converter that has its path with the ending
`Converter` as name. -/

namespace PropertyAccess

abbrev Conventions := List (String × Converter)

structure DefaultTable where
  builtins : List (Ty × Converter)
  overrides : List (Ty × Converter)
  conventions : Conventions

namespace DefaultTable

def empty : DefaultTable := ⟨[], [], []⟩

def primitives : List (Ty × Converter) :=
  [(.bool, .bool false), (.nullable .bool, .bool true),
    (.char, .char false), (.nullable .char, .char true)] ++
  NumberKind.all.flatMap fun k =>
    [(.number k, .number k false), (.nullable (.number k), .number k true)]

def containers : List (Ty × Converter) :=
  [(.array (.number (.int .u8)), .bytes), (.array .char, .chars)] ++
  ListShape.all.map (fun s => (.list s .any, .collection)) ++
  TableShape.all.map (fun s => (.set s .any, .collection)) ++
  TableShape.all.map (fun s => (.map s .any .any, .map))

def standard : DefaultTable := ⟨primitives ++ containers, [], []⟩

/-- Adds comma-separated text for arrays of texts and of the signed integers but the least. -/
def withTextArrays (t : DefaultTable) : DefaultTable :=
  { t with
    builtins := [Ty.text, .number (.int .i16), .number (.int .i32), .number (.int .i64)].foldl
      (fun table elem => upsert (.array elem) .textArray table) t.builtins }

def withOverride (t : DefaultTable) (type : Ty) (c : Converter) : DefaultTable :=
  { t with overrides := upsert type.erased c t.overrides }

def withConvention (t : DefaultTable) (name : String) (c : Converter) : DefaultTable :=
  { t with conventions := upsert name c t.conventions }

def withConventions (t : DefaultTable) (cs : Conventions) : DefaultTable :=
  cs.foldl (fun t c => t.withConvention c.1 c.2) t

def find? (σ : Schema) (t : DefaultTable) (required : Ty) : Option Converter :=
  match t.overrides.lookup required.erased with
  | some c => some c
  | none =>
    match t.builtins.lookup required.erased with
    | some c => some c
    | none =>
      match required.unwrapped with
      | .object c => t.conventions.lookup (σ.classPath c ++ "Converter")
      | .enum e => t.conventions.lookup (σ.enumPath e ++ "Converter")
      | _ => none

end DefaultTable

end PropertyAccess
