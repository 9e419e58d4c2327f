import PropertyAccess.Conversion.Registrations

/-! A conversion service is asked before the default converters, whenever no
registered converter applies. It first says whether it can convert from one type
to another. One kind of service is a table of functions by erased source and
target: the function of the exact pair serves, or else the one of the earliest
pair whose source takes the actual source. -/

namespace PropertyAccess

structure ConversionService where
  canConvert : Schema → Ty → Ty → Bool
  convert : Schema → Value → Ty → Ty → Run ConvertFailure Value

abbrev ConvertFn := Schema → Value → Ty → Run ConvertFailure Value

structure ConversionPair where
  source : Ty
  target : Ty
  deriving DecidableEq

def ConversionPair.erased (source target : Ty) : ConversionPair := ⟨source.erased, target.erased⟩

/-- Functions by pair, and the pairs that have one in the order in which they came up. -/
structure ConversionTable where
  functions : List (ConversionPair × ConvertFn)
  order : List ConversionPair

namespace ConversionTable

def empty : ConversionTable := ⟨[], []⟩

/-- A pair keeps its place when its function is replaced. -/
def add (t : ConversionTable) (source target : Ty) (f : ConvertFn) : ConversionTable :=
  let pair := .erased source target
  ⟨upsert pair f t.functions,
    if (t.functions.lookup pair).isNone then t.order ++ [pair] else t.order⟩

def find? (σ : Schema) (t : ConversionTable) (source target : Ty) : Option ConvertFn :=
  match t.functions.lookup (.erased source target) with
  | some f => some f
  | none =>
    (t.order.find? fun p => p.target = target.erased && σ.assignable p.source source).bind
      fun p => t.functions.lookup p

def service (t : ConversionTable) : ConversionService where
  canConvert σ source target := (t.find? σ source target).isSome
  convert σ v source target :=
    match t.find? σ source target with
    | some f => f σ v target
    | none => throw (.invalid
        ("no conversion from `" ++ σ.typeText source ++ "` to `" ++ σ.typeText target ++ "`"))

theorem canConvert_service (σ : Schema) (t : ConversionTable) (source target : Ty) :
    (service t).canConvert σ source target = (find? σ t source target).isSome := rfl

end ConversionTable

end PropertyAccess
