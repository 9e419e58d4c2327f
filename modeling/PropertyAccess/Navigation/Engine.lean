import PropertyAccess.Navigation.Batch

/-! What accessors start from. An engine has a table of default converters, a
conversion service and a configuration, and makes accessors that share them; a
later change of the engine reaches only accessors made after it. A standalone
converter does the same for conversions outside of any graph. -/

namespace PropertyAccess

structure Engine where
  defaults : DefaultTable
  service : Option ConversionService
  config : AccessConfig

structure StandaloneConverter where
  strategies : Strategies

namespace StandaloneConverter

def withDefaults (defaults : DefaultTable) : StandaloneConverter :=
  ⟨⟨.empty, defaults, none⟩⟩

def new : StandaloneConverter := withDefaults .standard

def register (c : StandaloneConverter) (type : Option Ty) (path : Option String)
    (converter : Converter) : Except RegistrationFault StandaloneConverter :=
  (c.strategies.registered.register type path converter).map fun registered =>
    ⟨{ c.strategies with registered }⟩

def convert (σ : Schema) (c : StandaloneConverter) (path : Option String) (v : Value)
    (required : Ty) : Run PathError Value :=
  Run.mapError PathError.ofConvert (c.strategies.convert σ required path v)

end StandaloneConverter

namespace Engine

def withConfig (conventions : Conventions) (config : AccessConfig) : Engine :=
  ⟨DefaultTable.standard.withConventions conventions, none, config⟩

def new (conventions : Conventions) : Engine := withConfig conventions .standard

def accessor (e : Engine) (root : ObjectRef) : Accessor :=
  .rooted ⟨.empty, e.defaults, e.service⟩ e.config root

def standalone (e : Engine) : StandaloneConverter :=
  ⟨⟨.empty, e.defaults, e.service⟩⟩

end Engine

/-! One operation on a graph without keeping an accessor. -/

namespace Once

/-- Runs on a new accessor, which is given up afterwards. -/
def run {α : Type} (conventions : Conventions) (root : ObjectRef) (w : Walk α) :
    Run PathError α := fun h =>
  let ((result, _), h') := Accessor.on w (.new conventions .standard root) h
  (result, h')

def resolve (σ : Schema) (conventions : Conventions) (root : ObjectRef) (path : String) :
    Run PathError Value := run conventions root (Accessor.resolve σ path)

def apply (σ : Schema) (conventions : Conventions) (root : ObjectRef) (path : String)
    (raw : Value) : Run PathError Unit := run conventions root (Accessor.apply σ path raw)

def applyBatch (σ : Schema) (conventions : Conventions) (root : ObjectRef)
    (o : BatchOptions) (b : Batch) : Run PathError (Option BatchError) :=
  run conventions root (Accessor.applyBatch σ o b)

end Once

end PropertyAccess
