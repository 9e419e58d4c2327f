import PropertyAccess.Schema.Basic

/-! The chain of a class and its ancestors, nearest first. Each level knows what
stands for the type parameters of its class when seen from the start of the
chain: the arguments that the level before gives, with that level's own
parameters replaced. The start itself is seen with its parameters open. -/

namespace PropertyAccess

structure Level where
  cls : ClassId
  decl : ClassDecl
  bindings : List (String × Ty)

namespace Schema

def paramsIn (ds : List ClassDecl) (c : ClassId) : List String :=
  ((since ds c).map (·.1.params)).getD []

def levelsFrom : List ClassDecl → ClassId → List (String × Ty) → List Level
  | [], _, _ => []
  | d :: earlier, c, bindings =>
    if c = earlier.length then
      ⟨c, d, bindings⟩ ::
        match d.parent with
        | none => []
        | some (p, args) =>
          levelsFrom earlier p
            ((paramsIn earlier p).zip (args.map (·.substitute bindings none)))
    else levelsFrom earlier c bindings

def levels (σ : Schema) (c : ClassId) : List Level := levelsFrom σ.classes c []

theorem cls_lt_of_mem_levelsFrom {ds : List ClassDecl} {c : ClassId}
    {bindings : List (String × Ty)} {l : Level} (h : l ∈ levelsFrom ds c bindings) :
    l.cls < ds.length := by
  induction ds generalizing c bindings with
  | nil => simp [levelsFrom] at h
  | cons d earlier ih =>
    rw [levelsFrom] at h
    have up : ∀ n : Nat, n < earlier.length → n < (d :: earlier).length :=
      fun n hn => Nat.lt_succ_of_lt hn
    split at h
    · rename_i hc
      rcases List.mem_cons.1 h with rfl | h
      · rw [hc]
        exact Nat.lt_succ_self _
      · split at h
        · simp at h
        · exact up _ (ih h)
    · exact up _ (ih h)

/-- The class is `ancestor` or one of its descendants. -/
def descends (σ : Schema) (c ancestor : ClassId) : Bool :=
  c == ancestor || (σ.levels c).any (·.cls == ancestor)

@[simp] theorem descends_self (σ : Schema) (c : ClassId) : σ.descends c c = true := by
  simp [descends]

def parent? (σ : Schema) (c : ClassId) : Option ClassId :=
  ((σ.class? c).bind (·.parent)).map (·.1)

/-- A field in the layout of a class: the class that declares it, the
declaration, and its type with the parameters of ancestors replaced. -/
structure Slot where
  owner : ClassId
  field : Field
  type : Ty
  deriving DecidableEq

def Slot.name (s : Slot) : String := s.field.name

def slotsOf (l : Level) : List Slot :=
  l.decl.fields.map fun f => ⟨l.cls, f, f.type.substitute l.bindings none⟩

/-- The layout of the instances of a class, inherited fields first. -/
def layout (σ : Schema) (c : ClassId) : List Slot := (σ.levels c).reverse.flatMap slotsOf

/-- The slot that a field name means: a later declaration hides an earlier one. -/
def fieldIndex? (σ : Schema) (c : ClassId) (name : String) : Option Nat :=
  ((σ.layout c).reverse.findIdx? (·.name = name)).map fun i => (σ.layout c).length - 1 - i

end Schema

end PropertyAccess
