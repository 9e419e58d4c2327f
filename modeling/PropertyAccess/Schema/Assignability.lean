import PropertyAccess.Schema.Hierarchy

/-! Which values a type takes. Element types of lists, sets and maps play no
part, the component type of an array does. A nullable type takes what the type
inside takes, and the other way round; null itself is taken by every type that
is not primitive. -/

namespace PropertyAccess.Schema

/-- A value of type `source` may stand where `target` is declared. -/
def assignable (σ : Schema) : Ty → Ty → Bool
  | .any, _ | .param _, _ | .self, _ => true
  | .nullable target, source => σ.assignable target source
  | .object c, source =>
    match source.bare with
    | .object d => σ.descends d c
    | _ => false
  | .array target, source =>
    match source.bare with
    | .array e => σ.assignable target e
    | _ => false
  | .list s _, source =>
    match source.bare with
    | .list t _ => s.admits t
    | _ => false
  | .set s _, source =>
    match source.bare with
    | .set t _ => s.admits t
    | _ => false
  | .map s _ _, source =>
    match source.bare with
    | .map t _ _ => s.admits t
    | _ => false
  | .bool, source => source.bare == .bool
  | .char, source => source.bare == .char
  | .text, source => source.bare == .text
  | .number k, source => source.bare == .number k
  | .enum e, source => source.bare == .enum e

theorem assignable_nullable_right (σ : Schema) (target source : Ty) :
    σ.assignable target (.nullable source) = σ.assignable target source := by
  induction target <;> simp_all [assignable, Ty.bare]

/-- The value is an instance of the type. -/
def accepts (σ : Schema) : Ty → Value → Bool
  | t, .null => !t.isPrimitive
  | .any, _ | .param _, _ | .self, _ => true
  | .nullable t, v => σ.accepts t v
  | .bool, .bool _ => true
  | .char, .char _ => true
  | .text, .text _ => true
  | .number k, .number n => n.kind == k
  | .enum e, .enum f _ => e == f
  | .object c, .object o => σ.descends o.cls c
  | .array e, .array f _ => σ.assignable e f
  | .list s _, .list t _ => s.admits t
  | .set s _, .set t _ => s.admits t
  | .map s _ _, .map t _ => s.admits t
  | _, _ => false

end PropertyAccess.Schema
