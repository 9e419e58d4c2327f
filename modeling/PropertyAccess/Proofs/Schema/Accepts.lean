import PropertyAccess.Schema.Assignability

/-! Types that take what is sure to be theirs: every type takes its own values, what is
unknown takes all, and null is taken wherever the type is not primitive. -/

namespace PropertyAccess.Schema

variable (σ : Schema) {t : Ty} {v : Value}

theorem assignable_self (t : Ty) : σ.assignable t t = true := by
  induction t with
  | nullable t ih => rw [assignable, assignable_nullable_right, ih]
  | array e ih => simpa [assignable, Ty.bare] using ih
  | list s | set s | map s => cases s <;> rfl
  | _ => simp [assignable, Ty.bare]

theorem accepts_of_isUnknown (ht : t.isUnknown = true) (v : Value) : σ.accepts t v = true := by
  cases t <;> cases v <;> simp_all [Ty.isUnknown, accepts, Ty.isPrimitive]

theorem accepts_null (ht : t.isPrimitive = false) : σ.accepts t .null = true := by
  cases t <;> simp_all [accepts]

theorem accepts_of_unwrapped (hv : σ.accepts t.unwrapped v = true) : σ.accepts t v = true := by
  cases t with
  | nullable t => cases v <;> simp_all [accepts, Ty.unwrapped, Ty.isPrimitive]
  | _ => exact hv

theorem accepts_array_self {elem : Ty} (ht : t.unwrapped = .array elem) (l : Loc) :
    σ.accepts t (.array elem l) = true := by
  refine σ.accepts_of_unwrapped ?_
  rw [ht]
  exact σ.assignable_self elem

theorem accepts_null_of_unwrapped {e : EnumId} (ht : t.unwrapped = .enum e) :
    σ.accepts t .null = true := by
  refine σ.accepts_of_unwrapped ?_
  rw [ht]
  rfl

end PropertyAccess.Schema
