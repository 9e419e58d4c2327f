import PropertyAccess.Navigation.Accessor

/-! Writing many values. A batch has one entry a path text, in the order in
which the paths came up first. Failures of single properties are collected and
reported at the end; entries whose path is not writable or leads through null
can be skipped; any other failure stops the batch where it is. -/

namespace PropertyAccess

structure PropertyValue where
  path : String
  value : Value
  /-- Skipped when its path is not writable. -/
  optional : Bool
  deriving DecidableEq

abbrev Batch := List PropertyValue

namespace Batch

/-- Puts an entry in the place of the one for the same path, or at the end. -/
def push : Batch → PropertyValue → Batch
  | [], v => [v]
  | x :: r, v => if x.path = v.path then v :: r else x :: push r v

def ofList (vs : List PropertyValue) : Batch := vs.foldl push []

theorem map_path_push (b : Batch) (v : PropertyValue) :
    (b.push v).map (·.path) =
      if v.path ∈ b.map (·.path) then b.map (·.path) else b.map (·.path) ++ [v.path] := by
  induction b with
  | nil => simp [push]
  | cons x r ih =>
    rw [push]
    split
    · rename_i h
      simp [h]
    · rename_i h
      simp only [List.map_cons, ih, List.mem_cons, Ne.symm h, false_or]
      split <;> simp

end Batch

structure BatchOptions where
  ignoreUnknown : Bool
  ignoreInvalid : Bool

inductive Verdict
  | skip | collect | stop
  deriving DecidableEq

namespace BatchOptions

def verdict (o : BatchOptions) (optional : Bool) (e : PathError) : Verdict :=
  if e.kind = .notWritable ∧ (o.ignoreUnknown ∨ optional) then .skip
  else if e.kind = .nullIntermediate ∧ o.ignoreInvalid then .skip
  else if e.isCollected then .collect
  else .stop

end BatchOptions

namespace Accessor

def applyAll (σ : Schema) (o : BatchOptions) :
    Batch → List (String × PathError) → Walk (Option BatchError)
  | [], [] => return none
  | [], failures => return some (.collected failures)
  | v :: vs, failures => do
    match ← outcome (apply σ v.path v.value) with
    | .ok _ => applyAll σ o vs failures
    | .error e =>
      match o.verdict v.optional e with
      | .skip => applyAll σ o vs failures
      | .collect => applyAll σ o vs (failures ++ [(v.path, e)])
      | .stop => return some (.stopped e)

def applyBatch (σ : Schema) (o : BatchOptions) (b : Batch) : Walk (Option BatchError) :=
  applyAll σ o b []

end Accessor

end PropertyAccess
