import PropertyAccess.Proofs.Schema.Accepts
import PropertyAccess.Proofs.Schema.Inherited

/-! Assignability as a preorder of types. Nullable wrappers on either side do not matter to it,
so every step is between bare types: of the same sort, and then by component type, by shape or
up the chain of a class. The types that take a value are those that its runtime type may be
assigned to, and erasing what plays no part changes nothing. -/

namespace PropertyAccess

theorem ListShape.admits_trans {a b c : ListShape} (hab : a.admits b = true)
    (hbc : b.admits c = true) : a.admits c = true := by
  revert hab hbc
  cases a <;> cases b <;> cases c <;> decide

theorem TableShape.admits_trans {a b c : TableShape} (hab : a.admits b = true)
    (hbc : b.admits c = true) : a.admits c = true := by
  revert hab hbc
  cases a <;> cases b <;> cases c <;> decide

theorem Ty.bare_erased (t : Ty) : t.erased.bare = t.bare.erased := by
  induction t with
  | nullable t ih => exact ih
  | _ => rfl

namespace Schema

variable {σ : Schema} {ds : List ClassDecl} {c d p : ClassId} {s t u : Ty} {v : Value}

def ancestry : List ClassDecl → ClassId → List ClassId
  | [], _ => []
  | d :: earlier, c =>
    if c = earlier.length then
      c :: match d.parent with
        | none => []
        | some (p, _) => ancestry earlier p
    else ancestry earlier c

theorem map_cls_levelsFrom (ds : List ClassDecl) (c : ClassId) (b : List (String × Ty)) :
    (levelsFrom ds c b).map (·.cls) = ancestry ds c := by
  induction ds generalizing c b with
  | nil => rfl
  | cons d earlier ih =>
    rw [levelsFrom, ancestry]
    split
    · rw [List.map_cons]
      cases d.parent with
      | none => rfl
      | some up => exact congrArg (c :: ·) (ih _ _)
    · exact ih c b

theorem lt_length_of_mem_ancestry (above : p ∈ ancestry ds c) : p < ds.length := by
  rw [← map_cls_levelsFrom ds c []] at above
  obtain ⟨l, hl, rfl⟩ := List.mem_map.1 above
  exact cls_lt_of_mem_levelsFrom hl

theorem ancestry_isSuffix (above : p ∈ ancestry ds c) : ancestry ds p <:+ ancestry ds c := by
  induction ds generalizing c with
  | nil => cases above
  | cons d earlier ih =>
    -- a class that is declared earlier has the chain that it had then
    have older {q : ClassId} (above : p ∈ ancestry earlier q) :
        ancestry (d :: earlier) p = ancestry earlier p := by
      rw [ancestry, if_neg (Nat.ne_of_lt (lt_length_of_mem_ancestry above))]
    rcases Decidable.em (c = earlier.length) with own | own
    · have chain : ancestry (d :: earlier) c = c :: match d.parent with
          | none => []
          | some (p, _) => ancestry earlier p := by rw [ancestry, if_pos own]
      rw [chain] at above ⊢
      rcases List.mem_cons.1 above with rfl | above
      · exact chain ▸ List.suffix_refl _
      · cases parent : d.parent with
        | none =>
          rw [parent] at above
          cases above
        | some up =>
          rw [parent] at above
          rw [older above]
          exact (ih above).trans (List.suffix_cons _ _)
    · rw [ancestry, if_neg own] at above
      rw [older above, ancestry.eq_2 c, if_neg own]
      exact ih above

theorem descends_iff : σ.descends c p = true ↔ c = p ∨ p ∈ ancestry σ.classes c := by
  rw [← map_cls_levelsFrom σ.classes c []]
  simp [descends, levels, List.mem_map]

theorem descends_trans (hcd : σ.descends c d = true) (hdp : σ.descends d p = true) :
    σ.descends c p = true := by
  rw [descends_iff] at hcd hdp ⊢
  rcases hcd with rfl | above
  · exact hdp
  · rcases hdp with rfl | further
    · exact .inr above
    · exact .inr ((ancestry_isSuffix above).subset further)

theorem assignable_bare_left (t s : Ty) : σ.assignable t.bare s = σ.assignable t s := by
  induction t with
  | nullable t ih => exact ih
  | _ => rfl

theorem assignable_trans (hts : σ.assignable t s = true) (hsu : σ.assignable s u = true) :
    σ.assignable t u = true := by
  rw [← assignable_bare_left] at hsu
  induction t generalizing s u with
  | any | param | self => rfl
  | nullable t ih => exact ih hts hsu
  | object c =>
    rw [assignable] at hts ⊢
    split at hts
    · rename_i d sort
      rw [sort, assignable] at hsu
      split at hsu
      · exact descends_trans hsu hts
      · cases hsu
    · cases hts
  | array e ih =>
    rw [assignable] at hts ⊢
    split at hts
    · rename_i f sort
      rw [sort, assignable] at hsu
      split at hsu
      · exact ih hts (by rwa [assignable_bare_left])
      · cases hsu
    · cases hts
  | list a =>
    rw [assignable] at hts ⊢
    split at hts
    · rename_i sort
      rw [sort, assignable] at hsu
      split at hsu
      · exact ListShape.admits_trans hts hsu
      · cases hsu
    · cases hts
  | set a | map a =>
    rw [assignable] at hts ⊢
    split at hts
    · rename_i sort
      rw [sort, assignable] at hsu
      split at hsu
      · exact TableShape.admits_trans hts hsu
      · cases hsu
    · cases hts
  | bool | char | text | number | enum =>
    rw [assignable, beq_iff_eq] at hts
    rwa [hts] at hsu

theorem accepts_eq_assignable (t : Ty) (there : v.isNull = false) :
    σ.accepts t v = σ.assignable t v.runtimeType := by
  induction t with
  | nullable t ih =>
    cases v with
    | null => cases there
    | _ => exact ih
  | number k =>
    cases v with
    | null => cases there
    | number n =>
      rw [Bool.eq_iff_iff]
      simp [accepts, assignable, Value.runtimeType, Ty.bare]
    | _ => rfl
  | enum e =>
    cases v with
    | null => cases there
    | enum f i =>
      rw [Bool.eq_iff_iff]
      simpa [accepts, assignable, Value.runtimeType, Ty.bare] using eq_comm
    | _ => rfl
  | _ =>
    cases v with
    | null => cases there
    | _ => rfl

theorem assignable_erased (t s : Ty) :
    σ.assignable t.erased s.erased = σ.assignable t s := by
  induction t generalizing s with
  | any | param | self => rfl
  | nullable t ih => exact ih s
  | array e ih =>
    rw [Ty.erased, assignable, assignable, Ty.bare_erased]
    cases s.bare with
    | array f => exact ih f
    | _ => rfl
  | _ =>
    simp only [Ty.erased, assignable, Ty.bare_erased]
    cases s.bare <;> rfl

/-- Assignability is reflexive and transitive. A type takes just the values whose runtime type
may be assigned to it, null apart, so with a type it takes all that may be assigned to it
takes. Erasure is idempotent, and neither adds to the relation nor takes from it. -/
theorem assignability_laws (σ : Schema) :
    (∀ t, σ.assignable t t = true) ∧
    (∀ t s u, σ.assignable t s = true → σ.assignable s u = true → σ.assignable t u = true) ∧
    (∀ t v, v.isNull = false →
      (σ.accepts t v = true ↔ σ.assignable t v.runtimeType = true)) ∧
    (∀ t s v, v.isNull = false →
      σ.assignable t s = true → σ.accepts s v = true → σ.accepts t v = true) ∧
    (∀ t : Ty, t.erased.erased = t.erased) ∧
    (∀ t s, σ.assignable t.erased s.erased = true ↔ σ.assignable t s = true) := by
  refine ⟨σ.assignable_self, fun t s u => assignable_trans, fun t v there => ?_,
    fun t s v there fits own => ?_, Ty.erased_erased, fun t s => ?_⟩
  · rw [accepts_eq_assignable t there]
  · rw [accepts_eq_assignable _ there] at own ⊢
    exact assignable_trans fits own
  · rw [assignable_erased]

theorem assignability_laws_entries :
    Pairs.schema.assignable (.array (.object 0)) (.nullable (.array (.object 1))) = true ∧
      Pairs.schema.assignable (.nullable (.array (.object 1))) (.array (.nullable (.object 2))) =
        true ∧
      Pairs.schema.assignable (.array (.object 0)) (.array (.nullable (.object 2))) = true ∧
      Pairs.schema.accepts (.nullable (.array (.object 1))) (.array (.object 2) 4) = true ∧
      Pairs.schema.accepts (.array (.object 0)) (.array (.object 2) 4) = true := by
  obtain ⟨-, trans, -, takes, -⟩ := assignability_laws Pairs.schema
  have upper : Pairs.schema.assignable (.array (.object 0)) (.nullable (.array (.object 1))) =
      true := rfl
  have lower : Pairs.schema.assignable (.nullable (.array (.object 1)))
      (.array (.nullable (.object 2))) = true := rfl
  exact ⟨upper, lower, trans _ _ _ upper lower, rfl, takes _ _ _ rfl upper rfl⟩

end Schema

end PropertyAccess
