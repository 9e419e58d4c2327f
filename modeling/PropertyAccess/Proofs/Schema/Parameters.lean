import PropertyAccess.Types.Ty

/-! Type parameters and what is put for them. Two substitutions in a row are one with the
second done inside the first, as long as the first has a type for each parameter that is
there. The self type is no parameter: it may be put in after the type arguments or together
with them, and the two differ where an argument mentions it. -/

namespace PropertyAccess.Ty

def parameters : Ty → List String
  | .param name => [name]
  | .nullable t => t.parameters
  | .array e => e.parameters
  | .list _ e => e.parameters
  | .set _ e => e.parameters
  | .map _ k v => k.parameters ++ v.parameters
  | _ => []

def mentionsSelf : Ty → Bool
  | .self => true
  | .nullable t => t.mentionsSelf
  | .array e => e.mentionsSelf
  | .list _ e => e.mentionsSelf
  | .set _ e => e.mentionsSelf
  | .map _ k v => k.mentionsSelf || v.mentionsSelf
  | _ => false

variable {b : List (String × Ty)} {this : Option ClassId} {t : Ty}

theorem substitute_nil (t : Ty) : t.substitute [] none = t := by
  induction t <;> simp_all [substitute]

theorem substitute_nil_substitute (outer : List (String × Ty)) (t : Ty) :
    (t.substitute [] this).substitute outer none = t.substitute outer this := by
  cases this <;> induction t <;> simp_all [substitute]

theorem lookup_map_snd (f : Ty → Ty) (b : List (String × Ty)) (name : String) :
    (b.map fun e => (e.1, f e.2)).lookup name = (b.lookup name).map f := by
  induction b with
  | nil => rfl
  | cons e b ih =>
    rw [List.map_cons, List.lookup_cons, List.lookup_cons, ih]
    split <;> rfl

theorem mem_of_lookup {name : String} {u : Ty} (found : b.lookup name = some u) :
    (name, u) ∈ b := by
  obtain ⟨before, after, rfl, -⟩ := List.lookup_eq_some_iff.1 found
  exact List.mem_append_right before List.mem_cons_self

theorem isSome_lookup_zip {params : List String} {args : List Ty}
    (enough : params.length ≤ args.length) {name : String} (own : name ∈ params) :
    ((params.zip args).lookup name).isSome := by
  induction params generalizing args with
  | nil => cases own
  | cons p params ih =>
    cases args with
    | nil => exact absurd enough (by simp)
    | cons a args =>
      rw [List.zip_cons_cons, List.lookup_cons]
      by_cases same : name = p
      · simp [same]
      · rw [beq_false_of_ne same]
        exact ih (Nat.le_of_succ_le_succ enough) ((List.mem_cons.1 own).resolve_left same)

theorem substitute_substitute (outer : List (String × Ty))
    (bound : ∀ name ∈ t.parameters, (b.lookup name).isSome) :
    (t.substitute b this).substitute outer none =
      t.substitute (b.map fun e => (e.1, e.2.substitute outer none)) this := by
  induction t with
  | param name =>
    obtain ⟨u, found⟩ := Option.isSome_iff_exists.1 (bound name (by simp [parameters]))
    simp [substitute, lookup_map_snd (·.substitute outer none), found]
  | map s k v ihk ihv =>
    rw [substitute, substitute, substitute,
      ihk fun name own => bound name (List.mem_append_left _ own),
      ihv fun name own => bound name (List.mem_append_right _ own)]
  | nullable t ih | array t ih => rw [substitute, substitute, substitute, ih bound]
  | list s t ih | set s t ih => rw [substitute, substitute, substitute, ih bound]
  | self => cases this <;> rfl
  | _ => rfl

theorem parameters_substitute {left : List String}
    (bound : ∀ name ∈ t.parameters, ∃ u, b.lookup name = some u ∧ u.parameters ⊆ left) :
    (t.substitute b this).parameters ⊆ left := by
  induction t with
  | param name =>
    obtain ⟨u, found, within⟩ := bound name (by simp [parameters])
    simpa [substitute, found] using within
  | map s k v ihk ihv =>
    exact List.append_subset.2 ⟨ihk fun name own => bound name (List.mem_append_left _ own),
      ihv fun name own => bound name (List.mem_append_right _ own)⟩
  | nullable t ih | array t ih => exact ih bound
  | list s t ih | set s t ih => exact ih bound
  | self => cases this <;> exact List.nil_subset _
  | _ => exact List.nil_subset _

theorem substitute_self_eq_iff (c : ClassId) :
    t.substitute [] (some c) = t ↔ t.mentionsSelf = false := by
  induction t <;> simp_all [substitute, mentionsSelf]

theorem mentionsSelf_substitute (own : t.mentionsSelf = false)
    (bound : ∀ name u, b.lookup name = some u → u.mentionsSelf = false) :
    (t.substitute b none).mentionsSelf = false := by
  induction t with
  | param name =>
    cases found : b.lookup name with
    | none => simp [substitute, found, mentionsSelf]
    | some u => simpa [substitute, found] using bound name u found
  | _ => simp_all [substitute, mentionsSelf]

theorem substitute_in_turn_iff (c : ClassId) :
    (t.substitute b none).substitute [] (some c) = t.substitute b (some c) ↔
      ∀ name ∈ t.parameters, ∀ u, b.lookup name = some u → u.mentionsSelf = false := by
  induction t with
  | param name =>
    cases found : b.lookup name with
    | none => simp [substitute, parameters, found]
    | some u => simp [substitute, parameters, found, substitute_self_eq_iff]
  | map s k v ihk ihv =>
    simp only [substitute, parameters, Ty.map.injEq, true_and, ihk, ihv,
      List.forall_mem_append]
  | _ => simp_all [substitute, parameters]

end PropertyAccess.Ty
