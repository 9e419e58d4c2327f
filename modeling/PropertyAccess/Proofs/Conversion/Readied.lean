import PropertyAccess.Proofs.Conversion.Ready
import PropertyAccess.Proofs.Conversion.Stays

/-! What registered and default converters make of a value. The result may be converted to
the type that was asked for, as the value itself might. Where lists, sets or maps are
required it is no array with one of them packed in it, so taking the only element out of an
array, which comes after the contents are converted, cannot bring out one that has not been
looked into. -/

namespace PropertyAccess

variable {σ : Schema} {S : Strategies} {w w' : Snapshot} {t required e : Ty} {v x : Value}

/-- What the converter makes may be converted to the type that it was asked for, if what it
is given may be. -/
structure Converter.Readies (σ : Schema) (S : Strategies) (c : Converter) : Prop where
  fromText : ∀ w text t, (c.fromText σ text t).Stays (.conserving σ) w (Ready σ S t)
  fromValue : ∀ w v t, Ready σ S t w v →
    (c.fromValue σ v t).Stays (.conserving σ) w (Ready σ S t)

namespace Converter

theorem readies_ofText (name : String) {convert : String → Except ConvertFailure Value}
    (scalar : ∀ text v, convert text = .ok v → v.loc? = none) :
    (ofText name fun _ text _ => ExceptT.mk (pure (convert text))).Readies σ S :=
  ⟨fun _ text _ => .computed fun v hv => .scalar (scalar text v hv), fun _ _ _ hv => .pure hv⟩

theorem readies_number (k : NumberKind) (allowEmpty : Bool) :
    (number k allowEmpty).Readies σ S := by
  refine ⟨fun w text t => .computed fun v hv => .scalar (loc?_of_numberOf hv),
    fun w v t ready => .computed fun x hx => ?_⟩
  rcases numberOfValue_eq hx with rfl | scalar
  · exact ready
  · exact .scalar scalar

theorem readies_ofText_array {α : Type} (name : String) (elem : Ty) (split : String → List α)
    {element : α → Value} (scalar : ∀ a, (element a).loc? = none)
    (instances : ∀ a, σ.accepts elem (element a) = true) :
    (ofText name fun _ text _ => Run.newArray elem ((split text).map element)).Readies σ S := by
  refine ⟨fun w text t => ready_newArray ?_ ?_, fun _ _ _ hv => .pure hv⟩
  · exact List.forall_mem_map.2 fun a _ => scalar a
  · exact List.forall_mem_map.2 fun a _ => instances a

theorem ready_collectionOf (hv : Ready σ S t w v) :
    (collectionOf σ v t).Stays (.conserving σ) w (Ready σ S t) := by
  refine .ite (fun _ => .pure hv) fun _ => ?_
  refine Run.Stays.bind (P := fun w' items => Ready σ S t w' v ∧
    items = (w'.heap.elements? v).getD [v]) (.lookup ?_) fun w' items _ hitems => ?_
  · rintro h rfl
    exact ⟨hv, rfl⟩
  · obtain ⟨hv, rfl⟩ := hitems
    split
    · rename_i s e list
      exact ready_newList (.inl ⟨s, list⟩)
        (hv.spread (by rw [Ty.element?, list]) (by rw [Ty.isMap, list]))
    · rename_i s e set
      exact ready_newSet (.inr ⟨s, set⟩)
        (hv.spread (by rw [Ty.element?, set]) (by rw [Ty.isMap, set]))
    · exact .pure hv

theorem ready_mapOf (hv : Ready σ S t w v) :
    (mapOf σ v t).Stays (.conserving σ) w (Ready σ S t) := by
  refine .ite (fun _ => .pure hv) fun _ => ?_
  split
  · rename_i _ l s k e map _
    refine Run.Stays.bind (P := fun w' es => ∀ x ∈ es, Ready σ S k w' x.1 ∧ Ready σ S e w' x.2)
      (.lookup ?_) fun w' es _ hes => ready_newMap map hes
    rintro h rfl
    have own := Ready.unwrapped.1 hv
    rw [map] at own
    exact own.entries
  · exact .throw _

theorem readies_standard : ∀ c ∈ DefaultTable.standard.converters, c.Readies σ S := by
  intro c hc
  rcases DefaultTable.mem_converters_standard hc with
    ⟨_, rfl⟩ | ⟨_, rfl⟩ | ⟨k, e, rfl⟩ | rfl | rfl | rfl | rfl
  · exact readies_ofText _ fun _ _ => loc?_of_boolOf
  · exact readies_ofText _ fun _ _ => loc?_of_charOf
  · exact readies_number k e
  · exact readies_ofText_array _ _ (fun text => text.toUTF8.toList) (fun _ => rfl) fun _ => rfl
  · exact readies_ofText_array _ _ String.toList (fun _ => rfl) fun _ => rfl
  · exact ⟨fun _ _ _ => ready_collectionOf (.scalar rfl), fun _ _ _ hv => ready_collectionOf hv⟩
  · exact ⟨fun _ _ _ => .throw _, fun _ _ _ hv => ready_mapOf hv⟩

end Converter

namespace Strategies

variable {path : Option String} {contents : ContentConversions}

/-- What is registered readies values, and beside it there are only the builtin converters. -/
structure Readies (σ : Schema) (S : Strategies) : Prop where
  registered : ∀ c ∈ S.registered.converters, c.Readies σ S
  defaults : S.defaults = .standard
  service : S.service = none

theorem Readies.chosen? (hS : S.Readies σ) {c : Converter}
    (h : S.chosen? σ required path = some c) : c.Readies σ S :=
  (mem_of_chosen? h).elim (hS.registered c) fun standard =>
    Converter.readies_standard c (hS.defaults ▸ standard)

theorem ready_throughValue {converter : Option Converter}
    (hc : ∀ c, converter = some c → c.Readies σ S) (hv : Ready σ S required w v) :
    (throughValue σ converter v required).Stays (.conserving σ) w fun w' r =>
      Ready σ S required w' r.2 ∧ ∀ c, r.1 = some c → converter = some c := by
  unfold throughValue
  split
  · exact .pure ⟨hv, by simp⟩
  · rename_i c
    refine .ite (fun _ => .pure ⟨hv, by simp⟩) fun _ => ?_
    refine ((hc c rfl).fromValue w v required hv).outcome.bind fun w' result later hresult => ?_
    split
    · rename_i x
      by_cases same : x.same v = true
      · rw [if_pos same]
        exact .pure ⟨hv.mono later, by simp⟩
      · rw [if_neg same]
        exact .pure ⟨hresult _ rfl, by simp⟩
    · exact .pure ⟨hv.mono later, by simp⟩

theorem ready_throughText (given : Value) {converter : Option Converter}
    (hc : ∀ c, converter = some c → c.Readies σ S) (hv : Ready σ S required w v) :
    (throughText σ given converter v required path).Stays (.conserving σ) w
      (Ready σ S required) := by
  refine Run.Stays.bind (P := fun _ _ => True) (.inspect fun _ _ _ _ => trivial) ?_
  intro w' text later _
  replace hv := hv.mono later
  split
  · exact .pure hv
  · split
    · rename_i c
      exact ((hc c rfl).fromText w' _ _).mapError _
    · split
      · exact .pure (.scalar rfl)
      · exact .pure hv

theorem ready_splitIf (wanted : Bool) (hv : Ready σ S required w v) :
    (splitIf wanted v).Stays (.conserving σ) w (Ready σ S required) := by
  unfold splitIf
  split
  · refine .ite (fun _ => ready_newArray ?_ ?_) fun _ => .pure hv
    · exact List.forall_mem_map.2 fun _ _ => rfl
    · exact List.forall_mem_map.2 fun _ _ => rfl
  · exact .pure hv

theorem ready_applied (hS : S.Readies σ) (path : Option String) (hv : Ready σ S required w v) :
    (S.applied σ required path v).Stays (.conserving σ) w fun w' r =>
      Ready σ S required w' r.2 := by
  refine .ite (fun _ => .pure hv) fun _ => ?_
  refine (ready_splitIf _ hv).bind fun w₁ given _ hgiven => ?_
  refine (ready_throughValue (fun _ => hS.chosen?) hgiven).bind fun w₂ active _ hactive => ?_
  refine (ready_throughText v (fun c hc => ?_) hactive.1).bind fun w₃ result _ hresult =>
    .pure hresult
  exact hS.chosen? (hactive.2 c hc)

theorem ends_collectionOf (sort : (∃ s e, required = .list s e) ∨ ∃ s e, required = .set s e)
    (v : Value) (h : Heap) :
    (Converter.collectionOf σ v required).Ends h (fun w _ => ∀ elem l, w ≠ .array elem l)
      (fun _ _ => False) := by
  unfold Converter.collectionOf
  split
  · rename_i kept
    rintro elem l rfl
    rcases sort with ⟨s, e, rfl⟩ | ⟨s, e, rfl⟩ <;> cases kept
  · rcases sort with ⟨s, e, rfl⟩ | ⟨s, e, rfl⟩
    · exact fun elem l array => by cases array
    · exact fun elem l array => by cases array

/-- Where a list or a set is required and nothing registered applies, no array is left. -/
theorem gives_applied_collection (defaults : S.defaults = .standard)
    (own : S.custom? σ required path = none)
    (sort : (∃ s e, required = .list s e) ∨ ∃ s e, required = .set s e) (v : Value) :
    (S.applied σ required path v).Gives fun r => ∀ elem l, r.2 ≠ .array elem l := by
  have chosen : S.chosen? σ required path = some .collection := by
    rw [Strategies.chosen?, own, defaults]
    rcases sort with ⟨s, e, rfl⟩ | ⟨s, e, rfl⟩ <;> cases s <;> rfl
  refine .ite (fun kept => .pure ?_) fun _ => .after fun given => ?_
  · rintro elem l rfl
    rw [own] at kept
    rcases sort with ⟨s, e, rfl⟩ | ⟨s, e, rfl⟩ <;> cases kept
  rw [chosen]
  refine Run.Gives.bind (R := fun r => (r.1 = none ∨ r.1 = some .collection) ∧
    ∀ elem l, r.2 ≠ .array elem l) ?_ fun r hr => ?_
  · refine .ite (fun text => .pure ⟨.inr rfl, ?_⟩) fun _ h => ?_
    · rintro elem l rfl
      cases text
    · simp only [Run.ends_bind, Run.ends_outcome]
      refine (ends_collectionOf sort given h).mono (fun x _ hx => ?_) fun _ _ => False.elim
      by_cases same : x.same given = true
      · rw [if_pos same]
        refine ⟨.inr rfl, ?_⟩
        rintro elem l rfl
        cases x <;> first | exact hx _ _ rfl | cases same
      · rw [if_neg same]
        exact ⟨.inl rfl, hx⟩
  · refine Run.Gives.bind (R := fun w => ∀ elem l, w ≠ .array elem l) (.after fun h => ?_)
      fun w hw => .pure hw
    split
    · exact .pure hr.2
    · rcases hr.1 with no | collection
      · rw [no]
        refine .pure fun elem l => ?_
        split
        · simp
        · exact hr.2 elem l
      · rw [collection]
        intro g
        rw [Run.ends_mapError]
        exact (ends_collectionOf sort _ g).mono (fun _ _ => id) fun _ _ => False.elim

theorem packs_applied (hS : S.Readies σ) (plain : required.Plain) (hv : Ready σ S required w v) :
    (S.applied σ required path v).Stays (.conserving σ) w fun w' r =>
      Ready σ S required w' r.2 ∧
        (required.isArray = false → required.element?.isSome = true → ¬w'.heap.Packs r.2) := by
  have readied := ready_applied hS path hv
  by_cases reshaped : S.custom? σ required path = none ∧
      ((∃ s e, required = .list s e) ∨ ∃ s e, required = .set s e)
  · refine (readied.and_gives (gives_applied_collection hS.defaults reshaped.1 reshaped.2 v)).mono
      fun w' r _ hr => ⟨hr.1, fun _ _ packs => ?_⟩
    obtain ⟨elem, l, x, array, -⟩ := packs
    exact hr.2 elem l array
  · refine readied.mono fun w' r _ hr => ⟨hr, fun no_array container => ?_⟩
    cases required with
    | nullable t =>
      rw [plain.of_nullable.1] at container
      cases container
    | list s e | set s e =>
      have own : ∃ c, S.custom? σ _ path = some c :=
        Option.ne_none_iff_exists'.1 fun own => reshaped ⟨own, by simp⟩
      exact hr.unpacked.1 path (Option.isSome_iff_exists.2 own)
    | map s k e => exact hr.unpacked.1
    | array e => cases no_array
    | _ => cases container

end Strategies

end PropertyAccess
