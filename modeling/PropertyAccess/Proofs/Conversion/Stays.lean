import PropertyAccess.Proofs.Conversion.Sources
import PropertyAccess.Proofs.Schema.Stays

/-! A conversion stays in a realm if the converters, the service and the constructors that
it may use do. The strategies themselves only pass on what they are given, take elements
and entries out of it, and make containers of what the contents were converted to. -/

namespace PropertyAccess

variable {σ : Schema} {R : Realm σ} {w : R.World}

/-- What the converter makes belongs to the realm if what it is given does. -/
structure Converter.Stays (R : Realm σ) (c : Converter) : Prop where
  fromText : ∀ w text required, (c.fromText σ text required).Stays R w R.Allows
  fromValue : ∀ w v required, R.Allows w v → (c.fromValue σ v required).Stays R w R.Allows

def ConversionService.Stays (R : Realm σ) (s : ConversionService) : Prop :=
  ∀ w v source target, R.Allows w v → (s.convert σ v source target).Stays R w R.Allows

structure Strategies.Stays (R : Realm σ) (S : Strategies) : Prop where
  registered : ∀ c ∈ S.registered.converters, c.Stays R
  defaults : ∀ c ∈ S.defaults.converters, c.Stays R
  service : ∀ s, S.service = some s → s.Stays R
  instances : R.strict → S.GivesInstances σ

def Realm.Element (R : Realm σ) (required : Ty) (w : R.World) (v : Value) : Prop :=
  R.Allows w v ∧ (R.strict → ∀ e, required.element? = some e → σ.accepts e v = true)

theorem Realm.Element.mono {required : Ty} {w' : R.World} {v : Value} (later : R.Later w w')
    (hv : R.Element required w v) : R.Element required w' v := ⟨R.mono later hv.1, hv.2⟩

structure ContentConversions.Stays (R : Realm σ) (required : Ty) (contents : ContentConversions) :
    Prop where
  element : ∀ w path v, R.Allows w v → (contents.element path v).Stays R w (R.Element required)
  key : ∀ w path v, R.Allows w v → (contents.key path v).Stays R w R.Allows

theorem ContentConversions.stays_none {required : Ty} (he : required.element? = Option.none) :
    ContentConversions.none.Stays R required :=
  ⟨fun _ _ _ hv => .pure ⟨hv, by simp [he]⟩, fun _ _ _ hv => .pure hv⟩

theorem stays_newTextArray {ε : Type} (w : R.World) (text : String) :
    (newTextArray text : Run ε Value).Stays R w R.Allows := by
  have texts : ∀ x ∈ (commaItems text).map Value.text, ∃ s, x = .text s := by
    intro x hx
    obtain ⟨s, -, rfl⟩ := List.mem_map.1 hx
    exact ⟨s, rfl⟩
  refine .newArray (fun x hx => ?_) fun _ x hx => ?_
  · obtain ⟨s, rfl⟩ := texts x hx
    exact R.scalar rfl
  · obtain ⟨s, rfl⟩ := texts x hx
    rfl

theorem stays_items {ε : Type} {v : Value} {l : Loc} (hv : R.Allows w v)
    (hl : ∀ h : Heap, h.elements? v = some (h.items l)) :
    (Run.lookup (·.items l) : Run ε (List Value)).Stays R w fun w' xs =>
      ∀ x ∈ xs, R.Allows w' x :=
  .lookup fun h fits => R.items fits hv (hl h)

theorem stays_convertItems {contents : ContentConversions} {required : Ty}
    (hc : contents.Stays R required) (path : Option String) (index : Nat) {vs : List Value}
    (hv : ∀ v ∈ vs, R.Allows w v) :
    (convertItems contents.element path index vs).Stays R w fun w' xs =>
      ∀ x ∈ xs, R.Element required w' x := by
  induction vs generalizing w index with
  | nil => exact .pure (by simp)
  | cons v vs ih =>
    refine (hc.element w _ v (hv v List.mem_cons_self)).bind fun w₁ x later hx => ?_
    have rest : ∀ u ∈ vs, R.Allows w₁ u :=
      fun u hu => R.mono later (hv u (List.mem_cons_of_mem _ hu))
    refine (ih (index + 1) rest).bind fun w₂ xs later' hxs => .pure ?_
    exact List.forall_mem_cons.2 ⟨hx.mono later', hxs⟩

theorem stays_written (v : Value) : (written σ v).Stays R w fun _ _ => True :=
  .inspect fun _ _ _ _ => trivial

theorem stays_pathOfEntry (path : Option String) (key : Value) :
    (pathOfEntry σ path key).Stays R w fun _ _ => True := by
  cases path with
  | none => exact .pure trivial
  | some p => exact (stays_written key).bind fun _ _ _ _ => .pure trivial

theorem stays_convertEntries {contents : ContentConversions} {required : Ty}
    (hc : contents.Stays R required) (path : Option String) {es : List (Value × Value)}
    (he : ∀ e ∈ es, R.Allows w e.1 ∧ R.Allows w e.2) :
    (convertEntries σ contents path es).Stays R w fun w' fs =>
      ∀ f ∈ fs, R.Allows w' f.1 ∧ R.Allows w' f.2 := by
  induction es generalizing w with
  | nil => exact .pure (by simp)
  | cons e es ih =>
    have own := he e List.mem_cons_self
    refine (stays_pathOfEntry path e.1).bind fun w₁ here later₁ _ => ?_
    refine (hc.key w₁ _ _ (R.mono later₁ own.1)).bind fun w₂ k later₂ hk => ?_
    have value := R.mono (R.trans later₁ later₂) own.2
    refine (hc.element w₂ _ _ value).bind fun w₃ x later₃ hx => ?_
    have later := R.trans later₁ (R.trans later₂ later₃)
    have rest : ∀ f ∈ es, R.Allows w₃ f.1 ∧ R.Allows w₃ f.2 := fun f hf =>
      ⟨R.mono later (he f (List.mem_cons_of_mem _ hf)).1,
        R.mono later (he f (List.mem_cons_of_mem _ hf)).2⟩
    refine (ih rest).bind fun w₄ fs later₄ hfs => .pure ?_
    exact List.forall_mem_cons.2
      ⟨⟨R.mono (R.trans later₃ later₄) hk, R.mono later₄ hx.1⟩, hfs⟩

namespace Converter

theorem loc?_of_boolOf {allowEmpty : Bool} {text : String} {v : Value}
    (hv : boolOf allowEmpty text = .ok v) : v.loc? = none := by
  unfold boolOf at hv
  grind [Value.loc?]

theorem loc?_of_charOf {allowEmpty : Bool} {text : String} {v : Value}
    (hv : charOf allowEmpty text = .ok v) : v.loc? = none := by
  unfold charOf at hv
  grind [Value.loc?]

theorem loc?_of_numberOf {k : NumberKind} {allowEmpty : Bool} {text : String} {v : Value}
    (hv : numberOf k allowEmpty text = .ok v) : v.loc? = none := by
  unfold numberOf at hv
  split at hv
  · obtain rfl := Except.ok.inj hv
    rfl
  · cases parsed : readNumber text k with
    | error e => simp [parsed, Except.map] at hv
    | ok n =>
      obtain rfl : .number n = v := by simpa [parsed, Except.map] using hv
      rfl

theorem numberOfValue_eq {k : NumberKind} {v x : Value} (hx : numberOfValue k v = .ok x) :
    x = v ∨ x.loc? = none := by
  cases v with
  | number n =>
    cases narrowed : narrowNumber n k with
    | error e => simp [numberOfValue, narrowed, Except.map] at hx
    | ok m =>
      obtain rfl : .number m = x := by simpa [numberOfValue, narrowed, Except.map] using hx
      exact .inr rfl
  | _ =>
    obtain rfl := Except.ok.inj hx
    exact .inl rfl

variable (R)

theorem stays_ofText (name : String) {convert : String → Except ConvertFailure Value}
    (scalar : ∀ text v, convert text = .ok v → v.loc? = none) :
    (ofText name fun _ text _ => ExceptT.mk (pure (convert text))).Stays R := by
  exact ⟨fun w text _ => .computed fun v hv => R.scalar (scalar text v hv),
    fun w v _ hv => .pure hv⟩

theorem stays_bool (allowEmpty : Bool) : (bool allowEmpty).Stays R :=
  stays_ofText R _ fun _ _ => loc?_of_boolOf

theorem stays_char (allowEmpty : Bool) : (char allowEmpty).Stays R :=
  stays_ofText R _ fun _ _ => loc?_of_charOf

theorem stays_number (k : NumberKind) (allowEmpty : Bool) : (number k allowEmpty).Stays R := by
  refine ⟨fun w text _ => .computed fun v hv => R.scalar (loc?_of_numberOf hv),
    fun w v _ hallowed => .computed fun x hx => ?_⟩
  rcases numberOfValue_eq hx with rfl | scalar
  · exact hallowed
  · exact R.scalar scalar

theorem stays_ofText_array {α : Type} (name : String) (elem : Ty) (split : String → List α)
    {element : α → Value} (scalar : ∀ a, (element a).loc? = none)
    (instances : ∀ a, σ.accepts elem (element a) = true) :
    (ofText name fun _ text _ => Run.newArray elem ((split text).map element)).Stays R := by
  refine ⟨fun w text _ => .newArray (fun x hx => ?_) fun _ x hx => ?_, fun _ _ _ hv => .pure hv⟩
  · obtain ⟨a, -, rfl⟩ := List.mem_map.1 hx
    exact R.scalar (scalar a)
  · obtain ⟨a, -, rfl⟩ := List.mem_map.1 hx
    exact instances a

theorem stays_bytes : bytes.Stays R :=
  stays_ofText_array R _ _ (fun text => text.toUTF8.toList) (fun _ => rfl) fun _ => rfl

theorem stays_chars : chars.Stays R :=
  stays_ofText_array R _ _ String.toList (fun _ => rfl) fun _ => rfl

theorem stays_collectionOf {v : Value} (hv : R.Allows w v) (required : Ty) :
    (collectionOf σ v required).Stays R w R.Allows := by
  refine .ite (fun _ => .pure hv) fun _ => ?_
  refine Run.Stays.bind (P := fun w' items => R.Allows w' v ∧ ∀ x ∈ items, R.Allows w' x)
    (.lookup fun h fits => ⟨hv, ?_⟩) fun w' items _ hitems => ?_
  · cases found : h.elements? v with
    | none => simpa using hv
    | some xs => exact R.items fits hv found
  · split
    · exact .newList hitems.2
    · exact .newSet hitems.2
    · exact .pure hitems.1

theorem stays_collection : collection.Stays R :=
  ⟨fun _ _ _ => stays_collectionOf R (R.scalar rfl) _, fun _ _ _ hv => stays_collectionOf R hv _⟩

theorem stays_mapOf {v : Value} (hv : R.Allows w v) (required : Ty) :
    (mapOf σ v required).Stays R w R.Allows := by
  refine .ite (fun _ => .pure hv) fun _ => ?_
  split
  · exact Run.Stays.bind (P := fun w' es => ∀ e ∈ es, R.Allows w' e.1 ∧ R.Allows w' e.2)
      (.lookup fun h fits => R.entries fits hv) fun _ _ _ hes => .newMap hes
  · exact .throw _

theorem stays_map : map.Stays R :=
  ⟨fun _ _ _ => .throw _, fun _ _ _ hv => stays_mapOf R hv _⟩

end Converter

namespace DefaultTable

theorem mem_converters_standard {c : Converter} (h : c ∈ standard.converters) :
    (∃ allowEmpty, c = .bool allowEmpty) ∨ (∃ allowEmpty, c = .char allowEmpty) ∨
      (∃ k allowEmpty, c = .number k allowEmpty) ∨
      c = .bytes ∨ c = .chars ∨ c = .collection ∨ c = .map := by
  simp only [converters, standard, primitives, containers, List.map_append, List.map_nil,
    List.append_nil, List.mem_append, List.map_cons, List.mem_cons, List.not_mem_nil, or_false,
    List.map_flatMap, List.mem_flatMap, List.map_map, List.mem_map, Function.comp_apply] at h
  grind

theorem stays_standard (R : Realm σ) : ∀ c ∈ standard.converters, c.Stays R := by
  intro c hc
  rcases mem_converters_standard hc with
    ⟨_, rfl⟩ | ⟨_, rfl⟩ | ⟨k, e, rfl⟩ | rfl | rfl | rfl | rfl
  · exact Converter.stays_bool R _
  · exact Converter.stays_char R _
  · exact Converter.stays_number R k e
  · exact Converter.stays_bytes R
  · exact Converter.stays_chars R
  · exact Converter.stays_collection R
  · exact Converter.stays_map R

end DefaultTable

theorem Strategies.stays_standard (R : Realm σ) : Stays R ⟨.empty, .standard, none⟩ where
  registered := by simp [Registrations.empty, Registrations.converters]
  defaults := DefaultTable.stays_standard R
  service := by simp
  instances _ := by simp [GivesInstances]

namespace Strategies

variable {S : Strategies} {required : Ty} {path : Option String} {contents : ContentConversions}

theorem Stays.chosen? (hS : S.Stays R) {c : Converter}
    (h : S.chosen? σ required path = some c) : c.Stays R :=
  (mem_of_chosen? h).elim (hS.registered c) (hS.defaults c)

theorem stays_serve (hS : S.Stays R) {v : Value} (hv : R.Allows w v) :
    (S.serve σ required path v).Stays R w fun w' r =>
      ∀ x, r = .converted x → R.Allows w' x := by
  unfold serve
  split
  · exact .pure (by simp)
  · rename_i s hs
    refine .ite (fun _ => .pure (by simp)) fun _ => ?_
    refine (hS.service s hs w v _ required hv).outcome.bind fun w' result _ hresult => ?_
    split
    · refine .pure ?_
      rintro x ⟨⟩
      exact hresult _ rfl
    · exact .pure (by simp)

theorem stays_ask (hS : S.Stays R) {v : Value} (hv : R.Allows w v) :
    (S.ask σ required path v).Stays R w fun w' r =>
      ∀ x, r = .converted x → R.Allows w' x :=
  .ite (fun _ => .pure (by simp)) fun _ => stays_serve hS hv

theorem stays_throughValue {converter : Option Converter}
    (hc : ∀ c, converter = some c → c.Stays R) {current : Value} (hv : R.Allows w current)
    (required : Ty) :
    (throughValue σ converter current required).Stays R w fun w' r =>
      R.Allows w' r.2 ∧ ∀ c, r.1 = some c → converter = some c := by
  unfold throughValue
  split
  · exact .pure ⟨hv, by simp⟩
  · rename_i c
    refine .ite (fun _ => .pure ⟨hv, by simp⟩) fun _ => ?_
    refine ((hc c rfl).fromValue w current required hv).outcome.bind
      fun w' result later hresult => ?_
    split
    · rename_i x
      by_cases same : x.same current = true
      · rw [if_pos same]
        exact .pure ⟨R.mono later hv, by simp⟩
      · rw [if_neg same]
        exact .pure ⟨hresult _ rfl, by simp⟩
    · exact .pure ⟨R.mono later hv, by simp⟩

theorem stays_throughText (given : Value) {converter : Option Converter}
    (hc : ∀ c, converter = some c → c.Stays R) {current : Value} (hv : R.Allows w current)
    (required : Ty) (path : Option String) :
    (throughText σ given converter current required path).Stays R w R.Allows := by
  refine Run.Stays.bind (P := fun _ _ => True) (.inspect fun _ _ _ _ => trivial) ?_
  intro w' text later _
  replace hv := R.mono later hv
  split
  · exact .pure hv
  · split
    · rename_i c
      exact ((hc c rfl).fromText w' _ _).mapError _
    · split
      · exact .pure (R.scalar rfl)
      · exact .pure hv

theorem stays_splitIf (wanted : Bool) {v : Value} (hv : R.Allows w v) :
    (splitIf wanted v).Stays R w R.Allows := by
  unfold splitIf
  split
  · exact .ite (fun _ => stays_newTextArray w _) fun _ => .pure hv
  · exact .pure hv

theorem stays_applied (hS : S.Stays R) {v : Value} (hv : R.Allows w v) :
    (S.applied σ required path v).Stays R w fun w' r => R.Allows w' r.2 := by
  refine .ite (fun _ => .pure hv) fun _ => ?_
  refine (stays_splitIf _ hv).bind fun w₁ given _ hgiven => ?_
  refine (stays_throughValue (fun _ => hS.chosen?) hgiven required).bind
    fun w₂ active _ hactive => ?_
  refine (stays_throughText v (fun c hc => ?_) hactive.1 required path).bind
    fun w₃ result _ hresult => .pure hresult
  exact hS.chosen? (hactive.2 c hc)

theorem stays_newConverted (hc : contents.Stays R required) {elem : Ty}
    (he : required.element? = some elem) {items : List Value} (hi : ∀ x ∈ items, R.Allows w x) :
    (newConverted elem contents path items).Stays R w R.Allows := by
  refine (stays_convertItems hc path 0 hi).bind fun w' xs _ hxs => ?_
  exact .newArray (fun x hx => (hxs x hx).1) fun strict x hx => (hxs x hx).2 strict elem he

theorem stays_toArray (hc : contents.Stays R required) {elem : Ty}
    (he : required.element? = some elem) {v : Value} (hv : R.Allows w v) :
    (S.toArray σ elem contents path v).Stays R w R.Allows := by
  unfold toArray
  split
  · exact .ite (fun _ => .pure hv) fun _ =>
      (stays_items hv fun _ => rfl).bind fun _ _ _ hi => stays_newConverted hc he hi
  · exact (stays_items hv fun _ => rfl).bind fun _ _ _ hi => stays_newConverted hc he hi
  · exact (stays_items hv fun _ => rfl).bind fun _ _ _ hi => stays_newConverted hc he hi
  · exact stays_newConverted hc he (by simpa using hv)

theorem stays_newCollection (given : Value) {items : List Value}
    (hi : ∀ x ∈ items, R.Allows w x) :
    (newCollection required given items).Stays R w R.Allows := by
  unfold newCollection
  split
  · exact .newList hi
  · exact .newSet hi
  · exact .newSet hi
  · exact .newList hi
  · exact .newList hi

theorem stays_toCollection (hc : contents.Stays R required) {given : Value}
    (hv : R.Allows w given) :
    (S.toCollection σ required contents path given).Stays R w R.Allows := by
  unfold toCollection
  split
  · exact .pure hv
  · refine .ite (fun _ => .pure hv) fun _ => ?_
    refine Run.Stays.bind
      (P := fun w' items => R.Allows w' given ∧ ∀ x ∈ items, R.Allows w' x)
      (.lookup fun h fits => ⟨hv, ?_⟩) fun w₁ items _ hitems => ?_
    · cases found : h.elements? given with
      | none => simp
      | some xs => exact R.items fits hv found
    · refine (stays_convertItems hc path 0 hitems.2).bind fun w₂ xs later hxs => ?_
      exact .ite (fun _ => .pure (R.mono later hitems.1)) fun _ =>
        stays_newCollection given fun x hx => (hxs x hx).1

theorem stays_toMap (hc : contents.Stays R required) {given : Value} (hv : R.Allows w given) :
    (S.toMap σ required contents path given).Stays R w R.Allows := by
  unfold toMap
  split
  · rename_i shape key value s l _
    refine .ite (fun _ => .pure hv) fun _ => ?_
    refine Run.Stays.bind
      (P := fun w' es => R.Allows w' (.map s l) ∧ ∀ e ∈ es, R.Allows w' e.1 ∧ R.Allows w' e.2)
      (.lookup fun h fits => ⟨hv, R.entries fits hv⟩) fun w₁ es _ hes => ?_
    refine (stays_convertEntries hc path hes.2).bind fun w₂ fs later hfs => ?_
    exact .ite (fun _ => .pure (R.mono later hes.1)) fun _ => .newMap hfs
  · exact .pure hv

def Ruled.value : Ruled → Value
  | .done v => v
  | .open v _ => v

theorem stays_construct? (hσ : ∀ w c text make, σ.fromText? c text = some make →
      make.Stays R w R.Allows) (w : R.World) (text : String) (deferred : Bool) :
    (construct? σ required text deferred).Stays R w fun w' r =>
      ∀ x, r = some x → R.Allows w' x := by
  unfold construct?
  split
  · refine .ite (fun _ => .pure (by simp)) fun _ => ?_
    split
    · exact .pure (by simp)
    · rename_i make hmake
      refine (hσ w _ _ make hmake).outcome.bind fun w' result _ hresult => ?_
      split
      · refine .pure ?_
        rintro x ⟨⟩
        exact hresult _ rfl
      · exact .pure (by simp)
  · exact .pure (by simp)

theorem stays_ruleText (hσ : σ.Stays R) (w : R.World) (text : String) (deferred : Bool) :
    (ruleText σ required text deferred).Stays R w fun w' r => R.Allows w' r.value := by
  refine (stays_construct? hσ.fromText w text deferred).bind fun w' made _ hmade => ?_
  split
  · exact .pure (hmade _ rfl)
  · split
    · dsimp only
      split
      · exact .pure (R.scalar rfl)
      · split
        · exact .pure (R.scalar rfl)
        · exact .pure (R.scalar rfl)
    · exact .pure (R.scalar rfl)

theorem stays_ruleScalar (hσ : σ.Stays R) (deferred : Bool) {v : Value} (hv : R.Allows w v)
    (standard : Bool) :
    (ruleScalar σ required deferred v standard).Stays R w fun w' r => R.Allows w' r.value := by
  refine .ite (fun _ => ?_) fun _ => ?_
  · exact (stays_written v).bind fun _ _ _ _ => .pure (R.scalar rfl)
  · split
    · exact .ite (fun _ => .pure hv) fun _ => stays_ruleText hσ w _ _
    · split
      · split
        · exact .pure (R.scalar rfl)
        · exact .throw _
      · exact .pure hv
    · exact .pure hv

theorem stays_ruleContainer (hc : contents.Stays R required) {v : Value} (hv : R.Allows w v) :
    (S.ruleContainer σ required contents path v).Stays R w fun w' r => R.Allows w' r.1 := by
  unfold ruleContainer
  split
  · exact (stays_toCollection hc hv).bind fun _ _ _ hx => .pure hx
  · exact (stays_toCollection hc hv).bind fun _ _ _ hx => .pure hx
  · exact (stays_toMap hc hv).bind fun _ _ _ hx => .pure hx
  · exact .pure hv

theorem stays_soleElement {v : Value} (hv : R.Allows w v) (standard : Bool) :
    (soleElement v standard).Stays R w fun w' r => R.Allows w' r.1 := by
  unfold soleElement
  split
  · rename_i elem l
    refine Run.Stays.bind
      (P := fun w' items => R.Allows w' (.array elem l) ∧ ∀ x ∈ items, R.Allows w' x)
      (.lookup fun h fits => ⟨hv, R.items fits hv rfl⟩) fun w' items _ hitems => ?_
    split
    · exact .pure (hitems.2 _ List.mem_cons_self)
    · exact .pure hitems.1
  · exact .pure hv

theorem stays_rules (hσ : σ.Stays R) (hc : contents.Stays R required) (deferred : Bool)
    {v : Value} (hv : R.Allows w v) :
    (S.rules σ required contents path deferred v).Stays R w fun w' r => R.Allows w' r.value := by
  refine .ite (fun _ => .pure hv) fun _ => .ite (fun _ => .pure hv) fun _ => ?_
  split
  · rename_i elem unwrapped
    have element : required.element? = some elem := by rw [Ty.element?, unwrapped]
    refine (stays_splitIf _ hv).bind fun w₁ given _ hgiven => ?_
    exact (stays_toArray hc element hgiven).bind fun _ _ _ hx => .pure hx
  · refine (stays_ruleContainer hc hv).bind fun w₁ current _ hcurrent => ?_
    refine (stays_soleElement hcurrent _).bind fun w₂ current _ hcurrent => ?_
    exact stays_ruleScalar hσ _ hcurrent _

theorem stays_checked (hS : S.Stays R) {given : Value} (hg : R.Allows w given)
    (converter : Option Converter) (deferred : Option ConversionError) {v : Value}
    (hv : R.Allows w v) (standard : Bool) :
    (S.checked σ required path given converter deferred v standard).Stays R w R.Allows := by
  refine .ite (fun _ => ?_) fun _ => ?_
  · split
    · exact .ite (fun _ => .throw _) fun _ => .pure hv
    · exact .pure hv
  · split
    · exact .throw _
    · refine (stays_serve hS hg).bind fun w' served _ hserved => ?_
      split
      · exact .pure (hserved _ rfl)
      · exact .throw _
      · exact .throw _

theorem stays_withoutService (hσ : σ.Stays R) (hS : S.Stays R) (hc : contents.Stays R required)
    {v : Value} (hv : R.Allows w v) (deferred : Option ConversionError) :
    (S.withoutService σ required contents path v deferred).Stays R w R.Allows := by
  refine (stays_applied hS hv).bind fun w₁ applied later₁ happlied => ?_
  refine (stays_rules hσ hc _ happlied).bind fun w₂ ruled later₂ hruled => ?_
  split
  · exact .pure hruled
  · exact stays_checked hS (R.mono (R.trans later₁ later₂) hv) _ _ hruled _

theorem stays_step (hσ : σ.Stays R) (hS : S.Stays R) (hc : contents.Stays R required)
    {v : Value} (hv : R.Allows w v) : (S.step σ required contents path v).Stays R w R.Allows := by
  refine (stays_ask hS hv).bind fun w' served later hserved => ?_
  split
  · exact .pure (hserved _ rfl)
  · exact stays_withoutService hσ hS hc (R.mono later hv) _
  · exact stays_withoutService hσ hS hc (R.mono later hv) _

theorem stays_step_element (hσ : σ.Stays R) (hS : S.Stays R) {elem : Ty}
    (hc : contents.Stays R elem) (he : required.element? = some elem) {v : Value}
    (hv : R.Allows w v) : (S.step σ elem contents path v).Stays R w (R.Element required) := by
  by_cases strict : R.strict
  · have gives := gives_step (hσ.instances strict) (hS.instances strict) elem contents path v
    refine ((stays_step hσ hS hc hv).and_gives gives).mono fun w' x _ hx => ?_
    refine ⟨hx.1, fun _ e hre => ?_⟩
    obtain rfl := Option.some.inj (he.symm.trans hre)
    exact hx.2
  · exact (stays_step hσ hS hc hv).mono fun w' x _ hx => ⟨hx, fun h => absurd h strict⟩

theorem stays_contents (hσ : σ.Stays R) (hS : S.Stays R) (t : Ty) :
    (S.contents σ t).Stays R t := by
  induction t with
  | array e ih | list s e ih | set s e ih =>
    exact ⟨fun _ _ _ hv => stays_step_element hσ hS ih rfl hv,
      fun _ _ _ hv => stays_step hσ hS ih hv⟩
  | map s k e ihk ihe =>
    exact ⟨fun _ _ _ hv => stays_step_element hσ hS ihe rfl hv,
      fun _ _ _ hv => stays_step hσ hS ihk hv⟩
  | nullable t ih =>
    refine ⟨fun w path v hv => (ih.element w path v hv).mono fun w' x _ hx => ⟨hx.1, ?_⟩, ih.key⟩
    intro strict e he
    refine hx.2 strict e ?_
    cases t <;> simp_all [Ty.element?, Ty.unwrapped]
  | any | bool | char | text | number k | enum e | object c | param name | self =>
    exact ContentConversions.stays_none rfl

theorem stays_convert (hσ : σ.Stays R) (hS : S.Stays R) (required : Ty) (path : Option String)
    {v : Value} (hv : R.Allows w v) : (S.convert σ required path v).Stays R w R.Allows :=
  stays_step hσ hS (stays_contents hσ hS required) hv

end Strategies

end PropertyAccess
