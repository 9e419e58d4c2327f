import PropertyAccess.Proofs.Conversion.Uniform
import PropertyAccess.Proofs.Navigation.Place

/-! Reading, entering and writing places of alike objects in alike graphs, where nothing grows
and classes have only fields. -/

namespace PropertyAccess

variable {N : Names} {σ : Schema} {h g : Heap} {v w : Value}

inductive PathError.Alike (N : Names) : PathError → PathError → Prop
  | same (e : PathError) (h : e.kind ≠ .conversion) : Alike N e e
  | conversion {e f : ConversionError} (h : Like N e f) : Alike N (.conversion e) (.conversion f)

instance : Likened PathError :=
  ⟨PathError.Alike, fun later h => by
    cases h with
    | same _ other => exact .same _ other
    | conversion h => exact .conversion (Likened.mono later h)⟩

theorem ConversionError.Alike.parts {e f : ConversionError} (he : Like N e f) :
    Like N e.value f.value ∧ f.required = e.required ∧ f.path = e.path ∧ f.reason = e.reason := by
  cases he with
  | mk required path reason h => exact ⟨h, rfl, rfl, rfl⟩

theorem ConversionError.message_of_alike (a : h.Alike N g) {e f : ConversionError}
    (he : Like N e f) : f.message σ g = e.message σ h := by
  obtain ⟨hv, required, path, reason⟩ := ConversionError.Alike.parts he
  unfold ConversionError.message
  rw [required, path, reason, Schema.valueText?_of_alike a hv, Schema.typeName_of_alike hv]

theorem ConvertError.message_of_alike (a : h.Alike N g) {e f : ConvertError} (he : Like N e f) :
    f.message σ g = e.message σ h := by
  cases he with
  | overflow | endless => rfl
  | conversion he => exact ConversionError.message_of_alike a he

namespace Schema

theorem alike_get (fields : ∀ d ∈ σ.classes, d.properties = []) {c : ClassId} {mode : AccessMode}
    {name : String} {hd : Handle} (found : σ.handle? c mode name = some hd) {o p : ObjectRef}
    (ho : Like N o p) : (hd.get o).Alike N (hd.get p) := by
  obtain ⟨index, readable, writable, -, -, -, access⟩ := slot_of_handle? fields found
  unfold Handle.get
  rw [access]
  cases readable with
  | false => exact .throw rfl
  | true =>
    refine Run.Alike.bind (.lookup fun _ _ a => a.slot? ho.2 index) fun N' x y _ hx => ?_
    cases hx with
    | some hx => exact .pure hx
    | none => exact .throw rfl

theorem alike_set (fields : ∀ d ∈ σ.classes, d.properties = []) {c : ClassId} {mode : AccessMode}
    {name : String} {hd : Handle} (found : σ.handle? c mode name = some hd) {o p : ObjectRef}
    (ho : Like N o p) (hv : Like N v w) : (hd.set σ o v).Alike N (hd.set σ p w) := by
  obtain ⟨index, readable, writable, -, -, -, access⟩ := slot_of_handle? fields found
  unfold Handle.set
  rw [accepts_of_alike hv, typeName_of_alike hv, access]
  refine .ite (fun _ => ?_) fun _ => .throw rfl
  cases writable with
  | false => exact .throw rfl
  | true => exact .changed (fun _ _ a => a.setSlot? ho.2 index hv) rfl

end Schema

namespace Node

abbrev wrapping (n : Node) (o : ObjectRef) : Node := { n with wrapped := o }

structure Uniform (σ : Schema) (n : Node) : Prop where
  growing : n.config.growing = false
  strategies : n.strategies.Uniform σ

theorem Uniform.child {n : Node} (hn : n.Uniform σ) (s : Segment) (o : ObjectRef) :
    (n.child s o).Uniform σ :=
  ⟨hn.growing, fun c hc => hn.strategies.registered c (Registrations.mem_of_mem_below hc),
    hn.strategies.defaults, hn.strategies.service⟩

variable {n : Node} {o : ObjectRef} (fields : ∀ d ∈ σ.classes, d.properties = [])
  (hσ : σ.Uniform) (hn : n.Uniform σ) (ho : Like N n.wrapped o)

section Object

include ho

theorem handle?_wrapping (name : String) : (n.wrapping o).handle? σ name = n.handle? σ name := by
  have same : n.wrapped.cls = o.cls := ho.1
  rw [handle?, handle?, same]

theorem innerType_wrapping (name : String) (depth : Nat) :
    (n.wrapping o).innerType σ name depth = n.innerType σ name depth := by
  rw [innerType, innerType, handle?_wrapping ho]

theorem innerKeyType_wrapping (name : String) (depth : Nat) :
    (n.wrapping o).innerKeyType σ name depth = n.innerKeyType σ name depth := by
  rw [innerKeyType, innerKeyType, handle?_wrapping ho]

end Object

theorem alike_indexOf (path key : String) :
    (n.indexOf σ path key).Alike N (n.indexOf σ path key) := by
  unfold indexOf
  split
  · exact .pure rfl
  · exact .throw (.same _ nofun)

theorem alike_faultAt (path : String) (required : Ty) (e : PropertyFault) :
    Like N (n.faultAt σ path required e) (n.faultAt σ path required e) := by
  cases e <;> exact .same _ nofun

theorem alike_conversionAt (path : String) {e f : ConvertError} (he : Like N e f) :
    Like N (n.conversionAt path e) (n.conversionAt path f) := by
  cases he with
  | overflow | endless => exact .same _ nofun
  | conversion he =>
    cases he with
    | mk required path reason hv => exact .conversion (.mk _ _ _ hv)

section Conversion

include hσ hn

theorem alike_convertFor (path : String) (hv : Like N v w) (required : Ty) :
    (n.convertFor σ path v required).Alike N (n.convertFor σ path w required) :=
  (Strategies.uniform_convert hσ hn.strategies required N _ v w hv).mapError
    fun _ _ _ _ he => alike_conversionAt path he

include ho in
theorem alike_convertKey (name : String) (depth : Nat) (key : String) :
    (n.convertKey σ name depth key).Alike N ((n.wrapping o).convertKey σ name depth key) := by
  rw [convertKey, convertKey, innerKeyType_wrapping ho]
  exact Strategies.uniform_convert hσ hn.strategies _ N _ _ _ (.scalar rfl)

end Conversion

include fields ho in
theorem alike_readProperty (shown name : String) :
    (n.readProperty σ shown name).Alike N ((n.wrapping o).readProperty σ shown name) := by
  unfold readProperty
  rw [handle?_wrapping ho]
  split
  · rename_i hd found
    refine .ite (fun _ => ?_) fun _ => .throw (.same _ nofun)
    refine (Schema.alike_get fields found ho).mapError fun N' e e' _ he => ?_
    obtain rfl := he
    exact alike_faultAt _ _ e
  · exact .throw (.same _ nofun)

include fields hσ hn ho in
theorem alike_writeProperty (name : String) (hv : Like N v w) :
    (n.writeProperty σ name v).Alike N ((n.wrapping o).writeProperty σ name w) := by
  unfold writeProperty
  rw [handle?_wrapping ho]
  split
  · rename_i hd found
    refine .ite (fun _ => ?_) fun _ => .throw (.same _ nofun)
    refine (alike_convertFor hσ hn _ hv hd.type).bind fun N' x y later hx => ?_
    refine (Schema.alike_set fields found (Likened.mono later ho) hx).mapError
      fun N' e e' _ he => ?_
    obtain rfl := he
    exact alike_faultAt _ _ e
  · exact .throw (.same _ nofun)

include hn in
theorem alike_present (p : Place) (shown : String) (hv : Like N v w)
    {read read' : Run PathError Value} {write write' : Value → Run PathError Unit} :
    (n.present σ p shown v read write).Alike N
      ((n.wrapping o).present σ p shown w read' write') := by
  unfold present
  rw [Value.Alike.isNull hv]
  refine .ite (fun _ => .pure hv) fun _ => ?_
  rw [if_neg (by simp [hn.growing]), if_neg (by simp [hn.growing])]
  exact .throw (.same _ nofun)

/-- What comes after an array was lengthened goes on at counterparts. -/
theorem alike_lengthened_bind (hσ : σ.Uniform) {α : Type} [Likened α] (may : Bool) (shown : String)
    (elem : Ty) {l m : Loc} (hl : N[l]? = some m) (index : Nat)
    {write write' : Value → Run PathError Unit}
    (hw : may = true → ∀ N' v w, N <+: N' → Like N' v w → (write v).Alike N' (write' w))
    {next next' : Loc → Run PathError α}
    (hf : ∀ N' l m, N <+: N' → N'[l]? = some m → (next l).Alike N' (next' m)) :
    (n.lengthened σ may shown elem l index write >>= next).Alike N
      ((n.wrapping o).lengthened σ may shown elem m index write' >>= next') := by
  unfold lengthened
  rw [bind_assoc, bind_assoc]
  refine (Schema.alike_items hl).bind fun N₁ items items' later₁ hi => ?_
  have hl₁ := Names.getElem?_of_prefix later₁ hl
  rw [Likened.length hi]
  dsimp only
  split
  · rename_i longer
    simp only [bind_assoc, pure_bind]
    have allowed : may = true := by
      simp only [Bool.and_eq_true] at longer
      exact longer.1.1
    refine ((Schema.alike_grownArray hσ elem hl₁ (index + 1)).mapError fun N' e e' _ he => ?_).bind
      fun N₂ grown grown' later₂ hg => ?_
    · obtain rfl := he
      exact .same _ nofun
    · have later := later₁.trans later₂
      refine (hw allowed N₂ _ _ later hg).bind fun N₃ _ _ later₃ _ => ?_
      rcases Value.Alike.loc? hg with ⟨none_, none_'⟩ | ⟨k, k', some_, some_', hk⟩
      · rw [none_, none_']
        exact hf N₃ _ _ (later.trans later₃) (Names.getElem?_of_prefix (later₂.trans later₃) hl₁)
      · rw [some_, some_']
        exact hf N₃ _ _ (later.trans later₃) (Names.getElem?_of_prefix later₃ hk)
  · exact hf N₁ _ _ later₁ hl₁

theorem alike_itemAt (shown : String) {l m : Loc} (hl : N[l]? = some m) (index : Nat) :
    (n.itemAt σ shown l index).Alike N ((n.wrapping o).itemAt σ shown m index) := by
  refine (Schema.alike_items hl).bind fun N' items items' _ hi => ?_
  have found := Likened.getElem? hi index
  revert found
  cases items[index]? <;> cases items'[index]? <;> intro found <;> cases found
  · exact .throw (.same _ nofun)
  · rename_i hx
    exact .pure hx

section Reading

include hn

include hσ in
theorem alike_readArray (shown : String) (holder : Place) (key : String) (elem : Ty) {l m : Loc}
    (hl : N[l]? = some m) {write write' : Value → Run PathError Unit} :
    (n.readArray σ shown holder key elem l write).Alike N
      ((n.wrapping o).readArray σ shown holder key elem m write') := by
  refine (alike_indexOf shown key).bind fun N₁ index _ later₁ he => ?_
  obtain rfl := he
  refine alike_lengthened_bind hσ _ _ elem (Names.getElem?_of_prefix later₁ hl) index
    (fun growing => ?_) fun N₂ l' m' _ hl' => alike_itemAt shown hl' index
  rw [hn.growing] at growing
  cases growing

theorem alike_readList (shown : String) (holder : Place) (key : String) {l m : Loc}
    (hl : N[l]? = some m) :
    (n.readList σ shown holder key l).Alike N ((n.wrapping o).readList σ shown holder key m) := by
  have still {N : Names} (elem elem' : Ty) {l m : Loc} (hl : N[l]? = some m) (index : Nat) :
      (n.growListForRead σ holder elem l index).Alike N
        ((n.wrapping o).growListForRead σ holder elem' m index) := by
    unfold growListForRead
    refine (Schema.alike_items hl).bind fun N' _ _ _ _ => ?_
    rw [if_neg (by simp [hn.growing]), if_neg (by simp [hn.growing])]
    exact .pure rfl
  refine (alike_indexOf shown key).bind fun N₁ index _ later₁ he => ?_
  obtain rfl := he
  have hl₁ := Names.getElem?_of_prefix later₁ hl
  exact (still _ _ hl₁ index).bind fun N₂ _ _ later₂ _ =>
    alike_itemAt shown (Names.getElem?_of_prefix later₂ hl₁) index

omit hn in
theorem alike_readSet (shown key : String) {l m : Loc} (hl : N[l]? = some m) :
    (n.readSet σ shown key l).Alike N ((n.wrapping o).readSet σ shown key m) := by
  refine (alike_indexOf shown key).bind fun N₁ index _ later₁ he => ?_
  obtain rfl := he
  refine (Schema.alike_items (Names.getElem?_of_prefix later₁ hl)).bind
    fun N₂ items items' _ hi => ?_
  have found := Likened.getElem? hi index
  rw [Likened.length hi]
  revert found
  cases items[index]? <;> cases items'[index]? <;> intro found <;> cases found
  · exact .throw (.same _ nofun)
  · rename_i hx
    exact .pure hx

include hσ ho in
theorem alike_readMap (shown : String) (holder : Place) (key : String) {l m : Loc}
    (hl : N[l]? = some m) :
    (n.readMap σ shown holder key l).Alike N ((n.wrapping o).readMap σ shown holder key m) := by
  refine (alike_convertKey hσ hn ho _ _ key).outcome.bind fun N₁ k k' later₁ hk => ?_
  cases hk with
  | error he =>
    refine .heap_bind fun h g a => ?_
    rw [ConvertError.message_of_alike a he]
    have refused (e : PathError) (other : e.kind ≠ .conversion) :
        Run.Alike N₁ (throw e : Run PathError Value) (throw e) := .throw (.same e other)
    cases ConvertError.message σ h _ with
    | none => exact refused .endless nofun h g a
    | some reason => exact refused (n.badIndexAt σ shown reason) nofun h g a
  | ok hk =>
    have entries : Run.Alike N₁ (Run.lookup (·.entries l) : Run PathError _)
        (Run.lookup (·.entries m)) :=
      .lookup fun _ _ a => a.entries (Names.getElem?_of_prefix later₁ hl)
    refine entries.bind fun N₂ es es' later₂ he => .of_ordered fun hN => ?_
    have found := MapEntries.alike_get? hN he (Likened.mono later₂ hk)
    revert found
    cases MapEntries.get? es _ <;> cases MapEntries.get? es' _ <;> intro found <;> cases found
    · dsimp only
      rw [if_neg (by simp [hn.growing]), if_neg (by simp [hn.growing])]
      exact .throw (.same _ nofun)
    · rename_i hx
      exact .pure hx

include hσ ho in
theorem alike_readElement (shown : String) (holder : Place) (key : String) (hv : Like N v w)
    {write write' : Value → Run PathError Unit} :
    (n.readElement σ shown holder key v write).Alike N
      ((n.wrapping o).readElement σ shown holder key w write') := by
  cases hv with
  | scalar hv =>
    cases v <;> first | exact .throw (.same _ nofun) | cases hv
  | object => exact .throw (.same _ nofun)
  | array elem hl => exact alike_readArray hσ hn shown holder key elem hl
  | list _ hl => exact alike_readList hn shown holder key hl
  | set _ hl => exact alike_readSet shown key hl
  | map _ hl => exact alike_readMap hσ hn ho shown holder key hl

include fields hσ ho in
theorem alike_read (shown : String) (p : Place) :
    (n.read σ shown p).Alike N ((n.wrapping o).read σ shown p) := by
  induction p generalizing N with
  | property name => exact alike_readProperty fields ho shown name
  | element holder key ih =>
    rw [read_element, read_element]
    have container : (n.readHolder σ shown holder).Alike N
        ((n.wrapping o).readHolder σ shown holder) := by
      cases holder with
      | property name =>
        exact (alike_readProperty fields ho shown name).bind fun _ _ _ _ hv =>
          alike_present hn _ _ hv
      | element holder key => exact ih ho
    exact container.bind fun N' v w later hv =>
      alike_readElement hσ hn (Likened.mono later ho) shown holder key hv

include fields hσ ho in
theorem alike_enter (p : Place) : (n.enter σ p).Alike N ((n.wrapping o).enter σ p) := by
  refine (alike_read fields hσ hn ho _ p).bind fun N₁ v w _ hv => ?_
  refine (alike_present hn p _ hv).bind fun N₂ x y _ hx => ?_
  cases hx with
  | object c hl => exact .pure ⟨rfl, hl⟩
  | scalar hx => cases x <;> first | exact .throw (.same _ nofun) | cases hx
  | array | list | set | map => exact .throw (.same _ nofun)

end Reading

theorem alike_putItem {l m : Loc} (hl : N[l]? = some m) (index : Nat) (hv : Like N v w)
    (missing : PathError) (none_ : missing.kind ≠ .conversion) :
    (putItem l index v missing).Alike N (putItem m index w missing) :=
  .changed (fun _ _ a => a.setItem? hl index hv) (.same missing none_)

section Writing

include hσ hn

theorem alike_writeArray (whole : Place) (elem : Ty) {l m : Loc} (hl : N[l]? = some m)
    (key : String) (hv : Like N v w) {write write' : Value → Run PathError Unit}
    (hw : ∀ N' v w, N <+: N' → Like N' v w → (write v).Alike N' (write' w)) :
    (n.writeArray σ whole elem l key v write).Alike N
      ((n.wrapping o).writeArray σ whole elem m key w write') := by
  refine (alike_convertFor hσ hn _ hv elem).bind fun N₁ x y later₁ hx => ?_
  refine (alike_indexOf _ key).bind fun N₂ index _ later₂ he => ?_
  obtain rfl := he
  have later := later₁.trans later₂
  refine alike_lengthened_bind hσ true _ elem (Names.getElem?_of_prefix later hl) index
    (fun _ N' v w later' hv => hw N' v w (later.trans later') hv) fun N₃ l' m' later₃ hl' => ?_
  exact alike_putItem hl' index (Likened.mono (later₂.trans later₃) hx) _ nofun

include ho

theorem alike_writeList (whole : Place) {l m : Loc} (hl : N[l]? = some m) (key : String)
    (hv : Like N v w) :
    (n.writeList σ whole l key v).Alike N ((n.wrapping o).writeList σ whole m key w) := by
  unfold writeList
  rw [innerType_wrapping ho]
  refine (alike_convertFor hσ hn _ hv _).bind fun N₁ x y later₁ hx => ?_
  refine (alike_indexOf _ key).bind fun N₂ index _ later₂ he => ?_
  obtain rfl := he
  have hl₂ := Names.getElem?_of_prefix (later₁.trans later₂) hl
  refine (Schema.alike_items hl₂).bind fun N₃ items items' later₃ hi => ?_
  have hl₃ := Names.getElem?_of_prefix later₃ hl₂
  have hx₃ := Likened.mono (later₂.trans later₃) hx
  rw [Likened.length hi]
  refine .ite (fun _ => .update fun h g a => ?_) fun _ => alike_putItem hl₃ index hx₃ _ nofun
  have nulls : ∀ u ∈ List.replicate (index - items.length) Value.null, u.loc? = none := by
    intro u hu
    rw [(List.mem_replicate.1 hu).2]
    rfl
  exact a.editItems hl₃ fun vs ws h =>
    Likened.append h (Likened.append (alike_scalars nulls) (.cons hx₃ .nil))

theorem alike_writeMap (whole holder : Place) (shape : TableShape) {l m : Loc}
    (hl : N[l]? = some m) (key : String) (hv : Like N v w) :
    (n.writeMap σ whole holder shape l key v).Alike N
      ((n.wrapping o).writeMap σ whole holder shape m key w) := by
  unfold writeMap
  rw [innerType_wrapping ho]
  refine ((alike_convertKey hσ hn ho _ _ key).mapError fun _ _ _ _ he =>
    alike_conversionAt _ he).bind fun N₁ k k' later₁ hk => ?_
  refine (alike_convertFor hσ hn _ (Likened.mono later₁ hv) _).bind fun N₂ x y later₂ hx => ?_
  refine .of_ordered fun hN => .update fun h g a => ?_
  exact a.editEntries (Names.getElem?_of_prefix (later₁.trans later₂) hl) fun es fs he =>
    MapEntries.alike_insert hN shape he (Likened.mono later₂ hk) hx

theorem alike_writeElement (whole holder : Place) (key : String) (hv : Like N v w)
    {container container' : Value} (hc : Like N container container')
    {write write' : Value → Run PathError Unit}
    (hw : ∀ N' v w, N <+: N' → Like N' v w → (write v).Alike N' (write' w)) :
    (n.writeElement σ whole holder key v container write).Alike N
      ((n.wrapping o).writeElement σ whole holder key w container' write') := by
  cases hc with
  | scalar hc => cases container <;> first | exact .throw (.same _ nofun) | cases hc
  | object => exact .throw (.same _ nofun)
  | set => exact .throw (.same _ nofun)
  | array elem hl => exact alike_writeArray hσ hn whole elem hl key hv hw
  | list _ hl => exact alike_writeList hσ hn ho whole hl key hv
  | map s hl => exact alike_writeMap hσ hn ho whole holder s hl key hv

include fields in
theorem alike_write (p : Place) (hv : Like N v w) :
    (n.write σ p v).Alike N ((n.wrapping o).write σ p w) := by
  induction p generalizing N v w with
  | property name => exact alike_writeProperty fields hσ hn ho name hv
  | element holder key ih =>
    rw [write, write]
    refine ((alike_read fields hσ hn ho _ holder).mapError fun N' e e' _ he => ?_).bind
      fun N₁ found found' later₁ hf => ?_
    · cases he with
      | same _ other =>
        cases e with
        | conversion => exact (other rfl).elim
        | _ => exact .same _ fun kind => by cases kind
      | conversion he => exact .conversion he
    · refine (alike_present hn holder _ hf).bind fun N₂ container container' later₂ hc => ?_
      have later := later₁.trans later₂
      exact alike_writeElement hσ hn (Likened.mono later ho) _ holder key (Likened.mono later hv) hc
        fun N' x y later' hx => ih (Likened.mono (later.trans later') ho) hx

end Writing

end Node

end PropertyAccess
