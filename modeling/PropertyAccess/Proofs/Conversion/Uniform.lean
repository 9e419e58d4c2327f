import PropertyAccess.Proofs.Conversion.Stays
import PropertyAccess.Proofs.Conversion.Written
import PropertyAccess.Proofs.Schema.Uniform

/-! Conversions do the same on alike graphs, if the converters, the service and the
constructors that they may use do. -/

namespace PropertyAccess

variable {N : Names} {σ : Schema} {h g : Heap} {v w : Value}

instance : Likened ConvertFailure := .plain _
instance : Likened (Option Converter) := .plain _

inductive ConversionError.Alike (N : Names) : ConversionError → ConversionError → Prop
  | mk {v w : Value} (required : Ty) (path : Option String) (reason : ConversionReason)
      (h : Like N v w) : Alike N ⟨v, required, path, reason⟩ ⟨w, required, path, reason⟩

instance : Likened ConversionError :=
  ⟨ConversionError.Alike, fun later h => by
    cases h with
    | mk required path reason h => exact .mk required path reason (Likened.mono later h)⟩

inductive ConvertError.Alike (N : Names) : ConvertError → ConvertError → Prop
  | conversion {e f : ConversionError} (h : Like N e f) : Alike N (.conversion e) (.conversion f)
  | overflow (e : Overflow) : Alike N (.overflow e) (.overflow e)
  | endless : Alike N .endless .endless

instance : Likened ConvertError :=
  ⟨ConvertError.Alike, fun later h => by
    cases h with
    | conversion h => exact .conversion (Likened.mono later h)
    | overflow e => exact .overflow e
    | endless => exact .endless⟩

namespace Run.Alike

variable {ε α : Type} [Likened ε] [Likened α] {r s : Run ε α}

theorem of_ordered (hr : N.Ordered → r.Alike N s) : r.Alike N s :=
  fun h g a => hr a.ordered h g a

theorem computed {x y : Except ε α} (hx : Like N x y) :
    Alike N (ExceptT.mk (Pure.pure x) : Run ε α) (ExceptT.mk (Pure.pure y)) :=
  fun _ _ a => ⟨N, List.prefix_rfl, a, hx⟩

end Run.Alike

/-- The converter does the same on alike graphs. -/
structure Converter.Uniform (σ : Schema) (c : Converter) : Prop where
  fromText : ∀ N text required, (c.fromText σ text required).Alike N (c.fromText σ text required)
  fromValue : ∀ (N : Names) v w required, Like N v w →
    (c.fromValue σ v required).Alike N (c.fromValue σ w required)

def ConversionService.Uniform (σ : Schema) (s : ConversionService) : Prop :=
  ∀ (N : Names) v w source target, Like N v w →
    (s.convert σ v source target).Alike N (s.convert σ w source target)

structure Strategies.Uniform (σ : Schema) (S : Strategies) : Prop where
  registered : ∀ c ∈ S.registered.converters, c.Uniform σ
  defaults : ∀ c ∈ S.defaults.converters, c.Uniform σ
  service : ∀ s, S.service = some s → s.Uniform σ

def Conversion.Uniform (convert : Conversion) : Prop :=
  ∀ (N : Names) path v w, Like N v w → (convert path v).Alike N (convert path w)

structure ContentConversions.Uniform (contents : ContentConversions) : Prop where
  element : contents.element.Uniform
  key : contents.key.Uniform

theorem ContentConversions.uniform_none : ContentConversions.none.Uniform :=
  ⟨fun _ _ _ _ hv => .pure hv, fun _ _ _ _ hv => .pure hv⟩

theorem alike_scalars {vs : List Value} (hv : ∀ x ∈ vs, x.loc? = none) : Like N vs vs := by
  induction vs with
  | nil => exact .nil
  | cons x r ih =>
    rw [List.forall_mem_cons] at hv
    exact .cons (.scalar hv.1) (ih hv.2)

theorem alike_newTextArray {ε : Type} [Likened ε] (text : String) :
    (newTextArray text : Run ε Value).Alike N (newTextArray text) := by
  refine .newArray _ (alike_scalars fun x hx => ?_)
  obtain ⟨s, -, rfl⟩ := List.mem_map.1 hx
  rfl

namespace Converter

theorem alike_computed {result : Except ConvertFailure Value}
    (scalar : ∀ x, result = .ok x → x.loc? = none) :
    Run.Alike N (ExceptT.mk (pure result) : Run ConvertFailure Value)
      (ExceptT.mk (pure result)) := by
  cases result with
  | ok x => exact .computed (.ok (.scalar (scalar x rfl)))
  | error e => exact .computed (.error rfl)

variable (σ)

theorem uniform_ofText (name : String) {convert : Schema → String → Ty → Run ConvertFailure Value}
    (ht : ∀ N text required, (convert σ text required).Alike N (convert σ text required)) :
    (ofText name convert).Uniform σ :=
  ⟨ht, fun _ _ _ _ hv => .pure hv⟩

theorem uniform_bool (allowEmpty : Bool) : (bool allowEmpty).Uniform σ :=
  uniform_ofText σ _ fun _ _ _ => alike_computed fun _ => loc?_of_boolOf

theorem uniform_char (allowEmpty : Bool) : (char allowEmpty).Uniform σ :=
  uniform_ofText σ _ fun _ _ _ => alike_computed fun _ => loc?_of_charOf

theorem uniform_number (k : NumberKind) (allowEmpty : Bool) : (number k allowEmpty).Uniform σ := by
  refine ⟨fun _ _ _ => alike_computed fun _ => loc?_of_numberOf, fun N v w _ hv => ?_⟩
  cases hv with
  | scalar hv =>
    refine alike_computed fun x hx => ?_
    rcases numberOfValue_eq hx with rfl | scalar
    · exact hv
    · exact scalar
  | object c hl => exact .pure (.object c hl)
  | array elem hl => exact .pure (.array elem hl)
  | list s hl => exact .pure (.list s hl)
  | set s hl => exact .pure (.set s hl)
  | map s hl => exact .pure (.map s hl)

theorem uniform_ofText_array {α : Type} (name : String) (elem : Ty) (split : String → List α)
    {element : α → Value} (scalar : ∀ a, (element a).loc? = none) :
    (ofText name fun _ text _ => Run.newArray elem ((split text).map element)).Uniform σ := by
  refine uniform_ofText σ _ fun N text _ => .newArray _ (alike_scalars fun x hx => ?_)
  obtain ⟨a, -, rfl⟩ := List.mem_map.1 hx
  exact scalar a

theorem uniform_bytes : bytes.Uniform σ :=
  uniform_ofText_array σ _ _ (fun text => text.toUTF8.toList) fun _ => rfl

theorem uniform_chars : chars.Uniform σ :=
  uniform_ofText_array σ _ _ String.toList fun _ => rfl

theorem alike_collectionOf (hv : Like N v w) (required : Ty) :
    (collectionOf σ v required).Alike N (collectionOf σ w required) := by
  unfold collectionOf
  rw [Value.Alike.isNull hv, Schema.accepts_of_alike hv]
  refine .ite (fun _ => .pure hv) fun _ => ?_
  have elements : (Run.lookup fun h => (h.elements? v).getD [v] : Run ConvertFailure _).Alike N
      (Run.lookup fun h => (h.elements? w).getD [w]) := .lookup fun h g a => by
    have found := a.elements? hv
    revert found
    cases h.elements? v <;> cases g.elements? w <;> intro found <;> cases found
    · exact .cons hv .nil
    · assumption
  refine elements.bind fun N' items items' later hi => ?_
  split
  · exact .newList _ hi
  · exact .newSet _ hi
  · exact .pure (Likened.mono later hv)

theorem uniform_collection : collection.Uniform σ :=
  ⟨fun _ _ _ => alike_collectionOf σ (.scalar rfl) _, fun _ _ _ _ hv => alike_collectionOf σ hv _⟩

theorem alike_mapOf (hv : Like N v w) (required : Ty) :
    (mapOf σ v required).Alike N (mapOf σ w required) := by
  unfold mapOf
  rw [Value.Alike.isNull hv, Schema.accepts_of_alike hv]
  refine .ite (fun _ => .pure hv) fun _ => ?_
  have named := Schema.typeName_of_alike (σ := σ) hv
  have refused : Run.Alike N
      (throw (.invalid ("value of type `" ++ σ.typeName v ++ "` cannot be converted to a map")) :
        Run ConvertFailure Value)
      (throw (.invalid ("value of type `" ++ σ.typeName w ++ "` cannot be converted to a map"))) :=
    .throw (by rw [named]; rfl)
  cases required.unwrapped with
  | map s key value =>
    cases hv with
    | map _ hl =>
      have entries : (Run.lookup (·.entries _) : Run ConvertFailure _).Alike N
          (Run.lookup (·.entries _)) := .lookup fun _ _ a => a.entries hl
      exact entries.bind fun _ _ _ _ he => .newMap s he
    | scalar hv => cases v <;> first | exact refused | cases hv
    | object | array | list | set => exact refused
  | _ =>
    cases hv with
    | scalar => cases v <;> exact refused
    | object | array | list | set | map => exact refused

theorem uniform_map : map.Uniform σ :=
  ⟨fun _ _ _ => .throw rfl, fun _ _ _ _ hv => alike_mapOf σ hv _⟩

end Converter

namespace DefaultTable

theorem uniform_standard (σ : Schema) : ∀ c ∈ standard.converters, c.Uniform σ := by
  intro c hc
  rcases mem_converters_standard hc with
    ⟨_, rfl⟩ | ⟨_, rfl⟩ | ⟨k, e, rfl⟩ | rfl | rfl | rfl | rfl
  · exact Converter.uniform_bool σ _
  · exact Converter.uniform_char σ _
  · exact Converter.uniform_number σ k e
  · exact Converter.uniform_bytes σ
  · exact Converter.uniform_chars σ
  · exact Converter.uniform_collection σ
  · exact Converter.uniform_map σ

end DefaultTable

theorem Likened.eq_of_texts {s t : Option String} (same : Like N s t) : s = t := by
  cases same with
  | none => rfl
  | some same => exact congrArg some same

theorem Likened.texts_self (s : Option String) : Like N s s := by
  cases s with
  | none => exact .none
  | some s => exact .some rfl

theorem alike_written (hv : Like N v w) : (written σ v).Alike N (written σ w) := by
  refine .inspect fun h g a => ?_
  rw [Schema.valueText?_of_alike a hv]
  cases σ.valueText? h v with
  | none => exact .error .endless
  | some text => exact .ok rfl

theorem alike_pathOfEntry (path : Option String) (hv : Like N v w) :
    (pathOfEntry σ path v).Alike N (pathOfEntry σ path w) := by
  cases path with
  | none => exact .pure .none
  | some p =>
    refine (alike_written hv).bind fun N' text text' _ same => .pure ?_
    obtain rfl : text = text' := same
    exact .some rfl

section Contents

variable {contents : ContentConversions} (hc : contents.Uniform) (path : Option String)

include hc

theorem alike_convertItems (index : Nat) {vs ws : List Value} (hv : Like N vs ws) :
    (convertItems contents.element path index vs).Alike N
      (convertItems contents.element path index ws) := by
  induction vs generalizing N ws index with
  | nil =>
    cases hv
    exact .pure .nil
  | cons v vs ih =>
    cases hv with
    | cons hv hvs =>
      refine (hc.element N _ v _ hv).bind fun N' x y later hx => ?_
      refine (ih (index + 1) (Likened.mono later hvs)).bind fun N'' xs ys later' hxs => .pure ?_
      exact .cons (Likened.mono later' hx) hxs

theorem alike_convertEntries {es fs : List (Value × Value)} (he : Like N es fs) :
    (convertEntries σ contents path es).Alike N (convertEntries σ contents path fs) := by
  induction es generalizing N fs with
  | nil =>
    cases he
    exact .pure .nil
  | cons e es ih =>
    cases he with
    | cons he hes =>
      refine (alike_pathOfEntry path he.1).bind fun N₁ here here' later₁ same => ?_
      obtain rfl := Likened.eq_of_texts same
      refine (hc.key N₁ _ _ _ (Likened.mono later₁ he.1)).bind fun N₂ k k' later₂ hk => ?_
      refine (hc.element N₂ _ _ _ (Likened.mono (later₁.trans later₂) he.2)).bind
        fun N₃ x y later₃ hx => ?_
      refine (ih (Likened.mono ((later₁.trans later₂).trans later₃) hes)).bind
        fun N₄ rest rest' later₄ hr => .pure ?_
      exact .cons ⟨Likened.mono (later₃.trans later₄) hk, Likened.mono later₄ hx⟩ hr

end Contents

theorem sameItems_of_alike (hN : N.Ordered) {vs vs' ws ws' : List Value} (hv : Like N vs vs')
    (hw : Like N ws ws') : sameItems vs' ws' = sameItems vs ws := by
  induction hv generalizing ws ws' with
  | nil => cases hw <;> rfl
  | cons hv _ ih =>
    cases hw with
    | nil => rfl
    | cons hw hws => rw [sameItems, sameItems, Value.Alike.same hN hw hv, ih hws]

theorem sameEntries_of_alike (hN : N.Ordered) {es es' fs fs' : List (Value × Value)}
    (he : Like N es es') (hf : Like N fs fs') : sameEntries es' fs' = sameEntries es fs := by
  induction he generalizing fs fs' with
  | nil => cases hf <;> rfl
  | @cons e e' _ _ he _ ih =>
    cases hf with
    | nil => rfl
    | @cons f f' _ _ hf hfs =>
      rw [sameEntries, sameEntries, Value.Alike.same hN hf.1 he.1, Value.Alike.same hN hf.2 he.2,
        ih hfs]

namespace Strategies

variable {S : Strategies} {required : Ty} {path : Option String} {contents : ContentConversions}

inductive Served.Alike (N : Names) : Served → Served → Prop
  | converted {v w : Value} (h : Like N v w) : Alike N (.converted v) (.converted w)
  | failed {e f : ConversionError} (h : Like N e f) : Alike N (.failed e) (.failed f)
  | unable : Alike N .unable .unable

instance : Likened Served :=
  ⟨Served.Alike, fun later h => by
    cases h with
    | converted h => exact .converted (Likened.mono later h)
    | failed h => exact .failed (Likened.mono later h)
    | unable => exact .unable⟩

inductive Ruled.Alike (N : Names) : Ruled → Ruled → Prop
  | done {v w : Value} (h : Like N v w) : Alike N (.done v) (.done w)
  | open {v w : Value} (h : Like N v w) (standard : Bool) :
      Alike N (.open v standard) (.open w standard)

instance : Likened Ruled :=
  ⟨Ruled.Alike, fun later h => by
    cases h with
    | done h => exact .done (Likened.mono later h)
    | «open» h standard => exact .open (Likened.mono later h) standard⟩

theorem Uniform.chosen? (hS : S.Uniform σ) {c : Converter}
    (h : S.chosen? σ required path = some c) : c.Uniform σ :=
  (mem_of_chosen? h).elim (hS.registered c) (hS.defaults c)

theorem alike_serve (hS : S.Uniform σ) (hv : Like N v w) :
    (S.serve σ required path v).Alike N (S.serve σ required path w) := by
  unfold serve
  rw [Value.Alike.isNull hv, Value.Alike.runtimeType hv]
  split
  · exact .pure .unable
  · rename_i s hs
    refine .ite (fun _ => .pure .unable) fun _ => ?_
    refine (hS.service s hs N v w _ required hv).outcome.bind fun N' x y later hx => ?_
    cases hx with
    | ok hx => exact .pure (.converted hx)
    | error he =>
      obtain rfl := he
      exact .pure (.failed (.mk _ _ _ (Likened.mono later hv)))

theorem alike_ask (hS : S.Uniform σ) (hv : Like N v w) :
    (S.ask σ required path v).Alike N (S.ask σ required path w) :=
  .ite (fun _ => .pure .unable) fun _ => alike_serve hS hv

theorem alike_throughValue {converter : Option Converter}
    (hc : ∀ c, converter = some c → c.Uniform σ) (hv : Like N v w) (required : Ty) :
    (throughValue σ converter v required).Alike N (throughValue σ converter w required) := by
  unfold throughValue
  rw [Value.Alike.isText hv]
  split
  · exact .pure ⟨rfl, hv⟩
  · rename_i c
    refine .ite (fun _ => .pure ⟨rfl, hv⟩) fun _ => ?_
    refine ((hc c rfl).fromValue N v w required hv).outcome.bind fun N' x y later hx => ?_
    have hv' : Like N' v w := Likened.mono later hv
    cases hx with
    | ok hx =>
      refine .of_ordered fun hN => ?_
      dsimp only
      rw [Value.Alike.same hN hx hv']
      split
      · exact .pure ⟨rfl, hv'⟩
      · exact .pure ⟨rfl, hx⟩
    | error => exact .pure ⟨rfl, hv'⟩

theorem textOf?_of_alike (a : h.Alike N g) (hv : Like N v w) (required : Ty) :
    textOf? σ g w required = textOf? σ h v required := by
  cases hv with
  | scalar hv => cases v <;> first | rfl | cases hv
  | array elem hl =>
    cases elem with
    | text =>
      rw [textOf?, textOf?, Likened.mapM_eq (f := σ.valueText? h) (a.items hl) fun _ _ =>
        Schema.valueText?_of_alike a]
    | _ => rfl
  | _ => rfl

theorem alike_throughText {given given' : Value} (hg : Like N given given')
    {converter : Option Converter} (hc : ∀ c, converter = some c → c.Uniform σ)
    (hv : Like N v w) (required : Ty) (path : Option String) :
    (throughText σ given converter v required path).Alike N
      (throughText σ given' converter w required path) := by
  have text : (Run.inspect fun h => textOf? σ h v required : Run ConvertError _).Alike N
      (Run.inspect fun h => textOf? σ h w required) := by
    refine .inspect fun h g a => ?_
    rw [textOf?_of_alike a hv]
    cases known : textOf? σ h v required with
    | ok text => exact .ok (Likened.texts_self text)
    | error e =>
      obtain rfl := textOf?_error known
      exact .error .endless
  refine text.bind fun N₁ text text' later same => ?_
  obtain rfl := Likened.eq_of_texts same
  cases text with
  | none => exact .pure (Likened.mono later hv)
  | some text =>
    cases converter with
    | none =>
      dsimp only
      split
      · exact .pure (.scalar rfl)
      · exact .pure (Likened.mono later hv)
    | some c =>
      refine ((hc c rfl).fromText N₁ text required).mapError fun N' e e' later' he => ?_
      obtain rfl := he
      cases e with
      | invalid message => exact .conversion (.mk _ _ _ (Likened.mono (later.trans later') hg))
      | overflow e => exact .overflow e

theorem alike_splitIf (wanted : Bool) (hv : Like N v w) :
    (splitIf wanted v).Alike N (splitIf wanted w) := by
  cases hv with
  | scalar hv =>
    unfold splitIf
    split
    · exact .ite (fun _ => alike_newTextArray _) fun _ => .pure (.scalar hv)
    · exact .pure (.scalar hv)
  | object _ hl => exact .pure (.object _ hl)
  | array _ hl => exact .pure (.array _ hl)
  | list _ hl => exact .pure (.list _ hl)
  | set _ hl => exact .pure (.set _ hl)
  | map _ hl => exact .pure (.map _ hl)

theorem gives_throughValue (converter : Option Converter) (v : Value) (required : Ty) :
    (throughValue σ converter v required).Gives fun r =>
      ∀ c, r.1 = some c → converter = some c := by
  unfold throughValue
  split
  · exact .pure (by simp)
  · rename_i c
    refine .ite (fun _ => .pure (by simp)) fun _ => .after fun result => ?_
    split
    · split
      · exact .pure (by simp)
      · exact .pure (by simp)
    · exact .pure (by simp)

theorem alike_applied (hS : S.Uniform σ) (hv : Like N v w) :
    (S.applied σ required path v).Alike N (S.applied σ required path w) := by
  unfold applied
  rw [Schema.accepts_of_alike hv]
  refine .ite (fun _ => .pure ⟨rfl, hv⟩) fun _ => ?_
  refine (alike_splitIf _ hv).bind fun N₁ given given' later₁ hg => ?_
  refine (alike_throughValue (fun _ => hS.chosen?) hg required).bind_gives
    (gives_throughValue _ _ _) fun N₂ active active' later₂ ha left => ?_
  obtain ⟨c, current⟩ := active
  obtain ⟨c', current'⟩ := active'
  obtain ⟨rfl, hcurrent⟩ := ha
  refine (alike_throughText (Likened.mono (later₁.trans later₂) hv)
    (fun d hd => hS.chosen? (left d hd)) hcurrent required path).bind
    fun N₃ result result' _ hr => .pure ⟨rfl, hr⟩

theorem alike_newConverted (hc : contents.Uniform) (elem : Ty) {vs ws : List Value}
    (hv : Like N vs ws) :
    (newConverted elem contents path vs).Alike N (newConverted elem contents path ws) :=
  (alike_convertItems hc path 0 hv).bind fun _ _ _ _ hx => .newArray elem hx

theorem alike_toArray (hc : contents.Uniform) (elem : Ty) (hv : Like N v w) :
    (S.toArray σ elem contents path v).Alike N (S.toArray σ elem contents path w) := by
  have rebuilt : ∀ {l m : Loc}, N[l]? = some m →
      ((Run.lookup (·.items l) : Run ConvertError _) >>= newConverted elem contents path).Alike N
        ((Run.lookup (·.items m) : Run ConvertError _) >>= newConverted elem contents path) :=
    fun hl => (Schema.alike_items hl).bind fun _ _ _ _ hi => alike_newConverted hc elem hi
  cases hv with
  | scalar hv =>
    have alone : Like N [v] [v] := .cons (.scalar hv) .nil
    cases v <;> first | exact alike_newConverted hc elem alone | cases hv
  | object _ hl => exact alike_newConverted hc elem (.cons (.object _ hl) .nil)
  | map _ hl => exact alike_newConverted hc elem (.cons (.map _ hl) .nil)
  | list _ hl | set _ hl => exact rebuilt hl
  | array _ hl => exact .ite (fun _ => .pure (.array _ hl)) fun _ => rebuilt hl

theorem newCollection_eq (required : Ty) (given : Value) :
    (∃ s, newCollection required given = Run.newList s) ∨
      ∃ s, newCollection required given = Run.newSet s := by
  unfold newCollection
  cases required.unwrapped with
  | list s e => cases s <;> cases given <;> exact .inl ⟨_, rfl⟩
  | set s e => cases s <;> cases given <;> exact .inr ⟨_, rfl⟩
  | _ => exact .inl ⟨_, rfl⟩

theorem newCollection_of_alike (required : Ty) (hv : Like N v w) :
    newCollection required w = newCollection required v := by
  unfold newCollection
  cases hv <;> cases required.unwrapped with
  | list s e | set s e => cases s <;> rfl
  | _ => rfl

theorem alike_newCollection (hv : Like N v w) {vs ws : List Value} (hi : Like N vs ws) :
    (newCollection required v vs).Alike N (newCollection required w ws) := by
  rw [newCollection_of_alike required hv]
  rcases newCollection_eq required v with ⟨s, eq⟩ | ⟨s, eq⟩
  · rw [eq]
    exact .newList s hi
  · rw [eq]
    exact .newSet s hi

theorem alike_toCollection (hc : contents.Uniform) (hv : Like N v w) :
    (S.toCollection σ required contents path v).Alike N
      (S.toCollection σ required contents path w) := by
  unfold toCollection
  rw [Schema.accepts_of_alike hv]
  split
  · exact .pure hv
  · refine .ite (fun _ => .pure hv) fun _ => ?_
    have elements : (Run.lookup fun h => (h.elements? v).getD [] : Run ConvertError _).Alike N
        (Run.lookup fun h => (h.elements? w).getD []) := .lookup fun h g a => by
      have found := a.elements? hv
      revert found
      cases h.elements? v <;> cases g.elements? w <;> intro found <;> cases found
      · exact .nil
      · assumption
    refine elements.bind fun N₁ items items' later₁ hi => ?_
    refine (alike_convertItems hc path 0 hi).bind fun N₂ xs xs' later₂ hx => ?_
    refine .of_ordered fun hN => ?_
    rw [sameItems_of_alike hN (Likened.mono later₂ hi) hx]
    have hv' : Like N₂ v w := Likened.mono (later₁.trans later₂) hv
    exact .ite (fun _ => .pure hv') fun _ => alike_newCollection hv' hx

theorem alike_toMap (hc : contents.Uniform) (hv : Like N v w) :
    (S.toMap σ required contents path v).Alike N (S.toMap σ required contents path w) := by
  unfold toMap
  rw [Schema.accepts_of_alike hv]
  cases required.unwrapped with
  | map shape key value =>
    cases hv with
    | @map l m s hl =>
      have hv : Like N (Value.map s l) (.map s m) := Value.Alike.map s hl
      refine .ite (fun _ => .pure hv) fun _ => ?_
      have entries : (Run.lookup (·.entries l) : Run ConvertError _).Alike N
          (Run.lookup (·.entries m)) := .lookup fun _ _ a => a.entries hl
      refine entries.bind fun N₁ es es' later₁ he => ?_
      refine (alike_convertEntries hc path he).bind fun N₂ fs fs' later₂ hf => ?_
      refine .of_ordered fun hN => ?_
      rw [sameEntries_of_alike hN (Likened.mono later₂ he) hf]
      have hv' := Likened.mono (later₁.trans later₂) hv
      exact .ite (fun _ => .pure hv') fun _ => .newMap _ hf
    | scalar hv => cases v <;> first | exact .pure (Value.Alike.scalar hv) | cases hv
    | object c hl => exact .pure (Value.Alike.object c hl)
    | array elem hl => exact .pure (Value.Alike.array elem hl)
    | list s hl => exact .pure (Value.Alike.list s hl)
    | set s hl => exact .pure (Value.Alike.set s hl)
  | _ => exact .pure hv

variable (hσ : σ.Uniform)

include hσ in
theorem alike_construct? (required : Ty) (text : String) (deferred : Bool) :
    (construct? σ required text deferred).Alike N (construct? σ required text deferred) := by
  unfold construct?
  split
  · refine .ite (fun _ => .pure .none) fun _ => ?_
    split
    · exact .pure .none
    · rename_i make hmake
      refine (hσ.fromText? hmake N).outcome.bind fun N' x y _ hx => ?_
      cases hx with
      | ok hx => exact .pure (.some hx)
      | error => exact .pure .none
  · exact .pure .none

include hσ in
theorem alike_ruleText (required : Ty) (text : String) (deferred : Bool) :
    (ruleText σ required text deferred).Alike N (ruleText σ required text deferred) := by
  refine (alike_construct? hσ required text deferred).bind fun N' made made' _ hm => ?_
  have unchanged : ∀ s : Bool, Like N' (Ruled.open (.text text) s) (.open (.text text) s) :=
    fun s => Ruled.Alike.open (.scalar rfl) s
  cases hm with
  | some hm => exact .pure (.done hm)
  | none =>
    dsimp only
    split
    · split
      · exact .pure (.done (.scalar rfl))
      · split
        · exact .pure (.open (.scalar rfl) true)
        · exact .pure (unchanged true)
    · exact .pure (unchanged true)

include hσ in
theorem alike_ruleScalar (required : Ty) (deferred : Bool) (hv : Like N v w) (standard : Bool) :
    (ruleScalar σ required deferred v standard).Alike N
      (ruleScalar σ required deferred w standard) := by
  unfold ruleScalar
  rw [Value.Alike.isPrimitive hv]
  refine .ite (fun _ => ?_) fun _ => ?_
  · refine (alike_written hv).bind fun N' text text' _ same => .pure ?_
    obtain rfl : text = text' := same
    exact .done (.scalar rfl)
  · cases hv with
    | scalar hv =>
      split
      · exact .ite (fun _ => .pure (.open (.scalar rfl) standard)) fun _ =>
          alike_ruleText hσ required _ deferred
      · split
        · split
          · exact .pure (.open (.scalar rfl) true)
          · exact .throw (.overflow _)
        · exact .pure (.open (.scalar rfl) standard)
      · exact .pure (.open (.scalar hv) standard)
    | object c hl => exact .pure (.open (.object c hl) standard)
    | array elem hl => exact .pure (.open (.array elem hl) standard)
    | list s hl => exact .pure (.open (.list s hl) standard)
    | set s hl => exact .pure (.open (.set s hl) standard)
    | map s hl => exact .pure (.open (.map s hl) standard)

theorem alike_ruleContainer (hc : contents.Uniform) (hv : Like N v w) :
    (S.ruleContainer σ required contents path v).Alike N
      (S.ruleContainer σ required contents path w) := by
  have collection :
      ((S.toCollection σ required contents path v) >>= fun x => pure (x, true)).Alike N
      ((S.toCollection σ required contents path w) >>= fun x => pure (x, true)) :=
    (alike_toCollection hc hv).bind fun _ _ _ _ hx => .pure ⟨hx, rfl⟩
  have map : ((S.toMap σ required contents path v) >>= fun x => pure (x, true)).Alike N
      ((S.toMap σ required contents path w) >>= fun x => pure (x, true)) :=
    (alike_toMap hc hv).bind fun _ _ _ _ hx => .pure ⟨hx, rfl⟩
  cases hv with
  | scalar hv => cases v <;> first | exact .pure ⟨.scalar hv, rfl⟩ | cases hv
  | object c hl => exact .pure ⟨.object c hl, rfl⟩
  | array elem hl => exact .pure ⟨.array elem hl, rfl⟩
  | list | set => exact collection
  | map => exact map

theorem alike_soleElement (hv : Like N v w) (standard : Bool) :
    (soleElement v standard).Alike N (soleElement w standard) := by
  cases hv with
  | scalar hv => cases v <;> first | exact .pure ⟨.scalar hv, rfl⟩ | cases hv
  | object c hl => exact .pure ⟨.object c hl, rfl⟩
  | list s hl => exact .pure ⟨.list s hl, rfl⟩
  | set s hl => exact .pure ⟨.set s hl, rfl⟩
  | map s hl => exact .pure ⟨.map s hl, rfl⟩
  | array elem hl =>
    refine (Schema.alike_items hl).bind fun N' items items' later hi => ?_
    have whole : Like N' (Value.array elem _) (.array elem _) :=
      Likened.mono later (Value.Alike.array elem hl)
    cases hi with
    | nil => exact .pure ⟨whole, rfl⟩
    | cons hx hi =>
      cases hi with
      | nil => exact .pure ⟨hx, rfl⟩
      | cons => exact .pure ⟨whole, rfl⟩

include hσ in
theorem alike_rules (hc : contents.Uniform) (deferred : Bool) (hv : Like N v w) :
    (S.rules σ required contents path deferred v).Alike N
      (S.rules σ required contents path deferred w) := by
  unfold rules
  rw [Value.Alike.isNull hv]
  refine .ite (fun _ => .pure (.open hv false)) fun _ => ?_
  refine .ite (fun _ => .pure (.done hv)) fun _ => ?_
  split
  · refine (alike_splitIf _ hv).bind fun N₁ given given' _ hg => ?_
    exact (alike_toArray hc _ hg).bind fun _ _ _ _ hx => .pure (.done hx)
  · refine (alike_ruleContainer hc hv).bind fun N₁ current current' _ hcurrent => ?_
    obtain ⟨x, standard⟩ := current
    obtain ⟨x', standard'⟩ := current'
    obtain ⟨hx, rfl⟩ := hcurrent
    refine (alike_soleElement hx _).bind fun N₂ current current' _ hcurrent => ?_
    obtain ⟨y, standard⟩ := current
    obtain ⟨y', standard'⟩ := current'
    obtain ⟨hy, rfl⟩ := hcurrent
    exact alike_ruleScalar hσ required deferred hy _

theorem alike_checked (hS : S.Uniform σ) {given given' : Value} (hg : Like N given given')
    (converter : Option Converter) {deferred deferred' : Option ConversionError}
    (hd : Like N deferred deferred') (hv : Like N v w) (standard : Bool) :
    (S.checked σ required path given converter deferred v standard).Alike N
      (S.checked σ required path given' converter deferred' w standard) := by
  unfold checked
  rw [Schema.accepts_of_alike hv, Schema.typeName_of_alike hv]
  refine .ite (fun _ => ?_) fun _ => ?_
  · cases hd with
    | none => exact .pure hv
    | some he => exact .ite (fun _ => .throw (.conversion he)) fun _ => .pure hv
  · cases hd with
    | some he => exact .throw (.conversion he)
    | none =>
      refine (alike_serve hS hg).bind fun N' served served' later hs => ?_
      cases hs with
      | converted hx => exact .pure hx
      | failed he => exact .throw (.conversion he)
      | unable => exact .throw (.conversion (.mk _ _ _ (Likened.mono later hg)))

include hσ in
theorem alike_withoutService (hS : S.Uniform σ) (hc : contents.Uniform) (hv : Like N v w)
    {deferred deferred' : Option ConversionError} (hd : Like N deferred deferred') :
    (S.withoutService σ required contents path v deferred).Alike N
      (S.withoutService σ required contents path w deferred') := by
  have some_iff : deferred'.isSome = deferred.isSome := by cases hd <;> rfl
  refine (alike_applied hS hv).bind fun N₁ applied applied' later₁ ha => ?_
  obtain ⟨c, current⟩ := applied
  obtain ⟨c', current'⟩ := applied'
  obtain ⟨rfl, hcurrent⟩ := ha
  dsimp only
  rw [some_iff]
  refine (alike_rules hσ hc _ hcurrent).bind fun N₂ ruled ruled' later₂ hr => ?_
  have later := later₁.trans later₂
  cases hr with
  | done hx => exact .pure hx
  | «open» hx standard =>
    exact alike_checked hS (Likened.mono later hv) _ (Likened.mono later hd) hx standard

include hσ in
theorem uniform_step (hS : S.Uniform σ) (hc : contents.Uniform) (required : Ty) :
    (S.step σ required contents).Uniform := by
  intro N path v w hv
  refine (alike_ask hS hv).bind fun N' served served' later hs => ?_
  cases hs with
  | converted hx => exact .pure hx
  | failed he => exact alike_withoutService hσ hS hc (Likened.mono later hv) (.some he)
  | unable => exact alike_withoutService hσ hS hc (Likened.mono later hv) .none

include hσ in
theorem uniform_contents (hS : S.Uniform σ) (t : Ty) : (S.contents σ t).Uniform := by
  induction t with
  | array e ih | list s e ih | set s e ih =>
    exact ⟨uniform_step hσ hS ih e, uniform_step hσ hS ih e⟩
  | map s k e ihk ihe => exact ⟨uniform_step hσ hS ihe e, uniform_step hσ hS ihk k⟩
  | nullable t ih => exact ih
  | any | bool | char | text | number k | enum e | object c | param name | self =>
    exact ContentConversions.uniform_none

include hσ in
theorem uniform_convert (hS : S.Uniform σ) (required : Ty) :
    Conversion.Uniform (S.convert σ required) :=
  uniform_step hσ hS (uniform_contents hσ hS required) required

end Strategies

end PropertyAccess
