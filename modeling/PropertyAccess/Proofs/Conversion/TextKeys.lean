import PropertyAccess.Proofs.Conversion.Bare

/-! Texts that are converted by the builtin converters, as the keys of maps are. A scalar
that comes of a text does so every time, whatever the graph, unless a class makes different
ones of the same text. What else comes of it is a reference to something new. -/

namespace PropertyAccess

/-- A scalar that comes out once comes out every time. -/
def Run.Settled {ε : Type} (r : Run ε Value) : Prop :=
  ∀ h g v, r.on h = (.ok v, g) → v.loc? = none → ∀ f, ∃ f', r.on f = (.ok v, f')

namespace Run.Settled

variable {ε β : Type} {r : Run ε Value}

theorem of_constant (hr : r.Constant) : r.Settled := by
  obtain ⟨result, same⟩ := hr
  intro h g v ran _ f
  have once : result = .ok v := (same h).symm.trans (congrArg Prod.fst ran)
  exact ⟨(r.on f).2, Prod.ext ((same f).trans once) rfl⟩

theorem of_reference (hr : r.Gives fun v => v.loc?.isSome) : r.Settled := by
  intro h g v ran scalar
  have reference : v.loc?.isSome = true := (hr h).of_ok ran
  rw [scalar] at reference
  cases reference

theorem bind {r : Run ε β} {f : β → Run ε Value} {P : β → Prop} (hr : r.Constant) (hp : r.Gives P)
    (hf : ∀ b, P b → (f b).Settled) : (r >>= f).Settled := by
  obtain ⟨result, same⟩ := hr
  have first (h : Heap) : r.on h = (result, (r.on h).2) := Prod.ext (same h) rfl
  cases result with
  | error e =>
    intro h g v ran
    rw [on_bind_of_error (first h)] at ran
    cases ran
  | ok b =>
    intro h g v ran scalar f'
    rw [on_bind_of_ok (first h)] at ran
    rw [on_bind_of_ok (first f')]
    exact hf b ((hp h).of_ok (first h)) _ g v ran scalar _

theorem or_fail {δ : Type} {make : Run δ Value} (hm : make.Settled) {other : Run ε Value}
    (fails : other.Gives fun _ => False) :
    (Run.outcome make >>= fun result =>
      match result with
      | .ok v => Pure.pure v
      | .error _ => other).Settled := by
  intro h g v ran scalar f
  rcases made : make.on h with ⟨result, h₁⟩
  have first : (Run.outcome make : Run ε _).on h = (.ok result, h₁) := by
    rw [on_outcome, made]
  rw [on_bind_of_ok first] at ran
  cases result with
  | error e => exact ((fails h₁).of_ok ran).elim
  | ok w =>
    obtain ⟨rfl, rfl⟩ : w = v ∧ h₁ = g := by
      injection ran with result heap
      exact ⟨Except.ok.inj result, heap⟩
    obtain ⟨f', again⟩ := hm h h₁ w made scalar f
    have second : (Run.outcome make : Run ε _).on f = (.ok (.ok w), f') := by
      rw [on_outcome, again]
    exact ⟨f', by rw [on_bind_of_ok second]; rfl⟩

end Run.Settled

namespace Ty

variable {t : Ty}

theorem isSome_element?_erased : t.erased.element?.isSome = t.element?.isSome := by
  cases t with
  | nullable t => cases t <;> rfl
  | _ => rfl

theorem element?_of_isPrimitive (primitive : t.unwrapped.isPrimitive = true) :
    t.element? = none := by
  unfold element?
  cases unwrapped : t.unwrapped <;> first | rfl | (rw [unwrapped] at primitive; cases primitive)

end Ty

namespace DefaultTable

theorem mem_of_find?_standard {σ : Schema} {required : Ty} {c : Converter}
    (found : standard.find? σ required = some c) : (required.erased, c) ∈ standard.builtins := by
  unfold find? at found
  split at found
  · rename_i d overridden
    cases overridden
  · split at found
    · rename_i d builtin
      exact Option.some.inj found ▸ mem_of_lookup builtin
    · split at found <;> cases found

theorem mem_builtins_standard {t : Ty} {c : Converter} (h : (t, c) ∈ standard.builtins) :
    (t.unwrapped.isPrimitive = true ∧
      ((∃ b, c = .bool b) ∨ (∃ b, c = .char b) ∨ ∃ k b, c = .number k b)) ∨
    (∃ elem, t = .array elem) ∧ (c = .bytes ∨ c = .chars) ∨
    ((∃ s, t = .list s .any) ∨ ∃ s, t = .set s .any) ∧ c = .collection ∨
    (∃ s, t = .map s .any .any) ∧ c = .map := by
  simp only [standard, primitives, containers, List.mem_append, List.mem_cons, List.not_mem_nil,
    or_false, List.mem_flatMap, List.mem_map, Prod.mk.injEq] at h
  rcases h with ((⟨rfl, rfl⟩ | ⟨rfl, rfl⟩ | ⟨rfl, rfl⟩ | ⟨rfl, rfl⟩) |
      ⟨k, -, ⟨rfl, rfl⟩ | ⟨rfl, rfl⟩⟩) |
    (((⟨rfl, rfl⟩ | ⟨rfl, rfl⟩) | ⟨s, -, rfl, rfl⟩) | ⟨s, -, rfl, rfl⟩) | ⟨s, -, rfl, rfl⟩
  · exact .inl ⟨rfl, .inl ⟨_, rfl⟩⟩
  · exact .inl ⟨rfl, .inl ⟨_, rfl⟩⟩
  · exact .inl ⟨rfl, .inr (.inl ⟨_, rfl⟩)⟩
  · exact .inl ⟨rfl, .inr (.inl ⟨_, rfl⟩)⟩
  · exact .inl ⟨rfl, .inr (.inr ⟨_, _, rfl⟩)⟩
  · exact .inl ⟨rfl, .inr (.inr ⟨_, _, rfl⟩)⟩
  · exact .inr (.inl ⟨⟨_, rfl⟩, .inl rfl⟩)
  · exact .inr (.inl ⟨⟨_, rfl⟩, .inr rfl⟩)
  · exact .inr (.inr (.inl ⟨.inl ⟨_, rfl⟩, rfl⟩))
  · exact .inr (.inr (.inl ⟨.inr ⟨_, rfl⟩, rfl⟩))
  · exact .inr (.inr (.inr ⟨⟨_, rfl⟩, rfl⟩))

end DefaultTable

namespace Strategies

variable {σ : Schema} {S : Strategies} {required : Ty} {path : Option String} {s : String}

structure Plain (S : Strategies) : Prop extends Bare S where
  defaults : S.defaults = .standard

theorem Plain.chosen?_eq (hS : S.Plain) :
    S.chosen? σ required path = DefaultTable.standard.find? σ required := by
  rw [chosen?, hS.custom?_eq_none, hS.defaults]

theorem throughValue_text (c : Option Converter) :
    throughValue σ c (.text s) required = pure (c, .text s) := by
  cases c <;> rfl

theorem throughText_none (given : Value) :
    throughText σ given none (.text s) required path = pure (.text s) := by
  have unfolded : throughText σ given none (.text s) required path =
      pure (if required = .text then .text s else .text s) := rfl
  rw [unfolded, ite_self]

theorem throughText_some (given : Value) (c : Converter) :
    throughText σ given (some c) (.text s) required path =
      Run.mapError (failureOf given required path c) (c.fromText σ s required) := rfl

section Scalars

variable {contents : ContentConversions} {v : Value}

theorem ruleContainer_of_scalar (scalar : v.loc? = none) :
    S.ruleContainer σ required contents path v = pure (v, false) := by
  cases v with
  | list | set | map => cases scalar
  | _ => rfl

theorem soleElement_of_scalar (scalar : v.loc? = none) (standard : Bool) :
    soleElement v standard = pure (v, standard) := by
  cases v with
  | array => cases scalar
  | _ => rfl

theorem constant_ruleText (single : ∀ c, required ≠ .object c) (deferred : Bool) :
    (ruleText σ required s deferred).Constant := by
  rw [ruleText, construct?_eq_none single, pure_bind]
  dsimp only
  split
  · refine .ite (.pure _) ?_
    split <;> exact .pure _
  · exact .pure _

structure Settling (required : Ty) (v : Value) : Prop where
  scalar : v.loc? = none
  written : required = .text → v.isPrimitive = false
  read : ∀ c t, required = .object c → v ≠ .text t

theorem constant_ruleScalar (hv : Settling required v) (deferred standard : Bool) :
    (ruleScalar σ required deferred v standard).Constant := by
  have unwritten : ¬ (required = .text && v.isPrimitive) = true := by
    simpa using hv.written
  unfold ruleScalar
  rw [if_neg unwritten]
  split
  · exact .ite (.pure _) (constant_ruleText (fun c object => hv.read c _ object rfl) _)
  · split
    · split
      · exact .pure _
      · exact .throw _
    · exact .pure _
  · exact .pure _

theorem constant_rules (element : required.element? = none) (hv : Settling required v)
    (deferred : Bool) : (S.rules σ required contents path deferred v).Constant := by
  refine .ite (.pure _) (.ite (.pure _) ?_)
  split
  · rename_i unwrapped
    rw [Ty.element?, unwrapped] at element
    cases element
  · rw [ruleContainer_of_scalar hv.scalar, pure_bind]
    dsimp only
    rw [soleElement_of_scalar hv.scalar, pure_bind]
    exact constant_ruleScalar hv deferred _

theorem Bare.constant_checked (hS : S.Bare) (given : Value) (converter : Option Converter)
    (standard : Bool) : (S.checked σ required path given converter none v standard).Constant := by
  refine .ite (.pure _) ?_
  simp only [serve, hS.service, pure_bind]
  exact .throw _

/-- The default converter leaves only such scalars. -/
theorem Bare.settled_of_applied (hS : S.Bare) (element : required.element? = none)
    (first : (S.applied σ required path v).Constant)
    (settling : (S.applied σ required path v).Gives fun r => Settling required r.2) :
    (S.withoutService σ required contents path v none).Settled := by
  refine .bind first settling fun r hr => .of_constant ?_
  refine (constant_rules element hr _).bind fun ruled => ?_
  cases ruled with
  | done w => exact .pure w
  | «open» w standard => exact hS.constant_checked v _ standard

end Scalars

theorem find?_object {c : ClassId} : DefaultTable.standard.find? σ (.object c) = none := by
  cases found : DefaultTable.standard.find? σ (.object c) with
  | none => rfl
  | some d =>
    rcases DefaultTable.mem_builtins_standard (DefaultTable.mem_of_find?_standard found) with
      ⟨h, -⟩ | ⟨⟨_, h⟩, -⟩ | ⟨⟨_, h⟩ | ⟨_, h⟩, -⟩ | ⟨⟨_, h⟩, -⟩ <;> cases h

variable (σ path s) in
/-- Where nothing has elements, a builtin converter computes a scalar from a text. -/
theorem computed_throughText (element : required.element? = none) (given : Value) :
    ∃ result : Except ConvertError Value, (∀ v, result = .ok v → v.loc? = none) ∧
      throughText σ given (DefaultTable.standard.find? σ required) (.text s) required path =
        ExceptT.mk (pure result) := by
  cases found : DefaultTable.standard.find? σ required with
  | none =>
    refine ⟨.ok (.text s), fun v hv => ?_, throughText_none given⟩
    exact Except.ok.inj hv ▸ rfl
  | some c =>
    have computed (result : Except ConvertFailure Value)
        (scalar : ∀ v, result = .ok v → v.loc? = none)
        (own : c.fromText σ s required = ExceptT.mk (pure result)) :
        ∃ result : Except ConvertError Value, (∀ v, result = .ok v → v.loc? = none) ∧
          throughText σ given (some c) (.text s) required path = ExceptT.mk (pure result) := by
      refine ⟨result.mapError (failureOf given required path c), fun v hv => ?_, ?_⟩
      · cases result with
        | error e => cases hv
        | ok w => exact scalar v (congrArg Except.ok (Except.ok.inj hv))
      · rw [throughText_some, own]
        cases result <;> rfl
    have nothing : required.erased.element?.isSome = false := by
      rw [Ty.isSome_element?_erased, element]
      rfl
    rcases DefaultTable.mem_builtins_standard (DefaultTable.mem_of_find?_standard found) with
      ⟨-, ⟨b, rfl⟩ | ⟨b, rfl⟩ | ⟨k, b, rfl⟩⟩ | ⟨⟨_, h⟩, -⟩ | ⟨⟨_, h⟩ | ⟨_, h⟩, -⟩ | ⟨⟨_, h⟩, -⟩
    · exact computed _ (fun v => Converter.loc?_of_boolOf) rfl
    · exact computed _ (fun v => Converter.loc?_of_charOf) rfl
    · exact computed _ (fun v => Converter.loc?_of_numberOf) rfl
    all_goals
      rw [h] at nothing
      cases nothing

section Texts

variable (hS : S.Plain)
include hS

theorem Plain.applied_text (element : required.element? = none)
    (misfit : σ.accepts required (.text s) = false) :
    S.applied σ required path (.text s) = (do
      let result ← throughText σ (.text s) (DefaultTable.standard.find? σ required) (.text s)
        required path
      return (DefaultTable.standard.find? σ required, result)) := by
  simp only [applied, misfit, Bool.and_false, Bool.false_eq_true, if_false, element,
    Option.map_none, Option.getD_none, splitIf, pure_bind, throughValue_text, hS.chosen?_eq]

theorem Plain.settled_object (hσ : ∀ c text make, σ.fromText? c text = some make → make.Settled)
    (c : ClassId) : (S.convert σ (.object c) path (.text s)).Settled := by
  have applied : S.applied σ (.object c) path (.text s) = pure (none, .text s) := by
    rw [hS.applied_text rfl rfl, find?_object, throughText_none, pure_bind]
  rw [hS.toBare.convert_eq, withoutService, applied, pure_bind]
  have refused : (S.checked σ (.object c) path (.text s) none none (.text s) true).Gives
      fun _ => False :=
    fun h => (gives_checked_unserved hS.service _ none true h).mono (fun _ _ hw => by cases hw.2)
      fun _ _ => id
  have ruled : S.rules σ (.object c) (S.contents σ (.object c)) path false (.text s) =
      ruleText σ (.object c) s false := rfl
  simp only [Option.isSome_none, ruled, ruleText, construct?, bind_assoc]
  split
  · exact .of_reference fun h => (refused h).mono (fun _ _ => False.elim) fun _ _ => id
  · split
    · exact .of_reference fun h => (refused h).mono (fun _ _ => False.elim) fun _ _ => id
    · rename_i make made
      have whole := Run.Settled.or_fail (hσ c s make made) refused
      simp only [bind_assoc]
      convert whole using 3 with result
      cases result <;> rfl

/-- Where nothing has elements, what comes of a text is a scalar, the same every time, or
else an instance of the class. -/
theorem Plain.settled_of_single (hσ : ∀ c text make, σ.fromText? c text = some make → make.Settled)
    (element : required.element? = none) : (S.convert σ required path (.text s)).Settled := by
  by_cases object : ∃ c, required = .object c
  · obtain ⟨c, rfl⟩ := object
    exact hS.settled_object hσ c
  have read (v : Value) (c : ClassId) (t : String) (h : required = .object c) : v ≠ .text t :=
    absurd ⟨c, h⟩ object
  rw [hS.toBare.convert_eq]
  cases fits : σ.accepts required (.text s) with
  | true =>
    have applied := applied_of_accepts (hS.custom?_eq_none required path) fits
    refine hS.toBare.settled_of_applied element ?_ ?_ <;> rw [applied]
    · exact .pure _
    · exact .pure ⟨rfl, fun _ => rfl, read _⟩
  | false =>
    obtain ⟨result, scalar, computed⟩ :=
      computed_throughText σ path s element (.text s)
    refine hS.toBare.settled_of_applied element ?_ ?_ <;>
      rw [hS.applied_text element fits, computed]
    · exact (Run.Constant.computed result).bind fun _ => .pure _
    · refine Run.Gives.bind (R := fun v => v.loc? = none) (fun h => ?_) fun v hv =>
        .pure ⟨hv, fun text => ?_, read _⟩
      · cases result with
        | error e => trivial
        | ok v => exact scalar v rfl
      · rw [text] at fits
        cases fits

end Texts

inductive Gathering (h : Heap) : Value → Prop
  | text (s : String) : Gathering h (.text s)
  | made {v : Value} (lasting : v.Lasting) (reference : v.loc?.isSome) : Gathering h v
  | split {elem : Ty} {l : Loc} {vs : List Value} (cell : h.cell? l = some (.items vs))
      (items : ∀ x ∈ vs, x.isNull = false) : Gathering h (.array elem l)

namespace Gathering

variable {h h' : Heap} {v : Value} {ε : Type}

theorem mono (hv : Gathering h v) (hx : h.Extends h') : Gathering h' v := by
  cases hv with
  | text s => exact .text s
  | made lasting reference => exact .made lasting reference
  | split cell items => exact .split (hx.cell? cell) items

theorem isNull_eq (hv : Gathering h v) : v.isNull = false := by
  cases hv with
  | made lasting => exact lasting.1
  | _ => rfl

theorem newArray {elem : Ty} {vs : List Value} (items : ∀ x ∈ vs, x.isNull = false) :
    (Run.newArray elem vs : Run ε Value).Ends h (fun v h' => Gathering h' v) fun _ _ => True :=
  .split (Heap.cell?_alloc h _) items

theorem collectionOf (hv : Gathering h v) :
    (Converter.collectionOf σ v required).Ends h (fun w h' => Gathering h' w)
      fun _ _ => True := by
  unfold Converter.collectionOf
  split
  · exact hv
  · simp only [Run.ends_bind, Run.ends_lookup]
    split
    · exact .made ⟨rfl, fun _ _ other => by cases other⟩ rfl
    · exact .made ⟨rfl, fun _ _ other => by cases other⟩ rfl
    · exact hv

end Gathering

structure Gathers (σ : Schema) (required : Ty) (c : Converter) : Prop where
  fromText : ∀ s h, (c.fromText σ s required).Ends h (fun v h' => Gathering h' v) fun _ _ => True
  fromValue : ∀ v h, Gathering h v → (c.fromValue σ v required).Ends h
    (fun w h' => Gathering h' w ∧ h.Extends h') fun _ h' => h.Extends h'

theorem gathers_of_find? (element : required.element?.isSome) {c : Converter}
    (found : DefaultTable.standard.find? σ required = some c) : Gathers σ required c := by
  have harmless := (harmless_standard σ).defaults c (DefaultTable.mem_of_find? found)
  have gathers (fromText : ∀ s h, (c.fromText σ s required).Ends h (fun v h' => Gathering h' v)
        fun _ _ => True)
      (fromValue : ∀ v h, Gathering h v → (c.fromValue σ v required).Ends h
        (fun w h' => Gathering h' w) fun _ _ => True) : Gathers σ required c :=
    ⟨fromText, fun v h hv => ((fromValue v h hv).and ((harmless.fromValue v required).ends h)).mono
      (fun _ _ => id) fun _ _ => And.right⟩
  rcases DefaultTable.mem_builtins_standard (DefaultTable.mem_of_find?_standard found) with
    ⟨h, -⟩ | ⟨-, rfl | rfl⟩ | ⟨-, rfl⟩ | ⟨-, rfl⟩
  · rw [← Ty.isSome_element?_erased, Ty.element?_of_isPrimitive h] at element
    cases element
  · refine gathers (fun s h => Gathering.newArray fun x hx => ?_) fun v h hv => hv
    obtain ⟨b, -, rfl⟩ := List.mem_map.1 hx
    rfl
  · refine gathers (fun s h => Gathering.newArray fun x hx => ?_) fun v h hv => hv
    obtain ⟨b, -, rfl⟩ := List.mem_map.1 hx
    rfl
  · exact gathers (fun s h => (Gathering.text s).collectionOf) fun v h hv => hv.collectionOf
  · refine gathers (fun s h => trivial) fun v h hv => ?_
    simp only [Converter.map, Converter.mapOf]
    split
    · exact hv
    · split
      · exact .made ⟨rfl, fun _ _ other => by cases other⟩ rfl
      · trivial

section Gather

variable {h : Heap} {v : Value} {c : Option Converter}
  (gathers : ∀ d, c = some d → Gathers σ required d)
include gathers

theorem ends_throughValue_gathering (hv : Gathering h v) :
    (throughValue σ c v required).Ends h
      (fun r h' => Gathering h' r.2 ∧ ∀ d, r.1 = some d → Gathers σ required d)
      fun _ _ => True := by
  unfold throughValue
  split
  · exact ⟨hv, fun d hd => by cases hd⟩
  · rename_i d
    split
    · exact ⟨hv, gathers⟩
    · simp only [Run.ends_bind, Run.ends_outcome]
      refine ((gathers d rfl).fromValue v h hv).mono (fun w h' hw => ?_) fun _ h' hx => ?_
      · split
        · exact ⟨hv.mono hw.2, gathers⟩
        · exact ⟨hw.1, fun d hd => by cases hd⟩
      · exact ⟨hv.mono hx, gathers⟩

theorem ends_throughText_gathering (hv : Gathering h v) (given : Value) :
    (throughText σ given c v required path).Ends h (fun w h' => Gathering h' w)
      fun _ _ => True := by
  simp only [throughText, Run.ends_bind, Run.ends_inspect]
  refine ⟨fun text _ => ?_, fun _ _ => trivial⟩
  cases text with
  | none => exact hv
  | some text =>
    dsimp only
    split
    · rename_i d
      rw [Run.ends_mapError]
      exact (gathers d rfl).fromText text h
    · rw [Run.ends_pure]
      split
      · exact .text _
      · exact hv

end Gather

def Ruled.Reaches : Ruled → Prop
  | .done v => v.loc?.isSome
  | .open v _ => v.isNull = false

section Containers

variable (element : required.element?.isSome) {contents : ContentConversions} {h : Heap} {v : Value}
include element

theorem Plain.ends_applied_gathering (hS : S.Plain) :
    (S.applied σ required path (.text s)).Ends h (fun r h' => Gathering h' r.2)
      fun _ _ => True := by
  unfold applied
  split
  · exact .text s
  · have gathers : ∀ d, S.chosen? σ required path = some d → Gathers σ required d := by
      rw [hS.chosen?_eq]
      exact fun d found => gathers_of_find? element found
    have given (wanted : Bool) : (splitIf wanted (.text s)).Ends h (fun v h' => Gathering h' v)
        fun _ _ => True := by
      unfold splitIf
      dsimp only
      split
      · refine Gathering.newArray fun x hx => ?_
        obtain ⟨t, -, rfl⟩ := List.mem_map.1 hx
        rfl
      · exact .text s
    rw [Run.ends_bind]
    refine (given _).mono (fun v h₁ hv => ?_) fun _ _ => id
    rw [Run.ends_bind]
    refine (ends_throughValue_gathering gathers hv).mono (fun r h₂ hr => ?_) fun _ _ => id
    rw [Run.ends_bind]
    exact (ends_throughText_gathering hr.2 hr.1 _).mono (fun _ _ => id) fun _ _ => id

theorem gives_ruleScalar_container (hv : v.isNull = false) (deferred standard : Bool) :
    (ruleScalar σ required deferred v standard).Gives Ruled.Reaches := by
  have container : required ≠ .text ∧ (∀ c, required ≠ .object c) ∧
      ∀ e, required.unwrapped ≠ .enum e := by
    refine ⟨?_, ?_, fun e unwrapped => ?_⟩
    · rintro rfl
      cases element
    · rintro c rfl
      cases element
    · rw [Ty.element?, unwrapped] at element
      cases element
  unfold ruleScalar
  rw [if_neg (by simp [container.1])]
  split
  · refine .ite (fun _ => .pure hv) fun _ => ?_
    rw [ruleText, construct?_eq_none container.2.1, pure_bind]
    dsimp only
    split
    · exact absurd ‹_› (container.2.2 _)
    · exact .pure rfl
  · split
    · split
      · exact .pure rfl
      · exact .throw _
    · exact .pure hv
  · exact .pure hv

omit element in
theorem ends_soleElement_gathering (hv : Gathering h v) (standard : Bool) :
    (soleElement v standard).Ends h (fun r _ => r.1.isNull = false) fun _ _ => True := by
  cases hv with
  | text s => exact rfl
  | made lasting reference =>
    rw [soleElement_of_lasting lasting]
    exact lasting.1
  | @split elem l vs cell items =>
    have found : h.items l = vs := by
      rw [Heap.items, cell]
    simp only [soleElement, Run.ends_bind, Run.ends_lookup, found]
    split
    · exact items _ List.mem_cons_self
    · rfl

omit element in
theorem ends_ruleContainer_gathering (hv : Gathering h v) :
    (S.ruleContainer σ required contents path v).Ends h (fun r h' => Gathering h' r.1)
      fun _ _ => True := by
  cases hv with
  | text s => exact .text s
  | made lasting reference =>
    refine (gives_ruleContainer lasting h).mono (fun r _ hr => ?_) fun _ _ => id
    rcases hr with same | ⟨lasting, reference⟩
    · exact same ▸ .made lasting reference
    · exact .made lasting reference
  | split cell items => exact .split cell items

theorem ends_rules_gathering (hv : Gathering h v) (deferred : Bool) :
    (S.rules σ required contents path deferred v).Ends h (fun r _ => r.Reaches)
      fun _ _ => True := by
  have known : ¬ required.isUnknown = true := by
    cases required <;> first | exact Bool.false_ne_true | cases element
  unfold rules
  rw [if_neg (by simp [hv.isNull_eq]), if_neg known]
  split
  · refine Run.Gives.after (fun given => (gives_toArray _ given).bind fun w hw => .pure ?_) h
    obtain ⟨l, rfl⟩ := hw
    rfl
  · rw [Run.ends_bind]
    refine (ends_ruleContainer_gathering hv).mono (fun r h₁ hr => ?_) fun _ _ => id
    dsimp only
    rw [Run.ends_bind]
    refine (ends_soleElement_gathering hr _).mono (fun r h₂ hr => ?_) fun _ _ => id
    exact gives_ruleScalar_container element hr _ _ h₂

theorem reference_of_accepts (fits : σ.accepts required v = true) (hv : v.isNull = false) :
    v.loc?.isSome := by
  cases required with
  | nullable t => cases t <;> cases v <;> simp_all [Ty.element?, Ty.unwrapped, Schema.accepts,
      Value.loc?, Value.isNull]
  | _ => cases v <;> simp_all [Ty.element?, Ty.unwrapped, Schema.accepts, Value.loc?, Value.isNull]

theorem Plain.gives_reference (hS : S.Plain) :
    (S.convert σ required path (.text s)).Gives fun v => v.loc?.isSome := by
  intro h
  rw [hS.toBare.convert_eq, withoutService, Run.ends_bind]
  refine (hS.ends_applied_gathering element).mono (fun r h₁ hr => ?_) fun _ _ => id
  rw [Run.ends_bind]
  refine (ends_rules_gathering element hr _).mono (fun ruled h₂ hruled => ?_) fun _ _ => id
  cases ruled with
  | done w => exact hruled
  | «open» w standard =>
    refine (gives_checked_unserved hS.service _ _ standard h₂).mono (fun u _ hu => ?_) fun _ _ => id
    rw [hu.1]
    exact reference_of_accepts element hu.2 hruled

end Containers

/-- What a text is converted to, if it is a scalar, is the same every time. -/
theorem Plain.settled_convert (hS : S.Plain)
    (hσ : ∀ c text make, σ.fromText? c text = some make → make.Settled) (required : Ty)
    (path : Option String) (s : String) : (S.convert σ required path (.text s)).Settled := by
  cases element : required.element? with
  | none => exact hS.settled_of_single hσ element
  | some e => exact .of_reference (hS.gives_reference (by rw [element]; rfl))

end Strategies

end PropertyAccess
