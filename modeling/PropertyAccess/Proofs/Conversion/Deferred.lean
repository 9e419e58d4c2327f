import PropertyAccess.Conversion.Strategy
import PropertyAccess.Proofs.Conversion.Arrays
import PropertyAccess.Proofs.Conversion.Written

/-! A service that fails. Its failure is kept while the default converter and the rules are
tried as if there were no service. It comes out in the end where these make no instance,
and in two more cases: where a class would make one from a text, which the failure rules
out, and where neither a default converter nor a rule had to do with the value. A failure
of the default converter itself goes before it. -/

namespace PropertyAccess

namespace Strategies

variable {σ : Schema} {S : Strategies} {required : Ty} {path : Option String}
  {contents : ContentConversions} {v : Value} {h g : Heap}

/-- What the converters and the rules come to where nothing has contents, with the
converter that was chosen. -/
def ruled (σ : Schema) (S : Strategies) (required : Ty) (path : Option String)
    (deferred : Bool) (v : Value) : Run ConvertError (Option Converter × Ruled) := do
  let (converter, current) ← S.applied σ required path v
  let r ← S.rules σ required .none path deferred current
  return (converter, r)

def settled (σ : Schema) (S : Strategies) (required : Ty) (path : Option String) (v : Value)
    (deferred : Option ConversionError) : Option Converter × Ruled → Run ConvertError Value
  | (_, .done w) => return w
  | (converter, .open w standard) => S.checked σ required path v converter deferred w standard

/-- The class that is required made the result from a text. -/
def Constructed (σ : Schema) (S : Strategies) (required : Ty) (path : Option String) (v : Value)
    (h : Heap) : Prop :=
  ∃ c converter w h', required = .object c ∧
    (S.ruled σ required path false v).on h = (.ok (converter, .done w), h')

/-- Something is known of the required type, and the value is one of it, but neither a
default converter nor a rule had to do with that. -/
def Untouched (σ : Schema) (S : Strategies) (required : Ty) (path : Option String) (v : Value)
    (h : Heap) : Prop :=
  required.isUnknown = false ∧ ∃ w h', σ.accepts required w = true ∧
    (S.ruled σ required path false v).on h = (.ok (none, .open w false), h')

/-- The result without a service is given up for the failure of the service. -/
def Forgone (σ : Schema) (S : Strategies) (required : Ty) (path : Option String) (v : Value)
    (h : Heap) : Prop :=
  S.Constructed σ required path v h ∨ S.Untouched σ required path v h

def unserved (S : Strategies) : Strategies := { S with service := none }

theorem ruleContainer_of_element?_eq_none (scalar : required.element? = none) (v : Value) :
    S.ruleContainer σ required contents path v =
      pure (v, match v with | .list _ _ | .set _ _ | .map _ _ => true | _ => false) := by
  have collection (given : Value) :
      S.toCollection σ required contents path given = pure given := by
    simp [toCollection, scalar]
  have map (given : Value) : S.toMap σ required contents path given = pure given := by
    unfold toMap
    split
    · rename_i unwrapped
      simp [Ty.element?, unwrapped] at scalar
    · rfl
  cases v <;> simp [ruleContainer, collection, map]

theorem rules_of_element?_eq_none (scalar : required.element? = none) (deferred : Bool)
    (v : Value) :
    S.rules σ required contents path deferred v =
      S.rules σ required .none path deferred v := by
  have unwrapped (elem : Ty) : required.unwrapped ≠ .array elem := by
    intro array
    simp [Ty.element?, array] at scalar
  unfold rules
  simp only [ruleContainer_of_element?_eq_none scalar]

theorem withoutService_eq (scalar : required.element? = none) (deferred : Option ConversionError) :
    S.withoutService σ required contents path v deferred =
      S.ruled σ required path deferred.isSome v >>= S.settled σ required path v deferred := by
  have rules (current : Value) : S.rules σ required contents path deferred.isSome current =
      S.rules σ required .none path deferred.isSome current :=
    rules_of_element?_eq_none scalar _ current
  simp only [withoutService, ruled, bind_assoc, pure_bind, rules]
  refine bind_congr fun chosen => bind_congr fun r => ?_
  cases r <;> rfl

def Withheld (required : Ty) (a b : Ruled) : Prop :=
  ∃ c s, required = .object c ∧ a = .open (.text s) true ∧
    (b = .open (.text s) true ∨ ∃ w, b = .done w)

theorem ends_construct? (text : String) (deferred : Bool) :
    (construct? σ required text deferred).Ends h (fun _ _ => True) (fun _ _ => False) := by
  unfold construct?
  split
  · split
    · trivial
    · split
      · trivial
      · rename_i make _
        simp only [Run.ends_bind, Run.ends_outcome]
        exact (Run.ends_on make h).mono (fun _ _ _ => trivial) fun _ _ _ => trivial
  · trivial

theorem agree_ruleText (text : String) :
    (ruleText σ required text true).Agree (ruleText σ required text false) h
      (Withheld required) := by
  cases required with
  | object c =>
    have withheld : (ruleText σ (.object c) text true).on h =
        (.ok (.open (.text text) true), h) := by
      simp only [ruleText, construct?, Bool.true_or, if_true, pure_bind]
      rfl
    have tried : (ruleText σ (.object c) text false).Ends h
        (fun b _ => b = .open (.text text) true ∨ ∃ w, b = .done w) (fun _ _ => False) := by
      simp only [ruleText, Run.ends_bind]
      refine (ends_construct? text false).mono (fun made _ _ => ?_) fun _ _ => id
      cases made with
      | none => exact .inl rfl
      | some w => exact .inr ⟨w, rfl⟩
    rcases ho : (ruleText σ (.object c) text false).on h with ⟨e | b, h'⟩
    · exact (tried.of_error ho).elim
    · exact .inr ⟨_, h, b, h', withheld, ho, c, text, rfl, rfl, tried.of_ok ho⟩
  | _ => exact .of_eq rfl

theorem agree_ruleScalar (v : Value) (standard : Bool) :
    (ruleScalar σ required true v standard).Agree (ruleScalar σ required false v standard) h
      (Withheld required) := by
  unfold ruleScalar
  split
  · exact .of_eq rfl
  · split
    · split
      · exact .of_eq rfl
      · exact agree_ruleText _
    · exact .of_eq rfl
    · exact .of_eq rfl

theorem agree_rules (v : Value) :
    (S.rules σ required contents path true v).Agree (S.rules σ required contents path false v) h
      (Withheld required) := by
  unfold rules
  split
  · exact .of_eq rfl
  · split
    · exact .of_eq rfl
    · split
      · exact .of_eq rfl
      · exact .after _ fun _ _ => .after _ fun _ _ => agree_ruleScalar _ _

theorem agree_ruled (v : Value) :
    (S.ruled σ required path true v).Agree (S.ruled σ required path false v) h
      fun a b => a.1 = b.1 ∧ Withheld required a.2 b.2 :=
  .after _ fun _ _ => (agree_rules _).map _ fun _ _ differ => ⟨rfl, differ⟩

theorem gives_rules_deferred (c : ClassId) (v : Value) :
    (S.rules σ (.object c) contents path true v).Gives fun r => ∀ w, r ≠ .done w := by
  refine .ite (fun _ => .pure (by simp)) fun _ => .ite (fun unknown => by cases unknown) fun _ => ?_
  refine .after fun r => .after fun r => ?_
  unfold ruleScalar
  refine .ite (fun text => by simp at text) fun _ => ?_
  split
  · refine .ite (fun _ => .pure (by simp)) fun _ => ?_
    simp only [ruleText, construct?, Bool.true_or, if_true, pure_bind]
    exact .pure (by simp)
  · exact .pure (by simp)
  · exact .pure (by simp)

theorem gives_ruled_deferred (c : ClassId) (v : Value) :
    (S.ruled σ (.object c) path true v).Gives fun r => ∀ w, r.2 ≠ .done w :=
  .after fun _ => (gives_rules_deferred c _).bind fun _ hr => .pure hr

/-- Numbers that do not fit, converters that fail and texts without end end the conversion at
once. -/
def Prompt : ConvertError → Prop
  | .overflow _ | .endless => True
  | .conversion e => ∃ name message, e.reason = .converterFailed name message

theorem failsAs_throughValue (converter : Option Converter) (current : Value) :
    (throughValue σ converter current required).FailsAs Prompt := by
  unfold throughValue
  split
  · exact .pure _
  · refine .ite (.pure _) ((Run.FailsAs.outcome _).bind fun result => ?_)
    cases result with
    | ok w =>
      by_cases same : w.same current = true
      · simpa only [if_pos same] using .pure _
      · simpa only [if_neg same] using .pure _
    | error e => exact .pure _

theorem prompt_failureOf (given : Value) (c : Converter) (f : ConvertFailure) :
    Prompt (failureOf given required path c f) := by
  cases f with
  | invalid message => exact ⟨c.name, message, rfl⟩
  | overflow e => trivial

theorem failsAs_written (v : Value) : (written σ v).FailsAs Prompt :=
  fun _ => ends_written.2 ⟨fun _ _ => trivial, fun _ => trivial⟩

theorem failsAs_throughText (given : Value) (converter : Option Converter) (current : Value) :
    (throughText σ given converter current required path).FailsAs Prompt := by
  refine Run.FailsAs.bind (.inspect fun h e failed => ?_) fun text => ?_
  · rw [textOf?_error failed]
    trivial
  split
  · exact .pure _
  · split
    · exact .mapError _ (prompt_failureOf given _)
    · exact .pure _

theorem failsAs_applied (v : Value) : (S.applied σ required path v).FailsAs Prompt := by
  refine .ite (.pure _) (Run.FailsAs.bind ?_ fun given => ?_)
  · unfold splitIf
    split
    · exact .ite (.newArray _ _) (.pure _)
    · exact .pure _
  · exact (failsAs_throughValue _ _).bind fun active =>
      (failsAs_throughText v _ _).bind fun _ => .pure _

theorem failsAs_ruleText (text : String) (deferred : Bool) :
    (ruleText σ required text deferred).FailsAs Prompt := by
  have made : (construct? σ required text deferred).FailsAs Prompt :=
    fun h => (ends_construct? text deferred).mono (fun _ _ _ => trivial) fun _ _ => False.elim
  refine made.bind fun made => ?_
  split
  · exact .pure _
  · split
    · dsimp only
      split
      · exact .pure _
      · split
        · exact .pure _
        · exact .pure _
    · exact .pure _

theorem failsAs_ruleScalar (deferred : Bool) (v : Value) (standard : Bool) :
    (ruleScalar σ required deferred v standard).FailsAs Prompt := by
  refine .ite (Run.FailsAs.bind (failsAs_written v) fun _ => .pure _) ?_
  split
  · exact .ite (.pure _) (failsAs_ruleText _ _)
  · split
    · split
      · exact .pure _
      · exact .throw trivial
    · exact .pure _
  · exact .pure _

theorem failsAs_soleElement (v : Value) (standard : Bool) :
    (soleElement v standard).FailsAs Prompt := by
  unfold soleElement
  split
  · refine (Run.FailsAs.lookup _).bind fun items => ?_
    split
    · exact .pure _
    · exact .pure _
  · exact .pure _

theorem failsAs_rules (scalar : required.element? = none) (deferred : Bool) (v : Value) :
    (S.rules σ required contents path deferred v).FailsAs Prompt := by
  refine .ite (.pure _) (.ite (.pure _) ?_)
  split
  · rename_i unwrapped
    simp [Ty.element?, unwrapped] at scalar
  · rw [ruleContainer_of_element?_eq_none scalar, pure_bind]
    exact (failsAs_soleElement _ _).bind fun _ => failsAs_ruleScalar _ _ _

theorem failsAs_ruled (scalar : required.element? = none) (deferred : Bool) (v : Value) :
    (S.ruled σ required path deferred v).FailsAs Prompt :=
  (failsAs_applied v).bind fun _ => (failsAs_rules scalar _ _).bind fun _ => .pure _

theorem on_checked_deferred (given : Value) (converter : Option Converter) (e : ConversionError)
    (w : Value) (standard : Bool) (known : required.isUnknown = false) :
    (S.checked σ required path given converter (some e) w standard).on h =
      if σ.accepts required w = true ∧ (converter.isSome ∨ standard = true) then (.ok w, h)
      else (.error (.conversion e), h) := by
  unfold checked
  split
  · rename_i accepted
    cases converter <;> cases standard <;> simp [accepted, known] <;> rfl
  · rename_i rejected
    rw [if_neg fun both => rejected both.1]
    rfl

theorem on_checked_unserved (given : Value) (converter : Option Converter)
    (w : Value) (standard : Bool) :
    (S.unserved.checked σ required path given converter none w standard).on h =
      if σ.accepts required w = true then (.ok w, h)
      else (.error (.conversion ⟨given, required, path, match converter with
        | some c => .inappropriate c.name (σ.typeName w)
        | none => .noStrategy⟩), h) := by
  unfold checked
  split
  · rfl
  · rfl

theorem on_convert_unserved (own : S.custom? σ required path = none)
    (scalar : required.element? = none) :
    (S.unserved.convert σ required path v).on h =
      (S.ruled σ required path false v >>= S.unserved.settled σ required path v none).on h := by
  have own' : S.unserved.custom? σ required path = none := own
  rw [convert, step_of_service_eq_none rfl, withoutService_eq scalar]
  rfl

theorem on_convert_of_failed {s : ConversionService} {f : ConvertFailure}
    (service : S.service = some s) (own : S.custom? σ required path = none)
    (scalar : required.element? = none) (there : v.isNull = false)
    (able : s.canConvert σ v.runtimeType required = true)
    (fails : (s.convert σ v v.runtimeType required).on h = (.error f, g)) :
    (S.convert σ required path v).on h =
      (S.ruled σ required path true v >>= S.settled σ required path v
        (some ⟨v, required, path, .serviceFailed f.message⟩)).on g := by
  have asked : (S.ask σ required path v).on h =
      (.ok (.failed ⟨v, required, path, .serviceFailed f.message⟩), g) := by
    have outcome : (Run.outcome (s.convert σ v v.runtimeType required) :
        Run ConvertError _).on h = (.ok (.error f), g) := by
      rw [Run.on_outcome, fails]
    simp only [ask, own, serve, service, there, able, Bool.not_true, Bool.or_false]
    exact Run.on_bind_of_ok outcome _
  rw [convert, step, Run.on_bind_of_ok asked]
  exact congrArg (Run.on · g) (withoutService_eq scalar _)

theorem ruled_of_isUnknown (own : S.custom? σ required path = none)
    (unknown : required.isUnknown = true) (there : v.isNull = false) (deferred : Bool) :
    S.ruled σ required path deferred v = pure (none, .done v) := by
  rw [ruled, applied_of_accepts own (σ.accepts_of_isUnknown unknown v), pure_bind]
  simp [rules, there, unknown]

def Makes (σ : Schema) (c : ClassId) (w : Value) : Prop :=
  σ.isAbstract c = false ∧ ∃ text make g g',
    σ.fromText? c text = some make ∧ make.on g = (.ok w, g')

theorem gives_construct?_makes (c : ClassId) (text : String) :
    (construct? σ (.object c) text false).Gives fun r => ∀ w, r = some w → Makes σ c w := by
  refine .ite (fun _ => .pure (by simp)) fun concrete => ?_
  split
  · exact .pure (by simp)
  · rename_i make declared
    have ran : make.Gives fun w => ∃ g g', make.on g = (.ok w, g') :=
      fun g => (Run.ends_on make g).mono (fun w g' run => ⟨g, g', run⟩) fun _ _ _ => trivial
    refine ran.outcome.bind fun result hresult => ?_
    split
    · refine .pure ?_
      rintro w ⟨⟩
      obtain ⟨g, g', run⟩ := hresult _ rfl
      exact ⟨by simpa using concrete, text, make, g, g', declared, run⟩
    · exact .pure (by simp)

theorem gives_ruled_makes (c : ClassId) (v : Value) :
    (S.ruled σ (.object c) path false v).Gives fun r => ∀ w, r.2 = .done w → Makes σ c w := by
  refine .after fun chosen => Run.Gives.bind (R := fun r => ∀ w, r = .done w → Makes σ c w) ?_
    fun r hr => .pure hr
  refine .ite (fun _ => .pure (by simp)) fun _ => .ite (fun unknown => by cases unknown) fun _ => ?_
  refine .after fun r => .after fun r => ?_
  refine .ite (fun text => by simp at text) fun _ => ?_
  split
  · refine .ite (fun _ => .pure (by simp)) fun _ => ?_
    refine (gives_construct?_makes c _).bind fun made hm => ?_
    split
    · refine .pure ?_
      rintro w ⟨⟩
      exact hm _ rfl
    · exact .pure (by simp)
  · exact .pure (by simp)
  · exact .pure (by simp)

/-- A constructed result is what a constructor of the class gave for a text. -/
theorem Constructed.makes (own : S.custom? σ required path = none)
    (constructed : S.Constructed σ required path v h) :
    ∃ c w h', required = .object c ∧ Makes σ c w ∧
      (S.unserved.convert σ required path v).on h = (.ok w, h') := by
  obtain ⟨c, converter, w, h', rfl, run⟩ := constructed
  refine ⟨c, w, h', rfl, (gives_ruled_makes c v h).of_ok run w rfl, ?_⟩
  rw [on_convert_unserved own rfl, Run.on_bind_of_ok run]
  rfl

theorem gives_ruleScalar_untouched (v : Value) (standard : Bool) :
    (ruleScalar σ required false v standard).Gives fun r =>
      ∀ w, r = .open w false → w = v ∧ standard = false := by
  have text (s : String) : (ruleText σ required s false).Gives fun r =>
      ∀ w, r = .open w false → w = .text s ∧ standard = false := by
    refine .after fun made => ?_
    split
    · exact .pure (by simp)
    · split
      · dsimp only
        split
        · exact .pure (by simp)
        · split
          · exact .pure (by simp)
          · exact .pure (by simp)
      · exact .pure (by simp)
  have left (v : Value) : (pure (.open v standard) : Run ConvertError Ruled).Gives fun r =>
      ∀ w, r = .open w false → w = v ∧ standard = false := by
    refine .pure ?_
    rintro w ⟨⟩
    exact ⟨rfl, rfl⟩
  refine .ite (fun _ => .after fun _ => .pure (by simp)) fun _ => ?_
  split
  · exact .ite (fun _ => left _) fun _ => text _
  · split
    · split
      · exact .pure (by simp)
      · exact .throw _
    · exact left _
  · exact left _

theorem gives_rules_untouched (scalar : required.element? = none) (v : Value) :
    (S.rules σ required contents path false v).Gives fun r => ∀ w, r = .open w false → w = v := by
  refine .ite (fun _ => .pure (by simp +contextual)) fun _ => ?_
  refine .ite (fun _ => .pure (by simp)) fun _ => ?_
  split
  · exact .after fun _ => .after fun _ => .pure (by simp)
  · rw [ruleContainer_of_element?_eq_none scalar, pure_bind]
    refine Run.Gives.bind (R := fun r => r.2 = false → r.1 = v) ?_ fun r hr => ?_
    · unfold soleElement
      split
      · refine .after fun items => ?_
        split
        · exact .pure (by simp)
        · exact .pure (by simp)
      · exact .pure (by simp)
    · intro h
      refine (gives_ruleScalar_untouched r.1 r.2 h).mono (fun r' _ hr' w hw => ?_) fun _ _ => id
      obtain ⟨rfl, standard⟩ := hr' w hw
      exact hr standard

/-- Without a default converter a value is left alone, except that texts are joined where a
text is required. -/
theorem gives_applied_none (scalar : required.element? = none) (v : Value) :
    (S.applied σ required path v).Gives fun r => r.1 = none →
      r.2 = v ∨ required = .text ∧ ∃ l, v = .array .text l := by
  refine .ite (fun _ => .pure (by simp)) fun _ => ?_
  have whole : (required.isCollection && (required.element?.map Ty.isEnum).getD false) = false := by
    simp [scalar]
  have kept : splitIf false v = (pure v : Run ConvertError Value) := by
    cases v <;> rfl
  rw [whole, kept, pure_bind]
  cases chosen : S.chosen? σ required path with
  | some c => exact .after fun _ => .after fun _ => .pure (by simp)
  | none =>
    rw [throughValue, pure_bind]
    refine Run.Gives.bind (R := fun w => w = v ∨ required = .text ∧ ∃ l, v = .array .text l) ?_
      fun w hw => .pure fun _ => hw
    refine Run.Gives.bind (.inspect fun h text found => (?_ : ∀ s, text = some s →
      v = .text s ∨ ∃ l, v = .array .text l)) fun text known => ?_
    · rintro s rfl
      exact textOf?_some found
    split
    · exact .pure (.inl rfl)
    · rename_i text
      refine .pure ?_
      by_cases wanted : required = .text
      · rcases known text rfl with rfl | joined
        · exact .inl (if_pos wanted)
        · exact .inr ⟨wanted, joined⟩
      · exact .inl (if_neg wanted)

/-- An untouched value is an instance by itself, or else some texts that are joined where a
text is required. -/
theorem Untouched.accepts (scalar : required.element? = none)
    (untouched : S.Untouched σ required path v h) :
    σ.accepts required v = true ∨ required = .text ∧ ∃ l, v = .array .text l := by
  obtain ⟨-, w, h', accepted, run⟩ := untouched
  have gives : (S.ruled σ required path false v).Gives fun r => r.1 = none →
      ∀ w, r.2 = .open w false → w = v ∨ required = .text ∧ ∃ l, v = .array .text l := by
    refine (gives_applied_none scalar v).bind fun chosen hchosen => ?_
    refine (gives_rules_untouched scalar chosen.2).bind fun r hr => .pure fun no w hw => ?_
    exact (hchosen no).imp_left fun same => (hr w hw).trans same
  rcases (gives h).of_ok run rfl w rfl with rfl | joined
  · exact .inl accepted
  · exact .inr joined

/-- How the conversion without a service ends, and then the one with the failure of a
service in the background. -/
inductive Fallback (forgone : Prop) (failure : ConversionError) :
    Except ConvertError Value × Heap → Except ConvertError Value × Heap → Prop
  | prompt {e : ConvertError} {h : Heap} (early : Prompt e) :
    Fallback forgone failure (.error e, h) (.error e, h)
  | kept {w : Value} {h : Heap} (stands : ¬forgone) :
    Fallback forgone failure (.ok w, h) (.ok w, h)
  | forgone {w : Value} {h g : Heap} (falls : forgone) :
    Fallback forgone failure (.ok w, h) (.error (.conversion failure), g)
  | missed {e : ConversionError} {h g : Heap} (late : ¬Prompt (.conversion e)) :
    Fallback forgone failure (.error (.conversion e), h) (.error (.conversion failure), g)

theorem fallback_checked (known : required.isUnknown = false) {converter : Option Converter}
    {w : Value} {standard : Bool} {h' : Heap} (failure : ConversionError)
    (alone : (S.ruled σ required path false v).on h = (.ok (converter, .open w standard), h')) :
    Fallback (S.Forgone σ required path v h) failure
      ((S.unserved.checked σ required path v converter none w standard).on h')
      ((S.checked σ required path v converter (some failure) w standard).on h') := by
  rw [on_checked_unserved, on_checked_deferred _ _ _ _ _ known]
  by_cases accepted : σ.accepts required w = true
  · by_cases touched : converter.isSome ∨ standard = true
    · rw [if_pos accepted, if_pos ⟨accepted, touched⟩]
      refine .kept ?_
      rintro (⟨c, _, _, _, -, run⟩ | ⟨-, _, _, -, run⟩)
      · rw [run] at alone
        cases alone
      · rw [run] at alone
        cases alone
        simp at touched
    · rw [if_pos accepted, if_neg fun both => touched both.2]
      refine .forgone (.inr ⟨known, w, h', accepted, ?_⟩)
      simp only [not_or, Bool.not_eq_true, Option.isSome_eq_false_iff, Option.isNone_iff_eq_none]
        at touched
      rw [alone, touched.1, touched.2]
  · rw [if_neg accepted, if_neg fun both => accepted both.1]
    refine .missed ?_
    rintro ⟨name, message, hr⟩
    cases converter <;> cases hr

theorem fallback_of_failed {s : ConversionService} {f : ConvertFailure}
    (service : S.service = some s) (own : S.custom? σ required path = none)
    (scalar : required.element? = none) (there : v.isNull = false)
    (able : s.canConvert σ v.runtimeType required = true)
    (fails : (s.convert σ v v.runtimeType required).on h = (.error f, g)) :
    Fallback (S.Forgone σ required path v g) ⟨v, required, path, .serviceFailed f.message⟩
      ((S.unserved.convert σ required path v).on g) ((S.convert σ required path v).on h) := by
  rw [on_convert_unserved own scalar, on_convert_of_failed service own scalar there able fails]
  cases known : required.isUnknown with
  | true =>
    have run := ruled_of_isUnknown own known there
    rw [run, run]
    refine .kept ?_
    rintro (⟨c, _, _, _, rfl, -⟩ | ⟨known', -⟩)
    · cases known
    · rw [known] at known'
      cases known'
  | false =>
    have agree : (S.ruled σ required path true v).Agree (S.ruled σ required path false v) g
        fun a b => a.1 = b.1 ∧ Withheld required a.2 b.2 := agree_ruled v
    rcases agree with
      same | ⟨⟨converter, a⟩, g₁, ⟨_, b⟩, g₂, asked, alone, rfl, c, text, rfl, rfl, withheld⟩
    · rcases alone : (S.ruled σ required path false v).on g with ⟨e | ⟨converter, r⟩, g₁⟩
      · rw [Run.on_bind_of_error alone, Run.on_bind_of_error (same.trans alone)]
        exact .prompt ((failsAs_ruled scalar false v g).of_error alone)
      · rw [Run.on_bind_of_ok alone, Run.on_bind_of_ok (same.trans alone)]
        cases r with
        | done w =>
          refine .kept ?_
          rintro (⟨c, _, _, _, rfl, -⟩ | ⟨-, _, _, -, run⟩)
          · exact (gives_ruled_deferred c v g).of_ok (same.trans alone) w rfl
          · rw [run] at alone
            cases alone
        | «open» w standard => exact fallback_checked known _ alone
    · rw [Run.on_bind_of_ok alone, Run.on_bind_of_ok asked]
      have refused : ¬σ.accepts (.object c) (.text text) = true := by simp [Schema.accepts]
      simp only [settled]
      rw [on_checked_deferred _ _ _ _ _ known, if_neg fun both => refused both.1]
      rcases withheld with rfl | ⟨w, rfl⟩
      · rw [on_checked_unserved, if_neg refused]
        refine .missed ?_
        rintro ⟨name, message, hr⟩
        cases converter <;> cases hr
      · exact .forgone (.inl ⟨c, converter, w, g₂, rfl, alone⟩)

/-- A service that fails is as if it were not there, if nothing is required to have contents
and no registered converter applies. What was made without it is made all the same, unless
it is forgone; what was refused is now refused with the message of the service, unless the
default converter or a number had failed before. The conversion without the service starts
from the graph in which the service left it. -/
theorem convert_of_failed_service {s : ConversionService} {f : ConvertFailure}
    (service : S.service = some s) (own : S.custom? σ required path = none)
    (scalar : required.element? = none) (there : v.isNull = false)
    (able : s.canConvert σ v.runtimeType required = true)
    (fails : (s.convert σ v v.runtimeType required).on h = (.error f, g)) :
    (∀ w g', (S.unserved.convert σ required path v).on g = (.ok w, g') →
      (S.convert σ required path v).on h = (.ok w, g') ∧ ¬S.Forgone σ required path v g ∨
      ((S.convert σ required path v).on h).1 =
          .error (.conversion ⟨v, required, path, .serviceFailed f.message⟩) ∧
        S.Forgone σ required path v g) ∧
    (∀ e g', (S.unserved.convert σ required path v).on g = (.error (.conversion e), g') →
      match e.reason with
      | .converterFailed _ _ => (S.convert σ required path v).on h = (.error (.conversion e), g')
      | _ => ((S.convert σ required path v).on h).1 =
          .error (.conversion ⟨v, required, path, .serviceFailed f.message⟩)) ∧
    ∀ e g', (S.unserved.convert σ required path v).on g = (.error (.overflow e), g') →
      (S.convert σ required path v).on h = (.error (.overflow e), g') := by
  have fallback := fallback_of_failed service own scalar there able fails
  refine ⟨fun w g' alone => ?_, fun e g' alone => ?_, fun e g' alone => ?_⟩
  · rw [alone] at fallback
    generalize (S.convert σ required path v).on h = asked at fallback ⊢
    cases fallback with
    | kept stands => exact .inl ⟨rfl, stands⟩
    | forgone falls => exact .inr ⟨rfl, falls⟩
  · rw [alone] at fallback
    generalize (S.convert σ required path v).on h = asked at fallback ⊢
    cases fallback with
    | prompt early =>
      obtain ⟨name, message, reason⟩ := early
      rw [reason]
    | missed late =>
      split
      · rename_i reason
        exact (late ⟨_, _, reason⟩).elim
      · rfl
  · rw [alone] at fallback
    generalize (S.convert σ required path v).on h = asked at fallback ⊢
    cases fallback
    rfl

end Strategies

/-! A service that takes everything on and fails, beside the builtin converters. -/

namespace Refusal

def service : ConversionService := ⟨fun _ _ _ => true, fun _ _ _ _ => throw (.invalid "no")⟩

def strategies : Strategies := ⟨.empty, .standard, some service⟩

end Refusal

namespace Strategies

theorem convert_of_failed_service_number :
    (Refusal.strategies.convert .empty (.number (.int .i32)) none (.text "12")).on .empty =
      (.ok (.number (.int .i32 12 (by decide))), .empty) := by
  have alone : (Refusal.strategies.unserved.convert .empty (.number (.int .i32)) none
      (.text "12")).on .empty = (.ok (.number (.int .i32 12 (by decide))), .empty) := by
    decide +kernel
  have asked : ((Refusal.strategies.convert .empty (.number (.int .i32)) none
      (.text "12")).on .empty).1.toBool = true := by decide +kernel
  rcases (convert_of_failed_service rfl rfl rfl rfl rfl rfl).1 _ _ alone with
    ⟨same, -⟩ | ⟨failed, -⟩
  · exact same
  · rw [failed] at asked
    cases asked

/-- An instance of the required type is refused after the service has failed, though it
is left as it is where there is no service. -/
theorem instance_refused :
    Refusal.strategies.custom? .empty .bool none = none ∧
      Refusal.service.canConvert .empty .bool .bool = true ∧
      (Refusal.strategies.unserved.convert .empty .bool none (.bool true)).on .empty =
        (.ok (.bool true), .empty) ∧
      (Refusal.strategies.convert .empty .bool none (.bool true)).on .empty =
        (.error (.conversion ⟨.bool true, .bool, none, .serviceFailed "no"⟩), .empty) := by
  refine ⟨rfl, rfl, ?_, ?_⟩ <;> decide +kernel

end Strategies

end PropertyAccess
