import PropertyAccess.Conversion.Strategy
import PropertyAccess.Proofs.Graph.Ends
import PropertyAccess.Proofs.Schema.Accepts

/-! A conversion that succeeds gives an instance of the required type. There are many
ways out of it, and not all go through the last check. What a rule gives by itself is an
instance by its making: an array has the component type that is required, a constant or
null is taken by an enumeration. What the service or a constructor from text gives is one
if they give what they are asked for. What a registered or a default converter gives never
counts unchecked. -/

namespace PropertyAccess

/-- What the service makes of a value is an instance of the type that was asked for. -/
def ConversionService.GivesInstances (σ : Schema) (s : ConversionService) : Prop :=
  ∀ v source target, (s.convert σ v source target).Gives fun w => σ.accepts target w = true

/-- What a class makes of a text is an instance of the class. -/
def Schema.GivesInstances (σ : Schema) : Prop :=
  ∀ c text make, σ.fromText? c text = some make →
    make.Gives fun w => σ.accepts (.object c) w = true

namespace Strategies

def GivesInstances (σ : Schema) (S : Strategies) : Prop :=
  ∀ s, S.service = some s → s.GivesInstances σ

def Ruled.IsInstance (σ : Schema) (required : Ty) (r : Ruled) : Prop :=
  ∀ w, r = .done w → σ.accepts required w = true

variable {σ : Schema} {S : Strategies} {required : Ty} {path : Option String}
  {contents : ContentConversions}

theorem Ruled.isInstance_done {v : Value} (hv : σ.accepts required v = true) :
    IsInstance σ required (.done v) := by
  rintro w ⟨⟩
  exact hv

theorem Ruled.isInstance_open (v : Value) (standard : Bool) :
    IsInstance σ required (.open v standard) := by
  rintro w ⟨⟩

theorem gives_serve (hS : S.GivesInstances σ) (v : Value) :
    (S.serve σ required path v).Gives fun r =>
      ∀ w, r = .converted w → σ.accepts required w = true := by
  unfold serve
  split
  · exact .pure (by simp)
  · rename_i s hs
    refine .ite (fun _ => .pure (by simp)) fun _ => ?_
    refine (hS s hs v _ required).outcome.bind fun result hresult => ?_
    split
    · refine .pure ?_
      rintro w ⟨⟩
      exact hresult _ rfl
    · exact .pure (by simp)

theorem gives_ask (hS : S.GivesInstances σ) (v : Value) :
    (S.ask σ required path v).Gives fun r =>
      ∀ w, r = .converted w → σ.accepts required w = true :=
  .ite (fun _ => .pure (by simp)) fun _ => gives_serve hS v

theorem gives_newConverted (elem : Ty) (items : List Value) :
    (newConverted elem contents path items).Gives fun w => ∃ l, w = .array elem l :=
  .after fun _ => .after fun l => .pure ⟨l, rfl⟩

theorem gives_toArray (elem : Ty) (v : Value) :
    (S.toArray σ elem contents path v).Gives fun w => ∃ l, w = .array elem l := by
  unfold toArray
  split
  · rename_i e l
    refine .ite (fun same => .pure ⟨l, ?_⟩) fun _ => .after fun _ => gives_newConverted elem _
    simp only [Bool.and_eq_true, decide_eq_true_eq] at same
    rw [same.1]
  · exact .after fun _ => gives_newConverted elem _
  · exact .after fun _ => gives_newConverted elem _
  · exact gives_newConverted elem _

theorem gives_construct? (hσ : σ.GivesInstances) (text : String) (deferred : Bool) :
    (construct? σ required text deferred).Gives fun r =>
      ∀ w, r = some w → σ.accepts required w = true := by
  unfold construct?
  split
  · rename_i c
    refine .ite (fun _ => .pure (by simp)) fun _ => ?_
    split
    · exact .pure (by simp)
    · rename_i make hmake
      refine (hσ c text make hmake).outcome.bind fun result hresult => ?_
      split
      · refine .pure ?_
        rintro w ⟨⟩
        exact hresult _ rfl
      · exact .pure (by simp)
  · exact .pure (by simp)

theorem gives_ruleText (hσ : σ.GivesInstances) (text : String) (deferred : Bool) :
    (ruleText σ required text deferred).Gives (Ruled.IsInstance σ required) := by
  refine (gives_construct? hσ text deferred).bind fun made hmade => ?_
  split
  · exact .pure (Ruled.isInstance_done (hmade _ rfl))
  · split
    · rename_i e enumeration
      dsimp only
      split
      · exact .pure (Ruled.isInstance_done (σ.accepts_null_of_unwrapped enumeration))
      · split
        · exact .pure (Ruled.isInstance_open _ _)
        · exact .pure (Ruled.isInstance_open _ _)
    · exact .pure (Ruled.isInstance_open _ _)

theorem gives_ruleScalar (hσ : σ.GivesInstances) (deferred : Bool) (v : Value)
    (standard : Bool) :
    (ruleScalar σ required deferred v standard).Gives (Ruled.IsInstance σ required) := by
  refine .ite (fun text => .after fun _ => .pure ?_) fun _ => ?_
  · simp only [Bool.and_eq_true, decide_eq_true_eq] at text
    rw [text.1]
    exact Ruled.isInstance_done rfl
  · split
    · exact .ite (fun _ => .pure (Ruled.isInstance_open _ _)) fun _ => gives_ruleText hσ _ _
    · split
      · split
        · exact .pure (Ruled.isInstance_open _ _)
        · exact .throw _
      · exact .pure (Ruled.isInstance_open _ _)
    · exact .pure (Ruled.isInstance_open _ _)

theorem gives_rules (hσ : σ.GivesInstances) (deferred : Bool) (v : Value) :
    (S.rules σ required contents path deferred v).Gives (Ruled.IsInstance σ required) := by
  refine .ite (fun _ => .pure (Ruled.isInstance_open _ _)) fun _ => ?_
  refine .ite (fun unknown => .pure ?_) fun _ => ?_
  · exact Ruled.isInstance_done (σ.accepts_of_isUnknown unknown v)
  · split
    · rename_i elem array
      refine .after fun given => (gives_toArray elem given).bind fun w hw => .pure ?_
      obtain ⟨l, rfl⟩ := hw
      exact Ruled.isInstance_done (σ.accepts_array_self array l)
    · exact .after fun _ => .after fun _ => gives_ruleScalar hσ _ _ _

theorem gives_checked (hS : S.GivesInstances σ) (given : Value) (converter : Option Converter)
    (deferred : Option ConversionError) (v : Value) (standard : Bool) :
    (S.checked σ required path given converter deferred v standard).Gives fun w =>
      σ.accepts required w = true := by
  refine .ite (fun accepted => ?_) fun _ => ?_
  · split
    · exact .ite (fun _ => .throw _) fun _ => .pure accepted
    · exact .pure accepted
  · split
    · exact .throw _
    · refine (gives_serve hS given).bind fun served hserved => ?_
      split
      · exact .pure (hserved _ rfl)
      · exact .throw _
      · exact .throw _

theorem gives_withoutService (hσ : σ.GivesInstances) (hS : S.GivesInstances σ) (v : Value)
    (deferred : Option ConversionError) :
    (S.withoutService σ required contents path v deferred).Gives fun w =>
      σ.accepts required w = true := by
  refine .after fun applied => (gives_rules hσ _ _).bind fun ruled hruled => ?_
  split
  · exact .pure (hruled _ rfl)
  · exact gives_checked hS _ _ _ _ _

theorem gives_step (hσ : σ.GivesInstances) (hS : S.GivesInstances σ) (required : Ty)
    (contents : ContentConversions) (path : Option String) (v : Value) :
    (S.step σ required contents path v).Gives fun w => σ.accepts required w = true := by
  refine (gives_ask hS v).bind fun served hserved => ?_
  split
  · exact .pure (hserved _ rfl)
  · exact gives_withoutService hσ hS _ _
  · exact gives_withoutService hσ hS _ _

/-- For all registrations and default converters, of any results: what a conversion gives
is accepted by the required type. -/
theorem accepts_of_convert (hσ : σ.GivesInstances) (hS : S.GivesInstances σ) {v w : Value}
    {h h' : Heap} (ok : (S.convert σ required path v).on h = (.ok w, h')) :
    σ.accepts required w = true :=
  (gives_step hσ hS required _ path v h).of_ok ok

end Strategies

/-! Cards that are made from their names, a service that answers questions with yes, and
a converter that gives a text where cards are required. -/

namespace Deck

def card : ClassDecl where
  path := "demo.Card"
  params := []
  parent := none
  fields := [⟨"name", .text, .readWrite⟩]
  properties := []
  isAbstract := false
  construction := .plain
  fromText := some fun c text => do
    return .object ⟨c, ← Run.alloc (.slots [("name", .text text)])⟩

def schema : Schema := Schema.empty.declareClass card

def affirmation : ConversionService where
  canConvert _ source target := source == .bool && target == .text
  convert _ _ _ target :=
    if target = .text then return .text "yes" else throw (.invalid "no question")

def joker : Converter :=
  ⟨"joker", fun _ text _ => return .text text, fun _ _ _ => return .text "joker"⟩

def strategies : Strategies :=
  ⟨⟨[(.array (.object 0), joker)], []⟩, .standard, some affirmation⟩

def heap : Heap := ⟨#[.items [.text "ace", .text "king"]]⟩

theorem fromText?_eq {c : ClassId} {text : String} {make : Run String Value}
    (hmake : schema.fromText? c text = some make) :
    make = do return .object ⟨c, ← Run.alloc (.slots [("name", .text text)])⟩ := by
  obtain ⟨construct, found, rfl⟩ := Option.map_eq_some_iff.1 hmake
  obtain ⟨d, declared, own⟩ := Option.bind_eq_some_iff.1 found
  have only : d = card := by
    have known : schema.class? c = if c = 0 then some card else none := by
      rw [Schema.class?, schema, Schema.declareClass, Schema.empty, Schema.since]
      split <;> simp_all [Schema.since]
    rw [known] at declared
    split at declared
    · exact (Option.some.inj declared).symm
    · cases declared
  subst only
  obtain rfl := Option.some.inj own
  rfl

theorem givesInstances_schema : schema.GivesInstances := by
  intro c text make hmake
  rw [fromText?_eq hmake]
  exact .after fun l => .pure (schema.descends_self c)

theorem givesInstances_strategies : strategies.GivesInstances schema := by
  intro s hs
  obtain rfl := Option.some.inj hs
  intro v source target
  refine .ite (fun text => .pure ?_) fun _ => .throw _
  rw [text]
  rfl

end Deck

theorem Strategies.accepts_of_convert_cards :
    ∃ w h', (Deck.strategies.convert Deck.schema (.array (.object 0)) none (.array .text 0)).on
        Deck.heap = (.ok w, h') ∧ Deck.schema.accepts (.array (.object 0)) w = true := by
  have works : ((Deck.strategies.convert Deck.schema (.array (.object 0)) none
      (.array .text 0)).on Deck.heap).1.toBool = true := by decide +kernel
  rcases ho : (Deck.strategies.convert Deck.schema (.array (.object 0)) none
    (.array .text 0)).on Deck.heap with ⟨result, h'⟩
  rw [ho] at works
  cases result with
  | error e => cases works
  | ok w =>
    exact ⟨w, h', rfl,
      accepts_of_convert Deck.givesInstances_schema Deck.givesInstances_strategies ho⟩

end PropertyAccess
