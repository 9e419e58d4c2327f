import PropertyAccess.Proofs.Conversion.Settled

/-! Conversions with a registered converter. Neither the service nor the default table is asked
before it. A text is given to it as it is, unless constants are collected: then the text is
split at its commas, the array of the items is offered as a value, and only an array that comes
back as it is is joined again and read as a text. What the converter makes of a text is the
result if it is an instance and no container, and a text that it refuses is the failure. -/

namespace PropertyAccess

/-- A list or set of constants, for which a text is split at its commas. -/
def Ty.collectsConstants (t : Ty) : Bool :=
  t.isCollection && (t.element?.map Ty.isEnum).getD false

namespace Strategies

variable {σ : Schema} {S : Strategies} {required : Ty} {path : Option String} {c : Converter}
  {given v : Value} {text : String} {h g : Heap}

/-- A conversion that applies a given converter, and then the fixed rules. -/
def consulting (σ : Schema) (S : Strategies) (c : Converter) (required : Ty) : Conversion :=
  fun path v => do
    let given ← splitIf (required.isCollection && (required.element?.map Ty.isEnum).getD false) v
    let (active, current) ← throughValue σ (some c) given required
    let result ← throughText σ v active current required path
    match ← S.rules σ required (S.contents σ required) path false result with
    | .done w => return w
    | .open w standard => S.checked σ required path v (some c) none w standard

theorem convert_of_custom (found : S.custom? σ required path = some c) (v : Value) :
    S.convert σ required path v = S.consulting σ c required path v := by
  have chosen : S.chosen? σ required path = some c := by rw [chosen?, found]
  rw [convert, step, ask, found, Option.isSome_some, if_pos rfl, pure_bind, withoutService,
    applied, found, chosen]
  simp only [Option.isNone_some, Bool.false_and, Bool.false_eq_true, if_false, bind_assoc,
    pure_bind, Option.isSome_none]
  rfl

def reading (σ : Schema) (S : Strategies) (c : Converter) (required : Ty) (path : Option String)
    (given : Value) (text : String) : Run ConvertError Value := do
  let result ← Run.mapError (failureOf given required path c) (c.fromText σ text required)
  match ← S.rules σ required (S.contents σ required) path false result with
  | .done w => return w
  | .open w standard => S.checked σ required path given (some c) none w standard

theorem on_reading_of_error {failure : ConvertFailure}
    (failed : (c.fromText σ text required).on h = (.error failure, g)) :
    (S.reading σ c required path given text).on h =
      (.error (failureOf given required path c failure), g) := by
  have refused : (Run.mapError (failureOf given required path c) (c.fromText σ text required)).on
      h = (.error (failureOf given required path c failure), g) := by
    rw [Run.on_mapError, failed]
    rfl
  rw [reading, Run.on_bind_of_error refused]

/-- The fixed rules leave an instance alone that is no container. -/
theorem on_rules_of_accepts {contents : ContentConversions} (fits : σ.accepts required v = true)
    (single : Schema.containerOf? v = none) :
    ∃ r : Ruled, r.IsOf v ∧ (S.rules σ required contents path false v).on h = (.ok r, h) := by
  unfold rules
  by_cases null : v.isNull = true
  · rw [if_pos null]
    exact ⟨.open v false, rfl, rfl⟩
  rw [if_neg null]
  by_cases unknown : required.isUnknown = true
  · rw [if_pos unknown]
    exact ⟨.done v, rfl, rfl⟩
  rw [if_neg unknown]
  have known : v.isNull = false := Bool.eq_false_iff.2 null
  split
  · rename_i elem array
    have inside := accepts_unwrapped fits known
    rw [array] at inside
    cases v with
    | null => cases known
    | array => cases single
    | _ => cases inside
  · have lasting : v.Lasting := by
      refine ⟨known, fun elem l same => ?_⟩
      subst same
      cases single
    have contained : S.ruleContainer σ required contents path v = pure (v, false) := by
      cases v with
      | list | set | map => cases single
      | _ => rfl
    obtain ⟨passed, left⟩ := on_ruleScalar_of_accepts (h := h) fits known false
    refine ⟨.open v passed, rfl, ?_⟩
    rw [contained, pure_bind]
    dsimp only
    rw [soleElement_of_lasting lasting, pure_bind]
    exact left

theorem on_reading_of_ok (made : (c.fromText σ text required).on h = (.ok v, g))
    (fits : σ.accepts required v = true) (single : Schema.containerOf? v = none) :
    (S.reading σ c required path given text).on h = (.ok v, g) := by
  have kept : (Run.mapError (failureOf given required path c) (c.fromText σ text required)).on h =
      (.ok v, g) := by
    rw [Run.on_mapError, made]
    rfl
  obtain ⟨r, same, ruled⟩ : ∃ r : Ruled, r.IsOf v ∧
      (S.rules σ required (S.contents σ required) path false v).on g = (.ok r, g) :=
    on_rules_of_accepts fits single
  rw [reading, Run.on_bind_of_ok kept, Run.on_bind_of_ok ruled]
  cases r with
  | done w =>
    obtain rfl : w = v := same
    rfl
  | «open» w standard =>
    obtain rfl : w = v := same
    dsimp only
    rw [checked, if_pos fits]
    rfl

theorem consulting_text (whole : required.collectsConstants = false) (path : Option String)
    (text : String) :
    S.consulting σ c required path (.text text) =
      S.reading σ c required path (.text text) text := by
  rw [Ty.collectsConstants] at whole
  rw [consulting, whole]
  rfl

/-- The array of the items is offered to the converter, which leaves it; so the items are
joined again, as they are by then. -/
theorem on_consulting_split (split : required.collectsConstants = true)
    {result : Except ConvertFailure Value}
    (offered : (c.fromValue σ (.array .text h.size) required).on
      (h.alloc (.items ((commaItems text).map .text))).2 = (result, g))
    (left : ∀ w, result = .ok w → w.same (.array .text h.size) = true) {texts : List String}
    (written : (g.items h.size).mapM (σ.valueText? g) = some texts) :
    (S.consulting σ c required path (.text text)).on h =
      (S.reading σ c required path (.text text) (",".intercalate texts)).on g := by
  rw [Ty.collectsConstants] at split
  have collection : required.isArray = false := by
    have there := (Bool.and_eq_true_iff.1 split).1
    unfold Ty.isCollection at there
    unfold Ty.isArray
    split at there <;> simp_all
  have array : (splitIf true (.text text)).on h =
      (.ok (.array .text h.size), (h.alloc (.items ((commaItems text).map .text))).2) := rfl
  have through : (throughValue σ (some c) (.array .text h.size) required).on
      (h.alloc (.items ((commaItems text).map .text))).2 =
        (.ok (some c, .array .text h.size), g) := by
    have asked : (Run.outcome (c.fromValue σ (.array .text h.size) required) :
        Run ConvertError _).on (h.alloc (.items ((commaItems text).map .text))).2 =
          (.ok result, g) := by
      rw [Run.on_outcome, offered]
    rw [throughValue, if_neg (by simp [Value.isText]), Run.on_bind_of_ok asked]
    cases result with
    | error e => rfl
    | ok w =>
      dsimp only
      rw [if_pos (left w rfl)]
      rfl
  have joined : (Run.inspect fun g => textOf? σ g (.array .text h.size) required :
      Run ConvertError _).on g = (.ok (some (",".intercalate texts)), g) := by
    simp [Run.on_inspect, textOf?, collection, written]
  rw [consulting, split, Run.on_bind_of_ok array, Run.on_bind_of_ok through]
  dsimp only
  rw [throughText, bind_assoc, Run.on_bind_of_ok joined]
  rfl

/-- A registered converter decides on a text, whatever the service and the default table: a
text that it refuses is the failure, with its name and message, and an instance that it makes
is the result if it is no container. Where constants are collected, it decides in this way on
the joined items, if it leaves their array as it is. -/
theorem convert_of_fromText (found : S.custom? σ required path = some c) (text : String)
    (h : Heap) :
    (required.collectsConstants = false →
      (∀ message g, (c.fromText σ text required).on h = (.error (.invalid message), g) →
        (S.convert σ required path (.text text)).on h =
          (.error (.conversion ⟨.text text, required, path, .converterFailed c.name message⟩),
            g)) ∧
      ∀ w g, (c.fromText σ text required).on h = (.ok w, g) → Schema.containerOf? w = none →
        σ.accepts required w = true →
          (S.convert σ required path (.text text)).on h = (.ok w, g)) ∧
    (required.collectsConstants = true → ∀ result g,
      (c.fromValue σ (.array .text h.size) required).on
        (h.alloc (.items ((commaItems text).map .text))).2 = (result, g) →
      (∀ w, result = .ok w → w.same (.array .text h.size) = true) →
      ∀ texts, (g.items h.size).mapM (σ.valueText? g) = some texts →
      ∀ message g', (c.fromText σ (",".intercalate texts) required).on g =
          (.error (.invalid message), g') →
        (S.convert σ required path (.text text)).on h =
          (.error (.conversion ⟨.text text, required, path, .converterFailed c.name message⟩),
            g')) := by
  rw [convert_of_custom found]
  refine ⟨fun whole => ⟨fun message g failed => ?_, fun w g made single fits => ?_⟩,
    fun split result g offered left texts written message g' failed => ?_⟩
  · rw [consulting_text whole]
    exact on_reading_of_error failed
  · rw [consulting_text whole]
    exact on_reading_of_ok made fits single
  · rw [on_consulting_split split offered left written]
    exact on_reading_of_error failed

end Strategies

/-! Colours by their hue. -/

namespace Palette

def color : Enumeration := ⟨"demo.Color", ["RED", "GREEN"]⟩

def schema : Schema := Schema.empty.declareEnum color

def hues : Converter :=
  .ofText "hues" fun _ text _ =>
    if text = "scarlet" then return .enum 0 0 else throw (.invalid ("no hue " ++ text))

def erasure : ConversionService := ⟨fun _ _ _ => true, fun _ _ _ _ => return .null⟩

def strategies : Strategies :=
  ⟨⟨[], [⟨⟨[⟨"colors", []⟩]⟩, [(none, hues)]⟩]⟩, .standard, some erasure⟩

def blank : Converter :=
  ⟨"blank", fun _ _ _ => throw (.invalid "no text"), fun _ _ _ => return .null⟩

def blanking : Strategies := ⟨⟨[], [⟨⟨[⟨"colors", []⟩]⟩, [(none, blank)]⟩]⟩, .standard, none⟩

end Palette

namespace Strategies

theorem convert_of_fromText_palette :
    Palette.strategies.custom? Palette.schema (.enum 0) (some "colors") = some Palette.hues ∧
      (Palette.strategies.convert Palette.schema (.enum 0) (some "colors") (.text "azure")).on
        .empty = (.error (.conversion ⟨.text "azure", .enum 0, some "colors",
          .converterFailed "hues" "no hue azure"⟩), .empty) ∧
      (Palette.strategies.convert Palette.schema (.enum 0) (some "colors")
        (.text "scarlet")).on .empty = (.ok (.enum 0 0), .empty) ∧
      ∃ g, (Palette.strategies.convert Palette.schema (.list .any (.enum 0)) (some "colors")
        (.text "scarlet , azure")).on .empty = (.error (.conversion ⟨.text "scarlet , azure",
          .list .any (.enum 0), some "colors",
          .converterFailed "hues" "no hue scarlet,azure"⟩), g) := by
  have one : Palette.strategies.custom? Palette.schema (.enum 0) (some "colors") =
      some Palette.hues := rfl
  have many : Palette.strategies.custom? Palette.schema (.list .any (.enum 0))
      (some "colors") = some Palette.hues := rfl
  have single := (convert_of_fromText one "azure" .empty).1 rfl
  have listed := (convert_of_fromText many "scarlet , azure" .empty).2 rfl
  refine ⟨one, single.1 "no hue azure" .empty rfl, ?_, ?_⟩
  · exact ((convert_of_fromText one "scarlet" .empty).1 rfl).2 (.enum 0 0) .empty rfl rfl rfl
  · exact ⟨_, listed (.ok (.array .text 0)) _ rfl
      (fun w same => Except.ok.inj same ▸ rfl) ["scarlet", "azure"] rfl "no hue scarlet,azure" _
      rfl⟩

/-- Where a list of colours is required, a text is passed over that the converter refuses. -/
theorem text_passed_over :
    Palette.blanking.custom? Palette.schema (.list .any (.enum 0)) (some "colors") =
        some Palette.blank ∧
      (Palette.blank.fromText Palette.schema "RED" (.list .any (.enum 0))).on .empty =
        (.error (.invalid "no text"), .empty) ∧
      ((Palette.blanking.convert Palette.schema (.list .any (.enum 0)) (some "colors")
        (.text "RED")).on .empty).1 = .ok .null :=
  ⟨rfl, rfl, rfl⟩

end Strategies

end PropertyAccess
