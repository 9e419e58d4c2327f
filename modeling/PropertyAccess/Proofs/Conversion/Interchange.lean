import PropertyAccess.Proofs.Conversion.Arrays
import PropertyAccess.Proofs.Conversion.ElementPaths
import PropertyAccess.Proofs.Conversion.Written

/-! Paths that can stand for each other. A path matters to a conversion only by the converters
that are found with it, for the type itself and for what is inside. Where two paths come to the
same ones at every depth, a conversion that succeeds with either has the same result with both;
a failure names the path, and keys are written only where there is one. -/

namespace PropertyAccess

namespace Run

variable {ε δ α β : Type} {r s : Run ε α}

def Concurs (r s : Run ε α) : Prop :=
  ∀ (h g g' : Heap) (a b : α), r.on h = (.ok a, g) → s.on h = (.ok b, g') → a = b ∧ g = g'

namespace Concurs

theorem refl (r : Run ε α) : r.Concurs r := fun _ _ _ _ _ ran ran' => by
  obtain ⟨result, left⟩ := Prod.mk.inj (ran.symm.trans ran')
  exact ⟨Except.ok.inj result, left⟩

theorem symm (same : r.Concurs s) : s.Concurs r := fun h g g' a b ran ran' =>
  (same h g' g b a ran' ran).imp Eq.symm Eq.symm

theorem throw (e : ε) (s : Run ε α) : Concurs (MonadExcept.throw e) s :=
  fun _ _ _ _ _ failed => by cases failed

theorem bind_of {γ : Type} {r : Run ε α} {s : Run ε γ} {f : α → Run ε β} {g : γ → Run ε β}
    (first : ∀ (h k k' : Heap) (a : α) (b : γ), r.on h = (.ok a, k) → s.on h = (.ok b, k') →
      k = k' ∧ (f a).Concurs (g b)) : (r >>= f).Concurs (s >>= g) := by
  intro h k k' a b ran ran'
  obtain ⟨x, h₁, hx, rest⟩ := exists_of_bind ran
  obtain ⟨y, h₂, hy, rest'⟩ := exists_of_bind ran'
  obtain ⟨rfl, same⟩ := first h h₁ h₂ x y hx hy
  exact same h₁ k k' a b rest rest'

theorem bind {f g : α → Run ε β} (hr : r.Concurs s) (hf : ∀ a, (f a).Concurs (g a)) :
    (r >>= f).Concurs (s >>= g) :=
  bind_of fun h k k' a b ran ran' => by
    obtain ⟨rfl, rfl⟩ := hr h k k' a b ran ran'
    exact ⟨rfl, hf a⟩

theorem then_ {f g : α → Run ε β} (hf : ∀ a, (f a).Concurs (g a)) :
    (r >>= f).Concurs (r >>= g) :=
  (refl r).bind hf

theorem ite {c : Prop} [Decidable c] {r' s' : Run ε α} (hr : c → r.Concurs s)
    (hs : ¬ c → r'.Concurs s') : (if c then r else r').Concurs (if c then s else s') := by
  split
  · exact hr ‹_›
  · exact hs ‹_›

theorem mapError {f g : ε → δ} (hr : r.Concurs s) :
    (Run.mapError f r).Concurs (Run.mapError g s) :=
  fun h k k' a b ran ran' => hr h k k' a b (on_of_mapError ran) (on_of_mapError ran')

end Concurs

end Run

structure ContentConversions.Concurs (contents : ContentConversions) (p q : Option String) :
    Prop where
  element : ∀ key v,
    (contents.element (keyedPath p key) v).Concurs (contents.element (keyedPath q key) v)
  key : ∀ key v, (contents.key (keyedPath p key) v).Concurs (contents.key (keyedPath q key) v)

variable {σ : Schema} {p q : Option String} {contents : ContentConversions}

theorem concurs_convertItems (hc : contents.Concurs p q) (index : Nat) (vs : List Value) :
    (convertItems contents.element p index vs).Concurs
      (convertItems contents.element q index vs) := by
  induction vs generalizing index with
  | nil => exact .refl _
  | cons v vs ih =>
    exact (hc.element _ v).bind fun _ => (ih (index + 1)).bind fun _ => .refl _

theorem concurs_pathOfEntry {f g : Option String → Run ConvertError α} {key : Value}
    (rest : ∀ text, (f (keyedPath p text)).Concurs (g (keyedPath q text))) :
    (pathOfEntry σ p key >>= f).Concurs (pathOfEntry σ q key >>= g) := by
  refine .bind_of fun h k k' a b ran ran' => ?_
  obtain ⟨rfl, text, rfl, known⟩ := of_on_pathOfEntry ran
  obtain ⟨rfl, text', rfl, known'⟩ := of_on_pathOfEntry ran'
  refine ⟨rfl, ?_⟩
  cases p with
  | none => exact rest text'
  | some p =>
    cases q with
    | none => exact rest text
    | some q =>
      obtain rfl := Option.some.inj ((known rfl).symm.trans (known' rfl))
      exact rest text

theorem concurs_convertEntries (hc : contents.Concurs p q) (es : List (Value × Value)) :
    (convertEntries σ contents p es).Concurs (convertEntries σ contents q es) := by
  induction es with
  | nil => exact .refl _
  | cons e es ih =>
    exact concurs_pathOfEntry fun text => (hc.key text e.1).bind fun _ =>
      (hc.element text e.2).bind fun _ => ih.bind fun _ => .refl _

namespace Strategies

variable {S : Strategies} {t required : Ty} {v : Value}

/-- The same converters serve what is inside a value of the type, at either path. -/
def InterchangeableInside (σ : Schema) (S : Strategies) : Ty → Option String → Option String → Prop
  | .nullable t, p, q => S.InterchangeableInside σ t p q
  | .array e, p, q =>
    S.registered.hasElementConverter σ (some e) p = S.registered.hasElementConverter σ (some e) q ∧
      ∀ key, S.custom? σ e (keyedPath p key) = S.custom? σ e (keyedPath q key) ∧
        S.InterchangeableInside σ e (keyedPath p key) (keyedPath q key)
  | .list _ e, p, q | .set _ e, p, q =>
    (e.isUnknown = true →
      S.registered.hasElementConverter σ none p = S.registered.hasElementConverter σ none q) ∧
      ∀ key, S.custom? σ e (keyedPath p key) = S.custom? σ e (keyedPath q key) ∧
        S.InterchangeableInside σ e (keyedPath p key) (keyedPath q key)
  | .map _ k e, p, q =>
    (k.isUnknown = true → e.isUnknown = true →
      S.registered.hasElementConverter σ none p = S.registered.hasElementConverter σ none q) ∧
      ∀ key, (S.custom? σ k (keyedPath p key) = S.custom? σ k (keyedPath q key) ∧
          S.InterchangeableInside σ k (keyedPath p key) (keyedPath q key)) ∧
        S.custom? σ e (keyedPath p key) = S.custom? σ e (keyedPath q key) ∧
          S.InterchangeableInside σ e (keyedPath p key) (keyedPath q key)
  | _, _, _ => True

/-- The same converters serve a value of the type and what is inside it, at either path. -/
structure Interchangeable (σ : Schema) (S : Strategies) (t : Ty) (p q : Option String) : Prop where
  custom : S.custom? σ t p = S.custom? σ t q
  inside : S.InterchangeableInside σ t p q

theorem interchangeableInside_self (σ : Schema) (S : Strategies) (t : Ty) (p : Option String) :
    S.InterchangeableInside σ t p p := by
  induction t generalizing p with
  | nullable t ih => exact ih p
  | array e ih => exact ⟨rfl, fun key => ⟨rfl, ih _⟩⟩
  | list s e ih | set s e ih => exact ⟨fun _ => rfl, fun key => ⟨rfl, ih _⟩⟩
  | map s k e ihk ihe => exact ⟨fun _ _ => rfl, fun key => ⟨⟨rfl, ihk _⟩, rfl, ihe _⟩⟩
  | _ => trivial

theorem interchangeable_self (σ : Schema) (S : Strategies) (t : Ty) (p : Option String) :
    S.Interchangeable σ t p p := ⟨rfl, S.interchangeableInside_self σ t p⟩

theorem custom?_of_byPath_eq_nil (none_ : S.registered.byPath = []) (t : Ty) (p : Option String) :
    S.custom? σ t p = S.registered.findByType? σ t := by
  have absent (text : String) : S.registered.findAt? σ text t = none := by
    rw [Registrations.findAt?, none_]
    rfl
  have byPath : (p.bind fun text => S.registered.findByPath? σ text t) = none := by
    cases p with
    | none => rfl
    | some text =>
      rw [Option.bind_some, Registrations.findByPath?, absent]
      cases Path.parse text <;> simp [absent]
  rw [custom?, Registrations.find?, byPath]

theorem interchangeable_of_byPath_eq_nil (none_ : S.registered.byPath = []) (t : Ty)
    (p q : Option String) : S.Interchangeable σ t p q := by
  have served (t : Ty) (p q : Option String) : S.custom? σ t p = S.custom? σ t q := by
    rw [custom?_of_byPath_eq_nil none_, custom?_of_byPath_eq_nil none_]
  have elements (e : Option Ty) (p q : Option String) :
      S.registered.hasElementConverter σ e p = S.registered.hasElementConverter σ e q := by
    cases p <;> cases q <;> simp [Registrations.hasElementConverter, none_]
  refine ⟨served t p q, ?_⟩
  induction t generalizing p q with
  | nullable t ih => exact ih p q
  | array e ih => exact ⟨elements _ p q, fun key => ⟨served _ _ _, ih _ _⟩⟩
  | list s e ih | set s e ih => exact ⟨fun _ => elements _ p q, fun key => ⟨served _ _ _, ih _ _⟩⟩
  | map s k e ihk ihe =>
    exact ⟨fun _ _ => elements _ p q,
      fun key => ⟨⟨served _ _ _, ihk _ _⟩, served _ _ _, ihe _ _⟩⟩
  | _ => trivial

section Step

theorem concurs_throughText (given : Value) (converter : Option Converter) (current : Value)
    (required : Ty) (p q : Option String) :
    (throughText σ given converter current required p).Concurs
      (throughText σ given converter current required q) := by
  refine .then_ fun h => ?_
  split
  · exact .refl _
  · split
    · exact .mapError (.refl _)
    · exact .refl _

theorem concurs_applied (own : S.custom? σ t p = S.custom? σ t q) (v : Value) :
    (S.applied σ t p v).Concurs (S.applied σ t q v) := by
  have chosen : S.chosen? σ t p = S.chosen? σ t q := by rw [chosen?, chosen?, own]
  unfold applied
  rw [own, chosen]
  exact .ite (fun _ => .refl _) fun _ => .then_ fun given => .then_ fun through =>
    (concurs_throughText _ _ _ _ _ _).bind fun _ => .refl _

variable (hc : contents.Concurs p q)
include hc

theorem concurs_newConverted (elem : Ty) (vs : List Value) :
    (newConverted elem contents p vs).Concurs (newConverted elem contents q vs) :=
  (concurs_convertItems hc 0 vs).bind fun _ => .refl _

theorem concurs_toArray {elem : Ty}
    (own : S.registered.hasElementConverter σ (some elem) p =
      S.registered.hasElementConverter σ (some elem) q) (v : Value) :
    (S.toArray σ elem contents p v).Concurs (S.toArray σ elem contents q v) := by
  cases v with
  | array e l =>
    simp only [toArray, own]
    exact .ite (fun _ => .refl _) fun _ => .then_ fun _ => concurs_newConverted hc _ _
  | list s l | set s l => exact .then_ fun _ => concurs_newConverted hc _ _
  | _ => exact concurs_newConverted hc _ _

theorem concurs_toCollection
    (own : ∀ e, required.element? = some e → required.isCollection = true → e.isUnknown = true →
      S.registered.hasElementConverter σ none p = S.registered.hasElementConverter σ none q)
    (v : Value) :
    (S.toCollection σ required contents p v).Concurs (S.toCollection σ required contents q v) := by
  unfold toCollection
  split
  · exact .refl _
  · rename_i e element
    have skips : (!required.isCollection || (e.isUnknown && σ.accepts required v &&
          !S.registered.hasElementConverter σ none p)) =
        (!required.isCollection || (e.isUnknown && σ.accepts required v &&
          !S.registered.hasElementConverter σ none q)) := by
      cases collection : required.isCollection with
      | false => rfl
      | true =>
        cases unknown : e.isUnknown with
        | false => rfl
        | true => rw [own e element collection unknown]
    dsimp only
    rw [skips]
    exact .ite (fun _ => .refl _) fun _ => .then_ fun items =>
      (concurs_convertItems hc 0 items).bind fun _ => .refl _

theorem concurs_toMap
    (own : ∀ s k e, required.unwrapped = .map s k e → k.isUnknown = true → e.isUnknown = true →
      S.registered.hasElementConverter σ none p = S.registered.hasElementConverter σ none q)
    (v : Value) :
    (S.toMap σ required contents p v).Concurs (S.toMap σ required contents q v) := by
  unfold toMap
  split
  · rename_i shape k e s l unwrapped
    have skips : (k.isUnknown && e.isUnknown && σ.accepts required (.map s l) &&
          !S.registered.hasElementConverter σ none p) =
        (k.isUnknown && e.isUnknown && σ.accepts required (.map s l) &&
          !S.registered.hasElementConverter σ none q) := by
      cases key : k.isUnknown with
      | false => rfl
      | true =>
        cases unknown : e.isUnknown with
        | false => rfl
        | true => rw [own shape k e unwrapped key unknown]
    dsimp only
    rw [skips]
    exact .ite (fun _ => .refl _) fun _ => .then_ fun entries =>
      (concurs_convertEntries hc entries).bind fun _ => .refl _
  · exact .refl _

structure RulesAgree (σ : Schema) (S : Strategies) (required : Ty) (p q : Option String) :
    Prop where
  array : ∀ e, required.unwrapped = .array e →
    S.registered.hasElementConverter σ (some e) p = S.registered.hasElementConverter σ (some e) q
  collection : ∀ e, required.element? = some e → required.isCollection = true →
    e.isUnknown = true →
    S.registered.hasElementConverter σ none p = S.registered.hasElementConverter σ none q
  map : ∀ s k e, required.unwrapped = .map s k e → k.isUnknown = true → e.isUnknown = true →
    S.registered.hasElementConverter σ none p = S.registered.hasElementConverter σ none q

theorem concurs_rules (own : S.RulesAgree σ required p q) (deferred : Bool) (v : Value) :
    (S.rules σ required contents p deferred v).Concurs
      (S.rules σ required contents q deferred v) := by
  refine .ite (fun _ => .refl _) fun _ => .ite (fun _ => .refl _) fun _ => ?_
  split
  · rename_i e unwrapped
    exact .then_ fun given => (concurs_toArray hc (own.array e unwrapped) given).bind fun _ =>
      .refl _
  · refine Run.Concurs.bind ?_ fun _ => .refl _
    cases v with
    | list | set => exact (concurs_toCollection hc own.collection _).bind fun _ => .refl _
    | map => exact (concurs_toMap hc own.map _).bind fun _ => .refl _
    | _ => exact .refl _

omit hc in
theorem concurs_checked (service : S.service = none) (given : Value)
    (converter : Option Converter) (v : Value) (standard : Bool) :
    (S.checked σ required p given converter none v standard).Concurs
      (S.checked σ required q given converter none v standard) := by
  unfold checked
  refine .ite (fun _ => .refl _) fun _ => ?_
  have unable (path : Option String) : S.serve σ required path given = pure .unable := by
    simp [serve, service]
  simp only [unable, pure_bind]
  exact .throw _ _

theorem concurs_step (service : S.service = none)
    (own : S.custom? σ required p = S.custom? σ required q)
    (rules : S.RulesAgree σ required p q) (v : Value) :
    (S.step σ required contents p v).Concurs (S.step σ required contents q v) := by
  rw [step_of_service_eq_none service, step_of_service_eq_none service]
  refine (concurs_applied own v).bind fun applied => ?_
  refine (concurs_rules hc rules _ _).bind fun ruled => ?_
  split
  · exact .refl _
  · exact concurs_checked service _ _ _ _

end Step

theorem InterchangeableInside.rulesAgree (inside : S.InterchangeableInside σ t p q) :
    S.RulesAgree σ t p q := by
  have whole : S.InterchangeableInside σ t.unwrapped p q := by
    cases t <;> exact inside
  refine ⟨fun e unwrapped => ?_, fun e element collection => ?_, fun s k e unwrapped => ?_⟩
  · rw [unwrapped] at whole
    exact whole.1
  · unfold Ty.element? at element
    unfold Ty.isCollection at collection
    cases unwrapped : t.unwrapped with
    | list s f | set s f =>
      rw [unwrapped] at whole element
      obtain rfl := Option.some.inj element
      exact whole.1
    | _ => simp [unwrapped] at collection
  · rw [unwrapped] at whole
    exact whole.1

theorem concurs_contents (service : S.service = none) (inside : S.InterchangeableInside σ t p q) :
    (S.contents σ t).Concurs p q := by
  induction t generalizing p q with
  | nullable t ih => exact ih inside
  | array e ih =>
    have element (key : String) (v : Value) := concurs_step (ih (inside.2 key).2) service
      (inside.2 key).1 (InterchangeableInside.rulesAgree (inside.2 key).2) v
    exact ⟨element, element⟩
  | list s e ih | set s e ih =>
    have element (key : String) (v : Value) := concurs_step (ih (inside.2 key).2) service
      (inside.2 key).1 (InterchangeableInside.rulesAgree (inside.2 key).2) v
    exact ⟨element, element⟩
  | map s k e ihk ihe =>
    refine ⟨fun key v => ?_, fun key v => ?_⟩
    · exact concurs_step (ihe (inside.2 key).2.2) service (inside.2 key).2.1
        (InterchangeableInside.rulesAgree (inside.2 key).2.2) v
    · exact concurs_step (ihk (inside.2 key).1.2) service (inside.2 key).1.1
        (InterchangeableInside.rulesAgree (inside.2 key).1.2) v
  | _ => exact ⟨fun _ _ => .refl _, fun _ _ => .refl _⟩

theorem Interchangeable.concurs (service : S.service = none) (same : S.Interchangeable σ t p q)
    (v : Value) : (S.convert σ t p v).Concurs (S.convert σ t q v) :=
  concurs_step (concurs_contents service same.inside) service same.custom
    (InterchangeableInside.rulesAgree same.inside) v

end Strategies

end PropertyAccess
