import Mathlib.Data.List.Perm.Basic
import PropertyAccess.Proofs.Conversion.Imprints
import PropertyAccess.Proofs.Conversion.Interchange
import PropertyAccess.Proofs.Conversion.Settled
import PropertyAccess.Proofs.Conversion.WholeMaps
import PropertyAccess.Proofs.Graph.Sequence

/-! Entries converted one by one. A map that is converted as a whole has each of its entries
converted in turn, and so do writes of single entries; they differ in the paths with which
converters are looked for. Where both come to the same converters, and these act alike
whatever the names of locations, the same is made of each entry, up to the identity of what
is new. -/

namespace PropertyAccess

def Value.keyText : Value → String
  | .text s => s
  | _ => ""

theorem Value.keyText_eq {N : Names} {v w : Value} (hv : Like N v w) : v.keyText = w.keyText := by
  cases hv <;> rfl

namespace Strategies

variable {σ : Schema} {S : Strategies} {K V : Ty} {path : Option String}
  {p q p' q' : String → Option String} {c g h h' : Heap} {N : Names} {e f : Value × Value}

/-- Constructors and converters leave the graph as it is and act alike whatever the names of
locations. What they return leads only to what they were given and to new cells. -/
structure Local (σ : Schema) (S : Strategies) : Prop where
  makesOwn : σ.MakesOwn
  constructs : σ.Uniform
  harmless : S.Harmless σ
  uniform : S.Uniform σ
  encloses : ∀ A, S.Stays (.enclosed σ A)

def convertEntry (σ : Schema) (S : Strategies) (K V : Ty) (p q : String → Option String)
    (e : Value × Value) : Run ConvertError (Value × Value) := do
  let k ← S.convert σ K (p e.1.keyText) e.1
  let v ← S.convert σ V (q e.1.keyText) e.2
  return (k, v)

theorem derives_convertEntry (hS : S.Local σ) : Run.Derives σ (S.convertEntry σ K V p q) where
  harmless e := by
    have quiet (t : Ty) := harmless_convert hS.makesOwn.makesNew hS.harmless t
    exact (quiet K _ _).bind fun _ => (quiet V _ _).bind fun _ => .pure _
  alike N d e like := by
    have uniform (t : Ty) := uniform_convert hS.constructs hS.uniform t
    rw [convertEntry, convertEntry, Value.keyText_eq like.1]
    refine (uniform K N _ _ _ like.1).bind fun N₁ k l later hk => ?_
    refine (uniform V N₁ _ _ _ (Likened.mono later like.2)).bind fun N₂ v w later' hv => ?_
    exact .pure ⟨Likened.mono later' hk, hv⟩
  stays A T e key value := by
    have stays {T : Loc → Prop} {v : Value} (t : Ty) (path : Option String) (hv : v.Within T) :
        (S.convert σ t path v).Stays (.enclosed σ A) T fun T' w => w.Within T' :=
      stays_convert (hS.makesOwn.stays A) (hS.encloses A) t path hv
    refine (stays K _ key).bind fun T₁ k later hk => ?_
    refine (stays V _ (value.mono later)).bind fun T₂ v later' hv => ?_
    exact .pure ⟨hk.mono later', hv⟩

theorem turns_of_convertEntries {es fs : List (Value × Value)}
    (texts : ∀ e ∈ es, ∃ k, e.1 = .text k)
    (ran : (convertEntries σ ⟨S.convert σ V, S.convert σ K⟩ path es).on h = (.ok fs, h')) :
    Run.Turns (S.convertEntry σ K V (keyedPath path) (keyedPath path)) (fun _ g => g) h es fs
      h' := by
  induction es generalizing h fs with
  | nil =>
    cases ran
    exact .nil _
  | cons e es ih =>
    obtain ⟨key, value⟩ := e
    rw [List.forall_mem_cons] at texts
    obtain ⟨k, rfl⟩ : ∃ k, key = .text k := texts.1
    rw [convertEntries, Run.on_bind_of_ok (on_pathOfEntry fun _ => rfl)] at ran
    obtain ⟨l, h₁, key, ran⟩ := Run.exists_of_bind ran
    obtain ⟨w, h₂, value, ran⟩ := Run.exists_of_bind ran
    obtain ⟨rest, h₃, others, last⟩ := Run.exists_of_bind ran
    cases last
    refine .cons ?_ (ih texts.2 others)
    exact (Run.on_bind_of_ok key _).trans ((Run.on_bind_of_ok value _).trans rfl)

theorem turns_of_kept {r : Value × Value → Run ConvertError (Value × Value)}
    {es : List (Value × Value)} (kept : ∀ e ∈ es, ∀ g, (r e).on g = (.ok e, g)) (h : Heap) :
    Run.Turns r (fun _ g => g) h es es h := by
  induction es with
  | nil => exact .nil h
  | cons e es ih =>
    rw [List.forall_mem_cons] at kept
    exact .cons (kept.1 h) (ih kept.2)

theorem concurs_convertEntry (service : S.service = none)
    (key : S.Interchangeable σ K (p e.1.keyText) (p' e.1.keyText))
    (value : S.Interchangeable σ V (q e.1.keyText) (q' e.1.keyText)) :
    (S.convertEntry σ K V p q e).Concurs (S.convertEntry σ K V p' q' e) :=
  (key.concurs service _).bind fun _ => (value.concurs service _).bind fun _ => .refl _

/-! The same converters for the entry of a key, written alone and in the whole map. -/

def wholePath (name : String) : String := (Segment.mk name []).canonical

def entryPath (name key : String) : String := (Segment.mk name [key]).canonical

/-- The converters for an entry are the same in the map as a whole, where they are looked for
with the key in brackets behind the path of the map, and alone, where the key is converted
without a path and the value with the path that it has. A value of unknown type is left alone
in both. -/
structure ServesAlike (σ : Schema) (S : Strategies) (K V : Ty) (name k : String) : Prop where
  key : S.Interchangeable σ K none (keyedPath (some (wholePath name)) k)
  value : S.Interchangeable σ V (some (entryPath name k)) (keyedPath (some (wholePath name)) k)
  passed : K.isUnknown = true → V.isUnknown = true →
    S.registered.hasElementConverter σ none (some (wholePath name)) = false →
    S.custom? σ V (some (entryPath name k)) = none

theorem entryPath_of_plain (name : String) {key : String}
    (plain : Segment.needsQuotes key.toList = false) :
    some (entryPath name key) = keyedPath (some (wholePath name)) key := by
  refine congrArg some (String.toList_inj.1 ?_)
  simp [entryPath, wholePath, Segment.canonical, Segment.canonicalChars, Segment.bracketed, plain]

theorem custom?_of_isUnknown {t : Ty} (unknown : t.isUnknown = true) :
    S.custom? σ t none = none := by
  rw [custom?, Registrations.find?, Option.bind_none]
  exact if_pos unknown

/-- Where nothing is registered by path, all entries are served alike. -/
theorem servesAlike_of_byPath_eq_nil (none_ : S.registered.byPath = []) (K V : Ty)
    (name key : String) : S.ServesAlike σ K V name key where
  key := interchangeable_of_byPath_eq_nil none_ _ _ _
  value := interchangeable_of_byPath_eq_nil none_ _ _ _
  passed _ unknown _ := by
    rw [custom?_of_byPath_eq_nil none_]
    exact if_pos unknown

theorem servesAlike_of_plain {name k : String} (plain : Segment.needsQuotes k.toList = false)
    (key : S.Interchangeable σ K none (keyedPath (some (wholePath name)) k))
    (known : V.isUnknown = false) : S.ServesAlike σ K V name k where
  key := key
  value := by
    rw [entryPath_of_plain name plain]
    exact interchangeable_self σ S V _
  passed _ unknown := by
    rw [known] at unknown
    cases unknown

def convertAlone (σ : Schema) (S : Strategies) (K V : Ty) (name : String) :
    Value × Value → Run ConvertError (Value × Value) :=
  S.convertEntry σ K V (fun _ => none) fun key => some (entryPath name key)

def convertWithin (σ : Schema) (S : Strategies) (K V : Ty) (name : String) :
    Value × Value → Run ConvertError (Value × Value) :=
  S.convertEntry σ K V (keyedPath (some (wholePath name))) (keyedPath (some (wholePath name)))

variable {name k : String} {v : Value}

theorem ServesAlike.concurs (served : S.ServesAlike σ K V name k) (service : S.service = none)
    (v : Value) :
    (S.convertWithin σ K V name (.text k, v)).Concurs (S.convertAlone σ K V name (.text k, v)) :=
  (concurs_convertEntry service served.key served.value).symm

theorem ServesAlike.on_convertAlone (served : S.ServesAlike σ K V name k)
    (service : S.service = none) (key : K.isUnknown = true) (value : V.isUnknown = true)
    (unserved : S.registered.hasElementConverter σ none (some (wholePath name)) = false)
    (v : Value) (h : Heap) :
    (S.convertAlone σ K V name (.text k, v)).on h = (.ok (.text k, v), h) := by
  have passes {t : Ty} (unknown : t.isUnknown = true) {path : Option String}
      (own : S.custom? σ t path = none) (v : Value) : (S.convert σ t path v).on h = (.ok v, h) := by
    refine on_convert_of_settled service own ?_ ?_ ?_
    · cases t <;> trivial
    · cases t <;> trivial
    · cases t with
      | any | param | self => cases v <;> rfl
      | _ => cases unknown
  have first := passes key (custom?_of_isUnknown key) (.text k)
  have second := passes value (served.passed key value unserved) v
  exact (Run.on_bind_of_ok first _).trans ((Run.on_bind_of_ok second _).trans rfl)

end Strategies

/-! Imprints of the entries of a map whose keys are texts. -/

section Imprints

variable {σ : Schema} {S : Strategies} {K V : Ty} {c g h : Heap} {N : Names} {size : Nat}

def Names.entry (N : Names) (e : Value × Value) : Value × Value :=
  (e.1.moved N.idxOf, e.2.moved N.idxOf)

theorem Names.alike_entries {es : List (Value × Value)}
    (within : ∀ e ∈ es, e.1.Within (· ∈ N) ∧ e.2.Within (· ∈ N)) : Like N (es.map N.entry) es :=
  List.forall₂_map_left_iff.2 (List.forall₂_same.2 fun e he =>
    ⟨Value.alike_moved (within e he).1, Value.alike_moved (within e he).2⟩)

theorem Names.nodup_entries {es : List (Value × Value)} (texts : ∀ e ∈ es, ∃ k, e.1 = .text k)
    (apart : MapEntries.Apart es) : (es.map N.entry).Nodup := by
  refine List.pairwise_map.2 (apart.imp_of_mem fun {e f} he hf other same => ?_)
  obtain ⟨k, hk⟩ := texts e he
  obtain ⟨l, hl⟩ := texts f hf
  have keys : e.1.moved N.idxOf = f.1.moved N.idxOf := congrArg Prod.fst same
  rw [hk, hl] at keys other
  obtain rfl : k = l := by simpa [Value.moved] using keys
  simp [Value.same] at other

theorem Value.Paired.eq_of_scalar {B : Loc → Loc → Prop} {v w : Value} (hv : v.Paired B w)
    (scalar : w.loc? = none) : v = w := by
  cases hv with
  | scalar => rfl
  | _ => cases scalar

theorem Value.Alike.eq_of_scalar {M : Names} {v w : Value} (hv : Like M v w)
    (scalar : v.loc? = none ∨ w.loc? = none) : v = w := by
  cases hv with
  | scalar => rfl
  | _ => rcases scalar with none_ | none_ <;> cases none_

theorem forall₂_of_map_eq {α β γ : Type} {f : α → γ} {g : β → γ} {xs : List α} {ys : List β}
    (same : xs.map f = ys.map g) : List.Forall₂ (fun x y => f x = g y) xs ys := by
  have both : List.Forall₂ Eq (xs.map f) (ys.map g) := by
    rw [List.forall₂_eq_eq_eq]
    exact same
  exact List.forall₂_map_right_iff.1 (List.forall₂_map_left_iff.1 both)

def Stayed (e f : Value × Value) : Prop := f.1 = e.1 ∧ (f.2 = e.2 ∨ f.2.same e.2 = true)

/-- As far as the program can tell, the value is one that is paired with the other. -/
def Value.Matches (B : Loc → Loc → Prop) (v w : Value) : Prop :=
  ∃ u : Value, (u = v ∨ u.same v = true) ∧ u.Paired B w

namespace Imprint

variable {r s : Value × Value → Run ConvertError (Value × Value)} {t u : Imprint}
  {ts us : List Imprint}

theorem Sound.made_key (hS : S.Local σ) {p q : String → Option String}
    (ht : t.Sound (S.convertEntry σ K V p q) c N size g) (a : c.Alike N h) {k : String}
    (text : t.given.1 = .text k) {w : Value} (scalar : w.loc? = none)
    (converts : ((S.convert σ K (p k) (.text k)).on h).1 = .ok w) : t.made.1 = w := by
  obtain ⟨v, c₁, key, rest⟩ := Run.exists_of_bind ht.ran
  obtain ⟨x, c₂, -, last⟩ := Run.exists_of_bind rest
  have result : t.result.1 = v := by
    obtain ⟨made, -⟩ := Prod.mk.inj last
    exact congrArg Prod.fst (Except.ok.inj made).symm
  rw [text] at key
  obtain ⟨N', -, -, alike⟩ := Strategies.uniform_convert hS.constructs hS.uniform K N (p k)
    (.text k) (.text k) (.scalar rfl) c h a
  have key' : (S.convert σ K (p k) (.text k)).on c = (.ok v, c₁) := key
  rw [key', converts] at alike
  cases alike with
  | ok alike =>
    obtain rfl := Value.Alike.eq_of_scalar alike (.inr scalar)
    have made := ht.like.1
    rw [result] at made
    exact (Value.Alike.eq_of_scalar made (.inl scalar)).symm

/-! Imprints of the same entries in two graphs, one of which had them in another order. -/

section Both

variable {d : Value × Value → Value × Value} {es raw : List (Value × Value)}
  (hts : Series r c N size h (es.map d) ts) (hus : Series s c N size g (raw.map d) us)
  (concur : ∀ u ∈ us, (r u.given).Concurs (s u.given))
  (perm : raw.Perm es) (scalar : ∀ u ∈ us, u.made.1.loc? = none)
include hts hus concur perm scalar

theorem exists_beside {P : Value × Value → Value × Value → Prop}
    (made : List.Forall₂ P es (ts.map (·.made))) :
    ∃ fs, fs.Perm (ts.map (·.made)) ∧ (es = raw → fs = ts.map (·.made)) ∧
      List.Forall₂ P raw fs ∧
      List.Forall₂ (MapEntries.Beside (Value.Paired (Pairs ts us))) fs (us.map (·.made)) := by
  have each : List.Forall₂ (fun e t => t.given = d e ∧ P e t.made) es ts :=
    (List.forall₂_map_right_iff.1 made).mp (fun _ _ hm hd => ⟨Eq.symm hd, hm⟩)
      (forall₂_of_map_eq hts.given.symm)
  obtain ⟨ts', each', perm', same⟩ : ∃ ts' : List Imprint,
      List.Forall₂ (fun e t => t.given = d e ∧ P e t.made) raw ts' ∧ ts'.Perm ts ∧
        (es = raw → ts' = ts) := by
    by_cases same : es = raw
    · exact ⟨ts, same ▸ each, .refl _, fun _ => rfl⟩
    · obtain ⟨ts', each', perm'⟩ := List.perm_comp_forall₂ perm each
      exact ⟨ts', each', perm', fun eq => absurd eq same⟩
  have beside : List.Forall₂
      (fun t u => MapEntries.Beside (Value.Paired (Pairs ts us)) t.made u.made) ts' us := by
    refine forall₂_of_common each' (forall₂_of_map_eq hus.given.symm) (fun e t u ht hu inT inU => ?_)
      (fun t ht => perm'.mem_iff.1 ht) fun _ => id
    obtain ⟨key, value⟩ := paired_made hts.sound hus.sound concur inT inU (ht.1.trans hu)
    exact ⟨key.eq_of_scalar (scalar u inU), value⟩
  refine ⟨ts'.map (·.made), perm'.map _, fun eq => by rw [same eq], ?_, ?_⟩
  · exact List.forall₂_map_right_iff.2 (each'.imp fun _ _ h => h.2)
  · exact List.forall₂_map_left_iff.2 (List.forall₂_map_right_iff.2 beside)

theorem exists_matched :
    ∃ fs, fs.Perm (ts.map (·.made)) ∧ (es = raw → fs = ts.map (·.made)) ∧
      List.Forall₂ (MapEntries.Beside (Value.Matches (Pairs ts us))) fs (us.map (·.made)) := by
  have any : List.Forall₂ (fun _ _ => True) es (ts.map (·.made)) :=
    List.forall₂_map_right_iff.2 ((forall₂_of_map_eq hts.given.symm).imp fun _ _ _ => trivial)
  obtain ⟨fs, order, unmoved, -, beside⟩ := exists_beside hts hus concur perm scalar any
  exact ⟨fs, order, unmoved, beside.imp fun x y hy => ⟨hy.1, x.2, .inl rfl, hy.2⟩⟩

theorem matched_of_stayed (stayed : List.Forall₂ Stayed es (ts.map (·.made))) :
    List.Forall₂ (MapEntries.Beside (Value.Matches (Pairs ts us))) raw (us.map (·.made)) := by
  obtain ⟨fs, -, -, kept, beside⟩ := exists_beside hts hus concur perm scalar stayed
  exact forall₂_trans kept beside fun x y z hx hy => ⟨hx.1.symm.trans hy.1, y.2, hx.2, hy.2⟩

end Both

end Imprint

theorem forall₂_stayed_self (es : List (Value × Value)) : List.Forall₂ Stayed es es :=
  List.forall₂_same.2 fun _ _ => ⟨rfl, .inl rfl⟩

theorem forall₂_stayed {es fs : List (Value × Value)} (texts : ∀ e ∈ es, ∃ k, e.1 = .text k)
    (length : es.length = fs.length) (same : sameEntries es fs = true) :
    List.Forall₂ Stayed es fs := by
  induction es generalizing fs with
  | nil =>
    rw [List.length_eq_zero_iff.1 length.symm]
    exact .nil
  | cons e es ih =>
    cases fs with
    | nil => cases length
    | cons f fs =>
      obtain ⟨key, v⟩ := e
      obtain ⟨l, w⟩ := f
      rw [List.forall_mem_cons] at texts
      obtain ⟨k, rfl⟩ : ∃ k, key = .text k := texts.1
      simp only [sameEntries, Bool.and_eq_true] at same
      have text : l = .text k := by
        cases l <;> simp_all [Value.same]
      exact .cons ⟨text, .inr same.1.2⟩ (ih texts.2 (Nat.succ.inj length) same.2)

namespace Strategies

variable {shape s : TableShape} {name : String} {m : Loc}

/-- The entries with which a map is refilled are imprints of the given ones. -/
theorem Refilled.exists_imprints {es : List (Value × Value)} {h' : Heap}
    (refilled : S.Refilled σ shape K V (some (wholePath name)) s es h m h') (hS : S.Local σ)
    (service : S.service = none)
    (served : ∀ e ∈ es, ∃ k, e.1 = .text k ∧ S.ServesAlike σ K V name k) (a : c.Alike N h)
    (closed : h.Closed (· ∈ N)) (within : ∀ e ∈ es, e.1.Within (· ∈ N) ∧ e.2.Within (· ∈ N)) :
    ∃ (r : Value × Value → Run ConvertError (Value × Value)) (ts : List Imprint),
      (∀ k v, S.ServesAlike σ K V name k →
        (r (.text k, v)).Concurs (S.convertAlone σ K V name (.text k, v))) ∧
      Imprint.Series r c N h.size h' (es.map N.entry) ts ∧
      ((shape.admits s = true ∧ h'.entries m = es) ∧ List.Forall₂ Stayed es (ts.map (·.made)) ∨
        h'.entries m = MapEntries.ofList (shape.adopt s) (ts.map (·.made))) := by
  have imprinted {r : Value × Value → Run ConvertError (Value × Value)} {fs : List (Value × Value)}
      {g : Heap} (quiet : Run.Derives σ r) (turns : Run.Turns r (fun _ g => g) h es fs g)
      (grown : g.Extends h') :
      ∃ ts, Imprint.Series r c N h.size h' (es.map N.entry) ts ∧ ts.map (·.made) = fs := by
    have spares : SparesAfter (fun _ => False) fun _ g => g := fun _ _ => ⟨rfl, fun _ _ => rfl⟩
    obtain ⟨ts, series, made⟩ := turns.exists_imprints quiet spares (fun _ => False.elim) a closed
      (Names.alike_entries within)
    exact ⟨ts, series.more grown, made⟩
  rcases refilled with ⟨⟨fits, entries⟩, grown, key, value, unserved⟩ |
    ⟨fs, g, ran, grown, outcome⟩
  · have kept : ∀ e ∈ es, ∀ g, (S.convertAlone σ K V name e).on g = (.ok e, g) := by
      rintro ⟨l, v⟩ he g
      obtain ⟨k, text, alike⟩ := served _ he
      obtain rfl : l = .text k := text
      exact alike.on_convertAlone service key value unserved v g
    obtain ⟨ts, series, made⟩ :=
      imprinted (derives_convertEntry hS) (turns_of_kept kept h) grown
    exact ⟨_, ts, fun _ _ _ => .refl _, series,
      .inl ⟨⟨fits, entries⟩, made ▸ forall₂_stayed_self es⟩⟩
  · have texts : ∀ e ∈ es, ∃ k, e.1 = .text k := fun e he =>
      (served e he).imp fun _ h => h.1
    obtain ⟨ts, series, rfl⟩ :=
      imprinted (derives_convertEntry hS) (turns_of_convertEntries texts ran) grown
    refine ⟨_, ts, fun k v alike => alike.concurs service v, series, ?_⟩
    refine outcome.imp_left fun stays => ⟨stays.1, forall₂_stayed texts ?_ stays.2⟩
    simpa using series.length_eq.symm

end Strategies

end Imprints

end PropertyAccess
