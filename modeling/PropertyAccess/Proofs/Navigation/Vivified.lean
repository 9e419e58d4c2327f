import PropertyAccess.Proofs.Navigation.Frame
import PropertyAccess.Proofs.Navigation.Origin

/-! Values that are made for missing ones. What is made for a type is written to the place
that lacks it, and is read again there. Since it is new and leads only to what is new, all
that happens to it later is seen from the graph before as one addition: null has given way to
a value, or a map has one more entry. -/

namespace PropertyAccess

def Surroundings.Shows (Θ : Labels) (g : Heap) (A : Surroundings) : Prop :=
  ∀ S h, A.Fit S h → g.Adds Θ h

def Node.Added (σ : Schema) (Θ : Labels) (n : Node) (g : Heap) (p : Place) (v : Value)
    (h : Heap) : Prop :=
  ∃ (A : Surroundings) (S : Loc → Prop) (P : Value → Prop), A.Shows Θ g ∧ A.Fit S h ∧
    n.Ground (.enclosed σ A) S p P ∧ v.Within S ∧ P v

theorem Strategies.lenient_suited (σ : Schema) (required : Ty) :
    Value.Lenient (Suited σ required) where
  null suited := absurd suited.notNull (by simp [Value.isNull])
  array {elem l} m suited := by
    have unwrapped := suited.array elem l rfl
    refine ⟨rfl, σ.accepts_array_self unwrapped m, fun e i same => ?_⟩
    cases same
    exact unwrapped

/-- Another cell for the same container, in which all is found that was found before: elements
at their positions, and entries by their keys. -/
inductive Cell.Retains : Cell → Cell → Prop
  | slots (fields : List (String × Value)) : Retains (.slots fields) (.slots fields)
  | items (values more : List Value) : Retains (.items values) (.items (values ++ more))
  | entries {pairs after : List (Value × Value)}
      (found : ∀ key i e, pairs.findIdx? (·.1.same key) = some i → pairs[i]? = some e →
        ∃ j, after.findIdx? (·.1.same key) = some j ∧ after[j]? = some e) :
      Retains (.entries pairs) (.entries after)

theorem Cell.Retains.refl (c : Cell) : c.Retains c := by
  cases c with
  | slots fields => exact .slots fields
  | items values => simpa using Retains.items values []
  | entries pairs => exact .entries fun _ i _ found value => ⟨i, found, value⟩

theorem Cell.Retains.of_changesOnly {g h : Heap} {l m : Loc} {f : Cell → Cell} {c : Cell}
    (changes : g.ChangesOnly h l f) (retains : ∀ c, g.cell? l = some c → c.Retains (f c))
    (cell : g.cell? m = some c) : ∃ d, h.cell? m = some d ∧ c.Retains d := by
  have now := changes.cell?_eq m (Heap.lt_size_of_cell? cell)
  split at now
  · rename_i same
    subst same
    exact ⟨f c, by rw [now, cell]; rfl, retains c cell⟩
  · exact ⟨c, by rw [now, cell], .refl c⟩

namespace Heap

variable {σ : Schema} {k : Nat} {h h' : Heap} {v : Value} {type : Ty}

theorem Own.mono (own : h.Own k v) (hx : h.Extends h') : h'.Own k v := by
  obtain ⟨T, closed, new, within⟩ := own
  exact ⟨T, closed.mono hx, new, within⟩

structure Made (σ : Schema) (k : Nat) (h : Heap) (type : Ty) (v : Value) : Prop where
  older : k ≤ h.size
  suited : Strategies.Suited σ type v
  own : h.Own k v

theorem Made.fit (made : h.Made σ k type v) :
    ∃ S, (Surroundings.since k).Fit S h ∧ v.Within S := by
  obtain ⟨S, closed, new, within⟩ := made.own
  exact ⟨S, ⟨closed, made.older, new⟩, within⟩

theorem Made.mono (made : h.Made σ k type v) (hx : h.Extends h') : h'.Made σ k type v :=
  ⟨Nat.le_trans made.older hx.size_le, made.suited, made.own.mono hx⟩

end Heap

namespace Node

variable {σ : Schema} {n : Node} {Θ : Labels} {g h : Heap} {k : Nat} {p : Place} {v : Value}
  {type : Ty} {spot : Spot} {before : List Spot}

theorem ends_defaultValue_made (hσ : σ.MakesOwn) (older : k ≤ h.size) (type : Ty) :
    (σ.defaultValue type).Ends h (fun v h' => h.Extends h' ∧ h'.Made σ k type v)
      (fun _ h' => h.Extends h') := by
  have stays := (hσ.stays _).defaultValue _ type h (Surroundings.fit_since older)
  have harmless := (Schema.harmless_defaultValue hσ.makesNew.confined type).ends h
  have accepted := Schema.gives_defaultValue (σ := σ) type h
  have made := Schema.gives_defaultValue_made (σ := σ) type h
  refine (harmless.and (stays.and (accepted.and made))).mono (fun v h' hv => ?_) fun _ _ he => he.1
  obtain ⟨hx, ⟨S, -, fits, within⟩, instance_, notNull, array⟩ := hv
  refine ⟨hx, fits.hold.1, ⟨notNull, instance_, fun e l same => ?_⟩, S, fits.closed, fits.hold.2,
    within⟩
  rw [array e l same]
  rfl

/-- A place holds the same as long as the cells on the way retain what they have. -/
theorem Holds.retained (hp : n.Holds σ g p v type spot before)
    (kept : ∀ m c, g.cell? m = some c → ∃ d, h.cell? m = some d ∧ c.Retains d) :
    ∃ spot before, n.Holds σ h p v type spot before ∧ ∀ s ∈ spot :: before, s.1 < g.size := by
  induction hp with
  | @field _ _ i _ _ handle access value =>
    have cell := Heap.cell?_of_slot? value
    obtain ⟨d, now, retains⟩ := kept _ _ cell
    cases retains
    refine ⟨_, _, .field handle access ?_, List.forall_mem_singleton.2 (Heap.lt_size_of_cell? cell)⟩
    rw [Heap.slot?, Heap.slots, now]
    exact value
  | @item _ _ _ _ _ _ l _ _ i _ sequence index value ih =>
    obtain ⟨spot, before, inner, old⟩ := ih
    have cell := Heap.cell?_of_item value
    obtain ⟨d, now, retains⟩ := kept _ _ cell
    cases retains
    refine ⟨_, _, .item inner sequence index ?_,
      List.forall_mem_cons.2 ⟨Heap.lt_size_of_cell? cell, old⟩⟩
    rw [Heap.items, now]
    exact (List.getElem?_append_left (List.getElem?_eq_some_iff.1 value).1).trans value
  | @entry _ _ _ k e _ l _ _ i _ converts found value ih =>
    obtain ⟨spot, before, inner, old⟩ := ih
    have cell := Heap.cell?_of_entry value
    obtain ⟨d, now, retains⟩ := kept _ _ cell
    cases retains with
    | entries kept =>
      obtain ⟨j, found, value⟩ := kept k i e found value
      refine ⟨_, _, .entry inner converts (i := j) ?_ ?_,
        List.forall_mem_cons.2 ⟨Heap.lt_size_of_cell? cell, old⟩⟩
      · rw [Heap.entries, now]
        exact found
      · rw [Heap.entries, now]
        exact value

section Conversions

variable (hσ : σ.Orderly) (hn : n.Native Θ)
include hσ hn

omit hσ in
theorem gives_convertFor_suited (path : String) (suited : Strategies.Suited σ type v) :
    (n.convertFor σ path v type).Gives (Strategies.Suited σ type) :=
  fun h => (Run.ends_mapError _ _).2 (hn.plain.gives_convert_suited suited h)

theorem ends_convertFor_made (path : String) (made : h.Made σ k type v) :
    (n.convertFor σ path v type).Ends h (fun w h' => h.Extends h' ∧ h'.Made σ k type w)
      (fun _ h' => h.Extends h') := by
  obtain ⟨S, fits, within⟩ := made.fit
  have stays := stays_convertFor (hσ.makesOwn.stays _) (hn.stays _) path within type h fits
  have harmless := (harmless_convertFor hσ.makesOwn.makesNew hn.harmless path v type).ends h
  have gives := gives_convertFor_suited hn path made.suited h
  refine (harmless.and (stays.and gives)).mono (fun w h' hw => ?_) fun _ _ he => he.1
  obtain ⟨hx, ⟨S', -, fits', within', -⟩, suited⟩ := hw
  exact ⟨hx, fits'.hold.1, suited, S', fits'.closed, fits'.hold.2, within'⟩

theorem Converts.made {path : String} {raw : Value} {h' : Heap}
    (converts : n.Converts σ h path raw type v h') (made : h.Made σ k type raw) :
    h.Extends h' ∧ h'.Made σ k type v := by
  obtain ⟨g, hx, ran⟩ := converts
  obtain ⟨hy, made⟩ := (ends_convertFor_made hσ hn path (made.mono hx)).of_ok ran
  exact ⟨hx.trans hy, made⟩

theorem Annexed.ends_read {S : Loc → Prop} {P : Value → Prop}
    (hp : n.Annexed σ h S spot P p) (shows : (Surroundings.around h S spot P).Shows Θ g)
    (shown : String) :
    (n.read σ shown p).Ends h (fun v h' => n.Added σ Θ g p v h') (fun _ h' => g.Adds Θ h') := by
  have ground := hp.ground hσ.makesOwn hn.harmless (hn.stays _)
  refine (ground.reads shown S (fun _ => id) h hp.fit).mono (fun v h' hv => ?_) fun _ h' he => ?_
  · obtain ⟨S', more, fits, within, own⟩ := hv
    exact ⟨_, S', P, shows, fits, ground.later more, within, own⟩
  · obtain ⟨S', -, fits⟩ := he
    exact shows S' h' fits

theorem Annexed.ends_given {S : Loc → Prop} (hp : n.Annexed σ h S spot (Strategies.Suited σ type) p)
    (shows : (Surroundings.around h S spot (Strategies.Suited σ type)).Shows Θ g) (shown : String)
    (missing : PathError) :
    (do
      let v ← n.read σ shown p
      if v.isNull then throw missing else return v : Run PathError Value).Ends h
      (fun v h' => n.Added σ Θ g p v h') (fun _ h' => g.Adds Θ h') := by
  rw [Run.ends_bind]
  refine (hp.ends_read hσ hn shows shown).mono (fun v h' hv => ?_) fun _ _ => id
  split
  · obtain ⟨A, S', P, shows, fits, -⟩ := hv
    exact shows S' h' fits
  · exact hv

end Conversions

section Missing

variable (hσ : σ.Orderly) (hn : n.Native Θ) (hc : g.Coherent Θ)
include hσ hn hc

omit hσ hn in
theorem shows_store (hp : n.Holds σ g p .null type spot before)
    (free : ∀ s elem, Θ[spot.1]? ≠ some (.set s elem)) (hx : g.Extends h) {S : Loc → Prop}
    {P : Value → Prop} (new : ∀ l, S l → g.size ≤ l) (there : ∀ v, P v → v.isNull = false)
    (w : Value) : (Surroundings.around (h.store spot w) S spot P).Shows Θ g := by
  intro S' f fits
  obtain ⟨v, own, changes⟩ := fits.changesOnly (.store hx) new
  exact .edit hc hp.at_spot free (.made (there v own))
    (changes.congr fun c _ => c.edit_edit spot.2 w v)

/-- A place that holds null is given a value, which is new. -/
theorem Holds.ends_vivify (hp : n.Holds σ g p .null type spot before) (exact : g.Exact σ Θ)
    (hx : g.Extends h) (shown : String) :
    (n.vivify σ p (n.read σ shown p) (n.write σ p)).Ends h
      (fun v h' => n.Added σ Θ g p v h') (fun _ h' => g.Adds Θ h') := by
  have unchanged {f : Heap} (later : h.Extends f) : g.Adds Θ f := .of_extends hc (hx.trans later)
  unfold vivify
  dsimp only
  split
  · exact unchanged (.refl h)
  rename_i known
  have declared : n.innerType σ p.root p.depth = type :=
    (hp.innerType_eq exact hn).resolve_right known
  rw [declared, Run.ends_bind, Run.ends_mapError]
  refine (ends_defaultValue_made hσ.makesOwn hx.size_le type).mono (fun fresh h₁ hfresh => ?_)
    fun _ _ => unchanged
  obtain ⟨hx₁, made⟩ := hfresh
  rw [Run.ends_bind]
  refine (hp.ends_store hσ.makesOwn.makesNew hn hc (hx.trans hx₁) fresh).mono
    (fun _ h₃ hw => ?_) fun _ _ he => unchanged (hx₁.trans he)
  obtain ⟨free, w, h₂, converts, -, rfl⟩ := hw
  obtain ⟨hx₂, made⟩ := converts.made hσ hn made
  obtain ⟨S, closed, new, within⟩ := made.own
  have later := hx.trans (hx₁.trans hx₂)
  have apart : ∀ s ∈ spot :: before, ¬ S s.1 := fun s hs inside =>
    Nat.not_le.2 (hp.lt_size s hs) (new s.1 inside)
  have annexed : n.Annexed σ (h₂.store spot w) S spot (Strategies.Suited σ type) p := {
    holds := by
      have stored := (hp.mono later).store_self (hp.not_mem_before apart (.scalar rfl)) w
      refine ⟨w, type, before, stored, within, made.suited, apart, ?_⟩
      rintro h raw u h' suited ⟨f, -, ran⟩
      exact (gives_convertFor_suited hn _ suited f).of_ok ran
    closed := closed.of_cells fun l hl => Heap.cell?_store_of_ne fun same =>
      apart spot List.mem_cons_self (same ▸ hl)
    lenient := Strategies.lenient_suited σ type }
  have shows := shows_store hc hp free later new (P := Strategies.Suited σ type)
    (fun _ suited => suited.notNull) w
  exact annexed.ends_given hσ hn shows shown _

end Missing

structure Keyed (σ : Schema) (n : Node) (g : Heap) (holder : Place) (key : String) (k : Value)
    (h : Heap) : Prop where
  converts : ∃ f f', g.size ≤ f.size ∧
    (n.convertKey σ holder.root holder.depth key).on f = (.ok k, f')
  own : h.Own g.size k

section Entries

variable {holder : Place} {key : String} {shape : TableShape} {l : Loc} {w : Value}
  {f : Heap} (hσ : σ.Orderly) (hn : n.Native Θ)
  (inner : n.Holds σ g holder (.map shape l) type spot before)
include hσ hn inner

theorem ends_read_absent (old : l < g.size)
    (absent : ∀ f k f', g.size ≤ f.size →
      (n.convertKey σ holder.root holder.depth key).on f = (.ok k, f') →
      MapEntries.contains (g.entries l) k = false) (hx : g.Extends h) (shown : String) :
    (n.read σ shown (.element holder key)).Ends h (fun v h' => v = .null ∧ g.Extends h')
      (fun _ h' => g.Extends h') := by
  have makesNew := hσ.makesOwn.makesNew
  rw [read_element, Run.ends_bind]
  refine (ends_readHolder rfl ((inner.mono hx).ends_read makesNew hn.harmless shown)).mono
    (fun c h₁ hc => ?_) fun _ _ => False.elim
  obtain ⟨rfl, hx₁⟩ := hc
  have later := hx.trans hx₁
  refine (ends_readMap makesNew hn.harmless).mono (fun v h₂ hv => ?_) fun _ _ => later.trans
  obtain ⟨k, ran, hx₂, found⟩ := hv
  have missing := absent h₁ k h₂ later.size_le ran
  rw [(later.trans hx₂).entries_eq old, MapEntries.get?_eq_none_iff.2 missing] at found
  exact ⟨(found.resolve_left (by simp)).2.2, later.trans hx₂⟩

theorem ends_write_absent {raw : Value} (hx : g.Extends h)
    (made : h.Made σ g.size (n.innerType σ holder.root (holder.depth + 1)) raw) :
    (n.write σ (.element holder key) raw).Ends h
      (fun _ h' => ∃ k w f, g.Extends f ∧ n.Keyed σ g holder key k f ∧
        f.Made σ g.size (n.innerType σ holder.root (holder.depth + 1)) w ∧
        h' = f.insertEntry shape l k w)
      (fun _ h' => g.Extends h') := by
  have makesNew := hσ.makesOwn.makesNew
  refine (inner.mono hx).ends_write_element makesNew hn.harmless rfl fun h₁ hx₁ => ?_
  unfold writeElement
  refine (ends_writeMap_insert makesNew hn.harmless _ _ _ _ _ _ h₁).mono (fun _ h' hs => ?_)
    fun _ _ => (hx.trans hx₁).trans
  obtain ⟨k, h₂, w, h₃, keyed, hx₂, converts, hx₃, rfl⟩ := hs
  obtain ⟨-, -, T, closed, new, within⟩ := (ends_convertKey_own hσ hn _ _ key h₁).of_ok keyed
  obtain ⟨-, made⟩ := converts.made hσ hn (made.mono (hx₁.trans hx₂))
  have older := (hx.trans hx₁).size_le
  exact ⟨k, w, h₃, (hx.trans hx₁).trans (hx₂.trans hx₃), ⟨⟨h₁, h₂, older, keyed⟩, T,
    closed.mono hx₃, fun m hm => Nat.le_trans older (new m hm), within⟩, made, rfl⟩

section Keys

variable {k : Value} (cell : g.cell? l = some (.entries (g.entries l))) (hx : g.Extends f)
include cell hx

omit hσ hn inner in
theorem cell?_insertEntry (w : Value) :
    (f.insertEntry shape l k w).cell? l =
      some (.entries (MapEntries.insert shape (g.entries l) k w)) := by
  have changes : g.ChangesOnly (f.insertEntry shape l k w) l
      (Cell.mapEntries (MapEntries.insert shape · k w)) := .editEntries hx _
  rw [changes.cell?_eq l (Heap.lt_size_of_cell? cell), if_pos rfl, cell]
  rfl

omit hσ hn inner in
theorem Holds.inserted (hp : n.Holds σ g p v type spot before)
    (absent : MapEntries.contains (g.entries l) k = false) (s : TableShape) (w : Value) :
    ∃ spot' before', n.Holds σ (f.insertEntry s l k w) p v type spot' before' ∧
      ∀ t ∈ spot' :: before', t.1 < g.size := by
  have changes : g.ChangesOnly (f.insertEntry s l k w) l
      (Cell.mapEntries (MapEntries.insert s · k w)) := .editEntries hx _
  refine hp.retained fun m c there => Cell.Retains.of_changesOnly changes (fun c here => ?_) there
  obtain rfl := Option.some.inj (cell.symm.trans here)
  exact .entries fun _ _ _ found value =>
    (MapEntries.put_insert s _ k w).findIdx?_of_found absent found value

variable (keyed : n.Keyed σ g holder key k f)
include keyed

omit inner in
/-- A key that is not found when it was put in comes of its text as missing again. -/
theorem Keyed.absent_again (unfound : ¬ (k.loc? = none ∧ k.same k = true))
    (absent : ∀ f k f', g.size ≤ f.size →
      (n.convertKey σ holder.root holder.depth key).on f = (.ok k, f') →
      MapEntries.contains (g.entries l) k = false) (w : Value) {h h' : Heap} {u : Value}
    (grown : (f.insertEntry shape l k w).size ≤ h.size)
    (ran : (n.convertKey σ holder.root holder.depth key).on h = (.ok u, h')) :
    MapEntries.contains ((f.insertEntry shape l k w).entries l) u = false := by
  have later : f.size ≤ h.size := by
    refine Nat.le_trans ?_ grown
    exact (Heap.ChangesOnly.editEntries (.refl f) (MapEntries.insert shape · k w)).size_le
  have missing := absent h u h' (Nat.le_trans hx.size_le later) ran
  rw [MapEntries.contains, List.any_eq_false] at missing
  have apart : ¬ k.same u = true := by
    intro same
    refine unfound ?_
    obtain ⟨-, -, T, -, new, within⟩ := (ends_convertKey_own hσ hn _ _ key h).of_ok ran
    cases target : u.loc? with
    | none =>
      obtain ⟨h₁, h₂, -, first⟩ := keyed.converts
      obtain ⟨h₃, again⟩ := settled_convertKey hσ hn _ _ key h h' u ran target h₁
      obtain rfl : k = u := Except.ok.inj (congrArg Prod.fst (first.symm.trans again))
      exact ⟨target, same⟩
    | some m =>
      obtain ⟨S, closed, -, inside⟩ := keyed.own
      have older := closed.lt_size (inside m ((Value.loc?_of_same same).trans target))
      exact absurd (Nat.lt_of_lt_of_le older later) (Nat.not_lt.2 (new m (within m target)))
  rw [Heap.entries, cell?_insertEntry cell hx, MapEntries.contains, List.any_eq_false]
  exact fun e he => (MapEntries.forall_insert (P := fun x => ¬ x.same u = true)
    (Q := fun _ => True) apart trivial (fun e he => ⟨missing e he, trivial⟩) e he).1

/-- The entry is found and is an addition, whatever becomes of its value. -/
theorem Keyed.annexed (hc : g.Coherent Θ) (scalar : k.loc? = none) (same : k.same k = true)
    (absent : MapEntries.contains (g.entries l) k = false)
    (made : f.Made σ g.size (n.innerType σ holder.root (holder.depth + 1)) w) :
    ∃ j S, n.Annexed σ (f.insertEntry shape l k w) S (l, j)
        (Strategies.Suited σ (n.innerType σ holder.root (holder.depth + 1))) (.element holder key) ∧
      (Surroundings.around (f.insertEntry shape l k w) S (l, j)
        (Strategies.Suited σ (n.innerType σ holder.root (holder.depth + 1)))).Shows Θ g := by
  obtain ⟨S, closed, new, within⟩ := made.own
  have old := Heap.lt_size_of_cell? cell
  have now : (f.insertEntry shape l k w).cell? l =
      some (.entries (MapEntries.insert shape (g.entries l) k w)) := cell?_insertEntry cell hx w
  have changes : g.ChangesOnly (f.insertEntry shape l k w) l
      (Cell.mapEntries (MapEntries.insert shape · k w)) := .editEntries hx _
  obtain ⟨j, e, found, value, rfl⟩ :=
    (MapEntries.put_insert shape (g.entries l) k w).findIdx? same
  obtain ⟨spot', before', holds, cells⟩ := inner.inserted cell hx absent shape e.2
  obtain ⟨h₁, h₂, -, ran⟩ := keyed.converts
  have converts := settled_convertKey hσ hn _ _ key h₁ h₂ k ran scalar
  have entries : (f.insertEntry shape l k e.2).entries l =
      MapEntries.insert shape (g.entries l) k e.2 := by
    rw [Heap.entries, now]
  refine ⟨j, S, ?_, ?_⟩
  · refine {
      holds := ⟨e.2, _, _, .entry holds converts (by rw [entries, found]) (by rw [entries, value]),
        within, made.suited, ?_, ?_⟩
      closed := closed.of_cells fun m hm => ?_
      lenient := Strategies.lenient_suited σ _ }
    · exact List.forall_mem_cons.2 ⟨fun inside => Nat.not_lt.2 (new l inside) old,
        fun t ht inside => Nat.not_lt.2 (new _ inside) (cells t ht)⟩
    · rintro h raw u h' suited ⟨f, -, ran⟩
      exact (gives_convertFor_suited hn _ suited f).of_ok ran
    · have apart : m ≠ l := fun same => Nat.not_lt.2 (new m hm) (same ▸ old)
      exact (Heap.ChangesOnly.editEntries (.refl f) (MapEntries.insert shape · k e.2)).of_ne
        (closed.lt_size hm) apart
  · intro S' h fits
    obtain ⟨v, -, edited⟩ := fits.changesOnly changes new
    have replaced : g.ChangesOnly h l (Cell.mapEntries (MapEntries.insert shape · k v)) := by
      refine edited.congr fun c there => ?_
      obtain rfl := Option.some.inj (cell.symm.trans there)
      exact congrArg Cell.entries (MapEntries.modify_insert absent found)
    exact .insert hc (inner.labelled hc hn.wrapped) absent replaced

end Keys

end Entries

/-- A map that lacks a key is given an entry for it, whose value is new. -/
theorem Vacant.ends_vivify (vacant : n.Vacant σ g p) (hσ : σ.Orderly) (hn : n.Native Θ)
    (hc : g.Coherent Θ) (hx : g.Extends h) (shown : String) :
    (n.vivify σ p (n.read σ shown p) (n.write σ p)).Ends h
      (fun v h' => n.Added σ Θ g p v h') (fun _ h' => g.Adds Θ h') := by
  have unchanged {f : Heap} (later : g.Extends f) : g.Adds Θ f := .of_extends hc later
  cases vacant with
  | @key holder key shape l type spot before inner absent =>
    have label := inner.labelled hc hn.wrapped
    have cell := (hc.cell?_entries label).1
    unfold vivify
    dsimp only
    split
    · exact unchanged hx
    rw [Run.ends_bind, Run.ends_mapError]
    refine (ends_defaultValue_made hσ.makesOwn hx.size_le _).mono (fun fresh h₁ hfresh => ?_)
      fun _ _ later => unchanged (hx.trans later)
    obtain ⟨hx₁, made⟩ := hfresh
    rw [Run.ends_bind]
    refine (ends_write_absent hσ hn inner (hx.trans hx₁) made).mono (fun _ h₂ hw => ?_)
      fun _ _ => unchanged
    obtain ⟨k, w, f, later, keyed, made, rfl⟩ := hw
    obtain ⟨h₃, h₄, older, ran⟩ := keyed.converts
    have missing := absent h₃ k h₄ older ran
    by_cases found : k.loc? = none ∧ k.same k = true
    · obtain ⟨j, S, annexed, shows⟩ :=
        keyed.annexed hσ hn inner cell later hc found.1 found.2 missing made
      exact annexed.ends_given hσ hn shows shown _
    -- The entry that was put in is not found, so nothing is there.
    have changes : g.ChangesOnly (f.insertEntry shape l k w) l
        (Cell.mapEntries (MapEntries.insert shape · k w)) := .editEntries later _
    have adds : g.Adds Θ (f.insertEntry shape l k w) := .insert hc label missing changes
    obtain ⟨spot', before', holds, -⟩ := inner.inserted cell later missing shape w
    rw [Run.ends_bind]
    refine (ends_read_absent hσ hn holds
      (Nat.lt_of_lt_of_le (Heap.lt_size_of_cell? cell) changes.size_le)
      (fun h u h' => keyed.absent_again hσ hn cell later found absent w) (.refl _) shown).mono
      (fun v h' hv => ?_) fun _ _ => adds.trans_extends
    obtain ⟨rfl, later⟩ := hv
    exact adds.trans_extends later

end Node

end PropertyAccess
