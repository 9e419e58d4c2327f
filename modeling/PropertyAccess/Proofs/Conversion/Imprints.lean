import Mathlib.Data.List.Nodup
import Mathlib.Data.List.Pairwise
import PropertyAccess.Proofs.Conversion.Harmless
import PropertyAccess.Proofs.Conversion.Interchange
import PropertyAccess.Proofs.Conversion.Uniform
import PropertyAccess.Proofs.Graph.Pairing

/-! Entries that are made one after the other, in two graphs. Both graphs have the same part in
them, which holds what the entries are made of, and what is around it in either does not
matter. What becomes of an entry in a graph is an imprint of what would become of it in the
part alone: old cells of the part, and new ones that belong to this entry. So the entries of
the two graphs are equal up to the identity of what is new, in whatever order they were
made. -/

namespace PropertyAccess

variable {σ : Schema} {ε : Type} {h h' g g' c : Heap} {N : Names} {size : Nat}

/-- Entries go in, and entries of what was given and of new cells come out, the same way
whatever the names of locations. -/
structure Run.Derives [Likened ε] (σ : Schema) (r : Value × Value → Run ε (Value × Value)) :
    Prop where
  harmless : ∀ e, (r e).Harmless
  alike : ∀ (N : Names) d e, Like N d e → (r d).Alike N (r e)
  stays : ∀ (A : Surroundings) (S : Loc → Prop) (e : Value × Value),
    e.1.Within S → e.2.Within S →
      (r e).Stays (.enclosed σ A) S fun S' f => f.1.Within S' ∧ f.2.Within S'

inductive Run.Turns (r : Value × Value → Run ε (Value × Value))
    (after : Value × Value → Heap → Heap) :
    Heap → List (Value × Value) → List (Value × Value) → Heap → Prop
  | nil (h : Heap) : Turns r after h [] [] h
  | cons {h h₁ h' : Heap} {e f : Value × Value} {es fs : List (Value × Value)}
      (ran : (r e).on h = (.ok f, h₁)) (rest : Turns r after (after f h₁) es fs h') :
      Turns r after h (e :: es) (f :: fs) h'

structure Imprint where
  given : Value × Value
  result : Value × Value
  part : Heap
  names : Names
  made : Value × Value
  /-- The cells that it leads to. -/
  own : Loc → Prop

structure Imprint.Sound (r : Value × Value → Run ε (Value × Value)) (c : Heap) (N : Names)
    (size : Nat) (h : Heap) (t : Imprint) : Prop where
  ran : (r t.given).on c = (.ok t.result, t.part)
  later : N <+: t.names
  ordered : t.names.Ordered
  like : Like t.names t.result t.made
  cell : ∀ (i l : Loc), t.names[i]? = some l → t.own l → Like t.names (t.part.cell? i) (h.cell? l)
  closed : h.Closed t.own
  within : t.made.1.Within t.own ∧ t.made.2.Within t.own
  new : ∀ l, t.own l → l ∈ N ∨ size ≤ l

def Surroundings.beyond (T : Loc → Prop) (size : Nat) : Surroundings where
  Hold S h := size ≤ h.size ∧ ∀ l, S l → T l ∨ size ≤ l
  later older grown _ _ made :=
    ⟨Nat.le_trans older.1 grown, fun l hl =>
      (made l hl).elim (older.2 l) fun there => .inr (Nat.le_trans older.1 there)⟩

namespace Value

theorem Alike.within {v w : Value} (hv : Like N v w) : w.Within (· ∈ N) := by
  cases hv with
  | scalar scalar => exact .scalar scalar
  | object _ hl | array _ hl | list _ hl | set _ hl | map _ hl =>
    intro l target
    cases target
    exact List.mem_of_getElem? hl

end Value

theorem Heap.Alike.of_cells (a : c.Alike N h) (size : h.size ≤ g.size)
    (same : ∀ m ∈ N, g.cell? m = h.cell? m) : c.Alike N g :=
  ⟨a.length, a.ordered, fun m hm => Nat.lt_of_lt_of_le (a.bound m hm) size,
    fun l m hl => same m (List.mem_of_getElem? hl) ▸ a.cell l m hl⟩

namespace Imprint

variable {r : Value × Value → Run ε (Value × Value)} {t u : Imprint} {ts us : List Imprint}
  {l m : Loc}

theorem Sound.of_cells (ht : t.Sound r c N size h) (same : ∀ l, t.own l → g.cell? l = h.cell? l) :
    t.Sound r c N size g :=
  ⟨ht.ran, ht.later, ht.ordered, ht.like, fun i l hl own => same l own ▸ ht.cell i l hl own,
    ht.closed.of_cells same, ht.within, ht.new⟩

theorem Sound.anti (ht : t.Sound r c N size h) {size' : Nat} (le : size' ≤ size) :
    t.Sound r c N size' h :=
  { ht with new := fun l own => (ht.new l own).imp_right (Nat.le_trans le) }

variable {s : Value × Value → Run ε (Value × Value)}

theorem Sound.eq_of_mem (ht : t.Sound r c N size h) (hu : u.Sound s c N size g)
    (there : l ∈ N) {i : Loc} (hl : t.names[i]? = some l) (hm : u.names[i]? = some m) : m = l := by
  obtain ⟨j, hj⟩ := List.getElem?_of_mem there
  obtain rfl := (ht.ordered.inj hl (Names.getElem?_of_prefix ht.later hj)).1 rfl
  exact Option.some.inj (hm.symm.trans (Names.getElem?_of_prefix hu.later hj))

theorem Sound.result_eq (ht : t.Sound r c N size h) (hu : u.Sound s c N size g)
    (same : t.given = u.given) (concur : (r u.given).Concurs (s u.given)) :
    t.result = u.result ∧ t.part = u.part :=
  concur _ _ _ _ _ (same ▸ ht.ran) hu.ran

def Pairs (ts us : List Imprint) (l m : Loc) : Prop :=
  ∃ t ∈ ts, ∃ u ∈ us, t.given = u.given ∧ t.names.Meet u.names t.own u.own l m

structure Apart (N : Names) (ts : List Imprint) : Prop where
  own : ts.Pairwise fun t u => ∀ l, t.own l → u.own l → l ∈ N
  given : (ts.map (·.given)).Nodup

structure Series (r : Value × Value → Run ε (Value × Value)) (c : Heap) (N : Names) (size : Nat)
    (h : Heap) (ds : List (Value × Value)) (ts : List Imprint) : Prop where
  given : ts.map (·.given) = ds
  sound : ∀ t ∈ ts, t.Sound r c N size h
  own : ts.Pairwise fun t u => ∀ l, t.own l → u.own l → l ∈ N

namespace Series

variable {ds : List (Value × Value)} (hts : Series r c N size h ds ts)
include hts

theorem apart (nodup : ds.Nodup) : Apart N ts := ⟨hts.own, hts.given ▸ nodup⟩

theorem mem (ht : t ∈ ts) : t.given ∈ ds := hts.given ▸ List.mem_map_of_mem ht

theorem length_eq : ts.length = ds.length := by
  rw [← hts.given, List.length_map]

theorem of_cells (same : ∀ l, l ∈ N ∨ size ≤ l → g.cell? l = h.cell? l) :
    Series r c N size g ds ts where
  given := hts.given
  sound t ht := (hts.sound t ht).of_cells fun l own => same l ((hts.sound t ht).new l own)
  own := hts.own

theorem more (grown : h.Extends g) : Series r c N size g ds ts where
  given := hts.given
  sound t ht := (hts.sound t ht).of_cells fun l own =>
    grown.cell?_eq l ((hts.sound t ht).closed.lt_size own)
  own := hts.own

theorem anti {size' : Nat} (le : size' ≤ size) : Series r c N size' h ds ts where
  given := hts.given
  sound t ht := (hts.sound t ht).anti le
  own := hts.own

end Series

theorem Apart.eq_of_own (apart : Apart N ts) (ht : t ∈ ts) (hu : u ∈ ts) (inT : t.own l)
    (inU : u.own l) (new : l ∉ N) : t = u := by
  by_contra ne
  have : Std.Symm fun t u : Imprint => ∀ l, t.own l → u.own l → l ∈ N :=
    ⟨fun t u h l hu ht => h l ht hu⟩
  exact new (apart.own.forall ht hu ne l inT inU)

theorem Apart.eq_of_given (apart : Apart N ts) (ht : t ∈ ts) (hu : u ∈ ts)
    (same : t.given = u.given) : t = u :=
  List.inj_on_of_nodup_map apart.given ht hu same

section Pairs

/-! One way to make entries leaves its imprints in one graph, and one in the other. -/

variable (hts : ∀ t ∈ ts, t.Sound r c N size h) (hus : ∀ u ∈ us, u.Sound s c N size g)
include hts hus

theorem Pairs.mem_iff (pair : Pairs ts us l m) : (l ∈ N → m = l) ∧ (m ∈ N → m = l) := by
  obtain ⟨t, ht, u, hu, -, -, -, i, hl, hm⟩ := pair
  exact ⟨fun there => (hts t ht).eq_of_mem (hus u hu) there hl hm,
    fun there => ((hus u hu).eq_of_mem (hts t ht) there hm hl).symm⟩

theorem Pairs.kept (pair : Pairs ts us l m) : m = l ∨ size ≤ l ∧ size ≤ m := by
  obtain ⟨hl, hm⟩ := pair.mem_iff hts hus
  obtain ⟨t, ht, u, hu, -, inT, inU, -⟩ := pair
  rcases (hts t ht).new l inT with there | newL
  · exact .inl (hl there)
  · rcases (hus u hu).new m inU with there | newM
    · exact .inl (hm there)
    · exact .inr ⟨newL, newM⟩

theorem Pairs.left (apartT : Apart N ts) (apartU : Apart N us) {m' : Loc}
    (pair : Pairs ts us l m) (pair' : Pairs ts us l m') : m = m' := by
  by_cases there : l ∈ N
  · rw [(pair.mem_iff hts hus).1 there, (pair'.mem_iff hts hus).1 there]
  · obtain ⟨t, ht, u, hu, same, inT, -, i, hl, hm⟩ := pair
    obtain ⟨t', ht', u', hu', same', inT', -, i', hl', hm'⟩ := pair'
    obtain rfl := apartT.eq_of_own ht ht' inT inT' there
    obtain rfl := apartU.eq_of_given hu hu' (same.symm.trans same')
    obtain rfl := ((hts t ht).ordered.inj hl hl').1 rfl
    exact Option.some.inj (hm.symm.trans hm')

theorem Pairs.right (apartT : Apart N ts) (apartU : Apart N us) {l' : Loc}
    (pair : Pairs ts us l m) (pair' : Pairs ts us l' m) : l = l' := by
  have turned {l : Loc} (pair : Pairs ts us l m) : Pairs us ts m l := by
    obtain ⟨t, ht, u, hu, same, inT, inU, i, hl, hm⟩ := pair
    exact ⟨u, hu, t, ht, same.symm, inU, inT, i, hm, hl⟩
  exact Pairs.left hus hts apartU apartT (turned pair) (turned pair')

variable (concur : ∀ u ∈ us, (r u.given).Concurs (s u.given))
include concur

theorem Pairs.cell (pair : Pairs ts us l m) :
    ∃ c d, h.cell? l = some c ∧ g.cell? m = some d ∧ c.Paired (Pairs ts us) d := by
  obtain ⟨t, ht, u, hu, same, inT, inU, i, hl, hm⟩ := pair
  obtain ⟨c, atL, inC⟩ := (hts t ht).closed l inT
  obtain ⟨d, atM, inD⟩ := (hus u hu).closed m inU
  have likeT := (hts t ht).cell i l hl inT
  have likeU := (hus u hu).cell i m hm inU
  rw [((hts t ht).result_eq (hus u hu) same (concur u hu)).2, atL] at likeT
  rw [atM] at likeU
  refine ⟨c, d, atL, atM, ?_⟩
  generalize u.part.cell? i = x at likeT likeU
  cases likeT with
  | some likeT =>
    cases likeU with
    | some likeU =>
      exact (Cell.paired_of_alike likeT likeU inC inD).imp fun _ _ meet =>
        ⟨t, ht, u, hu, same, meet⟩

theorem paired_pairs (apartT : Apart N ts) (apartU : Apart N us) :
    Heap.Paired size (Pairs ts us) h g where
  kept _ _ pair := pair.kept hts hus
  left _ _ _ pair pair' := pair.left hts hus apartT apartU pair'
  right _ _ _ pair pair' := pair.right hts hus apartT apartU pair'
  cell _ _ pair := pair.cell hts hus concur

theorem paired_made (ht : t ∈ ts) (hu : u ∈ us) (same : t.given = u.given) :
    t.made.1.Paired (Pairs ts us) u.made.1 ∧ t.made.2.Paired (Pairs ts us) u.made.2 := by
  have likeT := (hts t ht).like
  have likeU := (hus u hu).like
  rw [((hts t ht).result_eq (hus u hu) same (concur u hu)).1] at likeT
  have into : ∀ l m, t.names.Meet u.names t.own u.own l m → Pairs ts us l m :=
    fun _ _ meet => ⟨t, ht, u, hu, same, meet⟩
  obtain ⟨keyT, valueT⟩ := (hts t ht).within
  obtain ⟨keyU, valueU⟩ := (hus u hu).within
  exact ⟨(Value.paired_of_alike likeT.1 likeU.1 keyT keyU).imp into,
    (Value.paired_of_alike likeT.2 likeU.2 valueT valueU).imp into⟩

end Pairs

end Imprint

section Runs

variable [Likened ε] {r : Value × Value → Run ε (Value × Value)}
  {after : Value × Value → Heap → Heap} {d e f : Value × Value}

theorem Run.Derives.exists_imprint (hr : Run.Derives σ r) (a : c.Alike N g)
    (closed : g.Closed (· ∈ N)) (like : Like N d e) (ran : (r e).on g = (.ok f, g')) :
    ∃ t : Imprint, t.given = d ∧ t.made = f ∧ t.Sound r c N g.size g' := by
  obtain ⟨N', later, a', outcome⟩ := hr.alike N d e like c g a
  obtain ⟨S, -, fits, within⟩ := (hr.stays (.beyond (· ∈ N) g.size) (· ∈ N) e
    like.1.within like.2.within g ⟨closed, Nat.le_refl _, fun _ => .inl⟩).of_ok ran
  rw [ran] at a' outcome
  rcases alone : (r d).on c with ⟨result, c'⟩
  rw [alone] at a' outcome
  cases outcome with
  | ok result =>
    exact ⟨⟨d, _, c', N', f, S⟩, rfl, rfl, alone, later, a'.ordered, result,
      fun i l hl _ => a'.cell i l hl, fits.closed, within, fits.hold.2⟩

def SparesAfter (spare : Loc → Prop) (after : Value × Value → Heap → Heap) : Prop :=
  ∀ f g, (after f g).size = g.size ∧ ∀ l, ¬ spare l → (after f g).cell? l = g.cell? l

theorem sparesAfter_insertEntry (s : TableShape) (l : Loc) :
    SparesAfter (· = l) fun f g => g.insertEntry s l f.1 f.2 := by
  intro f g
  dsimp only
  unfold Heap.insertEntry Heap.editEntries
  split
  · exact ⟨Heap.size_put _, fun m other => Heap.cell?_put_of_ne _ other⟩
  · exact ⟨rfl, fun _ _ => rfl⟩

namespace Run.Turns

variable {spare : Loc → Prop} {es fs ds : List (Value × Value)} (hr : Run.Derives σ r)
  (spares : SparesAfter spare after) (turns : Run.Turns r after h es fs h')
include hr spares turns

theorem cell?_eq {l : Loc} (old : l < h.size) (unspared : ¬ spare l) :
    h'.cell? l = h.cell? l := by
  induction turns with
  | nil => rfl
  | @cons h h₁ h' e f es fs ran rest ih =>
    have extends_ : h.Extends h₁ := by simpa [ran] using hr.harmless e h
    have still := Nat.lt_of_lt_of_le old extends_.size_le
    rw [ih ((spares f h₁).1 ▸ still), (spares f h₁).2 l unspared, extends_.cell?_eq l old]

/-- Every entry that is made in turn is an imprint, with new cells of its own. -/
theorem exists_imprints (old : ∀ l, spare l → l ∉ N ∧ l < h.size) (a : c.Alike N h)
    (closed : h.Closed (· ∈ N)) (like : Like N ds es) :
    ∃ ts, Imprint.Series r c N h.size h' ds ts ∧ ts.map (·.made) = fs := by
  induction turns generalizing ds with
  | nil =>
    cases like
    exact ⟨[], ⟨rfl, by simp, .nil⟩, rfl⟩
  | @cons h h₁ h' e f es fs ran rest ih =>
    cases like with
    | @cons d _ ds _ first like =>
      have extends_ : h.Extends h₁ := by simpa [ran] using hr.harmless e h
      obtain ⟨size_eq, same⟩ := spares f h₁
      have grown : h.size ≤ (after f h₁).size := size_eq ▸ extends_.size_le
      have kept : ∀ m ∈ N, (after f h₁).cell? m = h.cell? m := fun m hm => by
        rw [same m fun spared => (old m spared).1 hm, extends_.cell?_eq m (closed.lt_size hm)]
      obtain ⟨t, rfl, rfl, ht⟩ := hr.exists_imprint a closed first ran
      obtain ⟨ts, ⟨rfl, hts, apart⟩, rfl⟩ := ih
        (fun l spared => ⟨(old l spared).1, Nat.lt_of_lt_of_le (old l spared).2 grown⟩)
        (a.of_cells grown kept) (closed.of_cells kept) like
      -- What the first entry leads to is not touched in any later turn.
      have lasts : t.Sound r c N h.size h' := by
        refine ht.of_cells fun l own => ?_
        have unspared : ¬ spare l := fun spared =>
          (ht.new l own).elim (old l spared).1 (Nat.not_le.2 (old l spared).2)
        have inside := ht.closed.lt_size own
        rw [rest.cell?_eq hr spares (size_eq ▸ inside) unspared, same l unspared]
      refine ⟨t :: ts, ⟨rfl, List.forall_mem_cons.2 ⟨lasts, fun u hu => (hts u hu).anti grown⟩,
        List.pairwise_cons.2 ⟨fun u hu l inT inU => ?_, apart⟩⟩, rfl⟩
      refine ((hts u hu).new l inU).resolve_right fun new => ?_
      exact Nat.not_le.2 (ht.closed.lt_size inT) (size_eq ▸ new)

end Run.Turns

end Runs

end PropertyAccess
