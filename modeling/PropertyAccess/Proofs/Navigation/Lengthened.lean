import PropertyAccess.Proofs.Navigation.Planned
import PropertyAccess.Proofs.Navigation.Vivified

/-! Containers that grow below a place. An array that is too short gives way to a longer copy,
which begins with the same elements, so what led through the array leads on to the same. The
copy is then found where the array was, unless the array was an element of itself, and so it
can be only where nothing is declared of elements. A list grows where it is. What a container
grows by leads only to new cells, and whatever becomes of these, it is one addition to the
graph before. -/

namespace PropertyAccess

theorem Ty.unwrapped_ne_array (elem : Ty) : elem.unwrapped ≠ .array elem := by
  intro same
  have size := congrArg sizeOf same
  cases elem <;> simp [Ty.unwrapped] at size
  omega

/-- At `m` is an array made when there were `k` cells. After the old elements it has more, and
these lead only to the cells of `S`, all of which were made when there were `k` as well. -/
structure Heap.Longer (k : Nat) (S : Loc → Prop) (h : Heap) (old news : List Value) (m : Loc) :
    Prop where
  more : news ≠ []
  cell : h.cell? m = some (.items (old ++ news))
  made : k ≤ m
  outside : ¬ S m
  closed : h.Closed S
  new : ∀ l, S l → k ≤ l
  within : ∀ x ∈ news, x.Within S

namespace Heap.Longer

variable {h h' : Heap} {k : Nat} {S : Loc → Prop} {old news : List Value} {m : Loc}

theorem mono (longer : h.Longer k S old news m) (hx : h.Extends h') :
    h'.Longer k S old news m :=
  { longer with cell := hx.cell? longer.cell, closed := longer.closed.mono hx }

theorem anti {j : Nat} (longer : h.Longer k S old news m) (hj : j ≤ k) :
    h.Longer j S old news m :=
  { longer with
    made := Nat.le_trans hj longer.made
    new := fun l hl => Nat.le_trans hj (longer.new l hl) }

theorem items (longer : h.Longer k S old news m) : h.items m = old ++ news := by
  rw [Heap.items, longer.cell]

theorem ne (longer : h.Longer k S old news m) {l : Loc} (hl : l < k) : m ≠ l :=
  fun same => Nat.not_lt.2 longer.made (same ▸ hl)

end Heap.Longer

theorem Heap.lt_size_of_at? {h : Heap} {s : Spot} {v : Value} (there : h.at? s = some v) :
    s.1 < h.size := by
  obtain ⟨c, cell, -⟩ := Option.bind_eq_some_iff.1 there
  exact lt_size_of_cell? cell

namespace Cell

theorem mapItems_append_nil (c : Cell) : c.mapItems (· ++ []) = c := by
  cases c <;> simp [mapItems]

theorem mapItems_append (c : Cell) (vs ws : List Value) :
    (c.mapItems (· ++ vs)).mapItems (· ++ ws) = c.mapItems (· ++ (vs ++ ws)) := by
  cases c <;> simp [mapItems]

end Cell

theorem Cell.Retains.mapItems (c : Cell) (news : List Value) :
    c.Retains (c.mapItems (· ++ news)) := by
  cases c with
  | items values => exact .items values news
  | _ => exact .refl _

namespace Heap.ChangesOnly

variable {h h' h'' : Heap} {l : Loc} {f f' : Cell → Cell}

theorem of_extends (hx : h.Extends h') (same : ∀ c, f c = c) : h.ChangesOnly h' l f := by
  have id : f = id := funext same
  refine ⟨hx.size_le, fun m hm => ?_⟩
  rw [id, Option.map_id, id_eq, ite_self, hx.cell?_eq m hm]

theorem trans (a : h.ChangesOnly h' l f) (b : h'.ChangesOnly h'' l f') :
    h.ChangesOnly h'' l fun c => f' (f c) := by
  refine ⟨Nat.le_trans a.size_le b.size_le, fun m hm => ?_⟩
  rw [b.cell?_eq m (Nat.lt_of_lt_of_le hm a.size_le), a.cell?_eq m hm]
  split
  · exact Option.map_map _ _ _
  · rfl

end Heap.ChangesOnly

namespace Schema

variable {σ : Schema}

theorem fills_of_isUnknown {elem : Ty} {v : Value} (unknown : elem.isUnknown = true)
    (fills : σ.Fills elem v) : v = .null := by
  obtain ⟨h, h', ran⟩ := fills
  have null := congrArg Prod.fst ran
  cases elem <;> first | exact (Except.ok.inj null).symm | cases unknown

theorem ends_grownArray_longer (hσ : σ.MakesOwn) (elem : Ty) (l : Loc) {length : Nat} {h : Heap}
    (short : (h.items l).length < length) :
    (σ.grownArray elem l length).Ends h
      (fun v g => h.Extends g ∧ ∃ m news S, v = .array elem m ∧
        g.Longer h.size S (h.items l) news m ∧ ∀ u ∈ news, σ.Fills elem u)
      (fun _ g => h.Extends g) := by
  have fits := Surroundings.fit_since (Nat.le_refl h.size)
  have made := (hσ.stays _).repeated _ elem (length - (h.items l).length) h fits
  have fillers :=
    (harmless_repeated (harmless_filler hσ.makesNew.confined elem) (length - (h.items l).length)).ends h
  rw [ends_grownArray_iff]
  refine (fillers.and (made.and (ends_repeated _ _ h))).mono (fun news g hg => ?_)
    fun _ _ hx => hx.1
  obtain ⟨hx, ⟨S, -, fits, within⟩, count, fill⟩ := hg
  have hy : g.Extends (g.alloc (.items (h.items l ++ news))).2 := .alloc g _
  refine ⟨hx.trans hy, g.size, news, S, rfl, ⟨?_, Heap.cell?_alloc g _, hx.size_le, ?_,
    fits.closed.mono hy, fits.hold.2, fun x hx => (within x hx).1⟩, fill⟩
  · rintro rfl
    rw [List.length_nil] at count
    omega
  · exact fun inside => Nat.lt_irrefl _ (fits.closed.lt_size inside)

/-- A list grows by elements that lead only to what is made for them. Where one cannot be made
it has grown by those before. -/
theorem ends_growList_own (hσ : σ.MakesOwn) (elem : Ty) {l : Loc} (missing : Nat) {h : Heap}
    (old : l < h.size) :
    (σ.growList elem l missing).Ends h
      (fun _ g => ∃ news S, h.ChangesOnly g l (Cell.mapItems (· ++ news)) ∧ g.Closed S ∧
        (∀ m, S m → h.size ≤ m) ∧ ∀ x ∈ news, x.Within S)
      (fun _ g => ∃ news, h.ChangesOnly g l (Cell.mapItems (· ++ news))) := by
  induction missing generalizing h with
  | zero =>
    exact ⟨[], fun _ => False, .of_extends (.refl h) Cell.mapItems_append_nil, .empty h,
      fun _ => False.elim, by simp⟩
  | succ missing ih =>
    simp only [growList, Run.ends_bind, Run.ends_update]
    have fits := Surroundings.fit_since (Nat.le_refl h.size)
    have made := (hσ.stays _).defaultValue _ elem h fits
    have harmless := (harmless_defaultValue hσ.makesNew.confined elem).ends h
    refine (harmless.and made).mono (fun v g hv => ?_)
      fun _ g hx => ⟨[], .of_extends hx.1 Cell.mapItems_append_nil⟩
    obtain ⟨hx, S, -, fits, within⟩ := hv
    have first : h.ChangesOnly (g.appendItems l [v]) l (Cell.mapItems (· ++ [v])) :=
      .editItems hx _
    have both {g' : Heap} {news : List Value}
        (rest : (g.appendItems l [v]).ChangesOnly g' l (Cell.mapItems (· ++ news))) :
        h.ChangesOnly g' l (Cell.mapItems (· ++ v :: news)) :=
      (first.trans rest).congr fun c _ => Cell.mapItems_append c [v] news
    refine (ih (Nat.lt_of_lt_of_le old first.size_le)).mono (fun _ g' hg => ?_)
      fun _ g' he => he.elim fun news rest => ⟨v :: news, both rest⟩
    obtain ⟨news, T, rest, closed, new, inside⟩ := hg
    have kept : g'.Closed S := fits.closed.of_cells fun k hk => by
      have apart : k ≠ l := fun same => Nat.not_lt.2 (fits.hold.2 k hk) (same ▸ old)
      have here := fits.closed.lt_size hk
      have second : g.ChangesOnly (g.appendItems l [v]) l (Cell.mapItems (· ++ [v])) :=
        .editItems (.refl g) _
      rw [rest.of_ne (Nat.lt_of_lt_of_le here second.size_le) apart, second.of_ne here apart]
    refine ⟨v :: news, _, both rest, kept.union closed, ?_, ?_⟩
    · rintro m (hm | hm)
      · exact fits.hold.2 m hm
      · exact Nat.le_trans first.size_le (new m hm)
    · exact List.forall_mem_cons.2 ⟨within.mono fun _ => .inl,
        fun x hx => (inside x hx).mono fun _ => .inr⟩

end Schema

namespace Node

variable {σ : Schema} {n : Node} {Θ : Labels} {g h : Heap} {p holder : Place} {v : Value}
  {type elem : Ty} {spot s : Spot} {before : List Spot} {key : String} {l m : Loc}
  {S : Loc → Prop} {news : List Value}

namespace Holds

/-- An array at a spot has given way to a longer one. All places hold what they held, or the
longer array for the shorter. A place at the very spot holds the longer one, unless it is an
element of the array that has given way. -/
theorem replaced (hp : n.Holds σ g p v type spot before) (hx : g.Extends h)
    (there : g.at? s = some (.array elem l))
    (longer : h.Longer g.size S (g.items l) news m) :
    ∃ w spot' before', n.Holds σ (h.store s (.array elem m)) p w type spot' before' ∧
      (∀ t ∈ spot' :: before', t.1 < g.size ∨ t.1 = m) ∧
      (v = .array elem l ∧ w = .array elem m ∨ w = v ∧ (spot = s → type = elem)) := by
  have old := Heap.lt_size_of_at? there
  have apart : m ≠ s.1 := longer.ne old
  induction hp with
  | @field name hd i writable v handle access value =>
    have cell := Heap.lt_size_of_cell? (Heap.cell?_of_slot? value)
    have value' : h.slot? n.wrapped.loc i = some v := by
      rw [Heap.slot?, hx.slots_eq cell]
      exact value
    by_cases here : (n.wrapped.loc, i) = s
    · subst here
      have holds : n.Holds σ g (.property name) v hd.type (n.wrapped.loc, i) [] :=
        .field handle access value
      obtain rfl := Option.some.inj (holds.at_spot.symm.trans there)
      exact ⟨_, _, _, .field handle access (Heap.slot?_store_self value'), by simp [cell],
        .inl ⟨rfl, rfl⟩⟩
    · exact ⟨v, _, _, .field handle access (by rw [Heap.slot?_store_of_ne here, value']),
        by simp [cell], .inr ⟨rfl, fun same => absurd same here⟩⟩
  | @item holder key c v type e k spot before i inner sequence index value ih =>
    obtain ⟨c', spot', before', inner', cells, same⟩ := ih
    have cell := Heap.lt_size_of_cell? (Heap.cell?_of_item value)
    rcases same with ⟨rfl, rfl⟩ | ⟨rfl, -⟩
    · obtain ⟨rfl, rfl⟩ : l = k ∧ elem = e := by simpa [Value.sequence?] using sequence
      refine ⟨v, _, _, .item inner' rfl index (i := i) ?_, List.forall_mem_cons.2 ⟨.inr rfl, cells⟩,
        .inr ⟨rfl, fun _ => rfl⟩⟩
      have inside := (List.getElem?_eq_some_iff.1 value).1
      rw [Heap.items_store_of_ne apart, longer.items, List.getElem?_append_left inside, value]
    · have value' : (h.items k)[i]? = some v := by
        rw [hx.items_eq cell]
        exact value
      have cells : ∀ t ∈ (k, i) :: spot' :: before', t.1 < g.size ∨ t.1 = m :=
        List.forall_mem_cons.2 ⟨.inl cell, cells⟩
      by_cases here : (k, i) = s
      · subst here
        have holds : n.Holds σ g (.element holder key) v e (k, i) (spot :: before) :=
          .item inner sequence index value
        obtain rfl := Option.some.inj (holds.at_spot.symm.trans there)
        exact ⟨_, _, _, .item inner' sequence index (Heap.item_store_self value'), cells,
          .inl ⟨rfl, rfl⟩⟩
      · exact ⟨v, _, _, .item inner' sequence index
          (by rw [Heap.item_store_of_ne here, value']), cells,
          .inr ⟨rfl, fun same => absurd same here⟩⟩
  | @entry holder key shape k e type r spot before i inner converts found value ih =>
    obtain ⟨c', spot', before', inner', cells, same⟩ := ih
    obtain rfl : c' = .map shape r := by
      rcases same with ⟨other, -⟩ | ⟨rfl, -⟩
      · cases other
      · rfl
    have cell := Heap.lt_size_of_cell? (Heap.cell?_of_entry value)
    have value' : (h.entries r)[i]? = some e := by
      rw [hx.entries_eq cell]
      exact value
    have found' : ((h.store s (.array elem m)).entries r).findIdx? (·.1.same k) = some i := by
      rw [Heap.findIdx?_store, hx.entries_eq cell, found]
    have cells : ∀ t ∈ (r, i) :: spot' :: before', t.1 < g.size ∨ t.1 = m :=
      List.forall_mem_cons.2 ⟨.inl cell, cells⟩
    by_cases here : (r, i) = s
    · subst here
      have holds : n.Holds σ g (.element holder key) e.2 _ (r, i) (spot :: before) :=
        .entry inner converts found value
      have same := Option.some.inj (holds.at_spot.symm.trans there)
      exact ⟨_, _, _, .entry (e := (e.1, .array elem m)) inner' converts found'
        (Heap.entry_store_self value'), cells, .inl ⟨same, rfl⟩⟩
    · exact ⟨e.2, _, _, .entry inner' converts found'
        (by rw [Heap.entry_store_of_ne here, value']), cells,
        .inr ⟨rfl, fun same => absurd same here⟩⟩

end Holds

section Arrays

variable (hc : g.Coherent Θ) (there : g.at? s = some (.array elem l))
  (free : ∀ shape t, Θ[s.1]? ≠ some (.set shape t)) (hx : g.Extends h)
include hc there free hx

theorem adds_of_longer {f : Heap} {more : List Value} (made : g.size ≤ m) (ne : more ≠ [])
    (items : f.items m = g.items l ++ more) (grown : h.size ≤ f.size)
    (agree : ∀ k, k < g.size → f.cell? k = (h.store s (.array elem m)).cell? k) :
    g.Adds Θ f :=
  .edit hc there free (.grown made ne items)
    (.mono hx (.store (.refl h)) (Nat.le_trans hx.size_le grown) agree)

variable (longer : h.Longer g.size S (g.items l) news m)
include longer

theorem adds_longer : g.Adds Θ (h.store s (.array elem m)) := by
  have old := Heap.lt_size_of_at? there
  have apart : m ≠ s.1 := longer.ne old
  refine adds_of_longer hc there free hx longer.made longer.more ?_
    (Nat.le_of_eq Heap.size_store.symm) fun _ _ => rfl
  rw [Heap.items_store_of_ne apart, longer.items]

theorem shows_longer {i : Nat} (beyond : (g.items l).length ≤ i) :
    (Surroundings.around (h.store s (.array elem m)) S (m, i) fun _ => True).Shows Θ g := by
  intro S' f fits
  obtain ⟨older, -, w, -, -, agree⟩ := fits.hold
  rw [Heap.size_store] at older agree
  have old := Heap.lt_size_of_at? there
  have apart : m ≠ s.1 := longer.ne old
  have more : news.set (i - (g.items l).length) w ≠ [] := by
    rw [Ne, List.set_eq_nil_iff]
    exact longer.more
  refine adds_of_longer hc there free hx longer.made more ?_ older fun k hk => ?_
  · have now := agree m (Heap.lt_size_of_cell? longer.cell) longer.outside
    rw [Heap.cell?_store_self (s := (m, i)), Heap.cell?_store_of_ne apart, longer.cell] at now
    rw [Heap.items, now]
    exact List.set_append_right i w beyond
  · have outside : ¬ S k := fun inside => Nat.not_le.2 hk (longer.new k inside)
    rw [agree k (Nat.lt_of_lt_of_le hk hx.size_le) outside,
      Heap.cell?_store_of_ne (longer.ne hk).symm]

end Arrays

/-- What is read at a place of a graph that nothing was added to yet: what the place holds, or
null where a map lacks the key; otherwise something was added on the way there, and is what is
read, or nothing is known of it and it is null. -/
inductive Sees (σ : Schema) (Θ : Labels) (n : Node) (g : Heap) (p : Place) : Value → Heap → Prop
  | old {v : Value} {h : Heap} {type : Ty} {spot : Spot} {before : List Spot}
      (later : g.Extends h) (holds : n.Holds σ g p v type spot before) : Sees σ Θ n g p v h
  | missing {h : Heap} (later : g.Extends h) (vacant : n.Vacant σ g p) : Sees σ Θ n g p .null h
  | added {v : Value} {h : Heap} (added : n.Added σ Θ g p v h) : Sees σ Θ n g p v h
  | unknown {h : Heap} (adds : g.Adds Θ h)
      (unknown : (n.innerType σ p.root p.depth).isUnknown = true) : Sees σ Θ n g p .null h

theorem Added.adds (added : n.Added σ Θ g p v h) : g.Adds Θ h := by
  obtain ⟨A, S, P, shows, fits, -⟩ := added
  exact shows S h fits

structure Yields (σ : Schema) (Θ : Labels) (g : Heap) (spot : Spot) (elem : Ty) (l : Loc) (i : Nat)
    (m : Loc) (h' : Heap) : Prop where
  free : ∀ shape t, Θ[spot.1]? ≠ some (.set shape t)
  short : (g.items l).length ≤ i
  copied : ∃ h S news, g.Extends h ∧ h.Longer g.size S (g.items l) news m ∧
    (∀ u ∈ news, σ.Fills elem u) ∧ h' = h.store spot (.array elem m)

section Reading

variable (hσ : σ.Orderly) (hn : n.Native Θ) (hc : g.Coherent Θ) (exact : g.Exact σ Θ)
include hσ hn hc

section Arrays

variable (hp : n.Holds σ g holder (.array elem l) type spot before)
include hp

omit hσ hn in
theorem Yields.adds {i : Nat} {h' : Heap} (yields : Yields σ Θ g spot elem l i m h') :
    g.Adds Θ h' := by
  obtain ⟨h, S, news, hx, longer, -, rfl⟩ := yields.copied
  exact adds_longer hc hp.at_spot yields.free hx longer

include exact

theorem ends_lengthened_yields (hx : g.Extends h) (may : Bool) (shown : String) (i : Nat) :
    (n.lengthened σ may shown elem l i (n.write σ holder)).Ends h
      (fun m h' => m = l ∧ h' = h ∨ Yields σ Θ g spot elem l i m h')
      (fun _ h' => g.Extends h') := by
  have old : l < g.size := hc.lt_size (hp.labelled hc hn.wrapped) rfl
  have own : type.isUnknown = true ∨ type.unwrapped = .array elem :=
    exact n holder elem l type spot before hn hp
  rw [ends_lengthened_iff]
  split
  · rename_i grows
    have short : (h.items l).length ≤ i := grows.2.1
    refine (Schema.ends_grownArray_longer hσ.makesOwn elem l (Nat.lt_succ_of_le short)).mono
      (fun copy h₁ hc₁ => ?_) fun _ _ => hx.trans
    obtain ⟨hx₁, m, news, S, rfl, longer, fills⟩ := hc₁
    refine (hp.ends_store hσ.makesOwn.makesNew hn hc (hx.trans hx₁) _).mono (fun _ h' hs => ?_)
      fun _ _ => (hx.trans hx₁).trans
    obtain ⟨free, w, h₂, converts, hx₂, rfl⟩ := hs
    obtain rfl := converts.array_eq hn.strategies own
    rw [hx.items_eq old] at short longer
    exact .inr ⟨free, short, h₂, S, news, (hx.trans hx₁).trans hx₂,
      (longer.mono hx₂).anti hx.size_le, fills, rfl⟩
  · exact .inl ⟨rfl, rfl⟩

/-- The element that an array was lengthened for is a new one. -/
theorem Yields.sees {i : Nat} {h' : Heap} (yields : Yields σ Θ g spot elem l i m h')
    (index : Text.index? key = some i) (value : (h'.items m)[i]? = some v) :
    n.Sees σ Θ g (.element holder key) v h' := by
  obtain ⟨free, short, h, S, news, hx, longer, fills, rfl⟩ := yields
  have old := Heap.lt_size_of_at? hp.at_spot
  have apart : m ≠ spot.1 := longer.ne old
  have fresh : v ∈ news := by
    rw [Heap.items_store_of_ne apart, longer.items, List.getElem?_append_right short] at value
    exact List.mem_of_getElem? value
  obtain ⟨w, spot', before', holds, cells, same⟩ := hp.replaced hx hp.at_spot longer
  rcases same with ⟨-, rfl⟩ | ⟨rfl, self⟩
  · have apart : ∀ t ∈ (m, i) :: spot' :: before', ¬ S t.1 := by
      refine List.forall_mem_cons.2 ⟨longer.outside, fun t ht inside => ?_⟩
      rcases cells t ht with older | same
      · exact Nat.not_lt.2 (longer.new _ inside) older
      · exact longer.outside (same ▸ inside)
    have annexed : n.Annexed σ (h.store spot (.array elem m)) S (m, i) (fun _ => True)
        (.element holder key) := {
      holds := ⟨v, elem, _, .item holds rfl index value, longer.within v fresh, trivial, apart,
        fun _ _ _ _ _ _ => trivial⟩
      closed := longer.closed.of_cells fun k hk => Heap.cell?_store_of_ne fun same =>
        Nat.not_lt.2 (longer.new _ (same ▸ hk)) old
      lenient := ⟨fun _ _ => trivial, fun _ _ => trivial⟩ }
    exact .added ⟨_, S, _, shows_longer hc hp.at_spot free hx longer short, annexed.fit,
      annexed.ground hσ.makesOwn hn.harmless (hn.stays _), longer.within v fresh, trivial⟩
  · obtain rfl := self rfl
    -- The array is among its own elements, so nothing is declared of them.
    have unknown : type.isUnknown = true :=
      (exact n holder type l type spot before hn hp).resolve_right (Ty.unwrapped_ne_array type)
    obtain rfl := Schema.fills_of_isUnknown unknown (fills v fresh)
    refine .unknown (adds_longer hc hp.at_spot free hx longer) ?_
    rw [Place.root, Place.depth, innerType_succ]
    refine Ty.isUnknown_element? ?_
    exact (hp.innerType_eq exact hn).elim (fun same => same ▸ unknown) id

theorem ends_readArray_sees (hx : g.Extends h) (shown : String) :
    (n.readArray σ shown holder key elem l (n.write σ holder)).Ends h
      (fun v h' => n.Sees σ Θ g (.element holder key) v h') (fun _ h' => g.Adds Θ h') := by
  have old : l < g.size := hc.lt_size (hp.labelled hc hn.wrapped) rfl
  refine ends_readArray_of (fun i index => ?_) fun _ => .of_extends hc hx
  refine (ends_lengthened_yields hσ hn hc exact hp hx _ _ i).mono (fun m h' hm => ?_)
    fun _ _ => .of_extends hc
  rcases hm with ⟨rfl, rfl⟩ | yields
  · refine ⟨fun v value => ?_, fun _ => .of_extends hc hx⟩
    rw [hx.items_eq old] at value
    exact .old hx (.item hp rfl index value)
  · exact ⟨fun v value => yields.sees hσ hn hc exact hp index value, fun _ => yields.adds hc hp⟩

end Arrays

section Lists

variable {shape : ListShape} (hp : n.Holds σ g holder (.list shape l) type spot before)
include hp

/-- The element that a list has grown for is a new one. -/
theorem sees_of_appended {h' : Heap} {i : Nat} (short : (g.items l).length ≤ i)
    (changes : g.ChangesOnly h' l (Cell.mapItems (· ++ news))) (closed : h'.Closed S)
    (new : ∀ m, S m → g.size ≤ m) (within : ∀ x ∈ news, x.Within S)
    (index : Text.index? key = some i) (value : (h'.items l)[i]? = some v) :
    n.Sees σ Θ g (.element holder key) v h' := by
  have label := hp.labelled hc hn.wrapped
  obtain ⟨⟨_, ⟨⟩, cell⟩, -⟩ := hc.cell?_items label rfl
  have old := Heap.lt_size_of_cell? cell
  have now : h'.cell? l = some (.items (g.items l ++ news)) := by
    rw [changes.cell?_eq l old, if_pos rfl, cell]
    rfl
  have fresh : v ∈ news := by
    rw [Heap.items, now, List.getElem?_append_right short] at value
    exact List.mem_of_getElem? value
  obtain ⟨spot', before', holds, cells⟩ := hp.retained fun m c there =>
    Cell.Retains.of_changesOnly changes (fun c _ => .mapItems c news) there
  have apart : ∀ t ∈ (l, i) :: spot' :: before', ¬ S t.1 :=
    List.forall_mem_cons.2 ⟨fun inside => Nat.not_lt.2 (new l inside) old,
      fun t ht inside => Nat.not_lt.2 (new _ inside) (cells t ht)⟩
  have annexed : n.Annexed σ h' S (l, i) (fun _ => True) (.element holder key) := {
    holds := ⟨v, _, _, .item holds rfl index value, within v fresh, trivial, apart,
      fun _ _ _ _ _ _ => trivial⟩
    closed
    lenient := ⟨fun _ _ => trivial, fun _ _ => trivial⟩ }
  have shows : (Surroundings.around h' S (l, i) fun _ => True).Shows Θ g := by
    intro S' f fits
    obtain ⟨w, -, edited⟩ := fits.changesOnly changes new
    have appended : g.ChangesOnly f l
        (Cell.mapItems (· ++ news.set (i - (g.items l).length) w)) := by
      refine edited.congr fun c there => ?_
      obtain rfl := Option.some.inj (cell.symm.trans there)
      exact congrArg Cell.items (List.set_append_right i w short)
    exact .append hc label appended
  exact .added ⟨_, S, _, shows, annexed.fit,
    annexed.ground hσ.makesOwn hn.harmless (hn.stays _), within v fresh, trivial⟩

theorem ends_readList_sees (hx : g.Extends h) (shown : String) :
    (n.readList σ shown holder key l).Ends h
      (fun v h' => n.Sees σ Θ g (.element holder key) v h') (fun _ h' => g.Adds Θ h') := by
  have label := hp.labelled hc hn.wrapped
  obtain ⟨⟨_, ⟨⟩, cell⟩, -⟩ := hc.cell?_items label rfl
  have old := Heap.lt_size_of_cell? cell
  have since {h' : Heap} {news : List Value}
      (changes : h.ChangesOnly h' l (Cell.mapItems (· ++ news))) :
      g.ChangesOnly h' l (Cell.mapItems (· ++ news)) :=
    .mono hx changes (Nat.le_trans hx.size_le changes.size_le) fun _ _ => rfl
  refine ends_readList_of (fun i index => ?_) fun _ => .of_extends hc hx
  rw [ends_growListForRead_iff]
  split
  · rename_i grows
    have short : (g.items l).length ≤ i := by
      rw [← hx.items_eq old]
      exact grows.2.2.1
    refine (Schema.ends_growList_own hσ.makesOwn _ _ (Nat.lt_of_lt_of_le old hx.size_le)).mono
      (fun _ h' hg => ?_) fun _ h' he => he.elim fun news changes =>
        .append hc label (since changes)
    obtain ⟨news, S, changes, closed, new, within⟩ := hg
    refine ⟨fun v value => ?_, fun _ => .append hc label (since changes)⟩
    exact sees_of_appended hσ hn hc hp short (since changes) closed
      (fun m hm => Nat.le_trans hx.size_le (new m hm)) within index value
  · refine ⟨fun v value => ?_, fun _ => .of_extends hc hx⟩
    rw [hx.items_eq old] at value
    exact .old hx (.item hp rfl index value)

end Lists

end Reading

end Node

end PropertyAccess
