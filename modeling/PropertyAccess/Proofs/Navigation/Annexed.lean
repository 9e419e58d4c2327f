import PropertyAccess.Proofs.Graph.Additions
import PropertyAccess.Proofs.Navigation.Ground
import PropertyAccess.Proofs.Navigation.Hanging
import PropertyAccess.Proofs.Schema.Enclosed

/-! Places that something new was put at. What is there leads only to cells that were made
for it, so whatever is read, made and written below such a place changes only these, and the
one spot that the place itself is at. All else in the graph is as it was when the place was
given its value. -/

namespace PropertyAccess

theorem Cell.edit_edit (c : Cell) (i : Nat) (v w : Value) :
    (c.edit i v).edit i w = c.edit i w := by
  cases c with
  | slots fields => simp [Cell.edit, List.modify_modify_eq, Function.comp_def]
  | items values => simp [Cell.edit]
  | entries pairs => simp [Cell.edit, List.modify_modify_eq, Function.comp_def]

theorem Cell.modify_eq_self {α : Type} {xs : List α} {i : Nat} {f : α → α}
    (same : ∀ x, xs[i]? = some x → f x = x) : xs.modify i f = xs := by
  refine List.ext_getElem? fun j => ?_
  by_cases here : i = j
  · subst here
    rw [List.getElem?_modify_eq]
    cases there : xs[i]? with
    | none => rfl
    | some x => exact congrArg some (same x there)
  · exact List.getElem?_modify_ne _ _ here

theorem Cell.edit_of_at? {c : Cell} {i : Nat} {v : Value} (there : c.at? i = some v) :
    c.edit i v = c := by
  cases c with
  | slots fields =>
    refine congrArg Cell.slots (Cell.modify_eq_self fun f hf => ?_)
    obtain rfl : f.2 = v := by simpa [Cell.at?, hf] using there
    rfl
  | items values =>
    refine congrArg Cell.items ((List.set_eq_modify _ _ _).trans
      (Cell.modify_eq_self fun x hx => ?_))
    exact Option.some.inj (there.symm.trans hx)
  | entries pairs =>
    refine congrArg Cell.entries (Cell.modify_eq_self fun e he => ?_)
    obtain rfl : e.2 = v := by simpa [Cell.at?, he] using there
    rfl

namespace Heap

variable {h h' : Heap} {s : Spot} {l : Loc} {i : Nat} {v w : Value}

theorem cell?_store_of_at? (there : h.at? s = some v) (m : Loc) :
    (h.store s v).cell? m = h.cell? m := by
  by_cases here : m = s.1
  · subst here
    obtain ⟨c, cell, own⟩ := Option.bind_eq_some_iff.1 there
    rw [cell?_store_self, cell]
    exact congrArg some (Cell.edit_of_at? own)
  · exact cell?_store_of_ne here

theorem cell?_store_of_agree (agree : h'.cell? s.1 = (h.store s v).cell? s.1) :
    (h'.store s w).cell? s.1 = (h.store s w).cell? s.1 := by
  rw [cell?_store_self, agree, cell?_store_self, cell?_store_self, Option.map_map]
  congr 1
  funext c
  exact c.edit_edit s.2 v w

theorem eq_store_of_setItem? (set : h.setItem? l i v = some h') : h' = h.store (l, i) v := by
  have inside : i < (h.items l).length := by
    unfold setItem? at set
    split at set
    · assumption
    · cases set
  rw [setItem?_of_some (List.getElem?_eq_getElem inside)] at set
  exact (Option.some.inj set).symm

end Heap

namespace Realm

variable {σ : Schema} {A : Surroundings} {S : Loc → Prop}

theorem editable_enclosed (σ : Schema) (A : Surroundings) : (enclosed σ A).Editable where
  array fits ha hv _ stored := Heap.eq_store_of_setItem? stored ▸ fits.store (ha _ rfl) _ hv
  list fits hl hv stored := Heap.eq_store_of_setItem? stored ▸ fits.store (hl _ rfl) _ hv
  append fits hl hv := fits.editItems (hl _ rfl) fun _ old => List.forall_mem_append.2 ⟨old, hv⟩
  insert shape fits hm hk hv := fits.insertEntry (hm _ rfl) shape hk hv

theorem owns_enclosed {o : ObjectRef} (ho : S o.loc) : (enclosed σ A).Owns S o where
  get later fits _ there := fits.closed.slot (later _ ho) there
  set later fits _ _ hv stored := by
    obtain ⟨w, -, rfl⟩ := Heap.eq_store_of_setSlot? stored
    exact fits.store (later _ ho) _ hv

end Realm

/-- All is as it was in `g`, except for some new cells, what has been made since, and the value
at one spot, which has `P`. -/
def Surroundings.around (g : Heap) (S₀ : Loc → Prop) (spot : Spot) (P : Value → Prop) :
    Surroundings where
  Hold S h := g.size ≤ h.size ∧ (∀ m, S m → S₀ m ∨ g.size ≤ m) ∧ ∃ v, P v ∧ v.Within S ∧
    ∀ m, m < g.size → ¬ S₀ m → h.cell? m = (g.store spot v).cell? m
  later := by
    rintro S S' h h' ⟨older, new, v, hv, within, agree⟩ grown kept more made
    refine ⟨Nat.le_trans older grown, fun m hm => ?_, v, hv, within.mono more, fun m hm out => ?_⟩
    · exact (made m hm).elim (new m) fun above => .inr (Nat.le_trans older above)
    · have outside : ¬ S m := fun inside => (new m inside).elim out (Nat.not_le.2 hm)
      rw [kept m (Nat.lt_of_lt_of_le hm older) outside, agree m hm out]

theorem Surroundings.Fit.store_spot {g h : Heap} {S₀ S : Loc → Prop} {spot : Spot}
    {P : Value → Prop} (fits : (Surroundings.around g S₀ spot P).Fit S h) (outside : ¬ S spot.1)
    {w : Value} (own : P w) (within : w.Within S) :
    (Surroundings.around g S₀ spot P).Fit S (h.store spot w) := by
  obtain ⟨older, new, v, -, -, agree⟩ := fits.hold
  refine ⟨fits.closed.of_cells fun l hl => ?_,
    Nat.le_trans older (Nat.le_of_eq Heap.size_store.symm), new, w, own, within,
    fun m hm out => ?_⟩
  · exact Heap.cell?_store_of_ne fun same => outside (same ▸ hl)
  · by_cases here : m = spot.1
    · subst here
      exact Heap.cell?_store_of_agree (agree _ hm out)
    · rw [Heap.cell?_store_of_ne here, Heap.cell?_store_of_ne here, agree m hm out,
        Heap.cell?_store_of_ne here]

theorem Surroundings.Fit.changesOnly {g h f : Heap} {S₀ S : Loc → Prop} {l : Loc} {i : Nat}
    {P : Value → Prop} {change : Cell → Cell} (fits : (Surroundings.around h S₀ (l, i) P).Fit S f)
    (changes : g.ChangesOnly h l change) (new : ∀ m, S₀ m → g.size ≤ m) :
    ∃ v, P v ∧ g.ChangesOnly f l fun c => (change c).edit i v := by
  obtain ⟨older, -, v, own, -, agree⟩ := fits.hold
  refine ⟨v, own, Nat.le_trans changes.size_le older, fun m hm => ?_⟩
  have outside : ¬ S₀ m := fun inside => Nat.not_le.2 hm (new m inside)
  rw [agree m (Nat.lt_of_lt_of_le hm changes.size_le) outside]
  split
  · rename_i here
    subst here
    rw [Heap.cell?_store_self (s := (m, i)), changes.cell?_eq m hm, if_pos rfl, Option.map_map]
    rfl
  · rename_i other
    rw [Heap.cell?_store_of_ne other, changes.of_ne hm other]

namespace Node.Holds

variable {σ : Schema} {n : Node} {h : Heap} {p : Place} {v : Value} {type : Ty} {spot : Spot}
  {before : List Spot}

theorem container_at (hp : n.Holds σ h p v type spot before) :
    ∀ s ∈ before, ∃ c l, h.at? s = some c ∧ c.loc? = some l ∧ ∃ t ∈ spot :: before, t.1 = l := by
  have step {c : Value} {inner : Spot} {outer : List Spot} {s t : Spot} {l : Loc}
      (own : h.at? inner = some c) (target : c.loc? = some l) (here : t.1 = l)
      (rest : ∀ s ∈ outer, ∃ c l, h.at? s = some c ∧ c.loc? = some l ∧
        ∃ t ∈ inner :: outer, t.1 = l) (hs : s ∈ inner :: outer) :
      ∃ c l, h.at? s = some c ∧ c.loc? = some l ∧ ∃ u ∈ t :: inner :: outer, u.1 = l := by
    rcases List.mem_cons.1 hs with rfl | hs
    · exact ⟨c, l, own, target, t, List.mem_cons_self, here⟩
    · obtain ⟨d, m, there, target, u, hu, same⟩ := rest s hs
      exact ⟨d, m, there, target, u, List.mem_cons_of_mem _ hu, same⟩
  induction hp with
  | field => simp
  | item inner cell _ _ ih =>
    exact fun s => step inner.at_spot (Value.loc?_of_sequence? cell) rfl ih
  | entry inner _ _ _ ih => exact fun s => step inner.at_spot rfl rfl ih

theorem not_mem_before (hp : n.Holds σ h p v type spot before) {S : Loc → Prop}
    (apart : ∀ s ∈ spot :: before, ¬ S s.1) (hv : v.Within S) : spot ∉ before := by
  intro there
  obtain ⟨c, l, own, target, t, ht, rfl⟩ := hp.container_at spot there
  obtain rfl := Option.some.inj (hp.at_spot.symm.trans own)
  exact apart t ht (hv _ target)

end Node.Holds

namespace Node

variable {σ : Schema} {n : Node} {g h : Heap} {S₀ S : Loc → Prop} {spot : Spot}
  {P : Value → Prop} {p : Place} {v : Value} {type : Ty} {before : List Spot}

structure Annexed (σ : Schema) (n : Node) (g : Heap) (S₀ : Loc → Prop) (spot : Spot)
    (P : Value → Prop) (p : Place) : Prop where
  holds : ∃ v type before, n.Holds σ g p v type spot before ∧ v.Within S₀ ∧ P v ∧
    (∀ s ∈ spot :: before, ¬ S₀ s.1) ∧
    ∀ h raw w h', P raw → n.Converts σ h p.canonical raw type w h' → P w
  closed : g.Closed S₀
  lenient : Value.Lenient P

theorem Annexed.fit (hp : n.Annexed σ g S₀ spot P p) :
    (Surroundings.around g S₀ spot P).Fit S₀ g := by
  obtain ⟨v, type, before, holds, within, own, apart, -⟩ := hp.holds
  exact ⟨hp.closed, Nat.le_refl _, fun _ => .inl, v, own, within,
    fun m _ _ => (Heap.cell?_store_of_at? holds.at_spot m).symm⟩

theorem Annexed.holds_of_fit (hp : n.Annexed σ g S₀ spot P p)
    (fits : (Surroundings.around g S₀ spot P).Fit S h) :
    ∃ v type before, n.Holds σ h p v type spot before ∧ v.Within S ∧ P v ∧ ¬ S spot.1 ∧
      ∀ h raw w h', P raw → n.Converts σ h p.canonical raw type w h' → P w := by
  obtain ⟨v₀, type, before, holds, within₀, -, apart, keeps⟩ := hp.holds
  obtain ⟨older, new, v, own, within, agree⟩ := fits.hold
  have stored := holds.store_self (holds.not_mem_before apart within₀) v
  refine ⟨v, type, before, stored.congr fun s hs => ?_, within, own, fun inside => ?_, keeps⟩
  · exact agree s.1 (holds.lt_size s hs) (apart s hs)
  · have old := holds.lt_size spot List.mem_cons_self
    exact (new spot.1 inside).elim (apart spot List.mem_cons_self) (Nat.not_le.2 old)

theorem Annexed.ground (hσ : σ.MakesOwn) (hn : n.strategies.Harmless σ)
    (hS : n.strategies.Stays (.enclosed σ (.around g S₀ spot P)))
    (hp : n.Annexed σ g S₀ spot P p) :
    n.Ground (.enclosed σ (.around g S₀ spot P)) S₀ p P where
  reads shown S later h fits := by
    obtain ⟨v, type, before, holds, within, own, -⟩ := hp.holds_of_fit fits
    refine (holds.ends_read hσ.makesNew hn shown).mono (fun u h' hu => ?_) fun _ _ => False.elim
    obtain ⟨rfl, hx⟩ := hu
    exact ⟨S, fun _ => id, fits.mono hx, within, own⟩
  writes S later raw hraw own h fits := by
    obtain ⟨v, type, before, holds, -, -, outside, keeps⟩ := hp.holds_of_fit fits
    refine (holds.ends_write hσ.makesNew hn raw).mono (fun _ h' hw => ?_) fun _ h' hx =>
      ⟨S, fun _ => id, fits.mono hx⟩
    obtain ⟨w, h₁, converts, -, rfl⟩ := hw
    have own := keeps h raw w h₁ own converts
    obtain ⟨g₁, hx, ran⟩ := converts
    obtain ⟨S', more, fits', within⟩ :=
      (stays_convertFor (hσ.stays _) hS _ hraw type g₁ (fits.mono hx)).of_ok ran
    obtain ⟨-, -, -, -, -, -, outside, -⟩ := hp.holds_of_fit fits'
    exact ⟨S', more, fits'.store_spot outside own within.1, trivial⟩
  lenient := hp.lenient

section Failed

variable {A : Surroundings} {c : Value} {write : Value → Run PathError Unit} (hσ : σ.MakesOwn)
  (hn : n.strategies.Harmless σ)
include hσ hn

/-- A value of any origin may be written to an element; a failure comes before it is stored. -/
theorem ends_writeElement_failed (whole holder : Place) (key : String) (raw : Value)
    (lenient : Value.Lenient P) (fits : A.Fit S h) (hc : c.Within S ∧ P c)
    (hw : Run.Writes (.enclosed σ A) S P write) :
    (n.writeElement σ whole holder key raw c write).Ends h (fun _ _ => True)
      (fun _ h' => ∃ S', A.Fit S' h') := by
  have missing {l : Loc} {index : Nat} {v : Value} {e : PathError} {h : Heap} {S : Loc → Prop}
      (fits : A.Fit S h) :
      (putItem l index v e).Ends h (fun _ _ => True) (fun _ h' => ∃ S', A.Fit S' h') :=
    (ends_putItem l index v e h).mono (fun _ _ _ => trivial) fun _ _ same => ⟨S, same.1 ▸ fits⟩
  have converted (required : Ty) {h : Heap} (fits : A.Fit S h) :
      (n.convertFor σ whole.canonical raw required).Ends h (fun _ h' => A.Fit S h')
        (fun _ h' => ∃ S', A.Fit S' h') :=
    (harmless_convertFor hσ.makesNew hn _ raw required).ends_of (fun _ _ hx => fits.mono hx)
      fun _ _ hx => ⟨S, fits.mono hx⟩
  have positioned {h : Heap} (fits : A.Fit S h) :
      (n.indexOf σ whole.canonical key).Ends h (fun _ h' => A.Fit S h')
        (fun _ h' => ∃ S', A.Fit S' h') :=
    (harmless_indexOf _ key).ends_of (fun _ _ hx => fits.mono hx) fun _ _ hx => ⟨S, fits.mono hx⟩
  unfold writeElement
  split
  · simp only [writeArray, Run.ends_bind]
    refine (converted _ fits).mono (fun v h₁ fits => ?_) fun _ _ => id
    refine (positioned fits).mono (fun index h₂ fits => ?_) fun _ _ => id
    refine (stays_lengthened (hσ.stays A) true _ lenient hc index hw h₂ fits).mono
      (fun target h₃ ht => ?_) fun _ _ he => ?_
    · obtain ⟨S', -, fits, -⟩ := ht
      exact missing fits
    · obtain ⟨S', -, fits⟩ := he
      exact ⟨S', fits⟩
  · simp only [writeList, Run.ends_bind, Run.ends_lookup]
    refine (converted _ fits).mono (fun v h₁ fits => ?_) fun _ _ => id
    refine (positioned fits).mono (fun index h₂ fits => ?_) fun _ _ => id
    split
    · trivial
    · exact missing fits
  · simp only [writeMap, Run.ends_bind, Run.ends_mapError]
    refine (harmless_convertKey hσ.makesNew hn _ _ key).ends_of (fun k h₁ hx => ?_)
      fun _ _ hx => ⟨S, fits.mono hx⟩
    exact (converted _ (fits.mono hx)).mono (fun _ _ _ => trivial) fun _ _ => id
  · exact ⟨S, fits⟩

theorem Ground.ends_write_failed (hp : n.Ground (.enclosed σ A) S p P) (fits : A.Fit S h)
    (key : String) (raw : Value) :
    (n.write σ (.element p key) raw).Ends h (fun _ _ => True) (fun _ h' => ∃ S', A.Fit S' h') := by
  have left {h' : Heap} {S : Loc → Prop} (he : ∃ S', (∀ l, S l → S' l) ∧ A.Fit S' h') :
      ∃ S', A.Fit S' h' := he.imp fun _ => And.right
  rw [Node.write, Run.ends_bind, Run.ends_mapError]
  refine (hp.reads _ S (fun _ => id) h fits).mono (fun found h₁ hv => ?_) fun _ _ => left
  obtain ⟨S₁, later₁, fits, hv⟩ := hv
  have hp := hp.later later₁
  rw [Run.ends_bind]
  refine (hp.present (hσ.stays A) _ hv _ h₁ fits).mono (fun c h₂ hc => ?_) fun _ _ => left
  obtain ⟨S₂, later₂, fits, hc⟩ := hc
  have hp := hp.later later₂
  exact ends_writeElement_failed hσ hn _ p key raw hp.lenient fits hc hp.writes

end Failed

end Node

end PropertyAccess
