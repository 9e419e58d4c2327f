import PropertyAccess.Proofs.Conversion.Harmless
import PropertyAccess.Proofs.Graph.Tree

/-! What is made since. The values that lead only to cells made since there were so many
are a realm: containers of them are of the same kind. Converters, services and
constructors hold no references of their own, so what they return of the graph is only
what they were given. Those that keep to all of these realms make no cycles either. -/

namespace PropertyAccess

namespace Heap.Avoids

variable {h : Heap} {C : Loc → Prop} {v : Value}

theorem elements (ha : h.Avoids C v) {vs : List Value} (hv : h.elements? v = some vs) :
    ∀ x ∈ vs, h.Avoids C x := by
  have all {l : Loc} (target : v.loc? = some l) (found : h.items l = vs) :
      ∀ x ∈ vs, h.Avoids C x := by
    obtain ⟨-, c, cell, -, below⟩ := ha.cell target
    intro x hx
    have items : c = .items (h.items l) :=
      Option.some.inj (cell.symm.trans (cell?_of_mem_items (found ▸ hx)))
    rw [items, found] at below
    exact (below x hx).anti fun _ => .inl
  cases v with
  | array e l => exact all rfl (Option.some.inj hv)
  | list s l => exact all rfl (Option.some.inj hv)
  | set s l => exact all rfl (Option.some.inj hv)
  | _ => cases hv

theorem entries {s : TableShape} {l : Loc} (ha : h.Avoids C (.map s l)) :
    ∀ e ∈ h.entries l, h.Avoids C e.1 ∧ h.Avoids C e.2 := by
  obtain ⟨-, c, cell, sort, below⟩ := ha.cell rfl
  cases c with
  | entries pairs =>
    have found : h.entries l = pairs := by
      rw [Heap.entries, cell]
    rw [found]
    intro e he
    obtain ⟨key, value⟩ := Cell.forall_contents_entries.1 below e he
    exact ⟨key.anti fun _ => .inl, value.anti fun _ => .inl⟩
  | _ => exact sort.elim

end Heap.Avoids

theorem Heap.made {k : Nat} {w h : Heap} {c : Cell} {v : Value} (fits : h = w ∧ k ≤ h.size)
    (target : v.loc? = some h.size) (sort : c.IsFor v) (below : ∀ x ∈ c.contents, w.New k x) :
    ∃ w', w.Extends w' ∧ ((h.alloc c).2 = w' ∧ k ≤ (h.alloc c).2.size) ∧ w'.New k v := by
  obtain ⟨rfl, old⟩ := fits
  have grown : h.Extends (h.alloc c).2 := .alloc h c
  exact ⟨_, grown, ⟨rfl, Nat.le_trans old grown.size_le⟩,
    .alloc target (Nat.not_lt.2 old) sort below⟩

namespace Schema

variable (σ : Schema)

/-- The values that lead only to cells made when there were `k` of them. -/
def madeSince (k : Nat) : Realm σ where
  World := Heap
  Later := Heap.Extends
  Fits w h := h = w ∧ k ≤ h.size
  Allows w v := w.New k v
  strict := False
  refl := .refl
  trans := .trans
  mono later hv := hv.mono later
  scalar := .scalar
  items fits hv := by
    obtain ⟨rfl, -⟩ := fits
    exact hv.elements
  instances strict := strict.elim
  entries fits hv := by
    obtain ⟨rfl, -⟩ := fits
    exact hv.entries
  array _ fits hv _ := Heap.made fits rfl trivial hv
  list _ fits hv := Heap.made fits rfl trivial hv
  set _ fits hv := Heap.made fits rfl trivial hv
  map _ fits he := Heap.made fits rfl trivial (Cell.forall_contents_entries.2 he)

/-- Constructors make all of what they return, and no cycles. -/
structure MakesTrees : Prop where
  makesNew : σ.MakesNew
  stays : ∀ k, σ.Stays (σ.madeSince k)

variable {σ}

theorem new_blank (k : Nat) (w : Heap) (c : ClassId) :
    (σ.blank c).Stays (σ.madeSince k) w fun w' o => w'.New k (.object o) := by
  intro h fits
  refine Heap.made fits rfl trivial fun x hx => .scalar ?_
  obtain ⟨f, hf, rfl⟩ := List.mem_map.1 hx
  obtain ⟨s, -, rfl⟩ := List.mem_map.1 hf
  exact loc?_zeroValue s.type

theorem makesTrees_of_plain (plain : ∀ d ∈ σ.classes, d.fromText = none ∧
    ∀ run, d.construction ≠ .initialized run) : σ.MakesTrees where
  makesNew d hd := ⟨fun run hr => absurd hr ((plain d hd).2 run), fun make hm => by
    rw [(plain d hd).1] at hm
    cases hm⟩
  stays k :=
    { instantiate := fun w c => by
        unfold instantiate
        split
        · exact .throw _
        · rename_i d declared
          refine .ite (fun _ => .throw _) fun _ => ?_
          split
          · exact .throw _
          · exact .throw _
          · exact new_blank k w c
          · rename_i run initialized
            exact absurd initialized ((plain d (mem_of_class? declared)).2 run)
      fromText := fun w c text make made => by
        obtain ⟨construct, found, rfl⟩ := Option.map_eq_some_iff.1 made
        obtain ⟨d, declared, own⟩ := Option.bind_eq_some_iff.1 found
        rw [(plain d (mem_of_class? declared)).1] at own
        cases own
      instances := fun strict => strict.elim }

end Schema

/-- What converters and the service make of new values is new, and has no cycles. -/
structure Strategies.MakesTrees (σ : Schema) (S : Strategies) : Prop where
  harmless : S.Harmless σ
  stays : ∀ k, S.Stays (σ.madeSince k)

theorem Strategies.makesTrees_standard (σ : Schema) : MakesTrees σ ⟨.empty, .standard, none⟩ :=
  ⟨harmless_standard σ, fun _ => stays_standard _⟩

end PropertyAccess
