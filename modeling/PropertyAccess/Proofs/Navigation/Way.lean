import PropertyAccess.Proofs.Navigation.Held
import PropertyAccess.Proofs.Navigation.Keep
import PropertyAccess.Proofs.Navigation.Walk

/-! Ways to an object that are there. An accessor that follows such a way makes nothing
but new cells. The nodes on it are kept, so it comes to the same node when it follows
the way again, as long as the same objects stand on it. -/

namespace PropertyAccess

namespace Accessor

/-- In `h`, the segments lead through what is there from one node to another. The
accessor is what it is before and after, with the nodes on the way kept. -/
inductive Way (σ : Schema) (h : Heap) :
    List String → Node → Accessor → List Segment → Node → Accessor → List Spot → Prop
  | here {at_ : List String} {n : Node} {a : Accessor} : Way σ h at_ n a [] n a []
  | enter {at_ : List String} {n m : Node} {a a' : Accessor} {s : Segment} {outer : List Segment}
      {o : ObjectRef} {type : Ty} {spot : Spot} {before spots : List Spot}
      (object : n.Holds σ h (Place.ofSegment s) (.object o) type spot before)
      (rest : Way σ h (at_ ++ [s.canonical])
        (keep (at_ ++ [s.canonical]) (n.child s o) a.children).1
        ⟨a.node, (keep (at_ ++ [s.canonical]) (n.child s o) a.children).2⟩ outer m a' spots) :
      Way σ h at_ n a (s :: outer) m a' (spot :: (before ++ spots))

variable {σ : Schema} {h g : Heap} {at_ : List String} {n m : Node} {a a' : Accessor}
  {outer : List Segment} {spots : List Spot}

namespace Way

theorem node (way : Way σ h at_ n a outer m a' spots) : a'.node = a.node := by
  induction way with
  | here => rfl
  | enter _ _ ih => exact ih

theorem lookup (way : Way σ h at_ n a outer m a' spots) {k : List String}
    (hk : k.length ≤ at_.length) : a'.children.lookup k = a.children.lookup k := by
  induction way with
  | here => rfl
  | @enter at_ _ _ _ _ s _ _ _ _ _ _ _ _ ih =>
    have longer : (at_ ++ [s.canonical]).length = at_.length + 1 := by simp
    rw [ih (by omega)]
    exact lookup_keep_of_length_lt (by omega)

theorem again (way : Way σ h at_ n a outer m a' spots) : Way σ h at_ n a' outer m a' spots := by
  induction way with
  | here => exact .here
  | @enter at_ n m a a' s outer o _ _ _ _ object rest ih =>
    have kept : a'.children.lookup (at_ ++ [s.canonical]) =
        some (keep (at_ ++ [s.canonical]) (n.child s o) a.children).1 := by
      rw [rest.lookup (Nat.le_refl _)]
      exact lookup_keep_self
    have used := keep_of_lookup kept wrapped_keep
    refine .enter object ?_
    rw [used]
    exact ih

theorem map (way : Way σ h at_ n a outer m a' spots)
    (stay : ∀ {n : Node} {p : Place} {v : Value} {type : Ty} {spot : Spot} {before : List Spot},
      n.Holds σ h p v type spot before → (∀ s ∈ spot :: before, s ∈ spots) →
        n.Holds σ g p v type spot before) :
    Way σ g at_ n a outer m a' spots := by
  induction way with
  | here => exact .here
  | enter object _ ih =>
    refine .enter (stay object fun s hs => ?_) (ih fun hp hs => stay hp fun s hm => ?_)
    · exact List.mem_append_left _ hs
    · exact List.mem_cons_of_mem _ (List.mem_append_right _ (hs s hm))

end Way

structure Gentle (σ : Schema) (n : Node) (a : Accessor) : Prop where
  node : n.strategies.Harmless σ
  kept : ∀ c ∈ a.children, c.2.strategies.Harmless σ

theorem Gentle.enter (hn : Gentle σ n a) (k : List String) (s : Segment) (o : ObjectRef) :
    Gentle σ (keep k (n.child s o) a.children).1
      ⟨a.node, (keep k (n.child s o) a.children).2⟩ := by
  have all : (keep k (n.child s o) a.children).1.strategies.Harmless σ ∧
      ∀ c ∈ (keep k (n.child s o) a.children).2, c.2.strategies.Harmless σ :=
    forall_keep (P := fun _ n => n.strategies.Harmless σ) (Node.harmless_child hn.node s o) hn.kept
  exact ⟨all.1, all.2⟩

theorem ends_enter_of_holds (hσ : σ.MakesNew) (hn : n.strategies.Harmless σ) {s : Segment}
    {o : ObjectRef} {type : Ty} {spot : Spot} {before : List Spot}
    (object : n.Holds σ h (Place.ofSegment s) (.object o) type spot before) (at_ : List String) :
    Walk.Ends (enter σ at_ n s) a h
      (fun x a' h' => x = (keep at_ (n.child s o) a.children).1 ∧
        a' = ⟨a.node, (keep at_ (n.child s o) a.children).2⟩ ∧ h.Extends h')
      (fun _ _ _ => False) := by
  rw [Walk.ends_enter, Node.enter, Run.ends_bind]
  refine (object.ends_read hσ hn _).mono (fun u h' hu => ?_) fun _ _ => id
  obtain ⟨rfl, hx⟩ := hu
  rw [Node.present_eq rfl]
  exact ⟨rfl, rfl, hx⟩

theorem Way.ends_reach (way : Way σ h at_ n a outer m a' spots) (hσ : σ.MakesNew)
    (hn : Gentle σ n a) (hx : h.Extends g) (s : Segment) :
    Gentle σ m a' ∧ Walk.Ends (reach σ at_ n (outer ++ [s])) a g
      (fun x b g' => x = (m, Place.ofSegment s) ∧ b = a' ∧ h.Extends g') (fun _ _ _ => False) := by
  induction way generalizing g with
  | here => exact ⟨hn, rfl, rfl, hx⟩
  | @enter at_ n m a a' t outer o _ _ _ _ object rest ih =>
    have next := hn.enter (at_ ++ [t.canonical]) t o
    refine ⟨(ih next hx).1, ?_⟩
    rw [List.cons_append, Walk.reach_cons _ _ t (by simp), Walk.ends_bind]
    refine (ends_enter_of_holds hσ hn.node (object.mono hx) _).mono (fun x b g' hb => ?_)
      fun _ _ _ => id
    obtain ⟨rfl, rfl, hy⟩ := hb
    exact (ih next (hx.trans hy)).2

end Accessor

end PropertyAccess
