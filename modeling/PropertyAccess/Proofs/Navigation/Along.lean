import PropertyAccess.Proofs.Navigation.Keep
import PropertyAccess.Proofs.Navigation.Place
import PropertyAccess.Proofs.Navigation.Walk

/-! What holds of the nodes along a path. Following a path meets one node after the other,
each with the segment that leads on from it. Where nothing grows and reading the properties
on the way changes nothing, neither does following the path. -/

namespace PropertyAccess

namespace Accessor

variable {σ : Schema}

/-- Each node that is met along the segments has the property with its segment, in the
graph as it is then. -/
def Along (σ : Schema) (P : Node → Heap → Segment → Prop) (at_ : List String) (n : Node)
    (a : Accessor) (h : Heap) : List Segment → Prop
  | [] => True
  | [s] => P n h s
  | s :: next :: rest =>
    P n h s ∧ ∀ m a' h', on (enter σ (at_ ++ [s.canonical]) n s) a h = ((.ok m, a'), h') →
      Along σ P (at_ ++ [s.canonical]) m a' h' (next :: rest)

variable {P : Node → Heap → Segment → Prop} {at_ : List String} {n : Node} {a : Accessor} {h : Heap}
  {segments : List Segment}

theorem along_of_forall (hP : ∀ n h s, P n h s) : Along σ P at_ n a h segments := by
  induction segments generalizing at_ n a h with
  | nil => trivial
  | cons s rest ih =>
    cases rest with
    | nil => exact hP n h s
    | cons => exact ⟨hP n h s, fun _ _ _ _ => ih⟩

def Calm (σ : Schema) (a : Accessor) : Prop := ∀ n ∈ a.nodes, n.Calm σ

theorem Calm.node (ha : a.Calm σ) : a.node.Calm σ := ha _ List.mem_cons_self

theorem Calm.child (ha : a.Calm σ) {c : List String × Node} (hc : c ∈ a.children) :
    c.2.Calm σ := ha _ (mem_nodes_of_mem_children hc)

theorem calm_of (hn : a.node.Calm σ) (hc : ∀ c ∈ a.children, c.2.Calm σ) : a.Calm σ := by
  intro m hm
  rcases List.mem_cons.1 hm with rfl | hm
  · exact hn
  · obtain ⟨c, hmem, rfl⟩ := List.mem_map.1 hm
    exact hc c hmem

theorem ends_enter (hσ : σ.MakesNew) (ha : a.Calm σ) (hn : n.Calm σ) (at_ : List String)
    {s : Segment} (hq : n.Quiet σ s.name) :
    Walk.Ends (enter σ at_ n s) a h (fun m a' h' => m.Calm σ ∧ a'.Calm σ ∧ h.Extends h')
      (fun _ a' h' => a'.Calm σ ∧ h.Extends h') := by
  rw [Walk.ends_enter]
  have root : n.Quiet σ (Place.ofSegment s).root := by rwa [Place.root_ofSegment]
  refine (Node.harmless_enter hσ hn root).ends_of (fun o h' hx => ?_) fun _ _ hx => ⟨ha, hx⟩
  have kept : (keep at_ (n.child s o) a.children).1.Calm σ ∧
      ∀ c ∈ (keep at_ (n.child s o) a.children).2, c.2.Calm σ :=
    forall_keep (P := fun _ n => n.Calm σ) (Node.calm_child hn s o) fun c hc => ha.child hc
  exact ⟨kept.1, calm_of ha.node kept.2, hx⟩

theorem ends_reach (hσ : σ.MakesNew) (ha : a.Calm σ) (hn : n.Calm σ)
    (hP : ∀ n h s, P n h s → n.Quiet σ s.name) (along : Along σ P at_ n a h segments) :
    Walk.Ends (reach σ at_ n segments) a h
      (fun r a' h' =>
        (∃ outer s, segments = outer ++ [s] ∧ r.2 = Place.ofSegment s ∧ P r.1 h' s) ∧
        r.1.Calm σ ∧ a'.Calm σ ∧ h.Extends h')
      (fun _ a' h' => a'.Calm σ ∧ h.Extends h') := by
  induction segments generalizing at_ n a h with
  | nil => exact ⟨ha, .refl h⟩
  | cons s rest ih =>
    cases rest with
    | nil => exact ⟨⟨[], s, rfl, rfl, along⟩, hn, ha, .refl h⟩
    | cons next rest =>
      obtain ⟨here, further⟩ := along
      simp only [reach, Walk.ends_bind]
      refine ((ends_enter hσ ha hn _ (hP n h s here)).and (Walk.ends_on _ a h)).mono
        (fun m a' h' hx => ?_) fun _ _ _ hx => hx.1
      obtain ⟨⟨hm, ha', hx⟩, ran⟩ := hx
      refine (ih ha' hm (further m a' h' ran)).mono (fun r a'' h'' hy => ?_)
        fun _ _ _ hy => ⟨hy.1, hx.trans hy.2⟩
      obtain ⟨⟨outer, last, split, place, prop⟩, hr, ha'', hy⟩ := hy
      refine ⟨⟨s :: outer, last, ?_, place, prop⟩, hr, ha'', hx.trans hy⟩
      rw [split, List.cons_append]

theorem ends_follow (hσ : σ.MakesNew) (ha : a.Calm σ) (hP : ∀ n h s, P n h s → n.Quiet σ s.name)
    {p : Path} (along : Along σ P [] a.node a h p.segments) :
    Walk.Ends (follow σ p) a h
      (fun r a' h' =>
        (∃ outer s, p.segments = outer ++ [s] ∧ r.2 = Place.ofSegment s ∧ P r.1 h' s) ∧
          r.1.Calm σ ∧ a'.Calm σ ∧ h.Extends h')
      (fun _ a' h' => a'.Calm σ ∧ h.Extends h') :=
  ends_reach hσ ha ha.node hP along

end Accessor

end PropertyAccess
