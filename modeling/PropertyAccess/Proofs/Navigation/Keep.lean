import PropertyAccess.Navigation.Accessor
import PropertyAccess.Proofs.Conversion.Sources

/-! What an accessor keeps. A node that is asked for again is the one that was kept, and
keeping it gives up nothing nearer to the root. -/

namespace PropertyAccess.Accessor

def nodes (a : Accessor) : List Node := a.node :: a.children.map (·.2)

theorem mem_nodes_of_mem_children {a : Accessor} {c : List String × Node} (hc : c ∈ a.children) :
    c.2 ∈ a.nodes := List.mem_cons_of_mem _ (List.mem_map_of_mem hc)

variable {at_ k : List String} {fresh m : Node} {children : List (List String × Node)}

theorem keep_of_lookup (found : children.lookup at_ = some m) (hw : m.wrapped = fresh.wrapped) :
    keep at_ fresh children = (m, children) := by
  rw [keep, found]
  exact if_pos hw

theorem wrapped_keep : (keep at_ fresh children).1.wrapped = fresh.wrapped := by
  unfold keep
  split
  · split
    · assumption
    · rfl
  · rfl

theorem lookup_keep_self :
    (keep at_ fresh children).2.lookup at_ = some (keep at_ fresh children).1 := by
  unfold keep
  split
  · split
    · assumption
    · simp
  · simp

theorem lookup_filter {p : List String → Bool} (hk : p k = true) :
    (children.filter fun c => p c.1).lookup k = children.lookup k := by
  induction children with
  | nil => rfl
  | cons c r ih =>
    obtain ⟨key, node⟩ := c
    rw [List.filter_cons, List.lookup_cons]
    by_cases same : k = key
    · subst same
      rw [if_pos hk, List.lookup_cons]
      simp
    · have other : (k == key) = false := beq_false_of_ne same
      split
      · rw [List.lookup_cons, other, ih]
      · rw [other, ih]

theorem lookup_keep_of_length_lt (hk : k.length < at_.length) :
    (keep at_ fresh children).2.lookup k = children.lookup k := by
  have other : (k == at_) = false := by
    refine beq_false_of_ne ?_
    rintro rfl
    exact absurd hk (Nat.lt_irrefl _)
  have outside : (!at_.isPrefixOf k) = true := by
    cases pre : at_.isPrefixOf k with
    | false => rfl
    | true =>
      have le := (List.isPrefixOf_iff_prefix.1 pre).length_le
      omega
  unfold keep
  split
  · split
    · rfl
    · rw [List.lookup_cons, other]
      exact lookup_filter (p := fun c => !at_.isPrefixOf c) outside
  · rw [List.lookup_cons, other]

theorem forall_keep {P : List String → Node → Prop} (hf : P at_ fresh)
    (hc : ∀ c ∈ children, P c.1 c.2) :
    P at_ (keep at_ fresh children).1 ∧ ∀ c ∈ (keep at_ fresh children).2, P c.1 c.2 := by
  unfold keep
  split
  · rename_i kept found
    split
    · exact ⟨hc _ (mem_of_lookup found), hc⟩
    · refine ⟨hf, List.forall_mem_cons.2 ⟨hf, fun c hm => hc c (List.mem_filter.1 hm).1⟩⟩
  · exact ⟨hf, List.forall_mem_cons.2 ⟨hf, hc⟩⟩

end PropertyAccess.Accessor
