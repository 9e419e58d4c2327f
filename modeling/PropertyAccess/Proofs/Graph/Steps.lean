import Mathlib.Order.Defs.Unbundled
import PropertyAccess.Proofs.Graph.Extension

/-! Operations that change the heap only so far. What relates the heap before a part to the
heap after it, and goes together with itself, relates the heap before the whole to the heap
after the whole. -/

namespace PropertyAccess.Run

variable {ε δ α β : Type} {R : Heap → Heap → Prop}

def Takes (R : Heap → Heap → Prop) (r : Run ε α) : Prop := ∀ h, R h (r.on h).2

theorem takes_iff_ends {r : Run ε α} :
    r.Takes R ↔ ∀ h, r.Ends h (fun _ h' => R h h') fun _ h' => R h h' := by
  refine forall_congr' fun h => ?_
  unfold Ends
  split <;> simp [*]

namespace Takes

theorem ends {r : Run ε α} (hr : r.Takes R) (h : Heap) :
    r.Ends h (fun _ h' => R h h') fun _ h' => R h h' := takes_iff_ends.1 hr h

theorem outcome {r : Run ε α} (hr : r.Takes R) : Takes R (Run.outcome r : Run δ _) := by
  rw [takes_iff_ends] at *
  exact fun h => (ends_outcome r).2 (hr h)

theorem mapError {r : Run ε α} (f : ε → δ) (hr : r.Takes R) : Takes R (Run.mapError f r) := by
  rw [takes_iff_ends] at *
  exact fun h => (ends_mapError f r).2 (hr h)

theorem ite {c : Prop} [Decidable c] {r s : Run ε α} (hr : r.Takes R) (hs : s.Takes R) :
    Takes R (if c then r else s) := by
  split
  · exact hr
  · exact hs

variable [IsPreorder Heap R]

theorem pure (a : α) : Takes R (Pure.pure a : Run ε α) := refl_of R

theorem throw (e : ε) : Takes R (MonadExcept.throw e : Run ε α) := refl_of R

theorem heap : Takes R (Run.heap : Run ε Heap) := refl_of R

theorem lookup (f : Heap → α) : Takes R (Run.lookup f : Run ε α) := refl_of R

theorem bind {r : Run ε α} {f : α → Run ε β} (hr : r.Takes R) (hf : ∀ a, (f a).Takes R) :
    (r >>= f).Takes R := by
  rw [takes_iff_ends]
  intro h
  rw [ends_bind]
  exact (hr.ends h).mono (fun a h' first => ((hf a).ends h').mono (fun _ _ => trans_of R first)
    fun _ _ => trans_of R first) fun _ _ => id

end Takes

end PropertyAccess.Run
