import PropertyAccess.Proofs.Schema.Enclosed
import PropertyAccess.Proofs.Navigation.Held
import PropertyAccess.Proofs.Navigation.Seeking

/-! Reading where nothing grows and classes have only fields. What is read stands in the graph
already, so from a closed part of the graph no path leads out of it: the keys that are converted
on the way may make new cells, but nothing refers to these. -/

namespace PropertyAccess

variable {σ : Schema} {S : Loc → Prop} {h g : Heap} {v : Value}

def Run.Finds (S : Loc → Prop) (r : Run PathError Value) : Prop :=
  ∀ h : Heap, h.Closed S → r.Ends h (fun v g => g.Closed S ∧ v.Within S) fun _ _ => True

namespace Node

variable {n : Node} (fields : ∀ d ∈ σ.classes, d.properties = []) (makesNew : σ.MakesNew)
  (hn : n.Calm σ)

include fields in
theorem finds_readProperty (known : S n.wrapped.loc) (shown name : String) :
    (n.readProperty σ shown name).Finds S := by
  intro h closed
  refine ends_readProperty_of (isField fields name) (fun hd i writable v _ _ there => ?_)
    fun _ => trivial
  exact ⟨closed, closed.slot known there⟩

include hn in
theorem finds_present (hv : v.Within S) (p : Place) (shown : String)
    (read : Run PathError Value) (write : Value → Run PathError Unit) :
    (n.present σ p shown v read write).Finds S := by
  intro h closed
  unfold present
  rw [if_neg (by simp [hn.growing] : ¬ n.config.growing = true)]
  split
  · exact ⟨closed, hv⟩
  · trivial

include makesNew hn in
theorem finds_readElement (hv : v.Within S) (shown : String) (holder : Place) (key : String)
    (write : Value → Run PathError Unit) : (n.readElement σ shown holder key v write).Finds S := by
  intro h closed
  refine hn.ends_readElement makesNew (fun l _ _ u sequence _ item => ?_)
    (fun s l k u g map _ later found => ?_) write
  · have inside := hv l (Value.loc?_of_sequence? sequence)
    exact ⟨closed, closed.items inside u (List.mem_of_getElem? item)⟩
  · subst map
    have after := closed.mono later
    obtain ⟨e, first, rfl⟩ := Option.map_eq_some_iff.1 found
    exact ⟨after, (after.entries (hv l rfl) e (List.mem_of_find?_eq_some first)).2⟩

include fields makesNew hn in
theorem finds_read (known : S n.wrapped.loc) (shown : String) (p : Place) :
    (n.read σ shown p).Finds S := by
  induction p with
  | property name => exact finds_readProperty fields known shown name
  | element holder key ih =>
    intro h closed
    rw [read_element, Run.ends_bind]
    have held : (n.readHolder σ shown holder).Finds S := by
      intro h closed
      exact ends_readHolder_of (ih h closed) (fun _ _ => id)
        fun v g found => finds_present hn found.2 _ _ _ _ g found.1
    refine (held h closed).mono (fun v g found => ?_) fun _ _ _ => trivial
    exact finds_readElement makesNew hn found.2 shown holder key _ g found.1

include fields makesNew hn in
theorem ends_seek_within (known : S n.wrapped.loc) (closed : h.Closed S)
    (segments : List Segment) :
    (n.seek σ segments).Ends h
      (fun found g => g.Closed S ∧ found.1.Calm σ ∧ S found.1.wrapped.loc) fun _ _ => True := by
  induction segments generalizing n h with
  | nil => trivial
  | cons s rest ih =>
    cases rest with
    | nil => exact ⟨closed, hn, known⟩
    | cons next rest =>
      rw [seek, Run.ends_bind, enter, Run.ends_bind]
      refine (finds_read fields makesNew hn known _ _ h closed).mono (fun v g found => ?_)
        fun _ _ _ => trivial
      rw [Run.ends_bind]
      refine (finds_present hn found.2 _ _ _ _ g found.1).mono (fun w k there => ?_)
        fun _ _ _ => trivial
      cases w with
      | object o => exact ih (calm_child hn s o) (there.2 o.loc rfl) there.1
      | _ => trivial

include fields makesNew hn in
theorem finds_fetch (known : S n.wrapped.loc) (path : String) : (n.fetch σ path).Finds S := by
  intro h closed
  unfold fetch
  split
  · trivial
  · rw [Run.ends_bind]
    refine (ends_seek_within fields makesNew hn known closed _).mono (fun found g there => ?_)
      fun _ _ _ => trivial
    exact finds_read fields makesNew there.2.1 there.2.2 _ _ g there.1

end Node

end PropertyAccess
