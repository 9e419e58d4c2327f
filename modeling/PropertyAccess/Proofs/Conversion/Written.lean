import PropertyAccess.Conversion.Strategy
import PropertyAccess.Proofs.Graph.Extension

/-! Values written as text on the way. Nothing is changed by that, and all that can go wrong is
that there is no end to it. -/

namespace PropertyAccess

variable {σ : Schema} {h g : Heap} {v key : Value} {path : Option String}

theorem textOf?_error {required : Ty} {e : ConvertError}
    (failed : Strategies.textOf? σ h v required = .error e) : e = .endless := by
  unfold Strategies.textOf? at failed
  split at failed
  · cases failed
  · split at failed
    · cases failed
    · cases texts : (h.items _).mapM (σ.valueText? h) with
      | none =>
        rw [texts] at failed
        exact (Except.error.inj failed).symm
      | some _ =>
        rw [texts] at failed
        cases failed
  · cases failed

theorem textOf?_some {required : Ty} {text : String}
    (found : Strategies.textOf? σ h v required = .ok (some text)) :
    v = .text text ∨ ∃ l, v = .array .text l := by
  unfold Strategies.textOf? at found
  split at found
  · cases found
    exact .inl rfl
  · exact .inr ⟨_, rfl⟩
  · cases found

theorem on_written_of_some {text : String} (ht : σ.valueText? h v = some text) :
    (written σ v).on h = (.ok text, h) := by
  rw [written, Run.on_inspect, ht]
  rfl

theorem on_written_of_none (ht : σ.valueText? h v = none) :
    (written σ v).on h = (.error .endless, h) := by
  rw [written, Run.on_inspect, ht]
  rfl

@[simp] theorem ends_written {Q : String → Heap → Prop} {E : ConvertError → Heap → Prop} :
    (written σ v).Ends h Q E ↔
      (∀ text, σ.valueText? h v = some text → Q text h) ∧
        (σ.valueText? h v = none → E .endless h) := by
  rw [written, Run.ends_inspect]
  cases σ.valueText? h v <;> simp

theorem on_pathOfEntry {text : String} (ht : path.isSome = true → σ.valueText? h key = some text) :
    (pathOfEntry σ path key).on h = (.ok (keyedPath path text), h) := by
  cases path with
  | none => rfl
  | some p => exact Run.on_bind_of_ok (on_written_of_some (ht rfl)) _

theorem harmless_pathOfEntry (path : Option String) (key : Value) :
    (pathOfEntry σ path key).Harmless := by
  cases path with
  | none => exact .pure _
  | some p => exact (Run.Harmless.inspect _).bind fun _ => .pure _

theorem of_on_pathOfEntry {here : Option String}
    (ran : (pathOfEntry σ path key).on h = (.ok here, g)) :
    g = h ∧ ∃ text, here = keyedPath path text ∧
      (path.isSome = true → σ.valueText? h key = some text) := by
  cases path with
  | none =>
    cases ran
    exact ⟨rfl, "", rfl, nofun⟩
  | some p =>
    obtain ⟨text, h₁, first, last⟩ := Run.exists_of_bind ran
    cases last
    cases known : σ.valueText? h key with
    | none =>
      rw [on_written_of_none known] at first
      cases first
    | some text =>
      rw [on_written_of_some known] at first
      cases first
      exact ⟨rfl, text, rfl, fun _ => rfl⟩

namespace Run

variable {α β : Type} {r : Run ConvertError α} {a : α} {b : β} {P P' : Prop}

/-- On a condition the result is as given and nothing has changed, and without it there is no
end. -/
def Returns (r : Run ConvertError α) (h : Heap) (P : Prop) (a : α) : Prop :=
  (P → r.on h = (.ok a, h)) ∧ (¬P → r.on h = (.error .endless, h))

namespace Returns

theorem pure (hP : P) : (Pure.pure a : Run ConvertError α).Returns h P a :=
  ⟨fun _ => rfl, fun none_ => absurd hP none_⟩

theorem congr (hr : r.Returns h P a) (same : P ↔ P') : r.Returns h P' a :=
  ⟨fun hP => hr.1 (same.2 hP), fun none_ => hr.2 fun hP => none_ (same.1 hP)⟩

theorem bind {f : α → Run ConvertError β} (hr : r.Returns h P a) (hf : (f a).Returns h P' b) :
    (r >>= f).Returns h (P ∧ P') b := by
  refine ⟨fun both => (on_bind_of_ok (hr.1 both.1) f).trans (hf.1 both.2), fun none_ => ?_⟩
  by_cases hP : P
  · exact (on_bind_of_ok (hr.1 hP) f).trans (hf.2 fun hP' => none_ ⟨hP, hP'⟩)
  · exact on_bind_of_error (hr.2 hP) f

theorem andThen {f : α → Run ConvertError β} (hr : r.Returns h P a)
    (hf : P → (f a).on h = (.ok b, h)) : (r >>= f).Returns h P b :=
  ⟨fun hP => (on_bind_of_ok (hr.1 hP) f).trans (hf hP), fun none_ => on_bind_of_error (hr.2 none_) f⟩

theorem of_ok (ok : r.on h = (.ok a, h)) {f : α → Run ConvertError β} (hf : (f a).Returns h P b) :
    (r >>= f).Returns h P b := by
  unfold Returns
  rw [on_bind_of_ok ok]
  exact hf

end Returns

end Run

theorem returns_convertItems {element : Conversion} {l : List Value} {P : Nat → Value → Prop}
    (index : Nat) (each : ∀ (i : Nat) (x : Value), l[i]? = some x →
      (element (keyedPath path (toString (index + i))) x).Returns h (P i x) x) :
    (convertItems element path index l).Returns h
      (∀ (i : Nat) (x : Value), l[i]? = some x → P i x) l := by
  induction l generalizing index P with
  | nil => exact .pure fun _ _ there => by cases there
  | cons v r ih =>
    have rest : (convertItems element path (index + 1) r).Returns h
        (∀ (i : Nat) (x : Value), r[i]? = some x → P (i + 1) x) r := by
      refine ih (index + 1) fun i x there => ?_
      rw [Nat.add_assoc, Nat.add_comm 1 i]
      exact each (i + 1) x there
    refine ((each 0 v rfl).bind (rest.andThen fun _ => rfl)).congr ⟨fun both i x there => ?_,
      fun all => ⟨all 0 v rfl, fun i => all (i + 1)⟩⟩
    cases i with
    | zero => exact Option.some.inj there ▸ both.1
    | succ i => exact both.2 i x there

theorem on_convertItems_of_kept {element : Conversion} {l : List Value} (index : Nat)
    (kept : ∀ (i : Nat) (x : Value), l[i]? = some x →
      (element (keyedPath path (toString (index + i))) x).on h = (.ok x, h)) :
    (convertItems element path index l).on h = (.ok l, h) :=
  (returns_convertItems index fun i x there =>
    ⟨fun _ => kept i x there, fun none_ => absurd trivial none_⟩).1 fun _ _ _ => trivial

/-- Entries of which the keys and the values each come back as they are, or not at all, at the
path that the key is put into. -/
theorem returns_convertEntries {contents : ContentConversions} {l : List (Value × Value)}
    {K E : Value × Value → Option String → Prop}
    (each : ∀ e ∈ l, ∀ text, (path.isSome = true → σ.valueText? h e.1 = some text) →
      (contents.key (keyedPath path text) e.1).Returns h (K e (keyedPath path text)) e.1 ∧
        (contents.element (keyedPath path text) e.2).Returns h (E e (keyedPath path text)) e.2) :
    (convertEntries σ contents path l).Returns h (∀ e ∈ l, ∃ text,
      (path.isSome = true → σ.valueText? h e.1 = some text) ∧
        K e (keyedPath path text) ∧ E e (keyedPath path text)) l := by
  induction l with
  | nil => exact .pure fun _ there => by cases there
  | cons e r ih =>
    obtain ⟨key, value⟩ := e
    rw [List.forall_mem_cons] at each
    have rest := ih each.2
    rw [convertEntries]
    by_cases named : ∃ text, path.isSome = true → σ.valueText? h key = some text
    · obtain ⟨text, written⟩ := named
      obtain ⟨keyBack, valueBack⟩ := each.1 text written
      have whole : (do
          let newKey ← contents.key (keyedPath path text) key
          let newValue ← contents.element (keyedPath path text) value
          let fs ← convertEntries σ contents path r
          return (newKey, newValue) :: fs).Returns h _ ((key, value) :: r) :=
        keyBack.bind (valueBack.bind (rest.andThen fun _ => rfl))
      refine (Run.Returns.of_ok (on_pathOfEntry written) whole).congr ?_
      rw [List.forall_mem_cons, ← and_assoc]
      refine and_congr_left fun _ => ⟨fun both => ⟨text, written, both⟩, ?_⟩
      rintro ⟨other, written', both⟩
      -- A key has one text, and without a path none is asked for.
      have here : keyedPath path other = keyedPath path text := by
        cases path with
        | none => rfl
        | some p => rw [Option.some.inj ((written' rfl).symm.trans (written rfl))]
      rwa [here] at both
    · obtain ⟨p, rfl⟩ : ∃ p, path = some p := by
        cases path with
        | none => exact absurd ⟨"", nofun⟩ named
        | some p => exact ⟨p, rfl⟩
      have unwritten : σ.valueText? h key = none :=
        Option.eq_none_iff_forall_ne_some.2 fun text known => named ⟨text, fun _ => known⟩
      have stops : (pathOfEntry σ (some p) key).on h = (.error .endless, h) :=
        Run.on_bind_of_error (on_written_of_none unwritten) _
      refine ⟨fun all => ?_, fun _ => Run.on_bind_of_error stops _⟩
      obtain ⟨text, written, -⟩ := all _ List.mem_cons_self
      exact absurd ⟨text, written⟩ named

end PropertyAccess
