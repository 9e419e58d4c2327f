import PropertyAccess.Graph.Heap

/-! What an operation on the graph ends in, as a condition on its result and on
the heap afterwards, with one condition for success and one for failure. The
condition of a sequence is that of its first part with the condition of the
second as the goal, so a whole operation is taken apart from its beginning. Two operations
are compared in the same way, with a condition on results that differ. -/

namespace PropertyAccess.Run

variable {ε δ α β : Type} {h : Heap}

/-- From `h`, success has `Q` and failure has `E`. -/
def Ends (r : Run ε α) (h : Heap) (Q : α → Heap → Prop) (E : ε → Heap → Prop) : Prop :=
  match r.on h with
  | (.ok a, h') => Q a h'
  | (.error e, h') => E e h'

theorem on_bind (r : Run ε α) (f : α → Run ε β) (h : Heap) :
    (r >>= f).on h =
      match r.on h with
      | (.ok a, h') => (f a).on h'
      | (.error e, h') => (.error e, h') := by
  have unfolded : (r >>= f).on h = (ExceptT.bindCont f (r.on h).1).run (r.on h).2 := rfl
  rw [unfolded]
  rcases r.on h with ⟨result, h'⟩
  cases result <;> rfl

theorem on_bind_of_ok {r : Run ε α} {a : α} {h' : Heap} (ok : r.on h = (.ok a, h'))
    (f : α → Run ε β) : (r >>= f).on h = (f a).on h' := by
  rw [on_bind, ok]

theorem on_bind_of_error {r : Run ε α} {e : ε} {h' : Heap} (failed : r.on h = (.error e, h'))
    (f : α → Run ε β) : (r >>= f).on h = (.error e, h') := by
  rw [on_bind, failed]

theorem exists_of_bind {r : Run ε α} {f : α → Run ε β} {b : β} {h' : Heap}
    (ok : (r >>= f).on h = (.ok b, h')) :
    ∃ a g, r.on h = (.ok a, g) ∧ (f a).on g = (.ok b, h') := by
  rcases first : r.on h with ⟨e | a, g⟩
  · rw [on_bind_of_error first] at ok
    cases ok
  · rw [on_bind_of_ok first] at ok
    exact ⟨a, g, rfl, ok⟩

theorem ends_on (r : Run ε α) (h : Heap) :
    r.Ends h (fun a h' => r.on h = (.ok a, h')) (fun e h' => r.on h = (.error e, h')) := by
  unfold Ends
  split <;> assumption

theorem Ends.intro {r : Run ε α} {Q : α → Heap → Prop} {E : ε → Heap → Prop} {a : α} {h' : Heap}
    (ho : r.on h = (.ok a, h')) (hQ : Q a h') : r.Ends h Q E := by
  unfold Ends
  rwa [ho]

theorem Ends.of_ok {r : Run ε α} {Q : α → Heap → Prop} {E : ε → Heap → Prop} {a : α}
    {h' : Heap} (he : r.Ends h Q E) (ho : r.on h = (.ok a, h')) : Q a h' := by
  unfold Ends at he
  rwa [ho] at he

theorem Ends.of_error {r : Run ε α} {Q : α → Heap → Prop} {E : ε → Heap → Prop} {e : ε}
    {h' : Heap} (he : r.Ends h Q E) (ho : r.on h = (.error e, h')) : E e h' := by
  unfold Ends at he
  rwa [ho] at he

theorem Ends.mono {r : Run ε α} {Q Q' : α → Heap → Prop} {E E' : ε → Heap → Prop}
    (he : r.Ends h Q E) (hQ : ∀ a h', Q a h' → Q' a h') (hE : ∀ e h', E e h' → E' e h') :
    r.Ends h Q' E' := by
  unfold Ends at *
  split
  · rename_i ho
    rw [ho] at he
    exact hQ _ _ he
  · rename_i ho
    rw [ho] at he
    exact hE _ _ he

theorem Ends.and {r : Run ε α} {Q Q' : α → Heap → Prop} {E E' : ε → Heap → Prop}
    (he : r.Ends h Q E) (he' : r.Ends h Q' E') :
    r.Ends h (fun a h' => Q a h' ∧ Q' a h') (fun e h' => E e h' ∧ E' e h') := by
  unfold Ends at *
  split
  · rename_i ho
    rw [ho] at he he'
    exact ⟨he, he'⟩
  · rename_i ho
    rw [ho] at he he'
    exact ⟨he, he'⟩

variable {Q : α → Heap → Prop} {E : ε → Heap → Prop}

@[simp] theorem ends_pure (a : α) : Ends (pure a : Run ε α) h Q E ↔ Q a h := Iff.rfl

@[simp] theorem ends_throw (e : ε) : Ends (throw e : Run ε α) h Q E ↔ E e h := Iff.rfl

@[simp] theorem ends_bind (r : Run ε β) (f : β → Run ε α) :
    (r >>= f).Ends h Q E ↔ r.Ends h (fun b h' => (f b).Ends h' Q E) E := by
  unfold Ends
  rw [on_bind]
  rcases r.on h with ⟨result, h'⟩
  cases result <;> exact Iff.rfl

@[simp] theorem ends_heap {Q : Heap → Heap → Prop} :
    Ends (heap : Run ε Heap) h Q E ↔ Q h h := Iff.rfl

@[simp] theorem ends_lookup (f : Heap → α) : Ends (lookup f) h Q E ↔ Q (f h) h := Iff.rfl

@[simp] theorem ends_inspect (f : Heap → Except ε α) :
    Ends (inspect f) h Q E ↔ (∀ a, f h = .ok a → Q a h) ∧ ∀ e, f h = .error e → E e h := by
  have unfolded : (inspect f).on h = (f h, h) := rfl
  rw [Ends, unfolded]
  cases f h <;> simp

@[simp] theorem ends_update {Q : Unit → Heap → Prop} (f : Heap → Heap) :
    Ends (update f) h Q E ↔ Q () (f h) := Iff.rfl

@[simp] theorem ends_alloc {Q : Loc → Heap → Prop} (c : Cell) :
    Ends (alloc c) h Q E ↔ Q (h.alloc c).1 (h.alloc c).2 := Iff.rfl

@[simp] theorem ends_outcome {Q : Except ε α → Heap → Prop} {E : δ → Heap → Prop}
    (r : Run ε α) :
    Ends (outcome r) h Q E ↔
      r.Ends h (fun a h' => Q (.ok a) h') (fun e h' => Q (.error e) h') := by
  unfold Ends
  simp only [outcome, on, ExceptT.run, StateT.run]
  rcases r h with ⟨result, h'⟩
  cases result <;> exact Iff.rfl

@[simp] theorem ends_mapError {E : δ → Heap → Prop} (f : ε → δ) (r : Run ε α) :
    Ends (mapError f r) h Q E ↔ r.Ends h Q (fun e h' => E (f e) h') := by
  unfold Ends
  simp only [mapError, on, ExceptT.run, StateT.run]
  rcases r h with ⟨result, h'⟩
  cases result <;> exact Iff.rfl

theorem on_outcome (r : Run ε α) (h : Heap) :
    (outcome r : Run δ _).on h = (.ok (r.on h).1, (r.on h).2) := rfl

theorem on_inspect (f : Heap → Except ε α) (h : Heap) : (inspect f).on h = (f h, h) := rfl

theorem on_mapError (f : ε → δ) (r : Run ε α) (h : Heap) :
    (mapError f r).on h = ((r.on h).1.mapError f, (r.on h).2) := by
  have unfolded : (mapError f r).on h = match r.on h with
      | (.ok a, h') => (.ok a, h')
      | (.error e, h') => (.error (f e), h') := rfl
  rw [unfolded]
  rcases r.on h with ⟨result, h'⟩
  cases result <;> rfl

theorem on_of_mapError {f : ε → δ} {r : Run ε α} {a : α} {h' : Heap}
    (ok : (mapError f r).on h = (.ok a, h')) : r.on h = (.ok a, h') := by
  rw [on_mapError] at ok
  rcases ran : r.on h with ⟨e | b, g⟩
  · rw [ran] at ok
    cases ok
  · rw [ran] at ok
    cases ok
    rfl

/-! Errors are renamed step by step. -/

theorem mapError_pure (f : ε → δ) (a : α) : mapError f (pure a : Run ε α) = pure a := rfl

theorem mapError_throw (f : ε → δ) (e : ε) : mapError f (throw e : Run ε α) = throw (f e) := rfl

theorem mapError_heap (f : ε → δ) : mapError f (heap : Run ε Heap) = heap := rfl

theorem mapError_lookup (f : ε → δ) (look : Heap → α) :
    mapError f (lookup look : Run ε α) = lookup look := rfl

theorem mapError_update (f : ε → δ) (change : Heap → Heap) :
    mapError f (update change : Run ε Unit) = update change := rfl

theorem mapError_outcome {γ : Type} (f : ε → δ) (r : Run γ α) :
    mapError f (outcome r : Run ε _) = outcome r := rfl

theorem mapError_bind (f : ε → δ) (r : Run ε α) (next : α → Run ε β) :
    mapError f (r >>= next) = mapError f r >>= fun a => mapError f (next a) := by
  refine funext fun h => ?_
  change (mapError f (r >>= next)).on h = (mapError f r >>= fun a => mapError f (next a)).on h
  rw [on_bind, on_mapError, on_mapError, on_bind]
  rcases r.on h with ⟨_ | a, g⟩
  · rfl
  · exact (on_mapError f (next a) g).symm

theorem mapError_mapError {γ : Type} (f : ε → δ) (g : γ → ε) (r : Run γ α) :
    mapError f (mapError g r) = mapError (fun e => f (g e)) r := by
  refine funext fun h => ?_
  change (mapError f (mapError g r)).on h = (mapError (fun e => f (g e)) r).on h
  rw [on_mapError, on_mapError, on_mapError]
  rcases r.on h with ⟨_ | a, g⟩ <;> rfl

/-- Whatever the heap, a result has the property. -/
def Gives (r : Run ε α) (P : α → Prop) : Prop :=
  ∀ h, r.Ends h (fun a _ => P a) (fun _ _ => True)

namespace Gives

variable {P P' : α → Prop} {R : β → Prop}

theorem any (r : Run ε α) : r.Gives fun _ => True :=
  fun h => (ends_on r h).mono (fun _ _ _ => trivial) fun _ _ _ => trivial

theorem pure {a : α} (ha : P a) : Gives (Pure.pure a : Run ε α) P := fun _ => ha

theorem throw (e : ε) : Gives (MonadExcept.throw e : Run ε α) P := fun _ => trivial

theorem inspect {f : Heap → Except ε α} (hf : ∀ h a, f h = .ok a → P a) :
    Gives (Run.inspect f) P :=
  fun h => (ends_inspect f).2 ⟨hf h, fun _ _ => trivial⟩

theorem bind {r : Run ε β} {f : β → Run ε α} (hr : r.Gives R) (hf : ∀ b, R b → (f b).Gives P) :
    (r >>= f).Gives P :=
  fun h => (ends_bind r f).2 ((hr h).mono (fun b h' hb => hf b hb h') fun _ _ => id)

theorem after {r : Run ε β} {f : β → Run ε α} (hf : ∀ b, (f b).Gives P) : (r >>= f).Gives P :=
  (any r).bind fun b _ => hf b

theorem outcome {r : Run ε α} (hr : r.Gives P) :
    Gives (Run.outcome r : Run δ _) fun result => ∀ a, result = .ok a → P a := by
  intro h
  rw [ends_outcome]
  refine (hr h).mono (fun a _ ha b hb => ?_) fun e _ _ b hb => ?_
  · exact Except.ok.inj hb ▸ ha
  · cases hb

theorem ite {c : Prop} [Decidable c] {r s : Run ε α} (hr : c → r.Gives P) (hs : ¬c → s.Gives P) :
    Gives (if c then r else s) P := by
  split
  · exact hr ‹_›
  · exact hs ‹_›

end Gives

def Agree (r s : Run ε α) (h : Heap) (D : α → α → Prop) : Prop :=
  r.on h = s.on h ∨ ∃ a h₁ b h₂, r.on h = (.ok a, h₁) ∧ s.on h = (.ok b, h₂) ∧ D a b

namespace Agree

variable {r s : Run ε α} {D : α → α → Prop}

theorem of_eq (same : r = s) : r.Agree s h D := .inl (by rw [same])

theorem after (first : Run ε α) {f g : α → Run ε β} {D : β → β → Prop}
    (rest : ∀ a h', (f a).Agree (g a) h' D) : (first >>= f).Agree (first >>= g) h D := by
  rcases ho : first.on h with ⟨result | a, h'⟩
  · exact .inl (by rw [on_bind_of_error ho, on_bind_of_error ho])
  · rcases rest a h' with same | ⟨b, h₁, c, h₂, hb, hc, differ⟩
    · exact .inl (by rw [on_bind_of_ok ho, on_bind_of_ok ho, same])
    · exact .inr ⟨b, h₁, c, h₂, by rw [on_bind_of_ok ho, hb], by rw [on_bind_of_ok ho, hc], differ⟩

theorem map (pass : α → β) {D' : β → β → Prop} (agree : r.Agree s h D)
    (differ : ∀ a b, D a b → D' (pass a) (pass b)) :
    (r >>= fun a => pure (pass a)).Agree (s >>= fun a => pure (pass a)) h D' := by
  rcases agree with same | ⟨a, h₁, b, h₂, ha, hb, hd⟩
  · exact .inl (by rw [on_bind, on_bind, same])
  · exact .inr ⟨pass a, h₁, pass b, h₂, by rw [on_bind_of_ok ha]; rfl,
      by rw [on_bind_of_ok hb]; rfl, differ a b hd⟩

end Agree

def FailsAs (r : Run ε α) (P : ε → Prop) : Prop :=
  ∀ h, r.Ends h (fun _ _ => True) (fun e _ => P e)

namespace FailsAs

variable {P : ε → Prop}

theorem pure (a : α) : FailsAs (Pure.pure a : Run ε α) P := fun _ => trivial

theorem throw {e : ε} (he : P e) : FailsAs (MonadExcept.throw e : Run ε α) P := fun _ => he

theorem heap : FailsAs (Run.heap : Run ε Heap) P := fun _ => trivial

theorem lookup (f : Heap → α) : FailsAs (Run.lookup f : Run ε α) P := fun _ => trivial

theorem inspect {f : Heap → Except ε α} (hf : ∀ h e, f h = .error e → P e) :
    FailsAs (Run.inspect f) P :=
  fun h => (ends_inspect f).2 ⟨fun _ _ => trivial, hf h⟩

theorem newArray (elem : Ty) (vs : List Value) :
    FailsAs (Run.newArray elem vs : Run ε Value) P := fun _ => trivial

theorem outcome {δ : Type} (r : Run δ α) : FailsAs (Run.outcome r : Run ε _) P :=
  fun h => (ends_outcome r).2 ((ends_on r h).mono (fun _ _ _ => trivial) fun _ _ _ => trivial)

theorem mapError {δ : Type} {f : δ → ε} (r : Run δ α) (hf : ∀ e, P (f e)) :
    FailsAs (Run.mapError f r) P :=
  fun h => (ends_mapError f r).2 ((ends_on r h).mono (fun _ _ _ => trivial) fun e _ _ => hf e)

theorem bind {r : Run ε α} {f : α → Run ε β} (hr : r.FailsAs P) (hf : ∀ a, (f a).FailsAs P) :
    (r >>= f).FailsAs P :=
  fun h => (ends_bind r f).2 ((hr h).mono (fun a h' _ => hf a h') fun _ _ => id)

theorem ite {c : Prop} [Decidable c] {r s : Run ε α} (hr : r.FailsAs P) (hs : s.FailsAs P) :
    FailsAs (if c then r else s) P := by
  split
  · exact hr
  · exact hs

end FailsAs

def Constant (r : Run ε α) : Prop := ∃ result, ∀ h, (r.on h).1 = result

namespace Constant

theorem pure (a : α) : Constant (Pure.pure a : Run ε α) := ⟨.ok a, fun _ => rfl⟩

theorem throw (e : ε) : Constant (MonadExcept.throw e : Run ε α) := ⟨.error e, fun _ => rfl⟩

theorem computed (result : Except ε α) : Constant (ExceptT.mk (Pure.pure result) : Run ε α) :=
  ⟨result, fun _ => rfl⟩

theorem bind {r : Run ε β} {f : β → Run ε α} (hr : r.Constant) (hf : ∀ b, (f b).Constant) :
    (r >>= f).Constant := by
  obtain ⟨result, first⟩ := hr
  cases result with
  | error e =>
    refine ⟨.error e, fun h => ?_⟩
    rw [on_bind_of_error (Prod.ext (first h) rfl)]
  | ok b =>
    obtain ⟨result, second⟩ := hf b
    refine ⟨result, fun h => ?_⟩
    rw [on_bind_of_ok (Prod.ext (first h) rfl)]
    exact second _

theorem ite {c : Prop} [Decidable c] {r s : Run ε α} (hr : r.Constant) (hs : s.Constant) :
    Constant (if c then r else s) := by
  split
  · exact hr
  · exact hs

end Constant

end PropertyAccess.Run
