import PropertyAccess.Navigation.Accessor
import PropertyAccess.Proofs.Graph.Ends

/-! What an operation of an accessor ends in: the conditions of operations on the
graph, with the accessor afterwards as one more thing to speak about. -/

namespace PropertyAccess.Walk

variable {α β : Type} {a : Accessor} {h : Heap}

/-- The operation from `a` on as one on the graph, of which the accessor is a part of the
result. -/
def started (w : Walk α) (a : Accessor) : Run (PathError × Accessor) (α × Accessor) := fun h =>
  match Accessor.on w a h with
  | ((.ok x, a'), h') => (.ok (x, a'), h')
  | ((.error e, a'), h') => (.error (e, a'), h')

def Ends (w : Walk α) (a : Accessor) (h : Heap) (Q : α → Accessor → Heap → Prop)
    (E : PathError → Accessor → Heap → Prop) : Prop :=
  (started w a).Ends h (fun r h' => Q r.1 r.2 h') fun r h' => E r.1 r.2 h'

theorem ends_iff {w : Walk α} {Q : α → Accessor → Heap → Prop}
    {E : PathError → Accessor → Heap → Prop} : Ends w a h Q E ↔
      match Accessor.on w a h with
      | ((.ok x, a'), h') => Q x a' h'
      | ((.error e, a'), h') => E e a' h' := by
  have unfolded : (started w a).on h = match Accessor.on w a h with
    | ((.ok x, a'), h') => (.ok (x, a'), h')
    | ((.error e, a'), h') => (.error (e, a'), h') := rfl
  rw [Ends, Run.Ends, unfolded]
  rcases Accessor.on w a h with ⟨⟨result, a'⟩, h'⟩
  cases result <;> exact Iff.rfl

theorem on_bind (w : Walk α) (f : α → Walk β) (a : Accessor) (h : Heap) :
    Accessor.on (w >>= f) a h =
      match Accessor.on w a h with
      | ((.ok x, a'), h') => Accessor.on (f x) a' h'
      | ((.error e, a'), h') => ((.error e, a'), h') := by
  have unfolded : Accessor.on (w >>= f) a h =
      ((ExceptT.bindCont f (Accessor.on w a h).1.1).run (Accessor.on w a h).1.2).run
        (Accessor.on w a h).2 := rfl
  rw [unfolded]
  rcases Accessor.on w a h with ⟨⟨result, a'⟩, h'⟩
  cases result <;> rfl

variable {w : Walk α} {Q Q' : α → Accessor → Heap → Prop}
  {E E' : PathError → Accessor → Heap → Prop}

theorem Ends.of_ok {x : α} {a' : Accessor} {h' : Heap} (he : Ends w a h Q E)
    (ho : Accessor.on w a h = ((.ok x, a'), h')) : Q x a' h' := by
  rwa [ends_iff, ho] at he

theorem Ends.of_error {e : PathError} {a' : Accessor} {h' : Heap} (he : Ends w a h Q E)
    (ho : Accessor.on w a h = ((.error e, a'), h')) : E e a' h' := by
  rwa [ends_iff, ho] at he

theorem Ends.mono (he : Ends w a h Q E) (hQ : ∀ x a' h', Q x a' h' → Q' x a' h')
    (hE : ∀ e a' h', E e a' h' → E' e a' h') : Ends w a h Q' E' :=
  Run.Ends.mono he (fun r h' => hQ r.1 r.2 h') fun r h' => hE r.1 r.2 h'

theorem Ends.and (he : Ends w a h Q E) (he' : Ends w a h Q' E') :
    Ends w a h (fun x a' h' => Q x a' h' ∧ Q' x a' h')
      (fun e a' h' => E e a' h' ∧ E' e a' h') := Run.Ends.and he he'

theorem ends_on (w : Walk α) (a : Accessor) (h : Heap) :
    Ends w a h (fun x a' h' => Accessor.on w a h = ((.ok x, a'), h'))
      (fun e a' h' => Accessor.on w a h = ((.error e, a'), h')) := by
  rw [ends_iff]
  split <;> assumption

theorem Ends.exists_ok (he : Ends w a h Q fun _ _ _ => False) :
    ∃ x a' h', Accessor.on w a h = ((.ok x, a'), h') ∧ Q x a' h' := by
  rcases ho : Accessor.on w a h with ⟨⟨e | x, a'⟩, h'⟩
  · exact (he.of_error ho).elim
  · exact ⟨x, a', h', rfl, he.of_ok ho⟩

theorem Ends.heap {R : Heap → Prop} (he : Ends w a h (fun _ _ => R) fun _ _ => R) :
    R (Accessor.on w a h).2 := by
  rcases ho : Accessor.on w a h with ⟨⟨e | x, a'⟩, h'⟩
  · exact he.of_error ho
  · exact he.of_ok ho

@[simp] theorem ends_pure (x : α) : Ends (pure x) a h Q E ↔ Q x a h := Iff.rfl

@[simp] theorem ends_throw (e : PathError) : Ends (throw e) a h Q E ↔ E e a h := Iff.rfl

@[simp] theorem ends_bind (w : Walk β) (f : β → Walk α) :
    Ends (w >>= f) a h Q E ↔ Ends w a h (fun x a' h' => Ends (f x) a' h' Q E) E := by
  rw [ends_iff, ends_iff, on_bind]
  rcases Accessor.on w a h with ⟨⟨result, a'⟩, h'⟩
  cases result
  · exact Iff.rfl
  · exact ends_iff.symm

@[simp] theorem ends_get {Q : Accessor → Accessor → Heap → Prop} :
    Ends (get : Walk Accessor) a h Q E ↔ Q a a h := Iff.rfl

@[simp] theorem ends_set {Q : PUnit → Accessor → Heap → Prop} (b : Accessor) :
    Ends (set b : Walk PUnit) a h Q E ↔ Q ⟨⟩ b h := Iff.rfl

@[simp] theorem ends_lift (r : Run PathError α) :
    Ends (Accessor.lift r) a h Q E ↔
      r.Ends h (fun x h' => Q x a h') (fun e h' => E e a h') := by
  have unfolded : Accessor.on (Accessor.lift r) a h = (((r.on h).1, a), (r.on h).2) := rfl
  rw [ends_iff, unfolded, Run.Ends]
  rcases r.on h with ⟨result, h'⟩
  cases result <;> exact Iff.rfl

@[simp] theorem ends_outcome {Q : Except PathError α → Accessor → Heap → Prop} (w : Walk α) :
    Ends (Accessor.outcome w) a h Q E ↔
      Ends w a h (fun x a' h' => Q (.ok x) a' h') (fun e a' h' => Q (.error e) a' h') := by
  have unfolded : Accessor.on (Accessor.outcome w) a h =
      ((.ok (Accessor.on w a h).1.1, (Accessor.on w a h).1.2), (Accessor.on w a h).2) := rfl
  rw [ends_iff, ends_iff, unfolded]
  rcases Accessor.on w a h with ⟨⟨result, a'⟩, h'⟩
  cases result <;> exact Iff.rfl

@[simp] theorem ends_attempt {Q : Option α → Accessor → Heap → Prop} (w : Walk α) :
    Ends (Accessor.attempt w) a h Q E ↔
      Ends w a h (fun x => Q (some x)) fun e a' h' =>
        (e = .endless → E e a' h') ∧ (e ≠ .endless → Q none a' h') := by
  rw [Accessor.attempt, ends_bind, ends_outcome]
  refine ⟨fun ends => ends.mono (fun _ _ _ => id) fun e a' h' he => ?_,
    fun ends => ends.mono (fun _ _ _ => id) fun e a' h' he => ?_⟩
  · cases e with
    | endless => exact ⟨fun _ => he, fun other => absurd rfl other⟩
    | _ => exact ⟨nofun, fun _ => he⟩
  · cases e with
    | endless => exact he.1 rfl
    | _ => exact he.2 nofun

theorem ends_enter {Q : Node → Accessor → Heap → Prop} (σ : Schema) (at_ : List String) (n : Node)
    (s : Segment) :
    Ends (Accessor.enter σ at_ n s) a h Q E ↔
      (n.enter σ (Place.ofSegment s)).Ends h
        (fun o h' => Q (Accessor.keep at_ (n.child s o) a.children).1
          ⟨a.node, (Accessor.keep at_ (n.child s o) a.children).2⟩ h')
        (fun e h' => E e a h') := by
  simp only [Accessor.enter, ends_bind, ends_lift, ends_get, ends_set, ends_pure]

theorem on_outcome (w : Walk α) (a : Accessor) (h : Heap) :
    Accessor.on (Accessor.outcome w : Walk (Except PathError α)) a h =
      ((.ok (Accessor.on w a h).1.1, (Accessor.on w a h).1.2), (Accessor.on w a h).2) := rfl

theorem on_lift (r : Run PathError α) (a : Accessor) (h : Heap) :
    Accessor.on (Accessor.lift r) a h = (((r.on h).1, a), (r.on h).2) := rfl

theorem on_attempt_of_ok {x : α} {a' : Accessor} {h' : Heap}
    (ok : Accessor.on w a h = ((.ok x, a'), h')) :
    Accessor.on (Accessor.attempt w) a h = ((.ok (some x), a'), h') := by
  rw [Accessor.attempt, on_bind, on_outcome, ok]
  rfl

theorem on_attempt_of_error {e : PathError} {a' : Accessor} {h' : Heap}
    (failed : Accessor.on w a h = ((.error e, a'), h')) (ended : e ≠ .endless) :
    Accessor.on (Accessor.attempt w) a h = ((.ok none, a'), h') := by
  rw [Accessor.attempt, on_bind, on_outcome, failed]
  cases e with
  | endless => exact absurd rfl ended
  | _ => rfl

theorem on_attempt_of_endless {a' : Accessor} {h' : Heap}
    (endless : Accessor.on w a h = ((.error .endless, a'), h')) :
    Accessor.on (Accessor.attempt w) a h = ((.error .endless, a'), h') := by
  rw [Accessor.attempt, on_bind, on_outcome, endless]
  rfl

theorem ends_parsed {Q : Path → Accessor → Heap → Prop} (path : String) :
    Ends (Accessor.parsed path) a h Q E ↔
      (∀ p, Path.parse path = .ok p → Q p a h) ∧
        ∀ e, Path.parse path = .error e → E (.malformedPath e) a h := by
  unfold Accessor.parsed
  cases hp : Path.parse path <;> simp

theorem ends_follow {σ : Schema} {p : Path} {Q : Node × Place → Accessor → Heap → Prop} :
    Ends (Accessor.follow σ p) a h Q E ↔ Ends (Accessor.reach σ [] a.node p.segments) a h Q E := by
  rw [ends_iff, ends_iff]
  exact Iff.rfl

theorem reach_cons {σ : Schema} (at_ : List String) (n : Node) (s : Segment)
    {rest : List Segment} (further : rest ≠ []) :
    Accessor.reach σ at_ n (s :: rest) = (do
      let child ← Accessor.enter σ (at_ ++ [s.canonical]) n s
      Accessor.reach σ (at_ ++ [s.canonical]) child rest) := by
  cases rest with
  | nil => exact absurd rfl further
  | cons => rfl

theorem ends_apply_of {σ : Schema} {path : String} {raw : Value}
    {Q : Unit → Accessor → Heap → Prop} {E : PathError → Accessor → Heap → Prop}
    (followed : ∀ p, Path.parse path = .ok p → Ends (Accessor.follow σ p) a h
      (fun r b g => (r.1.write σ r.2 raw).Ends g (fun x => Q x b) fun e => E e b)
      fun e b g => E (e.whileWriting (a.node.rootName σ) (a.node.fullPath p.canonical)) b g)
    (malformed : ∀ e, Path.parse path = .error e → E (.malformedPath e) a h) :
    Ends (Accessor.apply σ path raw) a h Q E := by
  rw [Accessor.apply, ends_bind, ends_parsed]
  refine ⟨fun p read => ?_, malformed⟩
  simp only [ends_bind, ends_get, ends_outcome]
  refine (followed p read).mono (fun r b g written => ?_) fun _ _ _ => id
  rwa [ends_lift]

theorem ends_apply_of_parse {σ : Schema} {path : String} {p : Path} {raw : Value}
    {Q : Unit → Accessor → Heap → Prop} {E : PathError → Accessor → Heap → Prop}
    (read : Path.parse path = .ok p) (followed : Ends (Accessor.follow σ p) a h
      (fun r b g => (r.1.write σ r.2 raw).Ends g (fun x => Q x b) fun e => E e b)
      fun e b g => E (e.whileWriting (a.node.rootName σ) (a.node.fullPath p.canonical)) b g) :
    Ends (Accessor.apply σ path raw) a h Q E := by
  refine ends_apply_of (fun q same => ?_) fun e failed => ?_
  · obtain rfl := Except.ok.inj (read.symm.trans same)
    exact followed
  · rw [read] at failed
    cases failed

section Reading

/-! What stays true while a path is followed and a place of its node is read is true after
reading and after every probe. -/

variable {σ : Schema} {path : String} {F : Accessor → Heap → Prop}
  (followed : Ends (do Accessor.follow σ (← Accessor.parsed path)) a h
    (fun r b g => F b g ∧ ∀ shown p, (r.1.read σ shown p).Ends g (fun _ => F b) fun _ => F b)
    fun _ => F)
include followed

theorem ends_resolve_of : Ends (Accessor.resolve σ path) a h (fun _ => F) fun _ => F := by
  have unfolded : Accessor.resolve σ path = (do
      let r ← (do Accessor.follow σ (← Accessor.parsed path))
      Accessor.lift (r.1.read σ r.2.canonical r.2)) := by
    rw [Accessor.resolve, bind_assoc]
  rw [unfolded, ends_bind]
  refine followed.mono (fun r b g hr => ?_) fun _ _ _ => id
  rw [ends_lift]
  exact hr.2 _ _

theorem ends_isReadable_of : Ends (Accessor.isReadable σ path) a h (fun _ => F) fun _ => F := by
  rw [Accessor.isReadable, ends_bind, ends_attempt]
  refine followed.mono (fun r b g hr => ?_) fun e b g he => ⟨fun _ => he, fun _ => he⟩
  obtain ⟨n, name | ⟨holder, key⟩⟩ := r
  · exact hr.1
  · simp only [ends_bind, ends_attempt, ends_lift, ends_pure]
    exact (hr.2 _ _).mono (fun _ _ => id) fun _ _ hf => ⟨fun _ => hf, fun _ => hf⟩

theorem ends_isWritable_of : Ends (Accessor.isWritable σ path) a h (fun _ => F) fun _ => F := by
  rw [Accessor.isWritable, ends_bind, ends_attempt]
  refine followed.mono (fun r b g hr => ?_) fun e b g he => ⟨fun _ => he, fun _ => he⟩
  obtain ⟨n, name | ⟨holder, key⟩⟩ := r
  · exact hr.1
  · simp only [ends_bind, ends_attempt, ends_lift]
    exact (hr.2 _ _).mono (fun _ _ => id) fun _ _ hf => ⟨fun _ => hf, fun _ => hf⟩

theorem ends_typeAt?_of : Ends (Accessor.typeAt? σ path) a h (fun _ => F) fun _ => F := by
  rw [Accessor.typeAt?, ends_bind, ends_attempt]
  exact followed.mono (fun _ _ _ hr => hr.1) fun _ _ _ he => ⟨fun _ => he, fun _ => he⟩

end Reading

end PropertyAccess.Walk
