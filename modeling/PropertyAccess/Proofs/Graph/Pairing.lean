import PropertyAccess.Proofs.Graph.Likeness
import PropertyAccess.Proofs.Schema.Enclosed

/-! Graphs that are equal up to the identity of what is new. Two graphs came of one, each with
cells that the other does not have. Locations of both are paired one to one, what was there
before with itself, so that the contents of paired cells are paired too. Pairs come about
where both graphs have the same third one in them, and that may be a part of the graph they
came of, since a closed set of cells is a graph of its own. -/

namespace PropertyAccess

variable {α β γ : Type} {B B' : Loc → Loc → Prop} {N M : Names} {h g : Heap} {S T : Loc → Prop}

/-- The same scalar, or references of one kind to paired locations. -/
inductive Value.Paired (B : Loc → Loc → Prop) : Value → Value → Prop
  | scalar {v : Value} (h : v.loc? = none) : Paired B v v
  | object {l m : Loc} (c : ClassId) (h : B l m) : Paired B (.object ⟨c, l⟩) (.object ⟨c, m⟩)
  | array {l m : Loc} (elem : Ty) (h : B l m) : Paired B (.array elem l) (.array elem m)
  | list {l m : Loc} (s : ListShape) (h : B l m) : Paired B (.list s l) (.list s m)
  | set {l m : Loc} (s : TableShape) (h : B l m) : Paired B (.set s l) (.set s m)
  | map {l m : Loc} (s : TableShape) (h : B l m) : Paired B (.map s l) (.map s m)

inductive Cell.Paired (B : Loc → Loc → Prop) : Cell → Cell → Prop
  | slots {fields fields' : List (String × Value)}
      (h : List.Forall₂ (fun f f' => f.1 = f'.1 ∧ f.2.Paired B f'.2) fields fields') :
      Paired B (.slots fields) (.slots fields')
  | items {vs ws : List Value} (h : List.Forall₂ (Value.Paired B) vs ws) :
      Paired B (.items vs) (.items ws)
  | entries {es fs : List (Value × Value)}
      (h : List.Forall₂ (fun e f => e.1.Paired B f.1 ∧ e.2.Paired B f.2) es fs) :
      Paired B (.entries es) (.entries fs)

/-- The graphs came of one with `size` locations and are equal, as far as the pairs lead, up to
the identity of what is new in them. -/
structure Heap.Paired (size : Nat) (B : Loc → Loc → Prop) (h g : Heap) : Prop where
  kept : ∀ l m, B l m → m = l ∨ size ≤ l ∧ size ≤ m
  left : ∀ l m m', B l m → B l m' → m = m'
  right : ∀ l l' m, B l m → B l' m → l = l'
  cell : ∀ l m, B l m → ∃ c d, h.cell? l = some c ∧ g.cell? m = some d ∧ c.Paired B d

theorem Value.Paired.imp {v w : Value} (hv : v.Paired B w) (into : ∀ l m, B l m → B' l m) :
    v.Paired B' w := by
  cases hv with
  | scalar h => exact .scalar h
  | object c h => exact .object c (into _ _ h)
  | array elem h => exact .array elem (into _ _ h)
  | list s h => exact .list s (into _ _ h)
  | set s h => exact .set s (into _ _ h)
  | map s h => exact .map s (into _ _ h)

theorem Cell.Paired.imp {c d : Cell} (hc : c.Paired B d) (into : ∀ l m, B l m → B' l m) :
    c.Paired B' d := by
  cases hc with
  | slots h => exact .slots (h.imp fun _ _ hf => ⟨hf.1, hf.2.imp into⟩)
  | items h => exact .items (h.imp fun _ _ hv => hv.imp into)
  | entries h => exact .entries (h.imp fun _ _ he => ⟨he.1.imp into, he.2.imp into⟩)

/-! Two graphs that have a third one in them. -/

section Common

def Names.Meet (N M : Names) (S T : Loc → Prop) (l m : Loc) : Prop :=
  S l ∧ T m ∧ ∃ i : Loc, N[i]? = some l ∧ M[i]? = some m

theorem Value.paired_of_alike {x v w : Value} (hv : Like N x v) (hw : Like M x w)
    (inS : v.Within S) (inT : w.Within T) : v.Paired (N.Meet M S T) w := by
  have met {i l m : Loc} (hl : N[i]? = some l) (hm : M[i]? = some m) (inS : S l) (inT : T m) :
      N.Meet M S T l m := ⟨inS, inT, i, hl, hm⟩
  cases hv with
  | scalar scalar =>
    cases hw with
    | scalar => exact .scalar scalar
    | _ => cases scalar
  | object c hl =>
    cases hw with
    | scalar scalar => cases scalar
    | object _ hm => exact .object c (met hl hm (inS _ rfl) (inT _ rfl))
  | array elem hl =>
    cases hw with
    | scalar scalar => cases scalar
    | array _ hm => exact .array elem (met hl hm (inS _ rfl) (inT _ rfl))
  | list s hl =>
    cases hw with
    | scalar scalar => cases scalar
    | list _ hm => exact .list s (met hl hm (inS _ rfl) (inT _ rfl))
  | set s hl =>
    cases hw with
    | scalar scalar => cases scalar
    | set _ hm => exact .set s (met hl hm (inS _ rfl) (inT _ rfl))
  | map s hl =>
    cases hw with
    | scalar scalar => cases scalar
    | map _ hm => exact .map s (met hl hm (inS _ rfl) (inT _ rfl))

theorem forall₂_of_common {P : β → Prop} {Q : γ → Prop} {R : α → β → Prop} {R' : α → γ → Prop}
    {R'' : β → γ → Prop} {xs : List α} {ys : List β} {zs : List γ}
    (hy : List.Forall₂ R xs ys) (hz : List.Forall₂ R' xs zs)
    (both : ∀ x y z, R x y → R' x z → P y → Q z → R'' y z) (hP : ∀ y ∈ ys, P y)
    (hQ : ∀ z ∈ zs, Q z) : List.Forall₂ R'' ys zs := by
  induction hy generalizing zs with
  | nil =>
    cases hz
    exact .nil
  | cons hy _ ih =>
    cases hz with
    | cons hz hzs =>
      rw [List.forall_mem_cons] at hP hQ
      exact .cons (both _ _ _ hy hz hP.1 hQ.1) (ih hzs hP.2 hQ.2)

theorem forall₂_trans {P : α → β → Prop} {Q : β → γ → Prop} {R : α → γ → Prop} {xs : List α}
    {ys : List β} {zs : List γ} (hy : List.Forall₂ P xs ys) (hz : List.Forall₂ Q ys zs)
    (both : ∀ x y z, P x y → Q y z → R x z) : List.Forall₂ R xs zs := by
  induction hy generalizing zs with
  | nil =>
    cases hz
    exact .nil
  | cons hy _ ih =>
    cases hz with
    | cons hz hzs => exact .cons (both _ _ _ hy hz) (ih hzs)

theorem Cell.paired_of_alike {x c d : Cell} (hc : Like N x c) (hd : Like M x d)
    (inS : ∀ v ∈ c.contents, v.Within S) (inT : ∀ w ∈ d.contents, w.Within T) :
    c.Paired (N.Meet M S T) d := by
  cases hc with
  | slots hc =>
    cases hd with
    | slots hd =>
      refine .slots (forall₂_of_common hc hd (fun x y z hy hz inS inT => ?_)
        (fun f hf => inS f.2 (List.mem_map_of_mem hf)) fun f hf => inT f.2 (List.mem_map_of_mem hf))
      exact ⟨hy.1.symm.trans hz.1, Value.paired_of_alike hy.2 hz.2 inS inT⟩
  | items hc =>
    cases hd with
    | items hd =>
      exact .items (forall₂_of_common hc hd (fun _ _ _ => Value.paired_of_alike) inS inT)
  | entries hc =>
    cases hd with
    | entries hd =>
      refine .entries (forall₂_of_common hc hd (fun x y z hy hz inS inT => ?_)
        (forall_contents_entries.1 inS) (forall_contents_entries.1 inT))
      exact ⟨Value.paired_of_alike hy.1 hz.1 inS.1 inT.1,
        Value.paired_of_alike hy.2 hz.2 inS.2 inT.2⟩

end Common

/-! A part of a graph as a graph of its own. -/

def Value.moved (f : Loc → Loc) : Value → Value
  | .object o => .object ⟨o.cls, f o.loc⟩
  | .array elem l => .array elem (f l)
  | .list s l => .list s (f l)
  | .set s l => .set s (f l)
  | .map s l => .map s (f l)
  | v => v

def Cell.moved (f : Loc → Loc) : Cell → Cell
  | .slots fields => .slots (fields.map fun x => (x.1, x.2.moved f))
  | .items vs => .items (vs.map (Value.moved f))
  | .entries es => .entries (es.map fun e => (e.1.moved f, e.2.moved f))

theorem Names.getElem?_idxOf {l : Loc} (hl : l ∈ N) : N[N.idxOf l]? = some l := by
  have inside := List.idxOf_lt_length_of_mem hl
  rw [List.getElem?_eq_getElem inside, List.getElem_idxOf]

theorem Value.alike_moved {v : Value} (hv : v.Within (· ∈ N)) : Like N (v.moved N.idxOf) v := by
  have named {l : Loc} (target : v.loc? = some l) : N[N.idxOf l]? = some l :=
    Names.getElem?_idxOf (hv l target)
  cases v with
  | object o => exact .object o.cls (named rfl)
  | array elem l => exact .array elem (named rfl)
  | list s l => exact .list s (named rfl)
  | set s l => exact .set s (named rfl)
  | map s l => exact .map s (named rfl)
  | _ => exact .scalar rfl

theorem Cell.alike_moved {c : Cell} (hc : ∀ v ∈ c.contents, v.Within (· ∈ N)) :
    Like N (c.moved N.idxOf) c := by
  cases c with
  | slots fields =>
    refine .slots (List.forall₂_map_left_iff.2 (List.forall₂_same.2 fun f hf => ⟨rfl, ?_⟩))
    exact Value.alike_moved (hc f.2 (List.mem_map_of_mem hf))
  | items vs =>
    exact .items (List.forall₂_map_left_iff.2 (List.forall₂_same.2 fun v hv =>
      Value.alike_moved (hc v hv)))
  | entries es =>
    refine .entries (List.forall₂_map_left_iff.2 (List.forall₂_same.2 fun e he => ?_))
    have within := forall_contents_entries.1 hc e he
    exact ⟨Value.alike_moved within.1, Value.alike_moved within.2⟩

namespace Heap

def part (h : Heap) (N : Names) : Heap :=
  ⟨(N.map fun l => ((h.cell? l).getD (.items [])).moved N.idxOf).toArray⟩

theorem Closed.alike_part (hc : h.Closed (· ∈ N)) (ordered : N.Ordered) :
    (h.part N).Alike N h where
  length := by simp [part, size]
  ordered := ordered
  bound _ hm := hc.lt_size hm
  cell i l hl := by
    obtain ⟨c, cell, within⟩ := hc l (List.mem_of_getElem? hl)
    have here : h.cells[l]? = some c := cell
    have moved : (h.part N).cell? i = some (c.moved N.idxOf) := by simp [part, cell?, hl, here]
    rw [moved, cell]
    exact .some (Cell.alike_moved within)

theorem Closed.exists_alike (hc : h.Closed S) :
    ∃ c N, Heap.Alike N c h ∧ ∀ l, l ∈ N ↔ S l := by
  classical
  have same (l : Loc) : l ∈ (List.range h.size).filter (S ·) ↔ S l := by
    simp only [List.mem_filter, List.mem_range, decide_eq_true_eq, and_iff_right_iff_imp]
    exact hc.lt_size
  have closed : h.Closed (· ∈ (List.range h.size).filter (S ·)) := by
    simpa only [same] using hc
  have ordered : Names.Ordered ((List.range h.size).filter (S ·)) :=
    List.pairwise_lt_range.filter _
  exact ⟨_, _, closed.alike_part ordered, same⟩

end Heap

end PropertyAccess
