import Mathlib.Data.Finset.Card
import Mathlib.Data.List.Induction
import Mathlib.Data.List.Pairwise
import Mathlib.Data.List.Perm.Basic
import PropertyAccess.Proofs.Graph.Likeness

/-! The sequence of the entries of a map. Where an entry goes depends on its key alone, so maps
that get the same keys in the same order have their entries in the same places. Entries of
which no two have the same key are all there, and only a sorted map may have them in another
order: that of their ranks, if each key has its own, whatever the order in which they came. -/

namespace PropertyAccess

theorem Number.same_comm (m n : Number) : m.same n = n.same m := by
  cases m with
  | int k a =>
    cases n with
    | int l b => simp only [same, Bool.beq_comm]
    | float l y => cases l <;> rfl
  | float k x =>
    cases n with
    | int l b => cases k <;> rfl
    | float l y => cases k <;> cases l <;> simp only [same, Floating.Binary.same] <;> grind

theorem Value.same_comm (v w : Value) : v.same w = w.same v := by
  cases v <;> cases w <;> first | rfl | simp only [same, Bool.beq_comm, Number.same_comm]

theorem bisectFrom_eq {α : Type} {before : α → Bool} {xs : Array α} {n : Nat}
    (split : ∀ (i : Nat) (x : α), xs[i]? = some x → (before x = true ↔ i < n)) {base size : Nat}
    (inside : base + size ≤ xs.size) (low : base ≤ n) (high : n ≤ base + size) :
    bisectFrom before xs base size = n := by
  fun_induction bisectFrom before xs base size with
  | case1 base size short x found here =>
    have := (split base x found).1 here
    omega
  | case2 base size short x found here =>
    have : ¬ base < n := fun lt => here ((split base x found).2 lt)
    omega
  | case3 base size short missing =>
    have := Array.getElem?_eq_none_iff.1 missing
    omega
  | case4 base size long middle x found ih =>
    have half := split middle x found
    by_cases here : before x = true
    · have := half.1 here
      simp only [here, dite_eq_ite, if_true] at ih ⊢
      exact ih (by omega) (by omega) (by omega)
    · have : ¬ middle < n := fun lt => here (half.2 lt)
      simp only [here, dite_eq_ite, Bool.false_eq_true, if_false] at ih ⊢
      exact ih (by omega) (by omega) (by omega)
  | case5 base size long middle missing =>
    have := Array.getElem?_eq_none_iff.1 missing
    omega

theorem bisect_append {α : Type} {before : α → Bool} {as bs : List α}
    (first : ∀ a ∈ as, before a = true) (last : ∀ b ∈ bs, before b = false) :
    bisect before (as ++ bs) = as.length := by
  refine bisectFrom_eq (fun i x there => ?_) (by simp) (Nat.zero_le _) (by simp)
  rw [List.getElem?_toArray] at there
  by_cases inside : i < as.length
  · rw [List.getElem?_append_left inside] at there
    exact iff_of_true (first x (List.mem_of_getElem? there)) inside
  · rw [List.getElem?_append_right (Nat.not_lt.1 inside)] at there
    exact iff_of_false (by simp [last x (List.mem_of_getElem? there)]) inside

theorem find?_eq_of_perm {α : Type} {l l' : List α} (perm : l.Perm l') {p : α → Bool}
    (single : ∀ a ∈ l, ∀ b ∈ l, p a = true → p b = true → a = b) : l'.find? p = l.find? p := by
  cases found : l.find? p with
  | none =>
    rw [List.find?_eq_none] at found ⊢
    exact fun a ha => found a (perm.mem_iff.2 ha)
  | some a =>
    have here := List.mem_of_find?_eq_some found
    have chosen := List.find?_some found
    obtain ⟨b, there⟩ := Option.isSome_iff_exists.1
      (List.find?_isSome.2 ⟨a, perm.mem_iff.1 here, chosen⟩)
    rw [there, single b (perm.mem_iff.2 (List.mem_of_find?_eq_some there)) a here
      (List.find?_some there) chosen]

theorem lookup_eq_of_perm {α β : Type} [DecidableEq α] {l l' : List (α × β)} (perm : l.Perm l')
    (distinct : (l.map (·.1)).Nodup) (key : α) : l'.lookup key = l.lookup key := by
  have found (l : List (α × β)) : l.lookup key = (l.find? fun e => key == e.1).map (·.2) := by
    induction l with
    | nil => rfl
    | cons e r ih =>
      rw [List.lookup_cons, List.find?_cons]
      cases key == e.1 with
      | true => rfl
      | false => exact ih
  rw [found, found, find?_eq_of_perm perm]
  intro a ha b hb same same'
  exact List.inj_on_of_nodup_map distinct ha hb
    ((beq_iff_eq.1 same).symm.trans (beq_iff_eq.1 same'))

theorem insertIdx_length {α : Type} (as bs : List α) (x : α) :
    (as ++ bs).insertIdx as.length x = as ++ x :: bs := by
  induction as with
  | nil => rfl
  | cons a as ih => simp [ih]

theorem exists_split {α : Type} {before : α → Bool} {xs : List α}
    (closed : xs.Pairwise fun a b => before b = true → before a = true) :
    ∃ as bs, xs = as ++ bs ∧ (∀ a ∈ as, before a = true) ∧ ∀ b ∈ bs, before b = false := by
  induction xs with
  | nil => exact ⟨[], [], rfl, by simp, by simp⟩
  | cons x xs ih =>
    obtain ⟨own, closed⟩ := List.pairwise_cons.1 closed
    cases here : before x with
    | true =>
      obtain ⟨as, bs, rfl, first, last⟩ := ih closed
      exact ⟨x :: as, bs, rfl, List.forall_mem_cons.2 ⟨here, first⟩, last⟩
    | false =>
      have last (b : α) (hb : b ∈ xs) : before b = false := by
        by_contra there
        simp [own b hb (by simpa using there)] at here
      exact ⟨[], x :: xs, rfl, by simp, List.forall_mem_cons.2 ⟨here, last⟩⟩

theorem pairwise_insertIdx_bisect {α : Type} {R : α → α → Prop} {before : α → Bool} {xs : List α}
    {x : α} (sorted : xs.Pairwise R)
    (closed : ∀ a ∈ xs, ∀ b ∈ xs, R a b → before b = true → before a = true)
    (first : ∀ a ∈ xs, before a = true → R a x) (last : ∀ b ∈ xs, before b = false → R x b) :
    (xs.insertIdx (bisect before xs) x).Pairwise R := by
  obtain ⟨as, bs, rfl, below, above⟩ :=
    exists_split (sorted.imp_of_mem fun ha hb => closed _ ha _ hb)
  obtain ⟨inA, inB, between⟩ := List.pairwise_append.1 sorted
  rw [bisect_append below above, insertIdx_length]
  have left (a : α) (ha : a ∈ as) : R a x := first a (List.mem_append_left _ ha) (below a ha)
  have right (b : α) (hb : b ∈ bs) : R x b := last b (List.mem_append_right _ hb) (above b hb)
  exact List.pairwise_append.2 ⟨inA, List.pairwise_cons.2 ⟨right, inB⟩,
    fun a ha => List.forall_mem_cons.2 ⟨left a ha, between a ha⟩⟩

theorem perm_insertIdx_bisect {α : Type} (before : α → Bool) (xs : List α) (x : α) :
    (xs.insertIdx (bisect before xs) x).Perm (xs ++ [x]) :=
  (List.perm_insertIdx _ _ (bisect_le before xs)).trans (List.perm_append_singleton _ _).symm

namespace SetItems

variable {items : List Value} {v : Value}

theorem perm_insert (shape : TableShape) (absent : contains items v = false) :
    (insert shape items v).Perm (items ++ [v]) := by
  rw [insert, if_neg (by rw [absent]; exact Bool.false_ne_true)]
  split
  · exact perm_insertIdx_bisect _ _ _
  · exact .refl _

theorem distinct_insert (distinct : items.Pairwise fun a b => a.same b = false)
    (shape : TableShape) (v : Value) :
    (insert shape items v).Pairwise fun a b => a.same b = false := by
  cases there : contains items v with
  | true =>
    rw [insert_of_contains there]
    exact distinct
  | false =>
    have other (x : Value) (hx : x ∈ items) : x.same v = false :=
      Bool.eq_false_iff.2 (List.any_eq_false.1 there x hx)
    have last : (items ++ [v]).Pairwise fun a b => a.same b = false :=
      List.pairwise_append.2 ⟨distinct, List.pairwise_singleton _ _, by simpa using other⟩
    refine ((perm_insert shape there).pairwise_iff fun h => ?_).2 last
    rw [Value.same_comm, h]

end SetItems

namespace MapEntries

variable {shape other : TableShape} {es fs : List (Value × Value)} {k v w : Value}

theorem contains_map_fst (es : List (Value × Value)) (k : Value) :
    SetItems.contains (es.map (·.1)) k = contains es k := by
  rw [SetItems.contains, contains, List.any_map]
  rfl

theorem map_fst_insert (shape : TableShape) (es : List (Value × Value)) (k v : Value) :
    (insert shape es k v).map (·.1) = SetItems.insert shape (es.map (·.1)) k := by
  have place : bisect (fun x => x.order k == .lt) (es.map (·.1)) =
      bisect (fun e => e.1.order k == .lt) es := by
    rw [bisect_map, List.map_map, bisect_map _ es]
    rfl
  rw [insert, SetItems.insert, contains_map_fst, place]
  split
  · exact map_fst_replace k v es
  · split
    · exact List.map_insertIdx _ _ _ _
    · rw [List.map_append]
      rfl

theorem ofList_concat (shape : TableShape) (es : List (Value × Value)) (e : Value × Value) :
    ofList shape (es ++ [e]) = insert shape (ofList shape es) e.1 e.2 := by
  simp [ofList]

theorem insert_congr (same : shape = .sorted ↔ other = .sorted) : insert shape = insert other := by
  funext es k v
  simp only [insert, same]

theorem ofList_congr (same : shape = .sorted ↔ other = .sorted) (es : List (Value × Value)) :
    ofList shape es = ofList other es := by
  rw [ofList, insert_congr same, ofList]

/-! Entries beside each other. -/

section Beside

variable {R : Value → Value → Prop}

/-- Entries of one key, with related values. -/
def Beside (R : Value → Value → Prop) (e f : Value × Value) : Prop := e.1 = f.1 ∧ R e.2 f.2

theorem map_fst_of_beside (he : List.Forall₂ (Beside R) es fs) : es.map (·.1) = fs.map (·.1) := by
  induction he with
  | nil => rfl
  | cons h _ ih => rw [List.map_cons, List.map_cons, h.1, ih]

theorem any_of_beside (he : List.Forall₂ (Beside R) es fs) (p : Value → Bool) :
    es.any (p ·.1) = fs.any (p ·.1) := by
  simpa [List.any_map, Function.comp_def] using congrArg (List.any · p) (map_fst_of_beside he)

theorem bisect_of_beside (he : List.Forall₂ (Beside R) es fs) (p : Value → Bool) :
    bisect (p ·.1) es = bisect (p ·.1) fs := by
  rw [bisect_map _ es, bisect_map _ fs]
  have keys := congrArg (fun keys => bisect id (keys.map p)) (map_fst_of_beside he)
  simpa [Function.comp_def] using keys

theorem forall₂_replace (he : List.Forall₂ (Beside R) es fs) (hv : R v w) :
    List.Forall₂ (Beside R) (replace k v es) (replace k w fs) := by
  induction he with
  | nil => exact .nil
  | cons h hr ih =>
    rw [replace, replace, h.1]
    split
    · exact .cons ⟨rfl, hv⟩ hr
    · exact .cons h ih

theorem forall₂_insertIdx {e f : Value × Value} (he : List.Forall₂ (Beside R) es fs)
    (h : Beside R e f) (i : Nat) :
    List.Forall₂ (Beside R) (es.insertIdx i e) (fs.insertIdx i f) := by
  induction he generalizing i with
  | nil =>
    cases i with
    | zero => exact .cons h .nil
    | succ i => exact .nil
  | cons h' hs ih =>
    cases i with
    | zero => exact .cons h (.cons h' hs)
    | succ i => exact .cons h' (ih i)

theorem forall₂_insert (shape : TableShape) (he : List.Forall₂ (Beside R) es fs) (hv : R v w) :
    List.Forall₂ (Beside R) (insert shape es k v) (insert shape fs k w) := by
  have there : contains es k = contains fs k := any_of_beside he (·.same k)
  have place := bisect_of_beside he (·.order k == .lt)
  have added : Beside R (k, v) (k, w) := ⟨rfl, hv⟩
  rw [insert, insert, there]
  split
  · exact forall₂_replace he hv
  · split
    · rw [place]
      exact forall₂_insertIdx he added _
    · exact List.rel_append he (.cons added .nil)

theorem forall₂_ofList (shape : TableShape) (he : List.Forall₂ (Beside R) es fs) :
    List.Forall₂ (Beside R) (ofList shape es) (ofList shape fs) := by
  have onto : ∀ {entries entries' : List (Value × Value)},
      List.Forall₂ (Beside R) entries entries' →
      List.Forall₂ (Beside R) (es.foldl (fun entries e => insert shape entries e.1 e.2) entries)
        (fs.foldl (fun entries e => insert shape entries e.1 e.2) entries') := by
    induction he with
    | nil => exact fun h => h
    | @cons e f _ _ h _ ih =>
      obtain ⟨k, v⟩ := e
      obtain ⟨l, w⟩ := f
      obtain ⟨rfl, hv⟩ := h
      exact fun there => ih (forall₂_insert shape there hv)
  exact onto .nil

end Beside

/-! Entries that are apart. -/

def Apart (es : List (Value × Value)) : Prop := es.Pairwise fun e f => e.1.same f.1 = false

theorem Apart.perm (apart : Apart es) (perm : es.Perm fs) : Apart fs :=
  (perm.pairwise_iff fun h => by rw [Value.same_comm, h]).1 apart

theorem apart_iff_keys : Apart es ↔ (es.map (·.1)).Pairwise fun k l => k.same l = false := by
  rw [Apart, List.pairwise_map]

theorem Apart.of_keys (apart : Apart es) (keys : fs.map (·.1) = es.map (·.1)) : Apart fs := by
  rw [apart_iff_keys] at apart ⊢
  rwa [keys]

theorem Apart.of_concat {e : Value × Value} (apart : Apart (es ++ [e])) :
    Apart es ∧ contains es e.1 = false := by
  obtain ⟨inside, -, across⟩ := List.pairwise_append.1 apart
  refine ⟨inside, List.any_eq_false.2 fun f hf => ?_⟩
  rw [across f hf e List.mem_cons_self]
  exact Bool.false_ne_true

theorem contains_of_perm (perm : es.Perm fs) (k : Value) : contains es k = contains fs k :=
  perm.any_eq

theorem perm_insert (shape : TableShape) (absent : contains es k = false) (v : Value) :
    (insert shape es k v).Perm (es ++ [(k, v)]) := by
  rw [insert, if_neg (by rw [absent]; exact Bool.false_ne_true)]
  split
  · exact perm_insertIdx_bisect _ _ _
  · exact .refl _

theorem perm_ofList (shape : TableShape) (apart : Apart es) : (ofList shape es).Perm es := by
  induction es using List.reverseRecOn with
  | nil => exact .refl _
  | append_singleton es e ih =>
    obtain ⟨inside, absent⟩ := apart.of_concat
    rw [ofList_concat]
    refine (perm_insert shape ?_ e.2).trans ((ih inside).append_right _)
    rw [contains_of_perm (ih inside), absent]

theorem exists_perm_ofList {R : Value → Value → Prop} (he : List.Forall₂ (Beside R) es fs)
    (apart : Apart fs) (shape : TableShape) :
    ∃ gs : List (Value × Value), es.Perm gs ∧ List.Forall₂ (Beside R) gs (ofList shape fs) := by
  have both : Relation.Comp (List.Forall₂ (Beside R)) List.Perm es (ofList shape fs) :=
    ⟨fs, he, (perm_ofList shape apart).symm⟩
  rwa [List.forall₂_comp_perm_eq_perm_comp_forall₂] at both

theorem ofList_eq_self (unsorted : shape ≠ .sorted) (apart : Apart es) : ofList shape es = es := by
  induction es using List.reverseRecOn with
  | nil => rfl
  | append_singleton es e ih =>
    obtain ⟨inside, absent⟩ := apart.of_concat
    rw [ofList_concat, ih inside, insert, absent, if_neg Bool.false_ne_true, if_neg unsorted]

theorem apart_ofList (shape : TableShape) (es : List (Value × Value)) :
    Apart (ofList shape es) := by
  induction es using List.reverseRecOn with
  | nil => exact .nil
  | append_singleton es e ih =>
    rw [apart_iff_keys] at ih
    rw [ofList_concat, apart_iff_keys, map_fst_insert]
    exact SetItems.distinct_insert ih shape e.1

/-! Entries in a sorted map. -/

/-- Each key has its own rank in the order of values. -/
structure Ranked (rank : Value → Nat) (es : List (Value × Value)) : Prop where
  order : ∀ e ∈ es, ∀ f ∈ es, e.1.order f.1 = .lt ↔ rank e.1 < rank f.1
  own : es.Pairwise fun e f => rank e.1 ≠ rank f.1

variable {rank : Value → Nat}

theorem Ranked.perm (ranked : Ranked rank es) (perm : es.Perm fs) : Ranked rank fs where
  order e he f hf := ranked.order e (perm.mem_iff.2 he) f (perm.mem_iff.2 hf)
  own := (perm.pairwise_iff fun h => Ne.symm h).1 ranked.own

theorem Ranked.of_keys (ranked : Ranked rank es) (keys : fs.map (·.1) = es.map (·.1)) :
    Ranked rank fs := by
  have there {f : Value × Value} (hf : f ∈ fs) : ∃ e ∈ es, e.1 = f.1 :=
    List.mem_map.1 (keys ▸ List.mem_map_of_mem hf)
  refine ⟨fun e he f hf => ?_, ?_⟩
  · obtain ⟨e', he', key⟩ := there he
    obtain ⟨f', hf', key'⟩ := there hf
    rw [← key, ← key']
    exact ranked.order e' he' f' hf'
  · have own : (es.map (·.1)).Pairwise fun k l => rank k ≠ rank l := List.pairwise_map.2 ranked.own
    rw [← keys, List.pairwise_map] at own
    exact own

/-- Where the order of values is linear on the keys, the rank of a key is the number of those
before it. -/
theorem exists_ranked
    (transitive : ∀ e ∈ es, ∀ f ∈ es, ∀ g ∈ es,
      e.1.order f.1 = .lt → f.1.order g.1 = .lt → e.1.order g.1 = .lt)
    (strict : ∀ e ∈ es, e.1.order e.1 ≠ .lt)
    (total : es.Pairwise fun e f => e.1.order f.1 = .lt ∨ f.1.order e.1 = .lt) :
    ∃ rank, Ranked rank es := by
  let before (k : Value) : Finset Value := (es.map (·.1)).toFinset.filter fun l => l.order k = .lt
  have there (e : Value × Value) (he : e ∈ es) : e.1 ∈ (es.map (·.1)).toFinset :=
    List.mem_toFinset.2 (List.mem_map_of_mem he)
  have rises (e : Value × Value) (he : e ∈ es) (f : Value × Value) (hf : f ∈ es)
      (lt : e.1.order f.1 = .lt) : (before e.1).card < (before f.1).card := by
    refine Finset.card_lt_card ((Finset.ssubset_iff_of_subset fun k hk => ?_).2
      ⟨e.1, Finset.mem_filter.2 ⟨there e he, lt⟩, fun self => ?_⟩)
    · obtain ⟨hk, first⟩ := Finset.mem_filter.1 hk
      obtain ⟨g, hg, rfl⟩ := List.mem_map.1 (List.mem_toFinset.1 hk)
      exact Finset.mem_filter.2 ⟨there g hg, transitive g hg e he f hf first lt⟩
    · exact strict e he (Finset.mem_filter.1 self).2
  refine ⟨fun k => (before k).card, fun e he f hf => ⟨rises e he f hf, fun less => ?_⟩, ?_⟩
  · by_cases same : e = f
    · rw [same] at less
      exact absurd less (Nat.lt_irrefl _)
    have : Std.Symm fun e f : Value × Value => e.1.order f.1 = .lt ∨ f.1.order e.1 = .lt :=
      ⟨fun _ _ => Or.symm⟩
    exact (total.forall he hf same).resolve_right fun gt =>
      absurd (rises f hf e he gt) (Nat.lt_asymm less)
  · refine total.imp_of_mem fun {e f} he hf h => ?_
    rcases h with lt | gt
    · exact Nat.ne_of_lt (rises e he f hf lt)
    · exact Nat.ne_of_gt (rises f hf e he gt)

/-- Texts are ordered by their characters. -/
theorem exists_ranked_of_texts (texts : ∀ e ∈ es, ∃ s, e.1 = .text s) (apart : Apart es) :
    ∃ rank, Ranked rank es := by
  let codes (s : String) : List Nat := s.toList.map Char.toNat
  have order (s t : String) : Value.order (.text s) (.text t) =
      List.compareLex compare (codes s) (codes t) := rfl
  refine exists_ranked (fun e he f hf g hg first last => ?_) (fun e he lt => ?_)
    (apart.imp_of_mem fun {e f} he hf other => ?_)
  · obtain ⟨s, hs⟩ := texts e he
    obtain ⟨t, ht⟩ := texts f hf
    obtain ⟨u, hu⟩ := texts g hg
    rw [hs, ht, order] at first
    rw [ht, hu, order] at last
    rw [hs, hu, order]
    exact Std.TransCmp.lt_trans first last
  · obtain ⟨s, hs⟩ := texts e he
    have self : List.compareLex compare (codes s) (codes s) = .eq := Std.ReflCmp.compare_self
    rw [hs, order, self] at lt
    cases lt
  · obtain ⟨s, hs⟩ := texts e he
    obtain ⟨t, ht⟩ := texts f hf
    rw [hs, ht] at other ⊢
    rw [order, order]
    cases decided : List.compareLex compare (codes s) (codes t) with
    | lt => exact .inl rfl
    | gt => exact .inr (Std.OrientedCmp.lt_of_gt decided)
    | eq =>
      have same : codes s = codes t := Std.LawfulEqCmp.eq_of_compare decided
      have inj : Function.Injective Char.toNat := Function.LeftInverse.injective Char.ofNat_toNat
      have chars : s = t := String.toList_inj.1 (List.map_injective_iff.2 inj same)
      simp [Value.same, chars] at other

def Ascending (rank : Value → Nat) (es : List (Value × Value)) : Prop :=
  es.Pairwise fun e f => rank e.1 < rank f.1

theorem ascending_insert {e : Value × Value} (ascending : Ascending rank es)
    (ranked : Ranked rank (es ++ [e])) (absent : contains es e.1 = false) :
    Ascending rank (insert .sorted es e.1 e.2) := by
  obtain ⟨-, -, other⟩ := List.pairwise_append.1 ranked.own
  have before (x : Value × Value) (there : x ∈ es) :
      (x.1.order e.1 == .lt) = true ↔ rank x.1 < rank e.1 := by
    rw [beq_iff_eq]
    exact ranked.order x (List.mem_append_left _ there) e (List.mem_append_right _ List.mem_cons_self)
  rw [insert, if_neg (by rw [absent]; exact Bool.false_ne_true), if_pos rfl]
  refine pairwise_insertIdx_bisect ascending (fun a ha b hb lt => ?_)
    (fun a ha => (before a ha).1) fun b hb late => ?_
  · rw [before a ha, before b hb]
    exact Nat.lt_trans lt
  · have late : ¬ rank b.1 < rank e.1 := fun lt => by simp [(before b hb).2 lt] at late
    have ne := other b hb e List.mem_cons_self
    exact Nat.lt_of_le_of_ne (Nat.not_lt.1 late) (Ne.symm ne)

theorem ascending_ofList (apart : Apart es) (ranked : Ranked rank es) :
    Ascending rank (ofList .sorted es) := by
  induction es using List.reverseRecOn with
  | nil => exact .nil
  | append_singleton es e ih =>
    obtain ⟨inside, absent⟩ := apart.of_concat
    have perm := perm_ofList .sorted inside
    have part : Ranked rank es := ⟨fun x hx y hy => ranked.order x (List.mem_append_left _ hx) y
      (List.mem_append_left _ hy), (List.pairwise_append.1 ranked.own).1⟩
    rw [ofList_concat]
    refine ascending_insert (ih inside part) (ranked.perm (perm.symm.append_right _)) ?_
    rw [contains_of_perm perm, absent]

theorem ofList_sorted_of_perm (apart : Apart es) (ranked : Ranked rank es) (perm : es.Perm fs) :
    ofList .sorted es = ofList .sorted fs := by
  have apart' := apart.perm perm
  refine List.Perm.eq_of_pairwise (fun a b _ _ lt gt => absurd lt (Nat.lt_asymm gt))
    (ascending_ofList apart ranked) (ascending_ofList apart' (ranked.perm perm)) ?_
  exact ((perm_ofList _ apart).trans perm).trans (perm_ofList _ apart').symm

end MapEntries

end PropertyAccess
