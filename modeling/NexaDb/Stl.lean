import Mathlib.Data.List.Sort
import NexaDb.Kernels

/-! The part of the C++ standard library the indexes call, given by the guarantees the
standard makes, so that every result holds for any conforming implementation. -/

namespace NexaDb.Native

/-- The standard's heap condition for the comparator `key a < key b`: no element orders
after its parent. -/
def IsHeap {α : Type} (key : α → ℚ) (v : List α) : Prop :=
  ∀ i (h : i < v.length), 0 < i → key v[i] ≤ key (v.get ⟨(i - 1) / 2, by omega⟩)

/-- The heap algorithms `std::priority_queue` runs on its vector, `std::sort` and
`std::partial_sort`, each for the comparator `key a < key b`.  The order an implementation
leaves equal keys in is its own; the fields after the operations are what the standard
promises. -/
structure Stl where
  pushHeap : {α : Type} → (α → ℚ) → List α → List α
  popHeap : {α : Type} → (α → ℚ) → List α → List α
  sort : {α : Type} → (α → ℚ) → List α → List α
  partialSort : {α : Type} → (α → ℚ) → Nat → List α → List α
  pushHeap_perm : ∀ {α} (key : α → ℚ) c x, IsHeap key c → (pushHeap key (c ++ [x])).Perm (c ++ [x])
  pushHeap_isHeap : ∀ {α} (key : α → ℚ) c x, IsHeap key c → IsHeap key (pushHeap key (c ++ [x]))
  popHeap_perm : ∀ {α} (key : α → ℚ) c, IsHeap key c → (popHeap key c).Perm c
  popHeap_getLast : ∀ {α} (key : α → ℚ) (x : α) c,
    IsHeap key (x :: c) → (popHeap key (x :: c)).getLast? = some x
  popHeap_isHeap : ∀ {α} (key : α → ℚ) c, IsHeap key c → IsHeap key (popHeap key c).dropLast
  sort_perm : ∀ {α} (key : α → ℚ) c, (sort key c).Perm c
  sort_sorted : ∀ {α} (key : α → ℚ) c, (sort key c).Sorted (fun a b => key a ≤ key b)
  partialSort_perm : ∀ {α} (key : α → ℚ) k c, k ≤ c.length → (partialSort key k c).Perm c
  partialSort_sorted : ∀ {α} (key : α → ℚ) k c, k ≤ c.length →
    ((partialSort key k c).take k).Sorted (fun a b => key a ≤ key b)
  partialSort_le : ∀ {α} (key : α → ℚ) k c, k ≤ c.length →
    ∀ a ∈ (partialSort key k c).take k, ∀ b ∈ (partialSort key k c).drop k, key a ≤ key b

theorem IsHeap.nil {α : Type} (key : α → ℚ) : IsHeap key [] := fun _ h => absurd h (by simp)

theorem IsHeap.le_head {α : Type} {key : α → ℚ} {x : α} {c : List α} (h : IsHeap key (x :: c)) :
    ∀ y ∈ c, key y ≤ key x := by
  have all : ∀ i (hi : i < (x :: c).length), key (x :: c)[i] ≤ key x := by
    intro i
    induction i using Nat.strongRecOn with
    | ind i ih =>
      intro hi
      rcases Nat.eq_zero_or_pos i with rfl | hpos
      · exact le_rfl
      · exact (h i hi hpos).trans (ih _ (by omega) _)
  intro y hy
  obtain ⟨i, hi, rfl⟩ := List.getElem_of_mem hy
  exact all (i + 1) (by simpa using hi)

theorem isHeap_of_sorted {α : Type} {key : α → ℚ} {c : List α}
    (h : c.Sorted (fun a b => key b ≤ key a)) : IsHeap key c := fun i hi hpos =>
  h.rel_get_of_lt (a := ⟨(i - 1) / 2, by omega⟩) (b := ⟨i, hi⟩) (by simp; omega)

namespace Stl

variable (S : Stl) {α : Type} (key : α → ℚ)

/-- `priority_queue::push`: `push_back`, then `push_heap`. -/
def push (c : List α) (x : α) : List α := S.pushHeap key (c ++ [x])

/-- `priority_queue::pop`: `pop_heap`, then `pop_back`. -/
def pop (c : List α) : List α := (S.popHeap key c).dropLast

variable {S key}

theorem push_perm {c : List α} (x : α) (h : IsHeap key c) : (S.push key c x).Perm (x :: c) :=
  (S.pushHeap_perm key c x h).trans (List.perm_append_singleton x c)

theorem push_isHeap {c : List α} (x : α) (h : IsHeap key c) : IsHeap key (S.push key c x) :=
  S.pushHeap_isHeap key c x h

@[simp] theorem length_push {c : List α} (x : α) (h : IsHeap key c) :
    (S.push key c x).length = c.length + 1 := by
  simpa using (push_perm x h).length_eq

theorem pop_perm {x : α} {c : List α} (h : IsHeap key (x :: c)) : (S.pop key (x :: c)).Perm c := by
  have hlast := S.popHeap_getLast key x c h
  have split := List.dropLast_append_getLast? x (by simpa using hlast)
  have hp := S.popHeap_perm key (x :: c) h
  rw [← split] at hp
  exact List.perm_cons x |>.mp ((List.perm_append_singleton x _).symm.trans hp)

theorem pop_isHeap {c : List α} (h : IsHeap key c) : IsHeap key (S.pop key c) :=
  S.popHeap_isHeap key c h

@[simp] theorem length_pop {x : α} {c : List α} (h : IsHeap key (x :: c)) :
    (S.pop key (x :: c)).length = c.length :=
  (pop_perm h).length_eq

theorem mem_push {c : List α} {x y : α} (h : IsHeap key c) : y ∈ S.push key c x ↔ y = x ∨ y ∈ c :=
  (push_perm x h).mem_iff.trans List.mem_cons

theorem mem_pop {x y : α} {c : List α} (h : IsHeap key (x :: c)) : y ∈ S.pop key (x :: c) ↔ y ∈ c :=
  (pop_perm h).mem_iff

theorem push_nil (x : α) : S.push key [] x = [x] :=
  List.perm_singleton.mp (push_perm x (IsHeap.nil key))

theorem push_ne_nil {c : List α} (x : α) (h : IsHeap key c) : S.push key c x ≠ [] :=
  List.ne_nil_of_length_pos (by simp [h])

theorem sorted_insertionSort_le {α : Type} (key : α → ℚ) (c : List α) :
    (c.insertionSort (fun a b => key a ≤ key b)).Sorted (fun a b => key a ≤ key b) :=
  @List.sorted_insertionSort α (fun a b => key a ≤ key b) _ ⟨fun _ _ => le_total _ _⟩
    ⟨fun _ _ _ => le_trans⟩ c

theorem sorted_insertionSort_ge {α : Type} (key : α → ℚ) (c : List α) :
    (c.insertionSort (fun a b => key b ≤ key a)).Sorted (fun a b => key b ≤ key a) :=
  @List.sorted_insertionSort α (fun a b => key b ≤ key a) _ ⟨fun _ _ => le_total _ _⟩
    ⟨fun _ _ _ h₁ h₂ => le_trans h₂ h₁⟩ c

theorem pairwise_orderedInsert {α : Type} {r Q : α → α → Prop} [DecidableRel r] {x : α} :
    ∀ {l : List α}, l.Pairwise Q → (∀ y ∈ l, Q x y) → (∀ y ∈ l, ¬r x y → Q y x) →
      (l.orderedInsert r x).Pairwise Q
  | [], _, _, _ => List.pairwise_singleton _ _
  | y :: l, hl, hx, hy => by
    obtain ⟨hyl, hl⟩ := List.pairwise_cons.mp hl
    simp only [List.orderedInsert]
    split
    · exact List.pairwise_cons.mpr ⟨hx, List.pairwise_cons.mpr ⟨hyl, hl⟩⟩
    · rename_i hxy
      refine List.pairwise_cons.mpr ⟨fun z hz => ?_, pairwise_orderedInsert hl
        (fun z hz => hx z (List.mem_cons_of_mem _ hz)) fun z hz => hy z (List.mem_cons_of_mem _ hz)⟩
      rcases List.mem_cons.mp ((List.perm_orderedInsert r x l).subset hz) with rfl | hz
      · exact hy y (List.mem_cons_self _ _) hxy
      · exact hyl z hz

theorem pairwise_insertionSort_ties {α : Type} (key : α → ℚ) (id : α → Nat) :
    ∀ {l : List α}, l.Pairwise (fun a b => id a < id b) →
      (l.insertionSort (fun a b => key a ≤ key b)).Pairwise (fun a b => key a = key b → id a < id b)
  | [], _ => List.Pairwise.nil
  | x :: l, h => by
    obtain ⟨hx, hl⟩ := List.pairwise_cons.mp h
    exact pairwise_orderedInsert (pairwise_insertionSort_ties key id hl)
      (fun y hy _ => hx y ((List.perm_insertionSort _ l).subset hy))
      fun _ _ hxy hyx => absurd hyx.symm.le hxy

/-- A conforming implementation that keeps each vector sorted; it lets the model run. -/
def sorting : Stl where
  pushHeap key c := c.insertionSort (fun a b => key b ≤ key a)
  popHeap key c := match c with
    | [] => []
    | x :: r => r.insertionSort (fun a b => key b ≤ key a) ++ [x]
  sort key c := c.insertionSort (fun a b => key a ≤ key b)
  partialSort key _ c := c.insertionSort (fun a b => key a ≤ key b)
  pushHeap_perm _ _ _ _ := List.perm_insertionSort _ _
  pushHeap_isHeap key _ _ _ := isHeap_of_sorted (sorted_insertionSort_ge key _)
  popHeap_perm key c _ := by
    cases c with
    | nil => exact List.Perm.refl _
    | cons x r =>
      exact ((List.perm_insertionSort _ r).append_right [x]).trans (List.perm_append_singleton x r)
  popHeap_getLast _ _ _ _ := by simp
  popHeap_isHeap key c _ := by
    cases c with
    | nil => exact IsHeap.nil key
    | cons x r => simpa using isHeap_of_sorted (sorted_insertionSort_ge key r)
  sort_perm _ _ := List.perm_insertionSort _ _
  sort_sorted key c := sorted_insertionSort_le key c
  partialSort_perm _ _ _ _ := List.perm_insertionSort _ _
  partialSort_sorted key k c _ := (sorted_insertionSort_le key c).sublist (List.take_sublist k _)
  partialSort_le key k c _ _ ha _ hb :=
    (sorted_insertionSort_le key c).rel_of_mem_take_of_mem_drop ha hb

/-- `partial_sort` keeps equal keys in input order among the first `k`, as a stable sort does.
The standard does not ask it. -/
def StableFirst (S : Stl) : Prop :=
  ∀ {α : Type} (key : α → ℚ) (k : Nat) (c : List α), k ≤ c.length →
    (S.partialSort key k c).take k = (c.insertionSort (fun a b => key a ≤ key b)).take k

theorem sorting_stableFirst : sorting.StableFirst := fun _ _ _ _ => rfl

def reversing : Stl :=
  { sorting with
    partialSort := fun key _ c => c.reverse.insertionSort (fun a b => key a ≤ key b)
    partialSort_perm := fun _ _ c _ => (List.perm_insertionSort _ _).trans (List.reverse_perm c)
    partialSort_sorted := fun key k c _ =>
      (sorted_insertionSort_le key c.reverse).sublist (List.take_sublist k _)
    partialSort_le := fun key _ c _ _ ha _ hb =>
      (sorted_insertionSort_le key c.reverse).rel_of_mem_take_of_mem_drop ha hb }

end Stl

theorem map_eq_of_perm_of_sorted {α : Type} {key : α → ℚ} {l₁ l₂ : List α} (hp : l₁.Perm l₂)
    (h₁ : l₁.Sorted (fun a b => key a ≤ key b)) (h₂ : l₂.Sorted (fun a b => key a ≤ key b)) :
    l₁.map key = l₂.map key :=
  List.eq_of_perm_of_sorted (hp.map key) (List.pairwise_map.mpr h₁) (List.pairwise_map.mpr h₂)

theorem eq_of_perm_of_sorted_key {α : Type} {key : α → ℚ} : ∀ {l l' : List α}, l.Perm l' →
    l.Sorted (fun a b => key a ≤ key b) → l'.Sorted (fun a b => key a ≤ key b) →
    (∀ x ∈ l, ∀ y ∈ l, key x = key y → x = y) → l = l'
  | [], _, hp, _, _, _ => hp.nil_eq
  | _ :: _, [], hp, _, _, _ => hp.eq_nil
  | a :: l, b :: l', hp, hs, hs', hk => by
    have head_le : ∀ {x : α} {t : List α}, (x :: t).Sorted (fun a b => key a ≤ key b) →
        ∀ y ∈ x :: t, key x ≤ key y := fun h y hy =>
      (List.mem_cons.mp hy).elim (fun e => e ▸ le_rfl) (List.rel_of_sorted_cons h y)
    have hb := hp.symm.subset (List.mem_cons_self b l')
    obtain rfl : a = b := hk a (List.mem_cons_self _ _) b hb
      (le_antisymm (head_le hs b hb) (head_le hs' a (hp.subset (List.mem_cons_self a l))))
    rw [eq_of_perm_of_sorted_key hp.cons_inv hs.of_cons hs'.of_cons fun x hx y hy =>
      hk x (List.mem_cons_of_mem _ hx) y (List.mem_cons_of_mem _ hy)]

theorem Stl.partialSort_completion (S : Stl) {α : Type} (key : α → ℚ) {k : Nat} {c : List α}
    (hk : k ≤ c.length) :
    ∃ B : List α, B.Perm c ∧ B.Sorted (fun a b => key a ≤ key b) ∧
      B.take k = (S.partialSort key k c).take k := by
  have hP := S.partialSort_perm key k c hk
  have hrest := List.perm_insertionSort (fun a b => key a ≤ key b) ((S.partialSort key k c).drop k)
  refine ⟨_ ++ _, ((hrest.append_left _).trans (by rw [List.take_append_drop])).trans hP,
    List.pairwise_append.mpr ⟨S.partialSort_sorted key k c hk, Stl.sorted_insertionSort_le key _,
      fun a ha b hb => S.partialSort_le key k c hk a ha b (hrest.subset hb)⟩,
    List.take_left' (by simp [hP.length_eq, hk])⟩

end NexaDb.Native
