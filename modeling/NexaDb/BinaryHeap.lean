import Mathlib.Data.List.GetD
import NexaDb.Stl

/-! A conforming library with the binary-heap layout of libstdc++.  `push_heap` sifts the new
entry up past every parent that orders before it; `pop_heap` moves the last entry to the front,
sinks it to a leaf along the children that order later and sifts it back up, as
`std::__adjust_heap` does.  libstdc++ moves a hole where this swaps, which leaves the same layout.
The proofs follow the entry being moved: everywhere else the heap is in order, and its
neighbours are in the order the direction of the sift needs. -/

namespace NexaDb.Native

namespace BinaryHeap

variable {α : Type} (key : α → ℚ) (d : α)

def swapAt (w : List α) (i j : Nat) : List α := (w.set i (w.getD j d)).set j (w.getD i d)

/-- The sift-up of `std::__push_heap`: the entry at `i` rises past every parent that orders before
it, for at most `fuel` rounds. -/
def siftUp : Nat → List α → Nat → List α
  | 0, w, _ => w
  | fuel + 1, w, i =>
    if 0 < i ∧ key (w.getD ((i - 1) / 2) d) < key (w.getD i d) then
      siftUp fuel (swapAt d w i ((i - 1) / 2)) ((i - 1) / 2)
    else w

/-- The descent of `std::__adjust_heap` over the first `len` entries: the entry at `i` sinks to a
leaf, each round past the child that orders later, the right one on a tie. -/
def siftToLeaf (len : Nat) : Nat → List α → Nat → List α × Nat
  | 0, w, i => (w, i)
  | fuel + 1, w, i =>
    if 2 * i + 2 < len then
      let c := if key (w.getD (2 * i + 2) d) < key (w.getD (2 * i + 1) d) then 2 * i + 1
        else 2 * i + 2
      siftToLeaf len fuel (swapAt d w i c) c
    else if 2 * i + 2 = len then (swapAt d w i (2 * i + 1), 2 * i + 1)
    else (w, i)

/-- `std::push_heap`: the last entry sifts up. -/
def pushHeap (w : List α) : List α :=
  match w.getLast? with
  | none => w
  | some x => siftUp key x w.length w (w.length - 1)

/-- `std::pop_heap`: the last entry takes the front's place, sinks to a leaf of the others and
sifts back up, and the front goes last. -/
def popHeap : List α → List α
  | [] => []
  | x :: r => match r.getLast? with
    | none => [x]
    | some e =>
      let leaf := siftToLeaf key e r.length r.length (e :: r.dropLast) 0
      siftUp key e leaf.2 leaf.1 leaf.2 ++ [x]

def Ordered (w : List α) : Prop :=
  ∀ j, 0 < j → j < w.length → key (w.getD j d) ≤ key (w.getD ((j - 1) / 2) d)

/-- What the sift-up keeps: every entry but the one at `i` orders no later than its parent, and
the children of `i` no later than the parent of `i`. -/
structure UpOrder (w : List α) (i : Nat) : Prop where
  except : ∀ j, 0 < j → j < w.length → j ≠ i → key (w.getD j d) ≤ key (w.getD ((j - 1) / 2) d)
  grand : 0 < i → ∀ c, 0 < c → c < w.length → (c - 1) / 2 = i →
    key (w.getD c d) ≤ key (w.getD ((i - 1) / 2) d)

/-- What the descent keeps: every parent and child pair off the entry at `i` is in order, and the
children of `i` order no later than the parent of `i`. -/
structure DownOrder (w : List α) (i : Nat) : Prop where
  except : ∀ j, 0 < j → j < w.length → j ≠ i → (j - 1) / 2 ≠ i →
    key (w.getD j d) ≤ key (w.getD ((j - 1) / 2) d)
  grand : 0 < i → ∀ c, 0 < c → c < w.length → (c - 1) / 2 = i →
    key (w.getD c d) ≤ key (w.getD ((i - 1) / 2) d)

section Swap

variable {key d} {w : List α} {i j : Nat}

@[simp] theorem length_swapAt (w : List α) (i j : Nat) : (swapAt d w i j).length = w.length := by
  simp [swapAt]

theorem getD_swapAt (hi : i < w.length) (hj : j < w.length) (k : Nat) :
    (swapAt d w i j).getD k d =
      if k = j then w.getD i d else if k = i then w.getD j d else w.getD k d := by
  simp only [swapAt, List.getD_eq_getElem?_getD, List.getElem?_set, List.length_set]
  split_ifs <;> first | rfl | omega

theorem cons_perm_set {l : List α} (hi : i < l.length) (a : α) :
    (a :: l).Perm (l[i] :: l.set i a) := by
  have hl : l = l.take i ++ l[i] :: l.drop (i + 1) := by
    rw [← List.drop_eq_getElem_cons hi, List.take_append_drop]
  rw [List.set_eq_take_append_cons_drop, if_pos hi]
  conv_lhs => rw [hl]
  exact (List.perm_middle.cons a).trans ((List.Perm.swap _ _ _).trans (List.perm_middle.cons _).symm)

theorem swapAt_perm (hi : i < w.length) (hj : j < w.length) : (swapAt d w i j).Perm w := by
  have hu : j < (w.set i w[j]).length := by simpa using hj
  have huj : (w.set i w[j])[j] = w[j] := by
    rw [List.getElem_set]
    split <;> simp_all
  have h := (cons_perm_set hi w[j]).trans (huj ▸ cons_perm_set hu w[i])
  rw [swapAt, List.getD_eq_getElem _ _ hi, List.getD_eq_getElem _ _ hj]
  exact ((List.perm_cons _).mp h).symm

theorem getD_swapAt_snd (hi : i < w.length) (hj : j < w.length) :
    (swapAt d w i j).getD j d = w.getD i d := by
  rw [getD_swapAt hi hj, if_pos rfl]

theorem getD_swapAt_fst (hi : i < w.length) (hj : j < w.length) (h : i ≠ j) :
    (swapAt d w i j).getD i d = w.getD j d := by
  rw [getD_swapAt hi hj, if_neg h, if_pos rfl]

theorem getD_swapAt_of_ne (hi : i < w.length) (hj : j < w.length) {k : Nat} (hki : k ≠ i)
    (hkj : k ≠ j) : (swapAt d w i j).getD k d = w.getD k d := by
  rw [getD_swapAt hi hj, if_neg hkj, if_neg hki]

end Swap

section Orders

variable {key d} {w : List α} {i : Nat}

theorem UpOrder.swap (o : UpOrder key d w i) (hi : 0 < i) (hl : i < w.length)
    (hb : key (w.getD ((i - 1) / 2) d) < key (w.getD i d)) :
    UpOrder key d (swapAt d w i ((i - 1) / 2)) ((i - 1) / 2) := by
  have hpl : (i - 1) / 2 < w.length := by omega
  have hpi : (i - 1) / 2 ≠ i := by omega
  constructor
  · intro j hj0 hjl hjp
    rw [length_swapAt] at hjl
    rcases eq_or_ne j i with rfl | hji
    · rw [getD_swapAt_fst hl hpl hpi.symm, getD_swapAt_snd hl hpl]
      exact hb.le
    rw [getD_swapAt_of_ne hl hpl hji hjp]
    by_cases hq : (j - 1) / 2 = i
    · rw [hq, getD_swapAt_fst hl hpl hpi.symm]
      exact o.grand hi j hj0 hjl hq
    by_cases hq' : (j - 1) / 2 = (i - 1) / 2
    · rw [hq', getD_swapAt_snd hl hpl]
      exact (hq' ▸ o.except j hj0 hjl hji).trans hb.le
    · rw [getD_swapAt_of_ne hl hpl hq hq']
      exact o.except j hj0 hjl hji
  · intro hp0 c hc0 hcl hcp
    rw [length_swapAt] at hcl
    have hpp : key (w.getD ((i - 1) / 2) d) ≤ key (w.getD (((i - 1) / 2 - 1) / 2) d) :=
      o.except _ hp0 hpl hpi
    rw [getD_swapAt_of_ne hl hpl (k := ((i - 1) / 2 - 1) / 2) (by omega) (by omega)]
    rcases eq_or_ne c i with rfl | hci
    · rw [getD_swapAt_fst hl hpl hpi.symm]
      exact hpp
    · rw [getD_swapAt_of_ne hl hpl hci (by omega)]
      exact (hcp ▸ o.except c hc0 hcl hci).trans hpp

theorem UpOrder.ordered (o : UpOrder key d w i)
    (hstop : 0 < i → key (w.getD i d) ≤ key (w.getD ((i - 1) / 2) d)) : Ordered key d w := by
  intro j hj0 hjl
  rcases eq_or_ne j i with rfl | hji
  · exact hstop hj0
  · exact o.except j hj0 hjl hji

theorem DownOrder.swap (o : DownOrder key d w i) {c : Nat} (hc0 : 0 < c) (hcl : c < w.length)
    (hc : (c - 1) / 2 = i)
    (hmax : ∀ c', 0 < c' → c' < w.length → (c' - 1) / 2 = i → key (w.getD c' d) ≤ key (w.getD c d)) :
    DownOrder key d (swapAt d w i c) c := by
  have hil : i < w.length := by omega
  have hic : i ≠ c := by omega
  constructor
  · intro j hj0 hjl hjc hjq
    rw [length_swapAt] at hjl
    rcases eq_or_ne j i with rfl | hji
    · rw [getD_swapAt_fst hil hcl hic, getD_swapAt_of_ne hil hcl (by omega) (by omega)]
      exact o.grand hj0 c hc0 hcl hc
    rw [getD_swapAt_of_ne hil hcl hji hjc]
    by_cases hq : (j - 1) / 2 = i
    · rw [hq, getD_swapAt_fst hil hcl hic]
      exact hmax j hj0 hjl hq
    · rw [getD_swapAt_of_ne hil hcl hq hjq]
      exact o.except j hj0 hjl hji hq
  · intro _ g hg0 hgl hgc
    rw [length_swapAt] at hgl
    rw [hc, getD_swapAt_fst hil hcl hic, getD_swapAt_of_ne hil hcl (by omega) (by omega)]
    exact hgc ▸ o.except g hg0 hgl (by omega) (by omega)

theorem DownOrder.upOrder (o : DownOrder key d w i) (hleaf : w.length ≤ 2 * i + 1) :
    UpOrder key d w i :=
  ⟨fun j hj0 hjl hji => o.except j hj0 hjl hji (by omega), fun _ c hc0 hcl hci => by omega⟩

end Orders

section Runs

variable {key d}

theorem siftUp_spec : ∀ (fuel : Nat) (w : List α) (i : Nat), i ≤ fuel → i < w.length →
    UpOrder key d w i → Ordered key d (siftUp key d fuel w i) ∧ (siftUp key d fuel w i).Perm w
  | 0, w, i, hf, _, o => by
    obtain rfl : i = 0 := by omega
    exact ⟨o.ordered fun h => absurd h (lt_irrefl 0), List.Perm.refl w⟩
  | fuel + 1, w, i, hf, hl, o => by
    rw [siftUp]
    split_ifs with h
    · obtain ⟨ho, hp⟩ := siftUp_spec fuel _ _ (by omega) (by simp; omega) (o.swap h.1 hl h.2)
      exact ⟨ho, hp.trans (swapAt_perm hl (by omega))⟩
    · exact ⟨o.ordered fun hi => not_lt.mp fun hlt => h ⟨hi, hlt⟩, List.Perm.refl w⟩

theorem siftToLeaf_spec (len : Nat) : ∀ (fuel : Nat) (w : List α) (i : Nat), w.length = len →
    i < len → len ≤ fuel + i → DownOrder key d w i →
      ∃ w' j, siftToLeaf key d len fuel w i = (w', j) ∧ j < w'.length ∧ UpOrder key d w' j ∧
        w'.Perm w
  | 0, _, _, _, hi, hf, _ => by omega
  | fuel + 1, w, i, hw, hi, hf, o => by
    rw [siftToLeaf]
    split_ifs with h₁ hlt h₂
    · obtain ⟨w', j, he, hj, o', hp⟩ := siftToLeaf_spec len fuel _ (2 * i + 1) (by simpa using hw)
        (by omega) (by omega) (o.swap (by omega) (by omega) (by omega) fun c' hc0 hcl hc => by
          rcases (by omega : c' = 2 * i + 1 ∨ c' = 2 * i + 2) with rfl | rfl
          · exact le_rfl
          · exact hlt.le)
      exact ⟨w', j, he, hj, o', hp.trans (swapAt_perm (by omega) (by omega))⟩
    · obtain ⟨w', j, he, hj, o', hp⟩ := siftToLeaf_spec len fuel _ (2 * i + 2) (by simpa using hw)
        (by omega) (by omega) (o.swap (by omega) (by omega) (by omega) fun c' hc0 hcl hc => by
          rcases (by omega : c' = 2 * i + 1 ∨ c' = 2 * i + 2) with rfl | rfl
          · exact not_lt.mp hlt
          · exact le_rfl)
      exact ⟨w', j, he, hj, o', hp.trans (swapAt_perm (by omega) (by omega))⟩
    · refine ⟨_, _, rfl, by simp; omega, (o.swap (by omega) (by omega) (by omega)
        fun c' hc0 hcl hc => by rw [(by omega : c' = 2 * i + 1)]).upOrder (by simp; omega),
        swapAt_perm (by omega) (by omega)⟩
    · exact ⟨w, i, rfl, by omega, o.upOrder (by omega), List.Perm.refl w⟩

end Runs

theorem isHeap_of_ordered {w : List α} (h : Ordered key d w) : IsHeap key w := fun j hj hj0 => by
  have := h j hj0 hj
  rwa [List.getD_eq_getElem _ _ hj, List.getD_eq_getElem _ _ (by omega)] at this

theorem ordered_of_isHeap {w : List α} (h : IsHeap key w) : Ordered key d w := fun j hj0 hj => by
  rw [List.getD_eq_getElem _ _ hj, List.getD_eq_getElem _ _ (by omega)]
  exact h j hj hj0

theorem upOrder_append {c : List α} (x : α) (h : IsHeap key c) : UpOrder key x (c ++ [x]) c.length := by
  refine ⟨fun j hj0 hjl hji => ?_, fun hi c' hc0 hcl hc => by simp at hcl; omega⟩
  have hj : j < c.length := by simp at hjl; omega
  rw [List.getD_append _ _ _ _ hj, List.getD_append _ _ _ _ (by omega)]
  exact ordered_of_isHeap key x h j hj0 hj

theorem pushHeap_spec {c : List α} (x : α) (h : IsHeap key c) :
    IsHeap key (pushHeap key (c ++ [x])) ∧ (pushHeap key (c ++ [x])).Perm (c ++ [x]) := by
  have hp : pushHeap key (c ++ [x]) = siftUp key x (c.length + 1) (c ++ [x]) c.length := by
    simp [pushHeap]
  obtain ⟨ho, hperm⟩ := siftUp_spec (c.length + 1) (c ++ [x]) c.length (by omega) (by simp)
    (upOrder_append key x h)
  exact hp ▸ ⟨isHeap_of_ordered key x ho, hperm⟩

theorem getD_front (x e : α) {r : List α} {j : Nat} (hj0 : 0 < j) (hj : j < r.length) :
    (e :: r.dropLast).getD j e = (x :: r).getD j e := by
  obtain ⟨j, rfl⟩ : ∃ j', j = j' + 1 := ⟨j - 1, by omega⟩
  have hj' : j < r.dropLast.length := by simp; omega
  simp only [List.getD_cons_succ, List.getD_eq_getElem _ _ hj', List.getElem_dropLast,
    List.getD_eq_getElem _ _ (by omega : j < r.length)]

theorem popHeap_cons {x : α} {r : List α} (h : IsHeap key (x :: r)) :
    ∃ A, popHeap key (x :: r) = A ++ [x] ∧ IsHeap key A ∧ A.Perm r := by
  cases hr : r.getLast? with
  | none =>
    obtain rfl : r = [] := List.getLast?_eq_none_iff.mp hr
    exact ⟨[], rfl, IsHeap.nil key, List.Perm.refl _⟩
  | some e =>
    have hr' : r.dropLast ++ [e] = r := List.dropLast_append_getLast? e hr
    have hlen : 0 < r.length := List.length_pos.mpr fun h => by simp [h] at hr
    have hw : (e :: r.dropLast).length = r.length := by
      simp only [List.length_cons, List.length_dropLast]
      omega
    have o : DownOrder key e (e :: r.dropLast) 0 := ⟨fun j hj0 hjl _ hjq => by
      rw [hw] at hjl
      rw [getD_front x e hj0 hjl, getD_front x e (by omega) (by omega)]
      exact ordered_of_isHeap key e h j hj0 (by simp; omega), fun h0 => absurd h0 (lt_irrefl 0)⟩
    obtain ⟨w', j, hleaf, hj, o', hp⟩ := siftToLeaf_spec r.length r.length _ 0 hw hlen (by omega) o
    obtain ⟨ho, hp'⟩ := siftUp_spec j w' j le_rfl hj o'
    refine ⟨_, by simp only [popHeap, hr, hleaf], isHeap_of_ordered key e ho, hp'.trans (hp.trans ?_)⟩
    conv_rhs => rw [← hr']
    exact (List.perm_append_singleton e _).symm

end BinaryHeap

/-- A conforming implementation with libstdc++'s binary-heap layout, sorting as `Stl.sorting`
does. -/
def Stl.binaryHeap : Stl :=
  { Stl.sorting with
    pushHeap := fun key c => BinaryHeap.pushHeap key c
    popHeap := fun key c => BinaryHeap.popHeap key c
    pushHeap_perm := fun key _ x h => (BinaryHeap.pushHeap_spec key x h).2
    pushHeap_isHeap := fun key _ x h => (BinaryHeap.pushHeap_spec key x h).1
    popHeap_perm := fun key c h => by
      cases c with
      | nil => exact List.Perm.refl _
      | cons x r =>
        obtain ⟨A, he, -, hp⟩ := BinaryHeap.popHeap_cons key h
        show (BinaryHeap.popHeap key (x :: r)).Perm _
        rw [he]
        exact (hp.append_right [x]).trans (List.perm_append_singleton x r)
    popHeap_getLast := fun key x _ h => by
      obtain ⟨A, he, -, -⟩ := BinaryHeap.popHeap_cons key h
      simp [he]
    popHeap_isHeap := fun key c h => by
      cases c with
      | nil => exact IsHeap.nil key
      | cons x r =>
        obtain ⟨A, he, hA, -⟩ := BinaryHeap.popHeap_cons key h
        simpa [he] using hA }

example : Stl.binaryHeap.push id [(2 : ℚ), 1] 3 = [3, 1, 2] ∧
    Stl.sorting.push id [(2 : ℚ), 1] 3 = [3, 2, 1] := by
  decide

end NexaDb.Native
