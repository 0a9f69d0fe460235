import NexaDb.Kernels
import Mathlib.Algebra.Group.Prod

/-! The vector paths of `l2_distance_simd` and `cosine_similarity_simd`.  With `w` lanes (4 on
NEON, 8 on AVX2) a kernel runs over the blocks `[i, i + w)` of `[0, D - D % w)`, lane `j`
accumulating the contribution of index `i + j`; it sums the lanes, then runs the scalar loop over
the tail `[D - D % w, D)`.  Every load is a checked read, so a path that returns on arrays of
`D` floats read nothing past them. -/

namespace NexaDb.Native

def readAt (a : List ℚ) (i : Nat) : Except Error ℚ :=
  match a[i]? with
  | none => .error .outOfRange
  | some x => .ok x

section Loops

variable {α : Type} [AddCommMonoid α] (w : Nat) (term : Nat → Except Error α)

def accumulate (r : α) (i : Nat) : Except Error α := do
  let t ← term i
  pure (r + t)

def laneStep (sum : List α) (i : Nat) : Except Error (List α) := do
  let v ← (List.range w).mapM fun j => term (i + j)
  pure (List.zipWith (· + ·) sum v)

/-- A vector path: the blocks `0, w, 2w, …` below `simd_size = dimensions - dimensions % w` into
`w` zeroed lanes, the lanes summed (`temp[0] + … + temp[w - 1]`), then the tail. -/
def laneBlocked (dimensions : Nat) : Except Error α := do
  let simdSize := dimensions - dimensions % w
  let sum ← (List.range' 0 (simdSize / w) w).foldlM (laneStep w term) (List.replicate w 0)
  (List.range' simdSize (dimensions - simdSize)).foldlM (accumulate term) (sum.foldl (· + ·) 0)

/-- The scalar fallback: `result += term(i)` for `i < dimensions`, from `0`. -/
def scalarLoop (dimensions : Nat) : Except Error α :=
  (List.range dimensions).foldlM (accumulate term) 0

end Loops

/-- `float diff = a[i] - b[i]; diff * diff`, lane by lane in the vector loop. -/
def l2Term (a b : List ℚ) (i : Nat) : Except Error ℚ := do
  let x ← readAt a i
  let y ← readAt b i
  let diff := x - y
  pure (diff * diff)

/-- `a[i] * b[i]`, `a[i] * a[i]` and `b[i] * b[i]`: what index `i` adds to `dot_product`,
`norm_a` and `norm_b`. -/
def cosineTerm (a b : List ℚ) (i : Nat) : Except Error (ℚ × ℚ × ℚ) := do
  let x ← readAt a i
  let y ← readAt b i
  pure (x * y, x * x, y * y)

def l2DistanceLanes (w : Nat) (a b : List ℚ) (dimensions : Nat) : Except Error ℚ :=
  laneBlocked w (l2Term a b) dimensions

def l2DistanceScalar (a b : List ℚ) (dimensions : Nat) : Except Error ℚ :=
  scalarLoop (l2Term a b) dimensions

/-- `(dot_product, norm_a, norm_b)` as `cosine_similarity_simd` computes them on a path of `w`
lanes, before it returns `dot_product / (sqrt(norm_a) * sqrt(norm_b))`. -/
def cosineSumsLanes (w : Nat) (a b : List ℚ) (dimensions : Nat) : Except Error (ℚ × ℚ × ℚ) :=
  laneBlocked w (cosineTerm a b) dimensions

def cosineSumsScalar (a b : List ℚ) (dimensions : Nat) : Except Error (ℚ × ℚ × ℚ) :=
  scalarLoop (cosineTerm a b) dimensions

def cosineSums (a b : List ℚ) (dimensions : Nat) : ℚ × ℚ × ℚ :=
  (((List.range dimensions).map fun i => a.getD i 0 * b.getD i 0).sum,
    ((List.range dimensions).map fun i => a.getD i 0 ^ 2).sum,
    ((List.range dimensions).map fun i => b.getD i 0 ^ 2).sum)

section Sums

variable {α : Type} [AddCommMonoid α] {term : Nat → Except Error α} {f : Nat → α}

theorem foldlM_accumulate : ∀ {l : List Nat} (r : α), (∀ i ∈ l, term i = .ok (f i)) →
    l.foldlM (accumulate term) r = .ok (r + (l.map f).sum)
  | [], r, _ => by simp
  | i :: l, r, h => by
    rw [List.foldlM_cons, accumulate, h i (List.mem_cons_self _ _), ok_bind, pure_eq_ok, ok_bind,
      foldlM_accumulate _ fun j hj => h j (List.mem_cons_of_mem _ hj)]
    simp [add_assoc]

theorem laneStep_eq {w i : Nat} {sum : List α} (hsum : sum.length = w)
    (h : ∀ j < w, term (i + j) = .ok (f (i + j))) :
    ∃ sum', laneStep w term sum i = .ok sum' ∧ sum'.length = w ∧
      sum'.sum = sum.sum + ((List.range' i w).map f).sum := by
  have hv : (List.range w).mapM (fun j => term (i + j)) =
      .ok ((List.range w).map fun j => f (i + j)) :=
    mapM_eq_ok fun j hj => h j (List.mem_range.mp hj)
  refine ⟨_, by rw [laneStep, hv]; rfl, by simp [hsum], ?_⟩
  rw [← List.sum_add_sum_eq_sum_zipWith_of_length_eq _ _ (by simp [hsum]), List.range'_eq_map_range,
    List.map_map]
  rfl

theorem foldlM_laneStep {w : Nat} : ∀ (B i : Nat) {sum : List α}, sum.length = w →
    (∀ t < B * w, term (i + t) = .ok (f (i + t))) →
    ∃ sum', (List.range' i B w).foldlM (laneStep w term) sum = .ok sum' ∧ sum'.length = w ∧
      sum'.sum = sum.sum + ((List.range' i (B * w)).map f).sum
  | 0, i, sum, hs, _ => ⟨sum, rfl, hs, by simp⟩
  | B + 1, i, sum, hs, h => by
    obtain ⟨s₁, h₁, hl₁, hs₁⟩ := laneStep_eq hs fun j hj => h j (by rw [Nat.succ_mul]; omega)
    obtain ⟨s₂, h₂, hl₂, hs₂⟩ := foldlM_laneStep B (i + w) hl₁ fun t ht => by
      simpa [Nat.add_assoc] using h (w + t) (by rw [Nat.succ_mul]; omega)
    refine ⟨s₂, by rw [List.range'_succ, List.foldlM_cons, h₁, ok_bind, h₂], hl₂, ?_⟩
    have hsplit : List.range' i ((B + 1) * w) = List.range' i w ++ List.range' (i + w) (B * w) := by
      simpa [Nat.succ_mul, Nat.add_comm] using (List.range'_append i w (B * w) 1).symm
    rw [hs₂, hs₁, hsplit, List.map_append, List.sum_append, add_assoc]

theorem laneBlocked_eq (w : Nat) {dimensions : Nat} (h : ∀ i < dimensions, term i = .ok (f i)) :
    laneBlocked w term dimensions = .ok ((List.range dimensions).map f).sum := by
  have hdiv : (dimensions - dimensions % w) / w * w = dimensions - dimensions % w :=
    Nat.div_mul_cancel (Nat.dvd_sub_mod dimensions)
  obtain ⟨sum, h₁, -, hs⟩ := @foldlM_laneStep _ _ term f w
    ((dimensions - dimensions % w) / w) 0 _ (List.length_replicate w 0) fun t ht => by
      simpa using h t (by rw [hdiv] at ht; omega)
  have hsplit := List.range'_append 0 (dimensions - dimensions % w)
    (dimensions - (dimensions - dimensions % w)) 1
  rw [Nat.sub_add_cancel (Nat.sub_le _ _), zero_add, Nat.one_mul] at hsplit
  rw [laneBlocked, h₁, ok_bind, foldlM_accumulate _ fun i hi => h i (by simp at hi; omega),
    ← List.sum_eq_foldl, hs, hdiv, List.sum_replicate, nsmul_zero, zero_add, ← List.sum_append,
    ← List.map_append, hsplit, List.range_eq_range']

theorem scalarLoop_eq {dimensions : Nat} (h : ∀ i < dimensions, term i = .ok (f i)) :
    scalarLoop term dimensions = .ok ((List.range dimensions).map f).sum := by
  rw [scalarLoop, foldlM_accumulate _ fun i hi => h i (List.mem_range.mp hi), zero_add]

end Sums

theorem readAt_of_lt {a : List ℚ} {i : Nat} (h : i < a.length) : readAt a i = .ok (a.getD i 0) := by
  simp [readAt, h]

theorem l2Term_of_lt {a b : List ℚ} {i : Nat} (ha : i < a.length) (hb : i < b.length) :
    l2Term a b i = .ok ((a.getD i 0 - b.getD i 0) ^ 2) := by
  simp [l2Term, readAt_of_lt ha, readAt_of_lt hb, sq]

theorem cosineTerm_of_lt {a b : List ℚ} {i : Nat} (ha : i < a.length) (hb : i < b.length) :
    cosineTerm a b i = .ok (a.getD i 0 * b.getD i 0, a.getD i 0 ^ 2, b.getD i 0 ^ 2) := by
  simp [cosineTerm, readAt_of_lt ha, readAt_of_lt hb, sq]

theorem sum_map_triple (l : List Nat) (x y z : Nat → ℚ) :
    (l.map fun i => (x i, y i, z i)).sum = ((l.map x).sum, (l.map y).sum, (l.map z).sum) := by
  induction l with
  | nil => rfl
  | cons i l ih => simp [ih]

/-- On arrays of `D` floats, every path of either kernel (any lane width, NEON's 4 and AVX2's 8
among them) reads only indices below `D` and computes the sums of the scalar loop. -/
theorem lanes_match_scalar (w : Nat) {a b : List ℚ} {dimensions : Nat}
    (ha : a.length = dimensions) (hb : b.length = dimensions) :
    l2DistanceLanes w a b dimensions = .ok (l2DistanceSimd a b dimensions) ∧
      l2DistanceScalar a b dimensions = .ok (l2DistanceSimd a b dimensions) ∧
      cosineSumsLanes w a b dimensions = .ok (cosineSums a b dimensions) ∧
      cosineSumsScalar a b dimensions = .ok (cosineSums a b dimensions) := by
  have hl2 : ∀ i < dimensions, l2Term a b i = .ok ((a.getD i 0 - b.getD i 0) ^ 2) :=
    fun i hi => l2Term_of_lt (ha ▸ hi) (hb ▸ hi)
  have hcos : ∀ i < dimensions, cosineTerm a b i =
      .ok (a.getD i 0 * b.getD i 0, a.getD i 0 ^ 2, b.getD i 0 ^ 2) :=
    fun i hi => cosineTerm_of_lt (ha ▸ hi) (hb ▸ hi)
  refine ⟨laneBlocked_eq w hl2, scalarLoop_eq hl2, ?_, ?_⟩
  · rw [cosineSumsLanes, laneBlocked_eq w hcos, sum_map_triple]; rfl
  · rw [cosineSumsScalar, scalarLoop_eq hcos, sum_map_triple]; rfl

theorem lanes_match_scalar_five :
    ([1, 2, 3, 4, 5] : List ℚ).length = 5 ∧ ([0, 1, 0, 1, 0] : List ℚ).length = 5 ∧
      l2DistanceLanes 4 [1, 2, 3, 4, 5] [0, 1, 0, 1, 0] 5 =
          .ok (l2DistanceSimd [1, 2, 3, 4, 5] [0, 1, 0, 1, 0] 5) ∧
        l2DistanceScalar [1, 2, 3, 4, 5] [0, 1, 0, 1, 0] 5 =
          .ok (l2DistanceSimd [1, 2, 3, 4, 5] [0, 1, 0, 1, 0] 5) ∧
        cosineSumsLanes 4 [1, 2, 3, 4, 5] [0, 1, 0, 1, 0] 5 =
          .ok (cosineSums [1, 2, 3, 4, 5] [0, 1, 0, 1, 0] 5) ∧
        cosineSumsScalar [1, 2, 3, 4, 5] [0, 1, 0, 1, 0] 5 =
          .ok (cosineSums [1, 2, 3, 4, 5] [0, 1, 0, 1, 0] 5) :=
  ⟨rfl, rfl, lanes_match_scalar 4 rfl rfl⟩

end NexaDb.Native
