import NexaDb.BatchInserter

namespace NexaDb.Native.VectorBatchInserter

variable {s s' : VectorBatchInserter} {vs : List (List ℚ)}

structure Arena (s : VectorBatchInserter) (vs : List (List ℚ)) : Prop where
  data_eq : s.data = vs.flatten
  numVectors_eq : s.numVectors = vs.length
  rows : ∀ v ∈ vs, v.length = s.dimensions

theorem add_ok_iff {v : List ℚ} :
    s.add v = .ok s' ↔ v.length = s.dimensions ∧
      s' = { s with data := s.data ++ v, numVectors := s.numVectors + 1 } := by
  unfold add
  split <;> simp_all [eq_comm]

theorem addBatch_ok_iff {batch : List (List ℚ)} :
    s.addBatch batch = .ok () s' ↔ (∀ v ∈ batch, v.length = s.dimensions) ∧
      s' = { s with data := s.data ++ batch.flatten,
                    numVectors := s.numVectors + batch.length } := by
  unfold addBatch
  split
  · simp_all
  · simp_all [@eq_comm _ s']

theorem addBatch_of_mismatch {batch : List (List ℚ)} (h : ∃ v ∈ batch, v.length ≠ s.dimensions) :
    s.addBatch batch = .error (.invalidArgument "Vector dimension mismatch") s := by
  simp [addBatch, h]

theorem Arena.add {v : List ℚ} (h : Arena s vs) (hs : s.add v = .ok s') : Arena s' (vs ++ [v]) := by
  obtain ⟨hv, rfl⟩ := add_ok_iff.mp hs
  refine ⟨by simp [h.data_eq], by simp [h.numVectors_eq], fun w hw => ?_⟩
  rcases List.mem_append.mp hw with hw | hw
  · exact h.rows w hw
  · exact (List.mem_singleton.mp hw) ▸ hv

theorem Arena.addBatch {batch : List (List ℚ)} (h : Arena s vs) (hs : s.addBatch batch = .ok () s') :
    Arena s' (vs ++ batch) := by
  obtain ⟨hv, rfl⟩ := addBatch_ok_iff.mp hs
  refine ⟨by simp [h.data_eq], by simp [h.numVectors_eq], fun v hmem => ?_⟩
  rcases List.mem_append.mp hmem with hmem | hmem
  · exact h.rows v hmem
  · exact hv v hmem

theorem Reachable.arena (h : Reachable s vs) : Arena s vs := by
  induction h with
  | new => exact ⟨rfl, rfl, by simp⟩
  | add _ hs ih => exact ih.add hs
  | addBatch _ hs ih => exact ih.addBatch hs
  | clear => exact ⟨rfl, rfl, by simp⟩

theorem Arena.rowsOf (h : Arena s vs) : RowsOf s.data s.dimensions s.numVectors vs := by
  rw [h.data_eq, h.numVectors_eq]
  exact RowsOf.flatten h.rows

def allDistances (s : VectorBatchInserter) (q : List ℚ) : List (Nat × ℚ) :=
  (List.range s.numVectors).map fun i => (i, s.kernel q (slice s.data s.dimensions i) s.dimensions)

@[simp] theorem length_allDistances (q : List ℚ) : (s.allDistances q).length = s.numVectors := by
  simp [allDistances]

@[simp] theorem map_fst_allDistances (q : List ℚ) :
    (s.allDistances q).map (·.1) = List.range s.numVectors := by
  simp [allDistances, Function.comp_def]

theorem nodup_allDistances (q : List ℚ) : (s.allDistances q).Nodup :=
  List.Nodup.of_map (·.1) (by simpa using List.nodup_range _)

theorem pairwise_allDistances (q : List ℚ) : (s.allDistances q).Pairwise (fun a b => a.1 < b.1) :=
  List.pairwise_map.mpr (List.pairwise_lt_range _)

theorem Arena.mem_allDistances (h : Arena s vs) {q : List ℚ} {p : Nat × ℚ} :
    p ∈ s.allDistances q ↔ ∃ h : p.1 < vs.length, p.2 = s.kernel q vs[p.1] s.dimensions := by
  simp only [allDistances, List.mem_map, List.mem_range, h.numVectors_eq]
  constructor
  · rintro ⟨i, hi, rfl⟩
    exact ⟨hi, by rw [h.rowsOf.slice_eq _ hi]⟩
  · rintro ⟨hp, he⟩
    exact ⟨p.1, hp, by rw [h.rowsOf.slice_eq _ hp, ← he]⟩

theorem Arena.distances (h : Arena s vs) (hd : 0 < s.dimensions) (q : List ℚ) :
    s.distances q = .ok (s.allDistances q) :=
  mapM_eq_ok fun i hi => by
    rw [row_of_lt h.rowsOf.length_data hd (List.mem_range.mp hi)]
    rfl

/-- `search` is the first `min k n` of what `partial_sort` leaves of every distance, also for an
empty arena, where both are empty. -/
theorem Arena.search_eq (S : Stl) (h : Arena s vs) (hd : 0 < s.dimensions) {q : List ℚ}
    (hq : q.length = s.dimensions) (k : Nat) :
    s.search S q k = .ok ((S.partialSort (·.2) (min k vs.length) (s.allDistances q)).take
      (min k vs.length)) := by
  by_cases hn : vs.length = 0
  · simp [search, hq, h.numVectors_eq, hn]
  · simp [search, hq, h.numVectors_eq, hn, h.distances hd q]

theorem Arena.search_sorted (S : Stl) (h : Arena s vs) (hd : 0 < s.dimensions) {q : List ℚ}
    (hq : q.length = s.dimensions) (k : Nat) :
    ∃ B : List (Nat × ℚ), B.Perm (s.allDistances q) ∧ B.Sorted (fun a b => a.2 ≤ b.2) ∧
      s.search S q k = .ok (B.take (min k vs.length)) := by
  obtain ⟨B, hB, sB, hBk⟩ := Stl.partialSort_completion S (·.2) (k := min k vs.length)
    (c := s.allDistances q) (by simp [h.numVectors_eq])
  exact ⟨B, hB, sB, by rw [h.search_eq S hd hq, hBk]⟩

theorem mem_drop_of_fst_not_mem {P : List (Nat × ℚ)} {x : Nat × ℚ} {m : Nat} (hx : x ∈ P)
    (hnot : x.1 ∉ (P.take m).map (·.1)) : x ∈ P.drop m := by
  rw [← List.take_append_drop m P] at hx
  exact (List.mem_append.mp hx).resolve_left fun h => hnot (List.mem_map_of_mem _ h)

/-- `search` returns the `min k n` smallest distances, each with its ID, in ascending order. -/
theorem search_smallest (S : Stl) (hs : Reachable s vs) (hd : 0 < s.dimensions) {q : List ℚ}
    (hq : q.length = s.dimensions) (k : Nat) :
    ∃ res, s.search S q k = .ok res ∧ res.length = min k vs.length ∧ (res.map (·.1)).Nodup ∧
      (∀ p ∈ res, ∃ h : p.1 < vs.length, p.2 = s.kernel q vs[p.1] s.dimensions) ∧
      res.Sorted (fun a b => a.2 ≤ b.2) ∧
      ∀ j (hj : j < vs.length), j ∉ res.map (·.1) →
        ∀ p ∈ res.getLast?, p.2 ≤ s.kernel q vs[j] s.dimensions := by
  have A := hs.arena
  obtain ⟨B, hB, sB, hsearch⟩ := A.search_sorted S hd hq k
  have hlen : B.length = vs.length := by simp [hB.length_eq, A.numVectors_eq]
  refine ⟨_, hsearch, by simp [hlen], ?_, fun p hp => A.mem_allDistances.mp
    (hB.subset (List.mem_of_mem_take hp)), sB.sublist (List.take_sublist _ _), ?_⟩
  · exact ((List.take_sublist _ _).map _).nodup
      ((hB.map _).nodup_iff.mpr (by simpa using List.nodup_range s.numVectors))
  · intro j hj hnot p hp
    exact sB.rel_of_mem_take_of_mem_drop (List.mem_of_mem_getLast? hp)
      (mem_drop_of_fst_not_mem (hB.symm.subset (A.mem_allDistances (p := (j, _)).mpr ⟨hj, rfl⟩)) hnot)

theorem search_smallest_pair :
    Reachable ⟨1, 2, [1, 3], l2DistanceSimd⟩ [[1], [3]] ∧ ∃ res,
      (⟨1, 2, [1, 3], l2DistanceSimd⟩ : VectorBatchInserter).search Stl.sorting [2] 1 = .ok res ∧
      res.length = min 1 [[1], [3]].length ∧ (res.map (·.1)).Nodup ∧
      (∀ p ∈ res, ∃ h : p.1 < [[1], [3]].length,
        p.2 = l2DistanceSimd [2] ([[1], [3]] : List (List ℚ))[p.1] 1) ∧
      res.Sorted (fun a b => a.2 ≤ b.2) ∧
      ∀ j (hj : j < [[1], [3]].length), j ∉ res.map (·.1) →
        ∀ p ∈ res.getLast?, p.2 ≤ l2DistanceSimd [2] ([[1], [3]] : List (List ℚ))[j] 1 :=
  have hr : Reachable ⟨1, 2, [1, 3], l2DistanceSimd⟩ [[1], [3]] :=
    .add (v := [3]) (.add (v := [1]) (.new 1 l2DistanceSimd) rfl) rfl
  ⟨hr, search_smallest Stl.sorting hr (by decide) (q := [2]) rfl 1⟩

/-- When `partial_sort` keeps equal distances in input order, ties come out by ascending ID: of
two returned pairs at one distance the smaller ID is first, and every ID left out is larger than
the returned IDs at its distance. -/
theorem search_ties_by_id (S : Stl) (hS : S.StableFirst) (hs : Reachable s vs)
    (hd : 0 < s.dimensions) {q : List ℚ} (hq : q.length = s.dimensions) (k : Nat) :
    ∃ res, s.search S q k = .ok res ∧ res.Pairwise (fun a b => a.2 = b.2 → a.1 < b.1) ∧
      ∀ j (hj : j < vs.length), j ∉ res.map (·.1) →
        ∀ p ∈ res, p.2 = s.kernel q vs[j] s.dimensions → p.1 < j := by
  have A := hs.arena
  have hties := Stl.pairwise_insertionSort_ties (fun p : Nat × ℚ => p.2) (fun p => p.1)
    (pairwise_allDistances (s := s) q)
  have hres := hS (·.2) (min k vs.length) (s.allDistances q) (by simp [A.numVectors_eq])
  rw [← List.take_append_drop (min k vs.length) (List.insertionSort _ _)] at hties
  refine ⟨_, A.search_eq S hd hq k, hres ▸ (List.pairwise_append.mp hties).1,
    fun j hj hnot p hp hpj => (List.pairwise_append.mp hties).2.2 p (hres ▸ hp) _
      (mem_drop_of_fst_not_mem ((List.perm_insertionSort _ _).symm.subset
        (A.mem_allDistances (p := (j, _)).mpr ⟨hj, rfl⟩)) (hres ▸ hnot)) hpj⟩

theorem search_ties_by_id_pair :
    Stl.sorting.StableFirst ∧ Reachable ⟨1, 2, [0, 0], l2DistanceSimd⟩ [[0], [0]] ∧ ∃ res,
      (⟨1, 2, [0, 0], l2DistanceSimd⟩ : VectorBatchInserter).search Stl.sorting [0] 2 = .ok res ∧
      res.Pairwise (fun a b => a.2 = b.2 → a.1 < b.1) ∧
      ∀ j (hj : j < [[0], [0]].length), j ∉ res.map (·.1) →
        ∀ p ∈ res, p.2 = l2DistanceSimd [0] ([[0], [0]] : List (List ℚ))[j] 1 → p.1 < j :=
  have hr : Reachable ⟨1, 2, [0, 0], l2DistanceSimd⟩ [[0], [0]] :=
    .add (v := [0]) (.add (v := [0]) (.new 1 l2DistanceSimd) rfl) rfl
  ⟨Stl.sorting_stableFirst, hr, search_ties_by_id Stl.sorting Stl.sorting_stableFirst hr (by decide)
    (q := [0]) rfl 2⟩

section Runs

attribute [local semireducible] Rat.add Rat.sub Rat.mul

theorem search_ties_reversed :
    Reachable ⟨1, 2, [0, 0], l2DistanceSimd⟩ [[0], [0]] ∧
      (⟨1, 2, [0, 0], l2DistanceSimd⟩ : VectorBatchInserter).search Stl.reversing [0] 2 =
        .ok [(1, 0), (0, 0)] :=
  ⟨.add (v := [0]) (.add (v := [0]) (.new 1 l2DistanceSimd) rfl) rfl, by rfl⟩

end Runs

theorem search_zero_dimensions :
    Reachable ⟨0, 1, [], l2DistanceSimd⟩ [[]] ∧
      (⟨0, 1, [], l2DistanceSimd⟩ : VectorBatchInserter).search Stl.sorting [] 1 =
        .error .outOfRange :=
  ⟨.add (.new 0 l2DistanceSimd) rfl, rfl⟩

/-- The distances `search` returns are the same under every conforming library, and those for
`k` are the first `k` of those for any `k' ≥ k`: two libraries, or two calls, differ at most in
which of several equally distant IDs they return. -/
theorem search_distances_agree (S S' : Stl) (hs : Reachable s vs) (hd : 0 < s.dimensions)
    {q : List ℚ} (hq : q.length = s.dimensions) {k k' : Nat} (hk : k ≤ k') :
    ∃ res res', s.search S q k = .ok res ∧ s.search S' q k' = .ok res' ∧
      res.map (·.2) = (res'.map (·.2)).take k := by
  have A := hs.arena
  obtain ⟨B, hB, sB, hsearch⟩ := A.search_sorted S hd hq k
  obtain ⟨B', hB', sB', hsearch'⟩ := A.search_sorted S' hd hq k'
  refine ⟨_, _, hsearch, hsearch', ?_⟩
  rw [List.map_take, List.map_take, map_eq_of_perm_of_sorted (hB.trans hB'.symm) sB sB',
    List.take_take]
  congr 1
  omega

/-- For every reachable state, `D ≥ 1`, query of `D` values whose distances to the stored vectors
are pairwise distinct, and `k`: `search` returns the same pairs under any two conforming
libraries. -/
theorem search_same_of_distinct (S S' : Stl) (hs : Reachable s vs) (hd : 0 < s.dimensions)
    {q : List ℚ} (hq : q.length = s.dimensions)
    (hsep : ∀ i (hi : i < vs.length) j (hj : j < vs.length),
      s.kernel q vs[i] s.dimensions = s.kernel q vs[j] s.dimensions → i = j)
    (k : Nat) : s.search S q k = s.search S' q k := by
  have A := hs.arena
  obtain ⟨B, hB, sB, hsearch⟩ := A.search_sorted S hd hq k
  obtain ⟨B', hB', sB', hsearch'⟩ := A.search_sorted S' hd hq k
  -- the pairs differ in distance, so there is one way to sort them
  have hinj : ∀ x ∈ B, ∀ y ∈ B, x.2 = y.2 → x = y := fun x hx y hy h => by
    obtain ⟨hi, hx⟩ := A.mem_allDistances.mp (hB.subset hx)
    obtain ⟨hj, hy⟩ := A.mem_allDistances.mp (hB.subset hy)
    exact Prod.ext (hsep _ hi _ hj (hx ▸ hy ▸ h)) h
  rw [hsearch, hsearch', eq_of_perm_of_sorted_key (hB.trans hB'.symm) sB sB' hinj]

section Runs

attribute [local semireducible] Rat.add Rat.sub Rat.mul

theorem search_same_of_distinct_triple :
    Reachable ⟨1, 3, [0, 1, 3], l2DistanceSimd⟩ [[0], [1], [3]] ∧
      0 < (⟨1, 3, [0, 1, 3], l2DistanceSimd⟩ : VectorBatchInserter).dimensions ∧
      ([0] : List ℚ).length = (⟨1, 3, [0, 1, 3], l2DistanceSimd⟩ : VectorBatchInserter).dimensions ∧
      (∀ i (hi : i < [[(0 : ℚ)], [1], [3]].length) j (hj : j < [[(0 : ℚ)], [1], [3]].length),
        l2DistanceSimd [0] [[(0 : ℚ)], [1], [3]][i] 1 = l2DistanceSimd [0] [[(0 : ℚ)], [1], [3]][j] 1 →
          i = j) ∧
      (⟨1, 3, [0, 1, 3], l2DistanceSimd⟩ : VectorBatchInserter).search Stl.reversing [0] 2 =
        (⟨1, 3, [0, 1, 3], l2DistanceSimd⟩ : VectorBatchInserter).search Stl.sorting [0] 2 :=
  have hr : Reachable ⟨1, 3, [0, 1, 3], l2DistanceSimd⟩ [[0], [1], [3]] :=
    .add (v := [3]) (.add (v := [1]) (.add (v := [0]) (.new 1 l2DistanceSimd) rfl) rfl) rfl
  have hsep : ∀ i (hi : i < [[(0 : ℚ)], [1], [3]].length) j (hj : j < [[(0 : ℚ)], [1], [3]].length),
      l2DistanceSimd [0] [[(0 : ℚ)], [1], [3]][i] 1 = l2DistanceSimd [0] [[(0 : ℚ)], [1], [3]][j] 1 →
        i = j := by decide
  ⟨hr, by decide, rfl, hsep,
    search_same_of_distinct Stl.reversing Stl.sorting hr (by decide) (q := [0]) rfl hsep 2⟩

end Runs

theorem search_distances_agree_triple :
    Reachable ⟨1, 3, [0, 0, 1], l2DistanceSimd⟩ [[0], [0], [1]] ∧ ∃ res res',
      (⟨1, 3, [0, 0, 1], l2DistanceSimd⟩ : VectorBatchInserter).search Stl.reversing [0] 1 =
        .ok res ∧
      (⟨1, 3, [0, 0, 1], l2DistanceSimd⟩ : VectorBatchInserter).search Stl.sorting [0] 3 =
        .ok res' ∧
      res.map (·.2) = (res'.map (·.2)).take 1 :=
  have hr : Reachable ⟨1, 3, [0, 0, 1], l2DistanceSimd⟩ [[0], [0], [1]] :=
    .add (v := [1]) (.add (v := [0]) (.add (v := [0]) (.new 1 l2DistanceSimd) rfl) rfl) rfl
  ⟨hr, search_distances_agree Stl.reversing Stl.sorting hr (by decide) (q := [0]) rfl
    (by decide : 1 ≤ 3)⟩

end NexaDb.Native.VectorBatchInserter
