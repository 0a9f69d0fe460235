import NexaDb.Hnsw.SearchLaws
import NexaDb.BatchInserterLaws

/-! `HNSWIndex::search` against `VectorBatchInserter::search` over the same vectors: the graph
search is never better, rank by rank, than the brute-force one, and is exactly as good once
`ef_search ≥ n` and every stored node reaches every other along layer-0 edges, or, whatever
`ef_search`, once layer 0 links every stored node with every other. The brute-force answer itself
only improves, rank by rank, as vectors are added. -/

namespace NexaDb.Native

variable {S : Stl} {s : HNSWIndex} {log : List (List ℚ × Nat)} {q : List ℚ}
  {curr : Nat} {V : List Nat} {W : List SearchCandidate} {ef : Nat}

def SearchCandidate.pair (c : SearchCandidate) : Nat × ℚ := (c.id, c.distance)

/-- Every stored ID with its distance to the query, in ID order: what the brute-force search
sorts over the same arena. -/
def HNSWIndex.allDistances (s : HNSWIndex) (q : List ℚ) : List (Nat × ℚ) :=
  (List.range s.numVectors).map fun i => (i, s.queryDist q i)

@[simp] theorem HNSWIndex.length_allDistances (s : HNSWIndex) (q : List ℚ) :
    (s.allDistances q).length = s.numVectors := by
  simp [HNSWIndex.allDistances]

def CompleteLayer0 (s : HNSWIndex) : Prop :=
  ∀ u < s.numVectors, ∀ w < s.numVectors, u ≠ w → w ∈ nbrs s.nodes u 0

theorem Beam.visits_all {nodes : List HNSWNode} {L : Nat} {dist : Nat → Except Error ℚ}
    {P : Nat → Prop} {δ₀ : ℚ} (hb : Beam (getNeighbors nodes · L) dist ef P δ₀ V W)
    (hc : ∀ u w, P u → P w → u ≠ w → w ∈ nbrs nodes u L) : ∀ w, P w → w ∈ V := by
  obtain ⟨c₀, hc₀⟩ := List.exists_mem_of_ne_nil _ hb.ne_nil
  have hc₀V := (hb.mem c₀ hc₀).1
  obtain ⟨l, hl, hlV⟩ := hb.expanded c₀ hc₀
  obtain ⟨-, rfl⟩ := getNeighbors_eq_ok.mp hl
  intro w hw
  by_cases h : c₀.id = w
  · exact h ▸ hc₀V
  · exact hlV w (hc _ w (hb.visited _ hc₀V).1 hw h)

theorem length_le_of_subset_range {l : List Nat} {n : Nat} (hl : l.Nodup) (h : ∀ x ∈ l, x < n) :
    l.length ≤ n := by
  simpa using (List.subperm_of_subset hl fun x hx => List.mem_range.mpr (h x hx)).length_le

section Beam

variable (hb : Beam (getNeighbors s.nodes · 0) (s.distanceToQuery q) ef
  (Upper (levelOf log) s.numVectors 0) (s.queryDist q curr) V W)
include hb

theorem Beam.pair_mem_allDistances : ∀ c ∈ W, c.pair ∈ s.allDistances q := fun c hc =>
  List.mem_map.mpr ⟨c.id, List.mem_range.mpr (hb.visited _ (hb.mem c hc).1).1.1,
    by rw [SearchCandidate.pair, HNSWIndex.eq_queryDist_of_distanceToQuery (hb.mem c hc).2]⟩

theorem Beam.nodup_pairs : (W.map SearchCandidate.pair).Nodup :=
  List.Nodup.of_map Prod.fst (by simpa [List.map_map, Function.comp_def, SearchCandidate.pair]
    using hb.nodup)

theorem Beam.perm_allDistances (hef : s.numVectors ≤ ef)
    (hconn : ∀ u v, u < s.numVectors → v < s.numVectors →
      Relation.ReflTransGen (LayerEdge s.nodes 0) u v) :
    (W.map SearchCandidate.pair).Perm (s.allDistances q) := by
  have hV : V.length ≤ ef := by
    have := (List.subperm_of_subset hb.nodupV fun v hv =>
      List.mem_range.mpr (hb.visited v hv).1.1).length_le
    simp only [List.length_range] at this
    omega
  have hall := hb.mem_of_length_le hV
  obtain ⟨c₀, hc₀⟩ := List.exists_mem_of_ne_nil _ hb.ne_nil
  have hc₀V := (hb.mem c₀ hc₀).1
  have hnd : (s.allDistances q).Nodup :=
    (List.nodup_range _).map fun _ _ h => (Prod.mk.inj h).1
  refine (List.perm_ext_iff_of_nodup hb.nodup_pairs hnd).mpr fun x => ⟨fun hx => ?_, fun hx => ?_⟩
  · obtain ⟨c, hc, rfl⟩ := List.mem_map.mp hx
    exact hb.pair_mem_allDistances c hc
  · obtain ⟨i, hi, rfl⟩ := List.mem_map.mp hx
    have hiV := hb.mem_of_reach hall hc₀V
      (hconn _ _ (hb.visited _ hc₀V).1.1 (List.mem_range.mp hi))
    obtain ⟨c, hc, rfl⟩ := List.mem_map.mp (hall _ hiV)
    exact List.mem_map.mpr ⟨c, hc, by
      rw [SearchCandidate.pair, HNSWIndex.eq_queryDist_of_distanceToQuery (hb.mem c hc).2]⟩

theorem Beam.completion (hall : ∀ u < s.numVectors, u ∈ V) : ∃ R : List (Nat × ℚ),
    (W.map SearchCandidate.pair ++ R).Perm (s.allDistances q) ∧
      (W.map SearchCandidate.pair ++ R).Sorted (fun x y => x.2 ≤ y.2) := by
  have hnd : (s.allDistances q).Nodup :=
    (List.nodup_range _).map fun _ _ h => (Prod.mk.inj h).1
  obtain ⟨l, hl, hsub⟩ := List.subperm_of_subset hb.nodup_pairs fun x hx => by
    obtain ⟨c, hc, rfl⟩ := List.mem_map.mp hx
    exact hb.pair_mem_allDistances c hc
  obtain ⟨R, hR⟩ := hsub.exists_perm_append
  replace hR := hR.trans (hl.append_right R)
  have hdisj := List.disjoint_of_nodup_append (hR.nodup_iff.mp hnd)
  have hsort := List.perm_insertionSort (fun x y : Nat × ℚ => x.2 ≤ y.2) R
  refine ⟨R.insertionSort _, ((hsort.append_left _).trans hR.symm), List.pairwise_append.mpr
    ⟨List.pairwise_map.mpr hb.sorted, Stl.sorted_insertionSort_le (fun x : Nat × ℚ => x.2) R,
      fun x hx y hy => ?_⟩⟩
  -- what the beam left out is the pair of a visited node it did not keep
  have hyR := hsort.subset hy
  obtain ⟨u, hu, rfl⟩ := List.mem_map.mp (hR.symm.subset (List.mem_append_right _ hyR))
  obtain ⟨c, hc, rfl⟩ := List.mem_map.mp hx
  have huW : u ∉ W.map (·.id) := fun hmem => by
    obtain ⟨c', hc', rfl⟩ := List.mem_map.mp hmem
    refine hdisj (List.mem_map_of_mem SearchCandidate.pair hc') ?_
    rwa [SearchCandidate.pair, HNSWIndex.eq_queryDist_of_distanceToQuery (hb.mem c' hc').2]
  obtain ⟨-, δ, hδ, hfar⟩ := hb.visited u (hall u (List.mem_range.mp hu))
  have := hfar huW c hc
  rwa [HNSWIndex.eq_queryDist_of_distanceToQuery hδ] at this

end Beam

theorem getElem?_of_getElem?_take {α : Type} {l : List α} {n i : Nat} {x : α}
    (h : (l.take n)[i]? = some x) : l[i]? = some x := by
  rw [List.getElem?_take] at h
  split at h
  · exact h
  · cases h

theorem brute_search_eq (S' : Stl) {b : VectorBatchInserter} (hw : Wf s log)
    (hb : VectorBatchInserter.Reachable b (log.map (·.1))) (hdim : b.dimensions = s.dimensions)
    (hkernel : b.kernel = s.kernel) (hD : 0 < s.dimensions) (hq : q.length = s.dimensions)
    (k : Nat) :
    b.search S' q k = .ok ((S'.partialSort (·.2) (min k s.numVectors) (s.allDistances q)).take
      (min k s.numVectors)) := by
  have A := hb.arena
  have hn : s.numVectors = log.length := hw.numVectors_eq
  have hall : b.allDistances q = s.allDistances q := by
    simp only [VectorBatchInserter.allDistances, HNSWIndex.allDistances, HNSWIndex.queryDist,
      A.numVectors_eq, A.data_eq, ← hw.data_eq, hdim, hkernel, List.length_map, hn]
  rw [A.search_eq S' (hdim ▸ hD) (hdim ▸ hq) k, hall, List.length_map, ← hn]

theorem searches_of_empty (S' : Stl) {b : VectorBatchInserter} (hw : Wf s log)
    (hb : VectorBatchInserter.Reachable b (log.map (·.1))) (hdim : b.dimensions = s.dimensions)
    (hq : q.length = s.dimensions) (h0 : s.numVectors = 0) (k : Nat) :
    s.search S q k = .ok [] ∧ b.search S' q k = .ok [] := by
  obtain rfl : log = [] := List.eq_nil_of_length_eq_zero (hw.numVectors_eq ▸ h0)
  exact ⟨by simp [HNSWIndex.search, hq, h0],
    by simp [VectorBatchInserter.search, hdim, hq, hb.arena.numVectors_eq]⟩

/-- On the same vectors, from every reachable state of both stores and for every query and `k`,
under any two conforming libraries: both searches return, the graph search no more pairs than the
brute-force one and at every rank a pair no nearer; with `ef_search ≥ n` and a layer-0 graph in
which every stored node reaches every other, both return the same distances. -/
theorem search_vs_brute_force (S' : Stl) {b : VectorBatchInserter}
    (h : HNSWIndex.Reachable S s log) (hb : VectorBatchInserter.Reachable b (log.map (·.1)))
    (hdim : b.dimensions = s.dimensions) (hkernel : b.kernel = s.kernel) (hD : 0 < s.dimensions)
    (hq : q.length = s.dimensions) (k : Nat) :
    ∃ res res', s.search S q k = .ok res ∧ b.search S' q k = .ok res' ∧
      res.length ≤ res'.length ∧
      (∀ (i : Nat) (x y : Nat × ℚ), res[i]? = some x → res'[i]? = some y → y.2 ≤ x.2) ∧
      (s.numVectors ≤ s.efSearch →
        (∀ u v, u < s.numVectors → v < s.numVectors →
          Relation.ReflTransGen (LayerEdge s.nodes 0) u v) →
        res.map (·.2) = res'.map (·.2)) := by
  have hw := h.wf
  rcases Nat.eq_zero_or_pos s.numVectors with h0 | hpos
  · obtain ⟨h₁, h₂⟩ := searches_of_empty S' hw hb hdim hq h0 k
    exact ⟨[], [], h₁, h₂, le_rfl, by simp, fun _ _ => rfl⟩
  obtain ⟨curr, W, V, -, hbeam, hsearch⟩ := search_eq_beam (S := S) hw hD hq hpos k
  have hsearch' := brute_search_eq S' hw hb hdim hkernel hD hq k
  have hlen := s.length_allDistances q
  obtain ⟨B, hB, sB, hBk⟩ := Stl.partialSort_completion S' (·.2) (k := min k s.numVectors)
    (c := s.allDistances q) (by omega)
  have hres : (W.take (min k s.numVectors)).map (fun c => (c.id, c.distance)) =
      (W.map SearchCandidate.pair).take (min k s.numVectors) := List.map_take _ _ _
  have sW : (W.map SearchCandidate.pair).Sorted (fun x y => x.2 ≤ y.2) :=
    List.pairwise_map.mpr hbeam.sorted
  refine ⟨_, _, hsearch, hsearch', ?_, fun i x y hx hy => ?_, fun hef hconn => ?_⟩
  · have hP := (S'.partialSort_perm (·.2) (min k s.numVectors) (s.allDistances q)
      (by omega)).length_eq
    simp only [List.length_map, List.length_take, hP, hlen]
    omega
  · rw [hres] at hx
    rw [← hBk] at hy
    exact sorted_rank_le (fun p : Nat × ℚ => p.2) (hbeam.nodup_pairs.sublist (List.take_sublist _ _))
      (fun z hz => by
        obtain ⟨c, hc, rfl⟩ := List.mem_map.mp ((List.take_sublist _ _).subset hz)
        exact hB.symm.subset (hbeam.pair_mem_allDistances c hc))
      (sW.sublist (List.take_sublist _ _)) sB i x y hx (getElem?_of_getElem?_take hy)
  · have hperm := hbeam.perm_allDistances (Nat.le_trans hef (le_max_left _ _)) hconn
    rw [hres, ← hBk, List.map_take, List.map_take,
      map_eq_of_perm_of_sorted (hperm.trans hB.symm) sW sB]

/-- On a complete layer 0 the graph search is exact: over the same vectors it returns the
distances the brute-force search returns, whatever `ef_search`. -/
theorem search_exact_of_complete (S' : Stl) {b : VectorBatchInserter}
    (h : HNSWIndex.Reachable S s log) (hb : VectorBatchInserter.Reachable b (log.map (·.1)))
    (hdim : b.dimensions = s.dimensions) (hkernel : b.kernel = s.kernel) (hD : 0 < s.dimensions)
    (hq : q.length = s.dimensions) (hc : CompleteLayer0 s) (k : Nat) :
    ∃ res res', s.search S q k = .ok res ∧ b.search S' q k = .ok res' ∧
      res.map (·.2) = res'.map (·.2) := by
  have hw := h.wf
  rcases Nat.eq_zero_or_pos s.numVectors with h0 | hpos
  · obtain ⟨h₁, h₂⟩ := searches_of_empty S' hw hb hdim hq h0 k
    exact ⟨[], [], h₁, h₂, rfl⟩
  obtain ⟨curr, W, V, -, hbeam, hsearch⟩ := search_eq_beam (S := S) hw hD hq hpos k
  have hall := hbeam.visits_all fun u w hu hw' => hc u hu.1 w hw'.1
  obtain ⟨R, hperm, hsorted⟩ := hbeam.completion fun u hu => hall u ⟨hu, Nat.zero_le _⟩
  obtain ⟨B, hB, sB, hBk⟩ := Stl.partialSort_completion S' (·.2) (k := min k s.numVectors)
    (c := s.allDistances q) (by simp)
  -- the beam holds at least the `min k n` pairs asked for
  have hm : min k s.numVectors ≤ W.length := by
    by_cases hlt : W.length < max s.efSearch (min k s.numVectors)
    · have hsub : ∀ u < s.numVectors, u ∈ W.map (·.id) := fun u hu =>
        hbeam.small hlt u (hall u ⟨hu, Nat.zero_le _⟩)
      have := (List.subperm_of_subset (List.nodup_range s.numVectors) fun u hu =>
        hsub u (List.mem_range.mp hu)).length_le
      simp only [List.length_range, List.length_map] at this
      omega
    · omega
  refine ⟨_, _, hsearch, brute_search_eq S' hw hb hdim hkernel hD hq k, ?_⟩
  simp only [← hBk, List.map_take, List.map_map]
  rw [← map_eq_of_perm_of_sorted (hperm.trans hB.symm) hsorted sB, List.map_append,
    List.take_append_of_le_length (by simpa using hm), List.map_map]
  rfl

section Growth

variable {b b' : VectorBatchInserter} {vs ws : List (List ℚ)}

theorem VectorBatchInserter.Arena.allDistances_subset (A : VectorBatchInserter.Arena b vs)
    (A' : VectorBatchInserter.Arena b' (vs ++ ws)) (hdim : b'.dimensions = b.dimensions)
    (hkernel : b'.kernel = b.kernel) : ∀ p ∈ b.allDistances q, p ∈ b'.allDistances q := by
  intro p hp
  obtain ⟨hi, he⟩ := A.mem_allDistances.mp hp
  exact A'.mem_allDistances.mpr ⟨by simp; omega, by
    rw [he, hdim, hkernel, List.getElem_append_left hi]⟩

/-- Storing more vectors never makes the brute-force answer worse: of two reachable inserters of
one dimension `D ≥ 1` and one kernel, the second holding the vectors of the first and then more,
for every query and `k`, the second returns at least as many pairs and, at every rank, a distance
no larger, under any two conforming libraries. -/
theorem search_improves_with_more (S S' : Stl) (hb : VectorBatchInserter.Reachable b vs)
    (hb' : VectorBatchInserter.Reachable b' (vs ++ ws)) (hdim : b'.dimensions = b.dimensions)
    (hkernel : b'.kernel = b.kernel) (hD : 0 < b.dimensions) (hq : q.length = b.dimensions)
    (k : Nat) :
    ∃ res res', b.search S q k = .ok res ∧ b'.search S' q k = .ok res' ∧
      res.length ≤ res'.length ∧
      ∀ (i : Nat) (x y : Nat × ℚ), res[i]? = some x → res'[i]? = some y → y.2 ≤ x.2 := by
  have A := hb.arena
  have A' := hb'.arena
  obtain ⟨B, hB, sB, hsearch⟩ := A.search_sorted S hD hq k
  obtain ⟨B', hB', sB', hsearch'⟩ := A'.search_sorted S' (hdim ▸ hD) (hdim ▸ hq) k
  have hlen : B.length = vs.length := by simp [hB.length_eq, A.numVectors_eq]
  have hlen' : B'.length = (vs ++ ws).length := by simp [hB'.length_eq, A'.numVectors_eq]
  refine ⟨_, _, hsearch, hsearch', ?_, fun i x y hx hy => ?_⟩
  · simp only [List.length_take, hlen, hlen', List.length_append]
    omega
  · exact sorted_rank_le (fun p : Nat × ℚ => p.2)
      ((hB.nodup_iff.mpr (VectorBatchInserter.nodup_allDistances q)).sublist (List.take_sublist _ _))
      (fun z hz => hB'.symm.subset (A.allDistances_subset A' hdim hkernel z
        (hB.subset ((List.take_sublist _ _).subset hz))))
      (sB.sublist (List.take_sublist _ _)) sB' i x y hx (getElem?_of_getElem?_take hy)

end Growth

section Runs

attribute [local semireducible] Rat.add Rat.sub Rat.mul

set_option maxRecDepth 100000 in
theorem search_vs_brute_force_pair :
    ∃ s log, HNSWIndex.Reachable Stl.sorting s log ∧
      VectorBatchInserter.Reachable ⟨1, 2, [0, 1], l2DistanceSimd⟩ (log.map (·.1)) ∧
      (⟨1, 2, [0, 1], l2DistanceSimd⟩ : VectorBatchInserter).dimensions = s.dimensions ∧
      (⟨1, 2, [0, 1], l2DistanceSimd⟩ : VectorBatchInserter).kernel = s.kernel ∧ 0 < s.dimensions ∧
      ([0] : List ℚ).length = s.dimensions ∧ s.numVectors ≤ s.efSearch ∧
      (∀ u v, u < s.numVectors → v < s.numVectors →
        Relation.ReflTransGen (LayerEdge s.nodes 0) u v) ∧
      ∃ res res', s.search Stl.sorting [0] 2 = .ok res ∧
        (⟨1, 2, [0, 1], l2DistanceSimd⟩ : VectorBatchInserter).search Stl.reversing [0] 2 = .ok res' ∧
        res.length ≤ res'.length ∧
        (∀ (i : Nat) (x y : Nat × ℚ), res[i]? = some x → res'[i]? = some y → y.2 ≤ x.2) ∧
        res.map (·.2) = res'.map (·.2) := by
  obtain ⟨s, log, hr, hk, hD, hq, hn, hef, hlog, h01, h10⟩ : ∃ s log,
      HNSWIndex.Reachable Stl.sorting s log ∧ l2DistanceSimd = s.kernel ∧ 0 < s.dimensions ∧
      ([0] : List ℚ).length = s.dimensions ∧ s.numVectors = 2 ∧ s.numVectors ≤ s.efSearch ∧
      log.map (·.1) = [[0], [1]] ∧ 1 ∈ nbrs s.nodes 0 0 ∧ 0 ∈ nbrs s.nodes 1 0 :=
    ⟨_, _, .add (v := [1]) (.add (v := [0]) (.new 1 1000000 16 200 l2DistanceSimd) rfl) rfl, rfl,
      by decide, by decide, by decide, by decide, rfl, by decide, by decide⟩
  have hb : VectorBatchInserter.Reachable ⟨1, 2, [0, 1], l2DistanceSimd⟩ (log.map (·.1)) :=
    hlog ▸ .add (v := [1]) (.add (v := [0]) (.new 1 l2DistanceSimd) rfl) rfl
  have hconn : ∀ u v, u < s.numVectors → v < s.numVectors →
      Relation.ReflTransGen (LayerEdge s.nodes 0) u v := by
    intro u v hu hv
    rw [hn] at hu hv
    match u, v, hu, hv with
    | 0, 0, _, _ => exact .refl
    | 0, 1, _, _ => exact .single h01
    | 1, 0, _, _ => exact .single h10
    | 1, 1, _, _ => exact .refl
  obtain ⟨res, res', h₁, h₂, hl, hrank, hexact⟩ :=
    search_vs_brute_force Stl.reversing hr hb hq hk hD hq 2
  exact ⟨s, log, hr, hb, hq, hk, hD, hq, hef, hconn, res, res', h₁, h₂, hl, hrank, hexact hef hconn⟩

theorem search_improves_with_more_pair :
    VectorBatchInserter.Reachable ⟨1, 1, [3], l2DistanceSimd⟩ [[3]] ∧
      VectorBatchInserter.Reachable ⟨1, 2, [3, 0], l2DistanceSimd⟩ ([[3]] ++ [[0]]) ∧
      (⟨1, 2, [3, 0], l2DistanceSimd⟩ : VectorBatchInserter).dimensions =
        (⟨1, 1, [3], l2DistanceSimd⟩ : VectorBatchInserter).dimensions ∧
      (⟨1, 2, [3, 0], l2DistanceSimd⟩ : VectorBatchInserter).kernel =
        (⟨1, 1, [3], l2DistanceSimd⟩ : VectorBatchInserter).kernel ∧
      0 < (⟨1, 1, [3], l2DistanceSimd⟩ : VectorBatchInserter).dimensions ∧
      ([0] : List ℚ).length = (⟨1, 1, [3], l2DistanceSimd⟩ : VectorBatchInserter).dimensions ∧
      ∃ res res', (⟨1, 1, [3], l2DistanceSimd⟩ : VectorBatchInserter).search Stl.sorting [0] 1 = .ok res ∧
        (⟨1, 2, [3, 0], l2DistanceSimd⟩ : VectorBatchInserter).search Stl.reversing [0] 1 = .ok res' ∧
        res.length ≤ res'.length ∧
        ∀ (i : Nat) (x y : Nat × ℚ), res[i]? = some x → res'[i]? = some y → y.2 ≤ x.2 :=
  have hb : VectorBatchInserter.Reachable ⟨1, 1, [3], l2DistanceSimd⟩ [[3]] :=
    .add (v := [3]) (.new 1 l2DistanceSimd) rfl
  have hb' : VectorBatchInserter.Reachable ⟨1, 2, [3, 0], l2DistanceSimd⟩ ([[3]] ++ [[0]]) :=
    .add (v := [0]) hb rfl
  ⟨hb, hb', rfl, rfl, by decide, rfl,
    search_improves_with_more (q := [0]) Stl.sorting Stl.reversing hb hb' rfl rfl (by decide) rfl 1⟩

end Runs

end NexaDb.Native
