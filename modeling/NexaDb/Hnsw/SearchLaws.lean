import NexaDb.Hnsw.Invariants
import NexaDb.Hnsw.SearchLayerSpec

/-! `search`: the greedy descent, then one beam search on layer 0 cut to `k`. From any reachable
state it returns, and what it returns is a sorted local optimum of the layer-0 graph; it finds
`min k n` vectors when that graph is connected, and need not otherwise. Last, the shape of every
reachable index, from which no `add` or `search` reads out of range once `dimensions ≥ 1`. -/

namespace NexaDb.Native

open SearchCandidate (far near)

variable {S : Stl} {s : HNSWIndex} {log : List (List ℚ × Nat)} {q : List ℚ}

theorem search_descends (hw : Wf s log) (hD : 0 < s.dimensions) (hq : q.length = s.dimensions)
    (hn : 0 < s.numVectors) :
    ∃ curr, curr < s.numVectors ∧ s.queryDist q curr ≤ s.queryDist q s.entryPoint ∧
      ∀ ef k W, s.searchLayer S q curr (max ef (min k s.numVectors)) 0 = .ok W →
        (s.setEf ef).search S q k =
          .ok ((W.take (min k s.numVectors)).map fun c => (c.id, c.distance)) := by
  have hl := hw.layered
  obtain ⟨hep, hepl⟩ := hl.entry hn
  obtain ⟨curr, hdesc, hcurr, hdist, -⟩ := descend_spec (S := S) (t := s) (q := q) hD
    hl.length_data le_rfl (layersAbove s.maxLayer 0) s.entryPoint (pairwise_layersAbove _ _)
    (fun lc _ => hl.layerOk lc) hep (fun lc hlc => (mem_layersAbove.mp hlc).2.trans hepl)
  refine ⟨curr, hcurr, hdist, fun ef k W hW => ?_⟩
  -- `search` reads `ef_search` only to size the beam: the descent and the layer search are the same
  have hdesc' : HNSWIndex.descend S { s with efSearch := ef } q s.entryPoint
      (layersAbove s.maxLayer 0) = .ok curr := hdesc
  have hW' : HNSWIndex.searchLayer S { s with efSearch := ef } q curr
      (max ef (min k s.numVectors)) 0 = .ok W := hW
  simp [HNSWIndex.search, HNSWIndex.setEf, hq, Nat.ne_of_gt hn, hdesc', hW']

/-- `search` is the first `min k n` entries of a layer-0 beam started where the descent lands,
no farther from the query than the entry point. -/
theorem search_eq_beam (hw : Wf s log) (hD : 0 < s.dimensions) (hq : q.length = s.dimensions)
    (hn : 0 < s.numVectors) (k : Nat) :
    ∃ curr W V, s.queryDist q curr ≤ s.queryDist q s.entryPoint ∧
      Beam (getNeighbors s.nodes · 0) (s.distanceToQuery q) (max s.efSearch (min k s.numVectors))
        (Upper (levelOf log) s.numVectors 0) (s.queryDist q curr) V W ∧
      s.search S q k = .ok ((W.take (min k s.numVectors)).map fun c => (c.id, c.distance)) := by
  have hl := hw.layered
  obtain ⟨curr, hcurr, hdist, hsearch⟩ := search_descends (S := S) hw hD hq hn
  obtain ⟨d, W, V, hd, hW, -, hb⟩ := searchLayer_spec (S := S)
    (max s.efSearch (min k s.numVectors)) ((hl.layerOk 0).closed hD hl.length_data le_rfl q)
    (⟨hcurr, Nat.zero_le _⟩ : Upper (levelOf log) s.numVectors 0 curr)
  rw [HNSWIndex.eq_queryDist_of_distanceToQuery hd] at hb
  exact ⟨curr, W, V, hdist, hb, hsearch _ k W hW⟩

section Beam

variable {nbrsOf : Nat → Except Error (List Nat)} {dist : Nat → Except Error ℚ} {ef : Nat}
  {P : Nat → Prop} {δ₀ : ℚ} {V : List Nat} {W : List SearchCandidate}

theorem Beam.le_of_not_mem_take (hb : Beam nbrsOf dist ef P δ₀ V W) {k x : Nat} {δ : ℚ}
    (hx : x ∈ V) (hδ : dist x = .ok δ) (hxk : x ∉ (W.take k).map (·.id)) :
    ∀ c ∈ W.take k, c.distance ≤ δ := by
  intro c hc
  by_cases hxW : x ∈ W.map (·.id)
  · obtain ⟨cx, hcx, rfl⟩ := List.mem_map.mp hxW
    have hcx' : cx ∈ W.drop k := by
      rw [← List.take_append_drop k W] at hcx
      exact (List.mem_append.mp hcx).resolve_left fun h => hxk (List.mem_map_of_mem _ h)
    have hsorted := hb.sorted
    rw [← List.take_append_drop k W] at hsorted
    have hle := (List.pairwise_append.mp hsorted).2.2 c hc cx hcx'
    obtain ⟨-, hd⟩ := hb.mem cx (List.mem_of_mem_drop hcx')
    rw [hδ, Except.ok.injEq] at hd
    exact hd ▸ hle
  · obtain ⟨-, δ', hδ', hfar⟩ := hb.visited x hx
    rw [hδ, Except.ok.injEq] at hδ'
    exact hδ' ▸ hfar hxW c (List.mem_of_mem_take hc)

end Beam

/-- What `search` guarantees of its answer `res` to `query` with `k`: at most `min k n` pairs of
distinct stored IDs with their distances to the query, nearest first, the first no farther than
the entry point; a layer-0 neighbour of a returned node that is not returned is no nearer than
the last returned; and a short answer is closed under layer-0 neighbours. -/
structure LocalOptimum (s : HNSWIndex) (query : List ℚ) (k : Nat) (res : List (Nat × ℚ)) :
    Prop where
  length_le : res.length ≤ min k s.numVectors
  nodup : (res.map (·.1)).Nodup
  mem : ∀ p ∈ res, p.1 < s.numVectors ∧ p.2 = s.queryDist query p.1
  sorted : res.Sorted (fun a b => a.2 ≤ b.2)
  head_le : ∀ p ∈ res.head?, p.2 ≤ s.queryDist query s.entryPoint
  neighbor_le : ∀ p ∈ res, ∀ x ∈ nbrs s.nodes p.1 0, x ∉ res.map (·.1) →
    ∀ r ∈ res.getLast?, r.2 ≤ s.queryDist query x
  closed_of_short : res.length < min k s.numVectors →
    ∀ p ∈ res, ∀ x ∈ nbrs s.nodes p.1 0, x ∈ res.map (·.1)

/-- From every reachable state with `dimensions ≥ 1` and a stored vector, `search` returns, and
its answer is a `LocalOptimum`. -/
theorem search_local_optimum (h : HNSWIndex.Reachable S s log) (hD : 0 < s.dimensions)
    (hq : q.length = s.dimensions) (hn : 0 < s.numVectors) (k : Nat) :
    ∃ res, s.search S q k = .ok res ∧ LocalOptimum s q k res := by
  obtain ⟨curr, W, V, hdist, hb, hsearch⟩ := search_eq_beam (S := S) h.wf hD hq hn k
  have hids : ((W.take (min k s.numVectors)).map fun c => (c.id, c.distance)).map (·.1) =
      (W.take (min k s.numVectors)).map (·.id) := by
    simp [Function.comp_def]
  have hexp : ∀ c ∈ W, ∀ x ∈ nbrs s.nodes c.id 0, x ∈ V := fun c hc x hx => by
    obtain ⟨l, hl, hlV⟩ := hb.expanded c hc
    obtain ⟨-, rfl⟩ := getNeighbors_eq_ok.mp hl
    exact hlV x hx
  have hqd : ∀ c ∈ W, c.distance = s.queryDist q c.id := fun c hc =>
    HNSWIndex.eq_queryDist_of_distanceToQuery (hb.mem c hc).2
  have hdq : ∀ x ∈ V, s.distanceToQuery q x = .ok (s.queryDist q x) := fun x hx =>
    s.distanceToQuery_eq h.wf.layered.length_data hD q (hb.visited x hx).1.1
  refine ⟨_, hsearch, ⟨by simp, ?_, ?_, ?_, ?_, ?_, ?_⟩⟩
  · rw [hids]
    exact ((List.take_sublist _ _).map _).nodup hb.nodup
  · intro p hp
    obtain ⟨c, hc, rfl⟩ := List.mem_map.mp hp
    have hcW := List.mem_of_mem_take hc
    exact ⟨(hb.visited _ (hb.mem c hcW).1).1.1, hqd c hcW⟩
  · exact List.pairwise_map.mpr (hb.sorted.sublist (List.take_sublist _ _))
  · obtain ⟨c, rest, rfl, -, -, hc⟩ := hb.head
    rcases min k s.numVectors with _ | k'
    · simp
    · simp only [List.take_succ_cons, List.map_cons, List.head?_cons, Option.mem_def,
        Option.some.injEq, forall_eq']
      exact hc.trans hdist
  · intro p hp x hx hxres r hr
    obtain ⟨c, hc, rfl⟩ := List.mem_map.mp hp
    obtain ⟨cr, hcr, rfl⟩ := List.mem_map.mp (List.mem_of_mem_getLast? hr)
    rw [hids] at hxres
    have hxV := hexp c (List.mem_of_mem_take hc) x hx
    exact hb.le_of_not_mem_take hxV (hdq x hxV) hxres cr hcr
  · intro hshort p hp x hx
    obtain ⟨c, hc, rfl⟩ := List.mem_map.mp hp
    have hlen : W.length < min k s.numVectors := by
      rw [List.length_map, List.length_take] at hshort
      omega
    rw [hids, List.take_of_length_le hlen.le]
    exact hb.small (Nat.lt_of_lt_of_le hlen (le_max_right _ _)) x
      (hexp c (List.mem_of_mem_take hc) x hx)

section Runs

attribute [local semireducible] Rat.add Rat.sub Rat.mul

set_option maxRecDepth 100000 in
theorem search_local_optimum_outlier :
    ∃ s log, HNSWIndex.Reachable Stl.sorting s log ∧ 0 < s.dimensions ∧
      ([7] : List ℚ).length = s.dimensions ∧ 0 < s.numVectors ∧
      ∃ res, s.search Stl.sorting [7] 4 = .ok res ∧ LocalOptimum s [7] 4 res := by
  obtain ⟨s, log, hr, hD, hq, hn⟩ : ∃ s log, HNSWIndex.Reachable Stl.sorting s log ∧
      0 < s.dimensions ∧ ([7] : List ℚ).length = s.dimensions ∧ 0 < s.numVectors :=
    ⟨_, _, .add (v := [7]) (.add (v := [3]) (.add (v := [1]) (.add (v := [0])
      (.new 1 1000000 1 200 l2DistanceSimd) rfl) rfl) rfl) rfl, by decide, by decide, by decide⟩
  exact ⟨s, log, hr, hD, hq, hn, search_local_optimum hr hD hq hn 4⟩

set_option maxRecDepth 100000 in
theorem search_reads_empty_arena :
    ∃ s log, HNSWIndex.Reachable Stl.sorting s log ∧ s.dimensions = 0 ∧ s.numVectors = 1 ∧
      s.search Stl.sorting [] 1 = .error .outOfRange :=
  ⟨_, _, .add (v := []) (.new 0 1000000 16 200 l2DistanceSimd) rfl, rfl, rfl, rfl⟩

end Runs

/-- From every reachable state with `dimensions ≥ 1` and a stored vector, `search` returns at most
`min k n` pairs, and exactly `min k n` when along layer-0 edges every stored node reaches every
other. -/
theorem search_length_of_connected (h : HNSWIndex.Reachable S s log) (hD : 0 < s.dimensions)
    (hq : q.length = s.dimensions) (hn : 0 < s.numVectors) (k : Nat) :
    ∃ res, s.search S q k = .ok res ∧ res.length ≤ min k s.numVectors ∧
      ((∀ u v, u < s.numVectors → v < s.numVectors →
        Relation.ReflTransGen (fun a b => b ∈ nbrs s.nodes a 0) u v) →
        res.length = min k s.numVectors) := by
  obtain ⟨curr, W, V, -, hb, hsearch⟩ := search_eq_beam (S := S) h.wf hD hq hn k
  refine ⟨_, hsearch, by simp, fun hconn => ?_⟩
  rw [List.length_map, List.length_take]
  by_contra hne
  have hlen : W.length < min k s.numVectors := by omega
  have hsmall := hb.small (Nat.lt_of_lt_of_le hlen (le_max_right _ _))
  have hclosed : ∀ a b, Relation.ReflTransGen (fun a b => b ∈ nbrs s.nodes a 0) a b →
      a ∈ W.map (·.id) → b ∈ W.map (·.id) := by
    intro a b hab ha
    induction hab with
    | refl => exact ha
    | tail _ hbc ih =>
      obtain ⟨c, hc, hcid⟩ := List.mem_map.mp ih
      obtain ⟨l, hl, hlV⟩ := hb.expanded c hc
      obtain ⟨-, rfl⟩ := getNeighbors_eq_ok.mp hl
      exact hsmall _ (hlV _ (hcid ▸ hbc))
  obtain ⟨c₀, hc₀⟩ := List.exists_mem_of_ne_nil _ hb.ne_nil
  have hc₀n : c₀.id < s.numVectors := (hb.visited _ (hb.mem c₀ hc₀).1).1.1
  have hall : List.range s.numVectors ⊆ W.map (·.id) := fun v hv =>
    hclosed _ _ (hconn _ _ hc₀n (List.mem_range.mp hv)) (List.mem_map_of_mem _ hc₀)
  have hcount := (List.subperm_of_subset (List.nodup_range _) hall).length_le
  simp only [List.length_range, List.length_map] at hcount
  omega

section Runs

attribute [local semireducible] Rat.add Rat.sub Rat.mul

set_option maxRecDepth 100000 in
theorem search_length_of_connected_pair :
    ∃ s log, HNSWIndex.Reachable Stl.sorting s log ∧ 0 < s.dimensions ∧
      ([0] : List ℚ).length = s.dimensions ∧ 0 < s.numVectors ∧
      (∀ u v, u < s.numVectors → v < s.numVectors →
        Relation.ReflTransGen (fun a b => b ∈ nbrs s.nodes a 0) u v) ∧
      ∃ res, s.search Stl.sorting [0] 2 = .ok res ∧ res.length ≤ min 2 s.numVectors ∧
        res.length = min 2 s.numVectors := by
  obtain ⟨s, log, hr, hD, hq, hn, h01, h10⟩ : ∃ s log, HNSWIndex.Reachable Stl.sorting s log ∧
      0 < s.dimensions ∧ ([0] : List ℚ).length = s.dimensions ∧ s.numVectors = 2 ∧
      1 ∈ nbrs s.nodes 0 0 ∧ 0 ∈ nbrs s.nodes 1 0 :=
    ⟨_, _, .add (v := [1]) (.add (v := [0]) (.new 1 1000000 16 200 l2DistanceSimd) rfl) rfl, by decide, by decide,
      by decide, by decide, by decide⟩
  have hconn : ∀ u v, u < s.numVectors → v < s.numVectors →
      Relation.ReflTransGen (fun a b => b ∈ nbrs s.nodes a 0) u v := by
    intro u v hu hv
    rw [hn] at hu hv
    match u, v, hu, hv with
    | 0, 0, _, _ => exact .refl
    | 0, 1, _, _ => exact .single h01
    | 1, 0, _, _ => exact .single h10
    | 1, 1, _, _ => exact .refl
  obtain ⟨res, hres, hle, heq⟩ := search_length_of_connected hr hD hq (by omega) 2
  exact ⟨s, log, hr, hD, hq, by omega, hconn, res, hres, hle, heq hconn⟩

set_option maxRecDepth 100000 in
theorem search_misses_outlier :
    ∃ s log, HNSWIndex.Reachable Stl.sorting s log ∧ s.numVectors = 4 ∧ s.efSearch = 100 ∧
      s.search Stl.sorting [7] 4 = .ok [(2, 16), (1, 36), (0, 49)] :=
  ⟨_, _, .add (v := [7]) (.add (v := [3]) (.add (v := [1]) (.add (v := [0])
    (.new 1 1000000 1 200 l2DistanceSimd) rfl) rfl) rfl) rfl, by decide, rfl, by rfl⟩

end Runs

/-- From every reachable state with `dimensions ≥ 1` and a stored vector, the greedy descent from
the entry point through the layers `max_layer_, …, b + 1`, as `search` runs it for `b = 0` and
`add` for `b` the new node's level, ends on a stored node none of whose layer-`(b + 1)` neighbours
is nearer to the query. -/
theorem descend_ends_local_min (h : HNSWIndex.Reachable S s log) (hD : 0 < s.dimensions)
    (hn : 0 < s.numVectors) {b : Nat} (hb : b < s.maxLayer) :
    ∃ curr, s.descend S q s.entryPoint (layersAbove s.maxLayer b) = .ok curr ∧
      curr < s.numVectors ∧
        ∀ v ∈ nbrs s.nodes curr (b + 1), s.queryDist q curr ≤ s.queryDist q v := by
  have hl := h.wf.layered
  obtain ⟨hep, hepl⟩ := hl.entry hn
  have hls := layersAbove_eq_append hb
  rw [hls]
  exact descend_local_min hD hl.length_data le_rfl _ _ _ (hls ▸ pairwise_layersAbove _ _)
    (fun l _ => hl.layerOk l) hep fun l hl' => (mem_layersAbove.mp (hls ▸ hl')).2.trans hepl

section Runs

attribute [local semireducible] Rat.add Rat.sub Rat.mul

set_option maxRecDepth 100000 in
theorem descend_ends_local_min_linked :
    ∃ s log, HNSWIndex.Reachable Stl.sorting s log ∧ 0 < s.dimensions ∧ 0 < s.numVectors ∧
      0 < s.maxLayer ∧ ∃ curr, s.descend Stl.sorting [9] s.entryPoint (layersAbove s.maxLayer 0) =
        .ok curr ∧ curr < s.numVectors ∧ nbrs s.nodes curr 1 ≠ [] ∧
          ∀ v ∈ nbrs s.nodes curr 1, s.queryDist [9] curr ≤ s.queryDist [9] v := by
  obtain ⟨s, log, hr, ⟨hD, hn, hmax, hlinked⟩, hdesc⟩ : ∃ s log,
      HNSWIndex.Reachable Stl.sorting s log ∧
      (0 < s.dimensions ∧ 0 < s.numVectors ∧ 0 < s.maxLayer ∧ nbrs s.nodes 4 1 ≠ []) ∧
      s.descend Stl.sorting [9] s.entryPoint (layersAbove s.maxLayer 0) = .ok 4 :=
    ⟨_, _, .add (v := [9]) (.add (v := [7]) (.add (v := [3]) (.add (v := [1]) (.add (v := [0])
      (.new 1 1000000 1 200 l2DistanceSimd) rfl) rfl) rfl) rfl) rfl, by decide, by rfl⟩
  obtain ⟨curr, hcurr, hlt, hmin⟩ := descend_ends_local_min (q := [9]) hr hD hn hmax
  obtain rfl : curr = 4 := by simpa [hdesc] using hcurr.symm
  exact ⟨s, log, hr, hD, hn, hmax, 4, hcurr, hlt, hlinked, hmin⟩

end Runs

section Ranks

theorem sorted_rank_le {α : Type} (key : α → ℚ) {A B : List α} (hA : A.Nodup) (hAB : A ⊆ B)
    (sA : A.Sorted (fun x y => key x ≤ key y)) (sB : B.Sorted (fun x y => key x ≤ key y)) :
    ∀ (i : Nat) a b, A[i]? = some a → B[i]? = some b → key b ≤ key a := by
  intro i a b ha hb
  obtain ⟨hi, rfl⟩ := List.getElem?_eq_some_iff.mp ha
  obtain ⟨hj, rfl⟩ := List.getElem?_eq_some_iff.mp hb
  have hA' : A = A.take i ++ A[i] :: A.drop (i + 1) := by
    rw [← List.drop_eq_getElem_cons hi, List.take_append_drop]
  have hB' : B = B.take i ++ B[i] :: B.drop (i + 1) := by
    rw [← List.drop_eq_getElem_cons hj, List.take_append_drop]
  by_contra hlt
  have hle : ∀ x ∈ A.take i ++ [A[i]], key x ≤ key A[i] := fun x hx => by
    rcases List.mem_append.mp hx with hx | hx
    · exact (List.pairwise_append.mp (hA' ▸ sA)).2.2 x hx _ (List.mem_cons_self _ _)
    · rw [List.mem_singleton.mp hx]
  have hge : ∀ y ∈ B[i] :: B.drop (i + 1), key B[i] ≤ key y := fun y hy => by
    rcases List.mem_cons.mp hy with rfl | hy
    · exact le_rfl
    · exact List.rel_of_sorted_cons (List.pairwise_append.mp (hB' ▸ sB)).2.1 y hy
  have hsub : (A.take i ++ [A[i]]).Sublist A := by
    conv_rhs => rw [hA']
    exact (List.Sublist.cons₂ _ (List.nil_sublist _)).append_left _
  have hin : A.take i ++ [A[i]] ⊆ B.take i := fun x hx => by
    have hxB := hAB (hsub.subset hx)
    rw [hB'] at hxB
    rcases List.mem_append.mp hxB with h | h
    · exact h
    · exact absurd ((hge x h).trans (hle x hx)) hlt
  have := (List.subperm_of_subset (hA.sublist hsub) hin).length_le
  simp only [List.length_append, List.length_take, List.length_singleton] at this
  omega

end Ranks

section Beam

variable {nodes : List HNSWNode} {L : Nat} {dist : Nat → Except Error ℚ} {ef : Nat}
  {P : Nat → Prop} {δ₀ : ℚ} {V : List Nat} {W : List SearchCandidate}

theorem Beam.mem_of_length_le (hb : Beam (getNeighbors nodes · L) dist ef P δ₀ V W)
    (hV : V.length ≤ ef) : ∀ v ∈ V, v ∈ W.map (·.id) := by
  have hlen : (W.map (·.id)).length = V.length := by
    rw [List.length_map, hb.length_eq]
    omega
  have hsub : (W.map (·.id)).Subperm V := List.subperm_of_subset hb.nodup fun v hv => by
    obtain ⟨c, hc, rfl⟩ := List.mem_map.mp hv
    exact (hb.mem c hc).1
  exact fun v hv => (hsub.perm_of_length_le hlen.ge).symm.subset hv

theorem Beam.mem_of_reach (hb : Beam (getNeighbors nodes · L) dist ef P δ₀ V W)
    (hall : ∀ v ∈ V, v ∈ W.map (·.id)) {a b : Nat} (ha : a ∈ V)
    (hab : Relation.ReflTransGen (LayerEdge nodes L) a b) : b ∈ V := by
  induction hab with
  | refl => exact ha
  | tail _ hbc ih =>
    obtain ⟨c, hc, rfl⟩ := List.mem_map.mp (hall _ ih)
    obtain ⟨l, hl, hlV⟩ := hb.expanded c hc
    obtain ⟨-, rfl⟩ := getNeighbors_eq_ok.mp hl
    exact hlV _ hbc

end Beam

section Runs

attribute [local semireducible] Rat.add Rat.sub Rat.mul

end Runs

/-- While `ef_search` covers `min k' n`, every `k ≤ k'` cuts the same beam: from every reachable
state, `search(q, k)` is the first `min k n` pairs of `search(q, k')`. -/
theorem search_prefix_of_le_ef (h : HNSWIndex.Reachable S s log) (hD : 0 < s.dimensions)
    (hq : q.length = s.dimensions) {k k' : Nat} (hk : k ≤ k')
    (hef : min k' s.numVectors ≤ s.efSearch) :
    ∃ res', s.search S q k' = .ok res' ∧ s.search S q k = .ok (res'.take (min k s.numVectors)) := by
  rcases Nat.eq_zero_or_pos s.numVectors with h0 | hn
  · exact ⟨[], by simp [HNSWIndex.search, hq, h0], by simp [HNSWIndex.search, hq, h0]⟩
  have hl := h.wf.layered
  obtain ⟨curr, hcurr, -, hsearch⟩ := search_descends (S := S) h.wf hD hq hn
  obtain ⟨-, W, -, -, hW, -⟩ := searchLayer_spec (S := S) s.efSearch
    ((hl.layerOk 0).closed hD hl.length_data le_rfl q)
    (⟨hcurr, Nat.zero_le _⟩ : Upper (levelOf log) s.numVectors 0 curr)
  have hkk : min k s.numVectors ≤ min k' s.numVectors := min_le_min_right _ hk
  refine ⟨_, hsearch s.efSearch k' W (by rwa [max_eq_left hef]), ?_⟩
  refine (hsearch s.efSearch k W (by rwa [max_eq_left (hkk.trans hef)])).trans ?_
  rw [← List.map_take, List.take_take, min_eq_left hkk]

section Runs

attribute [local semireducible] Rat.add Rat.sub Rat.mul

set_option maxRecDepth 100000 in
theorem search_prefix_of_le_ef_pair :
    ∃ s log, HNSWIndex.Reachable Stl.sorting s log ∧ 0 < s.dimensions ∧
      ([0] : List ℚ).length = s.dimensions ∧ min 2 s.numVectors ≤ s.efSearch ∧
      ∃ res', s.search Stl.sorting [0] 2 = .ok res' ∧
        s.search Stl.sorting [0] 1 = .ok (res'.take (min 1 s.numVectors)) := by
  obtain ⟨s, log, hr, hD, hq, hef⟩ : ∃ s log, HNSWIndex.Reachable Stl.sorting s log ∧
      0 < s.dimensions ∧ ([0] : List ℚ).length = s.dimensions ∧ min 2 s.numVectors ≤ s.efSearch :=
    ⟨_, _, .add (v := [1]) (.add (v := [0]) (.new 1 1000000 16 200 l2DistanceSimd) rfl) rfl, by decide, by decide,
      by decide⟩
  exact ⟨s, log, hr, hD, hq, hef, search_prefix_of_le_ef hr hD hq (by decide) hef⟩

end Runs

/-- The shape of a reachable index: the node vector and the arena match `num_vectors_`, node `i`
has ID `i`, every listed ID names another node that has the layer it is listed at, without
repeats, and the entry point has `max_layer_ + 1` layers; with `dimensions ≥ 1`, every `add` and
every `search` whose vector has the right length returns. -/
structure InRange (S : Stl) (s : HNSWIndex) : Prop where
  length_nodes : s.nodes.length = s.numVectors
  id_eq : ∀ i (hi : i < s.nodes.length), s.nodes[i].id = i
  length_data : s.data.length = s.numVectors * s.dimensions
  nbr : ∀ u L, ∀ v ∈ nbrs s.nodes u L, v < s.numVectors ∧ v ≠ u ∧ L < layerCount s.nodes v
  nodup : ∀ u L, (nbrs s.nodes u L).Nodup
  entry : 0 < s.numVectors →
    s.entryPoint < s.numVectors ∧ layerCount s.nodes s.entryPoint = s.maxLayer + 1
  add_ok : 0 < s.dimensions → ∀ v : List ℚ, v.length = s.dimensions → ∃ s', s.add S v = .ok s'
  search_ok : 0 < s.dimensions → ∀ (q : List ℚ) (k : Nat), q.length = s.dimensions →
    ∃ res, s.search S q k = .ok res

theorem reachable_in_range (h : HNSWIndex.Reachable S s log) : InRange S s := by
  have hw := h.wf
  have hn := hw.numVectors_eq
  refine ⟨hw.layered.length_nodes, fun i hi => ?_, hw.layered.length_data, fun u L v hv => ?_,
    hw.nodup, fun hpos => ?_, fun hD _ hv => h.add_ok hD hv, fun hD q k hq => ?_⟩
  · have hi' : i < log.length := hw.length_nodes ▸ hi
    simpa [List.getElem?_eq_getElem hi, hi'] using congrArg (·[i]?) hw.ids
  · obtain ⟨hvl, hne, -, hL⟩ := hw.edge u L v hv
    exact ⟨hn ▸ hvl, hne, Nat.lt_of_le_of_lt hL (hw.level_lt v hvl)⟩
  · obtain ⟨hep, -, hcount, -⟩ := hw.entry (List.ne_nil_of_length_pos (hn ▸ hpos))
    exact ⟨hn ▸ hep, hcount⟩
  · rcases Nat.eq_zero_or_pos s.numVectors with h0 | hpos
    · exact ⟨[], by simp [HNSWIndex.search, hq, h0]⟩
    · obtain ⟨-, W, -, -, -, hs⟩ := search_eq_beam (S := S) hw hD hq hpos k
      exact ⟨_, hs⟩

section Runs

attribute [local semireducible] Rat.add Rat.sub Rat.mul

set_option maxRecDepth 100000 in
theorem reachable_in_range_four :
    ∃ s log, HNSWIndex.Reachable Stl.sorting s log ∧ s.numVectors = 4 ∧ s.maxLayer = 2 ∧
      (∀ u < 4, nbrs s.nodes u 0 ≠ []) ∧ InRange Stl.sorting s := by
  obtain ⟨s, log, hr, hn, hmax, hlinked⟩ : ∃ s log, HNSWIndex.Reachable Stl.sorting s log ∧
      s.numVectors = 4 ∧ s.maxLayer = 2 ∧ ∀ u < 4, nbrs s.nodes u 0 ≠ [] :=
    ⟨_, _, .add (v := [7]) (.add (v := [3]) (.add (v := [1]) (.add (v := [0])
      (.new 1 1000000 1 200 l2DistanceSimd) rfl) rfl) rfl) rfl, by decide⟩
  exact ⟨s, log, hr, hn, hmax, hlinked, reachable_in_range hr⟩

end Runs

set_option maxRecDepth 100000 in
theorem add_reads_empty_arena :
    ∃ s log, HNSWIndex.Reachable Stl.sorting s log ∧ s.dimensions = 0 ∧ s.numVectors = 1 ∧
      s.add Stl.sorting [] = .error .outOfRange :=
  ⟨_, _, .add (v := []) (.new 0 1000000 16 200 l2DistanceSimd) rfl, rfl, rfl, rfl⟩

end NexaDb.Native