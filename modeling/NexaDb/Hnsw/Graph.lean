import NexaDb.Hnsw.Index

/-! The layered graph read as a total function, and what each write `add` makes does to it:
`set_neighbors`, the appended node, `prune_connections`, and one round of the linking loop. -/

namespace NexaDb.Native

open SearchCandidate (far)

/-- `nodes[u].neighbors[layer]`, read as empty past the end of either vector. -/
def nbrs (nodes : List HNSWNode) (u layer : Nat) : List Nat :=
  ((nodes[u]?).bind (·.neighbors[layer]?)).getD []

def layerCount (nodes : List HNSWNode) (u : Nat) : Nat :=
  ((nodes[u]?).map (·.neighbors.length)).getD 0

/-- The list `prune_connections` leaves on a node: `l` itself within `M` entries, else the IDs
of the `M` entries nearest under `key`, as `std::sort` orders them. -/
def keepNearest (S : Stl) (key : Nat → ℚ) (M : Nat) (l : List Nat) : List Nat :=
  if l.length ≤ M then l else ((S.sort far (l.map fun x => ⟨x, key x⟩)).take M).map (·.id)

def linkNodes (S : Stl) (key : Nat → ℚ) (nodes : List HNSWNode) (n m lc M : Nat) :
    List HNSWNode :=
  let nodes := setNeighbors nodes n lc (nbrs nodes n lc ++ [m])
  setNeighbors nodes m lc (keepNearest S key M (nbrs nodes m lc ++ [n]))

/-- The exact value `distance(id1, id2)` computes once both rows are in range. -/
def HNSWIndex.dist (s : HNSWIndex) (id1 id2 : Nat) : ℚ :=
  s.kernel (slice s.data s.dimensions id1) (slice s.data s.dimensions id2) s.dimensions

/-- The exact value `distance_to_query(query, id)` computes once the row is in range. -/
def HNSWIndex.queryDist (s : HNSWIndex) (query : List ℚ) (id : Nat) : ℚ :=
  s.kernel query (slice s.data s.dimensions id) s.dimensions

def HNSWIndex.layerCap (s : HNSWIndex) (lc : Nat) : Nat := if lc = 0 then s.MMax else s.M

section Views

variable {nodes : List HNSWNode} {u x n m k layer L lc M : Nat} {l : List Nat}

theorem lt_length_of_lt_layerCount (h : layer < layerCount nodes u) : u < nodes.length := by
  by_contra hu
  simp [layerCount, List.getElem?_eq_none_iff.mpr (Nat.le_of_not_lt hu)] at h

theorem nbrs_of_layerCount_le (h : layerCount nodes u ≤ layer) : nbrs nodes u layer = [] := by
  unfold nbrs
  unfold layerCount at h
  cases hu : nodes[u]? with
  | none => rfl
  | some node =>
    simp only [hu, Option.map_some', Option.getD_some] at h
    simp [List.getElem?_eq_none_iff.mpr h]

theorem nbrs_of_length_le (h : nodes.length ≤ u) : nbrs nodes u layer = [] := by
  simp [nbrs, List.getElem?_eq_none_iff.mpr h]

theorem lt_length_of_mem_nbrs {w : Nat} (h : w ∈ nbrs nodes u layer) : u < nodes.length := by
  by_contra hu
  rw [nbrs_of_length_le (Nat.le_of_not_lt hu)] at h
  exact List.not_mem_nil _ h

theorem nbrs_eq_getElem (hu : u < nodes.length) (hL : layer < nodes[u].neighbors.length) :
    nbrs nodes u layer = nodes[u].neighbors[layer] := by
  simp [nbrs, List.getElem?_eq_getElem hu, List.getElem?_eq_getElem hL]

theorem getNeighbors_eq_ok :
    getNeighbors nodes u layer = .ok l ↔ layer < layerCount nodes u ∧ nbrs nodes u layer = l := by
  unfold getNeighbors nbrs layerCount
  rcases nodes[u]? with _ | node
  · simp
  · rcases h : node.neighbors[layer]? with _ | l'
    · simp [h, List.getElem?_eq_none_iff.mp h]
    · simp [h, (List.getElem?_eq_some_iff.mp h).1]

theorem getNeighbors_of_lt (h : layer < layerCount nodes u) :
    getNeighbors nodes u layer = .ok (nbrs nodes u layer) :=
  getNeighbors_eq_ok.mpr ⟨h, rfl⟩

theorem getNeighbors_eq : getNeighbors nodes u layer =
    if layer < layerCount nodes u then .ok (nbrs nodes u layer) else .error .outOfRange := by
  split
  · exact getNeighbors_of_lt ‹_›
  · rename_i hge
    unfold getNeighbors
    unfold layerCount at hge
    rcases h : nodes[u]? with _ | node
    · rfl
    · simp only [h, Option.map_some', Option.getD_some, not_lt] at hge
      simp [List.getElem?_eq_none_iff.mpr hge]

theorem getNeighbors_congr {nodes' : List HNSWNode} (hc : layerCount nodes u = layerCount nodes' u)
    (hn : nbrs nodes u layer = nbrs nodes' u layer) :
    getNeighbors nodes u layer = getNeighbors nodes' u layer := by
  rw [getNeighbors_eq, getNeighbors_eq, hc, hn]

@[simp] theorem length_setNeighbors : (setNeighbors nodes u L l).length = nodes.length :=
  List.length_modify _ _ _

@[simp] theorem layerCount_setNeighbors :
    layerCount (setNeighbors nodes u L l) x = layerCount nodes x := by
  unfold layerCount setNeighbors
  rw [List.getElem?_modify]
  rcases nodes[x]? with _ | node
  · rfl
  · by_cases h : u = x <;> simp [h]

@[simp] theorem map_id_setNeighbors :
    (setNeighbors nodes u L l).map (·.id) = nodes.map (·.id) := by
  apply List.ext_getElem?
  intro i
  simp only [setNeighbors, List.getElem?_map, List.getElem?_modify]
  rcases nodes[i]? with _ | node
  · rfl
  · by_cases h : u = i <;> simp [h]

@[simp] theorem setNeighbors_setNeighbors {l' : List Nat} :
    setNeighbors (setNeighbors nodes u L l) u L l' = setNeighbors nodes u L l' := by
  apply List.ext_getElem?
  intro i
  simp only [setNeighbors, List.getElem?_modify]
  rcases nodes[i]? with _ | node
  · rfl
  · by_cases h : u = i <;> simp [h]

theorem nbrs_setNeighbors : nbrs (setNeighbors nodes u L l) x layer =
    if x = u ∧ layer = L ∧ L < layerCount nodes u then l else nbrs nodes x layer := by
  unfold nbrs setNeighbors layerCount
  rw [List.getElem?_modify]
  by_cases hx : x = u
  · subst hx
    rcases nodes[x]? with _ | node
    · simp
    · by_cases hl : layer = L
      · subst hl
        by_cases hL : layer < node.neighbors.length
        · simp [List.getElem?_set, hL]
        · simp [List.getElem?_set, hL, List.getElem?_eq_none_iff.mpr (Nat.le_of_not_lt hL)]
      · simp [List.getElem?_set, Ne.symm hl, hl]
  · simp [Ne.symm hx, hx]

@[simp] theorem nbrs_append_new :
    nbrs (nodes ++ [HNSWNode.new n k]) x layer = nbrs nodes x layer := by
  unfold nbrs
  rcases Nat.lt_or_ge x nodes.length with hx | hx
  · rw [List.getElem?_append_left hx]
  · rw [List.getElem?_append_right hx, List.getElem?_eq_none_iff.mpr hx]
    rcases Nat.eq_or_lt_of_le hx with rfl | hlt
    · by_cases hl : layer < k + 1 <;> simp [HNSWNode.new, List.getElem?_replicate, hl]
    · simp [List.getElem?_eq_none_iff.mpr (show [HNSWNode.new n k].length ≤ x - nodes.length by
        simp; omega)]

theorem layerCount_append_new : layerCount (nodes ++ [HNSWNode.new n k]) x =
    if x = nodes.length then k + 1 else layerCount nodes x := by
  unfold layerCount
  rcases Nat.lt_or_ge x nodes.length with hx | hx
  · rw [List.getElem?_append_left hx, if_neg (Nat.ne_of_lt hx)]
  · rw [List.getElem?_append_right hx, List.getElem?_eq_none_iff.mpr hx]
    rcases Nat.eq_or_lt_of_le hx with rfl | hlt
    · simp [HNSWNode.new]
    · simp [List.getElem?_eq_none_iff.mpr (show [HNSWNode.new n k].length ≤ x - nodes.length by
        simp; omega), Nat.ne_of_gt hlt]

end Views

section KeepNearest

variable {S : Stl} {key : Nat → ℚ} {M x y : Nat} {l : List Nat}

theorem mem_of_mem_keepNearest (h : x ∈ keepNearest S key M l) : x ∈ l := by
  unfold keepNearest at h
  split at h
  · exact h
  · obtain ⟨c, hc, rfl⟩ := List.mem_map.mp h
    obtain ⟨x, hx, rfl⟩ :=
      List.mem_map.mp ((S.sort_perm far _).subset (List.mem_of_mem_take hc))
    exact hx

theorem nodup_keepNearest (h : l.Nodup) : (keepNearest S key M l).Nodup := by
  unfold keepNearest
  split
  · exact h
  · refine ((List.take_sublist _ _).map _).nodup ?_
    rw [((S.sort_perm far _).map _).nodup_iff, List.map_map]
    simpa [Function.comp_def] using h

theorem length_keepNearest : (keepNearest S key M l).length = min l.length M := by
  unfold keepNearest
  split
  · omega
  · simp [(S.sort_perm far _).length_eq]
    omega

theorem keepNearest_le (hx : x ∈ l) (hx' : x ∉ keepNearest S key M l)
    (hy : y ∈ keepNearest S key M l) : key y ≤ key x := by
  unfold keepNearest at hx' hy
  by_cases hle : l.length ≤ M
  · rw [if_pos hle] at hx'
    exact absurd hx hx'
  · rw [if_neg hle] at hx' hy
    set sorted := S.sort far (l.map fun x => (⟨x, key x⟩ : SearchCandidate))
    have hxs : (⟨x, key x⟩ : SearchCandidate) ∈ sorted :=
      (S.sort_perm far _).symm.subset (List.mem_map.mpr ⟨x, hx, rfl⟩)
    rw [← List.take_append_drop M sorted] at hxs
    obtain ⟨c, hc, rfl⟩ := List.mem_map.mp hy
    have hc_key : c.distance = key c.id := by
      obtain ⟨z, -, rfl⟩ := List.mem_map.mp ((S.sort_perm far _).subset (List.mem_of_mem_take hc))
      rfl
    rcases List.mem_append.mp hxs with hxt | hxd
    · exact absurd (List.mem_map.mpr ⟨_, hxt, rfl⟩) hx'
    · have hs : sorted.Sorted (fun a b => a.far ≤ b.far) := S.sort_sorted far _
      rw [← List.take_append_drop M sorted] at hs
      rw [← hc_key]
      exact (List.pairwise_append.mp hs).2.2 c hc _ hxd

theorem keepNearest_full {n : Nat} (hl : (l ++ [n]).Nodup) (hlen : l.length = M)
    (hn : n ∈ keepNearest S key M (l ++ [n])) : ∃ y ∈ l, y ∉ keepNearest S key M (l ++ [n]) ∧
      key n ≤ key y := by
  by_contra hall
  push_neg at hall
  have hsub : l ++ [n] ⊆ keepNearest S key M (l ++ [n]) := by
    intro z hz
    rcases List.mem_append.mp hz with hz | hz
    · by_contra hz'
      exact absurd (keepNearest_le (List.mem_append_left _ hz) hz' hn) (not_le.mpr (hall z hz hz'))
    · rwa [List.mem_singleton.mp hz]
  have := (List.subperm_of_subset hl hsub).length_le
  rw [length_keepNearest] at this
  simp at this
  omega

theorem keepNearest_ne_nil (hM : 0 < M) (hl : l ≠ []) : keepNearest S key M l ≠ [] := by
  apply List.ne_nil_of_length_pos
  rw [length_keepNearest]
  have := List.length_pos.mpr hl
  omega

theorem keepNearest_of_dropped (hx : x ∈ l) (hx' : x ∉ keepNearest S key M l) :
    (keepNearest S key M l).length = M ∧ ∀ y ∈ keepNearest S key M l, key y ≤ key x := by
  refine ⟨?_, fun y hy => keepNearest_le hx hx' hy⟩
  rw [length_keepNearest]
  by_contra hne
  exact hx' (by simp [keepNearest, show l.length ≤ M by omega, hx])

theorem keepNearest_bounded {n : Nat} {k : ℚ} (hl : (l ++ [n]).Nodup) (hlen : l.length = M)
    (hall : ∀ y ∈ l, key y ≤ k) :
    (keepNearest S key M (l ++ [n])).length = M ∧ ∀ y ∈ keepNearest S key M (l ++ [n]), key y ≤ k := by
  refine ⟨by simp [length_keepNearest, hlen], fun y hy => ?_⟩
  rcases List.mem_append.mp (mem_of_mem_keepNearest hy) with hy' | hy'
  · exact hall y hy'
  · obtain rfl := List.mem_singleton.mp hy'
    obtain ⟨z, hz, -, hle⟩ := keepNearest_full hl hlen hy
    exact hle.trans (hall z hz)

end KeepNearest

section Link

variable {S : Stl} {key : Nat → ℚ} {nodes : List HNSWNode} {n m lc M x layer : Nat}

@[simp] theorem length_linkNodes : (linkNodes S key nodes n m lc M).length = nodes.length := by
  simp [linkNodes]

@[simp] theorem layerCount_linkNodes :
    layerCount (linkNodes S key nodes n m lc M) x = layerCount nodes x := by
  simp [linkNodes]

@[simp] theorem map_id_linkNodes :
    (linkNodes S key nodes n m lc M).map (·.id) = nodes.map (·.id) := by
  simp [linkNodes]

theorem nbrs_linkNodes (hn : lc < layerCount nodes n) (hm : lc < layerCount nodes m) (hmn : m ≠ n) :
    nbrs (linkNodes S key nodes n m lc M) x layer =
      if layer = lc ∧ x = n then nbrs nodes n lc ++ [m]
      else if layer = lc ∧ x = m then keepNearest S key M (nbrs nodes m lc ++ [n])
      else nbrs nodes x layer := by
  simp only [linkNodes, nbrs_setNeighbors, layerCount_setNeighbors, hmn, hn, hm, false_and,
    if_false, and_true]
  by_cases hl : layer = lc
  · subst hl
    by_cases hxn : x = n
    · subst hxn; simp [Ne.symm hmn]
    · by_cases hxm : x = m <;> simp [hxn, hxm, hmn]
  · simp [hl]

end Link

namespace HNSWIndex

variable {S : Stl} {s : HNSWIndex} {N n m lc M : Nat} {δ : ℚ}

theorem distance_eq (hlen : s.data.length = N * s.dimensions) (hD : 0 < s.dimensions)
    {id1 id2 : Nat} (h1 : id1 < N) (h2 : id2 < N) : s.distance id1 id2 = .ok (s.dist id1 id2) := by
  simp [distance, row_of_lt hlen hD h1, row_of_lt hlen hD h2, dist]

theorem distanceToQuery_of_le (hlen : N * s.dimensions ≤ s.data.length) (hD : 0 < s.dimensions)
    (q : List ℚ) {id : Nat} (h : id < N) : s.distanceToQuery q id = .ok (s.queryDist q id) := by
  have := Nat.mul_le_mul_right s.dimensions h
  rw [Nat.succ_mul] at this
  simp [distanceToQuery, row_eq_ok (by omega : id * s.dimensions < s.data.length)
    (by rw [Nat.succ_mul]; omega), queryDist]

theorem distanceToQuery_eq (hlen : s.data.length = N * s.dimensions) (hD : 0 < s.dimensions)
    (q : List ℚ) {id : Nat} (h : id < N) : s.distanceToQuery q id = .ok (s.queryDist q id) :=
  distanceToQuery_of_le hlen.ge hD q h

theorem eq_queryDist_of_distanceToQuery {q : List ℚ} {id : Nat}
    (h : s.distanceToQuery q id = .ok δ) : δ = s.queryDist q id := by
  unfold distanceToQuery at h
  cases hr : row s.data s.dimensions id with
  | error e => simp [hr] at h
  | ok r =>
    simp only [hr, ok_bind, pure_eq_ok, Except.ok.injEq] at h
    rw [← h, (row_ok_iff.mp hr).2]
    rfl

@[simp] theorem distance_with_nodes {ns : List HNSWNode} :
    ({ s with nodes := ns }).distance = s.distance := rfl

@[simp] theorem dist_with_nodes {ns : List HNSWNode} : ({ s with nodes := ns }).dist = s.dist := rfl

theorem link_eq (hn : lc < layerCount s.nodes n) (hm : lc < layerCount s.nodes m) (hmn : m ≠ n)
    (hd : ∀ x ∈ nbrs s.nodes m lc ++ [n], s.distance m x = .ok (s.dist m x)) :
    link S n lc M s ⟨m, δ⟩ = .ok { s with nodes := linkNodes S (s.dist m) s.nodes n m lc M } := by
  set A := setNeighbors s.nodes n lc (nbrs s.nodes n lc ++ [m]) with hA
  have hback : nbrs A m lc = nbrs s.nodes m lc := by simp [hA, nbrs_setNeighbors, hmn]
  have hmA : lc < layerCount A m := by simpa [hA] using hm
  have hlink : linkNodes S (s.dist m) s.nodes n m lc M =
      setNeighbors A m lc (keepNearest S (s.dist m) M (nbrs s.nodes m lc ++ [n])) := by
    simp only [linkNodes, ← hA, hback]
  rw [hlink]
  simp only [link, getNeighbors_of_lt hn, ok_bind, ← hA, getNeighbors_of_lt hmA, hback]
  by_cases hgt : (nbrs s.nodes m lc).length + 1 > M
  · rw [if_pos hgt]
    have hmB : lc < layerCount (setNeighbors A m lc (nbrs s.nodes m lc ++ [n])) m := by
      simpa using hmA
    have hB : nbrs (setNeighbors A m lc (nbrs s.nodes m lc ++ [n])) m lc = nbrs s.nodes m lc ++ [n] := by
      rw [nbrs_setNeighbors, if_pos ⟨rfl, rfl, hmA⟩]
    simp only [pruneConnections, getNeighbors_of_lt hmB, ok_bind, hB]
    rw [if_neg (by simp; omega)]
    rw [mapM_eq_ok (g := fun x => (⟨x, s.dist m x⟩ : SearchCandidate)) (fun x hx => by
      simp [hd x hx])]
    simp [keepNearest, show ¬ (nbrs s.nodes m lc).length + 1 ≤ M by omega]
  · rw [if_neg hgt]
    simp [keepNearest, show (nbrs s.nodes m lc).length + 1 ≤ M by omega]

end HNSWIndex

end NexaDb.Native
