import NexaDb.Hnsw.InsertLaws

/-! `search_layer` on any graph whose listed IDs all have a list at the layer searched: from an
entry that has one, with `dimensions ≥ 1` and a row for every node, it returns the beam its loop
builds, described against the nodes it visited. -/

namespace NexaDb.Native

def LayerEdge (nodes : List HNSWNode) (layer a b : Nat) : Prop := b ∈ nbrs nodes a layer

/-- What `search_layer(query, entry, ef, layer)` returns, against the list `V` of nodes it
visited: `V` holds the entry and is reached from it along `layer`; the answer is
`min (max ef 1) |V|` distinct nodes of `V` with their distances, nearest first and the first no
farther than the entry; every node of `V` left out is no nearer than the last returned; and every
returned node was expanded. -/
structure LayerAnswer (s : HNSWIndex) (query : List ℚ) (entry ef layer : Nat) (V : List Nat)
    (res : List SearchCandidate) : Prop where
  entry_mem : entry ∈ V
  nodupV : V.Nodup
  reach : ∀ v ∈ V, Relation.ReflTransGen (LayerEdge s.nodes layer) entry v
  ne_nil : res ≠ []
  nodup : (res.map (·.id)).Nodup
  sorted : res.Sorted (fun a b => a.distance ≤ b.distance)
  mem : ∀ c ∈ res, c.id ∈ V ∧ c.distance = s.queryDist query c.id
  length_eq : res.length = min (max ef 1) V.length
  far : ∀ v ∈ V, v ∉ res.map (·.id) → ∀ c ∈ res.getLast?, c.distance ≤ s.queryDist query v
  head_le : ∀ c ∈ res.head?, c.distance ≤ s.queryDist query entry
  expanded : ∀ c ∈ res, ∀ v ∈ nbrs s.nodes c.id layer, v ∈ V

section

variable {S : Stl} {s : HNSWIndex} {q : List ℚ} {e ef L : Nat}

theorem closed_reach (hD : 0 < s.dimensions) (hdata : s.nodes.length * s.dimensions ≤ s.data.length)
    (hgraph : ∀ u, ∀ v ∈ nbrs s.nodes u L, L < layerCount s.nodes v) :
    Closed (getNeighbors s.nodes · L) (s.distanceToQuery q)
      fun v => L < layerCount s.nodes v ∧ Relation.ReflTransGen (LayerEdge s.nodes L) e v :=
  fun v ⟨hv, hr⟩ => ⟨⟨_, s.distanceToQuery_of_le hdata hD q (lt_length_of_lt_layerCount hv)⟩, _,
    getNeighbors_of_lt hv, fun w hw => ⟨hgraph v w hw, hr.tail hw⟩⟩

theorem Beam.length_eq {nbrsOf : Nat → Except Error (List Nat)} {dist : Nat → Except Error ℚ}
    {P : Nat → Prop} {δ₀ : ℚ} {V : List Nat} {res : List SearchCandidate}
    (hb : Beam nbrsOf dist ef P δ₀ V res) : res.length = min (max ef 1) V.length := by
  have hle : res.length ≤ V.length := by
    simpa using (List.subperm_of_subset hb.nodup fun v hv => by
      obtain ⟨c, hc, rfl⟩ := List.mem_map.mp hv
      exact (hb.mem c hc).1).length_le
  have hpos := List.length_pos.mpr hb.ne_nil
  have := hb.bounded
  by_cases hlt : res.length < ef
  · have hge := (List.subperm_of_subset hb.nodupV (hb.small hlt)).length_le
    simp only [List.length_map] at hge
    omega
  · omega

theorem searchLayer_answer (S : Stl) (q : List ℚ) (ef : Nat) (hD : 0 < s.dimensions)
    (hdata : s.nodes.length * s.dimensions ≤ s.data.length)
    (hgraph : ∀ u, ∀ v ∈ nbrs s.nodes u L, L < layerCount s.nodes v)
    (he : L < layerCount s.nodes e) :
    ∃ res V, s.searchLayer S q e ef L = .ok res ∧ LayerAnswer s q e ef L V res := by
  obtain ⟨d, res, V, hd, hres, heV, hb⟩ := searchLayer_spec (S := S) ef
    (closed_reach (q := q) (e := e) hD hdata hgraph) ⟨he, .refl⟩
  have hq : ∀ v ∈ V, s.distanceToQuery q v = .ok (s.queryDist q v) := fun v hv =>
    s.distanceToQuery_of_le hdata hD q (lt_length_of_lt_layerCount (hb.visited v hv).1.1)
  refine ⟨res, V, hres, heV, hb.nodupV, fun v hv => (hb.visited v hv).1.2, hb.ne_nil, hb.nodup,
    hb.sorted, fun c hc => ⟨(hb.mem c hc).1,
      HNSWIndex.eq_queryDist_of_distanceToQuery (hb.mem c hc).2⟩, hb.length_eq, ?_, ?_, ?_⟩
  · intro v hv hvres c hc
    obtain ⟨-, δ, hδ, hfar⟩ := hb.visited v hv
    rw [hq v hv, Except.ok.injEq] at hδ
    exact hδ ▸ hfar hvres c (List.mem_of_mem_getLast? hc)
  · obtain ⟨c, rest, rfl, -, -, hc⟩ := hb.head
    simpa [HNSWIndex.eq_queryDist_of_distanceToQuery hd] using hc
  · intro c hc v hv
    obtain ⟨l, hl, hlV⟩ := hb.expanded c hc
    obtain ⟨-, rfl⟩ := getNeighbors_eq_ok.mp hl
    exact hlV v hv

end

section Runs

attribute [local semireducible] Rat.add Rat.sub Rat.mul

set_option maxRecDepth 100000 in
theorem reachable_pair_layer0 :
    ∃ s log, HNSWIndex.Reachable Stl.sorting s log ∧ 0 < s.dimensions ∧
      s.nodes.length * s.dimensions ≤ s.data.length ∧
      (∀ u, ∀ v ∈ nbrs s.nodes u 0, 0 < layerCount s.nodes v) ∧ 0 < layerCount s.nodes 0 := by
  obtain ⟨s, log, hr, hD, hdata, hnodes⟩ : ∃ s log, HNSWIndex.Reachable Stl.sorting s log ∧
      0 < s.dimensions ∧ s.nodes.length * s.dimensions ≤ s.data.length ∧
      s.nodes = [⟨0, [[1]]⟩, ⟨1, [[0]]⟩] :=
    ⟨_, _, .add (v := [2]) (.add (v := [0]) (.new 1 1000000 16 200 l2DistanceSimd) rfl) rfl, by decide, by decide,
      by decide⟩
  refine ⟨s, log, hr, hD, hdata, fun u v hv => ?_, by simp [hnodes, layerCount]⟩
  rw [hnodes] at hv ⊢
  rcases u with _ | _ | u <;> simp_all [nbrs, layerCount]

theorem searchLayer_answer_pair :
    ∃ s log, HNSWIndex.Reachable Stl.sorting s log ∧ 0 < s.dimensions ∧
      s.nodes.length * s.dimensions ≤ s.data.length ∧
      (∀ u, ∀ v ∈ nbrs s.nodes u 0, 0 < layerCount s.nodes v) ∧ 0 < layerCount s.nodes 0 ∧
      ∃ res V, s.searchLayer Stl.sorting [2] 0 1 0 = .ok res ∧ LayerAnswer s [2] 0 1 0 V res :=
  let ⟨s, log, hr, hD, hdata, hgraph, hc0⟩ := reachable_pair_layer0
  ⟨s, log, hr, hD, hdata, hgraph, hc0, searchLayer_answer Stl.sorting [2] 1 hD hdata hgraph hc0⟩

set_option maxRecDepth 100000 in
theorem searchLayer_entry_without_layer :
    ∃ s log, HNSWIndex.Reachable Stl.sorting s log ∧ 0 < s.dimensions ∧
      s.nodes.length * s.dimensions ≤ s.data.length ∧
      (∀ u, ∀ v ∈ nbrs s.nodes u 1, 1 < layerCount s.nodes v) ∧
      s.searchLayer Stl.sorting [0] 0 1 1 = .error .outOfRange := by
  obtain ⟨s, log, hr, hD, hdata, hnodes, hrun⟩ : ∃ s log, HNSWIndex.Reachable Stl.sorting s log ∧
      0 < s.dimensions ∧ s.nodes.length * s.dimensions ≤ s.data.length ∧
      s.nodes = [⟨0, [[]]⟩] ∧ s.searchLayer Stl.sorting [0] 0 1 1 = .error .outOfRange :=
    ⟨_, _, .add (v := [0]) (.new 1 1000000 16 200 l2DistanceSimd) rfl, by decide, by decide, by decide, by rfl⟩
  refine ⟨s, log, hr, hD, hdata, fun u v hv => ?_, hrun⟩
  rw [hnodes] at hv
  rcases u with _ | u <;> simp [nbrs] at hv

end Runs

end NexaDb.Native
