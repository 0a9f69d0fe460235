import NexaDb.Hnsw.BruteForce
import NexaDb.Hnsw.BackEdges

/-! An index below its caps. While the lists of a layer cannot outgrow `M_L`, `add` prunes
nothing there: every old edge stays, and the new node is linked both ways with each node it
picked. So each layer keeps the nodes of its level connected, and while the index holds no more
nodes than `M_max0_` and `ef_construction` allow, layer 0 links every node with every other and the
search is exact. -/

namespace NexaDb.Native

variable {S : Stl} {s s' : HNSWIndex} {log : List (List ℚ × Nat)} {v : List ℚ}

section Linking

variable {M x : Nat} {ms : List Nat}

theorem Wf.length_nbrs_append_new_le (hw : Wf s log) (hx : x < s.numVectors) (L : Nat) :
    (nbrs s.nodes x L ++ [s.numVectors]).length ≤ s.numVectors := by
  have hn := hw.numVectors_eq
  have hsub : ∀ y ∈ nbrs s.nodes x L ++ [s.numVectors],
      y ∈ (List.range (s.numVectors + 1)).erase x := fun y hy => by
    rcases List.mem_append.mp hy with hy | hy
    · obtain ⟨hlt, hne, -⟩ := hw.edge x L y hy
      exact (List.mem_erase_of_ne hne).mpr (List.mem_range.mpr (by omega))
    · rw [List.mem_singleton.mp hy]
      exact (List.mem_erase_of_ne (by omega)).mpr (List.mem_range.mpr (by omega))
  have hle := (List.subperm_of_subset (hw.nodup_nbrs_append_new x L) hsub).length_le
  rwa [List.length_erase_of_mem (List.mem_range.mpr (by omega)), List.length_range] at hle

theorem Wf.linkedLists_below_cap (S : Stl) (key : Nat → Nat → ℚ) (hw : Wf s log)
    (hM : s.numVectors ≤ M)
    (hms : ∀ m ∈ ms, m < s.numVectors) (L : Nat) :
    (∀ x, ∀ w ∈ nbrs s.nodes x L, w ∈ linkedLists S key M s.numVectors (nbrs s.nodes · L) ms x) ∧
      linkedLists S key M s.numVectors (nbrs s.nodes · L) ms s.numVectors = ms ∧
      ∀ m ∈ ms, s.numVectors ∈ linkedLists S key M s.numVectors (nbrs s.nodes · L) ms m := by
  have hGn : nbrs s.nodes s.numVectors L = [] :=
    nbrs_of_length_le (by rw [hw.length_nodes, hw.numVectors_eq])
  have hkeep : ∀ m ∈ ms, linkedLists S key M s.numVectors (nbrs s.nodes · L) ms m =
      nbrs s.nodes m L ++ [s.numVectors] := fun m hm => by
    rw [linkedLists_of_mem (Nat.ne_of_lt (hms m hm)) hm, keepNearest,
      if_pos ((hw.length_nbrs_append_new_le (hms m hm) L).trans hM)]
  refine ⟨fun x w hw' => ?_, by rw [linkedLists_self, hGn, List.nil_append],
    fun m hm => hkeep m hm ▸ List.mem_append_right _ (List.mem_singleton_self _)⟩
  by_cases hxn : x = s.numVectors
  · subst hxn
    rw [hGn] at hw'
    cases hw'
  by_cases hxm : x ∈ ms
  · exact hkeep x hxm ▸ List.mem_append_left _ hw'
  · rwa [linkedLists_of_not_mem hxn hxm]

end Linking

section Connected

variable {L : Nat}

/-- On layer `L`, every stored node of level at least `L` reaches every other along its edges. -/
def LayerConnected (s : HNSWIndex) (log : List (List ℚ × Nat)) (L : Nat) : Prop :=
  ∀ u < log.length, ∀ w < log.length, L ≤ levelOf log u → L ≤ levelOf log w →
    Relation.ReflTransGen (LayerEdge s.nodes L) u w

theorem LayerConnected.add (hw : Wf s log) (hc : LayerConnected s log L)
    (hcap : s.numVectors ≤ s.layerCap L) (h : s.add S v = .ok s') :
    LayerConnected s' (log ++ [(v, s.nextLevel)]) L := by
  have hA := Added.of_add hw.layered h
  have hn := hw.numVectors_eq
  obtain ⟨ms, -, hpick, hnbrs⟩ := hA.linked L
  obtain ⟨hkeep, hnew, hback⟩ := hw.linkedLists_below_cap S s'.dist hcap
    (fun m hm => (hpick.upper m hm).1) L
  have hmono : ∀ {a b}, Relation.ReflTransGen (LayerEdge s.nodes L) a b →
      Relation.ReflTransGen (LayerEdge s'.nodes L) a b := fun hab =>
    hab.mono fun a b hab => show b ∈ nbrs s'.nodes a L from hnbrs a ▸ hkeep a b hab
  -- an old node on the layer of the new one makes the new one pick a node there
  have hpicked : ∀ i < log.length, L ≤ levelOf log i → L ≤ s.nextLevel →
      ∃ m ∈ ms, m < log.length ∧ L ≤ levelOf log m := fun i hi hLi hLn => by
    have hne := hA.picks L (by omega) hLn
      (hLi.trans ((hw.entry (List.ne_nil_of_length_pos (by omega))).2.2.2.1 i hi)) (by omega)
    rw [hnbrs, hnew] at hne
    obtain ⟨m, hm⟩ := List.exists_mem_of_ne_nil _ hne
    exact ⟨m, hm, hn ▸ (hpick.upper m hm).1, (hpick.upper m hm).2⟩
  intro u hu w hw' hLu hLw
  simp only [List.length_append, List.length_singleton] at hu hw'
  rcases Nat.lt_succ_iff_lt_or_eq.mp hu with hu | rfl <;>
    rcases Nat.lt_succ_iff_lt_or_eq.mp hw' with hw' | rfl
  · -- two old nodes
    rw [levelOf_append_lt hu] at hLu
    rw [levelOf_append_lt hw'] at hLw
    exact hmono (hc u hu w hw' hLu hLw)
  · -- old to new: to a picked node, then along its back-edge
    rw [levelOf_append_lt hu] at hLu
    rw [levelOf_append_self] at hLw
    obtain ⟨m, hm, hmn, hLm⟩ := hpicked u hu hLu hLw
    have hedge : LayerEdge s'.nodes L m log.length := by
      show _ ∈ _
      rw [hnbrs, ← hn]
      exact hback m hm
    exact (hmono (hc u hu m hmn hLu hLm)).tail hedge
  · -- new to old: to a picked node, then along an old path
    rw [levelOf_append_self] at hLu
    rw [levelOf_append_lt hw'] at hLw
    obtain ⟨m, hm, hmn, hLm⟩ := hpicked w hw' hLw hLu
    have hedge : LayerEdge s'.nodes L log.length m := by
      show _ ∈ _
      rw [hnbrs, ← hn, hnew]
      exact hm
    exact .head hedge (hmono (hc m hmn w hw' hLm hLw))
  · exact .refl

theorem HNSWIndex.Reachable.layerConnected (h : HNSWIndex.Reachable S s log)
    (hcap : s.numVectors ≤ s.layerCap L + 1) : LayerConnected s log L := by
  induction h with
  | new => intro u hu; simp at hu
  | add hr hs ih =>
    have hA := Added.of_add hr.wf.layered hs
    rw [hA.numVectors_eq, hA.layerCap_eq] at hcap
    exact (ih (by omega)).add hr.wf (by omega) hs
  | setEf _ _ ih => exact ih hcap
  | clear _ => intro u hu; simp at hu

/-- While no list of layer `L` can outgrow its cap, that is while at most `M_L + 1` vectors are
stored, in every reachable state each stored node of level at least `L` reaches every other along
layer-`L` edges. -/
theorem layer_connected_below_cap (h : HNSWIndex.Reachable S s log)
    (hcap : s.numVectors ≤ s.layerCap L + 1) {u w : Nat} (hu : u < s.numVectors)
    (hw : w < s.numVectors) (hLu : L ≤ levelOf log u) (hLw : L ≤ levelOf log w) :
    Relation.ReflTransGen (LayerEdge s.nodes L) u w := by
  rw [h.wf.numVectors_eq] at hu hw
  exact h.layerConnected hcap u hu w hw hLu hLw

end Connected

section Complete

variable {q : List ℚ}

/-- While the index holds no more nodes than `M_max0_` and `ef_construction`, an insertion's
layer-0 search visits every stored node and keeps them all, and the new node is linked with each
of them without a prune. -/
theorem CompleteLayer0.add (hc : CompleteLayer0 s) (hw : Wf s log)
    (hsmall : s.numVectors ≤ min s.MMax s.efConstruction) (h : s.add S v = .ok s') :
    CompleteLayer0 s' := by
  have hA := Added.of_add hw.layered h
  intro u hu w hw' huw
  rw [hA.numVectors_eq] at hu hw'
  rcases Nat.eq_zero_or_pos s.numVectors with h0 | hpos
  · omega
  obtain ⟨res, V, δ, hb, hnbrs⟩ := hA.layer0 hpos
  have hV := hb.visits_all fun a b ha hb' hab => by
    rw [nbrs_append_new]
    exact hc a ha.1 b hb'.1 hab
  have hres := hb.mem_of_length_le (Nat.le_trans
    (length_le_of_subset_range hb.nodupV fun x hx => (hb.visited x hx).1.1) (by omega))
  have hids : ∀ x ∈ res.map (·.id), x < s.numVectors := fun x hx => by
    obtain ⟨c, hc, rfl⟩ := List.mem_map.mp hx
    exact (hb.visited _ (hb.mem c hc).1).1.1
  have hlen := length_le_of_subset_range hb.nodup hids
  rw [List.length_map] at hlen
  rw [List.take_of_length_le (by omega)] at hnbrs
  obtain ⟨hkeep, hnew, hback⟩ := hw.linkedLists_below_cap S s'.dist
    (by omega : s.numVectors ≤ s.MMax) hids 0
  rw [hnbrs]
  rcases Nat.lt_or_ge u s.numVectors with hlt | hge
  · rcases Nat.lt_or_ge w s.numVectors with hwlt | hwge
    · exact hkeep u w (hc u hlt w hwlt huw)
    · obtain rfl : w = s.numVectors := by omega
      exact hback u (hres u (hV u ⟨hlt, Nat.zero_le _⟩))
  · obtain rfl : u = s.numVectors := by omega
    rw [hnew]
    exact hres w (hV w ⟨by omega, Nat.zero_le _⟩)

theorem HNSWIndex.Reachable.completeLayer0 (h : HNSWIndex.Reachable S s log)
    (hsmall : s.numVectors ≤ min s.MMax s.efConstruction + 1) : CompleteLayer0 s := by
  induction h with
  | new => intro u hu; simp [HNSWIndex.new] at hu
  | add hr hs ih =>
    have hA := Added.of_add hr.wf.layered hs
    rw [hA.numVectors_eq, hA.MMax_eq, hA.efConstruction_eq] at hsmall
    exact (ih (by omega)).add hr.wf (by omega) hs
  | setEf _ _ ih => exact ih hsmall
  | clear _ => intro u hu; simp [HNSWIndex.clear] at hu

/-- HNSW is exact on small indexes: from every reachable state holding at most one vector more than
`M_max0_` and `ef_construction`, and for every query and `k`, the graph search returns the
distances of the brute-force search over the same vectors and kernel, under any two conforming
libraries and whatever `ef_search`. -/
theorem search_exact_small (S' : Stl) {b : VectorBatchInserter} (h : HNSWIndex.Reachable S s log)
    (hb : VectorBatchInserter.Reachable b (log.map (·.1))) (hdim : b.dimensions = s.dimensions)
    (hkernel : b.kernel = s.kernel) (hD : 0 < s.dimensions) (hq : q.length = s.dimensions)
    (hsmall : s.numVectors ≤ min s.MMax s.efConstruction + 1) (k : Nat) :
    ∃ res res', s.search S q k = .ok res ∧ b.search S' q k = .ok res' ∧
      res.map (·.2) = res'.map (·.2) :=
  search_exact_of_complete S' h hb hdim hkernel hD hq (h.completeLayer0 hsmall) k

end Complete

section Runs

attribute [local semireducible] Rat.add Rat.sub Rat.mul

set_option maxRecDepth 100000 in
theorem layer_connected_below_cap_triple :
    ∃ s log, HNSWIndex.Reachable Stl.sorting s log ∧ s.numVectors ≤ s.layerCap 0 + 1 ∧
      2 < s.numVectors ∧ 0 < s.numVectors ∧ 0 ≤ levelOf log 2 ∧ 0 ≤ levelOf log 0 ∧
      Relation.ReflTransGen (LayerEdge s.nodes 0) 2 0 := by
  obtain ⟨s, log, hr, hcap, hn⟩ : ∃ s log, HNSWIndex.Reachable Stl.sorting s log ∧
      s.numVectors ≤ s.layerCap 0 + 1 ∧ s.numVectors = 3 :=
    ⟨_, _, .add (v := [3]) (.add (v := [1]) (.add (v := [0])
      (.new 1 1000000 1 200 l2DistanceSimd) rfl) rfl) rfl, by decide, by decide⟩
  exact ⟨s, log, hr, hcap, by omega, by omega, Nat.zero_le _, Nat.zero_le _,
    layer_connected_below_cap hr hcap (by omega) (by omega) (Nat.zero_le _) (Nat.zero_le _)⟩

set_option maxRecDepth 100000 in
theorem search_exact_small_pair :
    ∃ s log, HNSWIndex.Reachable Stl.sorting s log ∧
      VectorBatchInserter.Reachable ⟨1, 2, [0, 1], l2DistanceSimd⟩ (log.map (·.1)) ∧
      (⟨1, 2, [0, 1], l2DistanceSimd⟩ : VectorBatchInserter).dimensions = s.dimensions ∧
      (⟨1, 2, [0, 1], l2DistanceSimd⟩ : VectorBatchInserter).kernel = s.kernel ∧ 0 < s.dimensions ∧
      ([0] : List ℚ).length = s.dimensions ∧ s.efSearch = 1 ∧
      s.numVectors ≤ min s.MMax s.efConstruction + 1 ∧
      ∃ res res', s.search Stl.sorting [0] 2 = .ok res ∧
        (⟨1, 2, [0, 1], l2DistanceSimd⟩ : VectorBatchInserter).search Stl.reversing [0] 2 = .ok res' ∧
        res.map (·.2) = res'.map (·.2) := by
  obtain ⟨s, log, hr, hk, hD, hq, hef, hsmall, hlog⟩ : ∃ s log,
      HNSWIndex.Reachable Stl.sorting s log ∧ l2DistanceSimd = s.kernel ∧ 0 < s.dimensions ∧
      ([0] : List ℚ).length = s.dimensions ∧ s.efSearch = 1 ∧
      s.numVectors ≤ min s.MMax s.efConstruction + 1 ∧ log.map (·.1) = [[0], [1]] :=
    ⟨_, _, .setEf 1 (.add (v := [1]) (.add (v := [0]) (.new 1 1000000 16 200 l2DistanceSimd) rfl)
      rfl), rfl, by decide, by decide, rfl, by decide, rfl⟩
  have hb : VectorBatchInserter.Reachable ⟨1, 2, [0, 1], l2DistanceSimd⟩ (log.map (·.1)) :=
    hlog ▸ .add (v := [1]) (.add (v := [0]) (.new 1 l2DistanceSimd) rfl) rfl
  exact ⟨s, log, hr, hb, hq, hk, hD, hq, hef, hsmall,
    search_exact_small Stl.reversing hr hb hq hk hD hq hsmall 2⟩

end Runs

end NexaDb.Native
