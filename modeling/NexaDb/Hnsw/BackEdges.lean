import NexaDb.Hnsw.Invariants

/-! What one `add` does to the lists of the nodes already stored, and back-edges. `add` links both
ways; a reverse edge goes missing only when a prune drops it, and that leaves the list full of
neighbours no farther than the one dropped. Later insertions keep the justification: a full list
that gains the new node and is cut back stays full, and its worst distance does not grow. -/

namespace NexaDb.Native

/-- What one `add` of `v` to `s` leaves in `s'`, with `n = numVectors`: the arena gains `v` behind
its old rows; `n` has lists only at layers up to `min nextLevel maxLayer`; an old node `n` does
not list at `L` keeps its list there, and one it lists gains `n`, cut back past the cap `M_L` to
`M_L` entries of `old ++ [n]`, dropping none nearer to it than one it keeps. -/
structure AddFrame (s : HNSWIndex) (v : List ℚ) (s' : HNSWIndex) : Prop where
  data_eq : s'.data = s.data ++ v
  own : ∀ L, nbrs s'.nodes s.numVectors L ≠ [] → L ≤ min s.nextLevel s.maxLayer
  unlisted : ∀ L, ∀ u < s.numVectors, u ∉ nbrs s'.nodes s.numVectors L →
    nbrs s'.nodes u L = nbrs s.nodes u L
  listed : ∀ L, ∀ u < s.numVectors, u ∈ nbrs s'.nodes s.numVectors L →
    (nbrs s.nodes u L).length + 1 ≤ s.layerCap L ∧
        nbrs s'.nodes u L = nbrs s.nodes u L ++ [s.numVectors] ∨
      s.layerCap L < (nbrs s.nodes u L).length + 1 ∧ (nbrs s'.nodes u L).length = s.layerCap L ∧
        (nbrs s'.nodes u L).Subperm (nbrs s.nodes u L ++ [s.numVectors]) ∧
        ∀ x ∈ nbrs s.nodes u L ++ [s.numVectors], x ∉ nbrs s'.nodes u L →
          ∀ y ∈ nbrs s'.nodes u L, s'.dist u y ≤ s'.dist u x

/-- Every missing back-edge is justified by a full list of nodes no farther away. -/
def BackEdgesOk (s : HNSWIndex) : Prop :=
  ∀ u w L, w ∈ nbrs s.nodes u L → u ∉ nbrs s.nodes w L →
    (nbrs s.nodes w L).length = s.layerCap L ∧ ∀ x ∈ nbrs s.nodes w L, s.dist w x ≤ s.dist w u

/-- A node whose level reaches `L` lists some node at `L` once another node's level reaches `L`
too: no node is alone on a layer it shares. -/
def NoIsolated (s : HNSWIndex) (log : List (List ℚ × Nat)) : Prop :=
  ∀ u L, u < log.length → L ≤ levelOf log u →
    (∃ w < log.length, w ≠ u ∧ L ≤ levelOf log w) → nbrs s.nodes u L ≠ []

section

variable {S : Stl} {s s' : HNSWIndex} {log : List (List ℚ × Nat)} {v : List ℚ}

theorem Wf.dist_of_add (hw : Wf s log) (hA : Added S (levelOf log) s v s') {a b : Nat}
    (ha : a < log.length) (hb : b < log.length) : s'.dist a b = s.dist a b := by
  have hlen : s.data.length = log.length * s.dimensions := hw.length_data
  simp only [HNSWIndex.dist, hA.data_eq, hA.dimensions_eq, hA.kernel_eq, slice_append_of_lt hlen ha,
    slice_append_of_lt hlen hb]

theorem Wf.nodup_nbrs_append_new (hw : Wf s log) (u L : Nat) :
    (nbrs s.nodes u L ++ [s.numVectors]).Nodup :=
  List.nodup_append.mpr ⟨hw.nodup u L, List.nodup_singleton _,
    List.disjoint_singleton.mpr (hw.numVectors_eq ▸ hw.nbrs_fresh u L)⟩

theorem BackEdgesOk.add (hw : Wf s log) (hb : BackEdgesOk s) (h : s.add S v = .ok s') :
    BackEdgesOk s' := by
  have hA := Added.of_add hw.layered h
  have hn := hw.numVectors_eq
  intro u w L hwu hnot
  obtain ⟨ms, -, hpick, hnbrs⟩ := hA.linked L
  rw [hA.layerCap_eq]
  simp only [hnbrs] at hwu hnot ⊢
  rcases mem_linkedLists hwu with h₁ | ⟨hu, h₂⟩ | ⟨h₃, hw₂⟩
  · have hul := hw.length_nodes ▸ lt_length_of_mem_nbrs h₁
    have hwl := (hw.edge u L w h₁).1
    have hwn : w ≠ s.numVectors := by omega
    have hnear : ∀ x ∈ nbrs s.nodes w L, s.dist w x ≤ s.dist w u →
        s'.dist w x ≤ s'.dist w u := fun x hx hle => by
      rwa [hw.dist_of_add hA hwl (hw.edge w L x hx).1, hw.dist_of_add hA hwl hul]
    by_cases hwm : w ∈ ms
    · rw [linkedLists_of_mem hwn hwm] at hnot ⊢
      by_cases hu : u ∈ nbrs s.nodes w L
      · exact keepNearest_of_dropped (List.mem_append_left _ hu) hnot
      · obtain ⟨hlen, hall⟩ := hb u w L h₁ hu
        exact keepNearest_bounded (hw.nodup_nbrs_append_new w L) hlen
          fun y hy => hnear y hy (hall y hy)
    · rw [linkedLists_of_not_mem hwn hwm] at hnot ⊢
      obtain ⟨hlen, hall⟩ := hb u w L h₁ hnot
      exact ⟨hlen, fun x hx => hnear x hx (hall x hx)⟩
  · have hwn : w ≠ s.numVectors := Nat.ne_of_lt (hpick.upper w h₂).1
    rw [linkedLists_of_mem hwn h₂] at hnot ⊢
    exact keepNearest_of_dropped (List.mem_append_right _ (hu ▸ List.mem_singleton_self _)) hnot
  · rw [hw₂, linkedLists_self, nbrs_of_length_le (by rw [hw.length_nodes, hn]),
      List.nil_append] at hnot
    exact absurd h₃ hnot

theorem Wf.addFrame (hw : Wf s log) (hA : Added S (levelOf log) s v s') : AddFrame s v s' := by
  have hn := hw.numVectors_eq
  have hGn : ∀ L, nbrs s.nodes s.numVectors L = [] := fun L =>
    nbrs_of_length_le (by rw [hw.length_nodes, hn])
  have hself : ∀ L, ∃ ms, nbrs s'.nodes s.numVectors L = ms ∧
      (ms ≠ [] → L ≤ s.nextLevel ∧ L ≤ s.maxLayer) ∧ ∀ u, u ≠ s.numVectors →
        nbrs s'.nodes u L = if u ∈ ms then
          keepNearest S (s'.dist u) (s.layerCap L) (nbrs s.nodes u L ++ [s.numVectors])
        else nbrs s.nodes u L := fun L => by
    obtain ⟨ms, hms, -, hnbrs⟩ := hA.linked L
    refine ⟨ms, by rw [hnbrs, linkedLists_self, hGn, List.nil_append], hms, fun u hu => ?_⟩
    rw [hnbrs]
    split_ifs with hm
    · exact linkedLists_of_mem hu hm
    · exact linkedLists_of_not_mem hu hm
  refine ⟨hA.data_eq, fun L hne => ?_, fun L u hu hm => ?_, fun L u hu hm => ?_⟩
  · obtain ⟨ms, rfl, hms, -⟩ := hself L
    exact le_min (hms hne).1 (hms hne).2
  · obtain ⟨ms, rfl, -, hu'⟩ := hself L
    rw [hu' u (Nat.ne_of_lt hu), if_neg hm]
  · obtain ⟨ms, rfl, -, hu'⟩ := hself L
    rw [hu' u (Nat.ne_of_lt hu), if_pos hm]
    by_cases hle : (nbrs s.nodes u L).length + 1 ≤ s.layerCap L
    · exact .inl ⟨hle, by simp [keepNearest, hle]⟩
    · refine .inr ⟨by omega, by simp [length_keepNearest]; omega,
        List.subperm_of_subset (nodup_keepNearest (hw.nodup_nbrs_append_new u L)) fun x hx => mem_of_mem_keepNearest hx,
        fun x hx hx' y hy => keepNearest_le hx hx' hy⟩

theorem NoIsolated.add (hw : Wf s log) (hi : NoIsolated s log) (hcap : ∀ L, 0 < s.layerCap L)
    (h : s.add S v = .ok s') : NoIsolated s' (log ++ [(v, s.nextLevel)]) := by
  have hA := Added.of_add hw.layered h
  have hn := hw.numVectors_eq
  intro u L hu hLu ⟨w, hw', hwu, hLw⟩
  simp only [List.length_append, List.length_singleton] at hu hw'
  obtain ⟨ms, -, hpick, hnbrs⟩ := hA.linked L
  have hGn : nbrs s.nodes s.numVectors L = [] := nbrs_of_length_le (by rw [hw.length_nodes, hn])
  have hmax : ∀ i < log.length, levelOf log i ≤ s.maxLayer := fun i hi =>
    (hw.entry (List.ne_nil_of_length_pos (by omega))).2.2.2.1 i hi
  -- the new node lists the nodes it picks, and picks some at a layer an old node reaches
  have hnew : ∀ i < log.length, L ≤ levelOf log i → L ≤ s.nextLevel →
      nbrs s'.nodes s.numVectors L ≠ [] := fun i hi hLi hLn =>
    hA.picks L (by omega) hLn (hLi.trans (hmax i hi)) (hcap L)
  rcases Nat.lt_succ_iff_lt_or_eq.mp hu with hu | rfl
  · rw [levelOf_append_lt hu] at hLu
    rw [hnbrs, linkedLists, if_neg (by omega)]
    split_ifs with hum
    · exact keepNearest_ne_nil (hcap L) (by simp)
    intro hGu
    -- `u` listed nothing, so no other old node reached `L`: the other is the new node
    have hno : ¬∃ w < log.length, w ≠ u ∧ L ≤ levelOf log w := fun hex => hi u L hu hLu hex hGu
    rcases Nat.lt_succ_iff_lt_or_eq.mp hw' with hw' | rfl
    · exact hno ⟨w, hw', hwu, by rwa [levelOf_append_lt hw'] at hLw⟩
    rw [levelOf_append_self] at hLw
    have hms := hnew u hu hLu hLw
    rw [hnbrs, linkedLists, if_pos rfl, hGn, List.nil_append] at hms
    obtain ⟨m, hm⟩ := List.exists_mem_of_ne_nil _ hms
    obtain ⟨hmn, hLm⟩ := hpick.upper m hm
    rcases eq_or_ne m u with rfl | hmu
    · exact hum hm
    · exact hno ⟨m, hn ▸ hmn, hmu, hLm⟩
  · rw [levelOf_append_self] at hLu
    have hw'' : w < log.length := by omega
    rw [levelOf_append_lt hw''] at hLw
    exact hn ▸ hnew w hw'' hLw hLu

theorem HNSWIndex.Reachable.noIsolated (h : HNSWIndex.Reachable S s log)
    (hcap : ∀ L, 0 < s.layerCap L) : NoIsolated s log := by
  induction h with
  | new => intro u L hu; simp at hu
  | add hr hs ih =>
    have hA := Added.of_add hr.wf.layered hs
    exact (ih (hA.layerCap_eq ▸ hcap)).add hr.wf (hA.layerCap_eq ▸ hcap) hs
  | setEf _ _ ih => exact ih hcap
  | clear _ => intro u L hu; simp at hu

theorem HNSWIndex.Reachable.backEdgesOk (h : HNSWIndex.Reachable S s log) : BackEdgesOk s := by
  induction h with
  | new => intro u w L hw; simp [HNSWIndex.new, nbrs] at hw
  | add hr hs ih => exact ih.add hr.wf hs
  | setEf _ _ ih => exact ih
  | clear _ => intro u w L hw; simp [HNSWIndex.clear, nbrs] at hw

end

/-- Wherever `u` lists `w` but `w` does not list `u`, `w`'s list has exactly `M_L` entries, each
no farther from `w` than `u` is, in every reachable state. -/
theorem back_edge_justified {S : Stl} {s : HNSWIndex} {log : List (List ℚ × Nat)}
    (h : HNSWIndex.Reachable S s log) {u w L : Nat} (hw : w ∈ nbrs s.nodes u L)
    (hu : u ∉ nbrs s.nodes w L) :
    (nbrs s.nodes w L).length = s.layerCap L ∧ ∀ x ∈ nbrs s.nodes w L, s.dist w x ≤ s.dist w u :=
  h.backEdgesOk u w L hw hu

/-- From a reachable state with `dimensions ≥ 1` or no vector stored, an `add` whose vector has the
right length returns, and does what `AddFrame` says. -/
theorem add_frame {S : Stl} {s : HNSWIndex} {log : List (List ℚ × Nat)}
    (h : HNSWIndex.Reachable S s log) (hD : 0 < s.dimensions ∨ s.numVectors = 0) {v : List ℚ}
    (hv : v.length = s.dimensions) : ∃ s', s.add S v = .ok s' ∧ AddFrame s v s' := by
  have hw := h.wf
  obtain ⟨s', hs'⟩ : ∃ s', s.add S v = .ok s' := by
    rcases hD with hD | hn
    · exact h.add_ok hD hv
    · obtain ⟨s', hs', -⟩ := add_first (S := S) hw.layered hn hv
      exact ⟨s', hs'⟩
  exact ⟨s', hs', hw.addFrame (Added.of_add hw.layered hs')⟩

/-- With `M ≥ 1` and `M_max_ ≥ 1`, in every reachable state a node whose level reaches `L` lists
some node at layer `L` whenever another node's level reaches `L` too. -/
theorem no_isolated_node {S : Stl} {s : HNSWIndex} {log : List (List ℚ × Nat)}
    (h : HNSWIndex.Reachable S s log) (hM : 0 < s.M) (hMMax : 0 < s.MMax) {u L : Nat}
    (hu : u < s.numVectors) (hL : L ≤ levelOf log u)
    (hother : ∃ w < s.numVectors, w ≠ u ∧ L ≤ levelOf log w) : nbrs s.nodes u L ≠ [] := by
  have hn := h.wf.numVectors_eq
  refine h.noIsolated (fun L => ?_) u L (hn ▸ hu) hL (hn ▸ hother)
  unfold HNSWIndex.layerCap
  split <;> assumption

section

attribute [local semireducible] Rat.add Rat.sub Rat.mul

set_option maxRecDepth 100000 in
theorem add_frame_prunes :
    ∃ s log, HNSWIndex.Reachable Stl.sorting s log ∧ (0 < s.dimensions ∨ s.numVectors = 0) ∧
      ([7] : List ℚ).length = s.dimensions ∧
      ∃ s', s.add Stl.sorting [7] = .ok s' ∧ AddFrame s [7] s' ∧
        2 ∈ nbrs s'.nodes s.numVectors 0 ∧ s.layerCap 0 < (nbrs s.nodes 2 0).length + 1 := by
  obtain ⟨s, log, hr, ⟨hD, hv, hfull⟩, t, ht, hlist⟩ : ∃ s log,
      HNSWIndex.Reachable Stl.sorting s log ∧ (0 < s.dimensions ∧
        ([7] : List ℚ).length = s.dimensions ∧ s.layerCap 0 < (nbrs s.nodes 2 0).length + 1) ∧
      ∃ t, s.add Stl.sorting [7] = .ok t ∧ 2 ∈ nbrs t.nodes s.numVectors 0 :=
    ⟨_, _, .add (v := [3]) (.add (v := [1]) (.add (v := [0])
      (.new 1 1000000 1 200 l2DistanceSimd) rfl) rfl) rfl, by decide, _, rfl, by decide⟩
  obtain ⟨s', hs', hframe⟩ := add_frame hr (.inl hD) hv
  obtain rfl : s' = t := by simpa [ht] using hs'.symm
  exact ⟨s, log, hr, .inl hD, hv, s', hs', hframe, hlist, hfull⟩

set_option maxRecDepth 100000 in
theorem add_frame_zero_dimensions :
    ∃ s log, HNSWIndex.Reachable Stl.sorting s log ∧ s.dimensions = 0 ∧ s.numVectors = 1 ∧
      ∀ S : Stl, s.add S [] = .error .outOfRange :=
  ⟨_, _, .add (v := []) (.new 0 1000000 16 200 l2DistanceSimd) rfl, rfl, rfl, fun _ => rfl⟩

set_option maxRecDepth 100000 in
theorem back_edge_justified_outlier :
    ∃ s log, HNSWIndex.Reachable Stl.sorting s log ∧ 2 ∈ nbrs s.nodes 3 0 ∧ 3 ∉ nbrs s.nodes 2 0 ∧
      (nbrs s.nodes 2 0).length = s.layerCap 0 ∧ ∀ x ∈ nbrs s.nodes 2 0, s.dist 2 x ≤ s.dist 2 3 := by
  obtain ⟨s, log, hr, h₁, h₂⟩ : ∃ s log, HNSWIndex.Reachable Stl.sorting s log ∧
      2 ∈ nbrs s.nodes 3 0 ∧ 3 ∉ nbrs s.nodes 2 0 :=
    ⟨_, _, .add (v := [7]) (.add (v := [3]) (.add (v := [1]) (.add (v := [0])
      (.new 1 1000000 1 200 l2DistanceSimd) rfl) rfl) rfl) rfl, by decide, by decide⟩
  exact ⟨s, log, hr, h₁, h₂, back_edge_justified hr h₁ h₂⟩

set_option maxRecDepth 100000 in
theorem no_isolated_node_outlier :
    ∃ s log, HNSWIndex.Reachable Stl.sorting s log ∧ 0 < s.M ∧ 0 < s.MMax ∧ 3 < s.numVectors ∧
      0 ≤ levelOf log 3 ∧ (∃ w < s.numVectors, w ≠ 3 ∧ 0 ≤ levelOf log w) ∧
      nbrs s.nodes 3 0 ≠ [] := by
  obtain ⟨s, log, hr, hM, hMMax, hn⟩ : ∃ s log, HNSWIndex.Reachable Stl.sorting s log ∧
      0 < s.M ∧ 0 < s.MMax ∧ s.numVectors = 4 :=
    ⟨_, _, .add (v := [7]) (.add (v := [3]) (.add (v := [1]) (.add (v := [0])
      (.new 1 1000000 1 200 l2DistanceSimd) rfl) rfl) rfl) rfl, by decide, by decide, by decide⟩
  have hother : ∃ w < s.numVectors, w ≠ 3 ∧ 0 ≤ levelOf log w :=
    ⟨0, by omega, by decide, Nat.zero_le _⟩
  exact ⟨s, log, hr, hM, hMMax, by omega, Nat.zero_le _, hother,
    no_isolated_node hr hM hMMax (by omega) (Nat.zero_le _) hother⟩

end

end NexaDb.Native
