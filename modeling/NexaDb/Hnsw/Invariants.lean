import NexaDb.Hnsw.InsertLaws

/-! The invariant of every reachable index, against the log of what it has stored since the last
`clear`: the arena, the IDs, the layered graph and the entry point, kept by `add`, `set_ef` and
`clear`; and the cap on every neighbour list. -/

namespace NexaDb.Native

def levelOf (log : List (List ℚ × Nat)) (i : Nat) : Nat := ((log[i]?).map (·.2)).getD 0

theorem levelOf_append_lt {log : List (List ℚ × Nat)} {p : List ℚ × Nat} {i : Nat}
    (h : i < log.length) : levelOf (log ++ [p]) i = levelOf log i := by
  simp [levelOf, List.getElem?_append_left h]

@[simp] theorem levelOf_append_self {log : List (List ℚ × Nat)} {p : List ℚ × Nat} :
    levelOf (log ++ [p]) log.length = p.2 := by
  simp [levelOf]

section LinkedLists

variable {S : Stl} {key : Nat → Nat → ℚ} {M n x w : Nat} {G : Nat → List Nat} {ms : List Nat}

@[simp] theorem linkedLists_self : linkedLists S key M n G ms n = G n ++ ms := by
  simp [linkedLists]

theorem linkedLists_of_mem (hx : x ≠ n) (hm : x ∈ ms) :
    linkedLists S key M n G ms x = keepNearest S (key x) M (G x ++ [n]) := by
  simp [linkedLists, hx, hm]

theorem linkedLists_of_not_mem (hx : x ≠ n) (hm : x ∉ ms) : linkedLists S key M n G ms x = G x := by
  simp [linkedLists, hx, hm]

theorem mem_linkedLists (h : w ∈ linkedLists S key M n G ms x) :
    w ∈ G x ∨ (x = n ∧ w ∈ ms) ∨ (x ∈ ms ∧ w = n) := by
  unfold linkedLists at h
  split_ifs at h with hxn hxm
  · rcases List.mem_append.mp h with h | h
    · exact .inl (hxn ▸ h)
    · exact .inr (.inl ⟨hxn, h⟩)
  · rcases List.mem_append.mp (mem_of_mem_keepNearest h) with h | h
    · exact .inl h
    · exact .inr (.inr ⟨hxm, List.mem_singleton.mp h⟩)
  · exact .inl h

theorem nodup_linkedLists (hG : ∀ y, (G y).Nodup) (hfresh : ∀ y, n ∉ G y) (hGn : G n = [])
    (hms : ms.Nodup) : (linkedLists S key M n G ms x).Nodup := by
  unfold linkedLists
  split_ifs with hxn hxm
  · rwa [hGn, List.nil_append]
  · exact nodup_keepNearest (List.nodup_append.mpr ⟨hG x, List.nodup_singleton n,
      List.disjoint_singleton.mpr (hfresh x)⟩)
  · exact hG x

theorem length_linkedLists_le (hG : ∀ y, (G y).length ≤ M) (hGn : G n = [])
    (hms : ms.length ≤ M) : (linkedLists S key M n G ms x).length ≤ M := by
  unfold linkedLists
  split_ifs with hxn hxm
  · rwa [hGn, List.nil_append]
  · rw [length_keepNearest]
    exact min_le_right _ _
  · exact hG x

end LinkedLists

/-- The invariant of a reachable index whose log is `log`. -/
structure Wf (s : HNSWIndex) (log : List (List ℚ × Nat)) : Prop where
  numVectors_eq : s.numVectors = log.length
  data_eq : s.data = (log.map (·.1)).flatten
  rows : ∀ p ∈ log, p.1.length = s.dimensions
  ids : s.nodes.map (·.id) = List.range log.length
  level_lt : ∀ u < log.length, levelOf log u < layerCount s.nodes u
  edge : ∀ u L, ∀ w ∈ nbrs s.nodes u L,
    w < log.length ∧ w ≠ u ∧ L ≤ levelOf log u ∧ L ≤ levelOf log w
  nodup : ∀ u L, (nbrs s.nodes u L).Nodup
  empty : log = [] → s.maxLayer = 0
  entry : log ≠ [] → s.entryPoint < log.length ∧ levelOf log s.entryPoint = s.maxLayer ∧
    layerCount s.nodes s.entryPoint = s.maxLayer + 1 ∧
    (∀ i < log.length, levelOf log i ≤ s.maxLayer) ∧ ∀ i < s.entryPoint, levelOf log i < s.maxLayer

namespace Wf

variable {S : Stl} {s s' : HNSWIndex} {log : List (List ℚ × Nat)} {v : List ℚ}

theorem length_nodes (hw : Wf s log) : s.nodes.length = log.length := by
  simpa using congrArg List.length hw.ids

theorem rowsOf (hw : Wf s log) : RowsOf s.data s.dimensions s.numVectors (log.map (·.1)) := by
  rw [hw.data_eq, hw.numVectors_eq, ← List.length_map log (·.1)]
  exact RowsOf.flatten (by simpa using hw.rows)

theorem length_data (hw : Wf s log) : s.data.length = log.length * s.dimensions := by
  rw [hw.rowsOf.length_data, hw.numVectors_eq]

theorem nbrs_fresh (hw : Wf s log) (u L : Nat) : log.length ∉ nbrs s.nodes u L := fun h =>
  lt_irrefl _ (hw.edge u L _ h).1

theorem layered (hw : Wf s log) : Layered s (levelOf log) where
  length_nodes := by rw [hw.length_nodes, hw.numVectors_eq]
  length_data := by rw [hw.length_data, hw.numVectors_eq]
  layerOk L u hu := by
    rw [hw.numVectors_eq] at hu ⊢
    refine ⟨Nat.lt_of_le_of_lt hu.2 (hw.level_lt u hu.1), fun w hw' => ?_⟩
    obtain ⟨hlt, -, -, hL⟩ := hw.edge u L w hw'
    exact ⟨hlt, hL⟩
  entry hn := by
    rw [hw.numVectors_eq] at hn ⊢
    obtain ⟨hep, hlev, -⟩ := hw.entry (List.ne_nil_of_length_pos hn)
    exact ⟨hep, hlev.ge⟩

theorem init (s : HNSWIndex) (hn : s.numVectors = 0) (hd : s.data = []) (hnodes : s.nodes = [])
    (hmax : s.maxLayer = 0) : Wf s [] :=
  ⟨hn, hd, by simp, by simp [hnodes], by simp, by simp [hnodes, nbrs], by simp [hnodes, nbrs],
    fun _ => hmax, fun h => absurd rfl h⟩

theorem add (hw : Wf s log) (h : s.add S v = .ok s') : Wf s' (log ++ [(v, s.nextLevel)]) := by
  have hA := Added.of_add hw.layered h
  have hn := hw.numVectors_eq
  have hlen := hw.length_nodes
  have hGn : ∀ L, nbrs s.nodes s.numVectors L = [] := fun L =>
    nbrs_of_length_le (by rw [hlen, hn])
  have hold : ∀ {u L w}, w ∈ nbrs s.nodes u L → u < log.length := fun h' =>
    hlen ▸ lt_length_of_mem_nbrs h'
  refine ⟨by rw [hA.numVectors_eq, hn, List.length_append, List.length_singleton],
    by rw [hA.data_eq, hw.data_eq]; simp, fun p hp => ?_, ?_, fun u hu => ?_, fun u L w hw' => ?_,
    fun u L => ?_, fun h' => absurd h' (by simp), fun _ => ?_⟩
  · rw [hA.dimensions_eq]
    rcases List.mem_append.mp hp with hp | hp
    · exact hw.rows p hp
    · exact List.mem_singleton.mp hp ▸ hA.length_eq
  · rw [hA.ids, hw.ids, hn, List.length_append, List.length_singleton, List.range_succ]
  · rw [hA.layerCount_eq, layerCount_append_new, hlen]
    split_ifs with hu'
    · subst hu'
      simp only [levelOf_append_self]
      omega
    · rw [levelOf_append_lt (by simp at hu; omega)]
      exact hw.level_lt u (by simp at hu; omega)
  · obtain ⟨ms, hle, hpick, hnbrs⟩ := hA.linked L
    rw [hnbrs] at hw'
    rw [List.length_append, List.length_singleton]
    rcases mem_linkedLists hw' with h₁ | ⟨hu, h₂⟩ | ⟨h₃, hw₂⟩
    · obtain ⟨hwl, hne, hLu, hLw⟩ := hw.edge u L w h₁
      rw [levelOf_append_lt (hold h₁), levelOf_append_lt hwl]
      exact ⟨by omega, hne, hLu, hLw⟩
    · obtain ⟨hwn, hwL⟩ := hpick.upper w h₂
      rw [hu, hn, levelOf_append_self, levelOf_append_lt (hn ▸ hwn)]
      exact ⟨by omega, by omega, (hle (List.ne_nil_of_mem h₂)).1, hwL⟩
    · obtain ⟨hun, huL⟩ := hpick.upper u h₃
      rw [hw₂, hn, levelOf_append_self, levelOf_append_lt (hn ▸ hun)]
      exact ⟨by omega, by omega, huL, (hle (List.ne_nil_of_mem h₃)).1⟩
  · obtain ⟨ms, -, hpick, hnbrs⟩ := hA.linked L
    rw [hnbrs]
    exact nodup_linkedLists (hw.nodup · L) (fun y => hn ▸ hw.nbrs_fresh y L) (hGn L) hpick.nodup
  · rw [hA.entryPoint_eq, hA.maxLayer_eq, hA.layerCount_eq, layerCount_append_new, hlen,
      List.length_append, List.length_singleton]
    by_cases hprom : s.numVectors = 0 ∨ s.maxLayer < s.nextLevel
    · rw [if_pos hprom, if_pos hprom, hn, if_pos rfl, levelOf_append_self]
      have hmax : s.maxLayer ≤ s.nextLevel := by
        rcases hprom with h0 | hlt
        · rw [hw.empty (List.eq_nil_of_length_eq_zero (hn ▸ h0))]
          exact Nat.zero_le _
        · exact hlt.le
      refine ⟨by omega, rfl, by rw [Nat.max_eq_left hmax], fun i hi => ?_, fun i hi => ?_⟩
      · rcases Nat.lt_succ_iff_lt_or_eq.mp hi with hi | rfl
        · rw [levelOf_append_lt hi]
          exact ((hw.entry (List.ne_nil_of_length_pos (by omega))).2.2.2.1 i hi).trans hmax
        · simp
      · rw [levelOf_append_lt hi]
        rcases hprom with h0 | hlt
        · omega
        · exact Nat.lt_of_le_of_lt
            ((hw.entry (List.ne_nil_of_length_pos (by omega))).2.2.2.1 i hi) hlt
    · rw [if_neg hprom, if_neg hprom]
      rw [not_or] at hprom
      obtain ⟨hep, hlev, hcount, hall, hfirst⟩ :=
        hw.entry (List.ne_nil_of_length_pos (by omega))
      rw [if_neg (Nat.ne_of_lt hep)]
      refine ⟨by omega, by rw [levelOf_append_lt hep, hlev], hcount, fun i hi => ?_,
        fun i hi => by rw [levelOf_append_lt (by omega)]; exact hfirst i hi⟩
      rcases Nat.lt_succ_iff_lt_or_eq.mp hi with hi | rfl
      · rw [levelOf_append_lt hi]
        exact hall i hi
      · simpa using Nat.le_of_not_lt hprom.2

end Wf

theorem Wf.slice_eq {s : HNSWIndex} {log : List (List ℚ × Nat)} (hw : Wf s log) {i : Nat}
    (hi : i < log.length) : slice s.data s.dimensions i = log[i].1 := by
  rw [hw.rowsOf.slice_eq i (by simpa using hi), List.getElem_map]

def DegreeOk (s : HNSWIndex) : Prop := ∀ u L, (nbrs s.nodes u L).length ≤ s.layerCap L

theorem DegreeOk.add {S : Stl} {s s' : HNSWIndex} {log : List (List ℚ × Nat)} {v : List ℚ}
    (hw : Wf s log) (hd : DegreeOk s) (h : s.add S v = .ok s') : DegreeOk s' := fun u L => by
  have hA := Added.of_add hw.layered h
  obtain ⟨ms, -, hpick, hnbrs⟩ := hA.linked L
  rw [hnbrs, hA.layerCap_eq]
  exact length_linkedLists_le (hd · L)
    (nbrs_of_length_le (by rw [hw.length_nodes, hw.numVectors_eq])) hpick.length_le

namespace HNSWIndex

variable {S : Stl} {s s' : HNSWIndex} {log : List (List ℚ × Nat)}

theorem Reachable.wf (h : Reachable S s log) : Wf s log := by
  induction h with
  | new => exact Wf.init _ rfl rfl rfl rfl
  | add _ hs ih => exact ih.add hs
  | setEf _ _ ih => exact ⟨ih.1, ih.2, ih.3, ih.4, ih.5, ih.6, ih.7, ih.8, ih.9⟩
  | clear _ => exact Wf.init _ rfl rfl rfl rfl

theorem Reachable.degreeOk (h : Reachable S s log) : DegreeOk s := by
  induction h with
  | new => intro u L; simp [HNSWIndex.new, nbrs]
  | add hr hs ih => exact ih.add hr.wf hs
  | setEf _ _ ih => exact ih
  | clear _ => intro u L; simp [HNSWIndex.clear, nbrs]

theorem Reachable.MMax_eq (h : Reachable S s log) : s.MMax = s.M * 2 % 2 ^ 64 := by
  induction h with
  | new => rfl
  | add hr hs ih =>
    have hA := Added.of_add hr.wf.layered hs
    rw [hA.MMax_eq, hA.M_eq, ih]
  | setEf _ _ ih => exact ih
  | clear _ ih => exact ih

theorem Reachable.rng_wf (h : Reachable S s log) : s.rng.Wf := by
  induction h with
  | new => exact Mt19937.seed_wf 42
  | add hr hs ih =>
    rw [(Added.of_add hr.wf.layered hs).rng_eq, getRandomLevel_snd]
    exact ih.generateCanonical_lt.1
  | setEf _ _ ih => exact ih
  | clear _ ih => exact ih

theorem Reachable.add_ok (h : Reachable S s log) (hD : 0 < s.dimensions) {v : List ℚ}
    (hv : v.length = s.dimensions) : ∃ s', s.add S v = .ok s' := by
  rcases Nat.eq_zero_or_pos s.numVectors with h0 | hpos
  · obtain ⟨s', hs', -⟩ := add_first (S := S) h.wf.layered h0 hv
    exact ⟨s', hs'⟩
  · obtain ⟨s', hs', -⟩ := add_later (S := S) h.wf.layered hD hpos hv
    exact ⟨s', hs'⟩

theorem Reachable.clear_eq (h : Reachable S s log) :
    s.clear = { HNSWIndex.new s.dimensions s.maxElements s.M s.efConstruction with
      rng := s.rng, efSearch := s.efSearch, kernel := s.kernel } := by
  simp only [HNSWIndex.clear, HNSWIndex.new, ← h.MMax_eq]

set_option maxRecDepth 100000 in
/-- With `M = 1` and `D = 1`: `[0]` added to a fresh index draws level `0`; after that `add` and a
`clear`, the same `[0]` draws the generator's next level, `2`, and gets a three-layer node. -/
theorem clear_keeps_rng :
    ∃ s s', (HNSWIndex.new 1 1000000 1 200).add Stl.sorting [0] = .ok s ∧
      Reachable Stl.sorting s [([0], 0)] ∧ s.clear.add Stl.sorting [0] = .ok s' ∧
      s.maxLayer = 0 ∧ s'.maxLayer = 2 ∧ s.nodes ≠ s'.nodes :=
  ⟨_, _, rfl, .add (.new 1 1000000 1 200 l2DistanceSimd) rfl, rfl, rfl, rfl, by decide⟩

/-- `add_batch` is `add` in turn: whether it returns or throws, the state it leaves is one
`Reachable` reaches. -/
theorem Reachable.addBatch (h : Reachable S s log) : ∀ {vs : List (List ℚ)} {e : Error},
    s.addBatch S vs = .ok () s' ∨ s.addBatch S vs = .error e s' → ∃ log', Reachable S s' log' := by
  intro vs
  induction vs generalizing s log with
  | nil =>
    intro e hr
    simp only [HNSWIndex.addBatch, EStateM.Result.ok.injEq, true_and, reduceCtorEq, or_false] at hr
    exact ⟨log, hr ▸ h⟩
  | cons v vs ih =>
    intro e hr
    unfold HNSWIndex.addBatch at hr
    split at hr
    · exact ih (h.add ‹_›) hr
    · simp only [reduceCtorEq, EStateM.Result.error.injEq, false_or] at hr
      exact ⟨log, hr.2 ▸ h⟩

end HNSWIndex

/-- Every layer-0 list holds at most `M_max_ ≤ 2 M` IDs and every list above at most `M`, in
every reachable state. -/
theorem degree_bounded {S : Stl} {s : HNSWIndex} {log : List (List ℚ × Nat)}
    (h : HNSWIndex.Reachable S s log) (u : Nat) :
    (nbrs s.nodes u 0).length ≤ s.MMax ∧ s.MMax ≤ 2 * s.M ∧
      ∀ L, 0 < L → (nbrs s.nodes u L).length ≤ s.M := by
  have hd := h.degreeOk
  refine ⟨hd u 0, ?_, fun L hL => by simpa [HNSWIndex.layerCap, Nat.ne_of_gt hL] using hd u L⟩
  rw [h.MMax_eq, Nat.mul_comm]
  exact Nat.mod_le _ _

/-- The levels form the hierarchy of the construction: `max_layer_` is the largest level drawn
since the last `clear`, `entry_point_` the first node drawing it, and every layer-`L` edge joins
two nodes of level at least `L`, so a node's lists above its own level stay empty. -/
theorem levels_hierarchy {S : Stl} {s : HNSWIndex} {log : List (List ℚ × Nat)}
    (h : HNSWIndex.Reachable S s log) :
    (∀ i < log.length, levelOf log i ≤ s.maxLayer) ∧ (log = [] → s.maxLayer = 0) ∧
    (log ≠ [] → s.entryPoint < log.length ∧ levelOf log s.entryPoint = s.maxLayer ∧
      ∀ i < s.entryPoint, levelOf log i < s.maxLayer) ∧
    (∀ u L, ∀ w ∈ nbrs s.nodes u L, L ≤ levelOf log u ∧ L ≤ levelOf log w) ∧
    ∀ u L, levelOf log u < L → nbrs s.nodes u L = [] := by
  have hw := h.wf
  refine ⟨fun i hi => (hw.entry (List.ne_nil_of_length_pos (by omega))).2.2.2.1 i hi, hw.empty,
    fun hne => ?_, fun u L w hw' => (hw.edge u L w hw').2.2, fun u L hL => ?_⟩
  · obtain ⟨hep, hlev, -, -, hfirst⟩ := hw.entry hne
    exact ⟨hep, hlev, hfirst⟩
  · by_contra hne
    obtain ⟨w, hw'⟩ := List.exists_mem_of_ne_nil _ hne
    exact absurd (hw.edge u L w hw').2.2.1 (by omega)

/-- In every reachable state the generator holds `624` words of `32` bits, so the next `add`
draws `r = x / 2⁶⁴ < 1`; with `M ≥ 1` the level it draws is `⌊log_{2M}(1 / r)⌋` exactly, the
value `(int)(-log(r) * ml_)` has in exact arithmetic: `r · (2M)^L ≤ 1`, and `1 < r · (2M)^(L + 1)`
when `r > 0`. -/
theorem next_level_floor {S : Stl} {s : HNSWIndex} {log : List (List ℚ × Nat)}
    (h : HNSWIndex.Reachable S s log) :
    s.rng.Wf ∧ (generateCanonical s.rng).1 < 2 ^ 64 ∧
      (0 < s.M → (generateCanonical s.rng).1 * (2 * s.M) ^ s.nextLevel ≤ 2 ^ 64 ∧
        (0 < (generateCanonical s.rng).1 →
          2 ^ 64 < (generateCanonical s.rng).1 * (2 * s.M) ^ (s.nextLevel + 1))) :=
  have hx := h.rng_wf.generateCanonical_lt.2
  ⟨h.rng_wf, hx, fun hM => getRandomLevel_floor hM s.rng hx⟩

theorem next_level_floor_fresh :
    ∃ s, HNSWIndex.Reachable Stl.sorting s [] ∧ s.rng.Wf ∧ (generateCanonical s.rng).1 < 2 ^ 64 ∧
      (0 < s.M → (generateCanonical s.rng).1 * (2 * s.M) ^ s.nextLevel ≤ 2 ^ 64 ∧
        (0 < (generateCanonical s.rng).1 →
          2 ^ 64 < (generateCanonical s.rng).1 * (2 * s.M) ^ (s.nextLevel + 1))) :=
  ⟨_, .new 1 1000000 16 200 l2DistanceSimd, next_level_floor (S := Stl.sorting) (.new 1 1000000 16 200 l2DistanceSimd)⟩

section Runs

attribute [local semireducible] Rat.add Rat.sub Rat.mul

set_option maxRecDepth 100000 in
theorem degree_bounded_outlier :
    ∃ s log, HNSWIndex.Reachable Stl.sorting s log ∧ (nbrs s.nodes 2 0).length = 2 ∧
      (nbrs s.nodes 2 0).length ≤ s.MMax ∧ s.MMax ≤ 2 * s.M ∧
      ∀ L, 0 < L → (nbrs s.nodes 2 L).length ≤ s.M := by
  obtain ⟨s, log, hr, h⟩ : ∃ s log, HNSWIndex.Reachable Stl.sorting s log ∧
      (nbrs s.nodes 2 0).length = 2 :=
    ⟨_, _, .add (v := [7]) (.add (v := [3]) (.add (v := [1]) (.add (v := [0])
      (.new 1 1000000 1 200 l2DistanceSimd) rfl) rfl) rfl) rfl, by decide⟩
  exact ⟨s, log, hr, h, degree_bounded hr 2⟩

set_option maxRecDepth 100000 in
theorem levels_hierarchy_outlier :
    ∃ s log, HNSWIndex.Reachable Stl.sorting s log ∧ log.map (·.2) = [0, 2, 0, 0] ∧
      s.entryPoint = 1 ∧
      (∀ i < log.length, levelOf log i ≤ s.maxLayer) ∧ (log = [] → s.maxLayer = 0) ∧
      (log ≠ [] → s.entryPoint < log.length ∧ levelOf log s.entryPoint = s.maxLayer ∧
        ∀ i < s.entryPoint, levelOf log i < s.maxLayer) ∧
      (∀ u L, ∀ w ∈ nbrs s.nodes u L, L ≤ levelOf log u ∧ L ≤ levelOf log w) ∧
      ∀ u L, levelOf log u < L → nbrs s.nodes u L = [] := by
  obtain ⟨s, log, hr, h₁, h₂⟩ : ∃ s log, HNSWIndex.Reachable Stl.sorting s log ∧
      log.map (·.2) = [0, 2, 0, 0] ∧ s.entryPoint = 1 :=
    ⟨_, _, .add (v := [7]) (.add (v := [3]) (.add (v := [1]) (.add (v := [0])
      (.new 1 1000000 1 200 l2DistanceSimd) rfl) rfl) rfl) rfl, by decide, by decide⟩
  exact ⟨s, log, hr, h₁, h₂, levels_hierarchy hr⟩

end Runs

end NexaDb.Native
