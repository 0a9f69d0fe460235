import NexaDb.Hnsw.Index

/-! The `while` loop of `search_layer`: one invariant, kept by every neighbour visit and every
round, gives what the returned beam is. -/

namespace NexaDb.Native

open SearchCandidate (far near)

section PushBounded

variable {S : Stl} {ef : Nat} {W : List SearchCandidate} {x y : SearchCandidate}

theorem pushBounded_isHeap (h : IsHeap far W) : IsHeap far (pushBounded S ef W x) := by
  simp only [pushBounded]
  split
  · exact Stl.pop_isHeap (Stl.push_isHeap x h)
  · exact Stl.push_isHeap x h

theorem pushBounded_cases (h : IsHeap far W) :
    (pushBounded S ef W x).Perm (x :: W) ∧ W.length + 1 ≤ ef ∨
      ∃ t, (S.push far W x).Perm (x :: W) ∧ (pushBounded S ef W x).Perm t ∧ ef < W.length + 1 ∧
        ∃ hd, S.push far W x = hd :: t ∧ ∀ z ∈ t, z.distance ≤ hd.distance := by
  simp only [pushBounded]
  have hp := Stl.push_perm (S := S) x h
  split
  · rename_i hlt
    obtain ⟨hd, t, ht⟩ := List.exists_cons_of_ne_nil (Stl.push_ne_nil (S := S) x h)
    have hh := Stl.push_isHeap (S := S) x h
    rw [ht] at hh hlt ⊢
    exact .inr ⟨t, ht ▸ hp, Stl.pop_perm hh, by simpa [← ht, h] using hlt, hd, rfl,
      fun z hz => hh.le_head z hz⟩
  · rename_i hle
    exact .inl ⟨hp, by simpa [h] using hle⟩

theorem mem_pushBounded (h : IsHeap far W) (hy : y ∈ pushBounded S ef W x) : y = x ∨ y ∈ W := by
  rcases pushBounded_cases h with ⟨hp, -⟩ | ⟨t, hp, hq, -, hd, ht, -⟩
  · exact List.mem_cons.mp (hp.subset hy)
  · exact List.mem_cons.mp (hp.subset (ht ▸ List.mem_cons_of_mem hd (hq.subset hy)))

theorem pushBounded_dropped (h : IsHeap far W) (hy : y = x ∨ y ∈ W)
    (hn : y ∉ pushBounded S ef W x) : ∀ z ∈ pushBounded S ef W x, z.distance ≤ y.distance := by
  rcases pushBounded_cases h with ⟨hp, -⟩ | ⟨t, hp, hq, -, hd, ht, hle⟩
  · exact absurd (hp.symm.subset (List.mem_cons.mpr hy)) hn
  · have : y ∈ hd :: t := ht ▸ hp.symm.subset (List.mem_cons.mpr hy)
    rcases List.mem_cons.mp this with rfl | hyt
    · exact fun z hz => hle z (hq.subset hz)
    · exact absurd (hq.symm.subset hyt) hn

theorem length_pushBounded (h : IsHeap far W) :
    (pushBounded S ef W x).length = if ef < W.length + 1 then W.length else W.length + 1 := by
  rcases pushBounded_cases h with ⟨hp, hle⟩ | ⟨t, hp, hq, hlt, hd, ht, -⟩
  · rw [hp.length_eq, if_neg (by omega)]; rfl
  · rw [hq.length_eq, if_pos hlt]
    simpa [ht] using hp.length_eq

theorem pushBounded_ne_nil (h : IsHeap far W) (hW : W ≠ []) : pushBounded S ef W x ≠ [] := by
  have := @length_pushBounded S ef _ x h
  have := List.length_pos.mpr hW
  exact List.ne_nil_of_length_pos (by split at * <;> omega)

theorem nodup_pushBounded (h : IsHeap far W) (hW : (W.map (·.id)).Nodup) (hx : x.id ∉ W.map (·.id)) :
    ((pushBounded S ef W x).map (·.id)).Nodup := by
  have hxW : ((x :: W).map (·.id)).Nodup := List.nodup_cons.mpr ⟨hx, hW⟩
  rcases pushBounded_cases h with ⟨hp, -⟩ | ⟨t, hp, hq, -, hd, ht, -⟩
  · exact (hp.map _).nodup_iff.mpr hxW
  · rw [ht] at hp
    exact (hq.map _).nodup_iff.mpr (List.nodup_cons.mp ((hp.map _).nodup_iff.mpr hxW)).2

end PushBounded

section SearchLoop

variable (S : Stl) (nbrsOf : Nat → Except Error (List Nat)) (dist : Nat → Except Error ℚ)
  (ef : Nat) (P : Nat → Prop) (δ₀ : ℚ)

def Expanded (u : Nat) (visited : List Nat) : Prop :=
  ∃ l, nbrsOf u = .ok l ∧ ∀ n ∈ l, n ∈ visited

/-- `P` holds only of nodes whose distance and neighbour list can be read, and is closed under
the layer's edges. -/
def Closed : Prop :=
  ∀ v, P v → (∃ δ, dist v = .ok δ) ∧ ∃ l, nbrsOf v = .ok l ∧ ∀ n ∈ l, P n

/-- Pending candidates plus the IDs of `U` not yet visited: each round lowers it. -/
def LayerSearch.measure (U : List Nat) (st : LayerSearch) : Nat :=
  st.candidates.length + (U.filter (· ∉ st.visited)).length

/-- The loop invariant; `pend` are nodes whose expansion is under way. -/
structure LoopInv (pend : List Nat) (st : LayerSearch) : Prop where
  heapC : IsHeap near st.candidates
  heapW : IsHeap far st.W
  W_ne : st.W ≠ []
  memC : ∀ c ∈ st.candidates, c.id ∈ st.visited ∧ dist c.id = .ok c.distance
  memW : ∀ c ∈ st.W, c.id ∈ st.visited ∧ dist c.id = .ok c.distance
  nodupC : (st.candidates.map (·.id)).Nodup
  nodupW : (st.W.map (·.id)).Nodup
  nodupV : st.visited.Nodup
  visited : ∀ v ∈ st.visited, P v ∧ ∃ δ, dist v = .ok δ ∧
    (v ∉ st.W.map (·.id) → ∀ w ∈ st.W, w.distance ≤ δ)
  expanded : ∀ w ∈ st.W,
    w.id ∈ st.candidates.map (·.id) ∨ w.id ∈ pend ∨ Expanded nbrsOf w.id st.visited
  small : st.W.length < ef → ∀ v ∈ st.visited, v ∈ st.W.map (·.id)
  bounded : st.W.length ≤ max ef 1
  nearEntry : ∃ w ∈ st.W, w.distance ≤ δ₀

/-- The beam `search_layer` returns, against the list `V` of the nodes it visited. -/
structure Beam (V : List Nat) (res : List SearchCandidate) : Prop where
  ne_nil : res ≠ []
  nodup : (res.map (·.id)).Nodup
  sorted : res.Sorted (fun a b => a.distance ≤ b.distance)
  mem : ∀ c ∈ res, c.id ∈ V ∧ dist c.id = .ok c.distance
  nodupV : V.Nodup
  visited : ∀ v ∈ V, P v ∧ ∃ δ, dist v = .ok δ ∧ (v ∉ res.map (·.id) → ∀ c ∈ res, c.distance ≤ δ)
  expanded : ∀ c ∈ res, Expanded nbrsOf c.id V
  small : res.length < ef → ∀ v ∈ V, v ∈ res.map (·.id)
  bounded : res.length ≤ max ef 1
  nearEntry : ∃ c ∈ res, c.distance ≤ δ₀

variable {S nbrsOf dist ef P δ₀}

theorem Expanded.mono {u : Nat} {V V' : List Nat} (h : Expanded nbrsOf u V) (hV : V ⊆ V') :
    Expanded nbrsOf u V' :=
  let ⟨l, hl, hsub⟩ := h
  ⟨l, hl, fun n hn => hV (hsub n hn)⟩

theorem visit_eq_ok {st st' : LayerSearch} {n : Nat} (h : visit S dist ef st n = .ok st') :
    n ∈ st.visited ∧ st' = st ∨
      ∃ δ w W₀, n ∉ st.visited ∧ dist n = .ok δ ∧ st.W = w :: W₀ ∧
        ((δ < w.distance ∨ st.W.length < ef) ∧ st' = ⟨n :: st.visited,
            S.push near st.candidates ⟨n, δ⟩, pushBounded S ef st.W ⟨n, δ⟩⟩ ∨
          ¬(δ < w.distance ∨ st.W.length < ef) ∧ st' = { st with visited := n :: st.visited }) := by
  unfold visit at h
  by_cases hn : n ∈ st.visited
  · rw [if_pos hn] at h
    exact .inl ⟨hn, (Except.ok.inj h).symm⟩
  · rw [if_neg hn] at h
    obtain ⟨δ, hδ, h⟩ := bind_eq_ok.mp h
    obtain ⟨w, hw, h⟩ := bind_eq_ok.mp h
    obtain ⟨W₀, hW⟩ : ∃ W₀, st.W = w :: W₀ := by
      cases hc : st.W <;> simp_all [top]
    refine .inr ⟨δ, w, W₀, hn, hδ, hW, ?_⟩
    split at h
    · exact .inl ⟨‹_›, (Except.ok.inj h).symm⟩
    · exact .inr ⟨‹_›, (Except.ok.inj h).symm⟩

theorem LoopInv.le_head {pend : List Nat} {st : LayerSearch} {w : SearchCandidate}
    {W₀ : List SearchCandidate} (hi : LoopInv nbrsOf dist ef P δ₀ pend st) (hW : st.W = w :: W₀) :
    ∀ z ∈ st.W, z.distance ≤ w.distance := by
  have h := hi.heapW
  rw [hW] at h ⊢
  intro z hz
  rcases List.mem_cons.mp hz with rfl | hz
  · exact le_rfl
  · exact h.le_head z hz

theorem LoopInv.discard {pend : List Nat} {st : LayerSearch} {n : Nat} {δ : ℚ}
    {w : SearchCandidate} {W₀ : List SearchCandidate} (hi : LoopInv nbrsOf dist ef P δ₀ pend st)
    (hP : P n) (hn : n ∉ st.visited) (hδ : dist n = .ok δ) (hW : st.W = w :: W₀)
    (hcond : ¬(δ < w.distance ∨ st.W.length < ef)) :
    LoopInv nbrsOf dist ef P δ₀ pend { st with visited := n :: st.visited } := by
  simp only [not_or, not_lt] at hcond
  refine { hi with
    memC := fun c hc => ⟨List.mem_cons_of_mem _ (hi.memC c hc).1, (hi.memC c hc).2⟩
    memW := fun c hc => ⟨List.mem_cons_of_mem _ (hi.memW c hc).1, (hi.memW c hc).2⟩
    nodupV := List.nodup_cons.mpr ⟨hn, hi.nodupV⟩
    visited := ?_
    expanded := fun z hz => (hi.expanded z hz).imp_right
      (Or.imp_right fun he => he.mono (List.subset_cons_self _ _))
    small := fun h => absurd (show st.W.length < ef from h) (by omega) }
  intro v hv
  rcases List.mem_cons.mp hv with rfl | hv
  · exact ⟨hP, δ, hδ, fun _ z hz => (hi.le_head hW z hz).trans hcond.1⟩
  · exact hi.visited v hv

theorem LoopInv.enqueue {pend : List Nat} {st : LayerSearch} {n : Nat} {δ : ℚ}
    {w : SearchCandidate} {W₀ : List SearchCandidate} (hi : LoopInv nbrsOf dist ef P δ₀ pend st)
    (hP : P n) (hn : n ∉ st.visited) (hδ : dist n = .ok δ) (hW : st.W = w :: W₀)
    (hcond : δ < w.distance ∨ st.W.length < ef) :
    LoopInv nbrsOf dist ef P δ₀ pend
      ⟨n :: st.visited, S.push near st.candidates ⟨n, δ⟩, pushBounded S ef st.W ⟨n, δ⟩⟩ := by
  have hC := hi.heapC
  have hHW := hi.heapW
  have nC : n ∉ st.candidates.map (·.id) := fun h =>
    let ⟨c, hc, hcn⟩ := List.mem_map.mp h; hn (hcn ▸ (hi.memC c hc).1)
  have nW : n ∉ st.W.map (·.id) := fun h =>
    let ⟨c, hc, hcn⟩ := List.mem_map.mp h; hn (hcn ▸ (hi.memW c hc).1)
  have memW' : ∀ z ∈ pushBounded S ef st.W ⟨n, δ⟩, z = ⟨n, δ⟩ ∨ z ∈ st.W :=
    fun z hz => mem_pushBounded hHW hz
  refine ⟨Stl.push_isHeap _ hC, pushBounded_isHeap hHW,
    pushBounded_ne_nil hHW hi.W_ne, ?memC, ?memW, ?nodupC,
    nodup_pushBounded hHW hi.nodupW nW, List.nodup_cons.mpr ⟨hn, hi.nodupV⟩, ?visited, ?expanded, ?small, ?bounded, ?nearEntry⟩
  case memC =>
    intro c hc
    rcases (Stl.mem_push hC).mp hc with rfl | hc
    · exact ⟨List.mem_cons_self _ _, hδ⟩
    · exact ⟨List.mem_cons_of_mem _ (hi.memC c hc).1, (hi.memC c hc).2⟩
  case memW =>
    intro c hc
    rcases memW' c hc with rfl | hc
    · exact ⟨List.mem_cons_self _ _, hδ⟩
    · exact ⟨List.mem_cons_of_mem _ (hi.memW c hc).1, (hi.memW c hc).2⟩
  case nodupC =>
    exact ((Stl.push_perm _ hC).map _).nodup_iff.mpr (List.nodup_cons.mpr ⟨nC, hi.nodupC⟩)
  case visited =>
    intro v hv
    rcases List.mem_cons.mp hv with rfl | hv
    · exact ⟨hP, δ, hδ, fun hout => pushBounded_dropped hHW (.inl rfl) fun hm =>
        hout (List.mem_map_of_mem _ hm)⟩
    obtain ⟨hPv, δ', hδ', hfar⟩ := hi.visited v hv
    refine ⟨hPv, δ', hδ', fun hout z hz => ?_⟩
    by_cases hvW : v ∈ st.W.map (·.id)
    · -- `v` was kept before and is dropped now: it is the farthest
      obtain ⟨y, hy, rfl⟩ := List.mem_map.mp hvW
      rw [(hi.memW y hy).2, Except.ok.injEq] at hδ'
      exact hδ' ▸ pushBounded_dropped hHW (.inr hy) (fun hm => hout (List.mem_map_of_mem _ hm)) z hz
    rcases memW' z hz with rfl | hz
    · rcases hcond with hlt | hlt
      · exact hlt.le.trans (hfar hvW w (hW ▸ List.mem_cons_self _ _))
      · exact absurd (hi.small hlt v hv) hvW
    · exact hfar hvW z hz
  case expanded =>
    intro z hz
    rcases memW' z hz with rfl | hz
    · exact .inl (List.mem_map.mpr ⟨_, (Stl.mem_push hC).mpr (.inl rfl), rfl⟩)
    · rcases hi.expanded z hz with hzC | hzp | hze
      · obtain ⟨c, hc, hcz⟩ := List.mem_map.mp hzC
        exact .inl (List.mem_map.mpr ⟨c, (Stl.mem_push hC).mpr (.inr hc), hcz⟩)
      · exact .inr (.inl hzp)
      · exact .inr (.inr (hze.mono (List.subset_cons_self _ _)))
  case small =>
    intro hlt v hv
    rcases @pushBounded_cases S ef _ ⟨n, δ⟩ hHW with ⟨hp, hle⟩ | ⟨-, -, -, hgt, -⟩
    · have hmem : ∀ y ∈ (⟨n, δ⟩ : SearchCandidate) :: st.W,
          y.id ∈ (pushBounded S ef st.W ⟨n, δ⟩).map (·.id) :=
        fun y hy => List.mem_map.mpr ⟨y, hp.symm.subset hy, rfl⟩
      rcases List.mem_cons.mp hv with rfl | hv
      · exact hmem _ (List.mem_cons_self _ _)
      · obtain ⟨y, hy, rfl⟩ := List.mem_map.mp (hi.small (by omega) v hv)
        exact hmem y (List.mem_cons_of_mem _ hy)
    · rw [length_pushBounded hHW, if_pos hgt] at hlt
      omega
  case bounded =>
    have := hi.bounded
    rw [length_pushBounded hHW]
    split <;> omega
  case nearEntry =>
    obtain ⟨w₀, hw₀, hle⟩ := hi.nearEntry
    by_cases hk : w₀ ∈ pushBounded S ef st.W ⟨n, δ⟩
    · exact ⟨w₀, hk, hle⟩
    · obtain ⟨z, hz⟩ := List.exists_mem_of_ne_nil _ (pushBounded_ne_nil hHW hi.W_ne)
      exact ⟨z, hz, (pushBounded_dropped hHW (.inr hw₀) hk z hz).trans hle⟩

theorem LoopInv.after_visit {pend : List Nat} {st st' : LayerSearch} {n : Nat}
    (hi : LoopInv nbrsOf dist ef P δ₀ pend st) (hP : P n) (h : visit S dist ef st n = .ok st') :
    LoopInv nbrsOf dist ef P δ₀ pend st' := by
  rcases visit_eq_ok h with ⟨-, rfl⟩ | ⟨δ, w, W₀, hn, hδ, hW, ⟨hc, rfl⟩ | ⟨hc, rfl⟩⟩
  · exact hi
  · exact hi.enqueue hP hn hδ hW hc
  · exact hi.discard hP hn hδ hW hc

theorem filter_not_mem_cons (U V : List Nat) (n : Nat) :
    U.filter (· ∉ n :: V) = (U.filter (· ∉ V)).filter (· ≠ n) := by
  rw [List.filter_filter]
  exact List.filter_congr fun x _ => by simp [and_comm]

theorem length_filter_not_mem_cons_le (U V : List Nat) (n : Nat) :
    (U.filter (· ∉ n :: V)).length ≤ (U.filter (· ∉ V)).length := by
  rw [filter_not_mem_cons]
  exact List.length_filter_le _ _

theorem length_filter_not_mem_cons_lt {U V : List Nat} {n : Nat} (hU : n ∈ U) (hV : n ∉ V) :
    (U.filter (· ∉ n :: V)).length < (U.filter (· ∉ V)).length := by
  rw [filter_not_mem_cons]
  exact List.length_filter_lt_length_iff_exists.mpr
    ⟨n, List.mem_filter.mpr ⟨hU, by simpa using hV⟩, by simp⟩

theorem LayerSearch.candidates_eq_nil {U : List Nat} {st : LayerSearch} (hm : st.measure U ≤ 0) :
    st.candidates = [] :=
  List.eq_nil_of_length_eq_zero (by simp only [LayerSearch.measure] at hm; omega)

theorem LayerSearch.measure_pop {U : List Nat} {st : LayerSearch} {c : SearchCandidate}
    {C₀ : List SearchCandidate} (hC : IsHeap near st.candidates) (hc : st.candidates = c :: C₀) :
    ({ st with candidates := S.pop near st.candidates } : LayerSearch).measure U + 1 =
      st.measure U := by
  rw [hc] at hC
  simp only [LayerSearch.measure, hc, Stl.length_pop hC, List.length_cons]
  omega

theorem LayerSearch.measure_enqueue {U : List Nat} {st : LayerSearch} {n : Nat} {c : SearchCandidate}
    (W : List SearchCandidate) (hC : IsHeap near st.candidates) (hU : n ∈ U) (hn : n ∉ st.visited) :
    LayerSearch.measure U ⟨n :: st.visited, S.push near st.candidates c, W⟩ ≤ st.measure U := by
  have := length_filter_not_mem_cons_lt hU hn
  simp only [LayerSearch.measure, Stl.length_push _ hC]
  omega

theorem LayerSearch.measure_mark (U : List Nat) (st : LayerSearch) (n : Nat) :
    LayerSearch.measure U { st with visited := n :: st.visited } ≤ st.measure U := by
  have := length_filter_not_mem_cons_le U st.visited n
  simp only [LayerSearch.measure]
  omega

theorem LayerSearch.measure_init (U : List Nat) (e : Nat) (d : ℚ) :
    LayerSearch.measure U ⟨[e], S.push near [] ⟨e, d⟩, S.push far [] ⟨e, d⟩⟩ ≤ U.length + 1 := by
  simp only [LayerSearch.measure, Stl.push_nil, List.length_singleton]
  have := List.length_filter_le (· ∉ [e]) U
  omega

theorem visit_exists {pend : List Nat} {st : LayerSearch} {n : Nat}
    (hi : LoopInv nbrsOf dist ef P δ₀ pend st) (hd : ∃ δ, dist n = .ok δ) :
    ∃ st', visit S dist ef st n = .ok st' := by
  unfold visit
  split
  · exact ⟨_, rfl⟩
  · obtain ⟨δ, hδ⟩ := hd
    obtain ⟨w, W₀, hW⟩ := List.exists_cons_of_ne_nil hi.W_ne
    simp only [hδ, ok_bind, hW, top]
    split <;> exact ⟨_, rfl⟩

theorem visit_progress {pend : List Nat} {st st' : LayerSearch} {n : Nat} {U : List Nat}
    (hi : LoopInv nbrsOf dist ef P δ₀ pend st) (h : visit S dist ef st n = .ok st') (hU : n ∈ U) :
    n ∈ st'.visited ∧ st.visited ⊆ st'.visited ∧ st'.measure U ≤ st.measure U := by
  rcases visit_eq_ok h with ⟨hn, rfl⟩ | ⟨δ, w, W₀, hn, -, -, ⟨-, rfl⟩ | ⟨-, rfl⟩⟩
  · exact ⟨hn, fun _ h => h, le_rfl⟩
  · exact ⟨List.mem_cons_self _ _, List.subset_cons_self _ _,
      LayerSearch.measure_enqueue _ hi.heapC hU hn⟩
  · exact ⟨List.mem_cons_self _ _, List.subset_cons_self _ _, LayerSearch.measure_mark U st n⟩

theorem LoopInv.foldlM_visit (hP : Closed nbrsOf dist P) {U pend : List Nat} :
    ∀ (l : List Nat) {st : LayerSearch}, LoopInv nbrsOf dist ef P δ₀ pend st →
      (∀ n ∈ l, P n) → (∀ n ∈ l, n ∈ U) →
      ∃ st', l.foldlM (visit S dist ef) st = .ok st' ∧ LoopInv nbrsOf dist ef P δ₀ pend st' ∧
        (∀ n ∈ l, n ∈ st'.visited) ∧ st.visited ⊆ st'.visited ∧ st'.measure U ≤ st.measure U
  | [], st, hi, _, _ => ⟨st, rfl, hi, by simp, fun _ h => h, le_rfl⟩
  | n :: l, st, hi, hPl, hUl => by
    have hPn := hPl n (List.mem_cons_self _ _)
    obtain ⟨st₁, h₁⟩ := visit_exists hi (hP n hPn).1
    obtain ⟨hn₁, hsub₁, hm₁⟩ := visit_progress hi h₁ (hUl n (List.mem_cons_self _ _))
    obtain ⟨st', h', hi', hl', hsub', hm'⟩ := LoopInv.foldlM_visit hP l (hi.after_visit hPn h₁)
      (fun m hm => hPl m (List.mem_cons_of_mem _ hm)) (fun m hm => hUl m (List.mem_cons_of_mem _ hm))
    refine ⟨st', by rw [List.foldlM_cons, h₁]; exact h', hi', ?_, hsub₁.trans hsub',
      hm'.trans hm₁⟩
    intro m hm
    rcases List.mem_cons.mp hm with rfl | hm
    · exact hsub' hn₁
    · exact hl' m hm

theorem LoopInv.pop {pend : List Nat} {st : LayerSearch} {c : SearchCandidate}
    {C₀ : List SearchCandidate} (hi : LoopInv nbrsOf dist ef P δ₀ pend st)
    (hc : st.candidates = c :: C₀) :
    LoopInv nbrsOf dist ef P δ₀ (c.id :: pend)
      { st with candidates := S.pop near st.candidates } := by
  have hC := hi.heapC
  rw [hc] at hC
  have hp := Stl.pop_perm (S := S) hC
  have sub : ∀ z ∈ S.pop near st.candidates, z ∈ st.candidates := fun z hz =>
    hc ▸ List.mem_cons_of_mem _ (hp.subset (hc ▸ hz))
  refine { hi with
    heapC := hc ▸ Stl.pop_isHeap hC
    memC := fun z hz => hi.memC z (sub z hz)
    nodupC := ?_
    expanded := ?_ }
  · have := hi.nodupC
    rw [hc, List.map_cons] at this
    rw [hc]
    exact (hp.map _).nodup_iff.mpr (List.nodup_cons.mp this).2
  · intro w hw
    rcases hi.expanded w hw with hwC | hwp | hwe
    · rw [hc, List.map_cons] at hwC
      rcases List.mem_cons.mp hwC with hwc | hwC
      · exact .inr (.inl (List.mem_cons.mpr (.inl hwc)))
      · obtain ⟨z, hz, hzw⟩ := List.mem_map.mp hwC
        exact .inl (List.mem_map.mpr ⟨z, hc ▸ hp.symm.subset hz, hzw⟩)
    · exact .inr (.inl (List.mem_cons_of_mem _ hwp))
    · exact .inr (.inr hwe)

theorem LoopInv.settle {pend : List Nat} {st : LayerSearch} {u : Nat}
    (hi : LoopInv nbrsOf dist ef P δ₀ (u :: pend) st)
    (hu : ∀ w ∈ st.W, w.id = u → Expanded nbrsOf u st.visited) :
    LoopInv nbrsOf dist ef P δ₀ pend st :=
  { hi with
    expanded := fun w hw => by
      rcases hi.expanded w hw with hwC | hwp | hwe
      · exact .inl hwC
      · rcases List.mem_cons.mp hwp with hwu | hwp
        · exact .inr (.inr (hwu ▸ hu w hw hwu))
        · exact .inr (.inl hwp)
      · exact .inr (.inr hwe) }

theorem LoopInv.expanded_of_nil {st : LayerSearch} (hi : LoopInv nbrsOf dist ef P δ₀ [] st)
    (hc : st.candidates = []) : ∀ w ∈ st.W, Expanded nbrsOf w.id st.visited := fun w hw => by
  rcases hi.expanded w hw with hwC | hwp | hwe
  · simp [hc] at hwC
  · simp at hwp
  · exact hwe

theorem LoopInv.head_nearest {pend : List Nat} {st : LayerSearch} {c : SearchCandidate}
    {C₀ : List SearchCandidate} (hi : LoopInv nbrsOf dist ef P δ₀ pend st)
    (hc : st.candidates = c :: C₀) : ∀ z ∈ st.candidates, c.distance ≤ z.distance := by
  have h := hi.heapC
  rw [hc] at h ⊢
  intro z hz
  rcases List.mem_cons.mp hz with rfl | hz
  · exact le_rfl
  · simpa [near] using h.le_head z hz

theorem LoopInv.distance_eq {pend : List Nat} {st : LayerSearch} {y z : SearchCandidate}
    (hi : LoopInv nbrsOf dist ef P δ₀ pend st) (hy : y ∈ st.W) (hz : z ∈ st.candidates)
    (h : y.id = z.id) : y.distance = z.distance := by
  have := (hi.memW y hy).2
  rw [h, (hi.memC z hz).2] at this
  exact (Except.ok.inj this).symm

/-- Run with enough fuel, the loop ends without error, every node left in `W` expanded. -/
theorem searchLoop_spec (hP : Closed nbrsOf dist P) {U : List Nat}
    (hU : ∀ u l, nbrsOf u = .ok l → ∀ n ∈ l, n ∈ U) :
    ∀ (fuel : Nat) (st : LayerSearch), LoopInv nbrsOf dist ef P δ₀ [] st → st.measure U ≤ fuel →
      ∃ st', searchLoop S nbrsOf dist ef fuel st = .ok st' ∧ LoopInv nbrsOf dist ef P δ₀ [] st' ∧
        (∀ w ∈ st'.W, Expanded nbrsOf w.id st'.visited) ∧ st.visited ⊆ st'.visited := by
  intro fuel
  induction fuel with
  | zero =>
    intro st hi hm
    have hc := LayerSearch.candidates_eq_nil hm
    exact ⟨st, by rw [searchLoop, hc], hi, hi.expanded_of_nil hc, fun _ h => h⟩
  | succ fuel ih =>
    intro st hi hm
    cases hc : st.candidates with
    | nil => exact ⟨st, by rw [searchLoop, hc], hi, hi.expanded_of_nil hc, fun _ h => h⟩
    | cons c C₀ =>
      obtain ⟨w, W₀, hW⟩ := List.exists_cons_of_ne_nil hi.W_ne
      have hi₁ := hi.pop (S := S) hc
      have hcC : c ∈ st.candidates := hc ▸ List.mem_cons_self _ _
      have hnear := hi.head_nearest hc
      have hfar := hi.le_head hW
      by_cases hbreak : c.distance > w.distance
      · have never : ∀ y ∈ st.W, ∀ z ∈ st.candidates, y.id = z.id → False := fun y hy z hz h =>
          absurd ((hnear z hz).trans ((hi.distance_eq hy hz h).symm ▸ hfar y hy)) (not_le.mpr hbreak)
        refine ⟨_, ?_, hi₁.settle fun y hy h => (never y hy c hcC h).elim, fun y hy => ?_,
          fun _ h => h⟩
        · rw [searchLoop]
          simp only [hc, hW, top, ok_bind, if_pos hbreak]
          rfl
        · rcases hi₁.expanded y hy with hyC | hyp | hye
          · obtain ⟨z, hz, h⟩ := List.mem_map.mp hyC
            have : z ∈ st.candidates := by
              have hC := hi.heapC
              rw [hc] at hC hz ⊢
              exact List.mem_cons_of_mem _ ((Stl.mem_pop hC).mp hz)
            exact (never y hy z this h.symm).elim
          · exact (never y hy c hcC (List.mem_singleton.mp hyp)).elim
          · exact hye
      · obtain ⟨l, hl, hlP⟩ := (hP c.id (hi.visited c.id (hi.memC c hcC).1).1).2
        obtain ⟨st₂, h₂, hi₂, hl₂, hsub₂, hm₂⟩ :=
          hi₁.foldlM_visit (S := S) hP l hlP (hU _ _ hl)
        have hm₁ := LayerSearch.measure_pop (S := S) (U := U) hi.heapC hc
        obtain ⟨st', h', hi', hexp', hsub'⟩ :=
          ih st₂ (hi₂.settle fun _ _ _ => ⟨l, hl, hl₂⟩) (by omega)
        refine ⟨st', ?_, hi', hexp', hsub₂.trans hsub'⟩
        rw [searchLoop]
        simp only [hc, hW, top, ok_bind, if_neg hbreak, hl]
        rw [hc, hW] at h₂
        exact bind_eq_ok.mpr ⟨st₂, h₂, h'⟩

theorem isHeap_singleton {α : Type} (key : α → ℚ) (x : α) : IsHeap key [x] := fun i h hpos => by
  simp at h
  omega

theorem LoopInv.init {e : Nat} {d : ℚ} (hd : dist e = .ok d) (hPe : P e) :
    LoopInv nbrsOf dist ef P d [] ⟨[e], S.push near [] ⟨e, d⟩, S.push far [] ⟨e, d⟩⟩ := by
  rw [Stl.push_nil, Stl.push_nil]
  refine ⟨isHeap_singleton _ _, isHeap_singleton _ _, by simp, by simp [hd], by simp [hd],
    by simp, by simp, by simp, by simp [hPe, hd], by simp, by simp, by simp, ⟨⟨e, d⟩, by simp, le_rfl⟩⟩

theorem drain_spec : ∀ (n : Nat) {W : List SearchCandidate}, IsHeap far W → W.length = n →
    (drain S n W).Perm W ∧ (drain S n W).Sorted (fun a b => b.distance ≤ a.distance)
  | 0, W, _, hn => by
    rw [List.eq_nil_of_length_eq_zero hn]
    exact ⟨List.Perm.refl _, List.sorted_nil⟩
  | _ + 1, [], _, hn => absurd hn (by simp)
  | n + 1, c :: W, h, hn => by
    have hp := Stl.pop_perm (S := S) h
    obtain ⟨hp', hs'⟩ := drain_spec n (Stl.pop_isHeap h) (by simpa [h] using hn)
    exact ⟨(hp'.trans hp).cons c, List.sorted_cons.mpr
      ⟨fun b hb => h.le_head b (hp.subset (hp'.subset hb)), hs'⟩⟩

theorem LoopInv.beam {st : LayerSearch} (hi : LoopInv nbrsOf dist ef P δ₀ [] st)
    (hexp : ∀ w ∈ st.W, Expanded nbrsOf w.id st.visited) :
    Beam nbrsOf dist ef P δ₀ st.visited (drain S st.W.length st.W).reverse := by
  obtain ⟨hp, hs⟩ := drain_spec (S := S) st.W.length hi.heapW rfl
  have hp' := (List.reverse_perm _).trans hp
  have mem : ∀ c, c ∈ (drain S st.W.length st.W).reverse ↔ c ∈ st.W := fun c => hp'.mem_iff
  have ids : ∀ v, v ∈ (drain S st.W.length st.W).reverse.map (·.id) ↔ v ∈ st.W.map (·.id) :=
    fun v => (hp'.map _).mem_iff
  refine ⟨fun h => hi.W_ne (List.Perm.nil_eq (h ▸ hp')).symm, (hp'.map _).nodup_iff.mpr hi.nodupW,
    List.pairwise_reverse.mpr hs, fun c hc => hi.memW c ((mem c).mp hc), hi.nodupV, ?_,
    fun c hc => hexp c ((mem c).mp hc), ?_, ?_, ?_⟩
  · intro v hv
    obtain ⟨hPv, δ, hδ, hfar⟩ := hi.visited v hv
    exact ⟨hPv, δ, hδ, fun hout c hc => hfar (fun h => hout ((ids v).mpr h)) c ((mem c).mp hc)⟩
  · intro hlt v hv
    exact (ids v).mpr (hi.small (hp'.length_eq ▸ hlt) v hv)
  · rw [hp'.length_eq]
    exact hi.bounded
  · obtain ⟨w, hw, hle⟩ := hi.nearEntry
    exact ⟨w, (mem w).mpr hw, hle⟩

end SearchLoop

theorem getNeighbors_subset {nodes : List HNSWNode} {u layer : Nat} {l : List Nat}
    (h : getNeighbors nodes u layer = .ok l) : ∀ n ∈ l, n ∈ layerIds nodes layer := by
  unfold getNeighbors at h
  split at h
  · cases h
  · rename_i node hnode
    split at h
    · cases h
    · rename_i l' hl'
      cases h
      intro n hn
      simp only [layerIds, List.mem_flatten, List.mem_map]
      exact ⟨_, ⟨node, List.getElem?_mem hnode, rfl⟩, by simp [hl', hn]⟩

/-- `search_layer` from an entry in a set `P` closed under the layer's edges returns a beam of
nodes of `P`, of width `ef`, and the nearest of it no farther than the entry. -/
theorem searchLayer_spec {S : Stl} {s : HNSWIndex} {query : List ℚ} {e layer : Nat} (ef : Nat)
    {P : Nat → Prop} (hP : Closed (getNeighbors s.nodes · layer) (s.distanceToQuery query) P)
    (he : P e) :
    ∃ d res V, s.distanceToQuery query e = .ok d ∧ s.searchLayer S query e ef layer = .ok res ∧
      e ∈ V ∧ Beam (getNeighbors s.nodes · layer) (s.distanceToQuery query) ef P d V res := by
  obtain ⟨d, hd⟩ := (hP e he).1
  obtain ⟨st, hst, hi, hexp, hsub⟩ := searchLoop_spec (S := S) hP
    (fun _ _ h => getNeighbors_subset h) _ _ (LoopInv.init hd he : LoopInv _ _ ef _ _ [] _)
    (LayerSearch.measure_init _ e d)
  refine ⟨d, (drain S st.W.length st.W).reverse, st.visited, hd, ?_,
    hsub (List.mem_singleton_self e), hi.beam hexp⟩
  simp only [HNSWIndex.searchLayer, hd, ok_bind]
  rw [hst]
  rfl

end NexaDb.Native
