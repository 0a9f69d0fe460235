import NexaDb.Hnsw.SearchLaws
import NexaDb.BinaryHeap

/-! `search` under two conforming standard libraries. The libraries may lay a heap out
differently and break ties differently; where the query's distances to the stored vectors are
pairwise distinct, the two runs of `search_layer` hold the same entries in their queues after
every step, pop the same candidate and read the same farthest entry, and so the descent and the
layer-0 search, and with them `search`, return the same answer. -/

namespace NexaDb.Native

open SearchCandidate (far near)

/-- `dist` tells the nodes of `P` apart: no two of them are at the same distance. -/
def Separates (dist : Nat → Except Error ℚ) (P : Nat → Prop) : Prop :=
  ∀ i j δ, P i → P j → dist i = .ok δ → dist j = .ok δ → i = j

/-- Two loop states with the same visited list whose queues hold the same entries, each laid out
by its own library. -/
def SameQueues (st st' : LayerSearch) : Prop :=
  st.visited = st'.visited ∧ st.candidates.Perm st'.candidates ∧ st.W.Perm st'.W

theorem head_eq_of_perm {key : SearchCandidate → ℚ} {a b : SearchCandidate}
    {l l' : List SearchCandidate} (h : IsHeap key (a :: l)) (h' : IsHeap key (b :: l'))
    (hp : (a :: l).Perm (b :: l')) (hk : ∀ x ∈ a :: l, ∀ y ∈ a :: l, key x = key y → x = y) :
    a = b := by
  by_contra hab
  have hb : b ∈ l :=
    (List.mem_cons.mp (hp.symm.subset (List.mem_cons_self b l'))).resolve_left (Ne.symm hab)
  have ha : a ∈ l' := (List.mem_cons.mp (hp.subset (List.mem_cons_self a l))).resolve_left hab
  exact hab (hk a (List.mem_cons_self _ _) b (List.mem_cons_of_mem _ hb)
    (le_antisymm (h'.le_head a ha) (h.le_head b hb)))

theorem Separates.eq_of_distance_eq {dist : Nat → Except Error ℚ} {P : Nat → Prop}
    (hs : Separates dist P) {l : List SearchCandidate}
    (hmem : ∀ c ∈ l, P c.id ∧ dist c.id = .ok c.distance) (hnd : (l.map (·.id)).Nodup) :
    ∀ x ∈ l, ∀ y ∈ l, x.distance = y.distance → x = y := fun x hx y hy hxy =>
  List.inj_on_of_nodup_map hnd hx hy
    (hs _ _ _ (hmem x hx).1 (hmem y hy).1 (hmem x hx).2 (hxy ▸ (hmem y hy).2))

section SearchLoop

variable {S S' : Stl} {nbrsOf : Nat → Except Error (List Nat)} {dist : Nat → Except Error ℚ}
  {ef : Nat} {P : Nat → Prop} {δ₀ : ℚ}

theorem LoopInv.entriesC {pend : List Nat} {st : LayerSearch}
    (hi : LoopInv nbrsOf dist ef P δ₀ pend st) :
    ∀ c ∈ st.candidates, P c.id ∧ dist c.id = .ok c.distance := fun c hc =>
  ⟨(hi.visited _ (hi.memC c hc).1).1, (hi.memC c hc).2⟩

theorem LoopInv.entriesW {pend : List Nat} {st : LayerSearch}
    (hi : LoopInv nbrsOf dist ef P δ₀ pend st) :
    ∀ c ∈ st.W, P c.id ∧ dist c.id = .ok c.distance := fun c hc =>
  ⟨(hi.visited _ (hi.memW c hc).1).1, (hi.memW c hc).2⟩

theorem Beam.entries {V : List Nat} {res : List SearchCandidate}
    (hb : Beam nbrsOf dist ef P δ₀ V res) : ∀ c ∈ res, P c.id ∧ dist c.id = .ok c.distance :=
  fun c hc => ⟨(hb.visited _ (hb.mem c hc).1).1, (hb.mem c hc).2⟩

section Fronts

variable (hs : Separates dist P) {pend pend' : List Nat} {st st' : LayerSearch}
  (hi : LoopInv nbrsOf dist ef P δ₀ pend st) (hi' : LoopInv nbrsOf dist ef P δ₀ pend' st')
include hs hi hi'

theorem LoopInv.farthest_eq {w w' : SearchCandidate} {W₀ W₀' : List SearchCandidate}
    (hW : st.W.Perm st'.W) (hWe : st.W = w :: W₀) (hWe' : st'.W = w' :: W₀') : w = w' := by
  have hh := hi.heapW
  have hh' := hi'.heapW
  have hk := hs.eq_of_distance_eq hi.entriesW hi.nodupW
  rw [hWe] at hh hk hW
  rw [hWe'] at hh' hW
  exact head_eq_of_perm hh hh' hW hk

theorem LoopInv.nearest_eq {c c' : SearchCandidate} {C₀ C₀' : List SearchCandidate}
    (hC : st.candidates.Perm st'.candidates) (hc : st.candidates = c :: C₀)
    (hc' : st'.candidates = c' :: C₀') : c = c' := by
  have hh := hi.heapC
  have hh' := hi'.heapC
  have hk := hs.eq_of_distance_eq hi.entriesC hi.nodupC
  rw [hc] at hh hk hC
  rw [hc'] at hh' hC
  exact head_eq_of_perm hh hh' hC fun x hx y hy hxy => hk x hx y hy (neg_inj.mp hxy)

end Fronts

theorem pushBounded_perm {W W' : List SearchCandidate} {x : SearchCandidate}
    (h : IsHeap far W) (h' : IsHeap far W') (hp : W.Perm W')
    (hk : ∀ y ∈ x :: W, ∀ z ∈ x :: W, y.distance = z.distance → y = z) :
    (pushBounded S ef W x).Perm (pushBounded S' ef W' x) := by
  have hlen := hp.length_eq
  rcases @pushBounded_cases S ef W x h with ⟨hq, hle⟩ | ⟨t, hq, ht, hlt, hd, hpush, -⟩ <;>
    rcases @pushBounded_cases S' ef W' x h' with ⟨hq', hle'⟩ | ⟨t', hq', ht', hlt', hd', hpush', -⟩
  · exact hq.trans ((hp.cons x).trans hq'.symm)
  · omega
  · omega
  · have hh := Stl.push_isHeap (S := S) x h
    have hh' := Stl.push_isHeap (S := S') x h'
    rw [hpush] at hh hq
    rw [hpush'] at hh' hq'
    have hperm : (hd :: t).Perm (hd' :: t') := hq.trans ((hp.cons x).trans hq'.symm)
    obtain rfl := head_eq_of_perm hh hh' hperm fun y hy z hz => hk y (hq.subset hy) z (hq.subset hz)
    exact ht.trans (hperm.cons_inv.trans ht'.symm)

theorem visit_same (hs : Separates dist P) {pend pend' : List Nat} {st st' a a' : LayerSearch}
    {n : Nat} (hi : LoopInv nbrsOf dist ef P δ₀ pend st)
    (hi' : LoopInv nbrsOf dist ef P δ₀ pend' st') (hPn : P n) (hR : SameQueues st st')
    (h : visit S dist ef st n = .ok a) (h' : visit S' dist ef st' n = .ok a') :
    SameQueues a a' := by
  obtain ⟨hV, hC, hW⟩ := hR
  rcases visit_eq_ok h with ⟨hn, rfl⟩ | ⟨δ, w, W₀, hn, hδ, hWe, hcase⟩ <;>
    rcases visit_eq_ok h' with ⟨hn', rfl⟩ | ⟨δ', w', W₀', hn', hδ', hWe', hcase'⟩
  · exact ⟨hV, hC, hW⟩
  · exact absurd (hV ▸ hn) hn'
  · exact absurd (hV ▸ hn') hn
  obtain rfl : δ' = δ := Except.ok.inj (hδ'.symm.trans hδ)
  -- both runs compare against the same farthest entry
  obtain rfl := hi.farthest_eq hs hi' hW hWe hWe'
  have hlen := hW.length_eq
  rcases hcase with ⟨hc, rfl⟩ | ⟨hc, rfl⟩ <;> rcases hcase' with ⟨hc', rfl⟩ | ⟨hc', rfl⟩
  · have hnW : n ∉ st.W.map (·.id) := fun hm => by
      obtain ⟨c, hc, rfl⟩ := List.mem_map.mp hm
      exact hn (hi.memW c hc).1
    refine ⟨by rw [hV], (Stl.push_perm _ hi.heapC).trans ((hC.cons _).trans
      (Stl.push_perm _ hi'.heapC).symm), pushBounded_perm hi.heapW hi'.heapW hW
      (hs.eq_of_distance_eq (fun c hc => ?_) (List.nodup_cons.mpr ⟨hnW, hi.nodupW⟩))⟩
    rcases List.mem_cons.mp hc with rfl | hc
    · exact ⟨hPn, hδ⟩
    · exact hi.entriesW c hc
  · exact absurd (hlen ▸ hc) hc'
  · exact absurd (hlen ▸ hc') hc
  · exact ⟨by rw [hV], hC, hW⟩

theorem foldlM_visit_same (hs : Separates dist P) {pend pend' : List Nat} :
    ∀ (l : List Nat) {st st' a a' : LayerSearch}, LoopInv nbrsOf dist ef P δ₀ pend st →
      LoopInv nbrsOf dist ef P δ₀ pend' st' → (∀ n ∈ l, P n) → SameQueues st st' →
      l.foldlM (visit S dist ef) st = .ok a → l.foldlM (visit S' dist ef) st' = .ok a' →
      SameQueues a a'
  | [], _, _, _, _, _, _, _, hR, h, h' => by
    obtain rfl := Except.ok.inj h
    obtain rfl := Except.ok.inj h'
    exact hR
  | n :: l, _, _, _, _, hi, hi', hPl, hR, h, h' => by
    rw [List.foldlM_cons] at h h'
    obtain ⟨st₁, h₁, h⟩ := bind_eq_ok.mp h
    obtain ⟨st₁', h₁', h'⟩ := bind_eq_ok.mp h'
    have hPn := hPl n (List.mem_cons_self _ _)
    exact foldlM_visit_same hs l (hi.after_visit hPn h₁) (hi'.after_visit hPn h₁')
      (fun m hm => hPl m (List.mem_cons_of_mem _ hm)) (visit_same hs hi hi' hPn hR h₁ h₁') h h'

theorem searchLoop_succ {st : LayerSearch} {c w : SearchCandidate}
    {C₀ W₀ : List SearchCandidate} (hc : st.candidates = c :: C₀) (hW : st.W = w :: W₀)
    (fuel : Nat) :
    searchLoop S nbrsOf dist ef (fuel + 1) st =
      if c.distance > w.distance then .ok { st with candidates := S.pop near st.candidates }
      else nbrsOf c.id >>= fun l =>
        l.foldlM (visit S dist ef) { st with candidates := S.pop near st.candidates } >>=
          searchLoop S nbrsOf dist ef fuel := by
  rw [searchLoop]
  simp only [hc, hW, top, ok_bind]
  rfl

/-- From two states with the same entries, the loop run under two libraries ends in states with
the same entries. -/
theorem searchLoop_same (hP : Closed nbrsOf dist P) (hs : Separates dist P) :
    ∀ (fuel : Nat) {st st' r r' : LayerSearch}, LoopInv nbrsOf dist ef P δ₀ [] st →
      LoopInv nbrsOf dist ef P δ₀ [] st' → SameQueues st st' →
      searchLoop S nbrsOf dist ef fuel st = .ok r → searchLoop S' nbrsOf dist ef fuel st' = .ok r' →
      SameQueues r r'
  | fuel, st, st', r, r', hi, hi', ⟨hV, hC, hW⟩, h, h' => by
    cases hc : st.candidates with
    | nil =>
      have hc' : st'.candidates = [] := by rw [hc] at hC; exact hC.symm.eq_nil
      rw [searchLoop, hc] at h
      rw [searchLoop, hc'] at h'
      obtain rfl := Except.ok.inj h
      obtain rfl := Except.ok.inj h'
      exact ⟨hV, hC, hW⟩
    | cons c C₀ =>
      obtain ⟨c', C₀', hc'⟩ : ∃ c' C₀', st'.candidates = c' :: C₀' :=
        List.exists_cons_of_ne_nil fun h0 => by simp [hc, h0] at hC
      obtain ⟨w, W₀, hWe⟩ := List.exists_cons_of_ne_nil hi.W_ne
      obtain ⟨w', W₀', hWe'⟩ := List.exists_cons_of_ne_nil hi'.W_ne
      -- both runs pop the same candidate and read the same farthest entry
      obtain rfl := hi.nearest_eq hs hi' hC hc hc'
      obtain rfl := hi.farthest_eq hs hi' hW hWe hWe'
      have hpopC : (S.pop near st.candidates).Perm (S'.pop near st'.candidates) := by
        have hC₁ : (c :: C₀).Perm (c :: C₀') := hc ▸ hc' ▸ hC
        rw [hc, hc']
        exact (Stl.pop_perm (hc ▸ hi.heapC)).trans
          (hC₁.cons_inv.trans (Stl.pop_perm (hc' ▸ hi'.heapC)).symm)
      have hpop : SameQueues { st with candidates := S.pop near st.candidates }
          { st' with candidates := S'.pop near st'.candidates } := ⟨hV, hpopC, hW⟩
      cases fuel with
      | zero =>
        rw [searchLoop, hc] at h
        cases h
      | succ fuel =>
        rw [searchLoop_succ hc hWe] at h
        rw [searchLoop_succ hc' hWe'] at h'
        by_cases hbreak : c.distance > w.distance
        · rw [if_pos hbreak] at h h'
          obtain rfl := Except.ok.inj h
          obtain rfl := Except.ok.inj h'
          exact hpop
        · have hcC : c ∈ st.candidates := hc ▸ List.mem_cons_self _ _
          obtain ⟨l, hl, hlP⟩ := (hP c.id (hi.visited c.id (hi.memC c hcC).1).1).2
          rw [if_neg hbreak, hl, ok_bind] at h h'
          obtain ⟨st₂, h₂, h⟩ := bind_eq_ok.mp h
          obtain ⟨st₂', h₂', h'⟩ := bind_eq_ok.mp h'
          obtain ⟨a, ha, hia, hla, -⟩ := (hi.pop (S := S) hc).foldlM_visit hP (U := l) l hlP
            fun _ h => h
          obtain ⟨a', ha', hia', hla', -⟩ := (hi'.pop (S := S') hc').foldlM_visit hP (U := l) l hlP
            fun _ h => h
          obtain rfl := Except.ok.inj (ha.symm.trans h₂)
          obtain rfl := Except.ok.inj (ha'.symm.trans h₂')
          exact searchLoop_same hP hs fuel (hia.settle fun _ _ _ => ⟨l, hl, hla⟩)
            (hia'.settle fun _ _ _ => ⟨l, hl, hla'⟩)
            (foldlM_visit_same hs l (hi.pop hc) (hi'.pop hc') hlP hpop h₂ h₂') h h'

end SearchLoop

theorem searchLayer_same (S S' : Stl) {s : HNSWIndex} {query : List ℚ} {e layer : Nat} (ef : Nat)
    {P : Nat → Prop} (hP : Closed (getNeighbors s.nodes · layer) (s.distanceToQuery query) P)
    (he : P e) (hs : Separates (s.distanceToQuery query) P) :
    s.searchLayer S query e ef layer = s.searchLayer S' query e ef layer := by
  obtain ⟨d, hd⟩ := (hP e he).1
  have hU : ∀ u l, getNeighbors s.nodes u layer = .ok l → ∀ n ∈ l, n ∈ layerIds s.nodes layer :=
    fun _ _ h => getNeighbors_subset h
  have hinit : ∀ S'' : Stl, LoopInv (getNeighbors s.nodes · layer) (s.distanceToQuery query) ef P d []
      ⟨[e], S''.push near [] ⟨e, d⟩, S''.push far [] ⟨e, d⟩⟩ := fun _ => LoopInv.init hd he
  obtain ⟨st, hst, hi, hexp, -⟩ :=
    searchLoop_spec (S := S) hP hU _ _ (hinit S) (LayerSearch.measure_init _ e d)
  obtain ⟨st', hst', hi', hexp', -⟩ :=
    searchLoop_spec (S := S') hP hU _ _ (hinit S') (LayerSearch.measure_init _ e d)
  have hR := searchLoop_same hP hs _ (hinit S) (hinit S')
    ⟨rfl, by simp [Stl.push_nil], by simp [Stl.push_nil]⟩ hst hst'
  have hb := hi.beam (S := S) hexp
  have hp : (drain S st.W.length st.W).reverse.Perm (drain S' st'.W.length st'.W).reverse :=
    ((List.reverse_perm _).trans (drain_spec st.W.length hi.heapW rfl).1).trans
      (hR.2.2.trans ((List.reverse_perm _).trans (drain_spec st'.W.length hi'.heapW rfl).1).symm)
  simp only [HNSWIndex.searchLayer, hd, ok_bind]
  rw [hst, hst']
  exact congrArg Except.ok (eq_of_perm_of_sorted_key hp hb.sorted (hi'.beam hexp').sorted
    (hs.eq_of_distance_eq hb.entries hb.nodup))

section Descent

variable {t : HNSWIndex} {lev : Nat → Nat} {N n : Nat} {q : List ℚ}

theorem separates_upper (hsep : ∀ i < n, ∀ j < n, t.queryDist q i = t.queryDist q j → i = j)
    (lc : Nat) : Separates (t.distanceToQuery q) (Upper lev n lc) := fun i j _ hi hj hδi hδj =>
  hsep i hi.1 j hj.1 ((HNSWIndex.eq_queryDist_of_distanceToQuery hδi).symm.trans
    (HNSWIndex.eq_queryDist_of_distanceToQuery hδj))

theorem descend_cons {S : Stl} {curr lc : Nat} {ls : List Nat} {c : SearchCandidate}
    {rest : List SearchCandidate} (h : t.searchLayer S q curr 1 lc = .ok (c :: rest)) :
    t.descend S q curr (lc :: ls) = t.descend S q c.id ls := by
  simp only [HNSWIndex.descend, List.foldlM_cons, h, ok_bind, pure_eq_ok]

theorem descend_same (S S' : Stl) (hD : 0 < t.dimensions) (hlen : t.data.length = N * t.dimensions)
    (hn : n ≤ N) (hsep : ∀ i < n, ∀ j < n, t.queryDist q i = t.queryDist q j → i = j) :
    ∀ (ls : List Nat) (curr : Nat), ls.Pairwise (· > ·) → (∀ lc ∈ ls, LayerOk t.nodes lev n lc) →
      curr < n → (∀ lc ∈ ls, lc ≤ lev curr) → t.descend S q curr ls = t.descend S' q curr ls
  | [], _, _, _, _, _ => rfl
  | lc :: ls, curr, hp, hok, hc, hcl => by
    obtain ⟨hgt, hp⟩ := List.pairwise_cons.mp hp
    have hclosed := (hok lc (List.mem_cons_self _ _)).closed hD hlen hn q
    have hup : Upper lev n lc curr := ⟨hc, hcl lc (List.mem_cons_self _ _)⟩
    obtain ⟨_, _, _, -, hres, -, hb⟩ := searchLayer_spec (S := S) 1 hclosed hup
    obtain ⟨c, rest, rfl, hcP, -, -⟩ := hb.head
    rw [descend_cons hres, descend_cons ((searchLayer_same S S' 1 hclosed hup
      (separates_upper hsep lc)) ▸ hres)]
    exact descend_same S S' hD hlen hn hsep ls c.id hp (fun l hl => hok l (List.mem_cons_of_mem _ hl))
      hcP.1 fun l hl => (hgt l hl).le.trans hcP.2

end Descent

variable {S : Stl} {s : HNSWIndex} {log : List (List ℚ × Nat)} {q : List ℚ}

/-- From every reachable state, for every query whose distances to the stored vectors are
pairwise distinct and every `k`, `search` returns the same answer under any two conforming
libraries, whichever of them built the index. -/
theorem search_portable (S' : Stl) (h : HNSWIndex.Reachable S s log) (hD : 0 < s.dimensions)
    (hsep : ∀ i < s.numVectors, ∀ j < s.numVectors, s.queryDist q i = s.queryDist q j → i = j)
    (k : Nat) : s.search S q k = s.search S' q k := by
  have hl := h.wf.layered
  by_cases hq : q.length = s.dimensions
  swap
  · simp [HNSWIndex.search, hq]
  rcases Nat.eq_zero_or_pos s.numVectors with h0 | hn
  · simp [HNSWIndex.search, h0]
  obtain ⟨hep, hepl⟩ := hl.entry hn
  have hls := pairwise_layersAbove s.maxLayer 0
  have hcl : ∀ lc ∈ layersAbove s.maxLayer 0, lc ≤ levelOf log s.entryPoint :=
    fun lc hlc => (mem_layersAbove.mp hlc).2.trans hepl
  obtain ⟨curr, hdesc, hcurr, -, -⟩ := descend_spec (S := S) (q := q) hD hl.length_data le_rfl _ _ hls
    (fun lc _ => hl.layerOk lc) hep hcl
  have hdesc' := descend_same S S' hD hl.length_data le_rfl hsep _ _ hls
    (fun lc _ => hl.layerOk lc) hep hcl
  have hlayer := searchLayer_same S S' (max s.efSearch (min k s.numVectors))
    ((hl.layerOk 0).closed hD hl.length_data le_rfl q)
    (⟨hcurr, Nat.zero_le _⟩ : Upper (levelOf log) s.numVectors 0 curr) (separates_upper hsep 0)
  simp [HNSWIndex.search, hq, Nat.ne_of_gt hn, hdesc, ← hdesc', hlayer]

/-! ### Building the index -/

theorem HNSWNode.eq_of {a b : HNSWNode} (hid : a.id = b.id) (hn : a.neighbors = b.neighbors) :
    a = b := by
  cases a
  cases b
  simp_all

theorem nodes_ext {A B : List HNSWNode} (hid : A.map (·.id) = B.map (·.id))
    (hc : ∀ x, layerCount A x = layerCount B x) (hn : ∀ x L, nbrs A x L = nbrs B x L) : A = B := by
  have hlen : A.length = B.length := by simpa using congrArg List.length hid
  refine List.ext_getElem hlen fun i hA hB => HNSWNode.eq_of ?_ ?_
  · simpa [hA, hB] using congrArg (·[i]?) hid
  · have hcount : A[i].neighbors.length = B[i].neighbors.length := by
      simpa [layerCount, hA, hB] using hc i
    refine List.ext_getElem hcount fun L h₁ h₂ => ?_
    simpa [nbrs, hA, hB, h₁, h₂] using hn i L

theorem Stl.sort_same (S S' : Stl) {α : Type} {key : α → ℚ} {l : List α}
    (hk : ∀ x ∈ l, ∀ y ∈ l, key x = key y → x = y) : S.sort key l = S'.sort key l :=
  eq_of_perm_of_sorted_key ((S.sort_perm key l).trans (S'.sort_perm key l).symm)
    (S.sort_sorted key l) (S'.sort_sorted key l) fun x hx y hy =>
      hk x ((S.sort_perm key l).subset hx) y ((S.sort_perm key l).subset hy)

theorem keepNearest_same (S S' : Stl) {key : Nat → ℚ} {M : Nat} {l : List Nat}
    (hk : ∀ x ∈ l, ∀ y ∈ l, key x = key y → x = y) : keepNearest S key M l = keepNearest S' key M l := by
  unfold keepNearest
  split
  · rfl
  · rw [Stl.sort_same S S' fun a ha b hb h => ?_]
    obtain ⟨x, hx, rfl⟩ := List.mem_map.mp ha
    obtain ⟨y, hy, rfl⟩ := List.mem_map.mp hb
    rw [hk x hx y hy h]

theorem linkedLists_same (S S' : Stl) {key : Nat → Nat → ℚ} {M n : Nat} {G : Nat → List Nat}
    {ms : List Nat} (hk : ∀ x ∈ ms, ∀ y ∈ G x ++ [n], ∀ z ∈ G x ++ [n], key x y = key x z → y = z)
    (x : Nat) : linkedLists S key M n G ms x = linkedLists S' key M n G ms x := by
  unfold linkedLists
  split_ifs with h₁ h₂
  · rfl
  · exact keepNearest_same S S' (hk x h₂)
  · rfl

section Build

variable {lev : Nat → Nat} {n : Nat} {v : List ℚ}

theorem insertLayer_same (S S' : Stl) {t : HNSWIndex} {lc curr : Nat} (hD : 0 < t.dimensions)
    (hlen : t.data.length = (n + 1) * t.dimensions) (hok : LayerOk t.nodes lev n lc)
    (hn : lc < layerCount t.nodes n) (hc : Upper lev n lc curr)
    (hq : ∀ i < n, ∀ j < n, t.queryDist v i = t.queryDist v j → i = j)
    (hd : ∀ x ≤ n, ∀ y ≤ n, ∀ z ≤ n, t.dist x y = t.dist x z → y = z) :
    HNSWIndex.insertLayer S v n (t, curr) lc = HNSWIndex.insertLayer S' v n (t, curr) lc := by
  have hclosed := hok.closed hD hlen (Nat.le_succ n) v
  obtain ⟨_, res, _, -, hres, -, hb⟩ := searchLayer_spec (S := S) t.efConstruction hclosed hc
  have hres' : t.searchLayer S' v curr t.efConstruction lc = .ok res :=
    searchLayer_same S S' _ hclosed hc (separates_upper hq lc) ▸ hres
  obtain ⟨hup, hnd, hnot, hready⟩ := hb.linkable hD hlen hok (t.layerCap lc)
  obtain ⟨A, hA, hidsA, hcountA, hnbrsA⟩ :=
    foldlM_link (S := S) (M := t.layerCap lc) _ t hnd hnot hn hready
  obtain ⟨B, hB, hidsB, hcountB, hnbrsB⟩ :=
    foldlM_link (S := S') (M := t.layerCap lc) _ t hnd hnot hn hready
  -- the nodes the round links share their distances to their neighbours with no other node
  have hsep : ∀ m ∈ (res.take (t.layerCap lc)).map (·.id), ∀ y ∈ nbrs t.nodes m lc ++ [n],
      ∀ z ∈ nbrs t.nodes m lc ++ [n], t.dist m y = t.dist m z → y = z := fun m hm => by
    obtain ⟨c, hc, rfl⟩ := List.mem_map.mp hm
    have hu := hup c hc
    have hle : ∀ w ∈ nbrs t.nodes c.id lc ++ [n], w ≤ n := fun w hw =>
      (List.mem_append.mp hw).elim (fun h => ((hok _ hu).2 w h).1.le)
        fun h => (List.mem_singleton.mp h).le
    exact fun y hy z hz => hd _ hu.1.le y (hle y hy) z (hle z hz)
  have hAB : A = B := nodes_ext (hidsA.trans hidsB.symm)
    (fun x => (hcountA x).trans (hcountB x).symm) fun x L => by
      rw [hnbrsA, hnbrsB]
      split_ifs
      · exact linkedLists_same S S' hsep x
      · rfl
  unfold HNSWIndex.layerCap at hA hB
  simp only [HNSWIndex.insertLayer, hres, hres', ok_bind, hA, hB, hAB]

theorem foldlM_insertLayer_same (S S' : Stl) : ∀ (ls : List Nat) (t : HNSWIndex) (curr : Nat),
    0 < t.dimensions → t.data.length = (n + 1) * t.dimensions → ls.Pairwise (· > ·) →
    (∀ lc ∈ ls, LayerOk t.nodes lev n lc ∧ lc < layerCount t.nodes n ∧ lc ≤ lev curr) → curr < n →
    (∀ i < n, ∀ j < n, t.queryDist v i = t.queryDist v j → i = j) →
    (∀ x ≤ n, ∀ y ≤ n, ∀ z ≤ n, t.dist x y = t.dist x z → y = z) →
    ls.foldlM (HNSWIndex.insertLayer S v n) (t, curr) =
      ls.foldlM (HNSWIndex.insertLayer S' v n) (t, curr)
  | [], _, _, _, _, _, _, _, _, _ => by rw [List.foldlM_nil, List.foldlM_nil]
  | lc :: ls, t, curr, hD, hlen, hp, hall, hc, hq, hd => by
    obtain ⟨hgt, hp⟩ := List.pairwise_cons.mp hp
    obtain ⟨hok, hln, hcl⟩ := hall lc (List.mem_cons_self _ _)
    obtain ⟨A, _, curr₁, hstep, hup₁, -, hcountA, -, -, hnbrsA, -⟩ :=
      insertLayer_spec (S := S) (v := v) hD hlen hok hln ⟨hc, hcl⟩
    have hframe : ∀ L, L ≠ lc → ∀ x, nbrs A x L = nbrs t.nodes x L := fun L hL x => by
      rw [hnbrsA, if_neg hL]
    rw [List.foldlM_cons, List.foldlM_cons, ← insertLayer_same S S' hD hlen hok hln ⟨hc, hcl⟩ hq hd,
      hstep, ok_bind, ok_bind]
    exact foldlM_insertLayer_same S S' ls { t with nodes := A } curr₁ hD hlen hp
      (layersOk_after_round hgt hall hframe hcountA hup₁) hup₁.1 hq hd

theorem add_same (S S' : Stl) {s : HNSWIndex} (hs : Layered s lev) (hD : 0 < s.dimensions)
    (hv : v.length = s.dimensions)
    (hsep : ∀ x ≤ s.numVectors, ∀ y ≤ s.numVectors, ∀ z ≤ s.numVectors,
      s.kernel (slice (s.data ++ v) s.dimensions x) (slice (s.data ++ v) s.dimensions y)
        s.dimensions =
      s.kernel (slice (s.data ++ v) s.dimensions x) (slice (s.data ++ v) s.dimensions z)
        s.dimensions → y = z) :
    s.add S v = s.add S' v := by
  rcases Nat.eq_zero_or_pos s.numVectors with hn | hn
  · simp [HNSWIndex.add, hv, hn]
  obtain ⟨hep, hepl⟩ := hs.entry hn
  rcases hg : getRandomLevel s.M s.rng with ⟨lvl, rng⟩
  obtain ⟨hlen₁, hcount₁, hok₁⟩ := hs.append hv rng (max lvl s.maxLayer)
  have hrow : slice (s.data ++ v) s.dimensions s.numVectors = v := slice_append_row hs.length_data hv
  set n := s.numVectors with hn_def
  set s₁ : HNSWIndex := { s with
    rng, data := s.data ++ v, nodes := s.nodes ++ [HNSWNode.new n (max lvl s.maxLayer)] } with hs₁
  -- `v` is row `n`: distances from the query are distances from row `n`
  have hq : ∀ i < n, ∀ j < n, s₁.queryDist v i = s₁.queryDist v j → i = j := fun i hi j hj h =>
    hsep n le_rfl i hi.le j hj.le (by rw [hrow]; exact h)
  have hcl : ∀ lc ∈ layersAbove s.maxLayer lvl, lc ≤ lev s.entryPoint :=
    fun lc hlc => (mem_layersAbove.mp hlc).2.trans hepl
  obtain ⟨curr, hdesc, hcurr, -, hb⟩ := descend_spec (S := S) (t := s₁) (q := v) hD hlen₁
    (Nat.le_succ n) _ _ (pairwise_layersAbove _ _) (fun lc _ => hok₁ lc) hep hcl
  have hdesc' := descend_same S S' (t := s₁) (q := v) hD hlen₁ (Nat.le_succ n) hq _ _
    (pairwise_layersAbove _ _) (fun lc _ => hok₁ lc) hep hcl
  have hB : min lvl s.maxLayer ≤ lev curr :=
    hb _ (fun lc hlc => by have := (mem_layersAbove.mp hlc).1; omega) ((min_le_right _ _).trans hepl)
  have hfold := foldlM_insertLayer_same S S' (v := v) (List.range (min lvl s.maxLayer + 1)).reverse
    s₁ curr hD hlen₁ (List.pairwise_reverse.mpr (List.pairwise_lt_range _)) (fun lc hlc => by
      have := List.mem_range.mp (List.mem_reverse.mp hlc)
      refine ⟨hok₁ lc, ?_, by omega⟩
      rw [hcount₁, if_pos rfl]
      omega) hcurr hq hsep
  simp only [HNSWIndex.add, hv, ne_eq, not_true_eq_false, if_false, hg, Nat.ne_of_gt hn,
    pure_bind, ← hn_def, ← hs₁, hdesc, ← hdesc', ok_bind, hfold]

end Build

/-- From each of the vectors `vs`, the vectors `vs` are at pairwise distinct distances. -/
def DistinctDistances (kernel : DistanceKernel) (dimensions : Nat) (vs : List (List ℚ)) : Prop :=
  ∀ x (hx : x < vs.length) y (hy : y < vs.length) z (hz : z < vs.length),
    kernel vs[x] vs[y] dimensions = kernel vs[x] vs[z] dimensions → y = z

instance (kernel : DistanceKernel) (dimensions : Nat) (vs : List (List ℚ)) :
    Decidable (DistinctDistances kernel dimensions vs) :=
  inferInstanceAs (Decidable (∀ x (hx : x < vs.length) y (hy : y < vs.length) z (hz : z < vs.length),
    kernel vs[x] vs[y] dimensions = kernel vs[x] vs[z] dimensions → y = z))

theorem DistinctDistances.of_append {K : DistanceKernel} {D : Nat} {l r : List (List ℚ)}
    (h : DistinctDistances K D (l ++ r)) : DistinctDistances K D l := fun x hx y hy z hz e => by
  have hl : ∀ {i}, i < l.length → i < (l ++ r).length := fun hi => by simp; omega
  exact h x (hl hx) y (hl hy) z (hl hz) (by simpa [List.getElem_append_left, hx, hy, hz] using e)

theorem HNSWIndex.Reachable.add_same (S' : Stl) (h : HNSWIndex.Reachable S s log)
    (hD : 0 < s.dimensions) (v : List ℚ)
    (hsep : DistinctDistances s.kernel s.dimensions (log.map (·.1) ++ [v])) :
    s.add S v = s.add S' v := by
  have hw := h.wf
  by_cases hv : v.length = s.dimensions
  swap
  · simp [HNSWIndex.add, hv]
  have hrows : ∀ u ∈ log.map (·.1) ++ [v], u.length = s.dimensions := fun u hu => by
    rcases List.mem_append.mp hu with hu | hu
    · obtain ⟨p, hp, rfl⟩ := List.mem_map.mp hu
      exact hw.rows p hp
    · rw [List.mem_singleton.mp hu, hv]
  have hdata : s.data ++ v = (log.map (·.1) ++ [v]).flatten := by
    rw [hw.data_eq, List.flatten_append, List.flatten_singleton]
  refine NexaDb.Native.add_same S S' hw.layered hD hv fun x hx y hy z hz e => ?_
  have hlt : ∀ {i}, i ≤ s.numVectors → i < (log.map (·.1) ++ [v]).length := fun hi => by
    simp [← hw.numVectors_eq]; omega
  rw [hdata, slice_flatten_of_rows hrows x (hlt hx), slice_flatten_of_rows hrows y (hlt hy),
    slice_flatten_of_rows hrows z (hlt hz)] at e
  exact hsep x (hlt hx) y (hlt hy) z (hlt hz) e

/-- From every reachable state, `add_batch` of vectors that keep all stored vectors at pairwise
distinct distances from one another builds the same index, and stops at the same error, under any
two conforming libraries. -/
theorem addBatch_portable (S' : Stl) : ∀ {s : HNSWIndex} {log : List (List ℚ × Nat)},
    HNSWIndex.Reachable S s log → 0 < s.dimensions → ∀ (vs : List (List ℚ)),
      DistinctDistances s.kernel s.dimensions (log.map (·.1) ++ vs) →
        s.addBatch S vs = s.addBatch S' vs
  | _, _, _, _, [], _ => rfl
  | s, log, h, hD, v :: vs, hsep => by
    have hsplit : log.map (·.1) ++ v :: vs = (log.map (·.1) ++ [v]) ++ vs := by simp
    have hadd := h.add_same S' hD v (hsplit ▸ hsep).of_append
    rw [HNSWIndex.addBatch, HNSWIndex.addBatch, hadd]
    cases hS' : s.add S' v with
    | error e => rfl
    | ok s' =>
      have hA := Added.of_add h.wf.layered (hadd.trans hS')
      refine addBatch_portable S' (.add h (hadd.trans hS')) (hA.dimensions_eq ▸ hD) vs ?_
      rw [hA.dimensions_eq, hA.kernel_eq]
      simpa using hsep

section Runs

attribute [local semireducible] Rat.add Rat.sub Rat.mul

set_option maxRecDepth 100000 in
theorem search_portable_four :
    ∃ s log, HNSWIndex.Reachable Stl.binaryHeap s log ∧ 0 < s.dimensions ∧
      (∀ i < s.numVectors, ∀ j < s.numVectors, s.queryDist [0] i = s.queryDist [0] j → i = j) ∧
      s.search Stl.binaryHeap [0] 4 = s.search Stl.sorting [0] 4 ∧
      s.search Stl.sorting [0] 4 = .ok [(0, 0), (1, 1), (2, 9), (3, 49)] := by
  obtain ⟨s, log, hr, ⟨hD, hsep⟩, hres⟩ : ∃ s log, HNSWIndex.Reachable Stl.binaryHeap s log ∧
      (0 < s.dimensions ∧
        ∀ i < s.numVectors, ∀ j < s.numVectors, s.queryDist [0] i = s.queryDist [0] j → i = j) ∧
      s.search Stl.sorting [0] 4 = .ok [(0, 0), (1, 1), (2, 9), (3, 49)] :=
    ⟨_, _, .add (v := [7]) (.add (v := [3]) (.add (v := [1]) (.add (v := [0])
      (.new 1 1000000 16 200 l2DistanceSimd) rfl) rfl) rfl) rfl, by decide, by rfl⟩
  exact ⟨s, log, hr, hD, hsep, search_portable Stl.sorting hr hD hsep 4, hres⟩

set_option maxRecDepth 100000 in
theorem addBatch_portable_four :
    HNSWIndex.Reachable Stl.sorting (HNSWIndex.new 1 1000000 16 200) [] ∧
      0 < (HNSWIndex.new 1 1000000 16 200).dimensions ∧
      DistinctDistances (HNSWIndex.new 1 1000000 16 200).kernel
        (HNSWIndex.new 1 1000000 16 200).dimensions
        (([] : List (List ℚ × Nat)).map (·.1) ++ [[0], [1], [3], [7]]) ∧
      (HNSWIndex.new 1 1000000 16 200).addBatch Stl.sorting [[0], [1], [3], [7]] =
        (HNSWIndex.new 1 1000000 16 200).addBatch Stl.binaryHeap [[0], [1], [3], [7]] :=
  have hr : HNSWIndex.Reachable Stl.sorting (HNSWIndex.new 1 1000000 16 200) [] :=
    .new 1 1000000 16 200 l2DistanceSimd
  have hsep : DistinctDistances (HNSWIndex.new 1 1000000 16 200).kernel
      (HNSWIndex.new 1 1000000 16 200).dimensions
      (([] : List (List ℚ × Nat)).map (·.1) ++ [[0], [1], [3], [7]]) := by decide
  ⟨hr, by decide, hsep, addBatch_portable Stl.binaryHeap hr (by decide) _ hsep⟩

end Runs

end NexaDb.Native
