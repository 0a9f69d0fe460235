import NexaDb.Hnsw.SearchLayerLaws
import NexaDb.Hnsw.Graph

/-! Insertion: the greedy descent, one round of the insertion loop, and what a whole `add` does
to the index, from the shape of the state it starts from. -/

namespace NexaDb.Native

open SearchCandidate (far near)

def Upper (lev : Nat → Nat) (n lc v : Nat) : Prop := v < n ∧ lc ≤ lev v

/-- Layer `lc` over the first `n` nodes, of levels `lev`: every node of level at least `lc` has a
list there, and it lists only such nodes. -/
def LayerOk (nodes : List HNSWNode) (lev : Nat → Nat) (n lc : Nat) : Prop :=
  ∀ u, Upper lev n lc u → lc < layerCount nodes u ∧ ∀ w ∈ nbrs nodes u lc, Upper lev n lc w

theorem Beam.head {nbrsOf : Nat → Except Error (List Nat)} {dist : Nat → Except Error ℚ}
    {ef : Nat} {P : Nat → Prop} {δ₀ : ℚ} {V : List Nat} {res : List SearchCandidate}
    (h : Beam nbrsOf dist ef P δ₀ V res) :
    ∃ c rest, res = c :: rest ∧ P c.id ∧ dist c.id = .ok c.distance ∧ c.distance ≤ δ₀ := by
  obtain ⟨c, rest, rfl⟩ := List.exists_cons_of_ne_nil h.ne_nil
  obtain ⟨c', hc', hle⟩ := h.nearEntry
  have hmem := h.mem c (List.mem_cons_self _ _)
  refine ⟨c, rest, rfl, (h.visited _ hmem.1).1, hmem.2, ?_⟩
  rcases List.mem_cons.mp hc' with rfl | hc'
  · exact hle
  · exact (List.rel_of_sorted_cons h.sorted _ hc').trans hle

section Descent

variable {S : Stl} {t : HNSWIndex} {lev : Nat → Nat} {N n lc : Nat} {q : List ℚ}

theorem LayerOk.congr {nodes nodes' : List HNSWNode} (h : LayerOk nodes lev n lc)
    (hn : ∀ x, nbrs nodes' x lc = nbrs nodes x lc) (hc : ∀ u < n, layerCount nodes' u = layerCount nodes u) :
    LayerOk nodes' lev n lc := fun u hu => by
  rw [hn, hc u hu.1]
  exact h u hu

theorem LayerOk.closed (h : LayerOk t.nodes lev n lc) (hD : 0 < t.dimensions)
    (hlen : t.data.length = N * t.dimensions) (hn : n ≤ N) (q : List ℚ) :
    Closed (getNeighbors t.nodes · lc) (t.distanceToQuery q) (Upper lev n lc) := fun v hv =>
  ⟨⟨_, t.distanceToQuery_eq hlen hD q (Nat.lt_of_lt_of_le hv.1 hn)⟩, _,
    getNeighbors_of_lt (h v hv).1, (h v hv).2⟩

/-- The greedy descent stays among the first `n` nodes, never moves away from the query, and
lands on a node of level at least any bound below all its layers and the start's level. -/
theorem descend_spec (hD : 0 < t.dimensions) (hlen : t.data.length = N * t.dimensions) (hn : n ≤ N) :
    ∀ (ls : List Nat) (curr : Nat), ls.Pairwise (· > ·) → (∀ lc ∈ ls, LayerOk t.nodes lev n lc) →
      curr < n → (∀ lc ∈ ls, lc ≤ lev curr) →
      ∃ curr', t.descend S q curr ls = .ok curr' ∧ curr' < n ∧
        t.queryDist q curr' ≤ t.queryDist q curr ∧
        ∀ b, (∀ lc ∈ ls, b ≤ lc) → b ≤ lev curr → b ≤ lev curr'
  | [], curr, _, _, hc, _ => ⟨curr, rfl, hc, le_rfl, fun _ _ h => h⟩
  | lc :: ls, curr, hp, hok, hc, hcl => by
    obtain ⟨hgt, hp⟩ := List.pairwise_cons.mp hp
    obtain ⟨d, res, V, hd, hres, -, hb⟩ := searchLayer_spec (S := S) 1
      ((hok lc (List.mem_cons_self _ _)).closed hD hlen hn q) ⟨hc, hcl lc (List.mem_cons_self _ _)⟩
    obtain ⟨c, rest, rfl, hcP, hcd, hcle⟩ := hb.head
    have hstep : t.descend S q curr (lc :: ls) = t.descend S q c.id ls := by
      simp only [HNSWIndex.descend, List.foldlM_cons, hres, ok_bind, pure_eq_ok]
    obtain ⟨curr', h₁, h₂, h₃, h₄⟩ := descend_spec hD hlen hn ls c.id hp
      (fun l hl => hok l (List.mem_cons_of_mem _ hl)) hcP.1 (fun l hl => (hgt l hl).le.trans hcP.2)
    refine ⟨curr', hstep ▸ h₁, h₂, ?_, fun b hb hbc =>
      h₄ b (fun l hl => hb l (List.mem_cons_of_mem _ hl)) ((hb lc (List.mem_cons_self _ _)).trans hcP.2)⟩
    calc t.queryDist q curr' ≤ t.queryDist q c.id := h₃
      _ = c.distance := (HNSWIndex.eq_queryDist_of_distanceToQuery hcd).symm
      _ ≤ d := hcle
      _ = t.queryDist q curr := HNSWIndex.eq_queryDist_of_distanceToQuery hd

theorem descend_single (hD : 0 < t.dimensions) (hlen : t.data.length = N * t.dimensions)
    (hn : n ≤ N) (hok : LayerOk t.nodes lev n lc) {curr : Nat} (hc : Upper lev n lc curr) :
    ∃ curr', t.descend S q curr [lc] = .ok curr' ∧ Upper lev n lc curr' ∧
      ∀ v ∈ nbrs t.nodes curr' lc, t.queryDist q curr' ≤ t.queryDist q v := by
  obtain ⟨d, res, V, -, hres, -, hb⟩ := searchLayer_spec (S := S) 1 (hok.closed hD hlen hn q) hc
  obtain ⟨c, rest, rfl, hcP, hcd, -⟩ := hb.head
  obtain rfl : rest = [] := List.eq_nil_of_length_eq_zero (by simpa using hb.bounded)
  refine ⟨c.id, by simp [HNSWIndex.descend, hres], hcP, fun v hv => ?_⟩
  obtain ⟨l, hl, hlV⟩ := hb.expanded c (List.mem_singleton_self c)
  obtain ⟨-, rfl⟩ := getNeighbors_eq_ok.mp hl
  obtain ⟨-, δ, hδ, hfar⟩ := hb.visited v (hlV v hv)
  rw [← HNSWIndex.eq_queryDist_of_distanceToQuery hcd, ← HNSWIndex.eq_queryDist_of_distanceToQuery hδ]
  by_cases hvc : v ∈ [c].map (·.id)
  · obtain rfl : v = c.id := by simpa using hvc
    rw [hcd, Except.ok.injEq] at hδ
    exact hδ ▸ le_rfl
  · exact hfar hvc c (List.mem_singleton_self c)

theorem descend_local_min (hD : 0 < t.dimensions) (hlen : t.data.length = N * t.dimensions)
    (hn : n ≤ N) (ls : List Nat) (lc curr : Nat) (hp : (ls ++ [lc]).Pairwise (· > ·))
    (hok : ∀ l ∈ ls ++ [lc], LayerOk t.nodes lev n l) (hc : curr < n)
    (hcl : ∀ l ∈ ls ++ [lc], l ≤ lev curr) :
    ∃ curr', t.descend S q curr (ls ++ [lc]) = .ok curr' ∧ curr' < n ∧
      ∀ v ∈ nbrs t.nodes curr' lc, t.queryDist q curr' ≤ t.queryDist q v := by
  obtain ⟨c, h₁, hcn, -, hlev⟩ := descend_spec (S := S) (q := q) hD hlen hn ls curr
    (hp.sublist (List.sublist_append_left _ _)) (fun l hl => hok l (List.mem_append_left _ hl)) hc
    (fun l hl => hcl l (List.mem_append_left _ hl))
  have hlc : lc ≤ lev c := hlev lc
    (fun l hl => ((List.pairwise_append.mp hp).2.2 l hl lc (List.mem_singleton_self _)).le)
    (hcl lc (List.mem_append_right _ (List.mem_singleton_self _)))
  obtain ⟨c', h₂, hup, hmin⟩ := descend_single (S := S) (q := q) hD hlen hn
    (hok lc (List.mem_append_right _ (List.mem_singleton_self _))) ⟨hcn, hlc⟩
  have hsplit : t.descend S q curr (ls ++ [lc]) = t.descend S q curr ls >>= fun c =>
      t.descend S q c [lc] := by
    simp only [HNSWIndex.descend, List.foldlM_append]
  exact ⟨c', by rw [hsplit, h₁, ok_bind, h₂], hup.1, hmin⟩

end Descent

/-- The lists `G` of one layer after the new node `n` is linked with each of `ms` in turn: `n`
gains `ms`, and each of `ms` gains `n` and is cut back to its `M` nearest under `key`. -/
def linkedLists (S : Stl) (key : Nat → Nat → ℚ) (M n : Nat) (G : Nat → List Nat) (ms : List Nat)
    (x : Nat) : List Nat :=
  if x = n then G n ++ ms else if x ∈ ms then keepNearest S (key x) M (G x ++ [n]) else G x

@[simp] theorem linkedLists_nil {S : Stl} {key : Nat → Nat → ℚ} {M n x : Nat} {G : Nat → List Nat} :
    linkedLists S key M n G [] x = G x := by
  by_cases hx : x = n
  · subst hx; simp [linkedLists]
  · simp [linkedLists, hx]

structure Picked (lev : Nat → Nat) (n lc M : Nat) (ms : List Nat) : Prop where
  nodup : ms.Nodup
  upper : ∀ m ∈ ms, Upper lev n lc m
  length_le : ms.length ≤ M

section Linking

variable {S : Stl} {n lc M : Nat}

theorem foldlM_link : ∀ (nbs : List SearchCandidate) (t : HNSWIndex),
    (nbs.map (·.id)).Nodup → n ∉ nbs.map (·.id) → lc < layerCount t.nodes n →
    (∀ c ∈ nbs, lc < layerCount t.nodes c.id ∧
      ∀ x ∈ nbrs t.nodes c.id lc ++ [n], t.distance c.id x = .ok (t.dist c.id x)) →
    ∃ nodes', nbs.foldlM (HNSWIndex.link S n lc M) t = .ok { t with nodes := nodes' } ∧
      nodes'.map (·.id) = t.nodes.map (·.id) ∧ (∀ x, layerCount nodes' x = layerCount t.nodes x) ∧
      ∀ x L, nbrs nodes' x L = if L = lc
        then linkedLists S t.dist M n (nbrs t.nodes · lc) (nbs.map (·.id)) x else nbrs t.nodes x L
  | [], t, _, _, _, _ => ⟨t.nodes, rfl, rfl, fun _ => rfl, fun x L => by
      by_cases h : L = lc
      · subst h; simp
      · simp [h]⟩
  | ⟨m, δ⟩ :: nbs, t, hnd, hn, hln, hc => by
    obtain ⟨hlm, hd⟩ := hc ⟨m, δ⟩ (List.mem_cons_self _ _)
    simp only [List.map_cons, List.nodup_cons, List.mem_cons, not_or] at hnd hn
    have hmn : m ≠ n := Ne.symm hn.1
    have hframe : ∀ x, x ≠ n → x ≠ m → ∀ L,
        nbrs (linkNodes S (t.dist m) t.nodes n m lc M) x L = nbrs t.nodes x L := fun x hxn hxm L => by
      rw [nbrs_linkNodes hln hlm hmn]
      simp [hxn, hxm]
    obtain ⟨nodes', hfold, hids, hcount, hnbrs⟩ :=
      foldlM_link nbs { t with nodes := linkNodes S (t.dist m) t.nodes n m lc M } hnd.2 hn.2
        (by simpa using hln) fun c hc' => by
          have hcm : c.id ≠ m := fun h => hnd.1 (h ▸ List.mem_map_of_mem _ hc')
          have hcn : c.id ≠ n := fun h => hn.2 (h ▸ List.mem_map_of_mem _ hc')
          simpa [hframe c.id hcn hcm] using hc c (List.mem_cons_of_mem _ hc')
    refine ⟨nodes', ?_, by simpa using hids, fun x => by simpa using hcount x, fun x L => ?_⟩
    · rw [List.foldlM_cons, HNSWIndex.link_eq hln hlm hmn hd, ok_bind, hfold]
    · rw [hnbrs x L]
      simp only [HNSWIndex.dist_with_nodes, linkedLists]
      by_cases hL : L = lc
      · subst hL
        rcases eq_or_ne x n with rfl | hxn
        · simp [nbrs_linkNodes hln hlm hmn]
        rcases eq_or_ne x m with rfl | hxm
        · simp [nbrs_linkNodes hln hlm hmn, hxn, hnd.1]
        · simp [hxn, hxm, hframe x hxn hxm]
      · simp [hL, nbrs_linkNodes hln hlm hmn]

end Linking

section Insertion

variable {S : Stl} {lev : Nat → Nat} {n : Nat} {v : List ℚ}

theorem Beam.linkable {nbrsOf : Nat → Except Error (List Nat)} {dist : Nat → Except Error ℚ}
    {ef : Nat} {δ₀ : ℚ} {V : List Nat} {res : List SearchCandidate} {t : HNSWIndex} {lc : Nat}
    (hb : Beam nbrsOf dist ef (Upper lev n lc) δ₀ V res) (hD : 0 < t.dimensions)
    (hlen : t.data.length = (n + 1) * t.dimensions) (hok : LayerOk t.nodes lev n lc) (k : Nat) :
    (∀ c ∈ res.take k, Upper lev n lc c.id) ∧ ((res.take k).map (·.id)).Nodup ∧
      n ∉ (res.take k).map (·.id) ∧
      ∀ c ∈ res.take k, lc < layerCount t.nodes c.id ∧
        ∀ x ∈ nbrs t.nodes c.id lc ++ [n], t.distance c.id x = .ok (t.dist c.id x) := by
  have hup : ∀ c ∈ res.take k, Upper lev n lc c.id := fun c hc =>
    (hb.visited _ (hb.mem c (List.mem_of_mem_take hc)).1).1
  refine ⟨hup, ((List.take_sublist _ _).map _).nodup hb.nodup, fun h => ?_, fun c hc => ?_⟩
  · obtain ⟨c, hc, he⟩ := List.mem_map.mp h
    exact absurd (hup c hc).1 (by omega)
  · have hu := hup c hc
    refine ⟨(hok _ hu).1, fun x hx => t.distance_eq hlen hD (Nat.lt_succ_of_lt hu.1) ?_⟩
    rcases List.mem_append.mp hx with hx | hx
    · exact Nat.lt_succ_of_lt ((hok _ hu).2 x hx).1
    · rw [List.mem_singleton.mp hx]
      exact Nat.lt_succ_self n

/-- One round of the insertion loop at layer `lc`, from a node of that layer: it links `n` with
the neighbours it picks and moves on to the nearest of them. -/
theorem insertLayer_spec {t : HNSWIndex} {lc curr : Nat} (hD : 0 < t.dimensions)
    (hlen : t.data.length = (n + 1) * t.dimensions) (hok : LayerOk t.nodes lev n lc)
    (hn : lc < layerCount t.nodes n) (hc : Upper lev n lc curr) :
    ∃ nodes' ms curr', HNSWIndex.insertLayer S v n (t, curr) lc = .ok ({ t with nodes := nodes' }, curr') ∧
      Upper lev n lc curr' ∧ nodes'.map (·.id) = t.nodes.map (·.id) ∧
      (∀ x, layerCount nodes' x = layerCount t.nodes x) ∧ Picked lev n lc (t.layerCap lc) ms ∧
      (0 < t.layerCap lc → ms ≠ []) ∧
      (∀ x L, nbrs nodes' x L = if L = lc
        then linkedLists S t.dist (t.layerCap lc) n (nbrs t.nodes · lc) ms x else nbrs t.nodes x L) ∧
      ∃ res V δ, Beam (getNeighbors t.nodes · lc) (t.distanceToQuery v) t.efConstruction
        (Upper lev n lc) δ V res ∧ ms = (res.take (t.layerCap lc)).map (·.id) := by
  obtain ⟨d, res, V, -, hres, -, hb⟩ := searchLayer_spec (S := S) t.efConstruction
    (hok.closed hD hlen (Nat.le_succ n) v) hc
  obtain ⟨hup, hnd, hnot, hready⟩ := hb.linkable hD hlen hok (t.layerCap lc)
  obtain ⟨nodes', hfold, hids, hcount, hnbrs⟩ := foldlM_link (S := S) (M := t.layerCap lc)
    (res.take (t.layerCap lc)) t hnd hnot hn hready
  refine ⟨nodes', (res.take (t.layerCap lc)).map (·.id),
    match res.take (t.layerCap lc) with | [] => curr | c :: _ => c.id, ?_, ?_, hids, hcount,
    ⟨hnd, fun m hm => ?_, by simp⟩, fun hcap => ?_, hnbrs, res, V, d, hb, rfl⟩
  · unfold HNSWIndex.layerCap at hfold
    simp only [HNSWIndex.insertLayer, hres, ok_bind, hfold]
    rfl
  · cases hcase : res.take (t.layerCap lc) with
    | nil => exact hc
    | cons c rest => exact hup c (hcase ▸ List.mem_cons_self c rest)
  · obtain ⟨c, hc, rfl⟩ := List.mem_map.mp hm
    exact hup c hc
  · obtain ⟨c, rest, rfl⟩ := List.exists_cons_of_ne_nil hb.ne_nil
    obtain ⟨cap, hcap'⟩ := Nat.exists_eq_add_of_lt hcap
    simp [hcap']

theorem layersOk_after_round {t : HNSWIndex} {A : List HNSWNode} {lc curr curr₁ : Nat}
    {ls : List Nat} (hgt : ∀ l ∈ ls, lc > l)
    (hall : ∀ l ∈ lc :: ls, LayerOk t.nodes lev n l ∧ l < layerCount t.nodes n ∧ l ≤ lev curr)
    (hframe : ∀ L, L ≠ lc → ∀ x, nbrs A x L = nbrs t.nodes x L)
    (hcount : ∀ x, layerCount A x = layerCount t.nodes x) (hup : Upper lev n lc curr₁) :
    ∀ l ∈ ls, LayerOk A lev n l ∧ l < layerCount A n ∧ l ≤ lev curr₁ := fun l hl => by
  obtain ⟨hokl, hlnl, -⟩ := hall l (List.mem_cons_of_mem _ hl)
  exact ⟨hokl.congr (hframe l (Nat.ne_of_lt (hgt l hl))) (fun u _ => hcount u),
    by simpa [hcount] using hlnl, (hgt l hl).le.trans hup.2⟩

theorem foldlM_insertLayer : ∀ (ls : List Nat) (t : HNSWIndex) (curr : Nat), 0 < t.dimensions →
    t.data.length = (n + 1) * t.dimensions → ls.Pairwise (· > ·) →
    (∀ lc ∈ ls, LayerOk t.nodes lev n lc ∧ lc < layerCount t.nodes n ∧ lc ≤ lev curr) → curr < n →
    ∃ nodes' curr', ls.foldlM (HNSWIndex.insertLayer S v n) (t, curr) =
        .ok ({ t with nodes := nodes' }, curr') ∧
      nodes'.map (·.id) = t.nodes.map (·.id) ∧ (∀ x, layerCount nodes' x = layerCount t.nodes x) ∧
      ∀ L, ∃ ms, (L ∉ ls → ms = []) ∧ (L ∈ ls → 0 < t.layerCap L → ms ≠ []) ∧
        Picked lev n L (t.layerCap L) ms ∧
        (∀ x, nbrs nodes' x L = linkedLists S t.dist (t.layerCap L) n (nbrs t.nodes · L) ms x) ∧
        (L ∈ ls → ∃ res V δ, Beam (getNeighbors t.nodes · L) (t.distanceToQuery v) t.efConstruction
          (Upper lev n L) δ V res ∧ ms = (res.take (t.layerCap L)).map (·.id))
  | [], t, curr, _, _, _, _, _ =>
    ⟨t.nodes, curr, rfl, rfl, fun _ => rfl, fun _ => ⟨[], fun _ => rfl, nofun,
      ⟨List.nodup_nil, by simp, by simp⟩, fun _ => by simp, nofun⟩⟩
  | lc :: ls, t, curr, hD, hlen, hp, hall, hc => by
    obtain ⟨hgt, hp⟩ := List.pairwise_cons.mp hp
    obtain ⟨hok, hln, hcl⟩ := hall lc (List.mem_cons_self _ _)
    obtain ⟨A, ms, curr₁, hstep, hup₁, hidsA, hcountA, hpick, hne, hnbrsA, hbeam⟩ :=
      insertLayer_spec (S := S) (v := v) hD hlen hok hln ⟨hc, hcl⟩
    have hframe : ∀ L, L ≠ lc → ∀ x, nbrs A x L = nbrs t.nodes x L := fun L hL x => by
      rw [hnbrsA, if_neg hL]
    obtain ⟨nodes', curr', hfold, hids, hcount, hlinked⟩ := foldlM_insertLayer ls { t with nodes := A }
      curr₁ hD hlen hp (layersOk_after_round hgt hall hframe hcountA hup₁) hup₁.1
    refine ⟨nodes', curr', ?_, by simpa [hidsA] using hids, fun x => by simp [hcount, hcountA],
      fun L => ?_⟩
    · rw [List.foldlM_cons, hstep, ok_bind]
      exact hfold
    · obtain ⟨ms', hms', hne', hpick', hnbrs', hbeam'⟩ := hlinked L
      by_cases hL : L = lc
      · subst hL
        obtain rfl := hms' fun h => lt_irrefl _ (hgt L h)
        refine ⟨ms, fun h => absurd (List.mem_cons_self _ _) h, fun _ => hne, hpick, fun x => ?_,
          fun _ => hbeam⟩
        rw [hnbrs', linkedLists_nil, hnbrsA, if_pos rfl]
      · -- layer `L` reads the same lists before and after the round at `lc`
        have hG : (getNeighbors A · L) = (getNeighbors t.nodes · L) :=
          funext fun u => getNeighbors_congr (hcountA u) (hframe L hL u)
        refine ⟨ms', fun h => hms' fun h' => h (List.mem_cons_of_mem _ h'),
          fun h => hne' ((List.mem_cons.mp h).resolve_left hL), hpick', fun x => ?_,
          fun h => hG ▸ hbeam' ((List.mem_cons.mp h).resolve_left hL)⟩
        rw [hnbrs' x, show (nbrs A · L) = (nbrs t.nodes · L) from funext (hframe L hL)]
        rfl

end Insertion

theorem mem_layersAbove {top bottom lc : Nat} :
    lc ∈ layersAbove top bottom ↔ bottom < lc ∧ lc ≤ top := by
  simp only [layersAbove, List.mem_reverse, List.mem_range'_1]
  omega

theorem pairwise_layersAbove (top bottom : Nat) : (layersAbove top bottom).Pairwise (· > ·) :=
  List.pairwise_reverse.mpr (List.pairwise_lt_range' _ _)

theorem layersAbove_eq_append {top b : Nat} (hb : b < top) :
    layersAbove top b = layersAbove top (b + 1) ++ [b + 1] := by
  obtain ⟨k, hk⟩ : ∃ k, top - b = k + 1 := ⟨top - b - 1, by omega⟩
  rw [layersAbove, layersAbove, hk, show top - (b + 1) = k by omega, List.range'_succ,
    List.reverse_cons]

def HNSWIndex.nextLevel (s : HNSWIndex) : Nat := (getRandomLevel s.M s.rng).1

/-- What `add` and `search` rely on in a state whose nodes have levels `lev`. -/
structure Layered (s : HNSWIndex) (lev : Nat → Nat) : Prop where
  length_nodes : s.nodes.length = s.numVectors
  length_data : s.data.length = s.numVectors * s.dimensions
  layerOk : ∀ L, LayerOk s.nodes lev s.numVectors L
  entry : 0 < s.numVectors → s.entryPoint < s.numVectors ∧ s.maxLayer ≤ lev s.entryPoint

/-- Everything one successful `add` of `v` changes: the node `n = numVectors` is appended with
`max (nextLevel) maxLayer + 1` layers, becomes the entry point if it is the first node or the
highest, and at every layer is linked with the neighbours it picks. -/
structure Added (S : Stl) (lev : Nat → Nat) (s : HNSWIndex) (v : List ℚ) (s' : HNSWIndex) :
    Prop where
  length_eq : v.length = s.dimensions
  eq : s' = { s with
    numVectors := s.numVectors + 1, data := s.data ++ v, rng := (getRandomLevel s.M s.rng).2,
    nodes := s'.nodes,
    entryPoint := if s.numVectors = 0 ∨ s.maxLayer < s.nextLevel then s.numVectors else s.entryPoint,
    maxLayer := if s.numVectors = 0 ∨ s.maxLayer < s.nextLevel then s.nextLevel else s.maxLayer }
  ids : s'.nodes.map (·.id) = s.nodes.map (·.id) ++ [s.numVectors]
  layerCount_eq : ∀ x, layerCount s'.nodes x =
    layerCount (s.nodes ++ [HNSWNode.new s.numVectors (max s.nextLevel s.maxLayer)]) x
  linked : ∀ L, ∃ ms, (ms ≠ [] → L ≤ s.nextLevel ∧ L ≤ s.maxLayer) ∧
    Picked lev s.numVectors L (s.layerCap L) ms ∧
    ∀ x, nbrs s'.nodes x L = linkedLists S s'.dist (s.layerCap L) s.numVectors (nbrs s.nodes · L) ms x
  picks : ∀ L, 0 < s.numVectors → L ≤ s.nextLevel → L ≤ s.maxLayer → 0 < s.layerCap L →
    nbrs s'.nodes s.numVectors L ≠ []
  layer0 : 0 < s.numVectors → ∃ res V δ,
    Beam (getNeighbors (s.nodes ++ [HNSWNode.new s.numVectors (max s.nextLevel s.maxLayer)]) · 0)
      (s'.distanceToQuery v) s.efConstruction (Upper lev s.numVectors 0) δ V res ∧
    ∀ x, nbrs s'.nodes x 0 =
      linkedLists S s'.dist s.MMax s.numVectors (nbrs s.nodes · 0) ((res.take s.MMax).map (·.id)) x

namespace Added

variable {S : Stl} {lev : Nat → Nat} {s s' : HNSWIndex} {v : List ℚ} (h : Added S lev s v s')
include h

theorem numVectors_eq : s'.numVectors = s.numVectors + 1 := by rw [h.eq]
theorem data_eq : s'.data = s.data ++ v := by rw [h.eq]
theorem dimensions_eq : s'.dimensions = s.dimensions := by rw [h.eq]
theorem M_eq : s'.M = s.M := by rw [h.eq]
theorem MMax_eq : s'.MMax = s.MMax := by rw [h.eq]
theorem efConstruction_eq : s'.efConstruction = s.efConstruction := by rw [h.eq]
theorem kernel_eq : s'.kernel = s.kernel := by rw [h.eq]
theorem rng_eq : s'.rng = (getRandomLevel s.M s.rng).2 := by rw [h.eq]
theorem layerCap_eq : s'.layerCap = s.layerCap := by rw [h.eq]; rfl
theorem entryPoint_eq : s'.entryPoint =
    if s.numVectors = 0 ∨ s.maxLayer < s.nextLevel then s.numVectors else s.entryPoint := by
  rw [h.eq]
theorem maxLayer_eq : s'.maxLayer =
    if s.numVectors = 0 ∨ s.maxLayer < s.nextLevel then s.nextLevel else s.maxLayer := by
  rw [h.eq]

end Added

section Add

variable {S : Stl} {lev : Nat → Nat} {s : HNSWIndex} {v : List ℚ}

theorem add_first (hs : Layered s lev) (hn : s.numVectors = 0) (hv : v.length = s.dimensions) :
    ∃ s', s.add S v = .ok s' ∧ Added S lev s v s' := by
  have hnil : s.nodes = [] := List.eq_nil_of_length_eq_zero (hs.length_nodes.trans hn)
  refine ⟨{ s with
    rng := (getRandomLevel s.M s.rng).2, data := s.data ++ v,
    nodes := s.nodes ++ [HNSWNode.new s.numVectors (max s.nextLevel s.maxLayer)],
    entryPoint := s.numVectors, maxLayer := s.nextLevel, numVectors := s.numVectors + 1 }, ?_,
    ⟨hv, by simp [hn], ?_, fun _ => rfl, fun L => ⟨[], by simp, ⟨List.nodup_nil, by simp, by simp⟩,
      fun x => ?_⟩, fun _ h => absurd hn (Nat.pos_iff_ne_zero.mp h),
      fun h => absurd hn (Nat.pos_iff_ne_zero.mp h)⟩⟩
  · simp only [HNSWIndex.add, hv, ne_eq, not_true_eq_false, if_false, hn, if_true]
    rfl
  · simp [hnil, hn, HNSWNode.new]
  · rw [linkedLists_nil]
    exact nbrs_append_new

theorem Layered.append (hs : Layered s lev) (hv : v.length = s.dimensions) (rng : Mt19937) (k : Nat) :
    let s₁ : HNSWIndex := { s with
      rng, data := s.data ++ v, nodes := s.nodes ++ [HNSWNode.new s.numVectors k] }
    s₁.data.length = (s.numVectors + 1) * s₁.dimensions ∧
      (∀ x, layerCount s₁.nodes x = if x = s.numVectors then k + 1 else layerCount s.nodes x) ∧
      ∀ L, LayerOk s₁.nodes lev s.numVectors L := by
  have hcount : ∀ x, layerCount (s.nodes ++ [HNSWNode.new s.numVectors k]) x =
      if x = s.numVectors then k + 1 else layerCount s.nodes x := fun x => by
    simp [layerCount_append_new, hs.length_nodes]
  refine ⟨by simp [hs.length_data, hv, Nat.succ_mul], hcount, fun L =>
    (hs.layerOk L).congr (fun x => nbrs_append_new) fun u hu => ?_⟩
  rw [hcount, if_neg (Nat.ne_of_lt hu)]

theorem add_later (hs : Layered s lev) (hD : 0 < s.dimensions) (hn : 0 < s.numVectors)
    (hv : v.length = s.dimensions) : ∃ s', s.add S v = .ok s' ∧ Added S lev s v s' := by
  obtain ⟨hep, hepl⟩ := hs.entry hn
  rcases hg : getRandomLevel s.M s.rng with ⟨lvl, rng⟩
  have hlvl : s.nextLevel = lvl := by simp [HNSWIndex.nextLevel, hg]
  obtain ⟨hlen₁, hcount₁, hok₁⟩ := hs.append hv rng (max lvl s.maxLayer)
  set n := s.numVectors with hn_def
  set s₁ : HNSWIndex := { s with
    rng, data := s.data ++ v, nodes := s.nodes ++ [HNSWNode.new n (max lvl s.maxLayer)] } with hs₁
  obtain ⟨curr, hdesc, hcurr, -, hb⟩ := descend_spec (S := S) (t := s₁) (q := v) hD hlen₁ (Nat.le_succ n)
    (layersAbove s.maxLayer lvl) s.entryPoint (pairwise_layersAbove _ _) (fun lc _ => hok₁ lc) hep
    (fun lc hlc => (mem_layersAbove.mp hlc).2.trans hepl)
  have hB : min lvl s.maxLayer ≤ lev curr :=
    hb _ (fun lc hlc => by have := (mem_layersAbove.mp hlc).1; omega) ((min_le_right _ _).trans hepl)
  obtain ⟨nodes', curr', hfold, hids, hcount, hlinked⟩ := foldlM_insertLayer (S := S) (v := v)
    (List.range (min lvl s.maxLayer + 1)).reverse s₁ curr hD hlen₁
    (List.pairwise_reverse.mpr (List.pairwise_lt_range _)) (fun lc hlc => by
      have := List.mem_range.mp (List.mem_reverse.mp hlc)
      refine ⟨hok₁ lc, ?_, by omega⟩
      rw [hcount₁, if_pos rfl]
      omega) hcurr
  have hadd : s.add S v = .ok { s₁ with
      nodes := nodes', numVectors := n + 1,
      entryPoint := if s.maxLayer < lvl then n else s.entryPoint,
      maxLayer := if s.maxLayer < lvl then lvl else s.maxLayer } := by
    simp only [HNSWIndex.add, hv, ne_eq, not_true_eq_false, if_false, hg, Nat.ne_of_gt hn,
      pure_bind, ← hn_def, ← hs₁, hdesc, ok_bind, hfold]
    by_cases hlt : s.maxLayer < lvl <;> simp [hlt, s₁]
  have hGn : ∀ L, nbrs s.nodes n L = [] := fun L => nbrs_of_length_le (by rw [hs.length_nodes])
  refine ⟨_, hadd, ⟨hv, by simp [s₁, hg, hlvl, Nat.ne_of_gt hn], by simp [hids, s₁, HNSWNode.new],
    fun x => by simp [hcount, s₁, hlvl], fun L => ?_, fun L _ hL hLm hcap => ?_, fun _ => ?_⟩⟩
  swap
  · -- the new node lists the neighbours it picked at every layer it is linked on
    obtain ⟨ms, -, hne, -, hnbrs, -⟩ := hlinked L
    rw [hnbrs n, linkedLists, if_pos rfl]
    simpa [s₁, nbrs_append_new, hGn] using hne (List.mem_reverse.mpr (List.mem_range.mpr
      (by rw [← hlvl]; omega))) hcap
  obtain ⟨ms, hms, -, hpick, hnbrs, -⟩ := hlinked L
  refine ⟨ms, fun hne => ?_, hpick, fun x => ?_⟩
  · by_contra hL
    refine hne (hms fun hmem => hL ?_)
    have := List.mem_range.mp (List.mem_reverse.mp hmem)
    rw [hlvl]
    omega
  · rw [hnbrs x]
    simp only [s₁, nbrs_append_new]
    rfl
  · -- layer 0 is linked with the first `M_max` entries of the beam the insertion search returns
    obtain ⟨ms, -, -, -, hnbrs, hbeam⟩ := hlinked 0
    obtain ⟨res, V, δ, hb, rfl⟩ := hbeam (List.mem_reverse.mpr (List.mem_range.mpr (Nat.succ_pos _)))
    refine ⟨res, V, δ, by rw [hlvl]; exact hb, fun x => ?_⟩
    rw [hnbrs x]
    simp only [s₁, nbrs_append_new]
    rfl

theorem add_ne_ok_of_dimensions_zero (hs : Layered s lev) (hD : s.dimensions = 0)
    (hn : 0 < s.numVectors) (s' : HNSWIndex) : s.add S v ≠ .ok s' := by
  intro h
  have hdata : s.data = [] := List.eq_nil_of_length_eq_zero (by rw [hs.length_data, hD, Nat.mul_zero])
  by_cases hv : v.length = s.dimensions
  · have hv' : v = [] := List.eq_nil_of_length_eq_zero (hv.trans hD)
    rcases hg : getRandomLevel s.M s.rng with ⟨lvl, rng⟩
    simp only [HNSWIndex.add, hv, ne_eq, not_true_eq_false, if_false, hg, Nat.ne_of_gt hn,
      pure_bind] at h
    obtain ⟨curr, -, h⟩ := bind_eq_ok.mp h
    obtain ⟨_, hfold, -⟩ := bind_eq_ok.mp h
    rw [List.range_succ, List.reverse_append, List.reverse_singleton, List.singleton_append,
      List.foldlM_cons] at hfold
    obtain ⟨_, hins, -⟩ := bind_eq_ok.mp hfold
    simp [HNSWIndex.insertLayer, HNSWIndex.searchLayer, HNSWIndex.distanceToQuery, row, hdata,
      hv'] at hins
  · simp [HNSWIndex.add, hv] at h

/-- Every successful `add` from a `Layered` state is the step `Added` describes. -/
theorem Added.of_add {s' : HNSWIndex} (hs : Layered s lev) (h : s.add S v = .ok s') :
    Added S lev s v s' := by
  have hv : v.length = s.dimensions := by
    by_contra hv
    simp [HNSWIndex.add, hv] at h
  have key : ∃ s'', s.add S v = .ok s'' ∧ Added S lev s v s'' := by
    rcases Nat.eq_zero_or_pos s.numVectors with hn | hn
    · exact add_first hs hn hv
    · rcases Nat.eq_zero_or_pos s.dimensions with hD | hD
      · exact absurd h (add_ne_ok_of_dimensions_zero hs hD hn s')
      · exact add_later hs hD hn hv
  obtain ⟨s'', h', hA⟩ := key
  rwa [Except.ok.inj (h'.symm.trans h)] at hA

end Add

end NexaDb.Native
