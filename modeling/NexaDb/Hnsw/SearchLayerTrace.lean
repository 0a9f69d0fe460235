import NexaDb.Hnsw.SearchLayerSpec
import NexaDb.Hnsw.Invariants

/-! A counting copy of `search_layer`: the same loop, logging every distance it computes, every
push onto `candidates` and every neighbour list it reads.  Its states are the model's
(`searchLayerTraced_map_fst`).  On every graph the loop stops before its round bound runs out, no
node appears twice in any log of a run that returns, and on the graphs of `searchLayer_answer`
the run returns.  Last, a counting copy of `search`, keeping the log of each of its
`search_layer` calls: one query computes each node's distance at most `max_layer + 1` times. -/

namespace NexaDb.Native

open SearchCandidate (far near)

/-- What a call of `search_layer` has done, latest first: the nodes whose distance to the query
it computed, the nodes it pushed onto `candidates`, and the nodes whose list it read. -/
structure Calls where
  distances : List Nat
  pushes : List Nat
  expansions : List Nat
  deriving DecidableEq, Repr

def visitTraced (S : Stl) (dist : Nat → Except Error ℚ) (ef : Nat) :
    LayerSearch × Calls → Nat → Except Error (LayerSearch × Calls)
  | (st, calls), n =>
    if n ∈ st.visited then .ok (st, calls) else do
      let dN ← dist n
      let calls := { calls with distances := n :: calls.distances }
      let w ← top st.W
      if dN < w.distance ∨ st.W.length < ef then
        pure (⟨n :: st.visited, S.push near st.candidates ⟨n, dN⟩, pushBounded S ef st.W ⟨n, dN⟩⟩,
          { calls with pushes := n :: calls.pushes })
      else pure ({ st with visited := n :: st.visited }, calls)

def searchLoopTraced (S : Stl) (nbrsOf : Nat → Except Error (List Nat))
    (dist : Nat → Except Error ℚ) (ef : Nat) :
    Nat → LayerSearch × Calls → Except Error (LayerSearch × Calls)
  | fuel, (st, calls) => match st.candidates with
    | [] => .ok (st, calls)
    | c :: _ => match fuel with
      | 0 => .error .outOfFuel
      | fuel + 1 => do
        let st := { st with candidates := S.pop near st.candidates }
        let w ← top st.W
        if c.distance > w.distance then pure (st, calls)
        else
          let nbrs ← nbrsOf c.id
          let p ← nbrs.foldlM (visitTraced S dist ef)
            (st, { calls with expansions := c.id :: calls.expansions })
          searchLoopTraced S nbrsOf dist ef fuel p

def HNSWIndex.searchLayerTraced (S : Stl) (s : HNSWIndex) (query : List ℚ) (entryId ef layer : Nat) :
    Except Error (List SearchCandidate × Calls) := do
  let d ← s.distanceToQuery query entryId
  let p ← searchLoopTraced S (getNeighbors s.nodes · layer) (s.distanceToQuery query) ef
    ((layerIds s.nodes layer).length + 1)
    (⟨[entryId], S.push near [] ⟨entryId, d⟩, S.push far [] ⟨entryId, d⟩⟩,
      ⟨[entryId], [entryId], []⟩)
  pure ((drain S p.1.W.length p.1.W).reverse, p.2)

section Simulation

variable {S : Stl} {nbrsOf : Nat → Except Error (List Nat)} {dist : Nat → Except Error ℚ}
  {ef : Nat}

theorem map_bind_of_map {α α' β β' : Type} {x : Except Error α} {y : Except Error β}
    {f : α → Except Error α'} {g : β → Except Error β'} {π : α → β} {π' : α' → β'}
    (hx : π <$> x = y) (hf : ∀ a, π' <$> f a = g (π a)) : π' <$> (x >>= f) = y >>= g := by
  subst hx
  cases x with
  | error e => rfl
  | ok a => exact hf a

theorem visitTraced_map_fst (st : LayerSearch) (calls : Calls) (n : Nat) :
    Prod.fst <$> visitTraced S dist ef (st, calls) n = visit S dist ef st n := by
  simp only [visitTraced, visit]
  split
  · rfl
  · refine map_bind_of_map (π := id) (id_map _) fun δ => ?_
    refine map_bind_of_map (π := id) (id_map _) fun w => ?_
    dsimp only [id]
    split <;> rfl

theorem foldlM_visitTraced_map_fst :
    ∀ (l : List Nat) (st : LayerSearch) (calls : Calls),
      Prod.fst <$> l.foldlM (visitTraced S dist ef) (st, calls) = l.foldlM (visit S dist ef) st
  | [], _, _ => rfl
  | n :: l, st, calls => map_bind_of_map (visitTraced_map_fst st calls n) fun p =>
    foldlM_visitTraced_map_fst l p.1 p.2

theorem searchLoopTraced_map_fst (fuel : Nat) : ∀ (st : LayerSearch) (calls : Calls),
    Prod.fst <$> searchLoopTraced S nbrsOf dist ef fuel (st, calls) =
      searchLoop S nbrsOf dist ef fuel st := by
  induction fuel with
  | zero =>
    intro st calls
    rw [searchLoopTraced, searchLoop]
    rcases st.candidates with _ | ⟨c, C₀⟩ <;> rfl
  | succ fuel ih =>
    intro st calls
    rw [searchLoopTraced, searchLoop]
    rcases st.candidates with _ | ⟨c, C₀⟩
    · rfl
    refine map_bind_of_map (π := id) (id_map _) fun w => ?_
    dsimp only [id]
    split
    · rfl
    refine map_bind_of_map (π := id) (id_map _) fun l => ?_
    exact map_bind_of_map (foldlM_visitTraced_map_fst l _ _) fun p => ih p.1 p.2

theorem searchLayerTraced_map_fst (s : HNSWIndex) (q : List ℚ) (e ef L : Nat) :
    Prod.fst <$> s.searchLayerTraced S q e ef L = s.searchLayer S q e ef L :=
  map_bind_of_map (π := id) (id_map _) fun _ =>
    map_bind_of_map (searchLoopTraced_map_fst _ _ _) fun _ => rfl

end Simulation

def queuedIds (st : LayerSearch) (calls : Calls) : List Nat :=
  calls.expansions ++ st.candidates.map (·.id)

/-- The invariant of the counting copy: the log of distances is the visited list, pushes are
visited nodes, and expanded or queued nodes were pushed, none twice. -/
structure TraceInv (st : LayerSearch) (calls : Calls) : Prop where
  heapC : IsHeap near st.candidates
  distances_eq : calls.distances = st.visited
  nodupV : st.visited.Nodup
  pushes : calls.pushes.Sublist st.visited
  queued_sub : ∀ x ∈ queuedIds st calls, x ∈ calls.pushes
  nodup_queued : (queuedIds st calls).Nodup

/-- No node twice in any log: each distance computed, and each node pushed and expanded, at most
once; every push follows its distance and every expansion its push. -/
structure Calls.AtMostOnce (calls : Calls) : Prop where
  distances : calls.distances.Nodup
  pushes : calls.pushes.Nodup
  expansions : calls.expansions.Nodup
  pushed : calls.pushes.Sublist calls.distances
  expanded : ∀ x ∈ calls.expansions, x ∈ calls.pushes

theorem TraceInv.atMostOnce {st : LayerSearch} {calls : Calls} (hi : TraceInv st calls) :
    calls.AtMostOnce :=
  ⟨hi.distances_eq ▸ hi.nodupV, hi.nodupV.sublist hi.pushes,
    hi.nodup_queued.sublist (List.sublist_append_left _ _), hi.distances_eq ▸ hi.pushes,
    fun x hx => hi.queued_sub x (List.mem_append_left _ hx)⟩

section Counting

variable {S : Stl} {nbrsOf : Nat → Except Error (List Nat)} {dist : Nat → Except Error ℚ}
  {ef : Nat}

theorem top_ne_outOfFuel (W : List SearchCandidate) : top W ≠ .error .outOfFuel := by
  cases W <;> exact nofun

theorem visitTraced_ne_outOfFuel (hd : ∀ n, dist n ≠ .error .outOfFuel) (st : LayerSearch)
    (calls : Calls) (n : Nat) : visitTraced S dist ef (st, calls) n ≠ .error .outOfFuel := by
  simp only [visitTraced]
  split
  · exact nofun
  · exact bind_ne_error (hd n) fun _ _ => bind_ne_error (top_ne_outOfFuel _) fun _ _ => by
      split <;> exact nofun

theorem visitTraced_eq_ok {st st' : LayerSearch} {calls calls' : Calls} {n : Nat}
    (h : visitTraced S dist ef (st, calls) n = .ok (st', calls')) :
    n ∈ st.visited ∧ st' = st ∧ calls' = calls ∨
      ∃ δ, n ∉ st.visited ∧
        (st' = ⟨n :: st.visited, S.push near st.candidates ⟨n, δ⟩, pushBounded S ef st.W ⟨n, δ⟩⟩ ∧
            calls' = ⟨n :: calls.distances, n :: calls.pushes, calls.expansions⟩ ∨
          st' = { st with visited := n :: st.visited } ∧
            calls' = { calls with distances := n :: calls.distances }) := by
  simp only [visitTraced] at h
  split at h
  · simp only [Except.ok.injEq, Prod.mk.injEq] at h
    exact .inl ⟨‹_›, h.1.symm, h.2.symm⟩
  · obtain ⟨δ, -, h⟩ := bind_eq_ok.mp h
    obtain ⟨w, -, h⟩ := bind_eq_ok.mp h
    refine .inr ⟨δ, ‹_›, ?_⟩
    split at h <;> simp only [pure_eq_ok, Except.ok.injEq, Prod.mk.injEq] at h
    · exact .inl ⟨h.1.symm, h.2.symm⟩
    · exact .inr ⟨h.1.symm, h.2.symm⟩

theorem TraceInv.visit {st st' : LayerSearch} {calls calls' : Calls} {n : Nat} {U : List Nat}
    (hi : TraceInv st calls) (h : visitTraced S dist ef (st, calls) n = .ok (st', calls'))
    (hU : n ∈ U) : TraceInv st' calls' ∧ st'.measure U ≤ st.measure U := by
  rcases visitTraced_eq_ok h with ⟨-, rfl, rfl⟩ | ⟨δ, hn, ⟨rfl, rfl⟩ | ⟨rfl, rfl⟩⟩
  · exact ⟨hi, le_rfl⟩
  · have hperm : (queuedIds ⟨n :: st.visited, S.push near st.candidates ⟨n, δ⟩,
        pushBounded S ef st.W ⟨n, δ⟩⟩ ⟨n :: calls.distances, n :: calls.pushes, calls.expansions⟩).Perm
        (n :: queuedIds st calls) :=
      (((Stl.push_perm _ hi.heapC).map (·.id)).append_left _).trans List.perm_middle
    have hfresh : n ∉ queuedIds st calls := fun hq => hn (hi.pushes.subset (hi.queued_sub n hq))
    refine ⟨⟨Stl.push_isHeap _ hi.heapC, congrArg (n :: ·) hi.distances_eq,
      List.nodup_cons.mpr ⟨hn, hi.nodupV⟩, hi.pushes.cons₂ n, fun x hx => ?_,
      hperm.nodup_iff.mpr (List.nodup_cons.mpr ⟨hfresh, hi.nodup_queued⟩)⟩, ?_⟩
    · rcases List.mem_cons.mp (hperm.subset hx) with rfl | hx
      · exact List.mem_cons_self _ _
      · exact List.mem_cons_of_mem _ (hi.queued_sub x hx)
    · exact LayerSearch.measure_enqueue _ hi.heapC hU hn
  · exact ⟨⟨hi.heapC, congrArg (n :: ·) hi.distances_eq, List.nodup_cons.mpr ⟨hn, hi.nodupV⟩,
      hi.pushes.cons n, hi.queued_sub, hi.nodup_queued⟩, LayerSearch.measure_mark U st n⟩

theorem foldlM_visitTraced_run {U : List Nat} (hd : ∀ n, dist n ≠ .error .outOfFuel) :
    ∀ (l : List Nat) (st : LayerSearch) (calls : Calls), TraceInv st calls → (∀ n ∈ l, n ∈ U) →
      l.foldlM (visitTraced S dist ef) (st, calls) ≠ .error .outOfFuel ∧
      ∀ st' calls', l.foldlM (visitTraced S dist ef) (st, calls) = .ok (st', calls') →
        TraceInv st' calls' ∧ st'.measure U ≤ st.measure U
  | [], st, calls, hi, _ => ⟨nofun, fun _ _ h => by cases h; exact ⟨hi, le_rfl⟩⟩
  | n :: l, st, calls, hi, hl => by
    have step : ∀ p, visitTraced S dist ef (st, calls) n = .ok p →
        TraceInv p.1 p.2 ∧ p.1.measure U ≤ st.measure U := fun p hp =>
      hi.visit hp (hl n (List.mem_cons_self _ _))
    have rest := fun p hp => foldlM_visitTraced_run hd l p.1 p.2 (step p hp).1
      fun m hm => hl m (List.mem_cons_of_mem _ hm)
    rw [List.foldlM_cons]
    refine ⟨bind_ne_error (visitTraced_ne_outOfFuel hd st calls n) fun p hp => (rest p hp).1,
      fun st' calls' h => ?_⟩
    obtain ⟨p, hp, h⟩ := bind_eq_ok.mp h
    obtain ⟨hi', hm'⟩ := (rest p hp).2 st' calls' h
    exact ⟨hi', hm'.trans (step p hp).2⟩

theorem searchLoopTraced_succ {fuel : Nat} {st : LayerSearch} {calls : Calls}
    {c : SearchCandidate} {C₀ : List SearchCandidate} (hc : st.candidates = c :: C₀) :
    searchLoopTraced S nbrsOf dist ef (fuel + 1) (st, calls) =
      top st.W >>= fun w =>
        if c.distance > w.distance then .ok ({ st with candidates := S.pop near st.candidates }, calls)
        else nbrsOf c.id >>= fun l =>
          l.foldlM (visitTraced S dist ef) ({ st with candidates := S.pop near st.candidates },
            { calls with expansions := c.id :: calls.expansions }) >>=
          searchLoopTraced S nbrsOf dist ef fuel := by
  rw [searchLoopTraced]
  split
  · simp_all
  · rename_i c' C' hc'
    obtain ⟨rfl, rfl⟩ := List.cons.inj (hc'.symm.trans hc)
    rfl

theorem queuedIds_expand_perm {st : LayerSearch} (calls : Calls) {c : SearchCandidate}
    {C₀ : List SearchCandidate} (hC : IsHeap near st.candidates) (hc : st.candidates = c :: C₀) :
    (queuedIds { st with candidates := S.pop near st.candidates }
      { calls with expansions := c.id :: calls.expansions }).Perm (queuedIds st calls) := by
  rw [hc] at hC
  simp only [queuedIds, hc, List.map_cons]
  exact ((((Stl.pop_perm hC).map (·.id)).append_left _).cons c.id).trans List.perm_middle.symm

theorem TraceInv.expand {st : LayerSearch} {calls : Calls} {c : SearchCandidate}
    {C₀ : List SearchCandidate} (hi : TraceInv st calls) (hc : st.candidates = c :: C₀) :
    TraceInv { st with candidates := S.pop near st.candidates }
      { calls with expansions := c.id :: calls.expansions } :=
  have hp := queuedIds_expand_perm (S := S) calls hi.heapC hc
  { hi with
    heapC := Stl.pop_isHeap hi.heapC
    queued_sub := fun x hx => hi.queued_sub x (hp.subset hx)
    nodup_queued := hp.nodup_iff.mpr hi.nodup_queued }

theorem TraceInv.drop {st : LayerSearch} {calls : Calls} {c : SearchCandidate}
    {C₀ : List SearchCandidate} (hi : TraceInv st calls) (hc : st.candidates = c :: C₀) :
    TraceInv { st with candidates := S.pop near st.candidates } calls :=
  have hp := queuedIds_expand_perm (S := S) calls hi.heapC hc
  have hs := List.sublist_cons_self c.id (queuedIds { st with candidates := S.pop near st.candidates } calls)
  { hi with
    heapC := Stl.pop_isHeap hi.heapC
    queued_sub := fun x hx => hi.queued_sub x (hp.subset (hs.subset hx))
    nodup_queued := (hp.nodup_iff.mpr hi.nodup_queued).sublist hs }

theorem searchLoopTraced_run {U : List Nat} (hU : ∀ u l, nbrsOf u = .ok l → ∀ n ∈ l, n ∈ U)
    (hd : ∀ n, dist n ≠ .error .outOfFuel) (hn : ∀ u, nbrsOf u ≠ .error .outOfFuel) (fuel : Nat) :
    ∀ (st : LayerSearch) (calls : Calls), TraceInv st calls → st.measure U ≤ fuel →
      searchLoopTraced S nbrsOf dist ef fuel (st, calls) ≠ .error .outOfFuel ∧
      ∀ st' calls', searchLoopTraced S nbrsOf dist ef fuel (st, calls) = .ok (st', calls') →
        TraceInv st' calls' := by
  induction fuel with
  | zero =>
    intro st calls hi hm
    rw [searchLoopTraced, LayerSearch.candidates_eq_nil hm]
    exact ⟨nofun, fun _ _ h => by cases h; exact hi⟩
  | succ fuel ih =>
    intro st calls hi hm
    cases hc : st.candidates with
    | nil =>
      rw [searchLoopTraced, hc]
      exact ⟨nofun, fun _ _ h => by cases h; exact hi⟩
    | cons c C₀ =>
      have hm₁ := LayerSearch.measure_pop (S := S) (U := U) hi.heapC hc
      have rest := fun l (hl : nbrsOf c.id = .ok l) =>
        @foldlM_visitTraced_run S dist ef _ hd l _ _ (hi.expand (S := S) hc) (hU _ l hl)
      rw [searchLoopTraced_succ hc]
      refine ⟨bind_ne_error (top_ne_outOfFuel _) fun w _ => ?_, fun st' calls' h => ?_⟩
      · split
        · exact nofun
        · refine bind_ne_error (hn c.id) fun l hl => bind_ne_error (rest l hl).1 fun p hp =>
            (ih p.1 p.2 ((rest l hl).2 p.1 p.2 hp).1 ?_).1
          have := ((rest l hl).2 p.1 p.2 hp).2
          omega
      · obtain ⟨w, -, h⟩ := bind_eq_ok.mp h
        split at h
        · cases h
          exact hi.drop hc
        · obtain ⟨l, hl, h⟩ := bind_eq_ok.mp h
          obtain ⟨p, hp, h⟩ := bind_eq_ok.mp h
          obtain ⟨hi₂, hm₂⟩ := (rest l hl).2 p.1 p.2 hp
          exact (ih p.1 p.2 hi₂ (by omega)).2 st' calls' h

end Counting

theorem row_ne_outOfFuel (data : List ℚ) (dimensions id : Nat) :
    row data dimensions id ≠ .error .outOfFuel := by
  unfold row
  split <;> exact nofun

theorem HNSWIndex.distanceToQuery_ne_outOfFuel (s : HNSWIndex) (q : List ℚ) (id : Nat) :
    s.distanceToQuery q id ≠ .error .outOfFuel :=
  bind_ne_error (row_ne_outOfFuel _ _ _) fun _ _ => nofun

theorem getNeighbors_ne_outOfFuel (nodes : List HNSWNode) (u layer : Nat) :
    getNeighbors nodes u layer ≠ .error .outOfFuel := by
  unfold getNeighbors
  split
  · exact nofun
  · split <;> exact nofun

theorem TraceInv.init {S : Stl} (e : Nat) (d : ℚ) :
    TraceInv ⟨[e], S.push near [] ⟨e, d⟩, S.push far [] ⟨e, d⟩⟩ ⟨[e], [e], []⟩ := by
  rw [Stl.push_nil, Stl.push_nil]
  exact ⟨isHeap_singleton _ _, rfl, List.nodup_singleton e, List.Sublist.refl _,
    by simp [queuedIds], by simp [queuedIds]⟩

theorem HNSWIndex.searchLayerTraced_run (S : Stl) (s : HNSWIndex) (q : List ℚ) (e ef L : Nat) :
    s.searchLayerTraced S q e ef L ≠ .error .outOfFuel ∧
      ∀ res calls, s.searchLayerTraced S q e ef L = .ok (res, calls) → calls.AtMostOnce := by
  have run := fun d => @searchLoopTraced_run S (getNeighbors s.nodes · L) (s.distanceToQuery q) ef
    _ (fun _ _ h => getNeighbors_subset h) (s.distanceToQuery_ne_outOfFuel q)
    (getNeighbors_ne_outOfFuel s.nodes · L) _ _ _ (TraceInv.init e d)
    (LayerSearch.measure_init (S := S) _ e d)
  refine ⟨bind_ne_error (s.distanceToQuery_ne_outOfFuel q e) fun d _ =>
    bind_ne_error (run d).1 fun _ _ => nofun, fun res calls h => ?_⟩
  obtain ⟨d, -, h⟩ := bind_eq_ok.mp h
  obtain ⟨p, hp, h⟩ := bind_eq_ok.mp h
  simp only [pure_eq_ok, Except.ok.injEq, Prod.mk.injEq] at h
  exact h.2 ▸ ((run d).2 p.1 p.2 hp).atMostOnce

/-- `search_layer` never runs out of rounds, on any graph and from any entry; the counting copy
of a call that returns logs each node's distance, push and expansion at most once; and when
`dimensions ≥ 1`, every node has a row, every listed ID has a list at `L` and so does the
entry, the call returns. -/
theorem searchLayer_terminates_once (S : Stl) (s : HNSWIndex) (q : List ℚ) (e ef L : Nat) :
    s.searchLayer S q e ef L ≠ .error .outOfFuel ∧
      (∀ res calls, s.searchLayerTraced S q e ef L = .ok (res, calls) →
        s.searchLayer S q e ef L = .ok res ∧ calls.AtMostOnce) ∧
      (0 < s.dimensions → s.nodes.length * s.dimensions ≤ s.data.length →
        (∀ u, ∀ v ∈ nbrs s.nodes u L, L < layerCount s.nodes v) → L < layerCount s.nodes e →
        ∃ res calls, s.searchLayerTraced S q e ef L = .ok (res, calls)) := by
  have hsim := searchLayerTraced_map_fst (S := S) s q e ef L
  obtain ⟨hne, honce⟩ := s.searchLayerTraced_run S q e ef L
  refine ⟨?_, fun res calls h => ⟨by rw [← hsim, h]; rfl, honce res calls h⟩,
    fun hD hdata hgraph he => ?_⟩
  · rw [← hsim]
    cases ht : s.searchLayerTraced S q e ef L with
    | error e' => exact fun h => hne (ht.trans (congrArg _ (Except.error.inj h)))
    | ok p => exact nofun
  · obtain ⟨-, res, -, -, hres, -⟩ := searchLayer_spec (S := S) ef
      (closed_reach (q := q) (e := e) hD hdata hgraph) ⟨he, .refl⟩
    rw [← hsim] at hres
    cases ht : s.searchLayerTraced S q e ef L with
    | error e' => rw [ht] at hres; cases hres
    | ok p => exact ⟨p.1, p.2, rfl⟩

theorem searchLayer_terminates_once_pair :
    ∃ s log, HNSWIndex.Reachable Stl.sorting s log ∧
      s.searchLayer Stl.sorting [2] 0 1 0 ≠ .error .outOfFuel ∧ ∃ res calls,
        s.searchLayerTraced Stl.sorting [2] 0 1 0 = .ok (res, calls) ∧
        s.searchLayer Stl.sorting [2] 0 1 0 = .ok res ∧ calls.AtMostOnce :=
  let ⟨s, log, hr, hD, hdata, hgraph, hc0⟩ := reachable_pair_layer0
  let ⟨hne, hlog, hret⟩ := searchLayer_terminates_once Stl.sorting s [2] 0 1 0
  let ⟨res, calls, ht⟩ := hret hD hdata hgraph hc0
  ⟨s, log, hr, hne, res, calls, ht, hlog res calls ht⟩

/-! The counting copy of `search`. -/

def HNSWIndex.descendStepTraced (S : Stl) (s : HNSWIndex) (query : List ℚ)
    (p : Nat × List Calls) (lc : Nat) : Except Error (Nat × List Calls) := do
  let r ← s.searchLayerTraced S query p.1 1 lc
  pure ((match r.1 with | [] => p.1 | c :: _ => c.id), r.2 :: p.2)

/-- `search`, with the logs of its `search_layer` calls, latest first. -/
def HNSWIndex.searchTraced (S : Stl) (s : HNSWIndex) (query : List ℚ) (k : Nat) :
    Except Error (List (Nat × ℚ) × List Calls) := do
  if query.length ≠ s.dimensions then throw (.invalidArgument "Query dimension mismatch")
  if s.numVectors = 0 then return ([], [])
  let k := min k s.numVectors
  let p ← (layersAbove s.maxLayer 0).foldlM (s.descendStepTraced S query) (s.entryPoint, [])
  let r ← s.searchLayerTraced S query p.1 (max s.efSearch k) 0
  pure ((r.1.take k).map fun c => (c.id, c.distance), r.2 :: p.2)

section SearchCounting

variable {S : Stl} {s : HNSWIndex} {q : List ℚ}

theorem exists_of_map_fst_eq_ok {α β : Type} {x : Except Error (α × β)} {a : α}
    (h : Prod.fst <$> x = .ok a) : ∃ b, x = .ok (a, b) := by
  cases x with
  | error e => cases h
  | ok p => exact ⟨p.2, by rw [← Except.ok.inj h]⟩

theorem foldlM_descendStepTraced_map_fst : ∀ (ls : List Nat) (p : Nat × List Calls),
    Prod.fst <$> ls.foldlM (s.descendStepTraced S q) p = s.descend S q p.1 ls
  | [], _ => rfl
  | lc :: ls, p => map_bind_of_map
    (map_bind_of_map (searchLayerTraced_map_fst s q p.1 1 lc) fun _ => rfl)
    fun p' => foldlM_descendStepTraced_map_fst ls p'

theorem foldlM_descendStepTraced_logs : ∀ (ls : List Nat) (p p' : Nat × List Calls),
    ls.foldlM (s.descendStepTraced S q) p = .ok p' → (∀ c ∈ p.2, c.AtMostOnce) →
      p'.2.length = p.2.length + ls.length ∧ ∀ c ∈ p'.2, c.AtMostOnce
  | [], p, p', h, hp => by cases h; exact ⟨rfl, hp⟩
  | lc :: ls, p, p', h, hp => by
    rw [List.foldlM_cons] at h
    obtain ⟨p₁, h₁, h⟩ := bind_eq_ok.mp h
    obtain ⟨r, hr, h₁⟩ := bind_eq_ok.mp h₁
    cases h₁
    obtain ⟨hlen, hall⟩ := foldlM_descendStepTraced_logs ls _ p' h
      (List.forall_mem_cons.mpr ⟨(s.searchLayerTraced_run S q p.1 1 lc).2 r.1 r.2 hr, hp⟩)
    refine ⟨?_, hall⟩
    rw [hlen, List.length_cons, List.length_cons]
    omega

theorem sum_count_le_length {logs : List Calls} (h : ∀ c ∈ logs, c.AtMostOnce) (u : Nat) :
    (logs.map fun c => c.distances.count u).sum ≤ logs.length := by
  induction logs with
  | nil => simp
  | cons c cs ih =>
    have hc := List.nodup_iff_count_le_one.mp (h c (List.mem_cons_self _ _)).distances u
    have hcs := ih fun c' hc' => h c' (List.mem_cons_of_mem _ hc')
    simp only [List.map_cons, List.sum_cons, List.length_cons]
    omega

/-- From every reachable state with `dimensions ≥ 1`, for every query and `k`, the counting copy
of `search` returns what `search` returns, after at most `max_layer + 1` calls of `search_layer`,
none of which computes a distance twice: one search computes the distance of each node at most
`max_layer + 1` times. -/
theorem search_distances_per_node {log : List (List ℚ × Nat)} (h : HNSWIndex.Reachable S s log)
    (hD : 0 < s.dimensions) (hq : q.length = s.dimensions) (k : Nat) :
    ∃ res logs, s.searchTraced S q k = .ok (res, logs) ∧ s.search S q k = .ok res ∧
      logs.length ≤ s.maxLayer + 1 ∧ (∀ calls ∈ logs, calls.AtMostOnce) ∧
      ∀ u, (logs.map fun calls => calls.distances.count u).sum ≤ s.maxLayer + 1 := by
  rcases Nat.eq_zero_or_pos s.numVectors with h0 | hn
  · exact ⟨[], [], by simp [HNSWIndex.searchTraced, hq, h0], by simp [HNSWIndex.search, hq, h0],
      by simp, by simp, by simp⟩
  have hl := h.wf.layered
  obtain ⟨hep, hepl⟩ := hl.entry hn
  obtain ⟨curr, hdesc, hcurr, -, -⟩ := descend_spec (S := S) (t := s) (q := q) hD
    hl.length_data le_rfl (layersAbove s.maxLayer 0) s.entryPoint (pairwise_layersAbove _ _)
    (fun lc _ => hl.layerOk lc) hep (fun lc hlc => (mem_layersAbove.mp hlc).2.trans hepl)
  obtain ⟨logs, hdescT⟩ := exists_of_map_fst_eq_ok
    ((foldlM_descendStepTraced_map_fst (S := S) _ (s.entryPoint, [])).trans hdesc)
  obtain ⟨hlen, hlogs⟩ := foldlM_descendStepTraced_logs _ _ _ hdescT nofun
  obtain ⟨-, W, -, -, hW, -⟩ := searchLayer_spec (S := S) (max s.efSearch (min k s.numVectors))
    ((hl.layerOk 0).closed hD hl.length_data le_rfl q)
    (⟨hcurr, Nat.zero_le _⟩ : Upper (levelOf log) s.numVectors 0 curr)
  obtain ⟨calls, hWT⟩ := exists_of_map_fst_eq_ok ((searchLayerTraced_map_fst s q curr _ 0).trans hW)
  have hall : ∀ c ∈ calls :: logs, c.AtMostOnce :=
    List.forall_mem_cons.mpr ⟨(s.searchLayerTraced_run S q curr _ 0).2 _ _ hWT, hlogs⟩
  have hlen' : (calls :: logs).length ≤ s.maxLayer + 1 := by
    simp only [List.length_cons, hlen, layersAbove, List.length_reverse, List.length_range']
    simp
  refine ⟨(W.take (min k s.numVectors)).map fun c => (c.id, c.distance), calls :: logs, ?_, ?_,
    hlen', hall, fun u => (sum_count_le_length hall u).trans hlen'⟩
  · simp [HNSWIndex.searchTraced, hq, Nat.ne_of_gt hn, hdescT, hWT]
  · simp [HNSWIndex.search, hq, Nat.ne_of_gt hn, hdesc, hW]

end SearchCounting

section Runs

attribute [local semireducible] Rat.add Rat.sub Rat.mul

set_option maxRecDepth 100000 in
theorem search_distances_per_node_pair :
    ∃ s log, HNSWIndex.Reachable Stl.sorting s log ∧ 0 < s.dimensions ∧
      ([0] : List ℚ).length = s.dimensions ∧
      ∃ res logs, s.searchTraced Stl.sorting [0] 2 = .ok (res, logs) ∧
        s.search Stl.sorting [0] 2 = .ok res ∧ logs.length ≤ s.maxLayer + 1 ∧
        (∀ calls ∈ logs, calls.AtMostOnce) ∧
        ∀ u, (logs.map fun calls => calls.distances.count u).sum ≤ s.maxLayer + 1 := by
  obtain ⟨s, log, hr, hD, hq⟩ : ∃ s log, HNSWIndex.Reachable Stl.sorting s log ∧
      0 < s.dimensions ∧ ([0] : List ℚ).length = s.dimensions :=
    ⟨_, _, .add (v := [1]) (.add (v := [0]) (.new 1 1000000 16 200 l2DistanceSimd) rfl) rfl, by decide, by decide⟩
  exact ⟨s, log, hr, hD, hq, search_distances_per_node hr hD hq 2⟩

theorem searchLayer_reads_missing_layer :
    (∀ u L, ∀ v ∈ nbrs [⟨0, [[1], [1]]⟩, ⟨1, [[0]]⟩] u L, v < 2) ∧
      ({ HNSWIndex.new 1 1000000 16 200 with
          numVectors := 2, data := [0, 0], nodes := [⟨0, [[1], [1]]⟩, ⟨1, [[0]]⟩] } :
        HNSWIndex).searchLayer Stl.sorting [0] 0 2 1 = .error .outOfRange := by
  refine ⟨fun u L v hv => ?_, by rfl⟩
  rcases u with _ | _ | u <;> rcases L with _ | _ | L <;> simp_all [nbrs]

end Runs

end NexaDb.Native
