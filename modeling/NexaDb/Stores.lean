import NexaDb.BatchInserterLaws
import NexaDb.Hnsw.Invariants

/-! The two stores side by side. Both keep the vectors they committed, in call order, as the rows
of one arena. Their `add_batch` differs: `VectorBatchInserter` checks the whole batch before it
writes, `HNSWIndex` calls `add` on each vector and stops at the first that throws, keeping the
ones before it. Driven by one session of calls, the two return alike at every call, and hold the
same vectors as long as no `add_batch` throws part-way through. -/

namespace NexaDb.Native

namespace VectorBatchInserter

variable {s : VectorBatchInserter} {vs : List (List ℚ)}

theorem foldlM_add : ∀ {s : VectorBatchInserter} {vs : List (List ℚ)},
    (∀ v ∈ vs, v.length = s.dimensions) → vs.foldlM add s =
      .ok { s with data := s.data ++ vs.flatten, numVectors := s.numVectors + vs.length }
  | s, [], _ => by simp
  | s, v :: vs, h => by
    have hvs := foldlM_add (s := { s with data := s.data ++ v, numVectors := s.numVectors + 1 })
      fun w hw => h w (List.mem_cons_of_mem _ hw)
    rw [List.foldlM_cons, add_ok_iff.mpr ⟨h v (List.mem_cons_self _ _), rfl⟩, ok_bind, hvs]
    simp [Nat.add_assoc, Nat.add_comm 1]

theorem addBatch_eq_foldlM (h : ∀ v ∈ vs, v.length = s.dimensions) :
    ∃ s', s.addBatch vs = .ok () s' ∧ vs.foldlM add s = .ok s' :=
  ⟨_, addBatch_ok_iff.mpr ⟨h, rfl⟩, foldlM_add h⟩

end VectorBatchInserter

namespace HNSWIndex

variable {S : Stl} {s s' : HNSWIndex} {log : List (List ℚ × Nat)}

theorem add_of_mismatch {v : List ℚ} (hv : v.length ≠ s.dimensions) :
    s.add S v = .error (.invalidArgument "Vector dimension mismatch") := by
  simp [HNSWIndex.add, hv]

theorem addBatch_ok_iff : ∀ {s : HNSWIndex} {vs : List (List ℚ)},
    s.addBatch S vs = .ok () s' ↔ vs.foldlM (fun t v => t.add S v) s = .ok s'
  | s, [] => by simp [addBatch, eq_comm]
  | s, v :: vs => by
    rw [List.foldlM_cons]
    cases hs : s.add S v with
    | error e => simp [addBatch, hs]
    | ok s₁ => simp only [addBatch, hs, ok_bind]; exact addBatch_ok_iff

/-- A throw inside `add_batch` keeps every vector added before it: the batch `vs ++ v :: rest`
whose first wrong-length vector is `v` throws from the state that adding `vs` in turn leaves,
with `vs.length` more vectors stored. -/
theorem Reachable.addBatch_append_of_mismatch (h : Reachable S s log) (hD : 0 < s.dimensions)
    {v : List ℚ} (rest : List (List ℚ)) (hv : v.length ≠ s.dimensions) :
    ∀ {vs : List (List ℚ)}, (∀ w ∈ vs, w.length = s.dimensions) →
      ∃ t, vs.foldlM (fun t w => t.add S w) s = .ok t ∧
        s.addBatch S (vs ++ v :: rest) = .error (.invalidArgument "Vector dimension mismatch") t ∧
        t.numVectors = s.numVectors + vs.length ∧ t.data = s.data ++ vs.flatten := by
  intro vs
  induction vs generalizing s log with
  | nil => intro _; exact ⟨s, rfl, by simp [HNSWIndex.addBatch, add_of_mismatch hv], by simp, by simp⟩
  | cons w vs ih =>
    intro hvs
    obtain ⟨s₁, hs₁⟩ := h.add_ok hD (hvs w (List.mem_cons_self _ _))
    have hA := Added.of_add h.wf.layered hs₁
    obtain ⟨t, hfold, hbatch, hn, hdata⟩ := ih (h.add hs₁) (hA.dimensions_eq ▸ hD)
      (hA.dimensions_eq ▸ hv) fun x hx => hA.dimensions_eq ▸ hvs x (List.mem_cons_of_mem _ hx)
    refine ⟨t, by rw [List.foldlM_cons, hs₁, ok_bind, hfold], ?_, ?_, ?_⟩
    · rw [List.cons_append, HNSWIndex.addBatch, hs₁]
      exact hbatch
    · rw [hn, hA.numVectors_eq, List.length_cons]
      omega
    · rw [hdata, hA.data_eq, List.flatten_cons, List.append_assoc]

end HNSWIndex

set_option maxRecDepth 100000 in
/-- The batch `[[0], [0, 0]]` at `D = 1`: the inserter refuses it whole and is left as it was; the
index has stored `[0]` when the second vector throws. -/
theorem addBatch_keeps_prefix :
    (VectorBatchInserter.new 1).addBatch [[0], [0, 0]] =
        .error (.invalidArgument "Vector dimension mismatch") (VectorBatchInserter.new 1) ∧
    ∃ t, (HNSWIndex.new 1 1000000 16 200).addBatch Stl.sorting [[0], [0, 0]] =
        .error (.invalidArgument "Vector dimension mismatch") t ∧ t.numVectors = 1 ∧ t.data = [0] :=
  ⟨rfl, _, rfl, rfl, rfl⟩

/-- In every reachable state of either store, the arena holds the vectors committed since the
last `clear`, in call order, one row of `D` values each, and every row read returns the vector
its ID names. -/
theorem arena_rows {s : VectorBatchInserter} {vs : List (List ℚ)} {S : Stl} {t : HNSWIndex}
    {log : List (List ℚ × Nat)} (hs : VectorBatchInserter.Reachable s vs)
    (ht : HNSWIndex.Reachable S t log) :
    RowsOf s.data s.dimensions s.numVectors vs ∧
      RowsOf t.data t.dimensions t.numVectors (log.map (·.1)) :=
  ⟨hs.arena.rowsOf, ht.wf.rowsOf⟩

set_option maxRecDepth 100000 in
theorem arena_rows_pair :
    ∃ t log, VectorBatchInserter.Reachable ⟨1, 2, [1, 3], l2DistanceSimd⟩ [[1], [3]] ∧
      HNSWIndex.Reachable Stl.sorting t log ∧ t.data = [1] ∧
      RowsOf [1, 3] 1 2 [[1], [3]] ∧ RowsOf t.data t.dimensions t.numVectors (log.map (·.1)) :=
  have hs : VectorBatchInserter.Reachable ⟨1, 2, [1, 3], l2DistanceSimd⟩ [[1], [3]] :=
    .add (v := [3]) (.add (v := [1]) (.new 1 l2DistanceSimd) rfl) rfl
  have ht : HNSWIndex.Reachable Stl.sorting _ _ := .add (v := [1]) (.new 1 1000000 16 200 l2DistanceSimd) rfl
  ⟨_, _, hs, ht, rfl, arena_rows hs ht⟩

/-! Client sessions. A client drives a store by calls; a call that throws reaches the client with
the store as the throw left it, and the session goes on from there. -/

/-- A call that writes to a store, as both classes offer it. -/
inductive Call
  | add (vector : List ℚ)
  | addBatch (vectors : List (List ℚ))
  | clear
  deriving DecidableEq, Repr

/-- How a call returns on a store of `dimensions` that takes every vector of the right length: it
throws exactly when a vector it is given has the wrong length. -/
def Call.expected (dimensions : Nat) : Call → Except Error Unit
  | .add v => if v.length = dimensions then .ok ()
    else .error (.invalidArgument "Vector dimension mismatch")
  | .addBatch vs => if ∀ v ∈ vs, v.length = dimensions then .ok ()
    else .error (.invalidArgument "Vector dimension mismatch")
  | .clear => .ok ()

def Call.Whole (dimensions : Nat) : Call → Prop
  | .addBatch vs => (∀ v ∈ vs, v.length = dimensions) ∨ ∀ v ∈ vs.head?, v.length ≠ dimensions
  | _ => True

instance (dimensions : Nat) : DecidablePred (Call.Whole dimensions)
  | .add _ => inferInstanceAs (Decidable True)
  | .addBatch _ => inferInstanceAs (Decidable (_ ∨ _))
  | .clear => inferInstanceAs (Decidable True)

namespace VectorBatchInserter

/-- One call on the inserter: the state it leaves and how it returns. -/
def call (s : VectorBatchInserter) : Call → VectorBatchInserter × Except Error Unit
  | .add v => match s.add v with
    | .ok s' => (s', .ok ())
    | .error e => (s, .error e)
  | .addBatch vs => match s.addBatch vs with
    | .ok () s' => (s', .ok ())
    | .error e s' => (s', .error e)
  | .clear => (s.clear, .ok ())

def session (s : VectorBatchInserter) : List Call → VectorBatchInserter × List (Except Error Unit)
  | [] => (s, [])
  | c :: cs =>
    let t := (s.call c).1.session cs
    (t.1, (s.call c).2 :: t.2)

variable {s : VectorBatchInserter} {vs : List (List ℚ)}

theorem Reachable.call (h : Reachable s vs) (c : Call) :
    (s.call c).2 = c.expected s.dimensions ∧ (∃ vs', Reachable (s.call c).1 vs') ∧
      (s.call c).1.dimensions = s.dimensions := by
  cases c with
  | add v =>
    by_cases hv : v.length = s.dimensions
    · have hs := add_ok_iff.mpr ⟨hv, rfl⟩
      rw [VectorBatchInserter.call, hs]
      exact ⟨by simp [Call.expected, hv], ⟨_, h.add hs⟩, rfl⟩
    · have hs : s.add v = .error (.invalidArgument "Vector dimension mismatch") := by
        simp [VectorBatchInserter.add, hv]
      rw [VectorBatchInserter.call, hs]
      exact ⟨by simp [Call.expected, hv], ⟨_, h⟩, rfl⟩
  | addBatch batch =>
    by_cases hb : ∀ v ∈ batch, v.length = s.dimensions
    · have hs := addBatch_ok_iff.mpr ⟨hb, rfl⟩
      rw [VectorBatchInserter.call, hs]
      exact ⟨by rw [Call.expected, if_pos hb], ⟨_, h.addBatch hs⟩, rfl⟩
    · rw [VectorBatchInserter.call, addBatch_of_mismatch (by push_neg at hb; exact hb)]
      exact ⟨by rw [Call.expected, if_neg hb], ⟨_, h⟩, rfl⟩
  | clear => exact ⟨rfl, ⟨_, h.clear⟩, rfl⟩

end VectorBatchInserter

namespace HNSWIndex

/-- One call on the index: the state it leaves and how it returns. -/
def call (S : Stl) (s : HNSWIndex) : Call → HNSWIndex × Except Error Unit
  | .add v => match s.add S v with
    | .ok s' => (s', .ok ())
    | .error e => (s, .error e)
  | .addBatch vs => match s.addBatch S vs with
    | .ok () s' => (s', .ok ())
    | .error e s' => (s', .error e)
  | .clear => (s.clear, .ok ())

def session (S : Stl) (s : HNSWIndex) : List Call → HNSWIndex × List (Except Error Unit)
  | [] => (s, [])
  | c :: cs =>
    let t := (s.call S c).1.session S cs
    (t.1, (s.call S c).2 :: t.2)

variable {S : Stl} {s : HNSWIndex} {log : List (List ℚ × Nat)}

theorem Reachable.addBatch_log (h : Reachable S s log) : ∀ {vs : List (List ℚ)} {t : HNSWIndex},
    s.addBatch S vs = .ok () t → ∃ log', Reachable S t (log ++ log') ∧ log'.map (·.1) = vs := by
  intro vs
  induction vs generalizing s log with
  | nil =>
    intro t ht
    cases ht
    exact ⟨[], by simpa using h, rfl⟩
  | cons v vs ih =>
    intro t ht
    unfold HNSWIndex.addBatch at ht
    split at ht
    · obtain ⟨log', hr, hmap⟩ := ih (h.add ‹_›) ht
      exact ⟨_ :: log', by simpa using hr, by simp [hmap]⟩
    · cases ht

theorem call_addBatch_cons {v : List ℚ} {vs : List (List ℚ)} {s₁ : HNSWIndex}
    (hs : s.add S v = .ok s₁) : s.call S (.addBatch (v :: vs)) = s₁.call S (.addBatch vs) := by
  simp only [HNSWIndex.call, HNSWIndex.addBatch, hs]

theorem Reachable.call_addBatch (h : Reachable S s log) (hD : 0 < s.dimensions) :
    ∀ vs, (s.call S (.addBatch vs)).2 = (Call.addBatch vs).expected s.dimensions ∧
      (∃ log', Reachable S (s.call S (.addBatch vs)).1 log') ∧
      (s.call S (.addBatch vs)).1.dimensions = s.dimensions := by
  intro vs
  induction vs generalizing s log with
  | nil => exact ⟨rfl, ⟨log, h⟩, rfl⟩
  | cons v vs ih =>
    by_cases hv : v.length = s.dimensions
    · obtain ⟨s₁, hs₁⟩ := h.add_ok hD hv
      have hA := Added.of_add h.wf.layered hs₁
      obtain ⟨hout, hr, hdim⟩ := ih (h.add hs₁) (hA.dimensions_eq ▸ hD)
      rw [call_addBatch_cons hs₁, hdim, hA.dimensions_eq]
      refine ⟨?_, hr, rfl⟩
      rw [hout, hA.dimensions_eq]
      simp [Call.expected, hv]
    · have hcall : s.call S (.addBatch (v :: vs)) =
          (s, .error (.invalidArgument "Vector dimension mismatch")) := by
        simp [HNSWIndex.call, HNSWIndex.addBatch, add_of_mismatch hv]
      rw [hcall]
      exact ⟨by simp [Call.expected, hv], ⟨log, h⟩, rfl⟩

theorem Reachable.call (h : Reachable S s log) (hD : 0 < s.dimensions) (c : Call) :
    (s.call S c).2 = c.expected s.dimensions ∧ (∃ log', Reachable S (s.call S c).1 log') ∧
      (s.call S c).1.dimensions = s.dimensions := by
  cases c with
  | add v =>
    by_cases hv : v.length = s.dimensions
    · obtain ⟨s', hs'⟩ := h.add_ok hD hv
      rw [HNSWIndex.call, hs']
      exact ⟨by rw [Call.expected, if_pos hv], ⟨_, h.add hs'⟩,
        (Added.of_add h.wf.layered hs').dimensions_eq⟩
    · rw [HNSWIndex.call, add_of_mismatch hv]
      exact ⟨by rw [Call.expected, if_neg hv], ⟨_, h⟩, rfl⟩
  | addBatch vs => exact h.call_addBatch hD vs
  | clear => exact ⟨rfl, ⟨_, h.clear⟩, rfl⟩

end HNSWIndex

theorem call_agree (S : Stl) {h : HNSWIndex} {b : VectorBatchInserter}
    {log : List (List ℚ × Nat)} (hh : HNSWIndex.Reachable S h log)
    (hb : VectorBatchInserter.Reachable b (log.map (·.1))) (hdim : b.dimensions = h.dimensions)
    (hD : 0 < h.dimensions) {c : Call} (hc : c.Whole h.dimensions) :
    ∃ log', HNSWIndex.Reachable S (h.call S c).1 log' ∧
      VectorBatchInserter.Reachable (b.call c).1 (log'.map (·.1)) := by
  cases c with
  | add v =>
    by_cases hv : v.length = h.dimensions
    · obtain ⟨h', hs'⟩ := hh.add_ok hD hv
      have hbs := VectorBatchInserter.add_ok_iff.mpr ⟨hdim ▸ hv, rfl⟩
      rw [HNSWIndex.call, hs', VectorBatchInserter.call, hbs]
      exact ⟨_, hh.add hs', by rw [List.map_append]; exact hb.add hbs⟩
    · have hbs : b.add v = .error (.invalidArgument "Vector dimension mismatch") := by
        simp [VectorBatchInserter.add, hdim, hv]
      rw [HNSWIndex.call, HNSWIndex.add_of_mismatch hv, VectorBatchInserter.call, hbs]
      exact ⟨log, hh, hb⟩
  | addBatch vs =>
    by_cases hall : ∀ v ∈ vs, v.length = h.dimensions
    · have hbs := VectorBatchInserter.addBatch_ok_iff.mpr ⟨fun v hv => hdim ▸ hall v hv, rfl⟩
      have hout := (hh.call_addBatch hD vs).1
      cases ht : h.addBatch S vs with
      | ok _ t =>
        obtain ⟨log', hr, hmap⟩ := hh.addBatch_log ht
        rw [HNSWIndex.call, ht, VectorBatchInserter.call, hbs]
        exact ⟨_, hr, by rw [List.map_append, hmap]; exact hb.addBatch hbs⟩
      | error e t =>
        simp only [HNSWIndex.call, ht] at hout
        rw [Call.expected, if_pos hall] at hout
        cases hout
    · -- refused at its first vector: neither store changes
      obtain ⟨v, rest, rfl⟩ : ∃ v rest, vs = v :: rest :=
        List.exists_cons_of_ne_nil fun hnil => hall (by simp [hnil])
      have hv : v.length ≠ h.dimensions := hc.resolve_left hall v rfl
      rw [HNSWIndex.call, HNSWIndex.addBatch, HNSWIndex.add_of_mismatch hv,
        VectorBatchInserter.call, VectorBatchInserter.addBatch_of_mismatch
          ⟨v, List.mem_cons_self _ _, hdim ▸ hv⟩]
      exact ⟨log, hh, hb⟩
  | clear => exact ⟨[], hh.clear, hb.clear⟩

/-- Driven by one session from a reachable index and a reachable inserter of one dimension
`D ≥ 1`, the two stores return alike at every call, each throwing exactly where a vector it is
given has the wrong length. When they start with the same vectors and no `add_batch` of the
session throws part-way through, they end with the same vectors, those a reachable index logged. -/
theorem sessions_agree (S : Stl) : ∀ (cs : List Call) {h : HNSWIndex} {b : VectorBatchInserter}
    {log : List (List ℚ × Nat)} {vs : List (List ℚ)}, HNSWIndex.Reachable S h log →
    VectorBatchInserter.Reachable b vs → b.dimensions = h.dimensions → 0 < h.dimensions →
    (h.session S cs).2 = cs.map (Call.expected h.dimensions) ∧
      (b.session cs).2 = cs.map (Call.expected h.dimensions) ∧
      (vs = log.map (·.1) → (∀ c ∈ cs, c.Whole h.dimensions) →
        ∃ log', HNSWIndex.Reachable S (h.session S cs).1 log' ∧
          VectorBatchInserter.Reachable (b.session cs).1 (log'.map (·.1)))
  | [], _, _, log, _, hh, hb, _, _ => ⟨rfl, rfl, fun hvs _ => ⟨log, hh, hvs ▸ hb⟩⟩
  | c :: cs, h, b, log, vs, hh, hb, hdim, hD => by
    obtain ⟨hoH, ⟨_, hrH⟩, hdH⟩ := hh.call hD c
    obtain ⟨hoB, ⟨_, hrB⟩, hdB⟩ := hb.call c
    have hdim' : (b.call c).1.dimensions = (h.call S c).1.dimensions := by rw [hdB, hdH, hdim]
    have hD' : 0 < (h.call S c).1.dimensions := hdH ▸ hD
    obtain ⟨ihH, ihB, -⟩ := sessions_agree S cs hrH hrB hdim' hD'
    refine ⟨?_, ?_, fun hvs hall => ?_⟩
    · show (h.call S c).2 :: _ = _
      rw [hoH, ihH, hdH, List.map_cons]
    · show (b.call c).2 :: _ = _
      rw [hoB, ihB, hdH, hdim, List.map_cons]
    · obtain ⟨log', hr, hb'⟩ := call_agree S hh (hvs ▸ hb) hdim hD (hall c (List.mem_cons_self _ _))
      exact (sessions_agree S cs hr hb' hdim' hD').2.2 rfl fun c' hc' => by
        rw [hdH]
        exact hall c' (List.mem_cons_of_mem _ hc')

set_option maxRecDepth 100000 in
theorem sessions_agree_mixed : ∃ cs : List Call,
    cs = [.add [0], .addBatch [[1], [2]], .add [0, 0], .addBatch [[0, 0], [1]], .clear, .add [5]] ∧
    ((HNSWIndex.new 1 1000000 16 200).session Stl.sorting cs).2 = cs.map (Call.expected 1) ∧
    ((VectorBatchInserter.new 1).session cs).2 = cs.map (Call.expected 1) ∧
    (∀ c ∈ cs, c.Whole 1) ∧
    ∃ log', HNSWIndex.Reachable Stl.sorting
        ((HNSWIndex.new 1 1000000 16 200).session Stl.sorting cs).1 log' ∧
      VectorBatchInserter.Reachable ((VectorBatchInserter.new 1).session cs).1 (log'.map (·.1)) :=
  have hall : ∀ c ∈ ([.add [0], .addBatch [[1], [2]], .add [0, 0], .addBatch [[0, 0], [1]], .clear,
      .add [5]] : List Call), c.Whole 1 := by decide
  have hs := sessions_agree Stl.sorting [.add [0], .addBatch [[1], [2]], .add [0, 0],
    .addBatch [[0, 0], [1]], .clear, .add [5]] (.new 1 1000000 16 200 l2DistanceSimd) (.new 1 l2DistanceSimd) rfl (by decide)
  ⟨_, rfl, hs.1, hs.2.1, hall, hs.2.2 rfl hall⟩

end NexaDb.Native
