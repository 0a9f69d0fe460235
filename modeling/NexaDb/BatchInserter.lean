import NexaDb.Stl

/-! `VectorBatchInserter`, the brute-force index of `vector_ops.cpp`. -/

namespace NexaDb.Native

structure VectorBatchInserter where
  dimensions : Nat
  numVectors : Nat
  data : List ℚ
  kernel : DistanceKernel

namespace VectorBatchInserter

def new (dimensions : Nat) : VectorBatchInserter := ⟨dimensions, 0, [], l2DistanceSimd⟩

def add (s : VectorBatchInserter) (vector : List ℚ) : Except Error VectorBatchInserter :=
  if vector.length ≠ s.dimensions then .error (.invalidArgument "Vector dimension mismatch")
  else .ok { s with data := s.data ++ vector, numVectors := s.numVectors + 1 }

/-- `add_batch` checks every dimension before it appends anything. -/
def addBatch (s : VectorBatchInserter) (vectors : List (List ℚ)) :
    EStateM.Result Error VectorBatchInserter Unit :=
  if vectors.any (·.length ≠ s.dimensions) then
    .error (.invalidArgument "Vector dimension mismatch") s
  else .ok () { s with data := s.data ++ vectors.flatten, numVectors := s.numVectors + vectors.length }

/-- The distance of `query` to every stored row, in ID order. -/
def distances (s : VectorBatchInserter) (query : List ℚ) : Except Error (List (Nat × ℚ)) :=
  (List.range s.numVectors).mapM fun i => do
    let v ← row s.data s.dimensions i
    pure (i, s.kernel query v s.dimensions)

/-- `search`: all distances, `partial_sort` of the first `k` by distance, `resize(k)`. -/
def search (S : Stl) (s : VectorBatchInserter) (query : List ℚ) (k : Nat) :
    Except Error (List (Nat × ℚ)) := do
  if query.length ≠ s.dimensions then throw (.invalidArgument "Query dimension mismatch")
  if s.numVectors = 0 then return []
  let k := min k s.numVectors
  let distances ← s.distances query
  pure ((S.partialSort (·.2) k distances).take k)

def clear (s : VectorBatchInserter) : VectorBatchInserter := { s with data := [], numVectors := 0 }

/-- `Reachable s vs`: `s` is reached from construction, with any kernel, and `vs` are the vectors
it has committed since the last `clear`, in call order.  A call that throws leaves the state as it
was (`add` and `add_batch` check before they write), and `search` writes nothing. -/
inductive Reachable : VectorBatchInserter → List (List ℚ) → Prop
  | new (dimensions : Nat) (kernel : DistanceKernel) : Reachable { new dimensions with kernel } []
  | add {s s' : VectorBatchInserter} {vs : List (List ℚ)} {v : List ℚ} :
      Reachable s vs → s.add v = .ok s' → Reachable s' (vs ++ [v])
  | addBatch {s s' : VectorBatchInserter} {vs batch : List (List ℚ)} :
      Reachable s vs → s.addBatch batch = .ok () s' → Reachable s' (vs ++ batch)
  | clear {s : VectorBatchInserter} {vs : List (List ℚ)} : Reachable s vs → Reachable s.clear []

end VectorBatchInserter

end NexaDb.Native
