import NexaDb.Stl
import NexaDb.Mt19937

/-! `HNSWIndex` of `hnsw_index.cpp`: the arena, the layered adjacency lists, the entry point
and the level generator, with each method as the source computes it. -/

namespace NexaDb.Native

structure HNSWNode where
  id : Nat
  neighbors : List (List Nat)
  deriving DecidableEq, Repr

/-- `HNSWNode(node_id, max_layer)`: `max_layer + 1` empty neighbour lists. -/
def HNSWNode.new (nodeId maxLayer : Nat) : HNSWNode := ⟨nodeId, List.replicate (maxLayer + 1) []⟩

structure SearchCandidate where
  id : Nat
  distance : ℚ
  deriving DecidableEq, Repr

/-- The key of `std::priority_queue<SearchCandidate>` (`operator<`): its top is the farthest. -/
def SearchCandidate.far (c : SearchCandidate) : ℚ := c.distance

/-- The key of the queue ordered by `std::greater` (`operator>`): its top is the nearest. -/
def SearchCandidate.near (c : SearchCandidate) : ℚ := -c.distance

structure HNSWIndex where
  dimensions : Nat
  maxElements : Nat
  numVectors : Nat
  M : Nat
  MMax : Nat
  efConstruction : Nat
  efSearch : Nat
  data : List ℚ
  nodes : List HNSWNode
  entryPoint : Nat
  maxLayer : Nat
  rng : Mt19937
  kernel : DistanceKernel

structure LayerSearch where
  visited : List Nat
  candidates : List SearchCandidate
  W : List SearchCandidate
  deriving DecidableEq, Repr

/-- `nodes_[u].neighbors[layer]`, both indexes checked. -/
def getNeighbors (nodes : List HNSWNode) (u layer : Nat) : Except Error (List Nat) :=
  match nodes[u]? with
  | none => .error .outOfRange
  | some node => match node.neighbors[layer]? with
    | none => .error .outOfRange
    | some l => .ok l

def setNeighbors (nodes : List HNSWNode) (u layer : Nat) (l : List Nat) : List HNSWNode :=
  nodes.modify (fun node => { node with neighbors := node.neighbors.set layer l }) u

def layerIds (nodes : List HNSWNode) (layer : Nat) : List Nat :=
  (nodes.map fun node => node.neighbors.getD layer []).flatten

/-- `W.top()`, undefined on an empty queue. -/
def top : List SearchCandidate → Except Error SearchCandidate
  | [] => .error .outOfRange
  | c :: _ => .ok c

/-- `W.push(x)`, then `W.pop()` if `W` now holds more than `ef`. -/
def pushBounded (S : Stl) (ef : Nat) (W : List SearchCandidate) (x : SearchCandidate) :
    List SearchCandidate :=
  let W := S.push SearchCandidate.far W x
  if W.length > ef then S.pop SearchCandidate.far W else W

/-- The body of the loop over the neighbours of an expanded candidate. -/
def visit (S : Stl) (dist : Nat → Except Error ℚ) (ef : Nat) (st : LayerSearch) (n : Nat) :
    Except Error LayerSearch :=
  if n ∈ st.visited then .ok st else do
    let dN ← dist n
    let w ← top st.W
    if dN < w.distance ∨ st.W.length < ef then
      pure ⟨n :: st.visited, S.push SearchCandidate.near st.candidates ⟨n, dN⟩,
        pushBounded S ef st.W ⟨n, dN⟩⟩
    else pure { st with visited := n :: st.visited }

/-- The `while` loop of `search_layer`, for at most `fuel` rounds. -/
def searchLoop (S : Stl) (nbrsOf : Nat → Except Error (List Nat)) (dist : Nat → Except Error ℚ)
    (ef : Nat) : Nat → LayerSearch → Except Error LayerSearch
  | fuel, st => match st.candidates with
    | [] => .ok st
    | c :: _ => match fuel with
      | 0 => .error .outOfFuel
      | fuel + 1 => do
        let st := { st with candidates := S.pop SearchCandidate.near st.candidates }
        let w ← top st.W
        if c.distance > w.distance then pure st
        else
          let nbrs ← nbrsOf c.id
          let st ← nbrs.foldlM (visit S dist ef) st
          searchLoop S nbrsOf dist ef fuel st

/-- Emptying `W` through `top` and `pop`: farthest first. -/
def drain (S : Stl) : Nat → List SearchCandidate → List SearchCandidate
  | 0, _ => []
  | _ + 1, [] => []
  | n + 1, c :: W => c :: drain S n (S.pop SearchCandidate.far (c :: W))

/-- The layers `top, top - 1, …, bottom + 1` of a loop `for (lc = top; lc > bottom; --lc)`. -/
def layersAbove (top bottom : Nat) : List Nat := (List.range' (bottom + 1) (top - bottom)).reverse

namespace HNSWIndex

/-- The constructor: `M_max_ = M * 2` in `size_t`, `ef_search_ = 100`, `rng_(42)`, and the kernel
`l2_distance_simd`. -/
def new (dimensions maxElements M efConstruction : Nat) : HNSWIndex :=
  { dimensions, maxElements, numVectors := 0, M, MMax := M * 2 % 2 ^ 64, efConstruction,
    efSearch := 100, data := [], nodes := [], entryPoint := 0, maxLayer := 0,
    rng := Mt19937.seed 42, kernel := l2DistanceSimd }

def distance (s : HNSWIndex) (id1 id2 : Nat) : Except Error ℚ := do
  let v1 ← row s.data s.dimensions id1
  let v2 ← row s.data s.dimensions id2
  pure (s.kernel v1 v2 s.dimensions)

def distanceToQuery (s : HNSWIndex) (query : List ℚ) (id : Nat) : Except Error ℚ := do
  let v ← row s.data s.dimensions id
  pure (s.kernel query v s.dimensions)

/-- `search_layer`: beam search of width `ef` on `layer` from `entryId`, nearest first. -/
def searchLayer (S : Stl) (s : HNSWIndex) (query : List ℚ) (entryId ef layer : Nat) :
    Except Error (List SearchCandidate) := do
  let d ← s.distanceToQuery query entryId
  let st ← searchLoop S (getNeighbors s.nodes · layer) (s.distanceToQuery query) ef
    ((layerIds s.nodes layer).length + 1)
    ⟨[entryId], S.push SearchCandidate.near [] ⟨entryId, d⟩, S.push SearchCandidate.far [] ⟨entryId, d⟩⟩
  pure (drain S st.W.length st.W).reverse

/-- The greedy descent through `layers` with `ef = 1`, keeping the nearest found so far. -/
def descend (S : Stl) (s : HNSWIndex) (query : List ℚ) (curr : Nat) (layers : List Nat) :
    Except Error Nat :=
  layers.foldlM (fun curr lc => do
    let nearest ← s.searchLayer S query curr 1 lc
    pure (match nearest with | [] => curr | c :: _ => c.id)) curr

/-- `prune_connections`: keep the `M` neighbours nearest to `nodeId` at `layer`. -/
def pruneConnections (S : Stl) (s : HNSWIndex) (nodeId layer M : Nat) : Except Error HNSWIndex := do
  let neighbors ← getNeighbors s.nodes nodeId layer
  if neighbors.length ≤ M then return s
  let candidates ← neighbors.mapM fun n => do
    let d ← s.distance nodeId n
    pure (SearchCandidate.mk n d)
  let sorted := S.sort SearchCandidate.far candidates
  pure { s with nodes := setNeighbors s.nodes nodeId layer ((sorted.take M).map (·.id)) }

/-- One round of the linking loop: both directions, then a prune if the neighbour overflows. -/
def link (S : Stl) (newId lc M : Nat) (s : HNSWIndex) (neighbor : SearchCandidate) :
    Except Error HNSWIndex := do
  let own ← getNeighbors s.nodes newId lc
  let s := { s with nodes := setNeighbors s.nodes newId lc (own ++ [neighbor.id]) }
  let back ← getNeighbors s.nodes neighbor.id lc
  let s := { s with nodes := setNeighbors s.nodes neighbor.id lc (back ++ [newId]) }
  if back.length + 1 > M then pruneConnections S s neighbor.id lc M else pure s

/-- One round of the insertion loop at layer `lc`, from the nearest node `curr` so far. -/
def insertLayer (S : Stl) (query : List ℚ) (newId : Nat) (st : HNSWIndex × Nat) (lc : Nat) :
    Except Error (HNSWIndex × Nat) := do
  let candidates ← st.1.searchLayer S query st.2 st.1.efConstruction lc
  let M := if lc = 0 then st.1.MMax else st.1.M
  let neighbors := candidates.take M
  let s ← neighbors.foldlM (link S newId lc M) st.1
  pure (s, match neighbors with | [] => st.2 | c :: _ => c.id)

def add (S : Stl) (s : HNSWIndex) (vector : List ℚ) : Except Error HNSWIndex := do
  if vector.length ≠ s.dimensions then throw (.invalidArgument "Vector dimension mismatch")
  let newId := s.numVectors
  let (newLevel, rng) := getRandomLevel s.M s.rng
  let s := { s with rng, data := s.data ++ vector,
                    nodes := s.nodes ++ [HNSWNode.new newId (max newLevel s.maxLayer)] }
  if s.numVectors = 0 then
    return { s with entryPoint := newId, maxLayer := newLevel, numVectors := s.numVectors + 1 }
  let curr ← s.descend S vector s.entryPoint (layersAbove s.maxLayer newLevel)
  let (s, _) ← (List.range (min newLevel s.maxLayer + 1)).reverse.foldlM
    (insertLayer S vector newId) (s, curr)
  let s := if newLevel > s.maxLayer then { s with maxLayer := newLevel, entryPoint := newId } else s
  return { s with numVectors := s.numVectors + 1 }

/-- `add_batch` is `add` on each vector in turn: a throw leaves the vectors before it added. -/
def addBatch (S : Stl) (s : HNSWIndex) : List (List ℚ) → EStateM.Result Error HNSWIndex Unit
  | [] => .ok () s
  | v :: vs => match s.add S v with
    | .ok s' => addBatch S s' vs
    | .error e => .error e s

def search (S : Stl) (s : HNSWIndex) (query : List ℚ) (k : Nat) :
    Except Error (List (Nat × ℚ)) := do
  if query.length ≠ s.dimensions then throw (.invalidArgument "Query dimension mismatch")
  if s.numVectors = 0 then return []
  let k := min k s.numVectors
  let curr ← s.descend S query s.entryPoint (layersAbove s.maxLayer 0)
  let candidates ← s.searchLayer S query curr (max s.efSearch k) 0
  pure ((candidates.take k).map fun c => (c.id, c.distance))

def clear (s : HNSWIndex) : HNSWIndex :=
  { s with data := [], nodes := [], numVectors := 0, entryPoint := 0, maxLayer := 0 }

def setEf (s : HNSWIndex) (ef : Nat) : HNSWIndex := { s with efSearch := ef }

/-- `Reachable S s log`: `s` is reached from a constructor, with any kernel, and `log` lists the vector and the
sampled level of each node since the last `clear`.  `search` and a throwing `add` leave the state
as it was, and `add_batch` is `add` in turn (`Reachable.addBatch`). -/
inductive Reachable (S : Stl) : HNSWIndex → List (List ℚ × Nat) → Prop
  | new (dimensions maxElements M efConstruction : Nat) (kernel : DistanceKernel) :
      Reachable S { new dimensions maxElements M efConstruction with kernel } []
  | add {s s' : HNSWIndex} {log : List (List ℚ × Nat)} {v : List ℚ} :
      Reachable S s log → s.add S v = .ok s' →
        Reachable S s' (log ++ [(v, (getRandomLevel s.M s.rng).1)])
  | setEf {s : HNSWIndex} {log : List (List ℚ × Nat)} (ef : Nat) :
      Reachable S s log → Reachable S (s.setEf ef) log
  | clear {s : HNSWIndex} {log : List (List ℚ × Nat)} :
      Reachable S s log → Reachable S s.clear []

end HNSWIndex

end NexaDb.Native
