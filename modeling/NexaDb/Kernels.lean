import Mathlib.Algebra.Order.Field.Rat
import Mathlib.Algebra.BigOperators.Group.List

/-! Distance kernels and the row-major arena both indexes read them from.  Scalars are
rationals: every finite `float` is one, and compares as its rational does. -/

namespace NexaDb.Native

/-- How a call ends when it does not return: `std::invalid_argument`, an index past the end
of a `std::vector` (undefined behaviour), or the model's own iteration bound running out. -/
inductive Error
  | invalidArgument (what : String)
  | outOfRange
  | outOfFuel
  deriving DecidableEq, Repr

/-! The `Except` monad the model's calls run in. -/

@[simp] theorem ok_bind {α β : Type} (a : α) (f : α → Except Error β) :
    (Except.ok a >>= f) = f a := rfl

@[simp] theorem error_bind {α β : Type} (e : Error) (f : α → Except Error β) :
    (Except.error e >>= f) = .error e := rfl

@[simp] theorem throw_bind {α β : Type} (e : Error) (f : α → Except Error β) :
    (throw e >>= f : Except Error β) = .error e := rfl

@[simp] theorem pure_eq_ok {α : Type} (a : α) : (pure a : Except Error α) = .ok a := rfl

theorem bind_eq_ok {α β : Type} {x : Except Error α} {f : α → Except Error β} {r : β} :
    (x >>= f) = .ok r ↔ ∃ a, x = .ok a ∧ f a = .ok r := by
  cases x <;> simp

theorem bind_ne_error {α β : Type} {x : Except Error α} {f : α → Except Error β} {e : Error}
    (hx : x ≠ .error e) (hf : ∀ a, x = .ok a → f a ≠ .error e) : (x >>= f) ≠ .error e := by
  cases x with
  | error e' => simpa using hx
  | ok a => exact hf a rfl

/-- `l2_distance_simd` on its scalar path: `Σ (a[i] - b[i])²` over `i < dimensions`. -/
def l2DistanceSimd (a b : List ℚ) (dimensions : Nat) : ℚ :=
  ((List.range dimensions).map fun i => (a.getD i 0 - b.getD i 0) ^ 2).sum

/-- A distance kernel: two vectors and the dimension to a distance.  Both stores keep theirs as a
field that the constructors set to `l2DistanceSimd`, so that what is proved of a reachable store
holds for any kernel, the source's `float` sums among them. -/
abbrev DistanceKernel := List ℚ → List ℚ → Nat → ℚ

def slice (data : List ℚ) (dimensions id : Nat) : List ℚ :=
  (data.drop (id * dimensions)).take dimensions

/-- `&data_[id * dimensions_]`, then the `dimensions_` reads a kernel makes from there:
both must stay inside `data_`. -/
def row (data : List ℚ) (dimensions id : Nat) : Except Error (List ℚ) :=
  if id * dimensions < data.length ∧ (id + 1) * dimensions ≤ data.length then
    .ok (slice data dimensions id)
  else .error .outOfRange

theorem row_eq_ok {data : List ℚ} {dimensions id : Nat}
    (h₁ : id * dimensions < data.length) (h₂ : (id + 1) * dimensions ≤ data.length) :
    row data dimensions id = .ok (slice data dimensions id) := by
  simp [row, h₁, h₂]

theorem row_ok_iff {data : List ℚ} {dimensions id : Nat} {v : List ℚ} :
    row data dimensions id = .ok v ↔
      (id * dimensions < data.length ∧ (id + 1) * dimensions ≤ data.length) ∧
        v = slice data dimensions id := by
  unfold row
  split <;> simp_all [eq_comm]

theorem row_end_le {data : List ℚ} {dimensions n id : Nat} (hlen : data.length = n * dimensions)
    (hid : id < n) : id * dimensions + dimensions ≤ data.length := by
  have := Nat.mul_le_mul_right dimensions hid
  rw [Nat.succ_mul] at this
  omega

theorem row_of_lt {data : List ℚ} {dimensions n id : Nat} (hlen : data.length = n * dimensions)
    (hd : 0 < dimensions) (hid : id < n) :
    row data dimensions id = .ok (slice data dimensions id) := by
  have := row_end_le hlen hid
  exact row_eq_ok (by omega) (by rw [Nat.succ_mul]; omega)

theorem slice_append_of_lt {data extra : List ℚ} {dimensions n id : Nat}
    (hlen : data.length = n * dimensions) (hid : id < n) :
    slice (data ++ extra) dimensions id = slice data dimensions id := by
  have := row_end_le hlen hid
  rw [slice, List.drop_append_of_le_length (by omega),
    List.take_append_of_le_length (by simp; omega), slice]

theorem slice_append_row {data v : List ℚ} {dimensions n : Nat} (hlen : data.length = n * dimensions)
    (hv : v.length = dimensions) : slice (data ++ v) dimensions n = v := by
  rw [slice, ← hlen, List.drop_left, List.take_of_length_le (le_of_eq hv)]

theorem length_slice {data : List ℚ} {dimensions n id : Nat}
    (hlen : data.length = n * dimensions) (hid : id < n) :
    (slice data dimensions id).length = dimensions := by
  have := row_end_le hlen hid
  simp only [slice, List.length_take, List.length_drop]
  omega

theorem length_flatten_of_rows {dimensions : Nat} :
    ∀ {vs : List (List ℚ)}, (∀ v ∈ vs, v.length = dimensions) →
      vs.flatten.length = vs.length * dimensions
  | [], _ => by simp
  | v :: vs, h => by
    rw [List.flatten_cons, List.length_append, h v (by simp),
      length_flatten_of_rows fun w hw => h w (by simp [hw]), List.length_cons, Nat.succ_mul]
    omega

theorem slice_flatten_of_rows {dimensions : Nat} :
    ∀ {vs : List (List ℚ)}, (∀ v ∈ vs, v.length = dimensions) →
      ∀ i (hi : i < vs.length), slice vs.flatten dimensions i = vs[i]
  | [], _, _, hi => absurd hi (by simp)
  | v :: vs, h, 0, _ => by
    simp [slice, List.take_append_of_le_length (le_of_eq (h v (by simp)).symm),
      List.take_of_length_le (le_of_eq (h v (by simp)))]
  | v :: vs, h, i + 1, hi => by
    have hv := h v (by simp)
    rw [slice, List.flatten_cons, Nat.succ_mul, Nat.add_comm, ← List.drop_drop,
      List.drop_left' hv]
    exact slice_flatten_of_rows (fun w hw => h w (by simp [hw])) i (by simpa using hi)

/-- The arena `data` holds `vs` in ID order, `dimensions` values a row: its length matches, row `i`
is `vs[i]`, and every row read that returns reads the vector its ID names. -/
structure RowsOf (data : List ℚ) (dimensions numVectors : Nat) (vs : List (List ℚ)) : Prop where
  length_data : data.length = numVectors * dimensions
  numVectors_eq : numVectors = vs.length
  slice_eq : ∀ i (hi : i < vs.length), slice data dimensions i = vs[i]
  row_eq : ∀ i r, row data dimensions i = .ok r → ∃ hi : i < vs.length, r = vs[i]

theorem RowsOf.flatten {dimensions : Nat} {vs : List (List ℚ)}
    (h : ∀ v ∈ vs, v.length = dimensions) : RowsOf vs.flatten dimensions vs.length vs := by
  refine ⟨length_flatten_of_rows h, rfl, slice_flatten_of_rows h, fun i r hr => ?_⟩
  obtain ⟨⟨hlt, -⟩, rfl⟩ := row_ok_iff.mp hr
  have hi : i < vs.length := Nat.lt_of_mul_lt_mul_right (length_flatten_of_rows h ▸ hlt)
  exact ⟨hi, slice_flatten_of_rows h i hi⟩

theorem mapM_eq_ok {α β : Type} {f : α → Except Error β} {g : α → β} :
    ∀ {l : List α}, (∀ x ∈ l, f x = .ok (g x)) → l.mapM f = .ok (l.map g)
  | [], _ => rfl
  | x :: l, h => by
    rw [List.mapM_cons, h x (by simp), mapM_eq_ok fun y hy => h y (by simp [hy])]
    rfl

end NexaDb.Native
