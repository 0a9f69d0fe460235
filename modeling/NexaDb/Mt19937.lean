import Mathlib.Data.List.Defs
import Mathlib.Data.Nat.Find
import Mathlib.Algebra.Group.Nat.Basic

/-! The level generator of `HNSWIndex`: `std::mt19937` seeded with `42`, read through
`uniform_real_distribution<double>(0, 1)` and `get_random_level`. -/

namespace NexaDb.Native

/-- `std::mt19937`: the 624 state words and the index of the next word to hand out. -/
structure Mt19937 where
  x : List Nat
  p : Nat
  deriving DecidableEq, Repr

namespace Mt19937

def seedAux (prev i : Nat) : Nat → List Nat
  | 0 => []
  | n + 1 =>
    let next := (1812433253 * (prev ^^^ (prev >>> 30)) + i) % 2 ^ 32
    next :: seedAux next (i + 1) n

/-- `mersenne_twister_engine::seed`. -/
def seed (value : Nat) : Mt19937 :=
  ⟨(value % 2 ^ 32) :: seedAux (value % 2 ^ 32) 1 623, 624⟩

def twistWord (xk xk1 w : Nat) : Nat :=
  let y := (xk &&& 0x80000000) ||| (xk1 &&& 0x7fffffff)
  w ^^^ (y >>> 1) ^^^ (if y % 2 = 1 then 0x9908b0df else 0)

/-- `_M_gen_rand` in place: words `k < 227` read the old word `k + 397`, later ones the new
word `k - 227`, and the last one the new words `0` and `396`. -/
def genRand (x : List Nat) : List Nat :=
  let b₁ := List.zipWith3 twistWord (x.take 227) (x.drop 1) (x.drop 397)
  let b₂ := List.zipWith3 twistWord ((x.drop 227).take 227) (x.drop 228) b₁
  let b₃ := List.zipWith3 twistWord (x.drop 454) (x.drop 455) (b₂.take 169)
  b₁ ++ b₂ ++ b₃ ++ [twistWord (x.getD 623 0) (b₁.getD 0 0) (b₂.getD 169 0)]

/-- The tempering of `operator()`. -/
def temper (z : Nat) : Nat :=
  let z := z ^^^ ((z >>> 11) &&& 0xffffffff)
  let z := z ^^^ ((z <<< 7) &&& 0x9d2c5680)
  let z := z ^^^ ((z <<< 15) &&& 0xefc60000)
  z ^^^ (z >>> 18)

/-- `operator()`: regenerate the block once it is used up, then temper the next word. -/
def next (g : Mt19937) : Nat × Mt19937 :=
  let x := if 624 ≤ g.p then genRand g.x else g.x
  let p := if 624 ≤ g.p then 0 else g.p
  (temper (x.getD p 0), ⟨x, p + 1⟩)

end Mt19937

/-- `generate_canonical<double, 53>`: two words `x₁, x₂` give `r = (x₁ + x₂·2³²) / 2⁶⁴`,
returned here as its numerator. -/
def generateCanonical (g : Mt19937) : Nat × Mt19937 :=
  let (x₁, g) := g.next
  let (x₂, g) := g.next
  (x₁ + x₂ * 2 ^ 32, g)

/-- `get_random_level`: `(int)(-log(r) * ml_)` with `ml_ = 1 / log(2M)`, in exact arithmetic
the largest `L` with `r · (2M)^L ≤ 1`.  For `M = 0`, `ml_` is `-0.0` and every level is `0`;
`r = 0` is the cast of an infinity, undefined in the source. -/
def getRandomLevel (M : Nat) (g : Mt19937) : Nat × Mt19937 :=
  let (x, g) := generateCanonical g
  (if M = 0 then 0 else Nat.findGreatest (fun L => x * (2 * M) ^ L ≤ 2 ^ 64) 64, g)

/-! Every state the engine reaches holds `624` words of `32` bits, as `uint_fast32_t` words masked
to `32` bits do, so the model's words need no mask: the seeding and each `_M_gen_rand` stay below
`2³²`, and `generate_canonical` returns `r = x / 2⁶⁴ < 1`. -/

namespace Mt19937

structure Wf (g : Mt19937) : Prop where
  length_x : g.x.length = 624
  lt_x : ∀ w ∈ g.x, w < 2 ^ 32
  p_le : g.p ≤ 624

theorem length_seedAux (prev i : Nat) : ∀ n, (seedAux prev i n).length = n
  | 0 => rfl
  | n + 1 => by simp [seedAux, length_seedAux _ _ n]

theorem lt_seedAux : ∀ {prev i n w : Nat}, w ∈ seedAux prev i n → w < 2 ^ 32
  | _, _, 0, _, h => absurd h (List.not_mem_nil _)
  | _, _, _ + 1, _, h => by
    rcases List.mem_cons.mp h with rfl | h
    · exact Nat.mod_lt _ (by decide)
    · exact lt_seedAux h

theorem seed_wf (value : Nat) : (seed value).Wf :=
  ⟨by simp [seed, length_seedAux], fun w hw => by
    rcases List.mem_cons.mp hw with rfl | hw
    · exact Nat.mod_lt _ (by decide)
    · exact lt_seedAux hw, le_rfl⟩

theorem twistWord_lt {xk xk1 w : Nat} (hw : w < 2 ^ 32) : twistWord xk xk1 w < 2 ^ 32 := by
  have hy : (xk &&& 0x80000000) ||| (xk1 &&& 0x7fffffff) < 2 ^ 32 :=
    Nat.or_lt_two_pow (Nat.and_lt_two_pow _ (by decide)) (Nat.and_lt_two_pow _ (by decide))
  refine Nat.xor_lt_two_pow (Nat.xor_lt_two_pow hw ?_) ?_
  · rw [Nat.shiftRight_eq_div_pow]
    exact Nat.lt_of_le_of_lt (Nat.div_le_self _ _) hy
  · split <;> decide

theorem temper_lt {z : Nat} (hz : z < 2 ^ 32) : temper z < 2 ^ 32 := by
  have mask : ∀ {a : Nat} (b m : Nat), a < 2 ^ 32 → m < 2 ^ 32 → a ^^^ (b &&& m) < 2 ^ 32 :=
    fun b _ ha hm => Nat.xor_lt_two_pow ha (Nat.and_lt_two_pow b hm)
  have shr : ∀ {a : Nat} (k : Nat), a < 2 ^ 32 → a ^^^ (a >>> k) < 2 ^ 32 := fun k ha =>
    Nat.xor_lt_two_pow ha (Nat.lt_of_le_of_lt (by
      rw [Nat.shiftRight_eq_div_pow]
      exact Nat.div_le_self _ _) ha)
  exact shr 18 (mask _ _ (mask _ _ (mask _ _ hz (by decide)) (by decide)) (by decide))

theorem length_zipWith3 {α β γ δ : Type} (f : α → β → γ → δ) :
    ∀ (as : List α) (bs : List β) (cs : List γ),
      (List.zipWith3 f as bs cs).length = min as.length (min bs.length cs.length)
  | a :: as, b :: bs, c :: cs => by
    simp only [List.zipWith3, List.length_cons, length_zipWith3 f as bs cs]
    omega
  | [], _, _ => by simp [List.zipWith3]
  | _ :: _, [], _ => by simp [List.zipWith3]
  | _ :: _, _ :: _, [] => by simp [List.zipWith3]

theorem lt_of_mem_zipWith3 (as bs cs : List Nat) (h : ∀ w ∈ cs, w < 2 ^ 32) :
    ∀ w ∈ List.zipWith3 twistWord as bs cs, w < 2 ^ 32 := by
  induction as generalizing bs cs with
  | nil => simp [List.zipWith3]
  | cons a as ih =>
    rcases bs with _ | ⟨b, bs⟩ <;> rcases cs with _ | ⟨c, cs⟩
    all_goals simp only [List.zipWith3, List.not_mem_nil, false_imp_iff, implies_true]
    intro w hw
    rcases List.mem_cons.mp hw with rfl | hw
    · exact twistWord_lt (h c (List.mem_cons_self _ _))
    · exact ih bs cs (fun w hw => h w (List.mem_cons_of_mem _ hw)) w hw

theorem getD_lt {l : List Nat} (h : ∀ w ∈ l, w < 2 ^ 32) (i : Nat) : l.getD i 0 < 2 ^ 32 := by
  rw [List.getD_eq_getElem?_getD]
  cases hi : l[i]? with
  | none => exact Nat.two_pow_pos 32
  | some w => exact h w (List.getElem?_mem hi)

theorem genRand_wf {x : List Nat} (hx : x.length = 624) (hlt : ∀ w ∈ x, w < 2 ^ 32) :
    (genRand x).length = 624 ∧ ∀ w ∈ genRand x, w < 2 ^ 32 := by
  have h₁ := lt_of_mem_zipWith3 (x.take 227) (x.drop 1) (x.drop 397)
    fun w hw => hlt w (List.mem_of_mem_drop hw)
  have h₂ := lt_of_mem_zipWith3 ((x.drop 227).take 227) (x.drop 228) _ h₁
  have h₃ := lt_of_mem_zipWith3 (x.drop 454) (x.drop 455) (List.take 169 _)
    fun w hw => h₂ w (List.mem_of_mem_take hw)
  refine ⟨by simp [genRand, length_zipWith3, hx], fun w hw => ?_⟩
  simp only [genRand, List.mem_append, List.mem_singleton] at hw
  rcases hw with ((hw | hw) | hw) | rfl
  · exact h₁ w hw
  · exact h₂ w hw
  · exact h₃ w hw
  · exact twistWord_lt (getD_lt h₂ 169)

theorem Wf.next {g : Mt19937} (hg : g.Wf) : g.next.2.Wf ∧ g.next.1 < 2 ^ 32 := by
  have hgen := genRand_wf hg.length_x hg.lt_x
  by_cases hp : 624 ≤ g.p
  · simp only [Mt19937.next, if_pos hp]
    exact ⟨⟨hgen.1, hgen.2, by dsimp only; omega⟩, temper_lt (getD_lt hgen.2 0)⟩
  · simp only [Mt19937.next, if_neg hp]
    exact ⟨⟨hg.length_x, hg.lt_x, by dsimp only; omega⟩, temper_lt (getD_lt hg.lt_x g.p)⟩

end Mt19937

theorem Mt19937.Wf.generateCanonical_lt {g : Mt19937} (hg : g.Wf) :
    (generateCanonical g).2.Wf ∧ (generateCanonical g).1 < 2 ^ 64 := by
  obtain ⟨hg₁, hx₁⟩ := hg.next
  obtain ⟨hg₂, hx₂⟩ := hg₁.next
  refine ⟨hg₂, ?_⟩
  simp only [generateCanonical]
  have : g.next.2.next.1 * 2 ^ 32 ≤ (2 ^ 32 - 1) * 2 ^ 32 := Nat.mul_le_mul_right _ (by omega)
  omega

@[simp] theorem getRandomLevel_snd (M : Nat) (g : Mt19937) :
    (getRandomLevel M g).2 = (generateCanonical g).2 := rfl

/-- For `M ≥ 1` and a draw `x < 2⁶⁴`, the level is the exact `⌊log_{2M}(2⁶⁴ / x)⌋`, the value
`(int)(-log(r) * ml_)` takes in exact arithmetic: `r · (2M)^L ≤ 1 < r · (2M)^(L + 1)` for
`r = x / 2⁶⁴ > 0`.  The search bound `64` never cuts it short. -/
theorem getRandomLevel_floor {M : Nat} (hM : 0 < M) (g : Mt19937)
    (hx : (generateCanonical g).1 < 2 ^ 64) :
    (generateCanonical g).1 * (2 * M) ^ (getRandomLevel M g).1 ≤ 2 ^ 64 ∧
      (0 < (generateCanonical g).1 →
        2 ^ 64 < (generateCanonical g).1 * (2 * M) ^ ((getRandomLevel M g).1 + 1)) := by
  simp only [getRandomLevel, Nat.ne_of_gt hM, if_false]
  generalize (generateCanonical g).1 = x at hx ⊢
  refine ⟨Nat.findGreatest_spec (P := fun L => x * (2 * M) ^ L ≤ 2 ^ 64) (Nat.zero_le 64)
    (by simpa using Nat.le_of_lt hx), fun hpos => ?_⟩
  by_cases hL : Nat.findGreatest (fun L => x * (2 * M) ^ L ≤ 2 ^ 64) 64 + 1 ≤ 64
  · exact Nat.lt_of_not_le
      (Nat.findGreatest_is_greatest (P := fun L => x * (2 * M) ^ L ≤ 2 ^ 64) (Nat.lt_succ_self _) hL)
  · -- the level is `64`, and `(2M)^65 ≥ 2^65` already exceeds `2^64`
    have h64 : Nat.findGreatest (fun L => x * (2 * M) ^ L ≤ 2 ^ 64) 64 = 64 :=
      Nat.le_antisymm (Nat.findGreatest_le (P := fun L => x * (2 * M) ^ L ≤ 2 ^ 64) 64) (by omega)
    rw [h64]
    calc 2 ^ 64 < 2 ^ 65 := by decide
      _ ≤ (2 * M) ^ 65 := Nat.pow_le_pow_left (by omega) 65
      _ ≤ x * (2 * M) ^ 65 := Nat.le_mul_of_pos_left _ hpos

end NexaDb.Native
