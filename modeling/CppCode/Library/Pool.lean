import Mathlib.Algebra.BigOperators.Fin
import Mathlib.Algebra.Order.BigOperators.Group.Finset
import Mathlib.Data.Fintype.BigOperators

/-!
# Pools of workers

A pool is a function from worker names to positions, and a step moves one worker. What a pool
carries in total is a sum over its workers; `pool_move` says how one move changes it, in any
additive commutative monoid, so that a count of busy workers and a multiset of the records they
hold follow the same law. A count is at most the size of the pool, and reaches it exactly when
every worker counts.
-/

namespace CppCode.Library

variable {ι σ M : Type*} [Fintype ι] [AddCommMonoid M]

/-- What all workers of a pool carry together. -/
def poolSum (carried : σ → M) (pool : ι → σ) : M := ∑ i, carried (pool i)

section
variable [DecidableEq ι]

/-- Moving one worker exchanges what it carries and leaves the rest of the sum. -/
theorem pool_move (carried : σ → M) (pool : ι → σ) (i : ι) (place : σ) :
    poolSum carried (Function.update pool i place) + carried (pool i) =
      poolSum carried pool + carried place := by
  have moved : poolSum carried (Function.update pool i place) =
      carried place + ∑ j ∈ Finset.univ \ {i}, carried (pool j) := by
    have commute : (fun j => carried (Function.update pool i place j)) =
        Function.update (fun j => carried (pool j)) i (carried place) :=
      Function.comp_update carried pool i place
    unfold poolSum
    rw [commute, Finset.sum_update_of_mem (Finset.mem_univ i)]
  have kept : poolSum carried pool =
      carried (pool i) + ∑ j ∈ Finset.univ \ {i}, carried (pool j) := by
    have same := Finset.sum_update_of_mem (Finset.mem_univ i) (fun j => carried (pool j))
      (carried (pool i))
    rwa [Function.update_eq_self] at same
  rw [moved, kept]
  ac_rfl

end

/-! ## Counting workers -/

variable {count : σ → Nat}

/-- A count of workers is at most the size of the pool. -/
theorem pool_count_le (single : ∀ place, count place ≤ 1) (pool : ι → σ) :
    poolSum count pool ≤ Fintype.card ι := by
  calc
    poolSum count pool ≤ ∑ _i : ι, 1 := Finset.sum_le_sum fun i _ => single (pool i)
    _ = Fintype.card ι := by simp

/-- A count of workers is the size of the pool exactly when every worker counts. -/
theorem pool_count_full (single : ∀ place, count place ≤ 1) (pool : ι → σ) :
    poolSum count pool = Fintype.card ι ↔ ∀ i, count (pool i) = 1 := by
  have size : Fintype.card ι = ∑ _i : ι, 1 := by simp
  rw [size]
  have pointwise : ∑ i, count (pool i) = ∑ _i : ι, 1 ↔ ∀ i ∈ Finset.univ, count (pool i) = 1 :=
    Finset.sum_eq_sum_iff_of_le fun i _ => single (pool i)
  simpa [poolSum] using pointwise

end CppCode.Library
