import Mathlib.Data.List.Iterate
import Mathlib.Data.List.Nodup
import Mathlib.Data.List.Perm.Subperm
import Mathlib.Data.Nat.ModEq
import Mathlib.Tactic.Common

/-!
# Walking round a cycle

`walk start step n` lists the places that `n` steps of a fixed length meet on a
cycle of `n` places. When the step length is coprime to `n`, the walk meets every
place once. Steps of length `n + 1` and `n - 1` are the steps to the next and to
the previous place.
-/

namespace Stride

/-- The places met by `n` steps from `start`. -/
def walk (start step n : ℕ) : List ℕ :=
  (List.range n).map fun i => (start + i * step) % n

@[simp] theorem length_walk (start step n : ℕ) : (walk start step n).length = n := by
  simp [walk]

theorem lt_of_mem_walk {start step n k : ℕ} (hk : k ∈ walk start step n) : k < n := by
  obtain ⟨i, hi, rfl⟩ := List.mem_map.mp hk
  exact Nat.mod_lt _ (Nat.zero_lt_of_lt (List.mem_range.mp hi))

theorem nodup_walk (start : ℕ) {step n : ℕ} (h : Nat.Coprime step n) :
    (walk start step n).Nodup := by
  refine List.nodup_range.map_on ?_
  intro i hi j hj hij
  have hmul : i * step ≡ j * step [MOD n] := Nat.ModEq.add_left_cancel' start hij
  have hmod : i ≡ j [MOD n] := Nat.ModEq.cancel_right_of_coprime h.symm hmul
  exact Nat.ModEq.eq_of_lt_of_lt hmod (List.mem_range.mp hi) (List.mem_range.mp hj)

/-- A walk with a coprime step meets every place exactly once. -/
theorem walk_perm_range (start : ℕ) {step n : ℕ} (h : Nat.Coprime step n) :
    (walk start step n).Perm (List.range n) := by
  apply List.Subperm.perm_of_length_le
  · apply List.subperm_of_subset (nodup_walk start h)
    intro k hk
    exact List.mem_range.mpr (lt_of_mem_walk hk)
  · simp

theorem mem_walk_iff (start : ℕ) {step n k : ℕ} (h : Nat.Coprime step n) :
    k ∈ walk start step n ↔ k < n := by
  rw [(walk_perm_range start h).mem_iff, List.mem_range]

theorem coprime_succ (n : ℕ) : Nat.Coprime (n + 1) n := by
  simp

theorem coprime_pred {n : ℕ} (h : 0 < n) : Nat.Coprime (n - 1) n := by
  obtain ⟨m, rfl⟩ := Nat.exists_eq_succ_of_ne_zero h.ne'
  simp

theorem iterate_step {start step n : ℕ} (h : start < n) (i : ℕ) :
    (fun k => (k + step) % n)^[i] start = (start + i * step) % n := by
  induction i with
  | zero => rw [Function.iterate_zero_apply, Nat.zero_mul, Nat.add_zero, Nat.mod_eq_of_lt h]
  | succ i ih =>
      rw [Function.iterate_succ_apply', ih, Nat.mod_add_mod, Nat.succ_mul, Nat.add_assoc]

/-- A walk opens at its start and goes on from each place by one step. -/
theorem walk_eq_iterate {start n : ℕ} (step : ℕ) (h : start < n) :
    walk start step n = List.iterate (fun k => (k + step) % n) start n := by
  rw [walk, ← List.range_map_iterate]
  exact List.map_congr_left fun i _ => (iterate_step h i).symm

/-- A step of length `n + 1` is a step to the next place. -/
theorem step_succ {n : ℕ} : (fun k => (k + (n + 1)) % n) = fun k => (k + 1) % n := by
  funext k
  rw [Nat.add_comm n 1, ← Nat.add_assoc, Nat.add_mod_right]

end Stride
