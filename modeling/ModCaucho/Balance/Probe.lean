import ModCaucho.Balance.Basic
import ModCaucho.Lib.Stride

/-!
# The probe order meets every srun once

The probe arithmetic of `open_connection` in 32-bit integers is a walk round the
table: as long as no `int` overflows, the order that starts at `host` is
`Stride.walk` with a step to the next or to the previous index, by the parity of
`host`.
-/

namespace ModCaucho

open Stride

/-- The table is short enough that the probe arithmetic does not overflow: the
largest value of `host + i * (incr + size)` is an `int`. -/
def ProbeFits (size : ℕ) : Prop := (size - 1) + (size - 1) * (size + 1) < 2 ^ 31

instance (size : ℕ) : Decidable (ProbeFits size) := inferInstanceAs (Decidable (_ < _))

theorem ProbeFits.lt {size : ℕ} (h : ProbeFits size) : size + 1 < 2 ^ 31 := by
  unfold ProbeFits at h
  rcases Nat.lt_or_ge size 2 with hsmall | hlarge
  · omega
  · have := Nat.le_mul_of_pos_left (size + 1) (show 0 < size - 1 by omega)
    omega

section Int32

/-! ## Arithmetic that does not overflow -/

variable {a b : Int32}

theorem bmod_eq_self {x : ℤ} (h₁ : -2 ^ 31 ≤ x) (h₂ : x < 2 ^ 31) : x.bmod (2 ^ 32) = x := by
  apply Int.bmod_eq_of_le <;> omega

theorem toInt_add_of_fits (h₁ : -2 ^ 31 ≤ a.toInt + b.toInt)
    (h₂ : a.toInt + b.toInt < 2 ^ 31) : (a + b).toInt = a.toInt + b.toInt := by
  rw [Int32.toInt_add, bmod_eq_self h₁ h₂]

theorem toInt_mul_of_fits (h₁ : -2 ^ 31 ≤ a.toInt * b.toInt)
    (h₂ : a.toInt * b.toInt < 2 ^ 31) : (a * b).toInt = a.toInt * b.toInt := by
  rw [Int32.toInt_mul, bmod_eq_self h₁ h₂]

theorem toInt_ofNat_of_lt {n : ℕ} (h : n < 2 ^ 31) : (Int32.ofNat n).toInt = n :=
  Int32.toInt_ofNat_of_lt h

end Int32

/-- `host & 1` is the last bit of the representation. -/
theorem and_one_eq {host bit : Int32} (h : host.toBitVec.toNat % 2 = bit.toBitVec.toNat) :
    host &&& 1 = bit := by
  have hmod : (host &&& 1).toBitVec.toNat = host.toBitVec.toNat % 2 := by
    rw [Int32.toBitVec_and, BitVec.toNat_and]
    exact Nat.and_one_is_mod _
  exact Int32.toBitVec_inj.mp (BitVec.eq_of_toNat_eq (hmod.trans h))

/-- `2 * (host & 1) - 1` is one of the two directions. -/
theorem incr_eq (host : Int32) : 2 * (host &&& 1) - 1 = 1 ∨ 2 * (host &&& 1) - 1 = -1 := by
  rcases Nat.mod_two_eq_zero_or_one host.toBitVec.toNat with h | h
  · right
    have hzero : host &&& 1 = 0 := and_one_eq h
    rw [hzero]
    rfl
  · left
    have hone : host &&& 1 = 1 := and_one_eq h
    rw [hone]
    rfl

/-- The step of the walk: to the next index or to the previous one. -/
def probeStep (host : Int32) (size : ℕ) : ℕ :=
  if 2 * (host &&& 1) - 1 = 1 then size + 1 else size - 1

theorem coprime_probeStep (host : Int32) {size : ℕ} (hsize : 0 < size) :
    Nat.Coprime (probeStep host size) size := by
  by_cases h : 2 * (host &&& 1) - 1 = 1
  · rw [probeStep, if_pos h]
    exact coprime_succ size
  · rw [probeStep, if_neg h]
    exact coprime_pred hsize

theorem probeStep_le (host : Int32) (size : ℕ) : probeStep host size ≤ size + 1 := by
  unfold probeStep
  split <;> omega

theorem toInt_incr_add (host : Int32) {size : ℕ} (hsize : 0 < size) (hfits : ProbeFits size) :
    (2 * (host &&& 1) - 1 + Int32.ofNat size).toInt = probeStep host size := by
  have hlt := hfits.lt
  have hs := toInt_ofNat_of_lt (n := size) (by omega)
  rcases incr_eq host with h | h
  · rw [probeStep, if_pos h, h, toInt_add_of_fits] <;> rw [hs] <;>
      simp only [show (1 : Int32).toInt = 1 from rfl] <;> omega
  · have hne : ¬ 2 * (host &&& 1) - 1 = 1 := by
      rw [h]
      decide
    rw [probeStep, if_neg hne, h, toInt_add_of_fits] <;> rw [hs] <;>
      simp only [show (-1 : Int32).toInt = -1 from rfl] <;> omega

/-- One index of the probe order, without overflow. -/
theorem toInt_probe {host : Int32} {size i : ℕ} (hsize : 0 < size) (hfits : ProbeFits size)
    (hlow : 0 ≤ host.toInt) (hhigh : host.toInt < size) (hi : i < size) :
    ((host + Int32.ofNat i * (2 * (host &&& 1) - 1 + Int32.ofNat size)) %
        Int32.ofNat size).toInt =
      ((host.toInt.toNat + i * probeStep host size) % size : ℕ) := by
  have hstep := toInt_incr_add host hsize hfits
  have hle := probeStep_le host size
  have hmul : i * probeStep host size ≤ (size - 1) * (size + 1) :=
    Nat.mul_le_mul (Nat.le_sub_one_of_lt hi) hle
  have hlt := hfits.lt
  unfold ProbeFits at hfits
  have hi' := toInt_ofNat_of_lt (n := i) (by omega)
  have hsize' := toInt_ofNat_of_lt (n := size) (by omega)
  have hprod : (Int32.ofNat i * (2 * (host &&& 1) - 1 + Int32.ofNat size)).toInt =
      (i * probeStep host size : ℕ) := by
    rw [toInt_mul_of_fits] <;> rw [hi', hstep] <;> push_cast <;> omega
  have hsum : (host + Int32.ofNat i * (2 * (host &&& 1) - 1 + Int32.ofNat size)).toInt =
      (host.toInt.toNat + i * probeStep host size : ℕ) := by
    rw [toInt_add_of_fits] <;> rw [hprod] <;> omega
  rw [Int32.toInt_mod, hsum, hsize', ← Int.ofNat_tmod]

theorem probe_eq {host : Int32} {size i : ℕ} (hsize : 0 < size) (hfits : ProbeFits size)
    (hlow : 0 ≤ host.toInt) (hhigh : host.toInt < size) (hi : i < size) :
    probe host (2 * (host &&& 1) - 1) (Int32.ofNat size) i =
      (host.toInt.toNat + i * probeStep host size) % size := by
  rw [probe, toInt_probe hsize hfits hlow hhigh hi]
  rfl

/-- The probe order is a walk round the table. -/
theorem probeOrder_eq {host : Int32} {size : ℕ} (hsize : 0 < size) (hfits : ProbeFits size)
    (hlow : 0 ≤ host.toInt) (hhigh : host.toInt < size) :
    probeOrder host size = walk host.toInt.toNat (probeStep host size) size := by
  apply List.map_congr_left
  intro i hi
  exact probe_eq hsize hfits hlow hhigh (List.mem_range.mp hi)

theorem nodup_probeOrder {host : Int32} {size : ℕ} (hsize : 0 < size) (hfits : ProbeFits size)
    (hlow : 0 ≤ host.toInt) (hhigh : host.toInt < size) : (probeOrder host size).Nodup := by
  rw [probeOrder_eq hsize hfits hlow hhigh]
  exact nodup_walk _ (coprime_probeStep host hsize)

theorem mem_probeOrder_iff {host : Int32} {size k : ℕ} (hsize : 0 < size)
    (hfits : ProbeFits size) (hlow : 0 ≤ host.toInt) (hhigh : host.toInt < size) :
    k ∈ probeOrder host size ↔ k < size := by
  rw [probeOrder_eq hsize hfits hlow hhigh]
  exact mem_walk_iff _ (coprime_probeStep host hsize)

/-! ## The start index -/

theorem toInt_mod_bounds (host : Int32) {size : ℕ} (hsize : 0 < size) (hlt : size < 2 ^ 31) :
    -(size : ℤ) < (host % Int32.ofNat size).toInt ∧
      (host % Int32.ofNat size).toInt < size := by
  rw [Int32.toInt_mod, toInt_ofNat_of_lt hlt]
  have hpos : (0 : ℤ) < size := by omega
  exact ⟨Int.lt_tmod_of_pos _ hpos, Int.tmod_lt_of_pos _ hpos⟩

theorem toInt_abs_bounds {host : Int32} {size : ℕ} (hlt : size < 2 ^ 31)
    (h₁ : -(size : ℤ) < host.toInt) (h₂ : host.toInt < size) :
    0 ≤ (if host < 0 then -host else host).toInt ∧
      (if host < 0 then -host else host).toInt < size := by
  by_cases hneg : host < 0
  · have h0 : host.toInt < 0 := Int32.lt_iff_toInt_lt.mp hneg
    rw [if_pos hneg, Int32.toInt_neg, bmod_eq_self] <;> omega
  · have h0 : ¬ host.toInt < 0 := fun h => hneg (Int32.lt_iff_toInt_lt.mpr h)
    rw [if_neg hneg]
    omega

theorem sessionHost_le (config : Config) (size : ℕ) (sessionIndex : ℤ) :
    sessionHost config size sessionIndex ≤ size := by
  rw [sessionHost]
  cases h : (List.range size).find? _ with
  | none => simp
  | some host => simpa using (List.mem_range.mp (List.mem_of_find?_eq_some h)).le

/-- Every request starts inside the table. -/
theorem startHost_bounds {size : ℕ} (hsize : 0 < size) (hlt : size < 2 ^ 31)
    (sessionIndex : ℤ) (ip : List Byte) (requestTime : UInt32) (rand : Int32) (p : Child) :
    0 ≤ (startHost size sessionIndex ip requestTime rand p).1.toInt ∧
      (startHost size sessionIndex ip requestTime rand p).1.toInt < size := by
  have hdraw := toInt_mod_bounds (randomHost ip requestTime.toInt32 rand p.gCount) hsize hlt
  have hle := sessionHost_le p.config size sessionIndex
  unfold startHost
  by_cases hs : sessionIndex < 0
  · simp only [if_pos hs, drawHost]
    exact toInt_abs_bounds hlt hdraw.1 hdraw.2
  · by_cases hh : sessionHost p.config size sessionIndex = size
    · simp only [if_neg hs, if_pos hh, drawHost]
      exact toInt_abs_bounds hlt hdraw.1 hdraw.2
    · simp only [if_neg hs, if_neg hh]
      have hk := toInt_ofNat_of_lt (n := sessionHost p.config size sessionIndex) (by omega)
      apply toInt_abs_bounds hlt <;> rw [hk] <;> omega

/-- Drawing a start index touches `g_count` alone. -/
theorem startHost_snd (size : ℕ) (sessionIndex : ℤ) (ip : List Byte) (requestTime : UInt32)
    (rand : Int32) (p : Child) :
    ∃ g, (startHost size sessionIndex ip requestTime rand p).2 = { p with gCount := g } := by
  unfold startHost
  by_cases hs : sessionIndex < 0
  · simp only [if_pos hs]
    exact ⟨_, rfl⟩
  · by_cases hh : sessionHost p.config size sessionIndex = size
    · simp only [if_neg hs, if_pos hh]
      exact ⟨_, rfl⟩
    · simp only [if_neg hs, if_neg hh]
      exact ⟨p.gCount, rfl⟩

/-! ## The way round the table -/

/-- The direction is given by the parity of the start index. -/
theorem incr_of_parity {host : Int32} (h : 0 ≤ host.toInt) :
    2 * (host &&& 1) - 1 = if host.toInt.toNat % 2 = 1 then 1 else -1 := by
  have hnat : host.toBitVec.toNat = host.toInt.toNat := by
    have hint : host.toInt = host.toBitVec.toInt := rfl
    have hlt := host.toBitVec.isLt
    rw [hint, BitVec.toInt_eq_toNat_cond] at h ⊢
    split at h <;> omega
  split
  · next hodd =>
      have hone : host &&& 1 = 1 := and_one_eq (by rw [hnat, hodd]; rfl)
      rw [hone]
      rfl
  · next heven =>
      have hzero : host &&& 1 = 0 := and_one_eq (by rw [hnat, Nat.mod_two_ne_one.mp heven]; rfl)
      rw [hzero]
      rfl

/-- The next index of the table, or the previous one. -/
def neighbour (size : ℕ) (odd : Prop) [Decidable odd] (k : ℕ) : ℕ :=
  if odd then (k + 1) % size else (k + (size - 1)) % size

/-- The probe order opens at the start index and goes round the table from neighbour to
neighbour, up from an odd start and down from an even one. -/
theorem probeOrder_eq_iterate {host : Int32} {size : ℕ} (hsize : 0 < size)
    (hfits : ProbeFits size) (hlow : 0 ≤ host.toInt) (hhigh : host.toInt < size) :
    probeOrder host size =
      List.iterate (neighbour size (host.toInt.toNat % 2 = 1)) host.toInt.toNat size := by
  have hstep : (fun k => (k + probeStep host size) % size) =
      neighbour size (host.toInt.toNat % 2 = 1) := by
    funext k
    unfold probeStep neighbour
    rw [incr_of_parity hlow]
    by_cases hodd : host.toInt.toNat % 2 = 1
    · rw [if_pos hodd, if_pos hodd, if_pos rfl]
      exact congrFun step_succ k
    · rw [if_neg hodd, if_neg hodd, if_neg (by decide)]
  rw [probeOrder_eq hsize hfits hlow hhigh, walk_eq_iterate _ (by omega), hstep]

/-- The start index of every request is in the table, all indices that are probed from it
are, and they are the whole table, in order from the start in the direction of its
parity. -/
theorem startHost_probes {size : ℕ} (hsize : 1 ≤ size)
    (hfits : size * (size + 1) + size < 2 ^ 31) (sessionIndex : ℤ) (ip : List Byte)
    (requestTime : UInt32) (rand : Int32) (p : Child) :
    let host := (startHost size sessionIndex ip requestTime rand p).1
    (0 ≤ host.toInt ∧ host.toInt < size) ∧
      (∀ i < size,
        let index := (host + Int32.ofNat i * (2 * (host &&& 1) - 1 + Int32.ofNat size)) %
          Int32.ofNat size
        0 ≤ index.toInt ∧ index.toInt < size) ∧
      (probeOrder host size).Perm (List.range size) ∧
      probeOrder host size =
        List.iterate (neighbour size (host.toInt.toNat % 2 = 1)) host.toInt.toNat size := by
  intro host
  have hprobe : ProbeFits size := by
    have hmul : (size - 1) * (size + 1) ≤ size * (size + 1) :=
      Nat.mul_le_mul_right _ (Nat.sub_le _ _)
    unfold ProbeFits
    omega
  have hlt := hprobe.lt
  obtain ⟨hlow, hhigh⟩ : 0 ≤ host.toInt ∧ host.toInt < size :=
    startHost_bounds hsize (by omega) sessionIndex ip requestTime rand p
  refine ⟨⟨hlow, hhigh⟩, ?_, ?_, probeOrder_eq_iterate hsize hprobe hlow hhigh⟩
  · intro i hi
    have hindex := toInt_probe hsize hprobe hlow hhigh hi
    have hmod := Nat.mod_lt (host.toInt.toNat + i * probeStep host size) hsize
    simp only [hindex]
    omega
  · rw [probeOrder_eq hsize hprobe hlow hhigh]
    exact walk_perm_range _ (coprime_probeStep host hsize)

theorem three_lt_sizes : 3 < 2 ^ 31 := by decide

/-- A child with a table of three empty entries. -/
def blankChild : Child where
  config := ⟨List.replicate 3 Srun.zero, 3, 0, by decide, by decide, three_lt_sizes⟩
  stream := ⟨none, 0, -1, [], 0, 0, []⟩
  os := ⟨[], [], [], []⟩
  gCount := 0

/-- A request whose hash is the least integer, which has no opposite. -/
theorem startHost_probes_least :
    (startHost 3 (-1) [] 0 Int32.minValue blankChild).1 = 2 ∧
      (probeOrder (startHost 3 (-1) [] 0 Int32.minValue blankChild).1 3).Perm (List.range 3) :=
  ⟨by decide, (startHost_probes (by decide) (by decide) (-1) [] 0 Int32.minValue
    blankChild).2.2.1⟩

end ModCaucho
