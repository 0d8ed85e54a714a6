import Mathlib.Data.Int.Bitwise
import TypedRecords.Value.Bits

/-!
# Two's complement

The bits of an integer are those of its two's complement, which goes on without end. Those below a place
tell the integer modulo the power of two there (`testBit_congr`). So an integer that fits a width is read
back from its bits modulo that power (`toInt?_ofInt?`), and all bits that are set, 64 of them at most, are
those of the integer that they are read as (`ofInt?_toInt?`).
-/

namespace TypedRecords.Bits

/-! ### Bits of an integer -/

theorem bitAt_eq_testBit (v : Int) (i : Nat) : bitAt v i = v.testBit i := by
  cases v with
  | ofNat m =>
    have hshift : (Int.ofNat m >>> i : Int) = ((m >>> i : Nat) : Int) := rfl
    rw [bitAt, Int.testBit, Nat.testBit_eq_decide_div_mod_eq, ← Nat.shiftRight_eq_div_pow, hshift,
      Bool.eq_iff_iff, beq_iff_eq, decide_eq_true_iff]
    omega
  | negSucc m =>
    have hshift : (Int.negSucc m >>> i : Int) = Int.negSucc (m >>> i) := rfl
    rw [bitAt, Int.testBit, Nat.testBit_eq_decide_div_mod_eq, ← Nat.shiftRight_eq_div_pow, hshift,
      Bool.eq_iff_iff, beq_iff_eq, Bool.not_eq_true', decide_eq_false_iff_not]
    omega

theorem testBit_eq_decide (v : Int) (i : Nat) : v.testBit i = decide (v / 2 ^ i % 2 = 1) := by
  rw [← bitAt_eq_testBit, bitAt, Int.shiftRight_eq_div_pow]
  push_cast
  rfl

/-- Integers that agree modulo `2 ^ n` have the same bits below `n`. -/
theorem testBit_congr {v w : Int} {n i : Nat} (hi : i < n) (h : v % 2 ^ n = w % 2 ^ n) :
    v.testBit i = w.testBit i := by
  obtain ⟨c, hc⟩ := Int.dvd_of_emod_eq_zero (Int.emod_eq_emod_iff_emod_sub_eq_zero.1 h)
  obtain ⟨k, rfl⟩ := Nat.exists_eq_add_of_lt hi
  have hpow : (2 : Int) ^ (i + k + 1) = 2 ^ i * (2 * 2 ^ k) := by
    rw [Nat.add_assoc, Int.pow_add, Int.pow_succ']
  have hv : v = w + 2 ^ i * (2 * (2 ^ k * c)) := by
    rw [← Int.mul_assoc 2, ← Int.mul_assoc, ← hpow, ← hc]
    omega
  have hpos : (2 : Int) ^ i ≠ 0 := Int.ne_of_gt (Int.pow_pos (by decide))
  rw [testBit_eq_decide, testBit_eq_decide, hv, Int.add_mul_ediv_left _ _ hpos,
    Int.add_mul_emod_self_left]

/-- From bit 63 on a 64-bit integer has its sign in every place. -/
theorem testBit_eq_sign (v : Int64) {i : Nat} (hi : 63 ≤ i) :
    v.toInt.testBit i = decide (v.toInt < 0) := by
  have hpow : 2 ^ 63 ≤ 2 ^ i := Nat.pow_le_pow_right (by decide) hi
  have hmin := v.le_toInt
  have hmax := v.toInt_lt
  cases hv : v.toInt with
  | ofNat m =>
    have hm : m < 2 ^ i := by rw [hv, Int.ofNat_eq_natCast] at hmax; omega
    rw [Int.testBit, Nat.testBit_lt_two_pow hm]
    exact (decide_eq_false (Int.not_lt.2 (Int.natCast_nonneg m))).symm
  | negSucc m =>
    have hm : m < 2 ^ i := by rw [hv, Int.negSucc_eq] at hmin; omega
    rw [Int.testBit, Nat.testBit_lt_two_pow hm]
    exact (decide_eq_true (Int.negSucc_lt_zero m)).symm

theorem fits_iff {v : Int} {width : Nat} : fits v width = true ↔
    64 ≤ width ∨ width = 0 ∧ v = 0 ∨ 0 < width ∧ -2 ^ (width - 1) ≤ v ∧ v < 2 ^ width := by
  cases width with
  | zero =>
    simp [fits]
    omega
  | succ k =>
    have hpow : (2 : Int) ^ (k + 1) = 2 * 2 ^ k := Int.pow_succ' 2 k
    have hpos : (0 : Int) < 2 ^ k := Int.pow_pos (by decide)
    simp [fits, hpow]
    omega

/-! ### Magnitudes -/

theorem magnitude?_eq_none {l : List (Option Bool)} : magnitude? l = none ↔ none ∈ l := by
  induction l with
  | nil => simp [magnitude?]
  | cons b l ih => cases b <;> simp [magnitude?, ih]

/-- The lowest bits of a number, least significant first, all of them set. -/
def low (m n : Nat) : List (Option Bool) := (List.range n).map fun i => some (m.testBit i)

theorem low_succ (m n : Nat) : low m (n + 1) = some (m.testBit 0) :: low (m / 2) n := by
  have hhalf : (fun i => some (m.testBit i)) ∘ Nat.succ = fun i => some ((m / 2).testBit i) :=
    funext fun i => congrArg some (Nat.testBit_succ m i)
  rw [low, List.range_succ_eq_map, List.map_cons, List.map_map, hhalf]
  rfl

theorem magnitude?_low (m n : Nat) : magnitude? (low m n) = some (m % 2 ^ n) := by
  induction n generalizing m with
  | zero => rw [Nat.pow_zero, Nat.mod_one]; rfl
  | succ n ih =>
    rw [low_succ, magnitude?, ih, Option.map_some, Nat.testBit_zero, Nat.pow_succ', Nat.mod_mul]
    rcases Nat.mod_two_eq_zero_or_one m with h | h <;> simp [h]

theorem eq_low_of_magnitude? {l : List (Option Bool)} {m : Nat} (h : magnitude? l = some m) :
    m < 2 ^ l.length ∧ l = low m l.length := by
  induction l generalizing m with
  | nil =>
    obtain rfl := Option.some.inj h
    exact ⟨Nat.one_pos, rfl⟩
  | cons b l ih =>
    cases b with
    | none => cases h
    | some b =>
      obtain ⟨k, hk, rfl⟩ := Option.map_eq_some_iff.1 h
      obtain ⟨hlt, hl⟩ := ih hk
      have hhalf : (b.toNat + 2 * k) / 2 = k := by have := b.toNat_lt; omega
      have hodd : (b.toNat + 2 * k).testBit 0 = b := by cases b <;> simp
      rw [List.length_cons, low_succ, hhalf, hodd, ← hl, Nat.pow_succ]
      exact ⟨by have := b.toNat_lt; omega, rfl⟩

/-! ### There and back -/

/-- The bits that an integer is written in are the lowest ones of its residue. -/
theorem ofInt?_eq_some {number : Int64} {width : Nat} {l : List (Option Bool)} :
    ofInt? number width = some l ↔
      fits number.toInt width = true ∧ l = low (number.toInt % 2 ^ width).toNat width := by
  have hlow : (List.range width).map (fun i => some (bitAt number.toInt i)) =
      low (number.toInt % 2 ^ width).toNat width := by
    refine List.map_congr_left fun i hi => congrArg some ?_
    have hcast : ((number.toInt % 2 ^ width).toNat : Int) = number.toInt % 2 ^ width :=
      Int.toNat_of_nonneg (Int.emod_nonneg _ (Int.ne_of_gt (Int.pow_pos (by decide))))
    rw [bitAt_eq_testBit, testBit_congr (List.mem_range.1 hi) (Int.emod_emod _ _).symm, ← hcast]
    rfl
  unfold ofInt?
  rw [hlow]
  split
  · rename_i hfits
    exact ⟨fun h => ⟨hfits, (Option.some.inj h).symm⟩, fun h => congrArg some h.2.symm⟩
  · rename_i hfits
    exact ⟨nofun, fun h => absurd h.1 hfits⟩

theorem getElem?_ofInt? {number : Int64} {width : Nat} {l : List (Option Bool)}
    (h : ofInt? number width = some l) :
    l.length = width ∧ ∀ i < width, l[i]? = some (some (number.toInt.testBit i)) := by
  unfold ofInt? at h
  split at h
  · obtain rfl := Option.some.inj h
    refine ⟨by simp, fun i hi => ?_⟩
    rw [List.getElem?_map, List.getElem?_range hi, Option.map_some, bitAt_eq_testBit]
  · cases h

/-- The residue that a width leaves of an integer, as a number. -/
theorem residue_toNat (v : Int) (n : Nat) :
    ((v % 2 ^ n).toNat : Int) = v % 2 ^ n ∧ (v % 2 ^ n).toNat < 2 ^ n := by
  have hpos : (0 : Int) < 2 ^ n := Int.pow_pos (by decide)
  have hcast := Int.toNat_of_nonneg (Int.emod_nonneg v (Int.ne_of_gt hpos))
  have hlt := Int.emod_lt_of_pos v hpos
  rw [← hcast] at hlt
  exact ⟨hcast, by exact_mod_cast hlt⟩

theorem toInt?_eq {l : List (Option Bool)} (hlength : l.length ≤ 64) :
    toInt? l = (magnitude? l).map fun m : Nat => Int64.ofInt m := by
  rw [toInt?, if_pos hlength]
  cases magnitude? l <;> rfl

theorem toInt?_ofInt? {number : Int64} {width : Nat} {l : List (Option Bool)} (hwidth : width ≤ 64)
    (h : ofInt? number width = some l) :
    toInt? l = some (Int64.ofInt (number.toInt % 2 ^ width)) := by
  obtain ⟨-, rfl⟩ := ofInt?_eq_some.1 h
  obtain ⟨hcast, hlt⟩ := residue_toNat number.toInt width
  rw [toInt?_eq (by simpa [low] using hwidth), magnitude?_low, Nat.mod_eq_of_lt hlt, Option.map_some,
    hcast]

/-- A number below a power of two, wrapped into 64 bits, still fits that many and leaves its residue. -/
theorem fits_ofInt {m n : Nat} (hn : n ≤ 64) (hlt : m < 2 ^ n) :
    fits (Int64.ofInt m).toInt n = true ∧ (Int64.ofInt m).toInt % 2 ^ n = m := by
  have hlt' : (m : Int) < 2 ^ n := by exact_mod_cast hlt
  rcases Nat.lt_or_eq_of_le hn with hn | rfl
  · have hle : 2 ^ n ≤ 2 ^ 63 := Nat.pow_le_pow_right (by decide) (Nat.le_of_lt_succ hn)
    have hvalue : (Int64.ofInt m).toInt = m := Int64.toInt_ofInt_of_le (by omega) (by omega)
    rw [hvalue]
    refine ⟨?_, Int.emod_eq_of_lt (Int.natCast_nonneg m) hlt'⟩
    simp [fits, hlt']
  · refine ⟨rfl, ?_⟩
    have hwrap : (Int.bmod m (2 ^ 64)) % ((2 ^ 64 : Nat) : Int) = m % ((2 ^ 64 : Nat) : Int) :=
      Int.bmod_emod
    rw [Int64.toInt_ofInt]
    exact hwrap.trans (Int.emod_eq_of_lt (Int.natCast_nonneg m) hlt')

theorem ofInt?_toInt? {l : List (Option Bool)} {number : Int64} (hlength : l.length ≤ 64)
    (h : toInt? l = some number) : ofInt? number l.length = some l := by
  rw [toInt?_eq hlength] at h
  obtain ⟨m, hm, rfl⟩ := Option.map_eq_some_iff.1 h
  obtain ⟨hlt, hl⟩ := eq_low_of_magnitude? hm
  obtain ⟨hfits, hresidue⟩ := fits_ofInt hlength hlt
  exact ofInt?_eq_some.2 ⟨hfits, by rw [hresidue, Int.toNat_natCast, ← hl]⟩

end TypedRecords.Bits
