import TypedRecords.Proofs.Value.Bits
import TypedRecords.Value.Convert

/-!
# Integers and bit vectors in 64-bit arithmetic

`Word.ofInt` and `Word.toInt` do the two conversions in shifts, negations and casts of 64-bit words, each
of which refuses the operands that overflow it. No operand they give it ever does: both always answer, and
what `Bits.ofInt?` and `Bits.toInt?` answer (`ofInt_eq`, `toInt_eq`).
-/

namespace TypedRecords.Word

/-! ### Checked operations -/

inductive Overflow where
  /-- A shift by as many places as the word has, or more. -/
  | shift
  /-- The negation of the least integer. -/
  | negation
  /-- A negative integer taken as an unsigned one. -/
  | cast
  deriving Repr, DecidableEq

abbrev Checked := Except Overflow

/-- The result of a shift by `places`. -/
def shifted {α : Type} (places : Nat) (result : α) : Checked α :=
  if places < 64 then .ok result else .error .shift

def shiftLeft (x : Int64) (places : Nat) : Checked Int64 := shifted places (x <<< Int64.ofNat places)

def shiftRight (x : Int64) (places : Nat) : Checked Int64 := shifted places (x >>> Int64.ofNat places)

def shiftLeftUnsigned (x : UInt64) (places : Nat) : Checked UInt64 :=
  shifted places (x <<< UInt64.ofNat places)

def negate (x : Int64) : Checked Int64 :=
  if x = Int64.minValue then .error .negation else .ok (-x)

def unsigned (x : Int64) : Checked UInt64 :=
  if x < 0 then .error .cast else .ok x.toUInt64

/-! ### The conversions -/

def fitsUnsigned (number : Int64) (width : Nat) : Checked Bool := do
  if 0 ≤ number then
    let value ← unsigned number
    let bound ← shiftLeftUnsigned 1 width
    return value < bound
  else return false

def fitsSigned (number : Int64) : Nat → Checked Bool
  | 0 => return false
  | below + 1 => do
    let least ← negate (← shiftLeft 1 below)
    if least ≤ number then
      let bound ← shiftLeft 1 below
      return number < bound
    else return false

/-- The bit of a place, which is the sign where the word has no such place. -/
def bit (number : Int64) (place : Nat) : Checked (Option Bool) := do
  if place < 64 then
    let moved ← shiftRight number place
    return some (moved &&& 1 == 1)
  else return some (number < 0)

def ofInt (number : Int64) (width : Nat) : Checked (Option (List (Option Bool))) := do
  if width < 64 then
    let asUnsigned ← fitsUnsigned number width
    let asSigned ← fitsSigned number width
    if !asUnsigned && !asSigned then return none
  let bits ← (List.range width).mapM (bit number)
  return some bits

/-- Sets the bits from `place` on in `acc`, up to the first that is unset. -/
def accumulate (acc : Int64) (place : Nat) : List (Option Bool) → Checked (Option Int64)
  | [] => return some acc
  | none :: _ => return none
  | some false :: bits => accumulate acc (place + 1) bits
  | some true :: bits => do
    let weight ← shiftLeft 1 place
    accumulate (acc ||| weight) (place + 1) bits

def toInt (bits : List (Option Bool)) : Checked (Option Int64) :=
  if 64 < bits.length then return none else accumulate 0 0 bits

/-! ### From an integer -/

variable {number : Int64} {width place : Nat}

theorem shifted_eq {α : Type} {result : α} (h : place < 64) : shifted place result = .ok result :=
  if_pos h

theorem ok_bind {α β : Type} (a : α) (f : α → Checked β) : (Except.ok a >>= f) = f a := rfl

/-! Powers of two and shift amounts, at every place of a word. -/

theorem toNat_one_shiftLeft : ∀ k < 64, ((1 : UInt64) <<< UInt64.ofNat k).toNat = 2 ^ k := by
  decide +kernel

theorem toInt_one_shiftLeft : ∀ k < 63, ((1 : Int64) <<< Int64.ofNat k).toInt = 2 ^ k := by
  decide +kernel

theorem toBitVec_one_shiftLeft :
    ∀ k < 64, ((1 : Int64) <<< Int64.ofNat k).toBitVec = BitVec.twoPow 64 k := by
  decide +kernel

theorem toNat_smod : ∀ k < 64, ((Int64.ofNat k).toBitVec.smod 64).toNat = k := by
  decide +kernel

/-! The bounds of a width. -/

theorem nonneg_iff : (0 : Int64) ≤ number ↔ 0 ≤ number.toInt := Int64.le_iff_toInt_le

theorem toNat_toUInt64 (h : 0 ≤ number.toInt) : (number.toUInt64.toNat : Int) = number.toInt := by
  have hcond := BitVec.toInt_eq_toNat_cond number.toBitVec
  rw [Int64.toInt_toBitVec, Int64.toNat_toBitVec] at hcond
  split at hcond
  · exact hcond.symm
  · have := number.toUInt64.toNat_lt
    omega

theorem unsigned_eq (h : 0 ≤ number.toInt) : unsigned number = .ok number.toUInt64 :=
  if_neg (Int64.not_lt.2 (nonneg_iff.2 h))

theorem fitsUnsigned_eq (hwidth : width < 64) :
    fitsUnsigned number width = .ok (decide (0 ≤ number.toInt ∧ number.toInt < 2 ^ width)) := by
  by_cases h : 0 ≤ number.toInt
  · have hlt : number.toUInt64 < 1 <<< UInt64.ofNat width ↔ number.toInt < 2 ^ width := by
      rw [UInt64.lt_iff_toNat_lt, toNat_one_shiftLeft width hwidth, ← toNat_toUInt64 h]
      exact_mod_cast Iff.rfl
    rw [fitsUnsigned, if_pos (nonneg_iff.2 h), unsigned_eq h, shiftLeftUnsigned, shifted_eq hwidth]
    exact congrArg Except.ok (decide_eq_decide.2 (hlt.trans (and_iff_right h).symm))
  · rw [fitsUnsigned, if_neg fun hn => h (nonneg_iff.1 hn)]
    exact congrArg Except.ok (decide_eq_false fun hn => h hn.1).symm

theorem negate_eq {k : Nat} (hk : k < 63) :
    ∃ least : Int64, negate ((1 : Int64) <<< Int64.ofNat k) = .ok least ∧ least.toInt = -2 ^ k := by
  have hvalue := toInt_one_shiftLeft k hk
  have hpos : (0 : Int) < 2 ^ k := Int.pow_pos (by decide)
  have hlt : (2 : Int) ^ k < 2 ^ 63 := Int.pow_lt_pow_of_lt (by decide) hk
  refine ⟨_, if_neg fun h => ?_, ?_⟩
  · have hmin : ((1 : Int64) <<< Int64.ofNat k).toInt = -2 ^ 63 := congrArg Int64.toInt h
    omega
  · rw [Int64.toInt_neg, hvalue]
    exact Int.bmod_eq_of_le (by omega) (by omega)

theorem fitsSigned_eq (hwidth : width < 64) : fitsSigned number width =
    .ok (decide (0 < width ∧ -2 ^ (width - 1) ≤ number.toInt ∧ number.toInt < 2 ^ (width - 1))) := by
  cases width with
  | zero => rfl
  | succ k =>
    have hk : k < 63 := Nat.lt_of_succ_lt_succ hwidth
    obtain ⟨least, hleast, hvalue⟩ := negate_eq hk
    have hlt : number < 1 <<< Int64.ofNat k ↔ number.toInt < 2 ^ k := by
      rw [Int64.lt_iff_toInt_lt, toInt_one_shiftLeft k hk]
    have hle : least ≤ number ↔ -2 ^ k ≤ number.toInt := by rw [Int64.le_iff_toInt_le, hvalue]
    have hshift : shiftLeft 1 k = .ok (1 <<< Int64.ofNat k) := shifted_eq (by omega)
    rw [fitsSigned, hshift, ok_bind, hleast, ok_bind, ok_bind]
    by_cases h : least ≤ number
    · rw [if_pos h]
      exact congrArg Except.ok (decide_eq_decide.2 (by simp [hlt, hle.1 h]))
    · rw [if_neg h]
      exact congrArg Except.ok (decide_eq_false fun hn => h (hle.2 hn.2.1)).symm

/-- The bits of the word are the lowest 64 of the integer. -/
theorem getLsbD_eq_testBit (hplace : place < 64) :
    number.toBitVec.getLsbD place = number.toInt.testBit place := by
  have hmod : number.toInt % 2 ^ 64 = (number.toBitVec.toNat : Int) % 2 ^ 64 := by
    rw [← Int64.toInt_toBitVec, BitVec.toInt_eq_toNat_bmod]
    exact Int.bmod_emod
  rw [Bits.testBit_congr hplace hmod, BitVec.getLsbD]
  rfl

theorem and_one_beq_one (x : Int64) : (x &&& 1 == 1) = x.toBitVec.getLsbD 0 := by
  have hone : (x &&& 1).toBitVec = x.toBitVec &&& 1#64 := rfl
  rw [Bool.eq_iff_iff, beq_iff_eq, ← Int64.toBitVec_inj, hone, BitVec.and_one_eq_setWidth_ofBool_getLsbD]
  cases x.toBitVec.getLsbD 0 <;> decide

theorem bit_eq : bit number place = .ok (some (Bits.bitAt number.toInt place)) := by
  rw [Bits.bitAt_eq_testBit, bit]
  split
  · rename_i hplace
    have hmoved : (number >>> Int64.ofNat place).toBitVec.getLsbD 0 = number.toInt.testBit place := by
      rw [Int64.toBitVec_shiftRight, BitVec.sshiftRight', toNat_smod place hplace,
        BitVec.getLsbD_sshiftRight, if_pos (by omega), Nat.add_zero, getLsbD_eq_testBit hplace]
      rfl
    rw [shiftRight, shifted_eq hplace, ← hmoved, ← and_one_beq_one]
    rfl
  · rename_i hplace
    have hsign : decide (number < 0) = decide (number.toInt < 0) :=
      decide_eq_decide.2 Int64.lt_iff_toInt_lt
    rw [Bits.testBit_eq_sign number (by omega), ← hsign]
    rfl

theorem fits_eq (hwidth : width < 64) : Bits.fits number.toInt width =
    (decide (0 ≤ number.toInt ∧ number.toInt < 2 ^ width) ||
      decide (0 < width ∧ -2 ^ (width - 1) ≤ number.toInt ∧ number.toInt < 2 ^ (width - 1))) := by
  simp [Bits.fits, Nat.not_le.2 hwidth, Bool.and_assoc]

theorem ofInt_eq : ofInt number width = .ok (Bits.ofInt? number width) := by
  have hbits : (List.range width).mapM (bit number) =
      .ok ((List.range width).map fun i => some (Bits.bitAt number.toInt i)) := by
    have hbit : bit number = fun i => pure (some (Bits.bitAt number.toInt i)) := funext fun _ => bit_eq
    rw [hbit]
    exact List.mapM_pure
  rw [ofInt, hbits, Bits.ofInt?]
  by_cases hwidth : width < 64
  · rw [if_pos hwidth, fitsUnsigned_eq hwidth, fitsSigned_eq hwidth, fits_eq hwidth, ok_bind, ok_bind]
    cases decide (0 ≤ number.toInt ∧ number.toInt < 2 ^ width) <;>
      cases decide (0 < width ∧ -2 ^ (width - 1) ≤ number.toInt ∧ number.toInt < 2 ^ (width - 1)) <;> rfl
  · rw [if_neg hwidth, if_pos (by simp [Bits.fits, Nat.not_lt.1 hwidth])]
    rfl

/-! ### To an integer -/

theorem or_weight {k : Nat} (hk : k < 2 ^ place) (hplace : place < 64) :
    Int64.ofInt k ||| (1 : Int64) <<< Int64.ofNat place = Int64.ofInt (k + 2 ^ place : Nat) := by
  have hle : 2 ^ (place + 1) ≤ 2 ^ 64 := Nat.pow_le_pow_right (by decide) hplace
  have hor : k ||| 2 ^ place = k + 2 ^ place := by
    rw [Nat.or_comm, Nat.add_comm]
    simpa using (Nat.two_pow_add_eq_or_of_lt hk 1).symm
  rw [Nat.pow_succ] at hle
  refine Int64.toBitVec_inj.1 (BitVec.eq_of_toNat_eq ?_)
  rw [Int64.toBitVec_or, toBitVec_one_shiftLeft place hplace, BitVec.toNat_or, Int64.toBitVec_ofInt,
    Int64.toBitVec_ofInt, BitVec.ofInt_natCast, BitVec.ofInt_natCast, BitVec.toNat_ofNat,
    BitVec.toNat_ofNat, BitVec.toNat_twoPow_of_lt hplace, Nat.mod_eq_of_lt (by omega),
    Nat.mod_eq_of_lt (by omega), hor]

theorem map_magnitude?_cons (k : Nat) (b : Bool) (bits : List (Option Bool)) :
    ((Bits.magnitude? (some b :: bits)).map fun m : Nat => Int64.ofInt (k + 2 ^ place * m : Nat)) =
      (Bits.magnitude? bits).map fun m : Nat =>
        Int64.ofInt (k + 2 ^ place * b.toNat + 2 ^ (place + 1) * m : Nat) := by
  have hsum : ∀ m, k + 2 ^ place * (b.toNat + 2 * m) = k + 2 ^ place * b.toNat + 2 ^ (place + 1) * m := by
    intro m
    rw [Nat.mul_add, Nat.pow_succ, Nat.mul_assoc, Nat.add_assoc]
  simp only [Bits.magnitude?, Option.map_map, Function.comp_def, hsum]

/-- By induction on the bits: `acc` holds the number `k` that the bits before `place` write. -/
theorem accumulate_eq {k : Nat} (hk : k < 2 ^ place) {bits : List (Option Bool)}
    (hlength : place + bits.length ≤ 64) : accumulate (Int64.ofInt k) place bits =
      .ok ((Bits.magnitude? bits).map fun m : Nat => Int64.ofInt (k + 2 ^ place * m : Nat)) := by
  induction bits generalizing place k with
  | nil => rfl
  | cons b bits ih =>
    rw [List.length_cons] at hlength
    have hpow : 2 ^ (place + 1) = 2 ^ place + 2 ^ place := by rw [Nat.pow_succ, Nat.mul_two]
    have hplace : place < 64 := by omega
    match b with
    | none => rfl
    | some false =>
      rw [accumulate, ih (by omega) (by omega), map_magnitude?_cons, Bool.toNat_false, Nat.mul_zero]
      rfl
    | some true =>
      have hshift : shiftLeft 1 place = .ok (1 <<< Int64.ofNat place) := shifted_eq hplace
      rw [accumulate, hshift, ok_bind, or_weight hk hplace, ih (by omega) (by omega),
        map_magnitude?_cons, Bool.toNat_true, Nat.mul_one]

theorem toInt_eq {bits : List (Option Bool)} : toInt bits = .ok (Bits.toInt? bits) := by
  by_cases hlength : bits.length ≤ 64
  · have hacc : accumulate 0 0 bits = _ := accumulate_eq Nat.one_pos (by omega)
    rw [toInt, if_neg (Nat.not_lt.2 hlength), Bits.toInt?_eq hlength, hacc]
    simp
  · rw [toInt, if_pos (Nat.lt_of_not_le hlength), Bits.toInt?, if_neg hlength]
    rfl

end TypedRecords.Word

namespace TypedRecords.Value

variable {store : Store}

theorem convert_int_bits {v : Int64} {n : Nat} {w : Value} :
    (int v).convert store (.bits n) = some w ↔ ∃ l, Bits.ofInt? v n = some l ∧ bits l = w := by
  rw [convert, Option.map_eq_some_iff]

theorem convert_bits_int {l : List (Option Bool)} :
    (bits l).convert store .int = (Bits.toInt? l).map int := by rw [convert]

/-- What fewer than 64 bits are read as is the one number below their power of two that agrees with the
integer modulo it. -/
theorem eq_residue_iff {v : Int64} {n : Nat} (hn : n < 64) (x : Int) :
    (0 ≤ x ∧ x < 2 ^ n ∧ x % 2 ^ n = v.toInt % 2 ^ n) ↔ x = (Int64.ofInt (v.toInt % 2 ^ n)).toInt := by
  have hpos : (0 : Int) < 2 ^ n := Int.pow_pos (by decide)
  have hle : (2 : Int) ^ n ≤ 2 ^ 63 := by
    exact_mod_cast Nat.pow_le_pow_right (show 0 < 2 by decide) (Nat.le_of_lt_succ hn)
  have hnonneg := Int.emod_nonneg v.toInt (Int.ne_of_gt hpos)
  have hlt := Int.emod_lt_of_pos v.toInt hpos
  rw [Int64.toInt_ofInt_of_le (by omega) (by omega)]
  constructor
  · rintro ⟨hx, hxlt, hmod⟩
    rw [← hmod, Int.emod_eq_of_lt hx hxlt]
  · rintro rfl
    exact ⟨hnonneg, hlt, Int.emod_emod _ _⟩

theorem ofInt_emod_size (v : Int64) : Int64.ofInt (v.toInt % 2 ^ 64) = v := by
  have hwrap : Int.bmod (v.toInt % ((2 ^ 64 : Nat) : Int)) (2 ^ 64) = Int.bmod v.toInt (2 ^ 64) :=
    Int.emod_bmod ..
  have hmin := v.le_toInt
  have hmax := v.toInt_lt
  refine Int64.toInt_inj.1 ?_
  rw [Int64.toInt_ofInt]
  exact hwrap.trans (Int.bmod_eq_of_le (by omega) (by omega))

theorem exists_convert_int_bits {v : Int64} {n : Nat} :
    (∃ w, (int v).convert store (.bits n) = some w) ↔ Bits.fits v.toInt n = true := by
  constructor
  · rintro ⟨w, hw⟩
    obtain ⟨l, hl, -⟩ := convert_int_bits.1 hw
    exact (Bits.ofInt?_eq_some.1 hl).1
  · intro hfits
    exact ⟨_, convert_int_bits.2 ⟨_, Bits.ofInt?_eq_some.2 ⟨hfits, rfl⟩, rfl⟩⟩

theorem convert_back {v : Int64} {n : Nat} {l : List (Option Bool)} (hl : Bits.ofInt? v n = some l) :
    (bits l).convert store .int =
      if n ≤ 64 then some (int (Int64.ofInt (v.toInt % 2 ^ n))) else none := by
  rw [convert_bits_int]
  split
  · rename_i hn
    rw [Bits.toInt?_ofInt? hn hl, Option.map_some]
  · rename_i hn
    rw [Bits.toInt?, (Bits.getElem?_ofInt? hl).1, if_neg hn]
    rfl

theorem convert_there {l : List (Option Bool)} (hlength : l.length ≤ 64) (hset : none ∉ l) :
    ∃ v, (bits l).convert store .int = some (int v) ∧
      (int v).convert store (.bits l.length) = some (bits l) := by
  cases hm : Bits.magnitude? l with
  | none => exact absurd (Bits.magnitude?_eq_none.1 hm) hset
  | some m =>
    have hv : Bits.toInt? l = some (Int64.ofInt m) := by
      rw [Bits.toInt?_eq hlength, hm, Option.map_some]
    exact ⟨Int64.ofInt m, by rw [convert_bits_int, hv, Option.map_some],
      convert_int_bits.2 ⟨l, Bits.ofInt?_toInt? hlength hv, rfl⟩⟩

theorem convert_bits_int_of_unset {l : List (Option Bool)} (hunset : none ∈ l) :
    (bits l).convert store .int = none := by
  rw [convert_bits_int, Bits.toInt?, Bits.magnitude?_eq_none.2 hunset]
  split <;> rfl

/-- An integer converts to the vectors whose width holds it as a signed or as an unsigned number, into
the bits of its two's complement, and up to 64 of them convert back to it modulo their power of two. All
other vectors of at most 64 set bits convert there and back too, a vector with an unset bit never, and
in 64-bit arithmetic none of this overflows. -/
theorem convert_twosComplement (store : Store) :
    (∀ (v : Int64) (n : Nat),
      ((∃ w, (int v).convert store (.bits n) = some w) ↔
        64 ≤ n ∨ n = 0 ∧ v.toInt = 0 ∨ 0 < n ∧ -2 ^ (n - 1) ≤ v.toInt ∧ v.toInt < 2 ^ n) ∧
      ∀ w, (int v).convert store (.bits n) = some w →
        (∃ l, w = bits l ∧ l.length = n ∧
          ∀ i < n, l[i]? = some (some (v.toInt.testBit i)) ∧
            (63 ≤ i → v.toInt.testBit i = decide (v.toInt < 0))) ∧
        (n < 64 → ∃ u : Int64, w.convert store .int = some (int u) ∧
          ∀ x : Int, (0 ≤ x ∧ x < 2 ^ n ∧ x % 2 ^ n = v.toInt % 2 ^ n) ↔ x = u.toInt) ∧
        (n = 64 → w.convert store .int = some (int v)) ∧
        (64 < n → w.convert store .int = none)) ∧
    (∀ l : List (Option Bool),
      (l.length ≤ 64 → none ∉ l → ∃ v, (bits l).convert store .int = some (int v) ∧
        (int v).convert store (.bits l.length) = some (bits l)) ∧
      (none ∈ l → (bits l).convert store .int = none)) ∧
    (∀ (v : Int64) (n : Nat), Word.ofInt v n = .ok (Bits.ofInt? v n)) ∧
    ∀ l : List (Option Bool), Word.toInt l = .ok (Bits.toInt? l) := by
  refine ⟨fun v n => ⟨exists_convert_int_bits.trans Bits.fits_iff, fun w hw => ?_⟩,
    fun l => ⟨convert_there, convert_bits_int_of_unset⟩, fun v n => Word.ofInt_eq, fun l => Word.toInt_eq⟩
  obtain ⟨l, hl, rfl⟩ := convert_int_bits.1 hw
  obtain ⟨hlength, hbits⟩ := Bits.getElem?_ofInt? hl
  rw [convert_back hl]
  refine ⟨⟨l, rfl, hlength, fun i hi => ⟨hbits i hi, Bits.testBit_eq_sign v⟩⟩, fun hn => ?_, fun hn => ?_,
    fun hn => if_neg (Nat.not_le.2 hn)⟩
  · exact ⟨_, if_pos (Nat.le_of_lt hn), eq_residue_iff hn⟩
  · rw [if_pos (Nat.le_of_eq hn), hn, ofInt_emod_size]

theorem minusOne_twosComplement :
    (∃ u : Int64, (bits [some true, some true, some true]).convert (fun _ => none) .int = some (int u) ∧
      ∀ x : Int, (0 ≤ x ∧ x < 2 ^ 3 ∧ x % 2 ^ 3 = (-1 : Int64).toInt % 2 ^ 3) ↔ x = u.toInt) ∧
    (bits (List.replicate 64 (some true))).convert (fun _ => none) .int = some (int (-1)) ∧
    (∃ v, (bits [some false, some true]).convert (fun _ => none) .int = some (int v) ∧
      (int v).convert (fun _ => none) (.bits 2) = some (bits [some false, some true])) ∧
    (bits [some true, none]).convert (fun _ => none) .int = none := by
  obtain ⟨hint, hvector, -⟩ := convert_twosComplement fun _ => none
  have hthree : (int (-1)).convert (fun _ => none) (.bits 3) =
      some (bits [some true, some true, some true]) := rfl
  have hfull : (int (-1)).convert (fun _ => none) (.bits 64) =
      some (bits (List.replicate 64 (some true))) := rfl
  exact ⟨((hint (-1) 3).2 _ hthree).2.1 (by decide), ((hint (-1) 64).2 _ hfull).2.2.1 rfl,
    (hvector [some false, some true]).1 (by decide) (by decide),
    (hvector [some true, none]).2 (by decide)⟩

end TypedRecords.Value
