import DumboDB.Index.KeyString

/-!
Integer keys: the magnitude buckets put the encodings of integers in integer order, and two
different integers always diverge inside both encodings.
-/

namespace DumboDB.Index
open Foundation ByteOrder Binary64 DumboDB.Types

theorem toNat_toUInt64 (n : Int64) : (n.toUInt64.toNat : Int) = n.toInt % 2 ^ 64 := by
  have cond := BitVec.toInt_eq_toNat_cond n.toBitVec
  have bound := n.toUInt64.toNat_lt
  change n.toInt = if 2 * n.toUInt64.toNat < 2 ^ 64 then (n.toUInt64.toNat : Int)
    else (n.toUInt64.toNat : Int) - ((2 ^ 64 : Nat) : Int) at cond
  split at cond <;> omega

theorem toInt64_range (n : Int64) : -2 ^ 63 ≤ n.toInt ∧ n.toInt < 2 ^ 63 :=
  ⟨Int64.le_toInt n, Int64.toInt_lt n⟩

theorem magnitude_toNat {n : Int64} (negative : n.toInt < 0) : (magnitude n).toNat = n.toInt.natAbs := by
  unfold magnitude
  split
  next least =>
    subst least
    decide
  next other =>
    have least : n.toInt ≠ -2 ^ 63 := fun h => other (Int64.toInt_inj.mp h)
    have range := toInt64_range n
    have flipped : (-n).toInt = -n.toInt := by
      rw [Int64.toInt_neg]
      rw [Int.bmod_eq_of_le] <;> omega
    have word := toNat_toUInt64 (-n)
    omega

theorem minBytesForUint_spec (n : UInt64) :
    1 ≤ minBytesForUint n ∧ minBytesForUint n ≤ 8 ∧ n.toNat < 256 ^ minBytesForUint n ∧
      (minBytesForUint n = 1 ∨ 256 ^ (minBytesForUint n - 1) ≤ n.toNat) := by
  have bound := n.toNat_lt
  simp only [minBytesForUint, UInt64.le_iff_toNat_le, UInt64.toNat_ofNat]
  split_ifs <;> refine ⟨by omega, by omega, by omega, ?_⟩ <;> omega

theorem minBytesForUint_mono {m n : UInt64} (le : m.toNat ≤ n.toNat) : minBytesForUint m ≤ minBytesForUint n := by
  obtain ⟨_, _, _, low⟩ := minBytesForUint_spec m
  obtain ⟨_, _, _, _⟩ := minBytesForUint_spec n
  rcases low with single | low
  · omega
  · have reach : 256 ^ (minBytesForUint m - 1) < 256 ^ minBytesForUint n := by omega
    have := (Nat.pow_lt_pow_iff_right (by decide)).mp reach
    omega

private theorem toNat_posTag {c : Nat} (width : c ≤ 8) :
    (ctypePosMedium + UInt8.ofNat (c - 1)).toNat = 43 + (c - 1) := by
  rw [UInt8.toNat_add, UInt8.toNat_ofNat']
  simp only [ctypePosMedium, UInt8.toNat_ofNat]
  omega

private theorem toNat_negTag {c : Nat} (width : c ≤ 8) :
    (ctypeNegMedium - UInt8.ofNat (c - 1)).toNat = 34 - (c - 1) := by
  rw [UInt8.toNat_sub, UInt8.toNat_ofNat']
  simp only [ctypeNegMedium, UInt8.toNat_ofNat]
  omega

theorem encodePosInt_before {m n : UInt64} (less : m.toNat < n.toNat) : Before (encodePosInt m) (encodePosInt n) := by
  obtain ⟨_, mwidth, _, _⟩ := minBytesForUint_spec m
  obtain ⟨_, nwidth, nbound, _⟩ := minBytesForUint_spec n
  have widths := minBytesForUint_mono less.le
  unfold encodePosInt
  rcases Nat.lt_or_eq_of_le widths with shorter | same
  · refine .head ?_
    rw [UInt8.lt_iff_toNat_lt, toNat_posTag mwidth, toNat_posTag nwidth]
    omega
  · simp only [same]
    exact .tail (beBytes_before _ less nbound)

theorem encodeNegInt_before {m n : Int64} (less : m.toInt < n.toInt) (negative : n.toInt < 0) :
    Before (encodeNegInt m) (encodeNegInt n) := by
  have left := magnitude_toNat (n := m) (by omega)
  have right := magnitude_toNat negative
  have larger : (magnitude n).toNat < (magnitude m).toNat := by omega
  obtain ⟨_, mwidth, mbound, _⟩ := minBytesForUint_spec (magnitude m)
  obtain ⟨_, nwidth, _, _⟩ := minBytesForUint_spec (magnitude n)
  have widths := minBytesForUint_mono larger.le
  unfold encodeNegInt
  rcases Nat.lt_or_eq_of_le widths with shorter | same
  · refine .head ?_
    rw [UInt8.lt_iff_toNat_lt, toNat_negTag mwidth, toNat_negTag nwidth]
    omega
  · simp only [same]
    exact .tail (beBytes_before _ larger mbound).complement

theorem encodePosInt_head (n : UInt64) : ∃ c rest, encodePosInt n = c :: rest ∧ 43 ≤ c.toNat ∧ c.toNat ≤ 50 := by
  obtain ⟨_, width, _, _⟩ := minBytesForUint_spec n
  refine ⟨_, _, rfl, ?_, ?_⟩ <;> rw [toNat_posTag width] <;> omega

theorem encodeNegInt_head (n : Int64) : ∃ c rest, encodeNegInt n = c :: rest ∧ 27 ≤ c.toNat ∧ c.toNat ≤ 34 := by
  obtain ⟨_, width, _, _⟩ := minBytesForUint_spec (magnitude n)
  refine ⟨_, _, rfl, ?_, ?_⟩ <;> rw [toNat_negTag width] <;> omega

end DumboDB.Index
