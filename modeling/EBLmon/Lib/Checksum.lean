import Mathlib.Data.List.Basic

/-!
# Additive checksums over bytes

`byteSum` is the exact sum of a byte list.  A two-byte trailer, high byte
first, can hold it below `65536` only, so a sender has to write the sum modulo
`65536`.  The receiver has two ways to compare: against the exact sum, or
against the sum modulo `65536`.

`byteSum_set` is the effect of one replaced byte.  From it come the two
detection theorems: neither comparison lets a single replaced byte pass, in
the summed part (`byteSum_set_ne`) or in the trailer (`ne_of_ne_mod`).
-/

namespace EBLmon.Checksum

/-- The exact sum of the bytes. -/
def byteSum : List UInt8 → Nat
  | [] => 0
  | b :: bs => b.toNat + byteSum bs

@[simp] theorem byteSum_nil : byteSum [] = 0 := rfl

@[simp] theorem byteSum_cons (b : UInt8) (bs : List UInt8) :
    byteSum (b :: bs) = b.toNat + byteSum bs := rfl

@[simp] theorem byteSum_append (as bs : List UInt8) :
    byteSum (as ++ bs) = byteSum as + byteSum bs := by
  induction as with
  | nil => rw [List.nil_append, byteSum_nil, Nat.zero_add]
  | cons a as ih =>
    rw [List.cons_append, byteSum_cons, byteSum_cons, ih, Nat.add_assoc]

/-- A sum of bytes is at most 255 for each byte. -/
theorem byteSum_le (bs : List UInt8) : byteSum bs ≤ 255 * bs.length := by
  induction bs with
  | nil => exact Nat.le_refl 0
  | cons b bs ih =>
    have hb := UInt8.toNat_lt b
    rw [byteSum_cons, List.length_cons]
    omega

/-- One replaced byte moves the sum by the difference of the two bytes. -/
theorem byteSum_set {bs : List UInt8} {i : Nat} (hi : i < bs.length)
    (v : UInt8) :
    byteSum (bs.set i v) + (bs[i]).toNat = byteSum bs + v.toNat := by
  induction bs generalizing i with
  | nil => exact absurd hi (Nat.not_lt_zero i)
  | cons b bs ih =>
    cases i with
    | zero =>
      simp only [List.set_cons_zero, byteSum_cons, List.getElem_cons_zero]
      omega
    | succ i =>
      have hi' : i < bs.length := by simpa using hi
      have h := ih hi'
      simp only [List.set_cons_succ, byteSum_cons, List.getElem_cons_succ]
      omega

/-! ## The two-byte trailer -/

/-- The value of a trailer, high byte first. -/
def trailer (hi lo : UInt8) : Nat := 256 * hi.toNat + lo.toNat

theorem trailer_lt (hi lo : UInt8) : trailer hi lo < 65536 := by
  have h1 := UInt8.toNat_lt hi
  have h2 := UInt8.toNat_lt lo
  rw [trailer]
  omega

/-- The two bytes that a sender writes for a sum. -/
def trailerBytes (n : Nat) : List UInt8 :=
  [UInt8.ofNat (n / 256), UInt8.ofNat n]

/-- They hold the sum modulo `65536`. -/
theorem trailer_ofNat (n : Nat) :
    trailer (UInt8.ofNat (n / 256)) (UInt8.ofNat n) = n % 65536 := by
  rw [trailer, UInt8.toNat_ofNat', UInt8.toNat_ofNat']
  omega

theorem trailer_inj {hi lo hi' lo' : UInt8}
    (h : trailer hi lo = trailer hi' lo') : hi = hi' ∧ lo = lo' := by
  have h1 := UInt8.toNat_lt lo
  have h2 := UInt8.toNat_lt lo'
  rw [trailer, trailer] at h
  exact ⟨UInt8.toNat_inj.mp (by omega), UInt8.toNat_inj.mp (by omega)⟩

/-! ## One replaced byte -/

/-- A replaced byte moves the sum by less than `256`, so the new sum is not
the old one modulo `65536`. -/
theorem byteSum_set_ne {bs : List UInt8} {i : Nat} {v : UInt8}
    (hi : i < bs.length) (hv : v ≠ bs[i]) :
    byteSum (bs.set i v) ≠ byteSum bs % 65536 := by
  have hset := byteSum_set hi v
  have hne : v.toNat ≠ (bs[i]).toNat := fun h => hv (UInt8.toNat_inj.mp h)
  have h1 := UInt8.toNat_lt v
  have h2 := UInt8.toNat_lt bs[i]
  omega

/-- A trailer that misses the sum modulo `65536` misses the exact sum. -/
theorem ne_of_ne_mod {t s : Nat} (ht : t < 65536) (h : t ≠ s % 65536) :
    t ≠ s := by
  omega

end EBLmon.Checksum
