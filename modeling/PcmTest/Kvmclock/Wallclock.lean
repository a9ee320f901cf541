import PcmTest.Kvmclock.TestKvmClock

/-!
# The timespec that pvclock_read_wallclock stores

`pvclock_read_wallclock` adds the boot time to a clock value in `u64` arithmetic,
splits the sum with `do_div`, and hands the parts to `set_normalized_timespec`.
These two belong to the kernel; `TimeApi` states what their documentation
promises. A `timespec` has signed 64-bit fields and is compared through the
nanoseconds it stands for.
-/

namespace PcmTest.Kvmclock

/-- `struct timespec` of a 64-bit build: both fields are signed. -/
structure Timespec where
  tvSec : BitVec 64
  tvNsec : BitVec 64
  deriving DecidableEq, Repr

namespace Timespec

def total (ts : Timespec) : ℤ := ts.tvSec.toInt * 10 ^ 9 + ts.tvNsec.toInt

def Normalized (ts : Timespec) : Prop := 0 ≤ ts.tvNsec.toInt ∧ ts.tvNsec.toInt < 10 ^ 9

def LexLe (x y : Timespec) : Prop :=
  x.tvSec.toInt < y.tvSec.toInt ∨
    x.tvSec.toInt = y.tvSec.toInt ∧ x.tvNsec.toInt ≤ y.tvNsec.toInt

theorem lexLe_of_total_le {x y : Timespec} (hx : x.Normalized) (hy : y.Normalized)
    (h : x.total ≤ y.total) : x.LexLe y := by
  obtain ⟨hx₀, hx₁⟩ := hx
  obtain ⟨hy₀, hy₁⟩ := hy
  unfold total at h
  unfold LexLe
  omega

theorem eq_of_total_eq {x y : Timespec} (hx : x.Normalized) (hy : y.Normalized)
    (h : x.total = y.total) : x = y := by
  obtain ⟨hx₀, hx₁⟩ := hx
  obtain ⟨hy₀, hy₁⟩ := hy
  unfold total at h
  have hsec : x.tvSec.toInt = y.tvSec.toInt := by omega
  have hnsec : x.tvNsec.toInt = y.tvNsec.toInt := by omega
  cases x
  cases y
  congr
  · exact BitVec.eq_of_toInt_eq hsec
  · exact BitVec.eq_of_toInt_eq hnsec

end Timespec

/-- The kernel's division and normalisation, as their documentation describes them. -/
structure TimeApi where
  doDiv : U64 → U32 → U64 × U32
  setNormalizedTimespec : BitVec 64 → BitVec 64 → Timespec
  doDiv_quotient : ∀ n base, base ≠ 0 → (doDiv n base).1.toNat = n.toNat / base.toNat
  doDiv_remainder : ∀ n base, base ≠ 0 → (doDiv n base).2.toNat = n.toNat % base.toNat
  normalized : ∀ sec nsec, (setNormalizedTimespec sec nsec).Normalized
  /-- The carry between the fields keeps the time, while the seconds fit their type. -/
  total_eq : ∀ sec nsec : BitVec 64,
    -2 ^ 63 ≤ Timespec.total ⟨sec, nsec⟩ / 10 ^ 9 →
      Timespec.total ⟨sec, nsec⟩ / 10 ^ 9 < 2 ^ 63 →
        (setNormalizedTimespec sec nsec).total = Timespec.total ⟨sec, nsec⟩

def kernelTime : TimeApi where
  doDiv n base := (n / base.setWidth 64, (n % base.setWidth 64).setWidth 32)
  setNormalizedTimespec sec nsec :=
    ⟨BitVec.ofInt 64 (sec.toInt + nsec.toInt / 10 ^ 9), BitVec.ofInt 64 (nsec.toInt % 10 ^ 9)⟩
  doDiv_quotient n base _ := by
    rw [BitVec.toNat_udiv, BitVec.toNat_setWidth_of_le (by omega)]
  doDiv_remainder n base hbase := by
    have hpos : 0 < base.toNat := Nat.pos_of_ne_zero fun h => hbase (BitVec.eq_of_toNat_eq h)
    have hlt : n.toNat % base.toNat < base.toNat := Nat.mod_lt _ hpos
    have hwidth := base.isLt
    rw [BitVec.toNat_setWidth, BitVec.toNat_umod, BitVec.toNat_setWidth_of_le (by omega)]
    exact Nat.mod_eq_of_lt (by omega)
  normalized sec nsec := by
    unfold Timespec.Normalized
    rw [BitVec.toInt_ofInt_eq_self (by decide) (by omega) (by omega)]
    omega
  total_eq sec nsec hlo hhi := by
    unfold Timespec.total at *
    dsimp only at *
    rw [BitVec.toInt_ofInt_eq_self (by decide) (by omega) (by omega),
      BitVec.toInt_ofInt_eq_self (by decide) (by omega) (by omega)]
    omega

/-- The body of `pvclock_read_wallclock` after the version loop: `now` first holds the wall
clock, and its fields are widened to `u64` for the sum. -/
def pvclockReadWallclockTs (K : TimeApi) (value : U64) (sec nsec : U32) : Timespec :=
  let now : Timespec := ⟨sec.setWidth 64, nsec.setWidth 64⟩
  let delta := value + (now.tvSec * nsecPerSec + now.tvNsec)
  let r := K.doDiv delta (nsecPerSec.setWidth 32)
  let now : Timespec := ⟨r.1, r.2.setWidth 64⟩
  K.setNormalizedTimespec now.tvSec now.tvNsec

theorem toInt_pvclockReadWallclock (value : U64) (sec nsec : U32) :
    (pvclockReadWallclock value sec nsec).1.toInt = (pvclockReadWallclock value sec nsec).1.toNat ∧
      (pvclockReadWallclock value sec nsec).2.toInt =
        (pvclockReadWallclock value sec nsec).2.toNat := by
  have hbase : nsecPerSec.toNat = 1000000000 := rfl
  constructor
  · apply BitVec.toInt_eq_toNat_of_lt
    rw [pvclockReadWallclock, BitVec.toNat_udiv, hbase]
    omega
  · apply BitVec.toInt_eq_toNat_of_lt
    rw [pvclockReadWallclock, BitVec.toNat_umod, hbase]
    omega

theorem normalized_pvclockReadWallclock (value : U64) (sec nsec : U32) :
    Timespec.Normalized ⟨(pvclockReadWallclock value sec nsec).1,
      (pvclockReadWallclock value sec nsec).2⟩ := by
  have hbase : nsecPerSec.toNat = 1000000000 := rfl
  obtain ⟨-, hnsec⟩ := toInt_pvclockReadWallclock value sec nsec
  rw [Timespec.Normalized, hnsec, pvclockReadWallclock, BitVec.toNat_umod, hbase]
  omega

theorem doDiv_eq (K : TimeApi) (value : U64) (sec nsec : U32) :
    let r := K.doDiv (value + (sec.setWidth 64 * nsecPerSec + nsec.setWidth 64))
      (nsecPerSec.setWidth 32)
    r.1 = (pvclockReadWallclock value sec nsec).1 ∧
      r.2.setWidth 64 = (pvclockReadWallclock value sec nsec).2 := by
  intro r
  have hbase : nsecPerSec.setWidth 32 ≠ (0 : U32) := by decide
  have hquotient := K.doDiv_quotient (value + (sec.setWidth 64 * nsecPerSec + nsec.setWidth 64))
    (nsecPerSec.setWidth 32) hbase
  have hremainder := K.doDiv_remainder (value + (sec.setWidth 64 * nsecPerSec + nsec.setWidth 64))
    (nsecPerSec.setWidth 32) hbase
  constructor
  · apply BitVec.eq_of_toNat_eq
    rw [hquotient, pvclockReadWallclock, BitVec.toNat_udiv]
    rfl
  · apply BitVec.eq_of_toNat_eq
    rw [BitVec.toNat_setWidth_of_le (by omega), hremainder, pvclockReadWallclock,
      BitVec.toNat_umod]
    rfl

/-- The kernel's normalisation has nothing left to carry: what is stored is the quotient and
the remainder, in the roles that `do_div` swaps. -/
theorem pvclockReadWallclockTs_eq (K : TimeApi) (value : U64) (sec nsec : U32) :
    pvclockReadWallclockTs K value sec nsec =
      ⟨(pvclockReadWallclock value sec nsec).1, (pvclockReadWallclock value sec nsec).2⟩ := by
  obtain ⟨hquotient, hremainder⟩ := doDiv_eq K value sec nsec
  obtain ⟨hsec, hnsec⟩ := toInt_pvclockReadWallclock value sec nsec
  have hnorm := normalized_pvclockReadWallclock value sec nsec
  simp only [pvclockReadWallclockTs, hquotient, hremainder]
  apply Timespec.eq_of_total_eq (K.normalized _ _) hnorm
  have hlt := (pvclockReadWallclock value sec nsec).1.isLt
  have hsmall : (pvclockReadWallclock value sec nsec).1.toNat < 2 ^ 63 := by
    have hbase : nsecPerSec.toNat = 1000000000 := rfl
    rw [pvclockReadWallclock, BitVec.toNat_udiv, hbase]
    omega
  unfold Timespec.Normalized at hnorm
  dsimp only at hnorm
  apply K.total_eq
  · unfold Timespec.total
    dsimp only
    omega
  · unfold Timespec.total
    dsimp only
    omega

theorem total_pvclockReadWallclockTs (K : TimeApi) (value : U64) (sec nsec : U32)
    (h : value.toNat + sec.toNat * 10 ^ 9 + nsec.toNat < 2 ^ 64) :
    (pvclockReadWallclockTs K value sec nsec).total =
      value.toNat + sec.toNat * 10 ^ 9 + nsec.toNat := by
  obtain ⟨hsec, hnsec⟩ := toInt_pvclockReadWallclock value sec nsec
  rw [pvclockReadWallclockTs_eq, Timespec.total, hsec, hnsec, pvclockReadWallclock,
    BitVec.toNat_udiv, BitVec.toNat_umod]
  have hbase : nsecPerSec.toNat = 10 ^ 9 := rfl
  have hdelta : (value + (sec.setWidth 64 * nsecPerSec + nsec.setWidth 64)).toNat =
      value.toNat + sec.toNat * 10 ^ 9 + nsec.toNat := by
    rw [BitVec.toNat_add, BitVec.toNat_add, BitVec.toNat_mul, hbase,
      BitVec.toNat_setWidth_of_le (by omega), BitVec.toNat_setWidth_of_le (by omega)]
    omega
  rw [hdelta, hbase]
  omega

theorem normalized_pvclockReadWallclockTs (K : TimeApi) (value : U64) (sec nsec : U32) :
    (pvclockReadWallclockTs K value sec nsec).Normalized := by
  rw [pvclockReadWallclockTs_eq]
  exact normalized_pvclockReadWallclock value sec nsec

/-- The stored timespec is the one normalised timespec of the sum, and reads in clock order
store timespecs in lexicographic order. -/
theorem pvclockReadWallclockTs_spec (K : TimeApi) (sec nsec : U32) (d : U64)
    (h : d.toNat + sec.toNat * 10 ^ 9 + nsec.toNat < 2 ^ 64) :
    (∀ ts : Timespec, ts = pvclockReadWallclockTs K d sec nsec ↔
      (0 ≤ ts.tvNsec.toInt ∧ ts.tvNsec.toInt < 10 ^ 9) ∧
        ts.tvSec.toInt * 10 ^ 9 + ts.tvNsec.toInt = d.toNat + sec.toNat * 10 ^ 9 + nsec.toNat) ∧
    ∀ d₁ ≤ d,
      (pvclockReadWallclockTs K d₁ sec nsec).LexLe (pvclockReadWallclockTs K d sec nsec) := by
  have htotal := total_pvclockReadWallclockTs K d sec nsec h
  have hnorm := normalized_pvclockReadWallclockTs K d sec nsec
  constructor
  · intro ts
    constructor
    · rintro rfl
      exact ⟨hnorm, htotal⟩
    · rintro ⟨hts, hsum⟩
      exact Timespec.eq_of_total_eq hts hnorm (hsum.trans htotal.symm)
  · intro d₁ hle
    rw [BitVec.le_def] at hle
    have htotal₁ := total_pvclockReadWallclockTs K d₁ sec nsec (by omega)
    apply Timespec.lexLe_of_total_le (normalized_pvclockReadWallclockTs K d₁ sec nsec) hnorm
    omega

theorem pvclockReadWallclockTs_spec_carry :
    (∀ ts : Timespec, ts = pvclockReadWallclockTs kernelTime 7 2 3999999999 ↔
      (0 ≤ ts.tvNsec.toInt ∧ ts.tvNsec.toInt < 10 ^ 9) ∧
        ts.tvSec.toInt * 10 ^ 9 + ts.tvNsec.toInt =
          (7 : U64).toNat + (2 : U32).toNat * 10 ^ 9 + (3999999999 : U32).toNat) ∧
    ∀ d₁ ≤ 7, (pvclockReadWallclockTs kernelTime d₁ 2 3999999999).LexLe
      (pvclockReadWallclockTs kernelTime 7 2 3999999999) :=
  pvclockReadWallclockTs_spec kernelTime 2 3999999999 7 (by decide)

end PcmTest.Kvmclock
