import PcmTest.Driver.Report
import Mathlib.Tactic.Abel

/-!
# The prints of test_tsc_adjust

The time stamp counter shows a base time plus `IA32_TSC_ADJUST`, and a write of
the counter moves that register. `test_tsc_adjust` writes both and prints
differences of readings; its 64-bit subtractions wrap and the differences come
out right.
-/

namespace PcmTest.Driver

open Theory

namespace Report

def rdtscll : ReportProg U64 := onCpu .rdtsc

def cpuidEbx (leaf : U32) : ReportProg U32 := onCpu (.cpuid leaf)

def testTscAdjust : ReportProg Unit := do
  let ebx ← cpuidEbx 7
  if ebx &&& (1 : U32) <<< 1 ≠ 0 then do
    let p ← rdmsrlSafe ia32TscAdjust
    printk "IA32_TSC_ADJUST msr initialization,  %lld\n" [.long p.2]
    let t3 : U64 := 100000000000
    let t1 ← rdtscll
    let _ ← wrmsrlSafe ia32TscAdjust t3
    let t2 ← rdtscll
    let p ← rdmsrlSafe ia32TscAdjust
    printk "IA32_TSC_ADJUST msr read / write, %lld\n" [.long p.2]
    printk "TSC adjustment for IA32_TSC_ADJUST value, t2-t1=%lld\n" [.long (t2 - t1)]
    let _ ← wrmsrlSafe ia32TscAdjust 0
    let t3 ← rdmsrlSafe ia32TscAdjust
    printk "IA32_TSC_ADJUST msr read / write, %lld\n" [.long t3.2]
    let t4 : U64 := 100000000000
    let t1 ← rdtscll
    let _ ← wrmsrlSafe msrIa32Tsc t4
    let t2 ← rdtscll
    let t5 ← rdmsrlSafe ia32TscAdjust
    let estDeltaTime : U64 := t4 - t5.2 - t1
    printk
      "IA32_TSC_ADJUST msr adjustment on tsc write, est_delta_time=%lld, stdvalue=%lld\n"
      [.long estDeltaTime, .long (2 * (t2 - t4))]
  else
    printk "IA32_TSC_ADJUST feature not enabled\n" []

/-- Without the report this is the test body of the driver. -/
theorem testTscAdjust_unreported : testTscAdjust.expand unreported = Driver.testTscAdjust := by
  refine congrArg (Prog.op _) (funext fun (ebx : U32) => ?_)
  change Prog.expand unreported (if ebx &&& (1 : U32) <<< 1 ≠ 0 then _ else _) =
    if ebx &&& (1 : U32) <<< 1 ≠ 0 then _ else _
  split_ifs <;> rfl

end Report

/-- The counter's offset to the base time, and how often the counter was read or written. -/
structure TscState where
  adjust : U64
  accesses : ℕ
  deriving DecidableEq, Repr

namespace TscState

/-- A processor with the adjust register; `base k` is the base time of access `k` of the
counter. -/
def device (ebx : U32) (base : ℕ → ℕ) : (c : ReportCmd) → TscState → c.Answer × TscState
  | .cpu (.cpuid _), s => ((ebx : U32), s)
  | .cpu .rdtsc, s =>
    ((BitVec.ofNat 64 (base s.accesses) + s.adjust : U64), { s with accesses := s.accesses + 1 })
  | .cpu (.rdmsr index), s =>
    (((0, if index = ia32TscAdjust then s.adjust else 0) : U32 × U64), s)
  | .wrmsrlSafe index value, s =>
    if index = ia32TscAdjust then ((0 : U32), { s with adjust := value })
    else if index = msrIa32Tsc then
      ((0 : U32), ⟨value - BitVec.ofNat 64 (base s.accesses), s.accesses + 1⟩)
    else ((0 : U32), s)
  | _, s => (default, s)

end TscState

/-- The lines that the test prints. -/
def tscAdjustLines (ebx : U32) (base : ℕ → ℕ) (prior : U64) : List Line :=
  lines ((Report.testTscAdjust.issued (TscState.device ebx base) ⟨prior, 0⟩).map Prod.fst)

section Prints

variable {ebx : U32} {base : ℕ → ℕ} (prior : U64)

/-- The lines by the readings: `now` is what the counter shows without its offset. -/
theorem tscAdjustLines_eq (hfeature : ebx &&& (1 : U32) <<< 1 ≠ 0) :
    let now k : U64 := BitVec.ofNat 64 (base k)
    let t : U64 := 100000000000
    tscAdjustLines ebx base prior =
      [("IA32_TSC_ADJUST msr initialization,  %lld\n", [.long prior]),
        ("IA32_TSC_ADJUST msr read / write, %lld\n", [.long t]),
        ("TSC adjustment for IA32_TSC_ADJUST value, t2-t1=%lld\n",
          [.long (now 1 + t - (now 0 + prior))]),
        ("IA32_TSC_ADJUST msr read / write, %lld\n", [.long 0]),
        ("IA32_TSC_ADJUST msr adjustment on tsc write, est_delta_time=%lld, stdvalue=%lld\n",
          [.long (t - (t - now 3) - (now 2 + 0)), .long (2 * (now 4 + (t - now 3) - t))])] := by
  intro now t
  change lines (_ :: List.map Prod.fst
    (Prog.issued _ (if ebx &&& (1 : U32) <<< 1 ≠ 0 then _ else _) _)) = _
  rw [if_pos hfeature]
  rfl

/-- The offset drops out of the estimate. -/
theorem toNat_estimate (t : U64) {b₁ b₂ : ℕ} (h : b₁ ≤ b₂) (hb₂ : b₂ < 2 ^ 64) :
    (t - (t - BitVec.ofNat 64 b₂) - (BitVec.ofNat 64 b₁ + 0)).toNat = b₂ - b₁ := by
  have hle : BitVec.ofNat 64 b₁ ≤ BitVec.ofNat 64 b₂ := by
    rw [BitVec.ofNat_le_ofNat, Nat.mod_eq_of_lt hb₂, Nat.mod_eq_of_lt (by omega)]
    exact h
  rw [sub_sub_cancel, add_zero, BitVec.toNat_sub_of_le hle, BitVec.toNat_ofNat,
    BitVec.toNat_ofNat, Nat.mod_eq_of_lt hb₂, Nat.mod_eq_of_lt (by omega)]

theorem toNat_stdvalue (t : U64) {b₂ b₃ : ℕ} (h : b₂ ≤ b₃) :
    (2 * (BitVec.ofNat 64 b₃ + (t - BitVec.ofNat 64 b₂) - t)).toNat =
      2 * (b₃ - b₂) % 2 ^ 64 := by
  have hdiff : BitVec.ofNat 64 b₃ + (t - BitVec.ofNat 64 b₂) - t =
      (BitVec.ofNat 64 (b₃ - b₂) : U64) := by
    have hsum : BitVec.ofNat 64 b₃ = BitVec.ofNat 64 (b₃ - b₂) + BitVec.ofNat 64 b₂ := by
      rw [← BitVec.ofNat_add, Nat.sub_add_cancel h]
    rw [hsum]
    abel
  rw [hdiff, show (2 : U64) = BitVec.ofNat 64 2 from rfl, ← BitVec.ofNat_mul, BitVec.toNat_ofNat]

theorem difference_eq (t : U64) (b b' : ℕ) :
    BitVec.ofNat 64 b' + t - (BitVec.ofNat 64 b + prior) =
      BitVec.ofInt 64 (b' - b + t.toNat - prior.toNat) := by
  simp only [Int.sub_eq_add_neg, BitVec.ofInt_add, BitVec.ofInt_neg, BitVec.ofInt_natCast,
    BitVec.ofNat_toNat, BitVec.setWidth_eq]
  abel

/-- With base times in order the estimate and the threshold are exact, whatever wraps, and the
first difference is the time that passed, more by the change of the offset. -/
theorem tscAdjust_prints (hfeature : ebx &&& (1 : U32) <<< 1 ≠ 0) (h₁₂ : base 2 ≤ base 3)
    (h₂₃ : base 3 ≤ base 4) (h₃ : base 4 < 2 ^ 64) :
    ∃ difference estDeltaTime stdvalue : U64,
      tscAdjustLines ebx base prior =
        [("IA32_TSC_ADJUST msr initialization,  %lld\n", [.long prior]),
          ("IA32_TSC_ADJUST msr read / write, %lld\n", [.long 100000000000]),
          ("TSC adjustment for IA32_TSC_ADJUST value, t2-t1=%lld\n", [.long difference]),
          ("IA32_TSC_ADJUST msr read / write, %lld\n", [.long 0]),
          ("IA32_TSC_ADJUST msr adjustment on tsc write, est_delta_time=%lld, stdvalue=%lld\n",
            [.long estDeltaTime, .long stdvalue])] ∧
      difference = BitVec.ofInt 64 (base 1 - base 0 + 100000000000 - prior.toNat) ∧
      estDeltaTime.toNat = base 3 - base 2 ∧
      stdvalue.toNat = 2 * (base 4 - base 3) % 2 ^ 64 :=
  ⟨_, _, _, tscAdjustLines_eq prior hfeature, difference_eq prior _ _ _,
    toNat_estimate _ h₁₂ (by omega), toNat_stdvalue _ h₂₃⟩

theorem tscAdjust_prints_ticks : ∃ estDeltaTime stdvalue : U64,
    ("IA32_TSC_ADJUST msr adjustment on tsc write, est_delta_time=%lld, stdvalue=%lld\n",
      [.long estDeltaTime, .long stdvalue]) ∈ tscAdjustLines 2 (fun k => 1000 * k) 5 ∧
    estDeltaTime.toNat = 1000 ∧ stdvalue.toNat = 2000 := by
  have hfeature : (2 : U32) &&& (1 : U32) <<< 1 ≠ 0 := by decide
  have h₁₂ : (fun k => 1000 * k) 2 ≤ (fun k => 1000 * k) 3 := by decide
  have hprints := tscAdjust_prints 5 hfeature h₁₂ (by decide) (by decide)
  obtain ⟨difference, estDeltaTime, stdvalue, hlines, -, hest, hstd⟩ := hprints
  refine ⟨estDeltaTime, stdvalue, ?_, hest, hstd⟩
  rw [hlines]
  simp

end Prints

end PcmTest.Driver
