import Mathlib.Data.BitVec
import Mathlib.Tactic.IntervalCases

/-!
# Redirection entries

`ioapic_redir_entry_t` lays a redirection entry over two registers with bit
fields. The structure keeps the fields, and its two words are the C layout, with
the first field in the lowest bits.
-/

namespace PcmTest.Ioapic

abbrev U32 := BitVec 32

/-- `ioapic_redir_entry_t`. -/
structure RedirEntry where
  vector : BitVec 8
  deliveryMode : BitVec 3
  destMode : BitVec 1
  deliveryStatus : BitVec 1
  polarity : BitVec 1
  remoteIrr : BitVec 1
  trigMode : BitVec 1
  mask : BitVec 1
  reserve : BitVec 7
  reserved : BitVec 32
  destId : BitVec 8
  deriving DecidableEq, Repr

namespace RedirEntry

/-- `((u32 *)&e)[0]`: the first byte of `reserved` is its highest. -/
def lo (e : RedirEntry) : U32 :=
  e.reserved.extractLsb' 0 8 ++ e.reserve ++ e.mask ++ e.trigMode ++ e.remoteIrr ++ e.polarity ++
    e.deliveryStatus ++ e.destMode ++ e.deliveryMode ++ e.vector

/-- `((u32 *)&e)[1]`. -/
def hi (e : RedirEntry) : U32 := e.destId ++ e.reserved.extractLsb' 8 24

/-- The entry whose two words are `lo` and `hi`. -/
def ofWords (lo hi : U32) : RedirEntry where
  vector := lo.extractLsb' 0 8
  deliveryMode := lo.extractLsb' 8 3
  destMode := lo.extractLsb' 11 1
  deliveryStatus := lo.extractLsb' 12 1
  polarity := lo.extractLsb' 13 1
  remoteIrr := lo.extractLsb' 14 1
  trigMode := lo.extractLsb' 15 1
  mask := lo.extractLsb' 16 1
  reserve := lo.extractLsb' 17 7
  reserved := hi.extractLsb' 0 24 ++ lo.extractLsb' 24 8
  destId := hi.extractLsb' 24 8

/-- `e.mask = mask` keeps the lowest bit of the `int`. -/
def setMask (e : RedirEntry) (mask : U32) : RedirEntry := { e with mask := mask.extractLsb' 0 1 }

/-- A low word with its mask bit replaced. -/
def maskWord (word mask : U32) : U32 :=
  word.extractLsb' 17 15 ++ mask.extractLsb' 0 1 ++ word.extractLsb' 0 16

/-- Two low words that differ in the mask bit at most. -/
def SameButMask (a b : U32) : Prop := maskWord a 0 = maskWord b 0

instance (a b : U32) : Decidable (SameButMask a b) := inferInstanceAs (Decidable (_ = _))

theorem lo_ofWords (lo hi : U32) : (ofWords lo hi).lo = lo := by
  simp only [RedirEntry.lo, ofWords, BitVec.extractLsb'_append_eq_right]
  repeat rw [BitVec.extractLsb'_append_extractLsb'_eq_extractLsb' (by decide)]
  exact BitVec.extractLsb'_eq_self

theorem hi_ofWords (lo hi : U32) : (ofWords lo hi).hi = hi := by
  simp only [RedirEntry.hi, ofWords, BitVec.extractLsb'_append_eq_left]
  rw [BitVec.extractLsb'_append_extractLsb'_eq_extractLsb' (by decide)]
  exact BitVec.extractLsb'_eq_self

theorem getLsbD_maskWord (word mask : U32) {i : ℕ} (hi : i < 32) :
    (maskWord word mask).getLsbD i = if i = 16 then mask.getLsbD 0 else word.getLsbD i := by
  simp only [maskWord, BitVec.getLsbD_append, BitVec.getLsbD_extractLsb']
  interval_cases i <;> simp

/-- Setting the mask field replaces one bit of the low word. -/
theorem lo_setMask (lo hi mask : U32) : ((ofWords lo hi).setMask mask).lo = maskWord lo mask := by
  apply BitVec.eq_of_getLsbD_eq
  intro i hi
  rw [getLsbD_maskWord lo mask hi]
  simp only [RedirEntry.lo, setMask, ofWords, BitVec.extractLsb'_append_eq_right,
    BitVec.getLsbD_append, BitVec.getLsbD_extractLsb']
  interval_cases i <;> simp

theorem hi_setMask (lo hi mask : U32) : ((ofWords lo hi).setMask mask).hi = hi := hi_ofWords lo hi

@[simp] theorem maskWord_maskWord (word mask mask' : U32) :
    maskWord (maskWord word mask) mask' = maskWord word mask' := by
  apply BitVec.eq_of_getLsbD_eq
  intro i hi
  rw [getLsbD_maskWord _ _ hi, getLsbD_maskWord _ _ hi, getLsbD_maskWord _ _ hi]
  split_ifs <;> rfl

/-- Words that agree after their mask bits are set agree but for these bits. -/
theorem sameButMask_of_eq {a b mask mask' : U32} (h : maskWord a mask = maskWord b mask') :
    SameButMask a b := by
  have h₀ := congrArg (fun word => maskWord word 0) h
  rwa [maskWord_maskWord, maskWord_maskWord] at h₀

theorem maskWord_congr {a b : U32} (h : SameButMask a b) (mask : U32) :
    maskWord a mask = maskWord b mask := by
  have h₀ := congrArg (fun word => maskWord word mask) h
  rwa [maskWord_maskWord, maskWord_maskWord] at h₀

end RedirEntry

end PcmTest.Ioapic
