import Mathlib.Data.BitVec
import Mathlib.Tactic.Common
import Mathlib.Data.Nat.Bitwise

/-!
# Words in a byte memory

A memory maps addresses of `a` bits to bytes, and addresses wrap. A word of `v`
bits lies little-endian in the bytes from its address on. The laws are those of
loads against stores: the same place, a place apart, and the bytes outside.
-/

namespace PcmTest.Theory

variable {a v : ℕ}

/-- `q` is one of the `n` bytes from `p` on. -/
def Within (p : BitVec a) (n : ℕ) (q : BitVec a) : Prop := (q - p).toNat < n

instance (p : BitVec a) (n : ℕ) (q : BitVec a) : Decidable (Within p n q) :=
  inferInstanceAs (Decidable (_ < _))

/-- No byte belongs to both ranges. -/
def Apart (p : BitVec a) (n : ℕ) (p' : BitVec a) (n' : ℕ) : Prop :=
  ∀ q, Within p n q → ¬ Within p' n' q

theorem within_add {p : BitVec a} {k n : ℕ} (h : k < n) : Within p n (p + BitVec.ofNat a k) := by
  have hle : k % 2 ^ a ≤ k := Nat.mod_le _ _
  rw [Within, add_sub_cancel_left, BitVec.toNat_ofNat]
  omega

/-- A byte of a range is at an offset below its length. -/
theorem exists_offset {p q : BitVec a} {n : ℕ} (h : Within p n q) :
    ∃ k < n, q = p + BitVec.ofNat a k :=
  ⟨(q - p).toNat, h, by rw [BitVec.ofNat_toNat, BitVec.setWidth_eq, add_sub_cancel]⟩

/-- A range inside another one. -/
theorem within_of_part {b q : BitVec a} {d n k : ℕ} (hle : d + n ≤ k)
    (h : Within (b + BitVec.ofNat a d) n q) : Within b k q := by
  obtain ⟨j, hj, rfl⟩ := exists_offset h
  rw [add_assoc, ← BitVec.ofNat_add]
  exact within_add (by omega)

/-- Two ranges at offsets from one base are apart when neither reaches the other, also around
the end of the address space. -/
theorem apart_offsets {b : BitVec a} {d d' n n' : ℕ} (h : d + n ≤ d')
    (hwrap : d' + n' ≤ d + 2 ^ a) :
    Apart (b + BitVec.ofNat a d) n (b + BitVec.ofNat a d') n' := by
  intro q hq hq'
  obtain ⟨k, hk, rfl⟩ := exists_offset hq
  obtain ⟨k', hk', he⟩ := exists_offset hq'
  have hsum : BitVec.ofNat a (d + k) = BitVec.ofNat a (d' + k') := by
    rw [add_assoc, add_assoc] at he
    rw [BitVec.ofNat_add, BitVec.ofNat_add]
    exact add_left_cancel he
  have hmod : (d' + k') % 2 ^ a = (d + k) % 2 ^ a := by
    simpa using (congrArg BitVec.toNat hsum).symm
  have hdvd : 2 ^ a ∣ d' + k' - (d + k) :=
    Nat.dvd_of_mod_eq_zero (Nat.sub_mod_eq_zero_of_mod_eq hmod)
  have hle := Nat.le_of_dvd (by omega) hdvd
  omega

theorem Apart.symm {p p' : BitVec a} {n n' : ℕ} (h : Apart p n p' n') : Apart p' n' p n :=
  fun q hq' hq => h q hq hq'

/-- An injective translation keeps ranges apart. -/
theorem Apart.translate {translate : BitVec a → BitVec a} (hinj : Function.Injective translate)
    {p p' r r' : BitVec a} {n n' : ℕ} (h : Apart p n r n')
    (hp : ∀ k < n, translate (p + BitVec.ofNat a k) = p' + BitVec.ofNat a k)
    (hr : ∀ k < n', translate (r + BitVec.ofNat a k) = r' + BitVec.ofNat a k) :
    Apart p' n r' n' := by
  intro q hq hq'
  obtain ⟨k, hk, rfl⟩ := exists_offset hq
  obtain ⟨k', hk', he⟩ := exists_offset hq'
  rw [← hp k hk, ← hr k' hk'] at he
  have hin := within_add (p := r) hk'
  rw [← hinj he] at hin
  exact h _ (within_add hk) hin

/-- The bytes that a word of `v` bits occupies. -/
def wordBytes (v : ℕ) : ℕ := (v + 7) / 8

abbrev Memory (a : ℕ) := BitVec a → BitVec 8

namespace Memory

def load (v : ℕ) (m : Memory a) (p : BitVec a) : BitVec v :=
  BitVec.ofNat v (Nat.ofBits fun j : Fin v => (m (p + BitVec.ofNat a (j / 8))).getLsbD (j % 8))

def store (m : Memory a) (p : BitVec a) (x : BitVec v) : Memory a := fun q =>
  if Within p (wordBytes v) q then x.extractLsb' (8 * (q - p).toNat) 8 else m q

/-- A load reads nothing but the bytes of its word. -/
theorem load_congr {m m' : Memory a} {p : BitVec a}
    (h : ∀ q, Within p (wordBytes v) q → m q = m' q) : load v m p = load v m' p := by
  apply congrArg fun f => BitVec.ofNat v (Nat.ofBits f)
  funext j
  rw [h _ (within_add (by unfold wordBytes; omega))]

theorem store_outside {m : Memory a} {p q : BitVec a} (x : BitVec v)
    (h : ¬ Within p (wordBytes v) q) : store m p x q = m q := if_neg h

theorem store_inside {m : Memory a} {p q : BitVec a} (x : BitVec v)
    (h : Within p (wordBytes v) q) : store m p x q = x.extractLsb' (8 * (q - p).toNat) 8 := if_pos h

theorem store_byte (m : Memory a) (p : BitVec a) (x : BitVec 8) : store m p x p = x := by
  have hp : Within p 1 p := by
    have hadd := within_add (p := p) Nat.one_pos
    rwa [BitVec.add_zero] at hadd
  rw [store_inside x hp, BitVec.sub_self]
  exact BitVec.extractLsb'_eq_self

theorem load_store_apart {u : ℕ} {m : Memory a} {p p' : BitVec a} (x : BitVec u)
    (h : Apart p (wordBytes v) p' (wordBytes u)) : load v (store m p' x) p = load v m p :=
  load_congr fun q hq => store_outside x (h q hq)

/-- A word that fits in the address space is read back. -/
theorem load_store_same (m : Memory a) (p : BitVec a) (x : BitVec v)
    (hv : wordBytes v ≤ 2 ^ a) : load v (store m p x) p = x := by
  apply BitVec.eq_of_getElem_eq
  intro j hj
  have hk : j / 8 < wordBytes v := by
    unfold wordBytes
    omega
  have hoffset : (p + BitVec.ofNat a (j / 8) - p).toNat = j / 8 := by
    rw [add_sub_cancel_left, BitVec.toNat_ofNat]
    exact Nat.mod_eq_of_lt (by omega)
  have hbit : 8 * (j / 8) + j % 8 = j := Nat.div_add_mod j 8
  have hlow : j % 8 < 8 := Nat.mod_lt _ (by decide)
  rw [load, ← BitVec.getLsbD_eq_getElem, BitVec.getLsbD_ofNat, Nat.testBit_ofBits_lt _ _ hj]
  dsimp only
  rw [store, if_pos (within_add hk), hoffset, BitVec.getLsbD_extractLsb', hbit]
  simp [hlow, hj]

/-- A 64-bit store in two halves. -/
theorem store_halves (m : Memory 64) (p : BitVec 64) (lo hi : BitVec 32) :
    store (store m p lo) (p + 4#64) hi = store m p (hi ++ lo) := by
  funext q
  by_cases h4 : Within p 4 q
  · have hhi : ¬ Within (p + 4#64) 4 q := by
      unfold Within at h4 ⊢
      bv_omega
    have h8 : Within p 8 q := by
      unfold Within at h4 ⊢
      omega
    have hle : 8 * (q - p).toNat + 8 ≤ 32 := by
      unfold Within at h4
      omega
    rw [store_outside hi hhi, store_inside lo h4, store_inside (hi ++ lo) h8]
    exact (BitVec.extractLsb'_append_eq_of_add_le hle).symm
  · by_cases h8 : Within p 8 q
    · have hoffset : (q - (p + 4#64)).toNat = (q - p).toNat - 4 := by
        unfold Within at h4 h8
        bv_omega
      have hhi : Within (p + 4#64) 4 q := by
        unfold Within at h8 ⊢
        omega
      have hle : 32 ≤ 8 * (q - p).toNat := by
        unfold Within at h4
        omega
      have hstart : 8 * ((q - p).toNat - 4) = 8 * (q - p).toNat - 32 := by omega
      rw [store_inside hi hhi, store_inside (hi ++ lo) h8, hoffset, hstart]
      exact (BitVec.extractLsb'_append_eq_of_le hle).symm
    · have hhi : ¬ Within (p + 4#64) 4 q := by
        unfold Within at h8 ⊢
        bv_omega
      rw [store_outside hi hhi, store_outside lo h4, store_outside (hi ++ lo) h8]

section Translation

variable {translate : BitVec a → BitVec a} {p p' : BitVec a}

/-- A word seen through a translation that keeps its bytes in order. -/
theorem load_translate (h : ∀ k < wordBytes v, translate (p + BitVec.ofNat a k) =
    p' + BitVec.ofNat a k) (m : Memory a) :
    load v (fun q => m (translate q)) p = load v m p' := by
  apply congrArg fun f => BitVec.ofNat v (Nat.ofBits f)
  funext j
  dsimp only
  rw [h _ (by unfold wordBytes; omega)]

theorem getLsbD_load (m : Memory a) (p : BitVec a) {k : ℕ} (hk : 8 * k < v) :
    (load v m p).getLsbD (8 * k) = (m (p + BitVec.ofNat a k)).getLsbD 0 := by
  have hdiv : 8 * k / 8 = k := by omega
  have hmod : 8 * k % 8 = 0 := by omega
  rw [load, BitVec.getLsbD_ofNat, Nat.testBit_ofBits_lt _ _ hk]
  simp [hk, hdiv, hmod]

/-- If every word stored at `p'` is seen at `p`, the translation keeps the word's bytes in
order. -/
theorem translate_of_readback
    (h : ∀ x : BitVec v, load v (fun q => store (fun _ => 0) p' x (translate q)) p = x) {k : ℕ}
    (hk : k < wordBytes v) : translate (p + BitVec.ofNat a k) = p' + BitVec.ofNat a k := by
  have hbit : 8 * k < v := by
    unfold wordBytes at hk
    omega
  -- the word with the lowest bit of byte `k` alone
  have hread := congrArg (fun y => y.getLsbD (8 * k)) (h (BitVec.twoPow v (8 * k)))
  simp only [getLsbD_load _ _ hbit, BitVec.getLsbD_twoPow] at hread
  unfold store at hread
  split_ifs at hread with hwithin
  · have hlt := (translate (p + BitVec.ofNat a k) - p').isLt
    have hk' : (translate (p + BitVec.ofNat a k) - p').toNat = k := by
      generalize (translate (p + BitVec.ofNat a k) - p').toNat = d at hread
      rw [BitVec.getLsbD_extractLsb', BitVec.getLsbD_twoPow] at hread
      simp [hbit] at hread
      omega
    have hsub : translate (p + BitVec.ofNat a k) - p' = BitVec.ofNat a k := by
      apply BitVec.eq_of_toNat_eq
      rw [hk'] at hlt
      rw [hk', BitVec.toNat_ofNat, Nat.mod_eq_of_lt hlt]
    exact sub_eq_iff_eq_add'.mp hsub
  · simp [hbit] at hread

end Translation

end Memory

end PcmTest.Theory
