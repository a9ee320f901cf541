import PcmTest.Theory.Lookup
import Mathlib.Data.BitVec

/-!
# C strings in bounded buffers

A C string has no byte 0 in it; in memory one follows. `strncpy` into a buffer
pads with zeros and leaves no terminator when the string does not fit. `strcmp`
reads its first argument out of a buffer, and has no result when it would read
past the end. A chain of comparisons picks the arm with the name that is in the
buffer, and is safe when every name is shorter than the buffer.
-/

namespace PcmTest.Theory

structure CString where
  bytes : List (BitVec 8)
  noNul : 0 ∉ bytes
  deriving DecidableEq

namespace CString

def ofString (s : String) : CString :=
  ⟨(s.toList.map fun c => BitVec.ofNat 8 c.toNat).filter (· ≠ 0), by simp⟩

def terminated (s : CString) : List (BitVec 8) := s.bytes ++ [0]

/-- The first `n` bytes of a string, filled up with zeros. -/
def padded : ℕ → List (BitVec 8) → List (BitVec 8)
  | 0, _ => []
  | n + 1, [] => 0 :: padded n []
  | n + 1, c :: s => c :: padded n s

/-- `strncpy(buf, src, n)`; the rest of the buffer stays. -/
def strncpy (n : ℕ) (src : CString) (buf : List (BitVec 8)) : List (BitVec 8) :=
  padded n src.bytes ++ buf.drop n

/-- Compare bytes up to the first difference or the terminator; `none` when there are no more
bytes to read. -/
def strcmp : List (BitVec 8) → List (BitVec 8) → Option ℤ
  | x :: xs, y :: ys =>
    if x ≠ y then some (x.toNat - y.toNat)
    else if x = 0 then some 0
    else strcmp xs ys
  | _, _ => none

@[simp] theorem length_padded (n : ℕ) (s : List (BitVec 8)) : (padded n s).length = n := by
  induction n generalizing s with
  | zero => rfl
  | succ n ih => cases s <;> simp [padded, ih]

theorem strncpy_full {n : ℕ} {src : CString} {buf : List (BitVec 8)} (h : buf.length = n) :
    strncpy n src buf = padded n src.bytes := by
  rw [strncpy, ← h, List.drop_length, List.append_nil]

/-- Against a name that is shorter than the buffer, the comparison ends in the buffer and finds
equal strings only. -/
theorem strcmp_padded {n : ℕ} {s name : List (BitVec 8)} (hs : 0 ∉ s) (hname : 0 ∉ name)
    (h : name.length < n) :
    ∃ d, strcmp (padded n s) (name ++ [0]) = some d ∧ (d = 0 ↔ s = name) := by
  have hdiff : ∀ {x y : BitVec 8}, x ≠ y → (x.toNat - y.toNat : ℤ) ≠ 0 := by
    intro x y hne he
    exact hne (BitVec.eq_of_toNat_eq (by omega))
  induction name generalizing n s with
  | nil =>
    obtain ⟨n, rfl⟩ := Nat.exists_eq_succ_of_ne_zero (Nat.ne_of_gt h)
    cases s with
    | nil => exact ⟨0, rfl, by simp⟩
    | cons c s =>
      have hc : c ≠ 0 := fun he => hs (by simp [he])
      refine ⟨c.toNat - (0 : BitVec 8).toNat, if_pos hc, ?_⟩
      simpa using hdiff hc
  | cons y name ih =>
    obtain ⟨n, rfl⟩ := Nat.exists_eq_succ_of_ne_zero (Nat.ne_of_gt (Nat.zero_lt_of_lt h))
    have hy : y ≠ 0 := fun he => hname (by simp [he])
    cases s with
    | nil =>
      refine ⟨(0 : BitVec 8).toNat - y.toNat, if_pos hy.symm, ?_⟩
      simpa using hdiff hy.symm
    | cons c s =>
      by_cases hc : c = y
      · subst hc
        obtain ⟨d, hd, hiff⟩ := ih (fun hin => hs (List.mem_cons_of_mem c hin))
          (fun hin => hname (List.mem_cons_of_mem c hin)) (Nat.lt_of_succ_lt_succ h)
        refine ⟨d, ?_, by simpa using hiff⟩
        rw [padded, List.cons_append, strcmp, if_neg (not_not.mpr rfl), if_neg hy, hd]
      · refine ⟨c.toNat - y.toNat, if_pos hc, ?_⟩
        simpa [hc] using hdiff hc

section Chain

variable {α : Type}

structure Arm (α : Type) where
  name : CString
  body : α

/-- Compare with the names in turn; the outer `none` is a read outside of the buffer, the inner
one that no arm was taken. -/
def select (type : List (BitVec 8)) : List (Arm α) → Option (Option (Arm α))
  | [] => some none
  | arm :: arms =>
    (strcmp type arm.name.terminated).bind fun d =>
      if d = 0 then some (some arm) else select type arms

def armOf (arms : List (Arm α)) (s : CString) : Option (Arm α) :=
  arms.find? fun arm => arm.name = s

theorem select_padded {n : ℕ} {arms : List (Arm α)}
    (h : ∀ arm ∈ arms, arm.name.bytes.length < n) (s : CString) :
    select (padded n s.bytes) arms = some (armOf arms s) := by
  induction arms with
  | nil => rfl
  | cons arm arms ih =>
    obtain ⟨d, hd, hiff⟩ := strcmp_padded s.noNul arm.name.noNul (h arm (by simp))
    rw [select, terminated, hd, Option.bind_some]
    by_cases hname : arm.name = s
    · have hzero : d = 0 := hiff.mpr (congrArg bytes hname).symm
      rw [if_pos hzero, armOf, List.find?_cons_of_pos (by simpa using hname)]
    · have hne : d ≠ 0 := by
        intro hzero
        have hbytes := hiff.mp hzero
        cases s
        cases harm : arm.name
        simp_all
      rw [if_neg hne, armOf, List.find?_cons_of_neg (by simpa using hname)]
      exact ih fun arm' harm => h arm' (by simp [harm])

theorem armOf_eq_some_iff {arms : List (Arm α)} (hdistinct : (arms.map Arm.name).Nodup)
    {s : CString} {arm : Arm α} : armOf arms s = some arm ↔ arm ∈ arms ∧ arm.name = s :=
  find?_key_iff hdistinct

end Chain

end CString

end PcmTest.Theory
