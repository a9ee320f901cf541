import Mathlib.Data.BitVec
import Mathlib.Data.Nat.Digits.Defs
import Mathlib.Tactic.Common

/-!
# Packed records read from a file

The members of a packed record lie one after the other, and an integer member is
little-endian. `fread` of one item stores the bytes that the file has, up to the
size of the object; a byte past the end of the file stays what it was. So the bytes
of a member are those of the file exactly as far as the file reaches.
-/

namespace PcmTest.Theory

/-- The `size` bytes from `offset` on, or those of them that there are. -/
def slice (bytes : List (BitVec 8)) (offset size : ℕ) : List (BitVec 8) :=
  (bytes.drop offset).take size

theorem length_slice {bytes : List (BitVec 8)} {offset size : ℕ}
    (h : offset + size ≤ bytes.length) : (slice bytes offset size).length = size := by
  rw [slice, List.length_take, List.length_drop]
  omega

theorem slice_append_left (bytes rest : List (BitVec 8)) :
    slice (bytes ++ rest) 0 bytes.length = bytes := List.take_left

theorem slice_append_right (bytes rest : List (BitVec 8)) (offset size : ℕ) :
    slice (bytes ++ rest) (bytes.length + offset) size = slice rest offset size := by
  rw [slice, slice, List.drop_length_add_append]

theorem slice_eq_iff {bytes bytes' : List (BitVec 8)} {offset size : ℕ} :
    slice bytes offset size = slice bytes' offset size ↔
      ∀ i, offset ≤ i → i < offset + size → bytes[i]? = bytes'[i]? := by
  constructor
  · intro h i hle hlt
    have hget := congrArg (·[i - offset]?) h
    have hin : i - offset < size := by omega
    simpa [slice, List.getElem?_take, hin, Nat.add_sub_cancel' hle] using hget
  · intro h
    apply List.ext_getElem?
    intro i
    rw [slice, slice, List.getElem?_take, List.getElem?_take, List.getElem?_drop,
      List.getElem?_drop]
    split
    · exact h _ (by omega) (by omega)
    · rfl

def littleEndian (bytes : List (BitVec 8)) : ℕ := Nat.ofDigits 256 (bytes.map BitVec.toNat)

theorem byte_digits (bytes : List (BitVec 8)) : ∀ d ∈ bytes.map BitVec.toNat, d < 256 := by
  intro d hd
  obtain ⟨byte, -, rfl⟩ := List.mem_map.mp hd
  exact byte.isLt

theorem littleEndian_lt (bytes : List (BitVec 8)) : littleEndian bytes < 256 ^ bytes.length := by
  have h := Nat.ofDigits_lt_base_pow_length (by decide) (byte_digits bytes)
  rwa [List.length_map] at h

theorem littleEndian_inj {bytes bytes' : List (BitVec 8)} (hlen : bytes.length = bytes'.length) :
    littleEndian bytes = littleEndian bytes' ↔ bytes = bytes' := by
  constructor
  · intro h
    have hdigits := Nat.ofDigits_inj_of_len_eq (by decide) (by simpa using hlen)
      (byte_digits bytes) (byte_digits bytes') h
    exact List.map_injective_iff.mpr (fun _ _ => BitVec.eq_of_toNat_eq) hdigits
  · intro h
    rw [h]

/-- The `size` low bytes of a number, the lowest first. -/
def bytesOf : ℕ → ℕ → List (BitVec 8)
  | 0, _ => []
  | size + 1, x => BitVec.ofNat 8 x :: bytesOf size (x / 256)

@[simp] theorem length_bytesOf (size x : ℕ) : (bytesOf size x).length = size := by
  induction size generalizing x with
  | zero => rfl
  | succ size ih => rw [bytesOf, List.length_cons, ih]

theorem littleEndian_bytesOf (size x : ℕ) : littleEndian (bytesOf size x) = x % 256 ^ size := by
  induction size generalizing x with
  | zero => rw [bytesOf, pow_zero, Nat.mod_one]; rfl
  | succ size ih =>
    have htail : Nat.ofDigits 256 ((bytesOf size (x / 256)).map BitVec.toNat) =
        x / 256 % 256 ^ size := ih (x / 256)
    rw [bytesOf, littleEndian, List.map_cons, Nat.ofDigits_cons, htail, pow_succ', Nat.mod_mul]
    rfl

/-- An object of `n` bytes in memory. -/
abbrev Object (n : ℕ) := Vector (BitVec 8) n

namespace Object

variable {n : ℕ}

/-- `memset` of the first `count` bytes. -/
def memset (object : Object n) (c : BitVec 8) (count : ℕ) : Object n :=
  Vector.ofFn fun i => if i < count then c else object[i]

/-- `fread` of one item: the number of whole items, and what is in the object then. -/
def fread (file : List (BitVec 8)) (object : Object n) : ℕ × Object n :=
  (if n ≤ file.length then 1 else 0, Vector.ofFn fun i => file.getD i object[i])

/-- Nothing is left of an object that is filled as a whole. -/
theorem memset_full (object object' : Object n) (c : BitVec 8) :
    object.memset c n = object'.memset c n := by
  apply congrArg Vector.ofFn
  funext i
  rw [if_pos i.isLt, if_pos i.isLt]

theorem fread_inside {file : List (BitVec 8)} (object : Object n) {i : ℕ} (hi : i < n)
    (h : i < file.length) : (fread file object).2.toList[i]? = file[i]? := by
  simp [fread, hi, h]

theorem fread_outside {file : List (BitVec 8)} (object : Object n) {i : ℕ} (hi : i < n)
    (h : file.length ≤ i) : (fread file object).2.toList[i]? = some object[i] := by
  simp [fread, hi, h]

section Slice

variable {file : List (BitVec 8)} {offset size : ℕ}

/-- Inside the file, an object has the bytes of the file. -/
theorem slice_fread (object : Object n) (hfits : offset + size ≤ n)
    (h : offset + size ≤ file.length) :
    slice (fread file object).2.toList offset size = slice file offset size := by
  rw [slice_eq_iff]
  intro i _ hlt
  exact fread_inside object (by omega) (by omega)

/-- The part of an object that the file does not reach shows what was there before. -/
theorem slice_fread_ne {object object' : Object n} (hfits : offset + size ≤ n) (hpos : 0 < size)
    (h : file.length < offset + size) (hdiff : ∀ i (hi : i < n), object[i] ≠ object'[i]) :
    slice (fread file object).2.toList offset size ≠
      slice (fread file object').2.toList offset size := by
  intro he
  have hlast := slice_eq_iff.mp he (offset + size - 1) (by omega) (by omega)
  rw [fread_outside object (by omega) (by omega), fread_outside object' (by omega) (by omega),
    Option.some.injEq] at hlast
  exact hdiff _ _ hlast

end Slice

end Object

section Layout

variable {α κ : Type} [DecidableEq κ] (key : α → κ) (size : α → ℕ)

/-- The size of a packed record. -/
def sizeof (layout : List α) : ℕ := (layout.map size).sum

/-- A member lies behind all those before it. -/
def offsetof (layout : List α) (k : κ) : ℕ := sizeof size (layout.takeWhile (key · ≠ k))

def widthof (layout : List α) (k : κ) : ℕ := ((layout.find? (key · = k)).map size).getD 0

def endof (layout : List α) (k : κ) : ℕ := offsetof key size layout k + widthof key size layout k

variable {key size}

@[simp] theorem sizeof_cons (x : α) (layout : List α) :
    sizeof size (x :: layout) = size x + sizeof size layout := by
  rw [sizeof, List.map_cons, List.sum_cons, sizeof]

theorem sizeof_append (header layout : List α) :
    sizeof size (header ++ layout) = sizeof size header + sizeof size layout := by
  rw [sizeof, List.map_append, List.sum_append, sizeof, sizeof]

theorem offsetof_cons_ne {x : α} {layout : List α} {k : κ} (h : key x ≠ k) :
    offsetof key size (x :: layout) k = size x + offsetof key size layout k := by
  rw [offsetof, List.takeWhile_cons_of_pos (by simpa using h), sizeof_cons, offsetof]

theorem widthof_cons_ne {x : α} {layout : List α} {k : κ} (h : key x ≠ k) :
    widthof key size (x :: layout) k = widthof key size layout k := by
  rw [widthof, List.find?_cons_of_neg (by simpa using h), widthof]

theorem endof_le_sizeof (layout : List α) (k : κ) :
    endof key size layout k ≤ sizeof size layout := by
  induction layout with
  | nil => simp [endof, offsetof, widthof]
  | cons x layout ih =>
    by_cases h : key x = k
    · simp [endof, offsetof, widthof, h, sizeof]
    · rw [endof, offsetof_cons_ne h, widthof_cons_ne h, sizeof_cons, Nat.add_assoc]
      exact Nat.add_le_add_left ih _

/-- A member of the record that follows a header. -/
theorem offsetof_append {header layout : List α} {k : κ} (h : k ∉ header.map key) :
    offsetof key size (header ++ layout) k = sizeof size header + offsetof key size layout k := by
  induction header with
  | nil => simp [sizeof]
  | cons x header ih =>
    rw [List.map_cons, List.mem_cons, not_or] at h
    rw [List.cons_append, offsetof_cons_ne (Ne.symm h.1), ih h.2, sizeof_cons, Nat.add_assoc]

theorem widthof_append {header layout : List α} {k : κ} (h : k ∉ header.map key) :
    widthof key size (header ++ layout) k = widthof key size layout k := by
  induction header with
  | nil => rfl
  | cons x header ih =>
    rw [List.map_cons, List.mem_cons, not_or] at h
    rw [List.cons_append, widthof_cons_ne (Ne.symm h.1), ih h.2]

variable (key size)

/-- The bytes of a packed record, from the values of its members. -/
def encode (layout : List α) (value : κ → ℕ) : List (BitVec 8) :=
  layout.flatMap fun x => bytesOf (size x) (value (key x))

variable {key size}

omit [DecidableEq κ] in
theorem encode_cons (x : α) (layout : List α) (value : κ → ℕ) :
    encode key size (x :: layout) value =
      bytesOf (size x) (value (key x)) ++ encode key size layout value := List.flatMap_cons

omit [DecidableEq κ] in
theorem length_encode (layout : List α) (value : κ → ℕ) :
    (encode key size layout value).length = sizeof size layout := by
  induction layout with
  | nil => rfl
  | cons x layout ih => rw [encode_cons, List.length_append, length_bytesOf, ih, sizeof_cons]

/-- A member's bytes lie at its place. -/
theorem slice_encode (layout : List α) (value : κ → ℕ) (rest : List (BitVec 8)) (k : κ) :
    slice (encode key size layout value ++ rest) (offsetof key size layout k)
        (widthof key size layout k) =
      bytesOf (widthof key size layout k) (value k) := by
  induction layout with
  | nil => rfl
  | cons x layout ih =>
    rw [encode_cons, List.append_assoc]
    have hlen := length_bytesOf (size x) (value (key x))
    by_cases h : key x = k
    · subst h
      have hoffset : offsetof key size (x :: layout) (key x) = 0 := by simp [offsetof, sizeof]
      have hwidth : widthof key size (x :: layout) (key x) = size x := by simp [widthof]
      rw [hoffset, hwidth]
      nth_rewrite 2 [← hlen]
      exact slice_append_left _ _
    · rw [offsetof_cons_ne h, widthof_cons_ne h]
      nth_rewrite 2 [← hlen]
      rw [slice_append_right, ih]

theorem lt_pow_widthof {layout : List α} {value : κ → ℕ} {k : κ}
    (hfits : ∀ x ∈ layout, value (key x) < 256 ^ size x)
    (hpos : 0 < widthof key size layout k) : value k < 256 ^ widthof key size layout k := by
  rw [widthof] at hpos ⊢
  cases hfind : layout.find? (key · = k) with
  | none => simp [hfind] at hpos
  | some x =>
    have hkey : key x = k := by simpa using List.find?_some hfind
    rw [Option.map_some, Option.getD_some, ← hkey]
    exact hfits x (List.mem_of_find?_eq_some hfind)

end Layout

end PcmTest.Theory
