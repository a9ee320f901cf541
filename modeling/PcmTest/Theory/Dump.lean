import PcmTest.Theory.PackedFile
import Mathlib.Data.List.MinMax

/-!
# Printing the members of a record

A program reads one record from a file and prints members of it, whatever `fread`
reported. What it prints is found in the file when the file reaches the end of the
last printed member and no integer is too large for its conversion. Up to there,
and no further, the output does not depend on what was in memory before.
-/

namespace PcmTest.Theory

/-- An integer conversion of `printf`. -/
inductive Conversion where
  | d
  | u
  | lu
  | llx
  deriving DecidableEq, Repr

namespace Conversion

def letters : Conversion → List Char
  | d => ['d']
  | u => ['u']
  | lu => ['l', 'u']
  | llx => ['l', 'l', 'x']

/-- The conversion of a format with one argument. -/
def ofFormat : List Char → Option Conversion
  | [] => none
  | '%' :: rest => [d, u, lu, llx].find? fun c => c.letters.isPrefixOf rest
  | _ :: rest => ofFormat rest

/-- The width of the argument in bits. -/
def bits : Conversion → ℕ
  | d | u => 32
  | lu | llx => 64

/-- The integer whose numeral is printed. The argument is the low bits of a value; a narrower
value comes with clear bits above it. -/
def integer (c : Conversion) (x : ℕ) : ℤ :=
  match c with
  | d => (BitVec.ofNat d.bits x).toInt
  | u | lu | llx => (BitVec.ofNat c.bits x).toNat

/-- The values below this one are printed as they are. -/
def limit : Conversion → ℕ
  | d => 2 ^ 31
  | u => 2 ^ 32
  | lu | llx => 2 ^ 64

theorem limit_le (c : Conversion) : c.limit ≤ 2 ^ c.bits := by cases c <;> decide

theorem integer_eq_iff {c : Conversion} {x : ℕ} : c.integer x = x ↔ x < c.limit := by
  cases c with
  | d =>
    rw [integer, BitVec.toInt_eq_toNat_cond, BitVec.toNat_ofNat, limit, bits]
    split <;> omega
  | _ =>
    simp only [integer, BitVec.toNat_ofNat, limit, bits]
    omega

theorem integer_inj {c : Conversion} {x y : ℕ} (hx : x < 2 ^ c.bits) (hy : y < 2 ^ c.bits) :
    c.integer x = c.integer y ↔ x = y := by
  constructor
  · intro h
    have harg : BitVec.ofNat c.bits x = BitVec.ofNat c.bits y := by
      cases c with
      | d => exact BitVec.toInt_inj.mp h
      | _ => exact BitVec.eq_of_toNat_eq (Int.ofNat_inj.mp h)
    have hnat := congrArg BitVec.toNat harg
    rwa [BitVec.toNat_ofNat, BitVec.toNat_ofNat, Nat.mod_eq_of_lt hx, Nat.mod_eq_of_lt hy] at hnat
  · intro h
    rw [h]

end Conversion

/-- A call of `printf`: of a text, or with one member as its argument. -/
inductive Print (κ : Type) where
  | text (s : String)
  | member (format : String) (k : κ)
  deriving DecidableEq, Repr

/-- What a call printed; for a member, the integer that its conversion showed. -/
inductive Printed (κ : Type) where
  | text (s : String)
  | value (format : String) (k : κ) (x : Option ℤ)
  deriving DecidableEq, Repr

def Print.run {κ : Type} (value : κ → ℕ) : Print κ → Printed κ
  | text s => .text s
  | member format k =>
    .value format k ((Conversion.ofFormat format.toList).map (·.integer (value k)))

section Dump

variable {α κ : Type} [DecidableEq κ] (key : α → κ) (size : α → ℕ) (layout : List α)

/-- A member of the record at `base`. -/
def load (bytes : List (BitVec 8)) (base : ℕ) (k : κ) : ℕ :=
  littleEndian (slice bytes (base + offsetof key size layout k) (widthof key size layout k))

def dump (bytes : List (BitVec 8)) (base : ℕ) (prints : List (Print κ)) : List (Printed κ) :=
  prints.map (Print.run (load key size layout bytes base))

/-- The integer printed is that at the member's place in the file, and the file has all of it. -/
def Printed.FoundIn (file : List (BitVec 8)) : Printed κ → Prop
  | text _ => True
  | value _ k x =>
    endof key size layout k ≤ file.length ∧ x = some (load key size layout file 0 k : ℤ)

/-- Every value of the member is below the bound of its conversion. -/
def Print.Fits (bound : Conversion → ℕ) : Print κ → Prop
  | text _ => True
  | member format k => 0 < widthof key size layout k ∧
      ∃ c ∈ Conversion.ofFormat format.toList, 256 ^ widthof key size layout k ≤ bound c

instance Print.decidableFits (bound : Conversion → ℕ) :
    (print : Print κ) → Decidable (print.Fits key size layout bound)
  | text _ => inferInstanceAs (Decidable True)
  | member _ _ => inferInstanceAs (Decidable (_ ∧ _))

/-- The end of the last member that is printed. -/
def extent (prints : List (Print κ)) : ℕ :=
  (prints.map fun
    | .text _ => 0
    | .member _ k => endof key size layout k).foldr max 0

variable {key size layout} {prints : List (Print κ)}

theorem Print.Fits.mono {bound bound' : Conversion → ℕ} (hle : ∀ c, bound c ≤ bound' c) :
    {print : Print κ} → print.Fits key size layout bound → print.Fits key size layout bound'
  | text _, _ => trivial
  | member _ _, ⟨hpos, c, hc, hwidth⟩ => ⟨hpos, c, hc, hwidth.trans (hle c)⟩

theorem extent_le_iff {n : ℕ} : extent key size layout prints ≤ n ↔
    ∀ format k, .member format k ∈ prints → endof key size layout k ≤ n := by
  constructor
  · intro h format k hk
    exact (List.le_max_of_le (List.mem_map.mpr ⟨_, hk, rfl⟩) le_rfl).trans h
  · intro h
    apply List.max_le_of_forall_le
    intro x hx
    obtain ⟨print, hprint, rfl⟩ := List.mem_map.mp hx
    cases print with
    | text s => exact Nat.zero_le n
    | member format k => exact h format k hprint

theorem load_lt (bytes : List (BitVec 8)) (base : ℕ) (k : κ) :
    load key size layout bytes base k < 256 ^ widthof key size layout k := by
  apply (littleEndian_lt _).trans_le
  exact Nat.pow_le_pow_right (by decide) (List.length_take_le _ _)

/-- What a member of an encoded record loads as. -/
theorem load_encode (value : κ → ℕ) (rest : List (BitVec 8)) (k : κ) :
    load key size layout (encode key size layout value ++ rest) 0 k =
      value k % 256 ^ widthof key size layout k := by
  rw [load, Nat.zero_add, slice_encode, littleEndian_bytesOf]

section Read

variable {n : ℕ} {file : List (BitVec 8)}

theorem load_fread (object : Object n) (hfits : sizeof size layout ≤ n) {k : κ}
    (h : endof key size layout k ≤ file.length) :
    load key size layout (object.fread file).2.toList 0 k = load key size layout file 0 k := by
  have hend : endof key size layout k ≤ _ := endof_le_sizeof layout k
  rw [endof] at h hend
  rw [load, load, Object.slice_fread object (by omega) (by omega)]

/-- A member that the file cuts off differs between two memories that differ in every byte. -/
theorem load_fread_ne {object object' : Object n} (hfits : sizeof size layout ≤ n) {k : κ}
    (hpos : 0 < widthof key size layout k) (h : file.length < endof key size layout k)
    (hdiff : ∀ i (hi : i < n), object[i] ≠ object'[i]) :
    load key size layout (object.fread file).2.toList 0 k ≠
      load key size layout (object'.fread file).2.toList 0 k := by
  have hend : endof key size layout k ≤ _ := endof_le_sizeof layout k
  rw [endof] at h hend
  rw [load, load, Ne, littleEndian_inj]
  · exact Object.slice_fread_ne (by omega) hpos (by omega) hdiff
  · rw [length_slice, length_slice] <;> rw [Vector.length_toList] <;> omega

/-- What is printed is found in the file when the file has all of each printed member and none is
too large for its conversion. -/
theorem dump_found_iff (object : Object n) (hfits : sizeof size layout ≤ n) :
    (∀ line ∈ dump key size layout (object.fread file).2.toList 0 prints,
        line.FoundIn key size layout file) ↔
      ∀ format k, .member format k ∈ prints → endof key size layout k ≤ file.length ∧
        ∃ c, Conversion.ofFormat format.toList = some c ∧
          load key size layout file 0 k < c.limit := by
  constructor
  · intro h format k hk
    obtain ⟨hend, hx⟩ := h _ (List.mem_map.mpr ⟨_, hk, rfl⟩)
    obtain ⟨c, hc, hx⟩ := Option.map_eq_some_iff.mp hx
    rw [load_fread object hfits hend] at hx
    exact ⟨hend, c, hc, Conversion.integer_eq_iff.mp hx⟩
  · intro h line hline
    obtain ⟨print, hprint, rfl⟩ := List.mem_map.mp hline
    cases print with
    | text s => trivial
    | member format k =>
      obtain ⟨hend, c, hc, hlimit⟩ := h format k hprint
      refine ⟨hend, ?_⟩
      rw [load_fread object hfits hend, hc, Option.map_some,
        Conversion.integer_eq_iff.mpr hlimit]

theorem dump_found_iff_extent (object : Object n) (hfits : sizeof size layout ≤ n)
    (hlimit : ∀ print ∈ prints, print.Fits key size layout Conversion.limit) :
    (∀ line ∈ dump key size layout (object.fread file).2.toList 0 prints,
        line.FoundIn key size layout file) ↔
      extent key size layout prints ≤ file.length := by
  rw [dump_found_iff object hfits, extent_le_iff]
  constructor
  · intro h format k hk
    exact (h format k hk).1
  · intro h format k hk
    obtain ⟨-, c, hc, hwidth⟩ := hlimit _ hk
    exact ⟨h format k hk, c, hc, (load_lt file 0 k).trans_le hwidth⟩

/-- Where the file has all of each printed member, and only there, the memory before the read
does not show. -/
theorem dump_same_iff (hfits : sizeof size layout ≤ n)
    (hbits : ∀ print ∈ prints, print.Fits key size layout (2 ^ ·.bits)) :
    (∀ object object' : Object n,
        dump key size layout (object.fread file).2.toList 0 prints =
          dump key size layout (object'.fread file).2.toList 0 prints) ↔
      extent key size layout prints ≤ file.length := by
  rw [extent_le_iff]
  constructor
  · intro h format k hk
    by_contra hshort
    obtain ⟨hpos, c, hc, hwidth⟩ := hbits _ hk
    have hbound : ∀ bytes, load key size layout bytes 0 k < 2 ^ c.bits :=
      fun bytes => (load_lt bytes 0 k).trans_le hwidth
    have hline := List.map_inj_left.mp (h (Vector.replicate n 0) (Vector.replicate n 1)) _ hk
    simp only [Print.run, Option.mem_def.mp hc, Option.map_some, Printed.value.injEq,
      Option.some.injEq, Conversion.integer_inj (hbound _) (hbound _), true_and] at hline
    refine load_fread_ne hfits hpos (by omega) ?_ hline
    intro i hi
    simp
  · intro h object object'
    apply List.map_congr_left
    intro print hprint
    cases print with
    | text s => rfl
    | member format k =>
      have hend := h format k hprint
      rw [Print.run, Print.run, load_fread object hfits hend, load_fread object' hfits hend]

/-- The file is printed as its own members. -/
theorem dump_fread (object : Object n) (hfits : sizeof size layout ≤ n)
    (h : extent key size layout prints ≤ file.length) :
    dump key size layout (object.fread file).2.toList 0 prints =
      prints.map (Print.run (load key size layout file 0)) := by
  apply List.map_congr_left
  intro print hprint
  cases print with
  | text s => rfl
  | member format k =>
    rw [Print.run, Print.run, load_fread object hfits (extent_le_iff.mp h format k hprint)]

/-- An encoded record is printed as its values. -/
theorem dump_encode (object : Object n) (hfits : sizeof size layout ≤ n)
    (hprints : ∀ format k, .member format k ∈ prints → 0 < widthof key size layout k)
    (value : κ → ℕ) (hvalue : ∀ x ∈ layout, value (key x) < 256 ^ size x)
    (rest : List (BitVec 8)) :
    dump key size layout
        (object.fread (encode key size layout value ++ rest)).2.toList 0 prints =
      prints.map (Print.run value) := by
  have hextent : extent key size layout prints ≤
      (encode key size layout value ++ rest).length := by
    rw [List.length_append, length_encode]
    exact extent_le_iff.mpr fun _ k _ => (endof_le_sizeof layout k).trans (Nat.le_add_right _ _)
  rw [dump_fread object hfits hextent]
  apply List.map_congr_left
  intro print hprint
  cases print with
  | text s => rfl
  | member format k =>
    have hk := lt_pow_widthof hvalue (hprints format k hprint)
    rw [Print.run, Print.run, load_encode, Nat.mod_eq_of_lt hk]

end Read

omit [DecidableEq κ] in
/-- Two values of the members print the same exactly when they agree on all that is printed. -/
theorem map_run_eq_iff {value value' : κ → ℕ}
    (hprints : ∀ format k, .member format k ∈ prints →
      ∃ c ∈ Conversion.ofFormat format.toList,
        value k < 2 ^ c.bits ∧ value' k < 2 ^ c.bits) :
    prints.map (Print.run value) = prints.map (Print.run value') ↔
      ∀ format k, .member format k ∈ prints → value k = value' k := by
  rw [List.map_inj_left]
  constructor
  · intro h format k hk
    obtain ⟨c, hc, hlt, hlt'⟩ := hprints format k hk
    have hline := h _ hk
    simpa only [Print.run, Option.mem_def.mp hc, Option.map_some, Printed.value.injEq,
      Option.some.injEq, Conversion.integer_inj hlt hlt', true_and] using hline
  · intro h print hprint
    cases print with
    | text s => rfl
    | member format k => rw [Print.run, Print.run, h format k hprint]

end Dump

end PcmTest.Theory
