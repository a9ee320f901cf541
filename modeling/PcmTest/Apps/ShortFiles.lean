import PcmTest.Apps.Ckcpu

/-!
# The host tools on short files

Neither tool looks at what `fread` reports. On a file that ends before the last
field they print, the decoders of `ckevent` print zeros of their buffer, and `ckcpu`
prints what was on its stack.
-/

namespace PcmTest.Apps

open Theory Ckevent

/-- The decoders that read a file. -/
inductive Event where
  | cpuid
  | rdpmc
  | rdseed
  | rdtsc
  | rdtscp
  | mmio
  deriving DecidableEq, Repr

def Event.decoder : Event → Decoder
  | cpuid => ckCpuid
  | rdpmc => ckRdpmc
  | rdseed => ckRdseed
  | rdtsc => ckRdtsc
  | rdtscp => ckRdtscp
  | mmio => ckMmio

inductive Tool where
  | ckcpu
  | ckevent (event : Event)
  deriving DecidableEq, Repr

namespace Tool

def layout : Tool → Record
  | ckcpu => Ckcpu.pcmCpuStates
  | ckevent event => event.decoder.layout

def printfs : Tool → List (Print String)
  | ckcpu => Ckcpu.prints
  | ckevent event => event.decoder.printfs

/-- The size of the object that the file is read into. -/
def allocated : Tool → ℕ
  | ckcpu => sizeof Field.size Ckcpu.pcmCpuStates
  | ckevent event => event.decoder.allocated

def run : (tool : Tool) → Object tool.allocated → List (BitVec 8) → List (Printed String)
  | ckcpu => Ckcpu.main
  | ckevent event => event.decoder.run

/-- What was in memory does not show, and what is printed for a field is the integer that the file
has in its place. -/
def Meets (tool : Tool) (file : List (BitVec 8)) : Prop :=
  (∀ memory memory', tool.run memory file = tool.run memory' file) ∧
    ∀ memory, ∀ line ∈ tool.run memory file, line.FoundIn Field.name Field.size tool.layout file

/-- The end of the last field that is printed. -/
def needs : Tool → ℕ
  | ckcpu => 576
  | ckevent .cpuid => 60
  | ckevent .rdpmc | ckevent .rdseed | ckevent .rdtsc => 44
  | ckevent .rdtscp => 52
  | ckevent .mmio => 40

theorem extent_eq (tool : Tool) :
    extent Field.name Field.size tool.layout tool.printfs = tool.needs := by
  cases tool with
  | ckcpu => exact Ckcpu.extent_eq
  | ckevent event => cases event <;> decide +kernel

/-- No field of a record has a name of the header. -/
theorem names_apart (event : Event) :
    ∀ p ∈ event.decoder.prints, p.2 ∉ eventLog.map Field.name := by
  cases event <;> decide +kernel

/-- Every run prints fields of an object after one read. -/
theorem run_dump (tool : Tool) (memory : Object tool.allocated) (file : List (BitVec 8)) :
    ∃ object : Object tool.allocated, tool.run memory file =
      dump Field.name Field.size tool.layout (object.fread file).2.toList 0 tool.printfs := by
  cases tool with
  | ckcpu => exact ⟨memory, rfl⟩
  | ckevent event =>
    exact ⟨memory.memset 0 event.decoder.allocated,
      event.decoder.run_eq (names_apart event) memory file⟩

theorem layout_fits (tool : Tool) : sizeof Field.size tool.layout ≤ tool.allocated := by
  cases tool with
  | ckcpu => exact le_rfl
  | ckevent event => exact (sizeof_append eventLog event.decoder.record).le

/-- Only the count of `ck_mmio` has values that its conversion shows as negative. -/
theorem printfs_fit (tool : Tool) (h : tool ≠ .ckevent .mmio) :
    ∀ print ∈ tool.printfs, print.Fits Field.name Field.size tool.layout Conversion.limit := by
  cases tool with
  | ckcpu => exact Ckcpu.prints_fit
  | ckevent event =>
    cases event with
    | mmio => exact absurd rfl h
    | _ => decide +kernel

theorem mmio_found_iff {file : List (BitVec 8)} {n : ℕ} (object : Object n)
    (hfits : sizeof Field.size ckMmio.layout ≤ n) :
    (∀ line ∈ dump Field.name Field.size ckMmio.layout (object.fread file).2.toList 0
        ckMmio.printfs, line.FoundIn Field.name Field.size ckMmio.layout file) ↔
      40 ≤ file.length ∧ littleEndian (slice file 36 4) < 2 ^ 31 := by
  have hmember : ∀ format k, Print.member format k ∈ ckMmio.printfs ↔
      format = "mmio_ins rep=%d\n" ∧ k = "rep_num" := by
    intro format k
    simp [Decoder.printfs, ckMmio]
  have hend : endof Field.name Field.size ckMmio.layout "rep_num" = 40 := by decide +kernel
  have hload : load Field.name Field.size ckMmio.layout file 0 "rep_num" =
      littleEndian (slice file 36 4) := by
    have hoffset : offsetof Field.name Field.size ckMmio.layout "rep_num" = 36 := by decide +kernel
    have hwidth : widthof Field.name Field.size ckMmio.layout "rep_num" = 4 := by decide +kernel
    rw [load, hoffset, hwidth]
  have hformat : Conversion.ofFormat "mmio_ins rep=%d\n".toList = some .d := by decide +kernel
  rw [dump_found_iff object hfits]
  constructor
  · intro h
    obtain ⟨hlen, c, hc, hlt⟩ := h _ _ ((hmember _ _).mpr ⟨rfl, rfl⟩)
    rw [hformat, Option.some.injEq] at hc
    subst hc
    rw [hend] at hlen
    rw [hload] at hlt
    exact ⟨hlen, hlt⟩
  · rintro ⟨hlen, hlt⟩ format k hk
    obtain ⟨rfl, rfl⟩ := (hmember format k).mp hk
    exact ⟨hend.trans_le hlen, .d, hformat, hload.trans_lt hlt⟩

/-- What is printed is found in the file when the file has all of each field, and a count that
`%d` shows as it is. -/
theorem found_iff (tool : Tool) (memory : Object tool.allocated) (file : List (BitVec 8)) :
    (∀ line ∈ tool.run memory file, line.FoundIn Field.name Field.size tool.layout file) ↔
      tool.needs ≤ file.length ∧
        (tool = .ckevent .mmio → littleEndian (slice file 36 4) < 2 ^ 31) := by
  obtain ⟨object, hrun⟩ := run_dump tool memory file
  rw [hrun]
  by_cases hmmio : tool = .ckevent .mmio
  · subst hmmio
    refine (mmio_found_iff object (layout_fits (.ckevent .mmio))).trans ?_
    exact and_congr_right fun _ => (imp_iff_right rfl).symm
  · rw [dump_found_iff_extent object (layout_fits tool) (printfs_fit tool hmmio), extent_eq]
    simp [hmmio]

-- A file of 40 bytes has the low half of the time stamp, and a count that is negative to `%d`.
example : (Tool.ckevent .rdtsc).run (Vector.replicate _ 0) (List.replicate 40 0xFF) =
    [.value "rdtsc tsc=%llx\n" "tsc" (some 0xFFFFFFFF)] := by decide +kernel

example : (Tool.ckevent .mmio).run (Vector.replicate _ 0) (List.replicate 40 0xFF) =
    [.value "mmio_ins rep=%d\n" "rep_num" (some (-1))] := by decide +kernel

theorem ckcpu_same_iff (file : List (BitVec 8)) :
    (∀ p1 p1', Ckcpu.main p1 file = Ckcpu.main p1' file) ↔ 576 ≤ file.length := by
  rw [← Ckcpu.extent_eq]
  exact dump_same_iff le_rfl fun print hprint =>
    (Ckcpu.prints_fit print hprint).mono Conversion.limit_le

/-- Nothing that was in memory shows, unless `ckcpu` reads a file that ends before its last
printed register. -/
theorem same_iff (tool : Tool) (file : List (BitVec 8)) :
    (∀ memory memory', tool.run memory file = tool.run memory' file) ↔
      (tool = .ckcpu → tool.needs ≤ file.length) := by
  cases tool with
  | ckcpu => exact (ckcpu_same_iff file).trans (imp_iff_right rfl).symm
  | ckevent event =>
    constructor
    · intro _ h
      cases h
    · intro _ memory memory'
      exact event.decoder.run_same memory memory' file

/-- A tool prints what its file has exactly when the file reaches the end of the last printed
field and, for `ck_mmio`, the count is not negative to `%d`. -/
theorem meets_iff (tool : Tool) (file : List (BitVec 8)) :
    tool.Meets file ↔ tool.needs ≤ file.length ∧
      (tool = .ckevent .mmio → littleEndian (slice file 36 4) < 2 ^ 31) := by
  constructor
  · rintro ⟨-, hfound⟩
    exact (found_iff tool (Vector.replicate _ 0) file).mp (hfound _)
  · intro h
    exact ⟨(same_iff tool file).mpr fun _ => h.1, fun memory => (found_iff tool memory file).mpr h⟩

/-- On an empty file `ckcpu` shows its stack; on 40 bytes `ck_rdtsc` shows half a time stamp. -/
theorem not_meets_short :
    ¬ Tool.ckcpu.Meets [] ∧ ¬ (Tool.ckevent .rdtsc).Meets (List.replicate 40 0xFF) := by
  constructor
  · rintro ⟨hsame, -⟩
    exact absurd ((ckcpu_same_iff []).mp hsame) (by decide)
  · rintro ⟨-, hfound⟩
    have hlen := ((found_iff _ (Vector.replicate _ 0) _).mp (hfound _)).1
    rw [List.length_replicate] at hlen
    exact absurd hlen (by decide)

end Tool

end PcmTest.Apps
