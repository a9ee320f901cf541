import PcmTest.Theory.CString
import PcmTest.Theory.Dump

/-!
# ckevent

The host tool reads the name of an instruction from its options and runs the
decoder of that instruction's log record. A decoder is a record behind the common
header and the fields of it that are printed: it clears a buffer, reads the file
into it and prints them.
-/

namespace PcmTest.Apps

open Theory CString

/-- What `getopt` returns for `ht:`. -/
inductive Opt where
  | t (optarg : CString)
  | h
  | unknown
  deriving DecidableEq

def buffSize : ℕ := 10

/-- `char type[BUFFSIZE] = "cpuid"`. -/
def initialType : List (BitVec 8) := padded buffSize (ofString "cpuid").bytes

/-- The argument of the last `-t`. -/
def lastName (args : List CString) : CString := args.getLastD (ofString "cpuid")

namespace Ckevent

/-- A member of a packed structure, with its size in bytes. -/
structure Field where
  name : String
  size : ℕ
  deriving DecidableEq, Repr

abbrev Record := List Field

def eventLogCpuidRead : Record :=
  [⟨"in_eax", 4⟩, ⟨"in_ecx", 4⟩, ⟨"out_eax", 4⟩, ⟨"out_ebx", 4⟩, ⟨"out_ecx", 4⟩, ⟨"out_edx", 4⟩]

def eventLogRdtsc : Record := [⟨"tsc", 8⟩]

def eventLogRdtscp : Record := [⟨"tsc", 8⟩, ⟨"tsc_aux", 8⟩]

def eventLogRdpmc : Record := [⟨"pmc", 8⟩]

def eventLogRdseed : Record := [⟨"value", 8⟩]

def eventLogPioIns : Record := [⟨"rep_num", 4⟩]

def eventLogMmioIns : Record := [⟨"rep_num", 4⟩]

/-- The members of a structure inside of another one. -/
def nested (name : String) (record : Record) : Record :=
  record.map fun f => ⟨name ++ "." ++ f.name, f.size⟩

def execPos : Record := [⟨"num_branches", 4⟩, ⟨"eip", 8⟩, ⟨"ecx", 8⟩]

/-- The header; `log_data` is an array of no elements. -/
def eventLog : Record :=
  [⟨"next_addr", 8⟩, ⟨"log_type", 4⟩, ⟨"etype", 4⟩] ++ nested "pos" execPos ++ [⟨"log_data", 0⟩]

/-- A decoder: the record it takes the log for, and each print's format and field. -/
structure Decoder where
  record : Record
  prints : List (String × String)
  deriving DecidableEq, Repr

def ckCpuid : Decoder where
  record := eventLogCpuidRead
  prints := [("in_eax=%llx\n", "in_eax"), ("in_ecx=%llx\n", "in_ecx"),
    ("out_eax=%llx\n", "out_eax"), ("out_ebx=%llx\n", "out_ebx"), ("out_ecx=%llx\n", "out_ecx"),
    ("out_edx=%llx\n", "out_edx")]

def ckRdpmc : Decoder := ⟨eventLogRdpmc, [("rdpmc value=%llx\n", "pmc")]⟩

def ckRdseed : Decoder := ⟨eventLogRdseed, [("rdseed value=%llx\n", "value")]⟩

def ckRdtsc : Decoder := ⟨eventLogRdtsc, [("rdtsc tsc=%llx\n", "tsc")]⟩

def ckRdtscp : Decoder :=
  ⟨eventLogRdtscp, [("rdtscp tsc=%llx\n", "tsc"), ("rdtscp tsc_aux=%llx\n", "tsc_aux")]⟩

def ckMmio : Decoder := ⟨eventLogMmioIns, [("mmio_ins rep=%d\n", "rep_num")]⟩

namespace Decoder

variable (d : Decoder)

def printfs : List (Print String) := d.prints.map fun p => .member p.1 p.2

/-- What a file is for the decoder. -/
def layout : Record := eventLog ++ d.record

/-- The bytes that are allocated. -/
def allocated : ℕ := sizeof Field.size eventLog + sizeof Field.size d.record

/-- A decoder on what `malloc` left in the buffer; the count of `fread` is not looked at. -/
def run (eventT : Object d.allocated) (file : List (BitVec 8)) : List (Printed String) :=
  let eventT := eventT.memset 0 d.allocated
  let eventT := (eventT.fread file).2
  dump Field.name Field.size d.record eventT.toList
    (offsetof Field.name Field.size eventLog "log_data") d.printfs

/-- The buffer is read at the places that the fields have in the file. -/
theorem run_eq (hnames : ∀ p ∈ d.prints, p.2 ∉ eventLog.map Field.name)
    (eventT : Object d.allocated) (file : List (BitVec 8)) :
    d.run eventT file = dump Field.name Field.size d.layout
      ((eventT.memset 0 d.allocated).fread file).2.toList 0 d.printfs := by
  apply List.map_congr_left
  intro print hprint
  obtain ⟨p, hp, rfl⟩ := List.mem_map.mp hprint
  have hheader : offsetof Field.name Field.size eventLog "log_data" =
      sizeof Field.size eventLog := by decide
  rw [Print.run, Print.run, load, load, layout, offsetof_append (hnames p hp),
    widthof_append (hnames p hp), hheader, Nat.zero_add]

/-- What `malloc` left does not show. -/
theorem run_same (eventT eventT' : Object d.allocated) (file : List (BitVec 8)) :
    d.run eventT file = d.run eventT' file := by
  rw [run, run, Object.memset_full eventT eventT']

end Decoder

/-- The arms of the chain; the body of `ck_pio` is empty. -/
def arms : List (Arm (Option Decoder)) :=
  [⟨ofString "cpuid", some ckCpuid⟩, ⟨ofString "rdpmc", some ckRdpmc⟩,
    ⟨ofString "rdrand", some ckRdseed⟩, ⟨ofString "rdseed", some ckRdseed⟩,
    ⟨ofString "rdtsc", some ckRdtsc⟩, ⟨ofString "rdtscp", some ckRdtscp⟩,
    ⟨ofString "pio", none⟩, ⟨ofString "mmio", some ckMmio⟩]

/-- The option loop; `none` is the return of `-h`. -/
def readOptions : List Opt → List (BitVec 8) → Option (List (BitVec 8))
  | [], type => some type
  | .t optarg :: opts, type => readOptions opts (strncpy buffSize optarg type)
  | .h :: _, _ => none
  | .unknown :: opts, type => readOptions opts type

/-- How a run ends: after the help, in a read outside of `type`, or after an arm or none. -/
inductive Outcome where
  | help
  | outOfBounds
  | ran (arm : Option (Arm (Option Decoder)))

def main (opts : List Opt) : Outcome :=
  match readOptions opts initialType with
  | none => .help
  | some type =>
    match select type arms with
    | none => .outOfBounds
    | some arm => .ran arm

theorem readOptions_t (args : List CString) (s : CString) :
    readOptions (args.map .t) (padded buffSize s.bytes) =
      some (padded buffSize (args.getLastD s).bytes) := by
  induction args generalizing s with
  | nil => rfl
  | cons arg args ih =>
    rw [List.map_cons, readOptions, strncpy_full (length_padded _ _), ih, List.getLastD_cons]

theorem arms_short : ∀ arm ∈ arms, arm.name.bytes.length < buffSize := by decide

theorem arms_distinct : (arms.map Arm.name).Nodup := by decide

/-- The last argument alone decides. -/
theorem main_t (args : List CString) : main (args.map .t) = .ran (armOf arms (lastName args)) := by
  rw [main, initialType, readOptions_t]
  dsimp only
  rw [select_padded arms_short]
  rfl

end Ckevent

end PcmTest.Apps
