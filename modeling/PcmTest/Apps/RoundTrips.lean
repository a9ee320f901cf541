import PcmTest.Apps.Agreement
import PcmTest.Apps.ShortFiles

/-!
# The host tools on whole records

Read back from the bytes of a packed record, the fields that a tool prints are those
that went in, as far as the conversions of `printf` show them. Two files that reach
the end of the last printed field give the same output exactly when they agree on all
of the fields that are printed: what lies in between or behind does not count.

So a test goes through the two tools and comes out as it was logged: what `pcmtest`
made the driver run is printed by `ckevent` under the same name, field by field.
-/

namespace PcmTest.Apps

open Theory CString Ckevent Driver FocusTest

namespace Tool

/-- No printed field has more bits than its conversion, the count of `ck_mmio` included. -/
theorem printfs_bits (tool : Tool) :
    ∀ print ∈ tool.printfs, print.Fits Field.name Field.size tool.layout (2 ^ ·.bits) := by
  by_cases hmmio : tool = .ckevent .mmio
  · subst hmmio
    decide +kernel
  · intro print hprint
    exact (tool.printfs_fit hmmio print hprint).mono Conversion.limit_le

theorem printed_pos (tool : Tool) (format : String) (k : String)
    (hk : .member format k ∈ tool.printfs) : 0 < widthof Field.name Field.size tool.layout k :=
  (tool.printfs_bits _ hk).1

/-- Values that the fields of the record can hold. -/
structure Contents (tool : Tool) where
  value : String → ℕ
  fits : ∀ field ∈ tool.layout, value field.name < 256 ^ field.size

def Contents.bytes {tool : Tool} (contents : tool.Contents) : List (BitVec 8) :=
  encode Field.name Field.size tool.layout contents.value

/-- A tool prints the record that its file starts with. -/
theorem run_bytes (tool : Tool) (contents : tool.Contents) (memory : Object tool.allocated)
    (rest : List (BitVec 8)) :
    tool.run memory (contents.bytes ++ rest) = tool.printfs.map (Print.run contents.value) := by
  obtain ⟨object, hrun⟩ := run_dump tool memory (contents.bytes ++ rest)
  rw [hrun]
  exact dump_encode object (layout_fits tool) tool.printed_pos contents.value contents.fits rest

/-- Two long enough files are told apart by the printed fields, and by nothing else. -/
theorem run_eq_iff (tool : Tool) (memory memory' : Object tool.allocated)
    {file file' : List (BitVec 8)} (h : tool.needs ≤ file.length)
    (h' : tool.needs ≤ file'.length) :
    tool.run memory file = tool.run memory' file' ↔
      ∀ format k, .member format k ∈ tool.printfs →
        load Field.name Field.size tool.layout file 0 k =
          load Field.name Field.size tool.layout file' 0 k := by
  obtain ⟨object, hrun⟩ := run_dump tool memory file
  obtain ⟨object', hrun'⟩ := run_dump tool memory' file'
  rw [← extent_eq] at h h'
  rw [hrun, hrun', dump_fread object (layout_fits tool) h,
    dump_fread object' (layout_fits tool) h']
  apply map_run_eq_iff
  intro format k hk
  obtain ⟨-, c, hc, hwidth⟩ := tool.printfs_bits _ hk
  exact ⟨c, hc, (load_lt file 0 k).trans_le hwidth, (load_lt file' 0 k).trans_le hwidth⟩

/-- The header of a log record, and what follows its last field, do not show. -/
theorem run_eq_iff_header :
    (Tool.ckevent .mmio).run (Vector.replicate _ 0) (List.replicate 40 0) =
      (Tool.ckevent .mmio).run (Vector.replicate _ 1)
        (List.replicate 36 0xFF ++ List.replicate 5 0) := by
  refine (run_eq_iff (.ckevent .mmio) _ _ (by decide) (by decide)).mpr ?_
  intro format k hk
  have hcount : format = "mmio_ins rep=%d\n" ∧ k = "rep_num" := by
    simpa [Tool.printfs, Event.decoder, Decoder.printfs, ckMmio] using hk
  obtain ⟨-, rfl⟩ := hcount
  decide +kernel

end Tool

namespace Ckevent

/-- What a run of `ckevent` prints; the help has no text, and other names no arm. -/
def output (malloc : (n : ℕ) → Object n) (opts : List Opt) (file : List (BitVec 8)) :
    List (Printed String) :=
  match main opts with
  | .ran (some ⟨_, some d⟩) => d.run (malloc d.allocated) file
  | _ => []

theorem output_t (malloc : (n : ℕ) → Object n) (args : List CString) (file : List (BitVec 8))
    {arm : Arm (Option Decoder)} {d : Decoder} (harm : armOf arms (lastName args) = some arm)
    (hbody : arm.body = some d) :
    output malloc (args.map .t) file = d.run (malloc d.allocated) file := by
  obtain ⟨name, body⟩ := arm
  subst hbody
  rw [output, main_t, harm]

/-- Each arm with a body decodes the log of an event. -/
theorem arms_event {arm : Arm (Option Decoder)} (harm : arm ∈ arms) {d : Decoder}
    (hbody : arm.body = some d) : ∃ event : Event, d = event.decoder := by
  have hall : ∀ arm ∈ arms, ∀ d ∈ arm.body,
      d ∈ [Event.cpuid, .rdpmc, .rdseed, .rdtsc, .rdtscp, .mmio].map Event.decoder := by decide
  obtain ⟨event, -, hevent⟩ := List.mem_map.mp (hall arm harm d hbody)
  exact ⟨event, hevent.symm⟩

/-- A decoder prints each field of its record once, in their order. -/
theorem prints_fields (event : Event) :
    event.decoder.prints.map Prod.snd = event.decoder.record.map Field.name := by
  cases event <;> decide

end Ckevent

/-- The test that the driver ran for `pcmtest -t s` is printed by `ckevent -t s`, for the names on
which the tools agree: the decoder is that of the test's record, and it prints each field of the
logged record with its value. -/
theorem recorded_printed {s : CString} (hs : s ∈ agreed) {fd : ℤ} {arg : U64} {tr : SysTrace}
    {r : Option ℤ} (hrun : (guest fd arg [.t s]).Runs tr r) {t : Test} (ht : t ∈ recorded tr) :
    ∃ event : Event, recordOf t = some event.decoder.record ∧
      event.decoder.prints.map Prod.snd = event.decoder.record.map Field.name ∧
      ∀ (contents : (Tool.ckevent event).Contents) malloc rest,
        output malloc [.t s] (contents.bytes ++ rest) =
          event.decoder.printfs.map (Print.run contents.value) := by
  have htest : t ∈ requested (insIoc s) := by
    rcases recorded_guest hrun with hnil | htest
    · rw [hnil] at ht
      cases ht
    · rw [htest] at ht
      exact Option.mem_toList.mp ht
  obtain ⟨hsome, hdecodes⟩ := (matches_iff s).mpr hs t htest
  obtain ⟨record, hrecord⟩ := Option.ne_none_iff_exists'.mp hsome
  rw [hrecord, decodes_t] at hdecodes
  obtain ⟨arm, harm, hbody⟩ := Option.bind_eq_some_iff.mp hdecodes
  obtain ⟨d, hd, rfl⟩ := Option.map_eq_some_iff.mp hbody
  obtain ⟨hmem, -⟩ := (armOf_eq_some_iff arms_distinct).mp harm
  obtain ⟨event, rfl⟩ := arms_event hmem hd
  refine ⟨event, hrecord, prints_fields event, ?_⟩
  intro contents malloc rest
  have houtput := output_t malloc [s] (contents.bytes ++ rest) harm hd
  rw [List.map_singleton] at houtput
  rw [houtput]
  exact Tool.run_bytes (.ckevent event) contents _ rest

theorem recorded_printed_rdtsc : ∃ tr r, (guest 0 0 [.t (ofString "rdtsc")]).Runs tr r ∧
    ∃ event : Event, recordOf .rdtsc = some event.decoder.record ∧
      event.decoder.prints.map Prod.snd = event.decoder.record.map Field.name ∧
      ∀ (contents : (Tool.ckevent event).Contents) malloc rest,
        output malloc [.t (ofString "rdtsc")] (contents.bytes ++ rest) =
          event.decoder.printfs.map (Print.run contents.value) := by
  obtain ⟨tr, r, hrun, hrecorded⟩ := exists_recorded (ofString "rdtsc")
  have hcode : requested (insIoc (ofString "rdtsc")) = some .rdtsc := by decide +kernel
  rw [hcode] at hrecorded
  refine ⟨tr, r, hrun, recorded_printed (by decide) hrun ?_⟩
  rw [hrecorded]
  exact List.mem_singleton.mpr rfl

end PcmTest.Apps
