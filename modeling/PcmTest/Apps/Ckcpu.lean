import PcmTest.Apps.Ckevent

/-!
# ckcpu

The host tool reads the saved state of a virtual CPU and prints its registers, the
control and debug registers and the MSRs. The state is packed, and the structure
it is read into is a local variable that nothing else fills.
-/

namespace PcmTest.Apps.Ckcpu

open Theory Ckevent

def pcmCpuMsrs : Record :=
  [⟨"msr_kernel_gs_base", 8⟩, ⟨"msr_effer", 8⟩]

def pcmCpuUserRegs : Record :=
  [⟨"r15", 8⟩, ⟨"r14", 8⟩, ⟨"r13", 8⟩, ⟨"r12", 8⟩, ⟨"rbp", 8⟩, ⟨"rbx", 8⟩, ⟨"r11", 8⟩, ⟨"r10", 8⟩,
    ⟨"r9", 8⟩, ⟨"r8", 8⟩, ⟨"rax", 8⟩, ⟨"rcx", 8⟩, ⟨"rdx", 8⟩, ⟨"rsi", 8⟩, ⟨"rdi", 8⟩, ⟨"rip", 8⟩,
    ⟨"cs", 2⟩, ⟨"_pad0", 3 * 2⟩, ⟨"cs_limit", 4⟩, ⟨"_pad1", 4⟩, ⟨"cs_flags", 4⟩, ⟨"_pad2", 4⟩,
    ⟨"cs_base", 8⟩, ⟨"rflags", 8⟩, ⟨"rsp", 8⟩, ⟨"ss", 2⟩, ⟨"_pad3", 3 * 2⟩, ⟨"ss_limit", 4⟩,
    ⟨"_pad4", 4⟩, ⟨"ss_flags", 4⟩, ⟨"_pad5", 4⟩, ⟨"ss_base", 8⟩, ⟨"es", 2⟩, ⟨"_pad6", 3 * 2⟩,
    ⟨"es_limit", 4⟩, ⟨"_pad7", 4⟩, ⟨"es_flags", 4⟩, ⟨"_pad8", 4⟩, ⟨"es_base", 8⟩, ⟨"ds", 2⟩,
    ⟨"_pad9", 3 * 2⟩, ⟨"ds_limit", 4⟩, ⟨"_pad10", 4⟩, ⟨"ds_flags", 4⟩, ⟨"_pad11", 4⟩,
    ⟨"ds_base", 8⟩, ⟨"fs", 2⟩, ⟨"_pad12", 3 * 2⟩, ⟨"fs_limit", 4⟩, ⟨"_pad13", 4⟩, ⟨"fs_flags", 4⟩,
    ⟨"_pad14", 4⟩, ⟨"fs_base", 8⟩, ⟨"gs", 2⟩, ⟨"_pad15", 3 * 2⟩, ⟨"gs_limit", 4⟩, ⟨"_pad16", 4⟩,
    ⟨"gs_flags", 4⟩, ⟨"_pad17", 4⟩, ⟨"gs_base", 8⟩]

def pcmCpuNonRegStates : Record :=
  [⟨"activity", 4⟩, ⟨"interruptibility", 4⟩, ⟨"pending_debug_exceptions", 8⟩,
    ⟨"vmx_preemption_time", 8⟩, ⟨"vmcs_link", 8⟩, ⟨"pdpte", 4 * 8⟩]

def pcmCpuSegRegs : Record :=
  [⟨"gdtr_base", 8⟩, ⟨"gdtr_limit", 4⟩, ⟨"_pad0", 4⟩, ⟨"idtr_base", 8⟩, ⟨"idtr_limit", 4⟩,
    ⟨"_pad1", 4⟩, ⟨"ldtr_base", 8⟩, ⟨"ldtr_limit", 4⟩, ⟨"ldtr_ss", 2⟩, ⟨"pad2", 2⟩, ⟨"tr_base", 8⟩,
    ⟨"tr_limit", 4⟩, ⟨"tr_ss", 2⟩, ⟨"pad3", 2⟩]

def pcmCpuCrRegs : Record :=
  [⟨"cr0", 8⟩, ⟨"cr2", 8⟩, ⟨"cr3", 8⟩, ⟨"cr4", 8⟩, ⟨"cr8", 8⟩, ⟨"xcr0", 8⟩]

def pcmCpuDrRegs : Record :=
  [⟨"dr0", 8⟩, ⟨"dr1", 8⟩, ⟨"dr2", 8⟩, ⟨"dr3", 8⟩, ⟨"dr6", 8⟩, ⟨"dr7", 8⟩]

def pcmCpuStates : Record :=
  nested "uregs" pcmCpuUserRegs ++
    nested "nregs" pcmCpuNonRegStates ++
    nested "sregs" pcmCpuSegRegs ++
    nested "crs" pcmCpuCrRegs ++
    nested "drs" pcmCpuDrRegs ++
    nested "msrs" pcmCpuMsrs ++
    [⟨"apic", 8⟩, ⟨"p_msrs", 8⟩, ⟨"pmu", 8⟩, ⟨"fpu", 8⟩, ⟨"platform_info", 8⟩, ⟨"eptp", 8⟩]

def prints : List (Print String) :=
  [.text "====pcm_cpu_user_regs====\n",
    .member "r15: %lu\n" "uregs.r15", .member "r14: %lu\n" "uregs.r14",
    .member "r13: %lu\n" "uregs.r13", .member "r12: %lu\n" "uregs.r12",
    .member "rbp: %lu\n" "uregs.rbp", .member "rbx: 0x%llx\n" "uregs.rbx",
    .member "r11: %lu\n" "uregs.r11", .member "r10: %lu\n" "uregs.r10",
    .member "r9: %lu\n" "uregs.r9", .member "r8: %lu\n" "uregs.r8",
    .member "rax: 0x%llx\n" "uregs.rax", .member "rcx: 0x%llx\n" "uregs.rcx",
    .member "rdx: 0x%llx\n" "uregs.rdx", .member "rsi: %lu\n" "uregs.rsi",
    .member "rdi: %lu\n" "uregs.rdi", .member "rip: %lu\n" "uregs.rip",
    .member "cs: %d\n" "uregs.cs", .member "cs_limit: %u\n" "uregs.cs_limit",
    .member "cs_flags: %u\n" "uregs.cs_flags", .member "cs_base: %lu\n" "uregs.cs_base",
    .member "ds: %d\n" "uregs.ds", .member "ds_limit: %u\n" "uregs.ds_limit",
    .member "ds_flags: %u\n" "uregs.ds_flags", .member "ds_base: %lu\n" "uregs.ds_base",
    .member "ss: %d\n" "uregs.ss", .member "ss_limit: %u\n" "uregs.ss_limit",
    .member "ss_flags: %u\n" "uregs.ss_flags", .member "ss_base: %lu\n" "uregs.ss_base",
    .member "es: %d\n" "uregs.es", .member "es_limit: %u\n" "uregs.es_limit",
    .member "es_flags: %u\n" "uregs.es_flags", .member "es_base: %lu\n" "uregs.es_base",
    .member "fs: %d\n" "uregs.fs", .member "fs_limit: %u\n" "uregs.fs_limit",
    .member "fs_flags: %u\n" "uregs.fs_flags", .member "fs_base: %lu\n" "uregs.fs_base",
    .member "gs: %d\n" "uregs.gs", .member "gs_limit: %u\n" "uregs.gs_limit",
    .member "gs_flags: %u\n" "uregs.gs_flags", .member "gs_base: %lu\n" "uregs.gs_base",
    .member "rflags: %lu\n" "uregs.rflags", .member "rsp: %lu\n" "uregs.rsp",
    .text "====pcm_cpu_cr_regs====\n",
    .member "cr0: %lu\n" "crs.cr0", .member "cr2: %lu\n" "crs.cr2", .member "cr3: %lu\n" "crs.cr3",
    .member "cr4: %lu\n" "crs.cr4", .member "cr8: %lu\n" "crs.cr8",
    .member "xcr0: %lu\n" "crs.xcr0",
    .text "====pcm_cpu_dr_regs====\n",
    .member "dr0: %lu\n" "drs.dr0", .member "dr1: %lu\n" "drs.dr1", .member "dr2: %lu\n" "drs.dr2",
    .member "dr3: %lu\n" "drs.dr3", .member "dr6: %lu\n" "drs.dr6", .member "dr7: %lu\n" "drs.dr7",
    .text "====pcm_cpu_msrs====\n",
    .member "msr_kernel_gs_base: %lu\n" "msrs.msr_kernel_gs_base",
    .member "msr_effer: %lu\n" "msrs.msr_effer"]

/-- The local variable keeps what the stack had there until the read. -/
def main (p1 : Object (sizeof Field.size pcmCpuStates)) (file : List (BitVec 8)) :
    List (Printed String) :=
  let p1 := (p1.fread file).2
  dump Field.name Field.size pcmCpuStates p1.toList 0 prints

theorem prints_fit :
    ∀ print ∈ prints, print.Fits Field.name Field.size pcmCpuStates Conversion.limit := by
  decide +kernel

theorem extent_eq : extent Field.name Field.size pcmCpuStates prints = 576 := by decide +kernel

end PcmTest.Apps.Ckcpu
