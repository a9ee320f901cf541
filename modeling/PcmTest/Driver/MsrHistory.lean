import PcmTest.Driver.Window
import PcmTest.Ioapic.Calls

/-!
# The MSRs after a history of calls

No test of the pcm-unit driver puts an MSR back. After any calls on a processor whose
MSRs take every write, a register holds what the last test that writes it has left
there, and no later call of another test moves it: the rows of `msr_info` their values,
`MSR_EFER` a status for its contents, and the APIC base its x2APIC bit.
-/

namespace PcmTest.Driver

open Theory PcmUnit

section Written

/-- The MSRs after writes that all succeed. -/
def written (ws : List (U32 × U64)) (m : U32 → U64) : U32 → U64 :=
  ws.foldl (fun m w => Function.update m w.1 w.2) m

theorem written_append (ws₁ ws₂ : List (U32 × U64)) (m : U32 → U64) :
    written (ws₁ ++ ws₂) m = written ws₂ (written ws₁ m) := List.foldl_append

theorem written_of_notMem {ws : List (U32 × U64)} {i : U32} (h : i ∉ ws.map Prod.fst)
    (m : U32 → U64) : written ws m i = m i := by
  induction ws generalizing m with
  | nil => rfl
  | cons w ws ih =>
    rw [List.map_cons, List.mem_cons, not_or] at h
    change written ws (Function.update m w.1 w.2) i = m i
    rw [ih h.2, Function.update_of_ne h.1]

/-- Of writes to distinct registers each one is still there at the end. -/
theorem written_of_mem {ws : List (U32 × U64)} (hdistinct : (ws.map Prod.fst).Nodup)
    {w : U32 × U64} (hw : w ∈ ws) (m : U32 → U64) : written ws m w.1 = w.2 := by
  induction ws generalizing m with
  | nil => cases hw
  | cons v ws ih =>
    rw [List.map_cons, List.nodup_cons] at hdistinct
    change written ws (Function.update m v.1 v.2) w.1 = w.2
    rcases List.mem_cons.mp hw with rfl | hw
    · rw [written_of_notMem hdistinct.1, Function.update_self]
    · exact ih hdistinct.2 hw _

/-- What a command writes; `wrmsr` takes the two halves of the word. -/
def msrWrite : Prog.Event WindowCmd WindowCmd.Answer → Option (U32 × U64)
  | ⟨.cpu (.wrmsr index value), _⟩ => some (index, value)
  | ⟨.ioapic (.wrmsr index a d), _⟩ => some (index, d ++ a)
  | _ => none

def msrWrites (tr : WindowTrace) : List (U32 × U64) := tr.filterMap msrWrite

theorem msrWrites_append (tr₁ tr₂ : WindowTrace) :
    msrWrites (tr₁ ++ tr₂) = msrWrites tr₁ ++ msrWrites tr₂ := List.filterMap_append

end Written

section Left

/-- The registers of `test_syscall_lazy_load`. -/
def lazyMsrs : Arch → List U32
  | .i386 => []
  | .x86_64 _ => [msrEfer, msrLstar, msrStar]

def msrKvmWallClockNew : U32 := 0x4b564d00
def msrKvmSystemTimeNew : U32 := 0x4b564d01

/-- The registers that a test can move: a write of the time stamp counter also moves its offset,
`test_kvm_clock` writes those of the KVM clock, and the accesses of `test_ioapic` to the local
APIC are writes of its own MSRs when the kernel is in x2APIC mode. -/
def Touches (arch : Arch) : Test → U32 → Prop
  | .tsc, i => i ∈ [msrIa32Tsc, ia32TscAdjust, msrTscAux]
  | .setjmp, _ => False
  | .msr, i => i ∈ (msrInfo arch).map MsrRwInfo.index ++ lazyMsrs arch
  | .kvmClock, i => i ∈ [msrKvmWallClockNew, msrKvmSystemTimeNew]
  | .ioapic, i => i = Ioapic.msrIa32Apicbase ∨ 0x800 ≤ i ∧ i < 0x900
  | .tscAdjust, i => i ∈ [ia32TscAdjust, msrIa32Tsc]

instance (arch : Arch) : (t : Test) → (i : U32) → Decidable (Touches arch t i)
  | .tsc, _ => inferInstanceAs (Decidable (_ ∈ _))
  | .setjmp, _ => inferInstanceAs (Decidable False)
  | .msr, _ => inferInstanceAs (Decidable (_ ∈ _))
  | .kvmClock, _ => inferInstanceAs (Decidable (_ ∈ _))
  | .ioapic, _ => inferInstanceAs (Decidable (_ ∨ _))
  | .tscAdjust, _ => inferInstanceAs (Decidable (_ ∈ _))

/-- The registers of the lazy loading test, from answers that the trace has. -/
structure LazyLoaded (syscallTarget : U64) (tr : WindowTrace) (m : U32 → U64) : Prop where
  efer : ∃ answer : U32 × U64, ⟨.cpu (.rdmsr msrEfer), answer⟩ ∈ tr ∧
    m msrEfer = (answer.1 ||| eferSce).signExtend 64
  star : ∃ cs : BitVec 16, ⟨.cpu .readCs, cs⟩ ∈ tr ∧ m msrStar = cs.setWidth 64
  lstar : m msrLstar = syscallTarget

/-- The MSRs after the tests `ran`, when they held `m` before. -/
structure MsrsLeft (arch : Arch) (tr : WindowTrace) (ran : List Test) (m m' : U32 → U64) :
    Prop where
  kept : ∀ i, (∀ t ∈ ran, ¬ Touches arch t i) → m' i = m i
  tsc : .tsc ∈ ran → m' msrTscAux = 0x100
  table : .msr ∈ ran → ∀ info ∈ msrInfo arch, info.index ∉ lazyMsrs arch →
    m' info.index = info.value
  lazyLoad : .msr ∈ ran → ∀ target, arch = .x86_64 target → LazyLoaded target tr m'
  apicbase : m' Ioapic.msrIa32Apicbase = m Ioapic.msrIa32Apicbase ∨
    ∃ a d : U32, ⟨.ioapic (.rdmsr Ioapic.msrIa32Apicbase), (a, d)⟩ ∈ tr ∧
      m' Ioapic.msrIa32Apicbase = d ++ (a ||| (1 : U32) <<< 10)

/-- The address of `syscall_target` has no part in which registers a test touches. -/
theorem exists_build (arch : Arch) : ∃ build ∈ [Arch.i386, .x86_64 0],
    ∀ t i, Touches arch t i ↔ Touches build t i := by
  cases arch with
  | i386 => exact ⟨.i386, by simp, fun _ _ => Iff.rfl⟩
  | x86_64 target =>
    refine ⟨.x86_64 0, by simp, fun t i => ?_⟩
    cases t <;> exact Iff.rfl

def allTests : List Test := [.tsc, .setjmp, .msr, .kvmClock, .ioapic, .tscAdjust]

theorem mem_allTests (t : Test) : t ∈ allTests := by cases t <;> decide

/-- No other test touches the registers of `test_msr`. -/
theorem untouched_of_ne {arch : Arch} {t : Test} (ht : t ≠ .msr) {i : U32}
    (hi : Touches arch .msr i) : ¬ Touches arch t i := by
  have hall : ∀ build ∈ [Arch.i386, .x86_64 0], ∀ t ∈ allTests, t ≠ .msr →
      ((msrInfo build).map MsrRwInfo.index ++ lazyMsrs build).all
        (fun i => ¬ Touches build t i) = true := by
    decide +kernel
  obtain ⟨build, hbuild, htouches⟩ := exists_build arch
  rw [htouches] at hi ⊢
  exact of_decide_eq_true (List.all_eq_true.mp (hall build hbuild t (mem_allTests t) ht) i hi)

/-- Two more registers have one test that touches them. -/
theorem untouched_of_owner {arch : Arch} {owner t : Test} {i : U32}
    (howner : (owner, i) ∈ [(Test.tsc, msrTscAux), (.ioapic, Ioapic.msrIa32Apicbase)])
    (ht : t ≠ owner) : ¬ Touches arch t i := by
  have hall : ∀ build ∈ [Arch.i386, .x86_64 0], ∀ t ∈ allTests,
      ∀ own ∈ [(Test.tsc, msrTscAux), (.ioapic, Ioapic.msrIa32Apicbase)],
        t ≠ own.1 → ¬ Touches build t own.2 := by
    decide +kernel
  obtain ⟨build, hbuild, htouches⟩ := exists_build arch
  rw [htouches]
  exact hall build hbuild t (mem_allTests t) (owner, i) howner ht

theorem aux_untouched {arch : Arch} {t : Test} (ht : t ≠ .tsc) :
    ¬ Touches arch t msrTscAux := untouched_of_owner (.head _) ht

theorem base_untouched {arch : Arch} {t : Test} (ht : t ≠ .ioapic) :
    ¬ Touches arch t Ioapic.msrIa32Apicbase := untouched_of_owner (.tail _ (.head _)) ht

variable {arch : Arch} {tr tr' : WindowTrace} {ran ran' : List Test} {m m' m'' : U32 → U64}

theorem LazyLoaded.congr {target : U64} (h : LazyLoaded target tr m)
    (hm : ∀ i ∈ [msrEfer, msrLstar, msrStar], m' i = m i) (htr : tr ⊆ tr') :
    LazyLoaded target tr' m' := by
  obtain ⟨⟨answer, hanswer, hefer⟩, ⟨cs, hcs, hstar⟩, hlstar⟩ := h
  constructor
  · exact ⟨answer, htr hanswer, (hm msrEfer (by simp)).trans hefer⟩
  · exact ⟨cs, htr hcs, (hm msrStar (by simp)).trans hstar⟩
  · exact (hm msrLstar (by simp)).trans hlstar

theorem MsrsLeft.mono (h : MsrsLeft arch tr ran m m') (htr : tr ⊆ tr') :
    MsrsLeft arch tr' ran m m' := by
  refine ⟨h.kept, h.tsc, h.table, ?_, h.apicbase.imp id ?_⟩
  · intro hran target harch
    exact (h.lazyLoad hran target harch).congr (fun _ _ => rfl) htr
  · rintro ⟨a, d, hmem, hbase⟩
    exact ⟨a, d, htr hmem, hbase⟩

theorem msrsLeft_refl (arch : Arch) (tr : WindowTrace) (m : U32 → U64) :
    MsrsLeft arch tr [] m m := by
  constructor
  · exact fun _ _ => rfl
  · intro h
    cases h
  · intro h
    cases h
  · intro h
    cases h
  · exact .inl rfl

/-- What the first tests have left is there until one of the later ones writes it again. -/
theorem MsrsLeft.trans (h : MsrsLeft arch tr ran m m') (h' : MsrsLeft arch tr ran' m' m'') :
    MsrsLeft arch tr (ran ++ ran') m m'' := by
  have hmsr : .msr ∉ ran' → ∀ i, Touches arch .msr i → m'' i = m' i := by
    intro hran i hi
    refine h'.kept i fun t ht => untouched_of_ne ?_ hi
    rintro rfl
    exact hran ht
  constructor
  · intro i hi
    rw [h'.kept i fun t ht => hi t (by simp [ht]), h.kept i fun t ht => hi t (by simp [ht])]
  · intro hran
    by_cases hlast : .tsc ∈ ran'
    · exact h'.tsc hlast
    · have hkept : m'' msrTscAux = m' msrTscAux := by
        refine h'.kept _ fun t ht => aux_untouched ?_
        rintro rfl
        exact hlast ht
      rw [hkept]
      exact h.tsc ((List.mem_append.mp hran).resolve_right hlast)
  · intro hran info hinfo hlazy
    by_cases hlast : .msr ∈ ran'
    · exact h'.table hlast info hinfo hlazy
    · have htouch : Touches arch .msr info.index :=
        List.mem_append_left _ (List.mem_map_of_mem hinfo)
      rw [hmsr hlast _ htouch]
      exact h.table ((List.mem_append.mp hran).resolve_right hlast) info hinfo hlazy
  · intro hran target harch
    by_cases hlast : .msr ∈ ran'
    · exact h'.lazyLoad hlast target harch
    · refine (h.lazyLoad ((List.mem_append.mp hran).resolve_right hlast) target harch).congr ?_
        fun _ he => he
      intro i hi
      subst harch
      exact hmsr hlast i (List.mem_append_right _ hi)
  · rcases h'.apicbase with hbase | hbase
    · rw [hbase]
      exact h.apicbase
    · exact .inr hbase

end Left

section Bodies

def cpuEvent (e : Prog.Event CpuCmd CpuCmd.Answer) : Prog.Event WindowCmd WindowCmd.Answer :=
  ⟨.cpu e.1, e.2⟩

def ioapicEvent (e : Prog.Event Ioapic.Cmd Ioapic.Cmd.Answer) :
    Prog.Event WindowCmd WindowCmd.Answer :=
  ⟨.ioapic e.1, e.2⟩

theorem runs_cpu {p : CpuProg Unit} {tr : WindowTrace} (h : (p.expand cpuCall).Runs tr ()) :
    ∃ tr₀, p.Runs tr₀ () ∧ tr = tr₀.map cpuEvent := by
  obtain ⟨tr₀, hrun, hexp⟩ := Prog.runs_expand h
  exact ⟨tr₀, hrun, hexp.eq_map fun _ _ _ hcall => Prog.runs_call hcall⟩

theorem runs_ioapic {p : Ioapic.IoapicProg Unit} {tr : WindowTrace}
    (h : (p.expand ioapicCall).Runs tr ()) :
    ∃ tr₀, p.Runs tr₀ () ∧ tr = tr₀.map ioapicEvent := by
  obtain ⟨tr₀, hrun, hexp⟩ := Prog.runs_expand h
  exact ⟨tr₀, hrun, hexp.eq_map fun _ _ _ hcall => Prog.runs_call hcall⟩

/-- The MSR writes of a program of the processor's commands. -/
abbrev CpuWrites {α : Type} (ws : List (U32 × U64)) (p : CpuProg α) : Prop :=
  p.Picks (fun e => msrWrite (cpuEvent e)) ws

theorem cpuWrites_call {c : CpuCmd} (hc : ∀ x, msrWrite (cpuEvent ⟨c, x⟩) = none) :
    CpuWrites [] (Prog.call c : CpuProg c.Answer) := Prog.picks_of_uses (Prog.uses_call.mpr hc)

theorem cpuWrites_wrmsr (index : U32) (value : U64) :
    CpuWrites [(index, value)] (wrmsr index value) := Prog.picks_call fun _ => rfl

theorem cpuWrites_testWrtsc (t1 : U64) : CpuWrites [(msrIa32Tsc, t1)] (testWrtsc t1) :=
  Prog.picks_bind (cpuWrites_wrmsr _ _) fun _ =>
    Prog.picks_bind (cpuWrites_call fun _ => rfl) fun _ => Prog.picks_pure _

theorem cpuWrites_testRdtscp (aux : U64) : CpuWrites [(msrTscAux, aux)] (testRdtscp aux) :=
  Prog.picks_bind (cpuWrites_wrmsr _ _) fun _ =>
    Prog.picks_bind (cpuWrites_call fun _ => rfl) fun _ => Prog.picks_pure _

def tscWrites : List (U32 × U64) :=
  [(msrIa32Tsc, 0), (msrIa32Tsc, 100000000000), (msrTscAux, 0), (msrTscAux, 10),
    (msrTscAux, 0x100)]

theorem cpuWrites_testTsc : CpuWrites tscWrites testTsc :=
  Prog.picks_bind (cpuWrites_call fun _ => rfl) fun _ =>
    Prog.picks_bind (cpuWrites_call fun _ => rfl) fun _ =>
      Prog.picks_bind (cpuWrites_testWrtsc 0) fun _ =>
        Prog.picks_bind (cpuWrites_testWrtsc _) fun _ =>
          Prog.picks_bind (cpuWrites_testRdtscp 0) fun _ =>
            Prog.picks_bind (cpuWrites_testRdtscp 10) fun _ => cpuWrites_testRdtscp 0x100

theorem cpuWrites_setjmpRounds (left : ℕ) : CpuWrites [] (setjmpRounds left) := by
  induction left with
  | zero => exact Prog.picks_pure ()
  | succ left ih =>
    rw [setjmpRounds]
    split_ifs
    · exact Prog.picks_bind (cpuWrites_call fun _ => rfl) fun _ => ih
    · exact Prog.picks_pure ()

theorem cpuWrites_testSetjmp : CpuWrites [] testSetjmp :=
  Prog.picks_bind (cpuWrites_call fun _ => rfl) fun _ => cpuWrites_setjmpRounds 10

def adjustWrites : List (U32 × U64) :=
  [(ia32TscAdjust, 100000000000), (ia32TscAdjust, 0), (msrIa32Tsc, 100000000000)]

/-- The adjust test writes only where the processor has the feature. -/
theorem writes_testTscAdjust {tr : List (Prog.Event CpuCmd CpuCmd.Answer)}
    (h : testTscAdjust.Runs tr ()) :
    tr.filterMap (fun e => msrWrite (cpuEvent e)) = [] ∨
      tr.filterMap (fun e => msrWrite (cpuEvent e)) = adjustWrites := by
  obtain ⟨(ebx : U32), tr', rfl, hrest⟩ := Prog.runs_op.mp h
  change Prog.Runs (if ebx &&& (1 : U32) <<< 1 ≠ 0 then _ else _) tr' () at hrest
  have hread : ∀ index, CpuWrites [] (rdmsr index) := fun _ => cpuWrites_call fun _ => rfl
  have hrdtsc : CpuWrites [] rdtsc := cpuWrites_call fun _ => rfl
  split_ifs at hrest with hfeature
  · right
    exact (Prog.picks_bind (hread _) fun _ => Prog.picks_bind hrdtsc fun _ =>
      Prog.picks_bind (cpuWrites_wrmsr _ _) fun _ => Prog.picks_bind hrdtsc fun _ =>
      Prog.picks_bind (hread _) fun _ => Prog.picks_bind (cpuWrites_wrmsr _ _) fun _ =>
      Prog.picks_bind (hread _) fun _ => Prog.picks_bind hrdtsc fun _ =>
      Prog.picks_bind (cpuWrites_wrmsr _ _) fun _ => Prog.picks_bind hrdtsc fun _ =>
      Prog.picks_bind (hread _) fun _ => Prog.picks_pure _) tr' () hrest
  · left
    have hnothing : CpuWrites [] (Prog.pure () : CpuProg Unit) := Prog.picks_pure ()
    exact hnothing tr' () hrest

/-- A row's lookup finds its own row. -/
theorem cpuWrites_testMsrRw {arch : Arch} {info : MsrRwInfo} (hinfo : info ∈ msrInfo arch) :
    CpuWrites [(info.index, info.value)] (testMsrRw arch info.index info.value) := by
  rw [testMsrRw]
  cases hfind : findMsrInfo arch info.index with
  | none =>
    have hnone := List.findIdx?_eq_none_iff.mp hfind info hinfo
    simp at hnone
  | some k =>
    exact Prog.picks_bind (cpuWrites_wrmsr _ _) fun _ =>
      Prog.picks_bind (cpuWrites_call fun _ => rfl) fun _ => Prog.picks_pure _

def tableWrites (arch : Arch) : List (U32 × U64) :=
  (msrInfo arch).map fun info => (info.index, info.value)

theorem cpuWrites_table (arch : Arch) : CpuWrites (tableWrites arch)
    (Prog.forEach (fun info => testMsrRw arch info.index info.value) (msrInfo arch)) := by
  rw [tableWrites, List.map_eq_flatMap]
  exact Prog.picks_forEach fun info hinfo => cpuWrites_testMsrRw hinfo

/-- The writes of the lazy loading test, with the answers that they are made of. -/
def lazyWrites (target : U64) (answer : U32 × U64) (cs : BitVec 16) : List (U32 × U64) :=
  [(msrEfer, (answer.1 ||| eferSce).signExtend 64), (msrLstar, target),
    (msrStar, cs.setWidth 64)]

theorem writes_lazyLoad {target : U64} {tr : List (Prog.Event CpuCmd CpuCmd.Answer)}
    (h : (testSyscallLazyLoad (.x86_64 target)).Runs tr ()) :
    ∃ (answer : U32 × U64) (cs : BitVec 16), ⟨.rdmsr msrEfer, answer⟩ ∈ tr ∧
      ⟨.readCs, cs⟩ ∈ tr ∧
      tr.filterMap (fun e => msrWrite (cpuEvent e)) = lazyWrites target answer cs := by
  obtain ⟨(cs : BitVec 16), tr₁, rfl, h₁⟩ := Prog.runs_op.mp h
  obtain ⟨(ss : BitVec 16), tr₂, rfl, h₂⟩ := Prog.runs_op.mp h₁
  obtain ⟨(answer : U32 × U64), tr₃, rfl, h₃⟩ := Prog.runs_op.mp h₂
  have hwrites : tr₃.filterMap (fun e => msrWrite (cpuEvent e)) = lazyWrites target answer cs :=
    (Prog.picks_bind (cpuWrites_wrmsr _ _) fun _ =>
      Prog.picks_bind (cpuWrites_wrmsr _ _) fun _ =>
      Prog.picks_bind (cpuWrites_wrmsr _ _) fun _ =>
      Prog.picks_bind (cpuWrites_call fun _ => rfl) fun _ =>
      Prog.picks_bind (cpuWrites_call fun _ => rfl) fun _ =>
      Prog.picks_bind (cpuWrites_call fun _ => rfl) fun _ =>
      cpuWrites_call (c := .writeSs ss) fun _ => rfl) tr₃ () h₃
  exact ⟨answer, cs, by simp, by simp, hwrites⟩

end Bodies

section Ioapic

open Ioapic

/-- The write of an MSR that a note is of. -/
def noteWrite : Note → Option (U32 × U64)
  | .wrmsr index a d => some (index, d ++ a)
  | _ => none

theorem writes_eq_notes (tr : List (Prog.Event Ioapic.Cmd Ioapic.Cmd.Answer)) :
    tr.filterMap (fun e => msrWrite (ioapicEvent e)) = (notes tr).filterMap noteWrite := by
  rw [notes, List.filterMap_filterMap]
  refine List.filterMap_congr fun e _ => ?_
  obtain ⟨c, x⟩ := e
  cases c <;> rfl

theorem writes_installNotes (l : List Isr) : (installNotes l).filterMap noteWrite = [] := by
  rw [installNotes, List.filterMap_map]
  exact List.filterMap_eq_nil_iff.mpr fun _ _ => rfl

/-- The APIC base is written back with its x2APIC bit, or nothing is written. -/
theorem writes_testIoapic {tr : List (Prog.Event Ioapic.Cmd Ioapic.Cmd.Answer)}
    (h : testIoapic.Runs tr ()) :
    tr.filterMap (fun e => msrWrite (ioapicEvent e)) = [] ∨
      ∃ a d : U32, ⟨.rdmsr msrIa32Apicbase, ((a, d) : U32 × U32)⟩ ∈ tr ∧
        tr.filterMap (fun e => msrWrite (ioapicEvent e)) =
          [(msrIa32Apicbase, d ++ (a ||| (1 : U32) <<< 10))] := by
  obtain ⟨switch, ncpus, hswitch, hnotes⟩ := notes_testIoapic h
  have hwrites : tr.filterMap (fun e => msrWrite (ioapicEvent e)) = switch.filterMap noteWrite := by
    have honline : ∀ l, (Note.online ncpus :: l).filterMap noteWrite = l.filterMap noteWrite :=
      fun _ => rfl
    rw [writes_eq_notes, hnotes, List.filterMap_append, List.filterMap_append, honline,
      writes_installNotes, writes_installNotes, List.append_nil, List.append_nil]
  rw [hwrites]
  rcases hswitch with rfl | ⟨a, d, hread, rfl⟩
  · exact .inl rfl
  · exact .inr ⟨a, d, hread, rfl⟩

end Ioapic

section History

variable {arch : Arch} {part tr : WindowTrace} (m : U32 → U64)

/-- A test that writes only what it touches. -/
theorem written_kept {t : Test} {ws : List (U32 × U64)}
    (hws : ∀ i ∈ ws.map Prod.fst, Touches arch t i) {i : U32} (hi : ¬ Touches arch t i) :
    written ws m i = m i := written_of_notMem (fun hmem => hi (hws i hmem)) m

/-- The tests of which nothing but the touched registers is known. -/
theorem msrsLeft_other {t : Test} (htsc : t ≠ .tsc) (hmsr : t ≠ .msr) (hioapic : t ≠ .ioapic)
    {ws : List (U32 × U64)} (hws : ∀ i ∈ ws.map Prod.fst, Touches arch t i) :
    MsrsLeft arch part [t] m (written ws m) := by
  constructor
  · exact fun i hi => written_kept m hws (hi t (by simp))
  · exact fun h => absurd (List.mem_singleton.mp h).symm htsc
  · exact fun h => absurd (List.mem_singleton.mp h).symm hmsr
  · exact fun h => absurd (List.mem_singleton.mp h).symm hmsr
  · exact .inl (written_kept m hws (base_untouched hioapic))

theorem msrWrites_cpu (tr : List (Prog.Event CpuCmd CpuCmd.Answer)) :
    msrWrites (tr.map cpuEvent) = tr.filterMap fun e => msrWrite (cpuEvent e) :=
  List.filterMap_map

theorem msrWrites_ioapic (tr : List (Prog.Event Ioapic.Cmd Ioapic.Cmd.Answer)) :
    msrWrites (tr.map ioapicEvent) = tr.filterMap fun e => msrWrite (ioapicEvent e) :=
  List.filterMap_map

theorem msrsLeft_tsc (h : (testBody arch .tsc).Runs part ()) :
    MsrsLeft arch part [.tsc] m (written (msrWrites part) m) := by
  obtain ⟨tr, hrun, rfl⟩ := runs_cpu h
  have hws := cpuWrites_testTsc tr () hrun
  rw [msrWrites_cpu, hws]
  have htouch : ∀ i ∈ tscWrites.map Prod.fst, Touches arch .tsc i := by
    intro i hi
    change i ∈ [msrIa32Tsc, ia32TscAdjust, msrTscAux]
    simp only [tscWrites, List.map_cons, List.map_nil, List.mem_cons] at hi ⊢
    tauto
  have hioapic : Test.tsc ≠ .ioapic := by decide
  constructor
  · exact fun i hi => written_kept m htouch (hi .tsc (by simp))
  · intro _
    exact Function.update_self msrTscAux 0x100 (written tscWrites.dropLast m)
  · intro hmem
    cases List.mem_singleton.mp hmem
  · intro hmem
    cases List.mem_singleton.mp hmem
  · exact .inl (written_kept m htouch (base_untouched hioapic))

theorem msrInfo_distinct (arch : Arch) : ((msrInfo arch).map MsrRwInfo.index).Nodup := by
  cases arch with
  | i386 => decide
  | x86_64 target =>
    exact (by decide : ((msrInfo (.x86_64 0)).map MsrRwInfo.index).Nodup)

/-- The table first, and then what the lazy loading test writes. -/
theorem writes_testMsr {tr : List (Prog.Event CpuCmd CpuCmd.Answer)}
    (h : (testMsr arch).Runs tr ()) :
    ∃ ws, tr.filterMap (fun e => msrWrite (cpuEvent e)) = tableWrites arch ++ ws ∧
      ws.map Prod.fst = lazyMsrs arch ∧
      ∀ target, arch = .x86_64 target → ∃ (answer : U32 × U64) (cs : BitVec 16),
        ⟨.rdmsr msrEfer, answer⟩ ∈ tr ∧ ⟨.readCs, cs⟩ ∈ tr ∧ ws = lazyWrites target answer cs := by
  obtain ⟨tr₁, _, tr₂, rfl, h₁, h₂⟩ := Prog.runs_bind.mp h
  rw [List.filterMap_append, cpuWrites_table arch _ _ h₁]
  cases arch with
  | i386 =>
    obtain ⟨rfl, -⟩ := Prog.runs_pure.mp h₂
    refine ⟨[], rfl, rfl, ?_⟩
    intro target harch
    cases harch
  | x86_64 syscallTarget =>
    obtain ⟨answer, cs, hanswer, hcs, hws⟩ := writes_lazyLoad h₂
    refine ⟨_, rfl, ?_, ?_⟩
    · rw [hws]
      rfl
    · rintro target harch
      obtain rfl := Arch.x86_64.inj harch
      exact ⟨answer, cs, List.mem_append_right _ hanswer, List.mem_append_right _ hcs, hws⟩

theorem msrsLeft_msr (h : (testBody arch .msr).Runs part ()) :
    MsrsLeft arch part [.msr] m (written (msrWrites part) m) := by
  obtain ⟨tr, hrun, rfl⟩ := runs_cpu h
  obtain ⟨ws, hwrites, hlazy, hloaded⟩ := writes_testMsr hrun
  rw [msrWrites_cpu, hwrites]
  have hindex : (tableWrites arch).map Prod.fst = (msrInfo arch).map MsrRwInfo.index := by
    rw [tableWrites, List.map_map]
    rfl
  have htouch : ∀ i ∈ (tableWrites arch ++ ws).map Prod.fst, Touches arch .msr i := by
    intro i hi
    rwa [List.map_append, hindex, hlazy] at hi
  have hioapic : Test.msr ≠ .ioapic := by decide
  constructor
  · exact fun i hi => written_kept m htouch (hi .msr (by simp))
  · intro hmem
    cases List.mem_singleton.mp hmem
  · intro _ info hinfo hnot
    have hdistinct := msrInfo_distinct arch
    rw [← hlazy] at hnot
    rw [← hindex] at hdistinct
    have hmem : (info.index, info.value) ∈ tableWrites arch := List.mem_map.mpr ⟨info, hinfo, rfl⟩
    rw [written_append, written_of_notMem hnot]
    exact written_of_mem hdistinct hmem m
  · intro _ target harch
    obtain ⟨answer, cs, hanswer, hcs, rfl⟩ := hloaded target harch
    rw [written_append]
    have hdistinct : ((lazyWrites target answer cs).map Prod.fst).Nodup :=
      (by decide : [msrEfer, msrLstar, msrStar].Nodup)
    have hlast : ∀ w ∈ lazyWrites target answer cs,
        written (lazyWrites target answer cs) (written (tableWrites arch) m) w.1 = w.2 :=
      fun w hw => written_of_mem hdistinct hw _
    constructor
    · exact ⟨answer, List.mem_map_of_mem (f := cpuEvent) hanswer,
        hlast _ (.head _)⟩
    · exact ⟨cs, List.mem_map_of_mem (f := cpuEvent) hcs,
        hlast _ (.tail _ (.tail _ (.head _)))⟩
    · exact hlast _ (.tail _ (.head _))
  · exact .inl (written_kept m htouch (base_untouched hioapic))

theorem msrsLeft_ioapic (h : (testBody arch .ioapic).Runs part ()) :
    MsrsLeft arch part [.ioapic] m (written (msrWrites part) m) := by
  obtain ⟨tr, hrun, rfl⟩ := runs_ioapic h
  have hwrites := writes_testIoapic hrun
  rw [msrWrites_ioapic]
  constructor
  · intro i hi
    have hne : i ≠ Ioapic.msrIa32Apicbase := fun he => hi .ioapic (by simp) (.inl he)
    rcases hwrites with hnone | ⟨a, d, -, hbase⟩
    · rw [hnone]
      rfl
    · rw [hbase]
      exact Function.update_of_ne hne _ _
  · intro hmem
    cases List.mem_singleton.mp hmem
  · intro hmem
    cases List.mem_singleton.mp hmem
  · intro hmem
    cases List.mem_singleton.mp hmem
  · rcases hwrites with hnone | ⟨a, d, hmem, hbase⟩
    · rw [hnone]
      exact .inl rfl
    · rw [hbase]
      exact .inr ⟨a, d, List.mem_map_of_mem (f := ioapicEvent) hmem,
        Function.update_self Ioapic.msrIa32Apicbase _ m⟩

/-- What one test leaves in the MSRs. -/
theorem msrsLeft_body {t : Test} (h : (testBody arch t).Runs part ()) :
    MsrsLeft arch part [t] m (written (msrWrites part) m) := by
  cases t with
  | tsc => exact msrsLeft_tsc m h
  | msr => exact msrsLeft_msr m h
  | ioapic => exact msrsLeft_ioapic m h
  | setjmp =>
    obtain ⟨tr, hrun, rfl⟩ := runs_cpu h
    have hws := cpuWrites_testSetjmp tr () hrun
    rw [msrWrites_cpu, hws]
    exact msrsLeft_other m (by decide) (by decide) (by decide) (by simp)
  | kvmClock =>
    obtain ⟨on, rfl⟩ := runs_kvmClock h
    have hnothing : MsrsLeft arch [⟨.kvmClock, on⟩] [.kvmClock] m (written [] m) :=
      msrsLeft_other m (by decide) (by decide) (by decide) (by simp)
    exact hnothing
  | tscAdjust =>
    obtain ⟨tr, hrun, rfl⟩ := runs_cpu h
    rw [msrWrites_cpu]
    rcases writes_testTscAdjust hrun with hws | hws
    · rw [hws]
      exact msrsLeft_other m (by decide) (by decide) (by decide) (by simp)
    · rw [hws]
      refine msrsLeft_other m (by decide) (by decide) (by decide) ?_
      intro i hi
      change i ∈ [ia32TscAdjust, msrIa32Tsc]
      simp only [adjustWrites, List.map_cons, List.map_nil, List.mem_cons] at hi ⊢
      tauto

/-- The tests of a trace of the driver, one after the other. -/
theorem msrsLeft_expands {tr₀ : IoctlTrace Test}
    (hexp : Prog.Expands (entryCmd arch) tr₀ tr) :
    MsrsLeft arch tr (testsRun tr₀) m (written (msrWrites tr) m) := by
  induction hexp generalizing m with
  | nil => exact msrsLeft_refl arch [] m
  | @cons c x part tr₁ tr₂ hpart hrest ih =>
    have hone : MsrsLeft arch part (testsRun [⟨c, x⟩]) m (written (msrWrites part) m) := by
      cases c with
      | test t => exact msrsLeft_body m hpart
      | _ =>
        rw [Prog.runs_call hpart]
        exact msrsLeft_refl arch _ m
    have htests : testsRun (⟨c, x⟩ :: tr₁) = testsRun [⟨c, x⟩] ++ testsRun tr₁ :=
      testsRun_append [⟨c, x⟩] tr₁
    rw [htests, msrWrites_append, written_append]
    exact (hone.mono (List.subset_append_left part tr₂)).trans
      ((ih _).mono (List.subset_append_right part tr₂))

/-- Calls of the driver with its test bodies in place, all on one processor. -/
def ioctlsFull (arch : Arch) (calls : List IoctlCall) : WindowProg (List ℤ) :=
  (ioctls pcmCdevIoctl calls).expand (entryCmd arch)

/-- After any sequence of calls the MSRs are what the tests of their command words have left, and
all others are as they were. -/
theorem ioctls_msrs {calls : List IoctlCall} {results : List ℤ}
    (hrun : (ioctlsFull arch calls).Runs tr results) :
    MsrsLeft arch tr (calls.flatMap fun call => switchTests call.cmd arms) m
      (written (msrWrites tr) m) := by
  obtain ⟨tr₀, hcalls, hexp⟩ := Prog.runs_expand hrun
  obtain ⟨rounds, rfl, -, rfl, hrounds⟩ := Prog.runs_forEach hcalls
  rw [← testsRun_rounds codesOk_arms rounds fun x hx => callTrace_of_runs (hrounds x hx)]
  exact msrsLeft_expands m hexp

/-- `MSR_RW` and then `KVMCLOCK_TEST`, which falls through into two more tests. -/
theorem ioctls_msrs_kvmclock : ∃ tr results,
    (ioctlsFull .i386 [⟨msrRw, 0⟩, ⟨kvmclockTest, 0⟩]).Runs tr results ∧
      MsrsLeft .i386 tr [.msr, .kvmClock, .ioapic, .tscAdjust] (fun _ => 0)
        (written (msrWrites tr) fun _ => 0) := by
  obtain ⟨tr, results, hrun⟩ := (ioctlsFull .i386 [⟨msrRw, 0⟩, ⟨kvmclockTest, 0⟩]).exists_runs
  exact ⟨tr, results, hrun, ioctls_msrs (fun _ => 0) hrun⟩

end History

end PcmTest.Driver
