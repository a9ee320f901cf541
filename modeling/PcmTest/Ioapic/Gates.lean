import PcmTest.Ioapic.Calls
import PcmTest.Ioapic.Suite
import PcmTest.Ioapic.Thunk

/-!
# The gates behind the interrupts

Each call of `handle_irq_local` takes a new area from `vmalloc` and none is freed.
Whatever is written elsewhere, the gate of a vector leads to the thunk of its last
call, and the older thunks stay where they are. So the table of handlers that the
machine looks up is what a processor finds in memory.
-/

namespace PcmTest.Ioapic

open Theory MachineCode Driver.X64

/-- A call of `handle_irq_local`, with what `vmalloc` returned to it. -/
structure Install where
  vec : ℕ
  isr : Isr
  thunk : U64
  deriving DecidableEq, Repr

namespace Image

/-- The table of gates. -/
def InTable (image : Image) (q : U64) : Prop := Within image.bootIdt (16 * 256) q

/-- The area of a call. -/
def InArea (i : Install) (q : U64) : Prop := Within i.thunk thunkSize q

variable (image : Image) (handlers : Isr → U64) (before : Memory 64)

/-- The memory after calls, the last one first. `vmalloc` returns memory that nobody else has, and
other code writes neither to the table nor to the areas. -/
inductive Installed : List Install → Memory 64 → Prop
  | start : Installed [] before
  | install {is : List Install} {m : Memory 64} (h : Installed is m) (i : Install)
      (hvec : i.vec < 256) (hfresh : Apart i.thunk thunkSize image.bootIdt (16 * 256))
      (hown : ∀ j ∈ is, Apart i.thunk thunkSize j.thunk thunkSize) :
      Installed (i :: is) (image.handleIrqLocal i.vec (handlers i.isr) i.thunk m)
  | elsewhere {is : List Install} {m m' : Memory 64} (h : Installed is m)
      (htable : ∀ q, image.InTable q → m' q = m q)
      (hareas : ∀ i ∈ is, ∀ q, InArea i q → m' q = m q) : Installed is m'

/-- The call that a gate goes back to. -/
def lastInstall (is : List Install) (vec : ℕ) : Option Install := is.find? (·.vec = vec)

/-- What the table and the areas hold. -/
structure Wired (is : List Install) (m : Memory 64) : Prop where
  gate : ∀ vec < 256, ∀ i, lastInstall is vec = some i →
    decodeGate (m.load 128 (image.gateAddr vec)) = ⟨i.thunk, image.cs, 0, 14, 0, 1⟩
  kept : ∀ vec < 256, lastInstall is vec = none →
    m.load 128 (image.gateAddr vec) = before.load 128 (image.gateAddr vec)
  code : ∀ i ∈ is, Holds m i.thunk (image.thunkCode (handlers i.isr) i.thunk)
  apart : ∀ i ∈ is, Apart i.thunk thunkSize image.bootIdt (16 * 256)
  disjoint : is.Pairwise fun i j => Apart i.thunk thunkSize j.thunk thunkSize

variable {image handlers before} {is : List Install} {m m' : Memory 64}

theorem load_gate_table {vec : ℕ} (hvec : vec < 256) (h : ∀ q, image.InTable q → m' q = m q) :
    m'.load 128 (image.gateAddr vec) = m.load 128 (image.gateAddr vec) :=
  Memory.load_congr fun q hq => h q (within_of_part (n := 16) (by omega) hq)

theorem holds_area {i : Install} {func : U64} (h : ∀ q, InArea i q → m' q = m q)
    (hcode : Holds m i.thunk (image.thunkCode func i.thunk)) :
    Holds m' i.thunk (image.thunkCode func i.thunk) := by
  apply hcode.congr
  intro q hq
  rw [size_thunkCode] at hq
  exact h q (within_first (n := 24) (k := 26) hq)

theorem wired_elsewhere (h : image.Wired handlers before is m)
    (htable : ∀ q, image.InTable q → m' q = m q)
    (hareas : ∀ i ∈ is, ∀ q, InArea i q → m' q = m q) : image.Wired handlers before is m' where
  gate vec hvec i hi := by
    rw [load_gate_table hvec htable]
    exact h.gate vec hvec i hi
  kept vec hvec hnone := (load_gate_table hvec htable).trans (h.kept vec hvec hnone)
  code i hi := holds_area (hareas i hi) (h.code i hi)
  apart := h.apart
  disjoint := h.disjoint

/-- A call writes to its gate and its own area. -/
theorem handleIrqLocal_outside {i : Install} (hvec : i.vec < 256) (func : U64) {q : U64}
    (htable : ¬ image.InTable q) (harea : ¬ InArea i q) :
    image.handleIrqLocal i.vec func i.thunk m q = m q := by
  have hcode : ¬ Within i.thunk (size (image.thunkCode func i.thunk)) q := by
    rw [size_thunkCode]
    exact fun hq => harea (within_first (n := 24) (k := 26) hq)
  rw [handleIrqLocal_eq, emit_outside _ hcode, setIdtEntry]
  exact Memory.store_outside _ fun hq => htable (within_of_part (n := 16) (by omega) hq)

theorem lastInstall_cons_self (i : Install) (is : List Install) :
    lastInstall (i :: is) i.vec = some i :=
  List.find?_cons_of_pos (by simp)

theorem lastInstall_cons_ne {i : Install} {vec : ℕ} (h : vec ≠ i.vec) (is : List Install) :
    lastInstall (i :: is) vec = lastInstall is vec :=
  List.find?_cons_of_neg (by simpa using h.symm)

/-- The gate of a call leads to its thunk. -/
theorem load_gate_install {i : Install} (hvec : i.vec < 256) (func : U64)
    (hfresh : Apart i.thunk thunkSize image.bootIdt (16 * 256)) :
    decodeGate ((image.handleIrqLocal i.vec func i.thunk m).load 128 (image.gateAddr i.vec)) =
      ⟨i.thunk, image.cs, 0, 14, 0, 1⟩ := by
  rw [handleIrqLocal_eq, load_gate_emit func hfresh hvec, load_gate_set, decodeGate_idtEntry]

theorem load_gate_install_other {i : Install} (hvec : i.vec < 256) (func : U64)
    (hfresh : Apart i.thunk thunkSize image.bootIdt (16 * 256)) {vec : ℕ} (hvec' : vec < 256)
    (hne : vec ≠ i.vec) :
    (image.handleIrqLocal i.vec func i.thunk m).load 128 (image.gateAddr vec) =
      m.load 128 (image.gateAddr vec) := by
  rw [handleIrqLocal_eq, load_gate_emit func hfresh hvec', load_gate_other m hvec hvec' hne]

theorem holds_install (i : Install) (func : U64) :
    Holds (image.handleIrqLocal i.vec func i.thunk m) i.thunk (image.thunkCode func i.thunk) := by
  rw [handleIrqLocal_eq]
  apply holds_emit
  rw [size_thunkCode]
  decide

theorem wired_install (h : image.Wired handlers before is m) (i : Install) (hvec : i.vec < 256)
    (hfresh : Apart i.thunk thunkSize image.bootIdt (16 * 256))
    (hown : ∀ j ∈ is, Apart i.thunk thunkSize j.thunk thunkSize) :
    image.Wired handlers before (i :: is)
      (image.handleIrqLocal i.vec (handlers i.isr) i.thunk m) where
  gate vec hvec' j hj := by
    by_cases hne : vec = i.vec
    · subst hne
      rw [lastInstall_cons_self, Option.some.injEq] at hj
      exact hj ▸ load_gate_install hvec _ hfresh
    · rw [lastInstall_cons_ne hne] at hj
      rw [load_gate_install_other hvec _ hfresh hvec' hne]
      exact h.gate vec hvec' j hj
  kept vec hvec' hnone := by
    have hne : vec ≠ i.vec := by
      rintro rfl
      rw [lastInstall_cons_self] at hnone
      cases hnone
    rw [lastInstall_cons_ne hne] at hnone
    exact (load_gate_install_other hvec _ hfresh hvec' hne).trans (h.kept vec hvec' hnone)
  code j hj := by
    rcases List.mem_cons.mp hj with rfl | hj
    · exact holds_install j _
    · apply holds_area _ (h.code j hj)
      intro q hq
      exact handleIrqLocal_outside hvec _ (h.apart j hj q hq) fun hin => hown j hj q hin hq
  apart j hj := by
    rcases List.mem_cons.mp hj with rfl | hj
    · exact hfresh
    · exact h.apart j hj
  disjoint := List.pairwise_cons.mpr ⟨hown, h.disjoint⟩

theorem wired_of_installed (h : image.Installed handlers before is m) :
    image.Wired handlers before is m := by
  induction h with
  | start => exact ⟨nofun, fun _ _ _ => rfl, nofun, nofun, .nil⟩
  | install h i hvec hfresh hown ih => exact wired_install ih i hvec hfresh hown
  | elsewhere h htable hareas ih => exact wired_elsewhere ih htable hareas

/-- An interrupt through the gate of `vec` comes to a thunk that pushes `func` and jumps. -/
def Leads (image : Image) (m : Memory 64) (vec : ℕ) (func : U64) : Prop :=
  ∃ thunk, decodeGate (m.load 128 (image.gateAddr vec)) = ⟨thunk, image.cs, 0, 14, 0, 1⟩ ∧
    ∀ σ : Cpu Reg 64, σ.ip = thunk → σ.mem = m → Apart (slot σ) 8 thunk 24 →
      ∃ s, MachineCode.run lowReg 4 σ = some s ∧ image.ThunkPushes func thunk σ s

theorem Wired.leads (h : image.Wired handlers before is m) {vec : ℕ} (hvec : vec < 256)
    {i : Install} (hi : lastInstall is vec = some i) : image.Leads m vec (handlers i.isr) := by
  refine ⟨i.thunk, h.gate vec hvec i hi, ?_⟩
  rintro σ hip rfl hslot
  exact image.thunkPushes (h.code i (List.mem_of_find?_eq_some hi)) hip hslot

end Image

section Machine

theorem idt_service (line : U32) (w : World) : (w.service line).idt = w.idt := by
  unfold World.service
  split_ifs <;> rfl

theorem idt_serviceAll (w : World) : w.serviceAll.idt = w.idt :=
  (idt_service 0x0f _).trans (idt_service 0x0e w)

theorem idt_drive (value : U8) (port : U16) (w : World) : (w.drive value port).idt = w.idt := by
  unfold World.drive
  split
  · rfl
  · split_ifs
    · exact idt_service _ _
    · rfl
    · rfl

theorem idt_endOfInterrupt (w : World) : w.endOfInterrupt.idt = w.idt := by
  unfold World.endOfInterrupt
  split
  · rfl
  · split_ifs
    · exact idt_serviceAll _
    · rfl

/-- The call of `handle_irq_local` that an access is. -/
def installCall : (c : Cmd) → Option (ℕ × Isr)
  | .handleIrqLocal vec isr => some (vec.toNat, isr)
  | _ => none

/-- The handlers after an access. -/
def install (idt : ℕ → Option Isr) : Option (ℕ × Isr) → ℕ → Option Isr
  | none => idt
  | some (vec, isr) => Function.update idt vec (some isr)

theorem idt_effect (out : Outside) (c : Cmd) (w : World) :
    (w.effect out c).2.idt = install w.idt (installCall c) := by
  cases c with
  | mmioWrite offset value => exact idt_serviceAll _
  | out value port => exact idt_drive value port w
  | apicWrite reg value =>
    change (if w.x2apic = w.platform.kernelX2apic ∧ reg = apicEoi then w.endOfInterrupt
      else w).idt = w.idt
    split_ifs
    · exact idt_endOfInterrupt w
    · rfl
  | smpCall i f =>
    change (if i ∈ w.platform.online then { w with second := f.body } else w).idt = w.idt
    split_ifs
    · rfl
    · rfl
  | wrmsr index a d =>
    change (if index = msrIa32Apicbase then { w with x2apic := a.getLsbD 10 } else w).idt = w.idt
    split_ifs
    · rfl
    · rfl
  | _ => rfl

/-- The call that a step of one of the two CPUs makes. -/
def callOf (s : CpuState) : CpuAction → Option (ℕ × Isr)
  | .main _ =>
    match s.main with
    | .pure _ => none
    | .op c _ => installCall c
  | .second _ =>
    match s.world.second with
    | .pure _ => none
    | .op c _ => installCall c
  | _ => none

theorem idt_step {s t : CpuState} {a : CpuAction} (h : cpu.step s a = some t) :
    t.world.idt = install s.world.idt (callOf s a) := by
  obtain ⟨main, frames, w⟩ := s
  cases a with
  | main out =>
    cases main with
    | pure u => simp [cpu] at h
    | op c next =>
      simp only [cpu, Option.ite_none_right_eq_some, Option.some.injEq] at h
      obtain ⟨-, rfl⟩ := h
      exact idt_effect out c w
  | interrupt =>
    simp only [cpu, Option.bind_eq_some_iff, Option.map_eq_some_iff] at h
    obtain ⟨vec, -, isr, -, rfl⟩ := h
    rfl
  | iret =>
    simp only [cpu] at h
    split at h
    · simp only [Option.ite_none_right_eq_some, Option.some.injEq] at h
      obtain ⟨-, rfl⟩ := h
      rfl
    · cases h
  | second out =>
    cases hsecond : w.second with
    | pure u => simp [cpu, hsecond] at h
    | op c next =>
      have hcall : callOf ⟨main, frames, w⟩ (.second out) = installCall c := by
        simp only [callOf, hsecond]
      simp only [cpu, hsecond, Option.some.injEq] at h
      rw [hcall, ← h]
      exact idt_effect out c w

/-- A run of the machine with the memory behind it, from a load without handlers. Other code writes
what it likes at every step, but to the table of gates and the areas. The processor has `boot_idt`
for its table. -/
inductive Backed (image : Image) (handlers : Isr → U64) (before : Memory 64) :
    CpuState → List Install → Memory 64 → Prop
  | start {s : CpuState} (h : s.world.idt = fun _ => none) :
      Backed image handlers before s [] before
  | install {s t : CpuState} {a : CpuAction} {is : List Install} {m m' : Memory 64}
      (h : Backed image handlers before s is m) (i : Install) (hstep : cpu.step s a = some t)
      (hcall : callOf s a = some (i.vec, i.isr)) (hvec : i.vec < 256)
      (hfresh : Apart i.thunk Image.thunkSize image.bootIdt (16 * 256))
      (hown : ∀ j ∈ is, Apart i.thunk Image.thunkSize j.thunk Image.thunkSize)
      (htable : ∀ q, image.InTable q →
        m' q = image.handleIrqLocal i.vec (handlers i.isr) i.thunk m q)
      (hareas : ∀ j ∈ i :: is, ∀ q, Image.InArea j q →
        m' q = image.handleIrqLocal i.vec (handlers i.isr) i.thunk m q) :
      Backed image handlers before t (i :: is) m'
  | step {s t : CpuState} {a : CpuAction} {is : List Install} {m m' : Memory 64}
      (h : Backed image handlers before s is m) (hstep : cpu.step s a = some t)
      (hcall : callOf s a = none) (htable : ∀ q, image.InTable q → m' q = m q)
      (hareas : ∀ i ∈ is, ∀ q, Image.InArea i q → m' q = m q) :
      Backed image handlers before t is m'

variable {image : Image} {handlers : Isr → U64} {before : Memory 64} {s t : CpuState}
  {is : List Install} {m : Memory 64}

theorem Backed.installed (h : Backed image handlers before s is m) :
    image.Installed handlers before is m := by
  induction h with
  | start h => exact .start
  | install h i hstep hcall hvec hfresh hown htable hareas ih =>
    exact (ih.install i hvec hfresh hown).elsewhere htable hareas
  | step h hstep hcall htable hareas ih => exact ih.elsewhere htable hareas

/-- The handlers that the machine looks up are those of the last calls. -/
theorem Backed.idt (h : Backed image handlers before s is m) (vec : ℕ) :
    s.world.idt vec = (Image.lastInstall is vec).map Install.isr := by
  induction h with
  | start h => rw [h]; rfl
  | install h i hstep hcall hvec hfresh hown htable hareas ih =>
    rw [idt_step hstep, hcall, PcmTest.Ioapic.install]
    by_cases hne : vec = i.vec
    · subst hne
      rw [Function.update_self, Image.lastInstall_cons_self]
      rfl
    · rw [Function.update_of_ne hne, Image.lastInstall_cons_ne hne, ih]
  | step h hstep hcall htable hareas ih => rw [idt_step hstep, hcall, PcmTest.Ioapic.install, ih]

theorem Backed.vec_lt (h : Backed image handlers before s is m) : ∀ i ∈ is, i.vec < 256 := by
  induction h with
  | start h => nofun
  | install h i hstep hcall hvec hfresh hown htable hareas ih =>
    exact fun j hj => (List.mem_cons.mp hj).elim (fun hji => hji ▸ hvec) (ih j)
  | step h hstep hcall htable hareas ih => exact ih

/-- In every run, an interrupt that enters a handler in the machine goes through a gate in memory
that leads to this handler. -/
theorem interrupts_enter (h : Backed image handlers before s is m)
    (hstep : cpu.step s .interrupt = some t) :
    ∃ vec isr, s.world.request = some vec ∧ t.main = isr.body ∧
      image.Leads m vec (handlers isr) := by
  simp only [cpu, Option.bind_eq_some_iff, Option.map_eq_some_iff] at hstep
  obtain ⟨vec, hrequest, isr, hgate, rfl⟩ := hstep
  rw [h.idt, Option.map_eq_some_iff] at hgate
  obtain ⟨i, hi, rfl⟩ := hgate
  have hlt : i.vec < 256 := h.vec_lt i (List.mem_of_find?_eq_some hi)
  have hvec : i.vec = vec := by simpa using List.find?_some hi
  exact ⟨vec, i.isr, hrequest, rfl, (Image.wired_of_installed h.installed).leads (hvec ▸ hlt) hi⟩

/-- The processor at a call of `handle_irq_local`, with a request that an `sti` holds back. -/
def heldRequest : CpuState :=
  ⟨handleIrqLocal 0x76 .isr76, [], { loadWorld with irr := [0x76], shadow := true }⟩

theorem apart_near : Apart 0x8000 Image.thunkSize nearImage.bootIdt (16 * 256) := by
  intro q hq hq'
  unfold Within Image.thunkSize at hq
  unfold Within nearImage at hq'
  bv_omega

theorem interrupts_enter_held : ∃ m, nearImage.Leads m 0x76 0xffffffffa0001000 := by
  have hstart : Backed nearImage (fun _ => 0xffffffffa0001000) (fun _ => 0) heldRequest []
      (fun _ => 0) := .start rfl
  have hcall := hstart.install ⟨0x76, .isr76, 0x8000⟩ (a := .main fun _ => default) rfl rfl
    (by decide) apart_near nofun (fun _ _ => rfl) (fun _ _ _ _ => rfl)
  obtain ⟨vec, isr, hrequest, -, hleads⟩ := interrupts_enter hcall rfl
  cases hrequest
  exact ⟨_, hleads⟩

end Machine

section Calls

/-- What an execution installs. -/
def installs (tr : List (Prog.Event Cmd Cmd.Answer)) : List (ℕ × Isr) :=
  tr.filterMap fun e => installCall e.1

/-- More than one CPU was online when the execution asked. -/
def hasSecond (tr : List (Prog.Event Cmd Cmd.Answer)) : Bool :=
  tr.any fun
    | ⟨.numOnlineCpus, n⟩ => decide ((show ℕ from n) > 1)
    | _ => false

def Note.call : Note → Option (ℕ × Isr)
  | .install vec isr => some (vec, isr)
  | _ => none

def Note.second : Note → Bool
  | .online n => decide (n > 1)
  | _ => false

theorem installs_eq_notes (tr : List (Prog.Event Cmd Cmd.Answer)) :
    installs tr = (notes tr).filterMap Note.call := by
  rw [notes, List.filterMap_filterMap]
  refine List.filterMap_congr fun e _ => ?_
  obtain ⟨c, x⟩ := e
  cases c <;> rfl

theorem hasSecond_eq_notes (tr : List (Prog.Event Cmd Cmd.Answer)) :
    hasSecond tr = (notes tr).any Note.second := by
  rw [notes, List.any_filterMap]
  refine congrArg tr.any (funext fun e => ?_)
  obtain ⟨c, x⟩ := e
  cases c <;> rfl

theorem calls_installNotes (l : List Isr) :
    (installNotes l).filterMap Note.call = l.map fun isr => (isr.vector, isr) := by
  rw [installNotes, List.filterMap_map, ← List.filterMap_eq_map]
  rfl

theorem any_installNotes (l : List Isr) : (installNotes l).any Note.second = false := by
  rw [installNotes, List.any_map]
  exact List.any_eq_false.mpr fun _ _ => Bool.false_ne_true

theorem SwitchesTo.calls {tr : List (Prog.Event Cmd Cmd.Answer)} {l : List Note}
    (h : SwitchesTo tr l) : l.filterMap Note.call = [] ∧ l.any Note.second = false := by
  rcases h with rfl | ⟨a, d, -, rfl⟩
  · exact ⟨rfl, rfl⟩
  · exact ⟨rfl, rfl⟩

/-- The instructions around `test_ioapic` leave no notes. -/
theorem notes_ioctl {tr : List (Prog.Event Cmd Cmd.Answer)} (h : ioctlIoapicTest.Runs tr ()) :
    ∃ tr', testIoapic.Runs tr' () ∧ notes tr = notes tr' := by
  obtain ⟨tr₁, _, tr₂, rfl, h₁, h₂⟩ := Prog.runs_bind.mp h
  obtain ⟨tr₃, _, tr₄, rfl, h₃, h₄⟩ := Prog.runs_bind.mp h₂
  have hcli : notes tr₁ = [] := installs_routine routine_irqDisable _ _ h₁
  have hsti : notes tr₄ = [] := installs_routine routine_irqEnable _ _ h₄
  refine ⟨tr₃, h₃, ?_⟩
  rw [notes_append, notes_append, hcli, hsti, List.nil_append, List.append_nil]

/-- Every execution of the ioctl installs the same handlers, and those of the tests with a second
CPU exactly if it was told of one. -/
theorem installs_ioctl {tr : List (Prog.Event Cmd Cmd.Answer)}
    (h : ioctlIoapicTest.Runs tr ()) :
    installs tr = (ioctlHandlers (hasSecond tr)).map fun isr => (isr.vector, isr) := by
  obtain ⟨tr', htest, hnotes⟩ := notes_ioctl h
  obtain ⟨switch, ncpus, hswitch, hall⟩ := notes_testIoapic htest
  obtain ⟨hcalls, hsecond⟩ := hswitch.calls
  have hanswer : hasSecond tr = decide (ncpus > 1) := by
    rw [hasSecond_eq_notes, hnotes, hall, List.any_append, List.any_append, List.any_cons, hsecond,
      any_installNotes, any_installNotes, Bool.or_false, Bool.or_false, Bool.false_or, Note.second]
  have honline : ∀ l, (Note.online ncpus :: l).filterMap Note.call = l.filterMap Note.call :=
    fun _ => rfl
  rw [installs_eq_notes, hnotes, hall, List.filterMap_append, List.filterMap_append, honline,
    hcalls, calls_installNotes, calls_installNotes, hanswer, ioctlHandlers, List.map_append,
    List.nil_append]
  simp only [decide_eq_true_eq]

theorem length_ioctlHandlers (smp : Bool) : (ioctlHandlers smp).length = 14 + 4 * smp.toNat := by
  cases smp <;> rfl

theorem mem_ioctlHandlers (smp : Bool) (isr : Isr) : isr ∈ ioctlHandlers smp := by
  apply List.mem_append_left
  cases isr <;> decide

/-- What any number of ioctls install. -/
theorem installs_ioctls {trs : List (List (Prog.Event Cmd Cmd.Answer))}
    (htrs : ∀ tr ∈ trs, ioctlIoapicTest.Runs tr ()) :
    ∃ isrs : List Isr, trs.flatMap installs = isrs.map (fun isr => (isr.vector, isr)) ∧
      isrs.length = 14 * trs.length + 4 * trs.countP hasSecond ∧
      (trs ≠ [] → ∀ isr, isr ∈ isrs) := by
  induction trs with
  | nil => exact ⟨[], rfl, rfl, fun h => absurd rfl h⟩
  | cons tr trs ih =>
    obtain ⟨htr, hrest⟩ := List.forall_mem_cons.mp htrs
    obtain ⟨isrs, hcalls, hlength, -⟩ := ih hrest
    refine ⟨ioctlHandlers (hasSecond tr) ++ isrs, ?_, ?_, fun _ isr => ?_⟩
    · rw [List.flatMap_cons, hcalls, installs_ioctl htr, List.map_append]
    · have hcount : (tr :: trs).countP hasSecond = trs.countP hasSecond + (hasSecond tr).toNat := by
        cases hsecond : hasSecond tr <;> simp [hsecond]
      rw [List.length_append, length_ioctlHandlers, hlength, hcount, List.length_cons]
      omega
    · exact List.mem_append_left _ (mem_ioctlHandlers _ isr)

theorem vector_injective : Function.Injective Isr.vector := by
  intro isr isr' h
  cases isr <;> cases isr' <;> first | rfl | cases h

theorem vector_lt (isr : Isr) : isr.vector < 256 := by
  cases isr <;> decide

variable {image : Image} {handlers : Isr → U64} {before m : Memory 64} {is : List Install}

/-- After any number of ioctls, whatever else was written: the areas that are lost, with those of
the ioctls that had a second CPU, the gates of the tests and the others. -/
theorem ioctls_wire {trs : List (List (Prog.Event Cmd Cmd.Answer))}
    (htrs : ∀ tr ∈ trs, ioctlIoapicTest.Runs tr ()) (h : image.Installed handlers before is m)
    (hcalls : is.reverse.map (fun i => (i.vec, i.isr)) = trs.flatMap installs) :
    is.length = 14 * trs.length + 4 * trs.countP hasSecond ∧
      (trs ≠ [] → ∀ isr : Isr, image.Leads m isr.vector (handlers isr)) ∧
      ∀ vec < 256, (∀ isr : Isr, isr.vector ≠ vec) →
        m.load 128 (image.gateAddr vec) = before.load 128 (image.gateAddr vec) := by
  obtain ⟨isrs, hisrs, hlength, hall⟩ := installs_ioctls htrs
  have hpairs : is.reverse.map (fun i => (i.vec, i.isr)) =
      isrs.map fun isr => (isr.vector, isr) := hcalls.trans hisrs
  have hwired := Image.wired_of_installed h
  have hown : ∀ i ∈ is, i.isr.vector = i.vec := by
    intro i hi
    have hmem : (i.vec, i.isr) ∈ is.reverse.map fun i => (i.vec, i.isr) :=
      List.mem_map.mpr ⟨i, List.mem_reverse.mpr hi, rfl⟩
    rw [hpairs] at hmem
    obtain ⟨isr, -, hisr⟩ := List.mem_map.mp hmem
    obtain ⟨hvec, rfl⟩ := Prod.mk.inj hisr
    exact hvec
  refine ⟨?_, fun hne isr => ?_, fun vec hvec hnone => ?_⟩
  · have hcount := congrArg List.length hpairs
    rwa [List.length_map, List.length_map, List.length_reverse, hlength] at hcount
  · have hmem : (isr.vector, isr) ∈ isrs.map fun isr => (isr.vector, isr) :=
      List.mem_map.mpr ⟨isr, hall hne isr, rfl⟩
    rw [← hpairs] at hmem
    obtain ⟨i, hi, hisr⟩ := List.mem_map.mp hmem
    have hsome : (Image.lastInstall is isr.vector).isSome := by
      rw [Image.lastInstall, List.find?_isSome]
      exact ⟨i, List.mem_reverse.mp hi, by simpa using congrArg Prod.fst hisr⟩
    obtain ⟨j, hj⟩ := Option.isSome_iff_exists.mp hsome
    have hvec : j.vec = isr.vector := by simpa using List.find?_some hj
    have hsame : j.isr = isr :=
      vector_injective ((hown j (List.mem_of_find?_eq_some hj)).trans hvec)
    have hleads := hwired.leads (vector_lt isr) hj
    rwa [hsame] at hleads
  · apply hwired.kept vec hvec
    rw [Image.lastInstall, List.find?_eq_none]
    intro i hi
    simpa using fun hi' => hnone i.isr ((hown i hi).trans hi')

/-- Areas one after the other for calls, the last call first. -/
def areasFor : List (ℕ × Isr) → List Install
  | [] => []
  | (vec, isr) :: calls =>
    ⟨vec, isr, nearImage.bootIdt + BitVec.ofNat 64 (0x7000 + 64 * calls.length)⟩ :: areasFor calls

theorem thunk_areasFor (calls : List (ℕ × Isr)) : ∀ i ∈ areasFor calls, ∃ k < calls.length,
    i.thunk = nearImage.bootIdt + BitVec.ofNat 64 (0x7000 + 64 * k) := by
  induction calls with
  | nil => nofun
  | cons call calls ih =>
    intro i hi
    rcases List.mem_cons.mp hi with rfl | hi
    · exact ⟨calls.length, Nat.lt_succ_self _, rfl⟩
    · obtain ⟨k, hk, hthunk⟩ := ih i hi
      exact ⟨k, Nat.lt_succ_of_lt hk, hthunk⟩

theorem calls_areasFor (calls : List (ℕ × Isr)) :
    (areasFor calls).map (fun i => (i.vec, i.isr)) = calls := by
  induction calls with
  | nil => rfl
  | cons call calls ih => rw [areasFor, List.map_cons, ih]

theorem installed_areasFor (handlers : Isr → U64) {calls : List (ℕ × Isr)}
    (hvec : ∀ call ∈ calls, call.1 < 256) (hlength : calls.length ≤ 1000) :
    ∃ m, nearImage.Installed handlers before (areasFor calls) m := by
  induction calls with
  | nil => exact ⟨_, .start⟩
  | cons call calls ih =>
    rw [List.length_cons] at hlength
    obtain ⟨hcall, hrest⟩ := List.forall_mem_cons.mp hvec
    obtain ⟨m, hm⟩ := ih hrest (by omega)
    refine ⟨_, hm.install _ hcall ?_ fun j hj => ?_⟩
    · have htable : Apart (nearImage.bootIdt + BitVec.ofNat 64 0) (16 * 256)
          (nearImage.bootIdt + BitVec.ofNat 64 (0x7000 + 64 * calls.length)) Image.thunkSize :=
        apart_offsets (by omega) (by unfold Image.thunkSize; omega)
      rw [BitVec.add_zero] at htable
      exact htable.symm
    · obtain ⟨k, hk, hthunk⟩ := thunk_areasFor calls j hj
      rw [hthunk]
      exact (apart_offsets (by unfold Image.thunkSize; omega)
        (by unfold Image.thunkSize; omega)).symm

/-- A machine with two CPUs on which every device register reads as zero. -/
def twoCpus : (c : Cmd) → Unit → c.Answer × Unit
  | .numOnlineCpus, u => ((2 : ℕ), u)
  | _, u => (default, u)

theorem hasSecond_twoCpus : hasSecond (ioctlIoapicTest.log twoCpus ()) = true := by
  decide +kernel

/-- One ioctl with a second CPU loses 18 areas. -/
theorem ioctls_wire_one : ∃ is m,
    nearImage.Installed (fun _ => 0xffffffffa0001000) (fun _ => 0) is m ∧ is.length = 18 ∧
      nearImage.Leads m 0x76 0xffffffffa0001000 := by
  have htr : ioctlIoapicTest.Runs (ioctlIoapicTest.log twoCpus ()) () :=
    ioctlIoapicTest.runs_log twoCpus ()
  generalize hlog : ioctlIoapicTest.log twoCpus () = tr at htr
  have hsecond : hasSecond tr = true := hlog ▸ hasSecond_twoCpus
  have hcalls := installs_ioctl htr
  have hvec : ∀ call ∈ (installs tr).reverse, call.1 < 256 := by
    intro call hcall
    rw [List.mem_reverse, hcalls] at hcall
    obtain ⟨isr, -, rfl⟩ := List.mem_map.mp hcall
    exact vector_lt isr
  have hlength : (installs tr).reverse.length ≤ 1000 := by
    rw [List.length_reverse, hcalls, List.length_map, hsecond]
    decide
  obtain ⟨m, hm⟩ : ∃ m, nearImage.Installed (fun _ => 0xffffffffa0001000) (fun _ => 0)
    (areasFor (installs tr).reverse) m := installed_areasFor _ hvec hlength
  have htrs : ∀ tr' ∈ [tr], ioctlIoapicTest.Runs tr' () := by simpa using htr
  have hordered : (areasFor (installs tr).reverse).reverse.map (fun i => (i.vec, i.isr)) =
      [tr].flatMap installs := by
    rw [List.map_reverse, calls_areasFor, List.reverse_reverse, List.flatMap_singleton]
  obtain ⟨hcount, hleads, -⟩ := ioctls_wire htrs hm hordered
  refine ⟨_, m, hm, ?_, hleads nofun .isr76⟩
  rw [hcount, List.countP_singleton, hsecond]
  rfl

end Calls

end PcmTest.Ioapic
