import PcmTest.Ioapic.Board
import PcmTest.Theory.Inevitable

/-!
# Interrupts on their way to the processor

The board with what lies between an interrupt line and a handler: the I/O APIC
accepts a rising edge or a high level through an unmasked entry, the local APIC
keeps what was accepted until the processor takes it, and the EOI of a level
interrupt lets the line be heard again. The processor takes the highest request
before its next access, unless interrupts are off or the `sti` was its last
instruction. The entries of the tests name its local APIC, which hears the kernel only in
the mode that the kernel accesses it in. The entry point that all gates share is an array
without code in the sources; here it calls the handler of the gate.
-/

namespace PcmTest.Ioapic

open Theory

section Fields

def vectorOf (word : U32) : ℕ := (word.extractLsb' 0 8).toNat

def isLevel (word : U32) : Bool := word.getLsbD 15

def isMasked (word : U32) : Bool := word.getLsbD 16

/-- The port of a line, as `set_irq_line` computes it. -/
def irqPort (line : U32) : U16 := (0x2000 + line).setWidth 16

/-- The lines that the tests drive. -/
def testLines : List U32 := [0x0e, 0x0f]

/-- One of the eight trigger mode registers of the local APIC. -/
def tmrWord (tmr : ℕ → Bool) (i : ℕ) : U32 :=
  BitVec.ofNat 32 (Nat.ofBits fun j : Fin 32 => tmr (32 * i + j))

end Fields

/-- The CPUs that are online, among them the one that runs the tests, which is not CPU 1, `ecx` of
`cpuid` leaf 1, and whether the kernel accesses the local APIC in x2APIC mode. -/
structure Platform where
  online : Finset ℕ
  features : U32
  kernelX2apic : Bool

/-- The tests ask for CPU 1 if there is a second one, and turn the x2APIC mode on if the processor
has it. -/
structure Platform.Suits (p : Platform) : Prop where
  second : p.online.card > 1 → 1 ∈ p.online
  x2apic : p.features &&& (1 : U32) <<< 21 ≠ 0 → p.kernelX2apic = true

/-- The board, the machine around it, the mode of the local APIC with the trigger mode of each
vector, the requests it keeps and the ones being served, the lines that wait for their EOI, the
gates, the instruction boundary after `sti`, a halt, what the second CPU still has to do, and how
often each handler was entered. -/
structure World extends Board where
  platform : Platform
  x2apic : Bool
  tmr : ℕ → Bool
  irr : List ℕ
  inService : List ℕ
  remoteIrr : List U32
  idt : ℕ → Option Isr
  shadow : Bool
  halted : Bool
  second : IoapicProg Unit
  taken : Isr → ℕ

namespace World

def lineHigh (w : World) (line : U32) : Bool := w.ports (irqPort line) != 0

def entry (w : World) (line : U32) : U32 := w.regs (loReg line)

/-- The local APIC accepts a vector and notes how it was triggered. -/
def accept (vec : ℕ) (level : Bool) (w : World) : World :=
  { w with irr := w.irr.insert vec, tmr := Function.update w.tmr vec level }

/-- A high line with a level entry is heard once until its EOI. -/
def service (w : World) (line : U32) : World :=
  if w.lineHigh line && isLevel (w.entry line) && !isMasked (w.entry line) &&
      !w.remoteIrr.contains line then
    { w.accept (vectorOf (w.entry line)) true with remoteIrr := line :: w.remoteIrr }
  else
    w

def serviceAll (w : World) : World := testLines.foldl service w

/-- A port write. A rising edge goes through an unmasked edge entry and is lost on a masked one. -/
def drive (value : U8) (port : U16) (w : World) : World :=
  let w' := { w with ports := Function.update w.ports port value }
  match testLines.find? fun line => irqPort line = port with
  | none => w'
  | some line =>
    if isLevel (w.entry line) then w'.service line
    else if value ≠ 0 ∧ w.ports port = 0 ∧ isMasked (w.entry line) = false then
      w'.accept (vectorOf (w.entry line)) false
    else w'

/-- The EOI ends the interrupt being served; one that was a level goes back to the I/O APIC. -/
def endOfInterrupt (w : World) : World :=
  match w.inService with
  | [] => w
  | vec :: rest =>
    if w.tmr vec then
      serviceAll { w with
        inService := rest
        remoteIrr := w.remoteIrr.filter fun line => vectorOf (w.entry line) ≠ vec }
    else
      { w with inService := rest }

/-- An access that misses the local APIC changes nothing there, and a call to a CPU that is not
online returns an error, which the tests do not look at. -/
def effect (out : Outside) : (c : Cmd) → World → c.Answer × World
  | .mmioWrite offset value, w =>
    ((), serviceAll { w with toBoard := w.toBoard.mmioWrite offset value })
  | .out value port, w => ((), w.drive value port)
  | .apicRead reg, w =>
    (if w.x2apic = w.platform.kernelX2apic ∧ apicTmr ≤ reg ∧ reg < apicTmr + 0x80 then
        tmrWord w.tmr ((reg - apicTmr) / 0x10).toNat
      else out (.apicRead reg), w)
  | .apicWrite reg _, w =>
    ((), if w.x2apic = w.platform.kernelX2apic ∧ reg = apicEoi then w.endOfInterrupt else w)
  | .hlt, w => ((), { w with halted := true })
  | .handleIrqLocal vec isr, w => ((), { w with idt := Function.update w.idt vec.toNat (some isr) })
  | .smpCall cpu f, w => ((), if cpu ∈ w.platform.online then { w with second := f.body } else w)
  | .numOnlineCpus, w => (w.platform.online.card, w)
  | .cpuid leaf, w => (if leaf = 1 then w.platform.features else out (.cpuid leaf), w)
  | .wrmsr index a _, w =>
    ((), if index = msrIa32Apicbase then { w with x2apic := a.getLsbD 10 } else w)
  | c, w =>
    let r := Board.access out c w.toBoard
    (r.1, { w with toBoard := r.2 })

/-- An access of the CPU that runs the tests. No interrupt comes between an `sti` that turns
interrupts on and the next instruction. -/
def access (out : Outside) (c : Cmd) (w : World) : c.Answer × World :=
  let r := w.effect out c
  (r.1, { r.2 with shadow := decide (c = .sti) && !w.irqFlag })

/-- An access of the second CPU, which has an interrupt flag of its own. -/
def secondAccess (out : Outside) (c : Cmd) (next : c.Answer → IoapicProg Unit) (w : World) :
    World :=
  let r := w.effect out c
  { r.2 with irqFlag := w.irqFlag, second := next r.1 }

/-- The vector that the processor takes now: the highest of the requests, if its class is above
those being served. -/
def request (w : World) : Option ℕ :=
  if w.irqFlag && !w.shadow then
    w.irr.max?.filter fun vec => w.inService.all fun v => v / 16 < vec / 16
  else
    none

/-- The gates turn interrupts off. -/
def acknowledge (vec : ℕ) (isr : Isr) (w : World) : World :=
  { w with
    irqFlag := false
    halted := false
    irr := w.irr.erase vec
    inService := vec :: w.inService
    taken := Function.update w.taken isr (w.taken isr + 1) }

/-- An interrupt came while interrupts were on. -/
def iret (w : World) : World := { w with irqFlag := true }

/-- A loop over a static waits, and a call waits for the one before it. -/
def ready (w : World) : Cmd → Bool
  | .spinWhile v x => w.vars v != x
  | .smpCall _ _ => w.second.done
  | _ => true

/-- The program goes on with this access. -/
def goesOn (w : World) (c : Cmd) : Bool := w.request.isNone && !w.halted && w.ready c

end World

/-- The program under way, those that interrupts have broken off, and the world. -/
structure CpuState where
  main : IoapicProg Unit
  frames : List (IoapicProg Unit)
  world : World

inductive CpuAction where
  | main (out : Outside)
  | interrupt
  | iret
  | second (out : Outside)

/-- One CPU under its interrupts, and the functions it sent to the second one. An interrupt
without a handler of the tests is not part of the machine. -/
def cpu : Machine CpuState CpuAction where
  step s
    | .main out =>
      match s.main with
      | .pure _ => none
      | .op c next =>
        if s.world.goesOn c then
          some ⟨next (s.world.access out c).1, s.frames, (s.world.access out c).2⟩
        else none
    | .interrupt =>
      s.world.request.bind fun vec => (s.world.idt vec).map fun isr =>
        ⟨isr.body, s.main :: s.frames, s.world.acknowledge vec isr⟩
    | .iret =>
      match s.main, s.frames with
      | .pure _, p :: frames =>
        if s.world.request.isNone then some ⟨p, frames, s.world.iret⟩ else none
      | _, _ => none
    | .second out =>
      match s.world.second with
      | .pure _ => none
      | .op c next => some { s with world := s.world.secondAccess out c next }

section Steps

def World.Second (w u : World) : Prop :=
  ∃ out c next, w.second = .op c next ∧ u = w.secondAccess out c next

variable {w : World} {frames : List (IoapicProg Unit)} {p : IoapicProg Unit} {t : CpuState}
  {a : CpuAction}

theorem step_second {out : Outside} (h : cpu.step ⟨p, frames, w⟩ (.second out) = some t) :
    ∃ u, w.Second u ∧ t = ⟨p, frames, u⟩ := by
  cases hsecond : w.second with
  | pure u => simp [cpu, hsecond] at h
  | op c next =>
    simp only [cpu, hsecond, Option.some.injEq] at h
    exact ⟨_, ⟨out, c, next, hsecond, rfl⟩, h.symm⟩

theorem request_of_goesOn {c : Cmd} (h : w.goesOn c = true) : w.request = none := by
  simp only [World.goesOn, Bool.and_eq_true, Option.isNone_iff_eq_none] at h
  exact h.1.1

/-- The next access, or a step of the second CPU. -/
theorem step_op {c : Cmd} {next : c.Answer → IoapicProg Unit} (hgo : w.goesOn c = true)
    (h : cpu.step ⟨.op c next, frames, w⟩ a = some t) :
    (∃ out, t = ⟨next (w.access out c).1, frames, (w.access out c).2⟩) ∨
      ∃ u, w.Second u ∧ t = ⟨.op c next, frames, u⟩ := by
  cases a with
  | main out =>
    simp only [cpu, hgo, if_true, Option.some.injEq] at h
    exact .inl ⟨out, h.symm⟩
  | interrupt => simp [cpu, request_of_goesOn hgo] at h
  | iret => simp [cpu] at h
  | second out => exact .inr (step_second h)

/-- A request is taken before anything else happens on the CPU. -/
theorem step_request {vec : ℕ} {isr : Isr} (hrequest : w.request = some vec)
    (hgate : w.idt vec = some isr) (h : cpu.step ⟨p, frames, w⟩ a = some t) :
    t = ⟨isr.body, p :: frames, w.acknowledge vec isr⟩ ∨ ∃ u, w.Second u ∧ t = ⟨p, frames, u⟩ := by
  cases a with
  | main out =>
    cases p with
    | pure u => simp [cpu] at h
    | op c next => simp [cpu, World.goesOn, hrequest] at h
  | interrupt =>
    simp only [cpu, hrequest, hgate, Option.bind_some, Option.map_some, Option.some.injEq] at h
    exact .inl h.symm
  | iret =>
    cases p with
    | pure u =>
      cases frames with
      | nil => simp [cpu] at h
      | cons q frames => simp [cpu, hrequest] at h
    | op c next => simp [cpu] at h
  | second out => exact .inr (step_second h)

theorem step_return (hrequest : w.request = none)
    (h : cpu.step ⟨.pure (), p :: frames, w⟩ a = some t) :
    t = ⟨p, frames, w.iret⟩ ∨ ∃ u, w.Second u ∧ t = ⟨.pure (), p :: frames, u⟩ := by
  cases a with
  | main out => simp [cpu] at h
  | interrupt => simp [cpu, hrequest] at h
  | iret =>
    simp only [cpu, hrequest, Option.isNone_none, if_true, Option.some.injEq] at h
    exact .inl h.symm
  | second out => exact .inr (step_second h)

/-- Nothing happens any more. -/
theorem step_over (hrequest : w.request = none) (halone : w.second = .pure ()) :
    ∀ a, cpu.step ⟨.pure (), [], w⟩ a = none := by
  intro a
  cases a with
  | main out => rfl
  | interrupt => simp [cpu, hrequest]
  | iret => rfl
  | second out => simp [cpu, halone]

end Steps

section Rules

/-- An assertion that the second CPU does not disturb. -/
def Stable (P : World → Prop) : Prop := ∀ w u, P w → w.Second u → P u

theorem stable_alone {P : World → Prop} (h : ∀ w, P w → w.second = .pure ()) : Stable P := by
  rintro w u hw ⟨out, c, next, hsecond, -⟩
  rw [h w hw] at hsecond
  cases hsecond

/-- Under a stable assertion the second CPU can only delay what the first one does next. -/
theorem inevitable_of_stable {P : World → Prop} (hP : Stable P) {R : CpuState → Prop}
    {main : IoapicProg Unit} {frames : List (IoapicProg Unit)}
    (hown : ∀ w, P w → (∃ a t, cpu.step ⟨main, frames, w⟩ a = some t) ∧
      ∀ a t, cpu.step ⟨main, frames, w⟩ a = some t →
        cpu.Inevitable R t ∨ ∃ u, w.Second u ∧ t = ⟨main, frames, u⟩) {w : World} (hw : P w) :
    cpu.Inevitable R ⟨main, frames, w⟩ := by
  -- every step of the second CPU shortens what it has to do
  generalize hs : w.second = s
  induction s generalizing w with
  | pure u =>
    refine .next (hown w hw).1 fun a t h => ?_
    rcases (hown w hw).2 a t h with ht | ⟨u, ⟨out, c, next, hsecond, -⟩, -⟩
    · exact ht
    · rw [hs] at hsecond
      cases hsecond
  | op c next ih =>
    refine .next (hown w hw).1 fun a t h => ?_
    rcases (hown w hw).2 a t h with ht | ⟨u, hu, rfl⟩
    · exact ht
    · have hPu : P u := hP w u hw hu
      obtain ⟨out, c', next', hsecond, rfl⟩ := hu
      rw [hs] at hsecond
      cases hsecond
      exact ih _ hPu rfl

/-- The program comes to its end in the machine, whatever it was placed before and broken off. -/
abbrev Ends {α : Type} (p : IoapicProg α) (w : World) (Q : α → World → Prop) : Prop :=
  p.Ensures cpu (fun frames main w => CpuState.mk main frames w) w Q

variable {α : Type} {Q : α → World → Prop} {w : World}

theorem ends_call {P : World → Prop} (hP : Stable P) {c : Cmd} {Q : c.Answer → World → Prop}
    (hgo : ∀ w, P w → w.goesOn c = true)
    (hmain : ∀ w out, P w → Q (w.access out c).1 (w.access out c).2) (hw : P w) :
    Ends (Prog.call c) w Q := by
  intro frames k
  refine inevitable_of_stable hP (fun w hw => ⟨?_, fun a t h => ?_⟩) hw
  · exact ⟨.main fun _ => default, _, if_pos (hgo w hw)⟩
  · rcases step_op (hgo w hw) h with ⟨out, rfl⟩ | hsecond
    · exact .inl (.now ⟨_, _, hmain w out hw, rfl⟩)
    · exact .inr hsecond

/-- An interrupt: its handler runs to the end, and the program goes on. -/
theorem ends_interrupt (vec : ℕ) (isr : Isr) {P B : World → Prop} (hP : Stable P) (hB : Stable B)
    {p : IoapicProg α} (htaken : ∀ w, P w → w.request = some vec ∧ w.idt vec = some isr)
    (hbody : ∀ w, P w → Ends isr.body (w.acknowledge vec isr) fun _ => B)
    (hoff : ∀ w, B w → w.irqFlag = false) (hnext : ∀ w, B w → Ends p w.iret Q) (hw : P w) :
    Ends p w Q := by
  intro frames k
  refine inevitable_of_stable hP (fun w hw => ⟨?_, fun a t h => ?_⟩) hw
  · refine ⟨.interrupt, ⟨isr.body, p.bind k :: frames, w.acknowledge vec isr⟩, ?_⟩
    simp only [cpu, (htaken w hw).1, (htaken w hw).2, Option.bind_some, Option.map_some]
  · rcases step_request (htaken w hw).1 (htaken w hw).2 h with rfl | hsecond
    · refine .inl (((hbody w hw).ends (p.bind k :: frames)).bind ?_)
      rintro s ⟨u, w', hw', rfl⟩
      refine inevitable_of_stable hB (fun w hw => ?_) hw'
      have hquiet : w.request = none := by simp [World.request, hoff w hw]
      refine ⟨⟨.iret, ⟨p.bind k, frames, w.iret⟩, ?_⟩, fun a t h => ?_⟩
      · simp only [cpu, hquiet, Option.isNone_none, if_true]
      · rcases step_return hquiet h with rfl | hsecond
        · exact .inl (hnext w hw frames k)
        · exact .inr hsecond
    · exact .inr hsecond

end Rules

end PcmTest.Ioapic
