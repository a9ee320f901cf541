import PcmTest.TestModule.Tests
import PcmTest.Theory.RelyGuarantee

/-!
# Loading and unloading test_module

Requests to load the module with a test and to unload it come in any order; the
kernel turns down a load of a loaded module and an unload without one. An
instruction that faults ends the session there, so what is said of a finished
session is about loads and unloads that went through. They all run on one processor,
whose control registers and feature control MSR nothing else changes. Three things
survive an unload: the area of every XSAVES test, the control bits that a test set, and
VMX operation, whose region the unload has freed.
-/

namespace PcmTest.TestModule

open Theory Driver

inductive Request where
  | insmod (tcNo : ℤ)
  | rmmod
  deriving DecidableEq, Repr

/-- What the kernel does for a request, and the commands of the module. -/
inductive SessionCmd where
  | insmod (tcNo : ℤ)
  | rmmod
  | freeImage
  | test (c : TestCmd)
  deriving DecidableEq, Repr

/-- A request is answered with whether it was accepted. -/
def SessionCmd.Answer : SessionCmd → Type
  | .insmod _ | .rmmod => Bool
  | .freeImage => Unit
  | .test c => c.Answer

abbrev SessionProg := Prog SessionCmd SessionCmd.Answer

def testCall (c : TestCmd) : SessionProg c.Answer := Prog.call (SessionCmd.test c)

def freeImage : SessionProg Unit := Prog.call SessionCmd.freeImage

/-- A load that returns an error leaves no image behind. -/
def keepImage (ret : ℤ) : SessionProg Unit := if ret < 0 then freeImage else pure ()

def loadModule (tcNo : ℤ) (accepted : Bool) : SessionProg Unit :=
  if accepted then do
    let ret ← (initTestMode tcNo).expand testCall
    keepImage ret
  else
    pure ()

def unloadModule (accepted : Bool) : SessionProg Unit :=
  if accepted then do
    exitTestMode.expand testCall
    freeImage
  else
    pure ()

def serve : Request → SessionProg Unit
  | .insmod tcNo => (Prog.call (SessionCmd.insmod tcNo)).bind (loadModule tcNo)
  | .rmmod => (Prog.call SessionCmd.rmmod).bind unloadModule

def session (reqs : List Request) : SessionProg (List Unit) := Prog.forEach serve reqs

/-- The loaded module with its static and the allocations that it has with their sizes, and of the
one processor that all loads and unloads run on the registers that the module works with, which
only its tests change, and the region of VMX operation. -/
structure Host where
  loaded : Option ℤ
  region : Option Block
  live : List (Block × ℕ)
  next : Block
  cr0 : U64
  cr4 : U64
  msr : U32 → U64
  vmx : Option Block

namespace Host

def setMsr (h : Host) (msr : U32) (v : U64) : Host := { h with msr := Function.update h.msr msr v }

@[simp] theorem setMsr_self (h : Host) (msr : U32) (v : U64) : (h.setMsr msr v).msr msr = v :=
  Function.update_self ..

/-- The effect of a command. A read accepts the value that is there. Refused are the commands that
fault: a write to the locked feature control MSR, `VMXON` without its control bits, `VMXOFF`
outside of VMX operation, and an XSAVES to a null pointer. -/
def effect : Effect Host TestCmd TestCmd.Answer
  | .kmalloc size, p, h =>
    match (show Option Block from p) with
    | none => some h
    | some p =>
      if p = h.next then some { h with live := h.live ++ [(p, size)], next := h.next + 1 } else none
  | .kfree p, _, h => some { h with live := h.live.filter fun b => b.1 ≠ p }
  | .storeRegion p, _, h => some { h with region := p }
  | .loadRegion, p, h => if (show Option Block from p) = h.region then some h else none
  | .rdmsrSafe msr, r, h =>
    let r : U32 × U64 := r
    if r.1 = 0 → r.2 = h.msr msr then some h else none
  | .wrmsrSafe msr low high, err, h =>
    if (show U32 from err) = 0 then some (h.setMsr msr (high ++ low)) else some h
  | .rdmsrl msr, v, h => if (show U64 from v) = h.msr msr then some h else none
  | .wrmsrl msr v, _, h =>
    if msr = msrIa32FeatureControl ∧ h.msr msr &&& featureControlLocked ≠ 0 then none
    else some (h.setMsr msr v)
  | .readCr0, v, h => if (show U64 from v) = h.cr0 then some h else none
  | .writeCr0 v, _, h => some { h with cr0 := v }
  | .readCr4, v, h => if (show U64 from v) = h.cr4 then some h else none
  | .writeCr4 v, _, h => some { h with cr4 := v }
  | .vmxon region, entered, h =>
    if h.cr4 &&& x86Cr4Vmxe = 0 ∨ h.msr msrIa32FeatureControl &&& testBits ≠ testBits then none
    else if (show Bool from entered) = false then some h
    else if region.isSome ∧ h.vmx = none then some { h with vmx := region }
    else none
  | .vmxoff, _, h => if h.vmx = none then none else some { h with vmx := none }
  | .xsaves area _ _, _, h => if area = none then none else some h
  | _, _, h => some h

def sessionEffect : Effect Host SessionCmd SessionCmd.Answer
  | .insmod tcNo, accepted, h =>
    if (show Bool from accepted) = h.loaded.isNone then
      some (if h.loaded.isNone then { h with loaded := some tcNo, region := none } else h)
    else
      none
  | .rmmod, accepted, h => if (show Bool from accepted) = h.loaded.isSome then some h else none
  | .freeImage, _, h => some { h with loaded := none, region := none }
  | .test c, x, h => effect c x h

/-- A kernel without the module, on a processor that is not in VMX operation. -/
def boot (cr0 cr4 : U64) (msr : U32 → U64) : Host := ⟨none, none, [], 0, cr0, cr4, msr, none⟩

end Host

/-- The tests that were loaded, and the one that still is. -/
structure Loads where
  all : List ℤ
  current : Option ℤ
  deriving DecidableEq, Repr

def Loads.serve (l : Loads) : Request → Loads
  | .insmod tcNo => if l.current = none then ⟨l.all ++ [tcNo], some tcNo⟩ else l
  | .rmmod => { l with current := none }

def loads (reqs : List Request) : Loads := reqs.foldl Loads.serve ⟨[], none⟩

section Between

def cr0Bits (all : List ℤ) : U32 := if 12 ∈ all then x86Cr0Cd.setWidth 32 else 0

def cr4Bits (all : List ℤ) : U32 :=
  (if 1 ∈ all then x86Cr4Vmxe.setWidth 32 else 0) |||
    if 13 ∈ all then x86Cr4Osxsave.setWidth 32 else 0

def controlBits (all : List ℤ) : U64 := if 1 ∈ all then testBits else 0

/-- The state after the tests of `all`, with this one still loaded and these areas left behind. -/
structure Between (h₀ : Host) (all : List ℤ) (current : Option ℤ) (areas : List Block)
    (h : Host) : Prop where
  loaded : h.loaded = current
  count : areas.length = all.count 10
  live : h.live = areas.map (·, 0x440) ++ h.region.toList.map (·, 0x1000)
  areas : ∀ p ∈ areas, p < h.next ∧ h.region ≠ some p ∧ h.vmx ≠ some p
  region : ∀ p, h.region = some p → current = some 1 ∧ p < h.next
  vmx : ∀ p, h.vmx = some p → p < h.next
  cr0 : h.cr0.setWidth 32 = h₀.cr0.setWidth 32 ||| cr0Bits all
  cr4 : h.cr4.setWidth 32 = h₀.cr4.setWidth 32 ||| cr4Bits all
  control : h.msr msrIa32FeatureControl = h₀.msr msrIa32FeatureControl ||| controlBits all

/-- The commands that leave alone what `Between` speaks of. -/
def TestCmd.Keeps : TestCmd → Prop
  | .loadRegion | .rdmsrSafe _ | .rdmsrl _ | .readCr0 | .readCr4 | .rdpmc _ | .invd | .getsec _
  | .monitor | .mwait _ _ | .cpuidCount _ _ | .xsetbv _ _ _ | .printk _ => True
  | .wrmsrSafe msr _ _ => msr ≠ msrIa32FeatureControl
  | _ => False

variable {h₀ h h' : Host} {all : List ℤ} {current : Option ℤ} {areas : List Block} {tcNo : ℤ}

theorem between_keeps {c : TestCmd} {x : c.Answer} (hc : c.Keeps)
    (hb : Between h₀ all current areas h) (hx : Host.effect c x h = some h') :
    Between h₀ all current areas h' := by
  cases c with
  | loadRegion | rdmsrSafe | rdmsrl | readCr0 | readCr4 =>
    simp only [Host.effect, Option.ite_none_right_eq_some, Option.some.injEq] at hx
    rw [← hx.2]
    exact hb
  | wrmsrSafe msr low high =>
    simp only [Host.effect] at hx
    split_ifs at hx <;> cases hx
    · obtain ⟨hloaded, hcount, hlive, hareas, hregion, hvmx, hcr0, hcr4, hcontrol⟩ := hb
      have hmsr : msrIa32FeatureControl ≠ msr := fun heq => hc heq.symm
      exact ⟨hloaded, hcount, hlive, hareas, hregion, hvmx, hcr0, hcr4,
        (Function.update_of_ne hmsr _ _).trans hcontrol⟩
    · exact hb
  | rdpmc | invd | getsec | monitor | mwait | cpuidCount | xsetbv | printk =>
    cases hx
    exact hb
  | _ => exact hc.elim

/-- A test that sets no control bit and leaves no area behind. -/
theorem between_append (hb : Between h₀ all current areas h) (h1 : tcNo ≠ 1) (h10 : tcNo ≠ 10)
    (h12 : tcNo ≠ 12) (h13 : tcNo ≠ 13) : Between h₀ (all ++ [tcNo]) current areas h := by
  obtain ⟨hloaded, hcount, hlive, hareas, hregion, hvmx, hcr0, hcr4, hcontrol⟩ := hb
  refine ⟨hloaded, ?_, hlive, hareas, hregion, hvmx, ?_, ?_, ?_⟩
  · simp [hcount, h10]
  · simpa [cr0Bits, h12.symm] using hcr0
  · simpa [cr4Bits, h1.symm, h13.symm] using hcr4
  · simpa [controlBits, h1.symm] using hcontrol

end Between

section Quiet

theorem uses_printk (format : String) (args : List PrintArg) :
    (printk format args).Uses TestCmd.Keeps := Prog.uses_call.mpr trivial

theorem uses_ptReport (verb success : String) (r : Option ((String × U32) × U32)) :
    (ptReport verb success r).Uses TestCmd.Keeps := by
  cases r with
  | none => exact ⟨trivial, fun _ => trivial⟩
  | some stop => exact ⟨trivial, fun _ => trivial⟩

theorem uses_ptSweep {verb success : String} {access : U32 → TestProg U32}
    (haccess : ∀ row ∈ ptMsrs, (access row.2).Uses TestCmd.Keeps) :
    (ptSweep verb success access).Uses TestCmd.Keeps := by
  refine Prog.uses_bind (Prog.uses_untilError fun row hrow => ?_) (uses_ptReport verb success)
  refine Prog.uses_bind (uses_printk _ _) fun _ => ?_
  exact Prog.uses_bind (haccess row hrow) fun _ => trivial

theorem uses_ptCase : ptCase.Uses TestCmd.Keeps := by
  have hne : ∀ row ∈ ptMsrs, row.2 ≠ msrIa32FeatureControl := by decide
  refine Prog.uses_bind (uses_ptSweep fun row _ => ⟨trivial, fun _ => trivial⟩) fun _ => ?_
  refine Prog.uses_bind (uses_ptSweep fun row hrow => ⟨hne row hrow, fun _ => trivial⟩) fun _ => ?_
  trivial

theorem uses_printError (name : String) (err : U32) : (printError name err).Uses TestCmd.Keeps := by
  rw [printError]
  split_ifs
  · exact uses_printk _ _
  · trivial

theorem uses_testMpxRdmsr : testMpxRdmsr.Uses TestCmd.Keeps := by
  have hread : (rdmsrSafe msrIa32Bndcfgs).Uses TestCmd.Keeps := ⟨trivial, fun _ => trivial⟩
  refine Prog.uses_bind hread fun r => Prog.uses_bind (uses_printk _ _) fun _ => ?_
  exact Prog.uses_bind (uses_printError _ _) fun _ => trivial

theorem uses_testMpxWrmsr : testMpxWrmsr.Uses TestCmd.Keeps := by
  have hwrite : (wrmsrSafe msrIa32Bndcfgs 0 0).Uses TestCmd.Keeps :=
    ⟨show msrIa32Bndcfgs ≠ msrIa32FeatureControl by decide, fun _ => trivial⟩
  exact Prog.uses_bind hwrite fun err => Prog.uses_bind (uses_printError _ _) fun _ => trivial

theorem uses_mpxCase : mpxCase.Uses TestCmd.Keeps := by
  refine Prog.uses_bind (uses_printk _ _) fun _ => ?_
  exact Prog.uses_bind uses_testMpxRdmsr fun _ => Prog.uses_bind uses_testMpxWrmsr fun _ => trivial

theorem uses_reportCounter (ret : U64) : (reportCounter ret).Uses TestCmd.Keeps := by
  rw [reportCounter]
  split_ifs
  · exact uses_printk _ _
  · trivial

theorem uses_testRdpmc : testRdpmc.Uses TestCmd.Keeps := by
  have hround : ∀ i, ((asmRdpmc i).bind reportCounter).Uses TestCmd.Keeps :=
    fun i => Prog.uses_bind (Prog.uses_call.mpr trivial) uses_reportCounter
  exact Prog.uses_bind (Prog.uses_forEach fun i _ => hround i) fun _ => uses_printk _ _

theorem uses_testXsetbv : testXsetbv.Uses TestCmd.Keeps := by
  refine ⟨trivial, fun r => ⟨trivial, fun _ => ⟨trivial, fun _ => ⟨trivial, fun _ => ?_⟩⟩⟩⟩
  refine ⟨trivial, fun _ => ⟨trivial, fun _ => ⟨trivial, fun _ => ⟨trivial, fun _ => ?_⟩⟩⟩⟩
  exact ⟨trivial, fun _ => ⟨trivial, fun _ => ⟨trivial, fun _ => trivial⟩⟩⟩

/-- The tests that leave the kernel's and the processor's state alone. -/
theorem uses_testCase {tcNo : ℤ} (h1 : tcNo ≠ 1) (h2 : tcNo ≠ 2) (h10 : tcNo ≠ 10)
    (h12 : tcNo ≠ 12) (h13 : tcNo ≠ 13) : (testCase tcNo).Uses TestCmd.Keeps := by
  unfold testCase
  split
  · exact absurd rfl h1
  · exact absurd rfl h2
  · exact uses_ptCase
  · exact uses_testRdpmc
  · exact ⟨trivial, fun _ => ⟨trivial, fun _ => trivial⟩⟩
  · exact ⟨trivial, fun _ => ⟨trivial, fun _ => trivial⟩⟩
  · exact ⟨trivial, fun _ => ⟨trivial, fun _ => trivial⟩⟩
  · exact ⟨trivial, fun _ => ⟨trivial, fun _ => trivial⟩⟩
  · exact uses_mpxCase
  · exact absurd rfl h10
  · exact uses_testXsetbv
  · exact absurd rfl h12
  · exact absurd rfl h13
  · exact uses_printk _ _

end Quiet

section Tests

variable {h₀ h : Host} {all : List ℤ} {areas : List Block}

/-- After the test `tcNo`, loaded on top of these. -/
def Tested (h₀ : Host) (all : List ℤ) (tcNo : ℤ) (h : Host) : Prop :=
  ∃ areas, Between h₀ (all ++ [tcNo]) (some tcNo) areas h

theorem seq_printk {format : String} {args : List PrintArg} {Q : Host → Prop} (hQ : Q h) :
    Prog.seq Host.effect (printk format args) (fun _ => Q) h := by
  refine Prog.seq_call (f := .pure) fun x k hx => Prog.seq_pure ?_
  cases hx
  exact hQ

theorem seq_testVmxoff (hb : Between h₀ all (some 2) areas h) :
    Prog.seq Host.effect testVmxoff (fun _ => Tested h₀ all 2) h := by
  refine Prog.seq_call (f := .pure) fun x k hx => Prog.seq_pure ⟨areas, ?_⟩
  simp only [Host.effect, Option.ite_none_left_eq_some, Option.some.injEq] at hx
  rw [← hx.2]
  have hafter : Between h₀ (all ++ [2]) (some 2) areas h :=
    between_append hb (by decide) (by decide) (by decide) (by decide)
  obtain ⟨hloaded, hcount, hlive, hareas, hregion, hvmx, hcr0, hcr4, hcontrol⟩ := hafter
  exact ⟨hloaded, hcount, hlive, fun p hp => ⟨(hareas p hp).1, (hareas p hp).2.1, by simp⟩,
    hregion, by simp, hcr0, hcr4, hcontrol⟩

theorem seq_testXsaves (hfresh : h.region = none) (hb : Between h₀ all (some 10) areas h) :
    Prog.seq Host.effect testXsaves (fun _ => Tested h₀ all 10) h := by
  refine Prog.seq_call fun fx k hx => ?_
  refine Prog.seq_call fun u k' hx' => ?_
  simp only [Host.effect, Option.ite_none_left_eq_some, Option.some.injEq] at hx'
  obtain ⟨hfx, rfl⟩ := hx'
  obtain ⟨p, rfl⟩ := Option.ne_none_iff_exists'.mp hfx
  simp only [Host.effect, Option.ite_none_right_eq_some, Option.some.injEq] at hx
  obtain ⟨rfl, rfl⟩ := hx
  obtain ⟨hloaded, hcount, hlive, hareas, hregion, hvmx, hcr0, hcr4, hcontrol⟩ := hb
  refine seq_printk ⟨areas ++ [h.next], hloaded, ?_, ?_, ?_, ?_, ?_, ?_, ?_, ?_⟩
  · simp [hcount]
  · simp [hlive, hfresh]
  · intro p hp
    rcases List.mem_append.mp hp with hp | hp
    · exact ⟨Nat.lt_succ_of_lt (hareas p hp).1, (hareas p hp).2⟩
    · rw [List.mem_singleton.mp hp]
      refine ⟨Nat.lt_succ_self _, by simp [hfresh], fun heq => ?_⟩
      exact absurd (hvmx _ heq) (Nat.lt_irrefl _)
  · exact fun p hp => absurd hp (by simp [hfresh])
  · exact fun p hp => Nat.lt_succ_of_lt (hvmx p hp)
  · simpa [cr0Bits] using hcr0
  · simpa [cr4Bits] using hcr4
  · simpa [controlBits] using hcontrol

theorem setWidth_through (v bit : U64) :
    ((v.setWidth 32).setWidth 64 ||| bit).setWidth 32 = v.setWidth 32 ||| bit.setWidth 32 := by
  rw [BitVec.setWidth_or, BitVec.setWidth_setWidth_of_le _ (by decide), BitVec.setWidth_eq]

theorem cr0Bits_append (all : List ℤ) :
    cr0Bits (all ++ [12]) = cr0Bits all ||| x86Cr0Cd.setWidth 32 := by
  by_cases h : 12 ∈ all <;> simp [cr0Bits, h]

theorem cr4Bits_append_one (all : List ℤ) :
    cr4Bits (all ++ [1]) = cr4Bits all ||| x86Cr4Vmxe.setWidth 32 := by
  by_cases h : 1 ∈ all <;> by_cases h' : 13 ∈ all <;> simp [cr4Bits, h, h'] <;> decide

theorem cr4Bits_append (all : List ℤ) :
    cr4Bits (all ++ [13]) = cr4Bits all ||| x86Cr4Osxsave.setWidth 32 := by
  by_cases h : 1 ∈ all <;> by_cases h' : 13 ∈ all <;> simp [cr4Bits, h, h']
  decide

theorem controlBits_append (all : List ℤ) :
    controlBits (all ++ [1]) = controlBits all ||| testBits := by
  by_cases h : 1 ∈ all <;> simp [controlBits, h]

theorem seq_testAccessCr0 (hb : Between h₀ all (some 12) areas h) :
    Prog.seq Host.effect testAccessCr0 (fun _ => Tested h₀ all 12) h := by
  refine Prog.seq_call fun cr0 k hx => ?_
  simp only [Host.effect, Option.ite_none_right_eq_some, Option.some.injEq] at hx
  obtain ⟨rfl, rfl⟩ := hx
  refine Prog.seq_call fun u k hx => ?_
  cases hx
  obtain ⟨hloaded, hcount, hlive, hareas, hregion, hvmx, hcr0, hcr4, hcontrol⟩ := hb
  refine seq_printk ⟨areas, hloaded, ?_, hlive, hareas, ?_, hvmx, ?_, ?_, ?_⟩
  · simp [hcount]
  · exact fun p hp => absurd (hregion p hp).1 (by decide)
  · show (((h.cr0.setWidth 32).setWidth 64 ||| x86Cr0Cd).setWidth 32 : U32) = _
    rw [setWidth_through, hcr0, cr0Bits_append, BitVec.or_assoc]
  · simpa [cr4Bits] using hcr4
  · simpa [controlBits] using hcontrol

theorem seq_testAccessCr4 (hb : Between h₀ all (some 13) areas h) :
    Prog.seq Host.effect testAccessCr4 (fun _ => Tested h₀ all 13) h := by
  refine Prog.seq_call fun cr4 k hx => ?_
  simp only [Host.effect, Option.ite_none_right_eq_some, Option.some.injEq] at hx
  obtain ⟨rfl, rfl⟩ := hx
  refine Prog.seq_call fun u k hx => ?_
  cases hx
  obtain ⟨hloaded, hcount, hlive, hareas, hregion, hvmx, hcr0, hcr4, hcontrol⟩ := hb
  refine seq_printk ⟨areas, hloaded, ?_, hlive, hareas, ?_, hvmx, ?_, ?_, ?_⟩
  · simp [hcount]
  · exact fun p hp => absurd (hregion p hp).1 (by decide)
  · simpa [cr0Bits] using hcr0
  · show (((h.cr4.setWidth 32).setWidth 64 ||| x86Cr4Osxsave).setWidth 32 : U32) = _
    rw [setWidth_through, hcr4, cr4Bits_append, BitVec.or_assoc]
  · simpa [controlBits] using hcontrol

/-- Whether the bits were there or had to be written, they are there then. -/
theorem seq_enableVmxon {P : Host → Prop} {old : U64} (hold : old = h.msr msrIa32FeatureControl)
    (hP : P (h.setMsr msrIa32FeatureControl (h.msr msrIa32FeatureControl ||| testBits))) :
    Prog.seq Host.effect (enableVmxon old) (fun _ => P) h := by
  subst hold
  by_cases hbits : h.msr msrIa32FeatureControl &&& testBits = testBits
  · have hsame : h.msr msrIa32FeatureControl ||| testBits = h.msr msrIa32FeatureControl := by
      rw [← hbits]
      ext i
      simp only [BitVec.getElem_or, BitVec.getElem_and]
      cases (h.msr msrIa32FeatureControl)[i] <;> simp
    have hset : h.setMsr msrIa32FeatureControl (h.msr msrIa32FeatureControl) = h := by
      rw [Host.setMsr, Function.update_eq_self]
    rw [hsame, hset] at hP
    rw [enableVmxon, if_neg (not_not.mpr hbits)]
    exact Prog.seq_pure hP
  · rw [enableVmxon, if_pos hbits]
    refine Prog.seq_call (f := .pure) fun u k hx => Prog.seq_pure ?_
    simp only [Host.effect, Option.ite_none_left_eq_some, Option.some.injEq] at hx
    rw [← hx.2]
    exact hP

/-- What `test_vmxon` changes. -/
structure Entered (addr : Option Block) (h k : Host) : Prop where
  same : k.loaded = h.loaded ∧ k.region = h.region ∧ k.live = h.live ∧ k.next = h.next ∧
    k.cr0 = h.cr0
  cr4 : k.cr4 = h.cr4 ||| x86Cr4Vmxe
  control : k.msr msrIa32FeatureControl = h.msr msrIa32FeatureControl ||| testBits
  vmx : k.vmx = h.vmx ∨ k.vmx = addr

theorem seq_testVmxon (addr : Option Block) (h : Host) :
    Prog.seq Host.effect (testVmxon addr) (fun _ => Entered addr h) h := by
  refine Prog.seq_call fun old k hx => ?_
  simp only [Host.effect, Option.ite_none_right_eq_some, Option.some.injEq] at hx
  obtain ⟨hold, rfl⟩ := hx
  have henable : Prog.seq Host.effect (enableVmxon old) (fun _ k => k = h.setMsr
      msrIa32FeatureControl (h.msr msrIa32FeatureControl ||| testBits)) h :=
    seq_enableVmxon hold rfl
  refine Prog.seq_bind henable ?_
  rintro ⟨⟩ k rfl
  refine Prog.seq_call fun cr4 k hx => ?_
  simp only [Host.effect, Option.ite_none_right_eq_some, Option.some.injEq] at hx
  obtain ⟨rfl, rfl⟩ := hx
  refine Prog.seq_call fun u k hx => ?_
  cases hx
  refine Prog.seq_call fun entered k hx => seq_printk ?_
  have hset : (h.setMsr msrIa32FeatureControl (h.msr msrIa32FeatureControl ||| testBits)).msr
      msrIa32FeatureControl = h.msr msrIa32FeatureControl ||| testBits := h.setMsr_self _ _
  simp only [Host.effect] at hx
  split_ifs at hx <;> cases hx
  · exact ⟨⟨rfl, rfl, rfl, rfl, rfl⟩, rfl, hset, .inl rfl⟩
  · exact ⟨⟨rfl, rfl, rfl, rfl, rfl⟩, rfl, hset, .inr rfl⟩

theorem seq_vmxonCase (hfresh : h.region = none) (hb : Between h₀ all (some 1) areas h) :
    Prog.seq Host.effect vmxonCase (fun _ => Tested h₀ all 1) h := by
  obtain ⟨hloaded, hcount, hlive, hareas, hregion, hvmx, hcr0, hcr4, hcontrol⟩ := hb
  refine Prog.seq_call fun p k hx => ?_
  refine Prog.seq_call fun u k' hx' => ?_
  cases hx'
  refine Prog.seq_call fun addr k'' hx'' => ?_
  simp only [Host.effect, Option.ite_none_right_eq_some, Option.some.injEq] at hx''
  obtain ⟨rfl, rfl⟩ := hx''
  -- With the static stored, the allocation is the region, and there is none if it failed.
  have hk : Between h₀ all (some 1) areas { k with region := addr } := by
    cases addr with
    | none =>
      obtain rfl := Option.some.inj hx
      exact ⟨hloaded, hcount, by simp [hlive, hfresh], fun q hq => ⟨(hareas q hq).1, by simp,
        (hareas q hq).2.2⟩, by simp, hvmx, hcr0, hcr4, hcontrol⟩
    | some q =>
      simp only [Host.effect, Option.ite_none_right_eq_some, Option.some.injEq] at hx
      obtain ⟨rfl, rfl⟩ := hx
      refine ⟨hloaded, hcount, by simp [hlive, hfresh], fun q hq => ?_, ?_, fun q hq => ?_, hcr0,
        hcr4, hcontrol⟩
      · obtain ⟨hlt, -, hne⟩ := hareas q hq
        exact ⟨Nat.lt_succ_of_lt hlt, fun heq => (Nat.ne_of_lt hlt) (Option.some.inj heq).symm, hne⟩
      · rintro q hq
        cases hq
        exact ⟨rfl, Nat.lt_succ_self _⟩
      · exact Nat.lt_succ_of_lt (hvmx q hq)
  refine Prog.rg_mono (fun _ k' _ hentered => ⟨areas, ?_⟩)
    (seq_testVmxon addr { k with region := addr })
  obtain ⟨⟨hloaded', hregion', hlive', hnext', hcr0'⟩, hcr4', hcontrol', hvmx'⟩ := hentered
  constructor
  · rw [hloaded', hk.loaded]
  · simp [hk.count]
  · rw [hlive', hregion', hk.live]
  · intro q hq
    obtain ⟨hlt, hne, hvmx⟩ := hk.areas q hq
    refine ⟨hnext' ▸ hlt, hregion' ▸ hne, ?_⟩
    rcases hvmx' with hsame | hentered
    · rw [hsame]
      exact hvmx
    · rw [hentered]
      exact hne
  · intro q hq
    rw [hregion'] at hq
    exact ⟨rfl, hnext' ▸ (hk.region q hq).2⟩
  · intro q hq
    rcases hvmx' with hsame | hentered
    · exact hnext' ▸ hk.vmx q (hsame ▸ hq)
    · exact hnext' ▸ (hk.region q (hentered ▸ hq)).2
  · rw [hcr0', hk.cr0]
    simp [cr0Bits]
  · rw [hcr4', BitVec.setWidth_or, hk.cr4, cr4Bits_append_one, BitVec.or_assoc]
  · rw [hcontrol', hk.control, controlBits_append, BitVec.or_assoc]

theorem seq_testCase {tcNo : ℤ} (hfresh : h.region = none)
    (hb : Between h₀ all (some tcNo) areas h) :
    Prog.seq Host.effect (testCase tcNo) (fun _ => Tested h₀ all tcNo) h := by
  by_cases h1 : tcNo = 1
  · subst h1
    exact seq_vmxonCase hfresh hb
  by_cases h2 : tcNo = 2
  · subst h2
    exact seq_testVmxoff hb
  by_cases h10 : tcNo = 10
  · subst h10
    exact seq_testXsaves hfresh hb
  by_cases h12 : tcNo = 12
  · subst h12
    exact seq_testAccessCr0 hb
  by_cases h13 : tcNo = 13
  · subst h13
    exact seq_testAccessCr4 hb
  · have hquiet : Prog.seq Host.effect (testCase tcNo)
        (fun _ => Between h₀ all (some tcNo) areas) h :=
      Prog.seq_frame (fun c x g k hc hJ hx => between_keeps hc hJ hx)
        (uses_testCase h1 h2 h10 h12 h13) hb
    exact Prog.rg_mono (fun _ k _ hk => ⟨areas, between_append hk h1 h10 h12 h13⟩) hquiet

theorem seq_initTestMode {tcNo : ℤ} (hfresh : h.region = none)
    (hb : Between h₀ all (some tcNo) areas h) :
    Prog.seq Host.effect (initTestMode tcNo) (fun ret k => ret = 0 ∧ Tested h₀ all tcNo k) h := by
  refine Prog.seq_call fun u k hx => ?_
  cases hx
  exact Prog.seq_bind (seq_testCase hfresh hb) fun _ k hk => Prog.seq_pure ⟨rfl, hk⟩

/-- An unload frees the region, and forgets nothing else. -/
theorem seq_exitTestMode {current : Option ℤ} (hb : Between h₀ all current areas h) :
    Prog.seq Host.effect exitTestMode
      (fun _ k => Between h₀ all none areas { k with loaded := none, region := none }) h := by
  refine Prog.seq_call fun u k hx => ?_
  cases hx
  refine Prog.seq_call fun region k hx => ?_
  simp only [Host.effect, Option.ite_none_right_eq_some, Option.some.injEq] at hx
  obtain ⟨hregion, rfl⟩ := hx
  obtain ⟨hloaded, hcount, hlive, hareas, hone, hvmx, hcr0, hcr4, hcontrol⟩ := hb
  have hareas' : ∀ p ∈ areas, p < h.next ∧ (none : Option Block) ≠ some p ∧ h.vmx ≠ some p :=
    fun p hp => ⟨(hareas p hp).1, by simp, (hareas p hp).2.2⟩
  cases region with
  | none =>
    refine Prog.seq_pure ⟨rfl, hcount, ?_, hareas', by simp, hvmx, hcr0, hcr4, hcontrol⟩
    rw [hlive, ← hregion]
  | some p =>
    refine Prog.seq_call (f := .pure) fun u k hx => Prog.seq_pure ?_
    cases hx
    refine ⟨rfl, hcount, ?_, hareas', by simp, hvmx, hcr0, hcr4, hcontrol⟩
    have hkept : (areas.map (·, 0x440)).filter (fun b => b.1 ≠ p) = areas.map (·, 0x440) := by
      apply List.filter_eq_self.mpr
      intro b hmem
      obtain ⟨q, hq, rfl⟩ := List.mem_map.mp hmem
      have hne : q ≠ p := by
        rintro rfl
        exact (hareas q hq).2.1 hregion.symm
      simpa using hne
    rw [hlive, ← hregion, List.filter_append, hkept]
    simp

end Tests

section Serve

variable {h₀ h : Host} {past : List Request} {tcNo : ℤ}

/-- Between two requests. -/
def Served (h₀ : Host) (past : List Request) (h : Host) : Prop :=
  ∃ areas, Between h₀ (loads past).all (loads past).current areas h

theorem loads_append (past : List Request) (req : Request) :
    loads (past ++ [req]) = (loads past).serve req := by
  rw [loads, List.foldl_append]
  rfl

theorem seq_testCalls {α : Type} {p : TestProg α} {Q : α → Host → Prop}
    (h' : Prog.seq Host.effect p Q h) :
    Prog.seq Host.sessionEffect (p.expand testCall) Q h :=
  Prog.seq_expand testCall (fun _ _ _ hQ =>
    Prog.seq_call (f := .pure) fun x k hx => Prog.seq_pure (hQ x k hx)) h'

theorem seq_insmod (hs : Served h₀ past h) :
    Prog.seq Host.sessionEffect (serve (.insmod tcNo))
      (fun _ => Served h₀ (past ++ [.insmod tcNo])) h := by
  obtain ⟨areas, hb⟩ := hs
  have hcurrent : h.loaded = (loads past).current := hb.loaded
  refine Prog.seq_call fun accepted k hx => ?_
  simp only [Host.sessionEffect, Option.ite_none_right_eq_some, Option.some.injEq] at hx
  obtain ⟨haccepted, rfl⟩ := hx
  cases hloaded : h.loaded with
  | some tc =>
    have hsame : loads (past ++ [.insmod tcNo]) = loads past := by
      rw [loads_append, Loads.serve, ← hcurrent, hloaded, if_neg (by simp)]
    rw [hloaded] at haccepted
    have hserved : Served h₀ (past ++ [.insmod tcNo]) h := by
      rw [Served, hsame]
      exact ⟨areas, hb⟩
    obtain rfl : accepted = false := haccepted
    exact Prog.seq_pure hserved
  | none =>
    have hnext : loads (past ++ [.insmod tcNo]) = ⟨(loads past).all ++ [tcNo], some tcNo⟩ := by
      rw [loads_append, Loads.serve, ← hcurrent, hloaded, if_pos rfl]
    rw [hloaded] at haccepted
    obtain rfl : accepted = true := haccepted
    obtain ⟨-, hcount, hlive, hareas, hregion, hvmx, hcr0, hcr4, hcontrol⟩ := hb
    have hnone : h.region = none := by
      rw [← hcurrent, hloaded] at hregion
      cases hr : h.region with
      | none => rfl
      | some p => exact absurd (hregion p hr).1 (by simp)
    rw [hnone] at hlive
    have hb' : Between h₀ (loads past).all (some tcNo) areas
        { h with loaded := some tcNo, region := none } :=
      ⟨rfl, hcount, hlive, fun p hp => ⟨(hareas p hp).1, by simp, (hareas p hp).2.2⟩, by simp, hvmx,
        hcr0, hcr4, hcontrol⟩
    refine Prog.seq_bind (seq_testCalls (seq_initTestMode rfl hb')) ?_
    rintro ret k ⟨rfl, htested⟩
    have hserved : Served h₀ (past ++ [.insmod tcNo]) k := by
      rw [Served, hnext]
      exact htested
    exact Prog.seq_pure hserved

theorem seq_rmmod (hs : Served h₀ past h) :
    Prog.seq Host.sessionEffect (serve .rmmod) (fun _ => Served h₀ (past ++ [.rmmod])) h := by
  obtain ⟨areas, hb⟩ := hs
  have hcurrent : h.loaded = (loads past).current := hb.loaded
  have hnext : loads (past ++ [.rmmod]) = ⟨(loads past).all, none⟩ := loads_append past .rmmod
  refine Prog.seq_call fun accepted k hx => ?_
  simp only [Host.sessionEffect, Option.ite_none_right_eq_some, Option.some.injEq] at hx
  obtain ⟨haccepted, rfl⟩ := hx
  cases hloaded : h.loaded with
  | none =>
    rw [hloaded] at haccepted
    obtain rfl : accepted = false := haccepted
    have hserved : Served h₀ (past ++ [.rmmod]) h := by
      rw [← hcurrent, hloaded] at hb
      rw [Served, hnext]
      exact ⟨areas, hb⟩
    exact Prog.seq_pure hserved
  | some tc =>
    rw [hloaded] at haccepted
    obtain rfl : accepted = true := haccepted
    refine Prog.seq_bind (seq_testCalls (seq_exitTestMode hb)) fun _ k hk => ?_
    refine Prog.seq_call (f := .pure) fun u k' hx => Prog.seq_pure ?_
    cases hx
    rw [Served, hnext]
    exact ⟨areas, hk⟩

theorem seq_session (reqs : List Request) (hs : Served h₀ [] h) :
    Prog.seq Host.sessionEffect (session reqs) (fun _ => Served h₀ reqs) h := by
  refine Prog.seq_forEach (Served h₀) (fun past req k hk => ?_) hs
  cases req with
  | insmod tcNo => exact seq_insmod hk
  | rmmod => exact seq_rmmod hk

theorem served_of_run {cr0 cr4 : U64} {msr : U32 → U64} {reqs : List Request}
    {tr : List (Threads.Action Unit ((c : SessionCmd) → c.Answer) Empty)}
    {t : Threads.State Unit Host (SessionProg (List Unit))} {results : List Unit}
    (hrun : (Prog.tasks fun _ => Host.sessionEffect).machine.run
      ⟨Host.boot cr0 cr4 msr, fun _ => session reqs⟩ tr = some t)
    (hdone : t.locals () = .pure results) : Served (Host.boot cr0 cr4 msr) reqs t.shared := by
  have hstart : Served (Host.boot cr0 cr4 msr) [] (Host.boot cr0 cr4 msr) := by
    refine ⟨[], rfl, rfl, rfl, by simp, ?_, ?_, ?_, ?_, ?_⟩ <;>
      simp [Host.boot, loads, cr0Bits, cr4Bits, controlBits]
  exact Prog.seq_run (seq_session reqs hstart) hrun hdone

/-- Answers with this allocation and this value of the static; nothing else is refused, and the
registers are read as 0. -/
def granting (block : Block) (region : Option Block) : (c : SessionCmd) → c.Answer
  | .insmod _ | .rmmod => true
  | .freeImage => ()
  | .test (.kmalloc _) => some block
  | .test .loadRegion => region
  | .test (.vmxon _) => true
  | .test c => (default : c.Answer)

/-- A VMXON test and an XSAVES test, each loaded and unloaded. -/
def vmxonXsaves : List Request := [.insmod 1, .rmmod, .insmod 10, .rmmod]

def vmxonXsavesRun : List (Threads.Action Unit ((c : SessionCmd) → c.Answer) Empty) :=
  List.replicate 16 (.thread () (granting 0 (some 0))) ++
    List.replicate 9 (.thread () (granting 1 none))

theorem exists_vmxonXsaves : ∃ t results, (Prog.tasks fun _ => Host.sessionEffect).machine.run
      ⟨Host.boot 0 0 fun _ => 0, fun _ => session vmxonXsaves⟩ vmxonXsavesRun = some t ∧
    t.locals () = .pure results ∧ t.shared.vmx = some 0 := by
  have hrun : ((Prog.tasks fun _ => Host.sessionEffect).machine.run
      ⟨Host.boot 0 0 fun _ => 0, fun _ => session vmxonXsaves⟩ vmxonXsavesRun).map
        (fun t => ((t.locals ()).done, t.shared.vmx)) = some (true, some 0) := by decide +kernel
  obtain ⟨t, ht, hend⟩ := Option.map_eq_some_iff.mp hrun
  obtain ⟨hdone, hvmx⟩ := Prod.mk.inj hend
  obtain ⟨results, hresults⟩ := Prog.eq_pure_of_done hdone
  exact ⟨t, results, ht, hresults, hvmx⟩

/-- What a finished session has left in memory: one area for each XSAVES test, and the region of
a VMXON test that is still loaded. If the processor is in VMX operation and that test is not
loaded, its region has been freed. -/
theorem session_memory (cr0 cr4 : U64) (msr : U32 → U64) (reqs : List Request)
    (tr : List (Threads.Action Unit ((c : SessionCmd) → c.Answer) Empty))
    (t : Threads.State Unit Host (SessionProg (List Unit))) (results : List Unit)
    (hrun : (Prog.tasks fun _ => Host.sessionEffect).machine.run
      ⟨Host.boot cr0 cr4 msr, fun _ => session reqs⟩ tr = some t)
    (hdone : t.locals () = .pure results) :
    (∃ areas : List Block, areas.length = (loads reqs).all.count 10 ∧
      t.shared.live = areas.map (·, 0x440) ++ t.shared.region.toList.map (·, 0x1000)) ∧
    (t.shared.region.isSome → (loads reqs).current = some 1) ∧
    ∀ p, t.shared.vmx = some p → (loads reqs).current ≠ some 1 → ∀ b ∈ t.shared.live, b.1 ≠ p := by
  obtain ⟨areas, hb⟩ := served_of_run hrun hdone
  refine ⟨⟨areas, hb.count, hb.live⟩, fun hsome => ?_, fun p hp hcurrent b hmem => ?_⟩
  · obtain ⟨p, hp⟩ := Option.isSome_iff_exists.mp hsome
    exact (hb.region p hp).1
  · have hnone : t.shared.region = none := by
      cases hr : t.shared.region with
      | none => rfl
      | some q => exact absurd (hb.region q hr).1 hcurrent
    have hlive := hb.live
    rw [hnone, Option.toList_none, List.map_nil, List.append_nil] at hlive
    rw [hlive] at hmem
    obtain ⟨q, hq, rfl⟩ := List.mem_map.mp hmem
    rintro rfl
    exact (hb.areas q hq).2.2 hp

/-- The processor keeps running with the region of the first test, which is gone. -/
theorem session_memory_vmxon : ∃ t : Threads.State Unit Host (SessionProg (List Unit)),
    t.shared.vmx = some 0 ∧
    (∃ areas : List Block, areas.length = (loads vmxonXsaves).all.count 10 ∧
      t.shared.live = areas.map (·, 0x440) ++ t.shared.region.toList.map (·, 0x1000)) ∧
    (t.shared.region.isSome → (loads vmxonXsaves).current = some 1) ∧
    ∀ p, t.shared.vmx = some p → (loads vmxonXsaves).current ≠ some 1 →
      ∀ b ∈ t.shared.live, b.1 ≠ p := by
  obtain ⟨t, results, ht, hresults, hvmx⟩ := exists_vmxonXsaves
  exact ⟨t, hvmx, session_memory 0 0 (fun _ => 0) vmxonXsaves vmxonXsavesRun t results ht hresults⟩

/-- The control registers and the feature control MSR of the processor that a finished session ran
on, where nothing but the session wrote to them: no unload takes back a bit that a test has set,
and none but these tests sets one. -/
theorem session_registers (cr0 cr4 : U64) (msr : U32 → U64) (reqs : List Request)
    (tr : List (Threads.Action Unit ((c : SessionCmd) → c.Answer) Empty))
    (t : Threads.State Unit Host (SessionProg (List Unit))) (results : List Unit)
    (hrun : (Prog.tasks fun _ => Host.sessionEffect).machine.run
      ⟨Host.boot cr0 cr4 msr, fun _ => session reqs⟩ tr = some t)
    (hdone : t.locals () = .pure results) :
    t.shared.cr0.setWidth 32 = cr0.setWidth 32 ||| cr0Bits (loads reqs).all ∧
    t.shared.cr4.setWidth 32 = cr4.setWidth 32 ||| cr4Bits (loads reqs).all ∧
    t.shared.msr msrIa32FeatureControl =
      msr msrIa32FeatureControl ||| controlBits (loads reqs).all := by
  obtain ⟨areas, hb⟩ := served_of_run hrun hdone
  exact ⟨hb.cr0, hb.cr4, hb.control⟩

theorem session_registers_vmxon : ∃ t : Threads.State Unit Host (SessionProg (List Unit)),
    t.shared.cr0.setWidth 32 = (0 : U64).setWidth 32 ||| cr0Bits (loads vmxonXsaves).all ∧
    t.shared.cr4.setWidth 32 = (0 : U64).setWidth 32 ||| cr4Bits (loads vmxonXsaves).all ∧
    t.shared.msr msrIa32FeatureControl = 0 ||| controlBits (loads vmxonXsaves).all := by
  obtain ⟨t, results, ht, hresults, -⟩ := exists_vmxonXsaves
  exact ⟨t, session_registers 0 0 (fun _ => 0) vmxonXsaves vmxonXsavesRun t results ht hresults⟩

end Serve

end PcmTest.TestModule
