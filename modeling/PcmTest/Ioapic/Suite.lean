import PcmTest.Ioapic.Counters
import PcmTest.Ioapic.LevelTests

/-!
# The ioctl that runs the interrupt tests

The tests that use a second CPU, the whole of `test_ioapic`, and the histories of its
ioctls since the load of the module. The statics are never reset: what an ioctl counts
and how many interrupts it takes depends on the ioctls before it.
-/

namespace PcmTest.Ioapic

open Theory

section SecondCpu

variable {U V : Cmd → Prop} {l l' : Line} {t t' : Slate} {w : World} {platform : Platform}
  {vars : Var → U32} {taken : Isr → ℕ}

theorem Shows.uses (h : Shows U l t w) (hV : w.second.Uses V) : Shows V l t w :=
  { h with second := hV }

/-- While an access waits, only the second CPU moves. -/
theorem step_blocked {c : Cmd} {next : c.Answer → IoapicProg Unit} {frames : List (IoapicProg Unit)}
    {a : CpuAction} {s : CpuState} (hrequest : w.request = none) (hwait : w.goesOn c = false)
    (h : cpu.step ⟨.op c next, frames, w⟩ a = some s) :
    ∃ u, w.Second u ∧ s = ⟨.op c next, frames, u⟩ := by
  cases a with
  | main out => simp [cpu, hwait] at h
  | interrupt => simp [cpu, hrequest] at h
  | iret => simp [cpu] at h
  | second out => exact step_second h

theorem goesOn_blocked {c : Cmd} (hwait : w.ready c = false) : w.goesOn c = false := by
  rw [World.goesOn, hwait, Bool.and_false]

/-- What an access waits for has to come from the second CPU. -/
theorem ends_second {c c' : Cmd} {next : c'.Answer → IoapicProg Unit}
    {Q : c.Answer → World → Prop} (hsecond : w.second = .op c' next) (hrequest : w.request = none)
    (hwait : w.ready c = false)
    (h : ∀ out, Ends (Prog.call c) (w.secondAccess out c' next) Q) : Ends (Prog.call c) w Q := by
  intro frames k
  refine .next ⟨.second fun _ => default,
    ⟨.op c k, frames, w.secondAccess (fun _ => default) c' next⟩, ?_⟩ fun a s hs => ?_
  · simp only [cpu, hsecond]
    rfl
  · obtain ⟨u, ⟨out, c₀, next₀, hsecond₀, rfl⟩, rfl⟩ :=
      step_blocked hrequest (goesOn_blocked hwait) hs
    rw [hsecond] at hsecond₀
    cases hsecond₀
    exact h out frames k

theorem effect_smpCall {i : ℕ} (f : Remote) (out : Outside) (hcpu : i ∈ w.platform.online) :
    (w.effect out (.smpCall i f)).2 = { w with second := f.body } := if_pos hcpu

/-- A call to the second CPU waits for the one before it. -/
theorem ends_smpCall (f : Remote) (hU : Tame U l) (hcalm : l.calm = true) (h : Shows U l t w)
    (hcpu : 1 ∈ t.platform.online) :
    Ends (Prog.call (Cmd.smpCall 1 f)) w fun _ w' =>
      Shows (fun _ => True) l t w' ∧ w'.second = f.body := by
  obtain ⟨hrequest, hhalted, hshadow⟩ := calm_parts hcalm
  generalize hs : w.second = s
  induction s generalizing w with
  | pure u =>
    have hready : w.ready (.smpCall 1 f) = true := by rw [World.ready, hs]; rfl
    refine ends_call (P := fun w => Shows U l t w ∧ w.second = .pure ())
      (stable_alone fun w h => h.2) (fun w h => ?_) (fun w out h => ?_) ⟨h, hs⟩
    · exact goesOn_shows h.1 hrequest hhalted (by rw [World.ready, h.2]; rfl)
    · have heffect : (w.access out (.smpCall 1 f)).2 =
          { w with second := f.body, shadow := false } :=
        congrArg (fun u : World => { u with shadow := false })
          (effect_smpCall f out (h.1.platform ▸ hcpu))
      rw [heffect]
      exact ⟨{ h.1 with
        shadow := hshadow.symm
        second := Prog.uses_of_forall (fun _ => trivial) _ }, rfl⟩
  | op c next ih =>
    refine ends_second hs ((request_shows h).trans hrequest) (by rw [World.ready, hs]; rfl)
      fun out => ?_
    exact ih _ (stable_shows hU w _ h ⟨out, c, next, hs, rfl⟩) rfl

/-- A call to a CPU that is not online runs nothing, and nobody stores what the loop behind it waits
for. -/
theorem step_offline {i : ℕ} (f : Remote) (out : Outside) (hcpu : i ∉ w.platform.online)
    (hsecond : w.second = .pure ()) (hrequest : (w.access out (.smpCall i f)).2.request = none)
    (v : Var) (next : Unit → IoapicProg Unit) (frames : List (IoapicProg Unit)) (a : CpuAction) :
    cpu.step ⟨.op (.spinWhile v (w.vars v)) next, frames, (w.access out (.smpCall i f)).2⟩ a =
      none := by
  have heffect : (w.access out (.smpCall i f)).2 = { w with shadow := false } :=
    congrArg (fun u : World => { u with shadow := false }) (if_neg hcpu)
  rw [heffect] at hrequest ⊢
  have hwait : World.ready { w with shadow := false } (.spinWhile v (w.vars v)) = false :=
    bne_self_eq_false _
  cases hstep : cpu.step ⟨.op (.spinWhile v (w.vars v)) next, frames, { w with shadow := false }⟩ a
  with
  | none => rfl
  | some s =>
    obtain ⟨u, ⟨_, c, next', hleft, -⟩, -⟩ := step_blocked hrequest (goesOn_blocked hwait) hstep
    cases hsecond.symm.trans hleft

/-- The commands that the second CPU may still have to do in the next test. -/
def Lowers (c : Cmd) : Prop := c = .cli ∨ c = .sti ∨ c = .out 0 (irqPort 0x0e)

theorem tame_lowers (hline : l.high = false ∨ isLevel l.word = false) : Tame Lowers l := by
  rintro c (rfl | rfl | rfl)
  · rfl
  · rfl
  · rcases hline with hlow | hedge
    · simp [Line.tolerates, hlow]
    · simp [Line.tolerates, hedge]

def OnlySti (c : Cmd) : Prop := c = .sti

theorem tame_onlySti : Tame OnlySti l := by
  rintro c rfl
  rfl

theorem flag_drive (up : Bool) (l : Line) : (l.drive up).irqFlag = l.irqFlag := by
  unfold Line.drive Line.service
  split_ifs <;> rfl

theorem lineHigh_of_low (h : Shows U l t w) (hlow : l.high = false) :
    w.lineHigh 0x0e = l.high := by
  rcases h.line with hline | ⟨-, hhigh⟩
  · exact hline
  · exact absurd (hlow.symm.trans hhigh) Bool.false_ne_true

/-- The loop of a test, while the second CPU raises the line for it. -/
theorem ends_raised {v : Var} {x : U32} {rest : IoapicProg Unit} {Q : Unit → World → Prop}
    (h : Shows V l t w)
    (hsecond : w.second = .op .cli fun _ => .op (.out 1 (irqPort 0x0e)) fun _ => rest)
    (hrest : rest.Uses U) (hcalm : l.calm = true) (hlow : l.high = false) (hwait : t.vars v = x)
    (hnext : ∀ w, Shows U (l.drive true) (t.drive true l) w →
      Ends (Prog.call (Cmd.spinWhile v x)) w Q) : Ends (Prog.call (Cmd.spinWhile v x)) w Q := by
  obtain ⟨hrequest, -, -⟩ := calm_parts hcalm
  have hready : w.ready (.spinWhile v x) = false := by
    rw [World.ready, h.vars, hwait, bne_self_eq_false]
  have huses : (Prog.op Cmd.cli fun _ => .op (.out 1 (irqPort 0x0e)) fun _ => rest).Uses V :=
    hsecond ▸ h.second
  refine ends_second hsecond ((request_shows h).trans hrequest) hready fun out => ?_
  -- interrupts are off on the second CPU alone
  have hoff : Shows V l t (w.secondAccess out .cli fun _ => .op (.out 1 (irqPort 0x0e)) fun _ =>
      rest) := { h with irqFlag := h.irqFlag, second := huses.2 () }
  refine ends_second rfl ((request_shows hoff).trans hrequest) hready fun out => hnext _ ?_
  have hraised := shows_drive hoff true fun _ _ => lineHigh_of_low hoff hlow
  exact { hraised with irqFlag := h.irqFlag.trans (flag_drive true l).symm, second := hrest }

/-- The loop is left when the handler has stored what it waits for. -/
theorem ends_spin {v : Var} {x : U32} (hU : Tame U l) (hcalm : l.calm = true) (h : Shows U l t w)
    (hne : t.vars v ≠ x) :
    Ends (Prog.call (Cmd.spinWhile v x)) w fun _ => Shows U l t := by
  refine ends_quiet h hU hcalm nofun (fun w h => ?_) (fun _ _ h => h) rfl
  rw [World.ready, h.vars, bne_iff_ne]
  exact hne

/-- What both tests with the second CPU do before their loop. -/
theorem ends_smp {R : World → Prop} {trigMode : TriggerMode} {f : Remote}
    (h : Rests Lowers platform vars taken w) (hcpu : 1 ∈ platform.online)
    (hloop : ∀ t w, t.platform = platform → t.vars = Function.update vars .gTmr79 (-1) →
      t.taken = taken → t.idt 0x79 = some .isr79 →
      Shows (fun _ => True) (Line.idle (redirWord 0x79 trigMode)) t w →
      w.second = f.body → Ends (Prog.call (Cmd.spinWhile .gTmr79 (-1))) w fun _ => R) :
    Ends (do
      store .gTmr79 (-1)
      handleIrqLocal 0x79 .isr79
      setIoapicRedir 0x0e 0x79 trigMode
      let _ ← apicReadBit apicTmr 0x79
      Prog.call (Cmd.smpCall 1 f)
      Prog.call (Cmd.spinWhile .gTmr79 (-1)) : IoapicProg Unit) w fun _ => R := by
  obtain ⟨word, t, rfl, rfl, h, rfl⟩ := h
  refine Prog.ensures_then (ends_store .gTmr79 (-1) (tame_lowers (.inl rfl)) rfl h) fun _ w h => ?_
  refine ends_arm 0x79 .isr79 trigMode (tame_lowers (.inl rfl)) h fun w h => ?_
  refine Prog.ensures_then (ends_apicReadBit (tame_lowers (.inl rfl)) rfl h) fun _ w h => ?_
  refine Prog.ensures_then (ends_smpCall f (tame_lowers (.inl rfl)) rfl h.2 hcpu)
    fun _ w h => ?_
  refine hloop _ w ?_ ?_ ?_ ?_ h.1 h.2 <;> rfl

theorem ends_edgeTmrSmp (h : Rests Lowers platform vars taken w)
    (hcpu : 1 ∈ platform.online) :
    Ends testIoapicEdgeTmrSmp w fun _ =>
      Rests Lowers platform (Function.update vars .gTmr79 0) (bump .isr79 taken) := by
  refine ends_smp h hcpu fun t w hplatform hvars htaken hgate h hsecond => ?_
  have hlowers : (Prog.op (Cmd.out 0 (irqPort 0x0e)) fun _ => irqEnable).Uses Lowers :=
    ⟨.inr (.inr rfl), fun _ => ⟨.inr (.inl rfl), fun _ => trivial⟩⟩
  refine ends_raised h hsecond hlowers rfl rfl (by rw [hvars, Function.update_self]) fun w h => ?_
  refine ends_handler 0x79 .isr79 h (tame_lowers (.inr rfl)) (tame_lowers (.inl rfl)) rfl hgate
    (fun w h => ends_isr79 false (tame_lowers (.inr rfl)) rfl h rfl rfl) rfl fun w h => ?_
  have hstored : Function.update t.vars .gTmr79 0 = Function.update vars .gTmr79 0 := by
    rw [hvars, Function.update_idem]
  refine Prog.ensures_mono (fun _ w h => ?_) (ends_spin (tame_lowers (.inl rfl)) rfl h ?_)
  · exact ⟨_, _, hstored, congrArg (bump .isr79) htaken, h, hplatform⟩
  · exact (Function.update_self Var.gTmr79 0 t.vars).trans_ne (by decide)

theorem ends_levelTmrSmp (h : Rests Lowers platform vars taken w)
    (hcpu : 1 ∈ platform.online) :
    Ends testIoapicLevelTmrSmp w fun _ =>
      Rests Lowers platform (Function.update vars .gTmr79 1) (bump .isr79 taken) := by
  refine ends_smp h hcpu fun t w hplatform hvars htaken hgate h hsecond => ?_
  have hsti : irqEnable.Uses OnlySti := ⟨rfl, fun _ => trivial⟩
  refine ends_raised h hsecond hsti rfl rfl (by rw [hvars, Function.update_self]) fun w h => ?_
  refine ends_handler 0x79 .isr79 h tame_onlySti tame_onlySti rfl hgate
    (fun w h => ends_isr79 true tame_onlySti rfl h rfl rfl) rfl fun w h => ?_
  have hstored : Function.update t.vars .gTmr79 1 = Function.update vars .gTmr79 1 := by
    rw [hvars, Function.update_idem]
  refine Prog.ensures_mono (fun _ w h => ?_) (ends_spin tame_onlySti rfl h ?_)
  · have hlowers : w.second.Uses Lowers := Prog.uses_mono (fun _ hc => .inr (.inl hc)) h.second
    exact ⟨_, _, hstored, congrArg (bump .isr79) htaken, h.uses hlowers, hplatform⟩
  · exact (Function.update_self Var.gTmr79 1 t.vars).trans_ne (by decide)

end SecondCpu

section Start

variable {U : Cmd → Prop} {l : Line} {t : Slate} {w : World}

/-- A port that drives none of the lines. -/
theorem ends_outElse (value : U8) (port : U16) (hport : port ≠ irqPort 0x0e)
    (hport' : port ≠ irqPort 0x0f) (hU : Tame U l) (hcalm : l.calm = true) (h : Shows U l t w) :
    Ends (Prog.call (Cmd.out value port)) w fun _ => Shows U l t := by
  refine ends_quiet h hU hcalm nofun (fun _ _ => rfl) (fun w out h => ?_) rfl
  have hnone : testLines.find? (fun line => irqPort line = port) = none := by
    simpa [testLines] using And.intro (Ne.symm hport) (Ne.symm hport')
  have hdrive : w.drive value port = w.setPort port value := by
    rw [World.drive, hnone]
    rfl
  have hlines : ∀ line, irqPort line ≠ port →
      (w.setPort port value).lineHigh line = w.lineHigh line := fun line hne => by
    rw [World.lineHigh, World.lineHigh]
    exact congrArg (· != 0) (Function.update_of_ne hne _ _)
  have hshows : Shows U l t (w.setPort port value) :=
    { h with
      line := (hlines 0x0e hport.symm).symm ▸ h.line
      low := (hlines 0x0f hport'.symm).trans h.low }
  change Shows U l t (w.drive value port)
  rwa [hdrive]

theorem ends_maskPicInterrupts (hU : Tame U l) (hcalm : l.calm = true) (h : Shows U l t w) :
    Ends maskPicInterrupts w fun _ => Shows U l t :=
  Prog.ensures_then (ends_outElse 0xff 0x21 (by decide) (by decide) hU hcalm h) fun _ _ h =>
    ends_outElse 0xff 0xa1 (by decide) (by decide) hU hcalm h

/-- An access that concerns none of this. -/
theorem ends_elsewhere {c : Cmd} (hc : ∀ (w : World) out, (w.effect out c).2 = w) (hsti : c ≠ .sti)
    (hready : ∀ w : World, w.ready c = true) (hU : Tame U l) (hcalm : l.calm = true)
    (h : Shows U l t w) : Ends (Prog.call c) w fun _ => Shows U l t :=
  ends_quiet h hU hcalm hsti (fun w _ => hready w) (fun w out h => (hc w out).symm ▸ h) rfl

theorem ends_cpuid (hU : Tame U l) (hcalm : l.calm = true) (h : Shows U l t w) :
    Ends (cpuid 1) w fun c w' => c = t.platform.features ∧ Shows U l t w' := by
  refine Prog.ensures_mono ?_
    (ends_calm h hU hcalm nofun (fun _ _ => rfl) (fun _ _ h => h) rfl)
  rintro c w' ⟨⟨w₀, out, h₀, rfl⟩, hw'⟩
  exact ⟨congrArg Platform.features h₀.platform, hw'⟩

theorem x2apicBit (a : U32) : (a ||| (1 : U32) <<< 10).getLsbD 10 = true := by
  simp

/-- The mode that is turned on is the one in which the kernel accesses the local APIC. -/
theorem ends_enableX2apicLocal (hU : Tame U l) (hcalm : l.calm = true) (h : Shows U l t w) :
    Ends enableX2apicLocal w fun _ => Shows U l t := by
  refine Prog.ensures_then (ends_cpuid hU hcalm h) ?_
  rintro c w ⟨rfl, h⟩
  dsimp only
  split_ifs with hfeature
  · refine Prog.ensures_then (ends_elsewhere (fun _ _ => rfl) nofun (fun _ => rfl) hU hcalm h)
      fun r w h => ?_
    refine Prog.ensures_then (ends_quiet h hU hcalm nofun (fun _ _ => rfl) (fun w out h => ?_) rfl)
      fun _ w h => Prog.ensures_pure h
    have hon : t.platform.kernelX2apic = true := h.suits.x2apic hfeature
    exact { h with mode := (x2apicBit _).trans hon.symm }
  · exact Prog.ensures_pure h

theorem ends_ioapicReadReg (reg : U32) (hU : Tame U l) (hcalm : l.calm = true)
    (hasks : l.asks = false) (h : Shows U l t w) :
    Ends (ioapicReadReg reg) w fun _ => Shows U l (t.select reg) :=
  Prog.ensures_then (ends_select reg hU hcalm hasks h) fun _ _ h =>
    Prog.ensures_mono (fun _ _ h => h.2) (ends_read hU hcalm h)

theorem ends_ioapicWriteReg (reg value : U32) (hreg : reg ≠ loReg 0x0e) (hreg' : reg ≠ loReg 0x0f)
    (hU : Tame U l) (hcalm : l.calm = true) (hasks : l.asks = false) (h : Shows U l t w) :
    Ends (ioapicWriteReg reg value) w fun _ => Shows U l (t.select reg) :=
  Prog.ensures_then (ends_select reg hU hcalm hasks h) fun _ _ h =>
    ends_write_else value hreg hreg' hU hcalm hasks h

/-- The first test comes right after an `sti`. -/
theorem ends_ioapicRegVersion {word : U32}
    (h : Shows Alone ((Line.idle word).setFlag false).enable t w) :
    Ends ioapicRegVersion w fun _ => Shows Alone (Line.idle word) (t.select 0x01) := by
  have hread : Ends (ioapicReadReg 0x01) w fun _ =>
      Shows Alone (Line.idle word) (t.select 0x01) := by
    refine Prog.ensures_then (ends_held h (tame_alone _) rfl rfl nofun (fun _ _ => rfl)
      (fun _ out h => shows_select 0x01 out rfl h)) fun _ w h => ?_
    exact Prog.ensures_mono (fun _ _ h => h.2) (ends_read (tame_alone _) rfl h)
  refine Prog.ensures_then hread fun _ w h => ?_
  refine Prog.ensures_then (ends_ioapicWriteReg 0x01 _ (by decide) (by decide) (tame_alone _) rfl
    rfl h) fun _ w h => ?_
  refine Prog.ensures_then (ends_ioapicReadReg 0x01 (tame_alone _) rfl rfl h) fun _ w h => ?_
  exact Prog.ensures_pure h

theorem ends_ioapicRegId {word : U32} (h : Shows Alone (Line.idle word) t w) :
    Ends ioapicRegId w fun _ => Shows Alone (Line.idle word) (t.select 0x0) := by
  refine Prog.ensures_then (ends_ioapicReadReg 0x0 (tame_alone _) rfl rfl h) fun _ w h => ?_
  refine Prog.ensures_then (ends_ioapicWriteReg 0x0 _ (by decide) (by decide) (tame_alone _) rfl
    rfl h) fun _ w h => ?_
  refine Prog.ensures_then (ends_ioapicReadReg 0x0 (tame_alone _) rfl rfl h) fun _ w h => ?_
  exact Prog.ensures_pure h

theorem ends_ioapicArbitrationId {word : U32} (h : Shows Alone (Line.idle word) t w) :
    Ends ioapicArbitrationId w fun _ => Shows Alone (Line.idle word) (t.select 0x2) := by
  refine Prog.ensures_then (ends_ioapicWriteReg 0x0 0x0f000000 (by decide) (by decide)
    (tame_alone _) rfl rfl h) fun _ w h => ?_
  refine Prog.ensures_then (ends_ioapicReadReg 0x2 (tame_alone _) rfl rfl h) fun _ w h => ?_
  refine Prog.ensures_then (ends_ioapicWriteReg 0x2 0x0 (by decide) (by decide) (tame_alone _) rfl
    rfl h) fun _ w h => ?_
  refine Prog.ensures_then (ends_ioapicReadReg 0x2 (tame_alone _) rfl rfl h) fun _ w h => ?_
  exact Prog.ensures_pure h

/-- Up to the first test, with interrupts off at the start. -/
theorem ends_start {α : Type} {Q : α → World → Prop} {word : U32} {p : IoapicProg α}
    (h : Shows Alone ((Line.idle word).setFlag false) t w)
    (hnext : ∀ w, Rests Alone t.platform t.vars t.taken w → Ends p w Q) :
    Ends (do
      maskPicInterrupts
      let _ ← enableX2apicLocal
      irqEnable
      ioapicRegVersion
      ioapicRegId
      ioapicArbitrationId
      p : IoapicProg α) w Q := by
  refine Prog.ensures_then (ends_maskPicInterrupts (tame_alone _) rfl h) fun _ w h => ?_
  refine Prog.ensures_then (ends_enableX2apicLocal (tame_alone _) rfl h) fun _ w h => ?_
  refine Prog.ensures_then (ends_sti (tame_alone _) rfl h) fun _ w h => ?_
  refine Prog.ensures_then (ends_ioapicRegVersion h) fun _ w h => ?_
  refine Prog.ensures_then (ends_ioapicRegId h) fun _ w h => ?_
  refine Prog.ensures_then (ends_ioapicArbitrationId h) fun _ w h => ?_
  refine hnext w ⟨word, _, ?_, ?_, h, ?_⟩ <;> rfl

end Start

section Suite

variable {t : Slate} {w : World} {platform : Platform} {vars : Var → U32} {taken : Isr → ℕ}

theorem Rests.lowers (h : Rests Alone platform vars taken w) :
    Rests Lowers platform vars taken w := by
  obtain ⟨word, t, hvars, htaken, h, hplatform⟩ := h
  exact ⟨word, t, hvars, htaken, h.uses (Prog.uses_mono (fun _ hc => hc.elim) h.second), hplatform⟩

theorem ends_numOnlineCpus (h : Rests Alone platform vars taken w) :
    Ends numOnlineCpus w fun ncpus w' =>
      (ncpus > 1 → 1 ∈ platform.online) ∧ Rests Alone platform vars taken w' := by
  obtain ⟨word, t, hvars, htaken, h, rfl⟩ := h
  refine Prog.ensures_mono ?_
    (ends_calm h (tame_alone _) rfl nofun (fun _ _ => rfl) (fun _ _ h => h) rfl)
  rintro ncpus w' ⟨⟨w₀, out, h₀, rfl⟩, hw'⟩
  have hanswer : (w₀.effect out .numOnlineCpus).1 = t.platform.online.card :=
    congrArg (fun p : Platform => p.online.card) h₀.platform
  rw [hanswer]
  exact ⟨h.suits.second, word, t, hvars, htaken, hw', rfl⟩

/-- The statics when the retrigger test starts. -/
def beforeStorm (vars : Var → U32) : Var → U32 :=
  bump .gIsr99 (bump .gIsr99 (bump .gIsr98 (after78 (bump .g66 (bump .g78
    (bump .gIsr77 (bump .gIsr76 vars)))))))

/-- The statics when the trigger mode tests start. -/
def countVars (vars : Var → U32) : Var → U32 :=
  bump .gIsr83 (bump .gIsr83 (bump .gIsr82 (bump .gIsr81 (retriggered (beforeStorm vars)))))

/-- The handlers entered by then. -/
def countTaken (vars : Var → U32) (taken : Isr → ℕ) : Isr → ℕ :=
  bump .isr83 (bump .isr83 (bump .isr82 (bump .isr81 (stormed (beforeStorm vars)
    (bump .isr99 (bump .isr99 (bump .isr98 (bump .isr66 (bump .isr78
      (bump .isr77 (bump .isr76 taken)))))))))))

theorem ends_testIoapic {word : U32} (h : Shows Alone ((Line.idle word).setFlag false) t w) :
    Ends testIoapic w fun _ w' => ∃ smp ≤ 1, Rests Lowers t.platform
      (Function.update (countVars t.vars) .gTmr79 0)
      ((bump .isr79)^[4 + 4 * smp] (countTaken t.vars t.taken)) w' := by
  refine ends_start h fun w h => ?_
  refine Prog.ensures_then (ends_edgeIntr h) fun _ w h => ?_
  refine Prog.ensures_then (ends_levelIntr h) fun _ w h => ?_
  refine Prog.ensures_then (ends_simultaneous h) fun _ w h => ?_
  refine Prog.ensures_then (ends_levelCoalesce h) fun _ w h => ?_
  refine Prog.ensures_then (ends_levelSequential h) fun _ w h => ?_
  refine Prog.ensures_then (ends_levelRetrigger h) fun _ w h => ?_
  refine Prog.ensures_then (ends_edgeMask h) fun _ w h => ?_
  refine Prog.ensures_then (ends_levelMask h) fun _ w h => ?_
  refine Prog.ensures_then (ends_levelRetriggerMask h) fun _ w h => ?_
  refine Prog.ensures_then (ends_edgeTmr h) fun _ w h => ?_
  refine Prog.ensures_then (ends_levelTmr h) fun _ w h => ?_
  refine Prog.ensures_then (ends_levelTmr h) fun _ w h => ?_
  refine Prog.ensures_then (ends_edgeTmr h) fun _ w h => ?_
  simp only [Function.update_idem] at h
  refine Prog.ensures_then (ends_numOnlineCpus h) ?_
  rintro ncpus w ⟨hcpu, h⟩
  split_ifs with hsecond
  · refine Prog.ensures_then (ends_edgeTmrSmp h.lowers (hcpu hsecond)) fun _ w h => ?_
    refine Prog.ensures_then (ends_levelTmrSmp h (hcpu hsecond)) fun _ w h => ?_
    refine Prog.ensures_then (ends_levelTmrSmp h (hcpu hsecond)) fun _ w h => ?_
    refine Prog.ensures_mono (fun _ w h => ?_) (ends_edgeTmrSmp h (hcpu hsecond))
    simp only [Function.update_idem] at h
    exact ⟨1, le_refl _, h⟩
  · exact Prog.ensures_pure ⟨0, Nat.zero_le _, h.lowers⟩

/-- The `IOAPIC_TEST` case of the ioctl. The hypercalls around it and the TSC test that it goes
on to touch nothing of this. -/
def ioctlIoapicTest : IoapicProg Unit := do
  irqDisable
  testIoapic
  irqEnable

theorem ends_ioctl (h : Rests Alone platform vars taken w) :
    Ends ioctlIoapicTest w fun _ w' => ∃ smp ≤ 1, Rests Lowers platform
      (Function.update (countVars vars) .gTmr79 0)
      ((bump .isr79)^[4 + 4 * smp] (countTaken vars taken)) w' := by
  obtain ⟨word, t, rfl, rfl, h, rfl⟩ := h
  refine Prog.ensures_then (ends_cli (tame_alone _) rfl h) fun _ w h => ?_
  refine Prog.ensures_then (ends_testIoapic h) ?_
  rintro _ w ⟨smp, hsmp, word, t', hvars, htaken, h, hplatform⟩
  exact Prog.ensures_mono (fun _ w h => ⟨smp, hsmp, word, t', hvars, htaken, h, hplatform⟩)
    (ends_sti (tame_lowers (.inl rfl)) rfl h)

/-- After the ioctl only the second CPU has something to do. -/
theorem step_drain {a : CpuAction} {s : CpuState} (hrequest : w.request = none)
    (h : cpu.step ⟨.pure (), [], w⟩ a = some s) : ∃ u, w.Second u ∧ s = ⟨.pure (), [], u⟩ := by
  cases a with
  | main out => simp [cpu] at h
  | interrupt => simp [cpu, hrequest] at h
  | iret => simp [cpu] at h
  | second out => exact step_second h

theorem inevitable_drained (h : Rests Lowers platform vars taken w) :
    cpu.Inevitable (fun s => ∃ w', Rests Alone platform vars taken w' ∧ s = ⟨.pure (), [], w'⟩)
      ⟨.pure (), [], w⟩ := by
  obtain ⟨word, t, hvars, htaken, h, hplatform⟩ := h
  generalize hs : w.second = s
  induction s generalizing w with
  | pure u => exact .now ⟨w, ⟨word, t, hvars, htaken, h.uses (hs ▸ trivial), hplatform⟩, rfl⟩
  | op c next ih =>
    refine .next ⟨.second fun _ => default,
      ⟨.pure (), [], w.secondAccess (fun _ => default) c next⟩, ?_⟩ fun a s hstep => ?_
    · simp only [cpu, hs]
    · obtain ⟨u, ⟨out, c', next', hsecond, rfl⟩, rfl⟩ := step_drain (request_shows h) hstep
      rw [hs] at hsecond
      cases hsecond
      exact ih _ (stable_shows (tame_lowers (.inl rfl)) w _ h ⟨out, c, next, hs, rfl⟩) rfl

end Suite

section History

variable {w : World} {platform : Platform} {vars : Var → U32} {taken : Isr → ℕ} {n : ℕ}

/-- No interrupt is under way: the lines are low, nothing is kept or served, and the second CPU is
through. The registers, the gates and the trigger modes are as other code left them. -/
structure Quiet (w : World) : Prop where
  low : ∀ line ∈ testLines, w.lineHigh line = false
  irr : w.irr = []
  inService : w.inService = []
  remoteIrr : w.remoteIrr = []
  irqFlag : w.irqFlag = true
  shadow : w.shadow = false
  halted : w.halted = false
  second : w.second = .pure ()

/-- The machine suits the tests, and the local APIC is in the mode in which the kernel accesses
it. -/
structure Suited (w : World) : Prop where
  platform : w.platform.Suits
  mode : w.x2apic = w.platform.kernelX2apic

theorem second_pure {p : IoapicProg Unit} (h : p.Uses Alone) : p = .pure () := by
  cases p with
  | pure u => rfl
  | op c next => exact h.1.elim

theorem rests_iff : Rests Alone platform vars taken w ↔
    Quiet w ∧ Suited w ∧ w.platform = platform ∧ w.vars = vars ∧ w.taken = taken := by
  constructor
  · rintro ⟨word, t, rfl, rfl, h, rfl⟩
    refine ⟨⟨?_, h.irr, h.inService, h.waiting, h.irqFlag, h.shadow, h.halted,
      second_pure h.second⟩, ⟨h.platform ▸ h.suits, reaches_shows h⟩, h.platform, h.vars, h.taken⟩
    rintro line hline
    rcases List.mem_pair.mp hline with rfl | rfl
    · exact lineHigh_of_low h rfl
    · exact h.low
  · rintro ⟨hquiet, hsuited, rfl, rfl, rfl⟩
    refine ⟨w.entry 0x0e, ⟨w.platform, w.index, w.entry 0x0f, w.idt, w.tmr, w.vars, w.taken⟩, rfl,
      rfl, ?_, rfl⟩
    exact ⟨rfl, hsuited.platform, hsuited.mode, .inl (hquiet.low _ (by decide)),
      hquiet.low _ (by decide), rfl, rfl, rfl, hquiet.irr, hquiet.inService, hquiet.remoteIrr,
      hquiet.irqFlag, hquiet.shadow, hquiet.halted, rfl, rfl, rfl, rfl, hquiet.second ▸ trivial⟩

/-- The ioctl has returned, and nothing of it goes on. -/
def Returned (s : CpuState) : Prop := s.main = .pure () ∧ s.frames = [] ∧ Quiet s.world

/-- What happens between two ioctls keeps the statics and the counts, makes no interrupt, and leaves
a machine that suits the tests. -/
structure Elsewhere (w u : World) : Prop where
  quiet : Quiet w → Quiet u
  suited : Suited w → Suited u
  vars : u.vars = w.vars
  taken : u.taken = w.taken

/-- Worlds after `n` ioctls since the load of the module. -/
inductive Ioctls : ℕ → World → Prop
  | loaded {w : World} (hquiet : Quiet w) (hsuited : Suited w) (hvars : w.vars = loadVars)
      (htaken : w.taken = fun _ => 0) : Ioctls 0 w
  | ioctl {n : ℕ} {w u : World} {tr : List CpuAction} {s : CpuState} (h : Ioctls n w)
      (hrun : cpu.run ⟨ioctlIoapicTest, [], w⟩ tr = some s) (hover : ∀ a, cpu.step s a = none)
      (hlater : Elsewhere s.world u) : Ioctls (n + 1) u

/-- The statics after `n` ioctls. -/
def counted (n : ℕ) : Var → U32
  | .gIsr99 | .gIsr83 => BitVec.ofNat 32 (2 * n)
  | .g66After78 => BitVec.ofNat 32 (n - n / 2 ^ 32)
  | .gIsr9a => if n = 0 then 0 else 2
  | .gTmr79 => if n = 0 then -1 else 0
  | _ => BitVec.ofNat 32 n

/-- How often `n` ioctls enter each handler, if `smp` of them had a second CPU. -/
def entered (n smp : ℕ) : Isr → ℕ
  | .isr99 | .isr83 => 2 * n
  | .isr9a => if n = 0 then 0 else 2 + (n - 1) * 2 ^ 32
  | .isr79 => 4 * n + 4 * smp
  | _ => n

theorem bump_iterate {κ : Type} [DecidableEq κ] (k : κ) (f : κ → ℕ) (m : ℕ) :
    (bump k)^[m] f = Function.update f k (f k + m) := by
  induction m with
  | zero => simp
  | succ m ih =>
    rw [Function.iterate_succ_apply', ih, bump, Function.update_self, Function.update_idem]
    rfl

theorem after78_eq (vars : Var → U32) : after78 vars = Function.update vars .g66After78
    (vars .g66After78 + if vars .g78 = 0 then 0 else 1) := by
  unfold after78
  by_cases hzero : vars .g78 = 0
  · simp [hzero]
  · rw [if_pos hzero, if_neg hzero]
    rfl

/-- The handler of 0x66 misses its count when `g_78` wraps around to 0. -/
theorem after78_succ (n : ℕ) :
    BitVec.ofNat 32 (n - n / 2 ^ 32) + (if BitVec.ofNat 32 n + 1#32 = 0#32 then 0#32 else 1#32) =
      BitVec.ofNat 32 (n + 1 - (n + 1) / 2 ^ 32) := by
  have hwrap : BitVec.ofNat 32 n + 1#32 = 0#32 ↔ (n + 1) % 2 ^ 32 = 0 := by
    rw [← BitVec.toNat_inj]
    simp [BitVec.toNat_add]
  rw [← BitVec.toNat_inj]
  split_ifs with hzero
  · have hround := hwrap.mp hzero
    simp only [BitVec.toNat_add, BitVec.toNat_ofNat]
    omega
  · have hround := mt hwrap.mpr hzero
    simp only [BitVec.toNat_add, BitVec.toNat_ofNat]
    omega

theorem twice_succ (n : ℕ) :
    BitVec.ofNat 32 (2 * n) + 1#32 + 1#32 = BitVec.ofNat 32 (2 * (n + 1)) := by
  rw [Nat.mul_succ, BitVec.ofNat_add, BitVec.add_assoc]
  rfl

theorem counted_succ (n : ℕ) :
    Function.update (countVars (counted n)) .gTmr79 0 = counted (n + 1) := by
  funext v
  cases v with
  | gIsr99 => simpa [countVars, beforeStorm, bump, after78_eq, retriggered, counted]
      using twice_succ n
  | gIsr83 => simpa [countVars, beforeStorm, bump, after78_eq, retriggered, counted]
      using twice_succ n
  | g66After78 => simpa [countVars, beforeStorm, bump, after78_eq, retriggered, counted]
      using after78_succ n
  | _ => simp [countVars, beforeStorm, bump, after78_eq, retriggered, counted, BitVec.ofNat_add]

/-- From its second ioctl on, a module takes 2 ^ 32 interrupts until the counter is at 2 again. -/
theorem retriggers_counted (n : ℕ) :
    entered n 0 .isr9a + retriggers (counted n .gIsr9a) = entered (n + 1) 0 .isr9a := by
  cases n with
  | zero => rfl
  | succ n =>
    have hall : retriggers (counted (n + 1) .gIsr9a) = 2 ^ 32 := by
      have hcount : counted (n + 1) .gIsr9a = 2 := rfl
      rw [hcount]
      decide
    have hbefore : entered (n + 1) 0 .isr9a = 2 + n * 2 ^ 32 := rfl
    have hafter : entered (n + 1 + 1) 0 .isr9a = 2 + (n + 1) * 2 ^ 32 := rfl
    rw [hall, hbefore, hafter]
    omega

theorem beforeStorm_gIsr9a (vars : Var → U32) : beforeStorm vars .gIsr9a = vars .gIsr9a := by
  simp [beforeStorm, after78_eq, bump]

theorem entered_succ (n m smp : ℕ) :
    (bump .isr79)^[4 + 4 * smp] (countTaken (counted n) (entered n m)) =
      entered (n + 1) (m + smp) := by
  rw [bump_iterate]
  funext isr
  cases isr with
  | isr9a =>
    refine Eq.trans ?_ (retriggers_counted n)
    simp [countTaken, stormed, bump, entered, beforeStorm_gIsr9a]
  | _ =>
    simp [countTaken, bump, stormed, entered] <;> omega

/-- One ioctl, from its start until the second CPU is through as well. -/
theorem inevitable_ioctl {m : ℕ} (h : Rests Alone platform (counted n) (entered n m) w) :
    cpu.Inevitable (fun s => ∃ w', (∃ smp ≤ 1, Rests Alone platform (counted (n + 1))
      (entered (n + 1) (m + smp)) w') ∧ s = ⟨.pure (), [], w'⟩) ⟨ioctlIoapicTest, [], w⟩ := by
  refine ((ends_ioctl h).ends []).bind ?_
  rintro s ⟨u, w', ⟨smp, hsmp, hrests⟩, rfl⟩
  rw [counted_succ, entered_succ] at hrests
  refine (inevitable_drained hrests).mono ?_
  rintro s ⟨w', hrests, rfl⟩
  exact ⟨w', ⟨smp, hsmp, hrests⟩, rfl⟩

theorem step_rests (h : Rests Alone platform vars taken w) :
    ∀ a, cpu.step ⟨.pure (), [], w⟩ a = none := by
  obtain ⟨word, t, -, -, h, -⟩ := h
  exact step_over (request_shows h) (second_pure h.second)

theorem rests_of_ioctls (h : Ioctls n w) :
    ∃ m ≤ n, Rests Alone w.platform (counted n) (entered n m) w := by
  induction h with
  | loaded hquiet hsuited hvars htaken =>
    refine ⟨0, le_refl _, rests_iff.mpr ⟨hquiet, hsuited, rfl, hvars.trans ?_, htaken.trans ?_⟩⟩
    · funext v
      cases v <;> rfl
    · funext isr
      cases isr <;> rfl
  | ioctl h hrun hover hlater ih =>
    obtain ⟨m, hm, hrests⟩ := ih
    obtain ⟨w', ⟨smp, hsmp, hrests⟩, rfl⟩ := (inevitable_ioctl hrests).of_over
      (fun s ⟨w', ⟨smp, hsmp, hrests⟩, hs⟩ => hs ▸ step_rests hrests) hrun hover
    obtain ⟨hquiet, hsuited, -, hvars, htaken⟩ := rests_iff.mp hrests
    exact ⟨m + smp, by omega, rests_iff.mpr ⟨hlater.quiet hquiet, hlater.suited hsuited, rfl,
      hlater.vars.trans hvars, hlater.taken.trans htaken⟩⟩

theorem exists_ioctls_succ (h : Ioctls n w) : ∃ u, Ioctls (n + 1) u := by
  obtain ⟨m, -, hrests⟩ := rests_of_ioctls h
  obtain ⟨tr, s, hrun, w', ⟨smp, -, hrests⟩, rfl⟩ := (inevitable_ioctl hrests).reached
  exact ⟨w', h.ioctl hrun (step_rests hrests) ⟨id, id, rfl, rfl⟩⟩

/-- A world at the load of the module, with two CPUs and a local APIC in x2APIC mode. -/
def loadWorld : World where
  platform := ⟨{0, 1}, (1 : U32) <<< 21, true⟩
  x2apic := true
  index := 0
  regs := fun _ => 0x10000
  ports := fun _ => 0
  vars := loadVars
  irqFlag := true
  tmr := fun _ => false
  irr := []
  inService := []
  remoteIrr := []
  idt := fun _ => none
  shadow := false
  halted := false
  second := .pure ()
  taken := fun _ => 0

theorem ioctls_loadWorld : Ioctls 0 loadWorld :=
  .loaded ⟨fun _ _ => rfl, rfl, rfl, rfl, rfl, rfl, rfl, rfl⟩ ⟨⟨fun _ => by decide, fun _ => rfl⟩,
    rfl⟩ rfl rfl

theorem exists_ioctls (n : ℕ) : ∃ w, Ioctls n w := by
  induction n with
  | zero => exact ⟨loadWorld, ioctls_loadWorld⟩
  | succ n ih =>
    obtain ⟨w, h⟩ := ih
    exact exists_ioctls_succ h

/-- Whatever ioctls came before, the next one returns in every order of the steps. -/
theorem ioctls_return (h : Ioctls n w) :
    cpu.Inevitable Returned ⟨ioctlIoapicTest, [], w⟩ := by
  obtain ⟨m, -, hrests⟩ := rests_of_ioctls h
  refine (inevitable_ioctl hrests).mono ?_
  rintro s ⟨w', ⟨smp, -, hrests⟩, rfl⟩
  exact ⟨rfl, rfl, (rests_iff.mp hrests).1⟩

theorem ioctls_return_loadWorld : cpu.Inevitable Returned ⟨ioctlIoapicTest, [], loadWorld⟩ :=
  ioctls_return ioctls_loadWorld

/-- The statics and the interrupts taken depend on the number of ioctls alone, up to those that a
second CPU raises. -/
theorem ioctls_count (h : Ioctls n w) :
    w.vars = counted n ∧ ∃ smp ≤ n, w.taken = entered n smp := by
  obtain ⟨m, hm, hrests⟩ := rests_of_ioctls h
  obtain ⟨-, -, -, hvars, htaken⟩ := rests_iff.mp hrests
  exact ⟨hvars, m, hm, htaken⟩

/-- The second ioctl after the load takes 2 ^ 32 interrupts in the retrigger test. -/
theorem ioctls_count_two : ∃ w, Ioctls 2 w ∧ w.vars .gIsr9a = 2 ∧ w.taken .isr9a = 2 + 2 ^ 32 := by
  obtain ⟨w, h⟩ := exists_ioctls 2
  obtain ⟨hvars, smp, -, htaken⟩ := ioctls_count h
  exact ⟨w, h, hvars ▸ rfl, htaken ▸ rfl⟩

end History

end PcmTest.Ioapic
