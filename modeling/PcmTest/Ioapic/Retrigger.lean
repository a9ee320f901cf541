import PcmTest.Ioapic.LevelTests

/-!
# The retrigger test and its counter

`ioapic_isr_9a` lowers the line when its counter passes 2 and at no other value,
and nothing resets the counter. A run that starts with 0 or 1 reaches 2 and
leaves it there; from every other value the handler never lowers the line before
its third run.
-/

namespace PcmTest.Ioapic

open Theory

/-- The accesses of the test before it raises the line. -/
def IsSetup : Cmd → Prop
  | .handleIrqLocal _ _ | .mmioWrite _ _ | .cli => True
  | _ => False

/-- The accesses of the test after it raised the line. -/
def IsWait : Cmd → Prop
  | .load _ | .cli | .sti | .hlt => True
  | _ => False

/-- The command neither waits nor calls the second CPU. -/
def IsPlain : Cmd → Prop
  | .spinWhile _ _ | .smpCall _ _ => False
  | _ => True

theorem IsSetup.plain {cmd : Cmd} (h : IsSetup cmd) : IsPlain cmd := by
  cases cmd with
  | spinWhile v x => exact h
  | smpCall cpu f => exact h
  | _ => trivial

theorem IsWait.plain {cmd : Cmd} (h : IsWait cmd) : IsPlain cmd := by
  cases cmd with
  | spinWhile v x => exact h
  | smpCall cpu f => exact h
  | _ => trivial

theorem ready_plain {cmd : Cmd} (h : IsPlain cmd) (s : TestState) : ready cmd s = true := by
  cases cmd with
  | spinWhile v x => exact h.elim
  | smpCall cpu f => exact h.elim
  | _ => rfl

theorem secondAfter_plain {cmd : Cmd} (h : IsPlain cmd) (second : IoapicProg Unit) :
    secondAfter cmd second = second := by
  cases cmd with
  | smpCall cpu f => exact h.elim
  | _ => rfl

def retriggerSetup : IoapicProg Unit := do
  handleIrqLocal 0x9a .isr9a
  setIoapicRedir 0x0e 0x9a .level
  irqDisable

def retriggerWait : IoapicProg Unit := do
  retriggerRounds 10
  irqEnable

def raiseAndWait : IoapicProg Unit := do
  setIrqLine 0x0e 1
  retriggerWait

theorem testIoapicLevelRetrigger_eq :
    testIoapicLevelRetrigger = retriggerSetup.bind fun _ => raiseAndWait := rfl

theorem uses_retriggerSetup : retriggerSetup.Uses IsSetup := by
  have hredir : (setIoapicRedir 0x0e 0x9a .level).Uses IsSetup :=
    uses_ioapicWriteRedir (fun _ _ => trivial) _ _
  unfold retriggerSetup
  exact Prog.uses_bind (Prog.uses_call.mpr trivial) fun _ =>
    Prog.uses_bind hredir fun _ => Prog.uses_call.mpr trivial

theorem uses_retriggerRounds (i : ℕ) : (retriggerRounds i).Uses IsWait := by
  induction i with
  | zero => trivial
  | succ i ih =>
    refine ⟨trivial, fun x => ?_⟩
    dsimp only [Prog.bind]
    split_ifs
    · trivial
    · exact ⟨trivial, fun _ => ⟨trivial, fun _ => ⟨trivial, fun _ => ih⟩⟩⟩

theorem uses_retriggerWait : retriggerWait.Uses IsWait :=
  Prog.uses_bind (uses_retriggerRounds 10) fun _ => ⟨trivial, fun _ => trivial⟩

section Handler

variable (out : Outside) (b : Board)

/-- One run of the handler. -/
theorem afterHandler_isr9a :
    afterHandler out .isr9a b =
      { b with
        vars := Function.update b.vars .gIsr9a (b.vars .gIsr9a + 1)
        ports :=
          if b.vars .gIsr9a + 1 = 2 then Function.update b.ports 0x200e 0 else b.ports } := by
  have hcount : ((load .gIsr9a).exec (Board.access out)
      ((increment .gIsr9a).exec (Board.access out) b).2).1 = b.vars .gIsr9a + 1 := by
    change Function.update b.vars .gIsr9a (b.vars .gIsr9a + 1) .gIsr9a = _
    exact Function.update_self _ _ _
  rw [afterHandler, Isr.body, ioapicIsr9a, Prog.bind_eq, Prog.exec_bind, Prog.bind_eq,
    Prog.exec_bind, hcount]
  split_ifs
  · rfl
  · rfl

theorem vars_isr9a : (afterHandler out .isr9a b).vars .gIsr9a = b.vars .gIsr9a + 1 := by
  rw [afterHandler_isr9a]
  change Function.update b.vars .gIsr9a (b.vars .gIsr9a + 1) .gIsr9a = _
  exact Function.update_self _ _ _

theorem lineHigh_isr9a :
    lineHigh (afterHandler out .isr9a b) = (lineHigh b && b.vars .gIsr9a + 1 != 2) := by
  rw [afterHandler_isr9a]
  unfold lineHigh
  by_cases h : b.vars .gIsr9a + 1 = 2
  · rw [if_pos h, h]
    simp
  · rw [if_neg h, bne_iff_ne.mpr h, Bool.and_true]

end Handler

section Bounded

/-- The line is low until the test raises it, so that no handler has run. -/
structure BeforeRaise (c : U32) (s : TestState) : Prop where
  main : ∃ p : IoapicProg Unit, p.Uses IsSetup ∧ s.main = p.bind fun _ => raiseAndWait
  low : lineHigh s.board = false
  counter : s.board.vars .gIsr9a = c
  runs : s.runs = 0

/-- The counter started at `c` and has not reached 2. -/
structure Counting (c : U32) (s : TestState) : Prop where
  high : lineHigh s.board = true
  counter : (s.board.vars .gIsr9a).toNat = c.toNat + s.runs
  lt_two : c.toNat + s.runs < 2

/-- The handler lowered the line when its counter reached 2. -/
structure Lowered (s : TestState) : Prop where
  low : lineHigh s.board = false
  counter : s.board.vars .gIsr9a = 2
  runs : s.runs ≤ 2

def AfterRaise (c : U32) (s : TestState) : Prop :=
  s.main.Uses IsWait ∧ (Counting c s ∨ Lowered s)

def RetriggerInv (c : U32) (s : TestState) : Prop :=
  s.second = .pure () ∧ (BeforeRaise c s ∨ AfterRaise c s)

variable {c : U32} {s : TestState}

theorem RetriggerInv.runs_le (h : RetriggerInv c s) : s.runs ≤ 2 := by
  obtain ⟨-, hbefore | ⟨-, hcounting | hlowered⟩⟩ := h
  · rw [hbefore.runs]
    decide
  · have := hcounting.lt_two
    omega
  · exact hlowered.runs

/-- Setting up leaves the ports and the statics. -/
theorem access_setup {cmd : Cmd} (h : IsSetup cmd) (out : Outside) (b : Board) :
    (Board.access out cmd b).2.ports = b.ports ∧ (Board.access out cmd b).2.vars = b.vars := by
  cases cmd with
  | mmioWrite offset value => exact ⟨b.mmioWrite_ports offset value, b.mmioWrite_vars offset value⟩
  | handleIrqLocal vec isr => exact ⟨rfl, rfl⟩
  | cli => exact ⟨rfl, rfl⟩
  | _ => exact h.elim

/-- Waiting changes the interrupt flag at most. -/
theorem access_wait {cmd : Cmd} (h : IsWait cmd) (out : Outside) (b : Board) :
    ∃ on, (Board.access out cmd b).2 = { b with irqFlag := on } := by
  cases cmd with
  | load v => exact ⟨b.irqFlag, rfl⟩
  | cli => exact ⟨false, rfl⟩
  | sti => exact ⟨true, rfl⟩
  | hlt => exact ⟨b.irqFlag, rfl⟩
  | _ => exact h.elim

theorem beforeRaise_main (hc : c.toNat < 2) (out : Outside) {cmd : Cmd}
    {next : cmd.Answer → IoapicProg Unit} (h : BeforeRaise c s) (hmain : s.main = .op cmd next) :
    secondAfter cmd s.second = s.second ∧
      (BeforeRaise c (mainStep out s cmd next) ∨ AfterRaise c (mainStep out s cmd next)) := by
  obtain ⟨⟨p, hp, hprog⟩, hlow, hcounter, hruns⟩ := h
  cases p with
  | pure u =>
    obtain ⟨⟩ : raiseAndWait = .op cmd next := hprog.symm.trans hmain
    have hzero : runsAfter s.board ((setIrqLine 0x0e 1).exec (Board.access out) s.board).2 s.runs =
        0 := if_pos (triggered_of_lineHigh hlow rfl)
    refine ⟨rfl, .inr ⟨uses_retriggerWait, .inl ⟨rfl, ?_, ?_⟩⟩⟩
    · exact (congrArg BitVec.toNat hcounter).trans (congrArg (c.toNat + ·) hzero).symm
    · exact (congrArg (c.toNat + ·) hzero).trans_lt hc
  | op cmd' next' =>
    obtain ⟨⟩ : Prog.op cmd' (fun x => (next' x).bind fun _ => raiseAndWait) = .op cmd next :=
      hprog.symm.trans hmain
    obtain ⟨hports, hvars⟩ := access_setup hp.1 out s.board
    refine ⟨secondAfter_plain hp.1.plain _, .inl ⟨⟨next' _, hp.2 _, rfl⟩, ?_, ?_, ?_⟩⟩
    · unfold lineHigh mainStep
      rw [hports]
      exact hlow
    · unfold mainStep
      rw [hvars]
      exact hcounter
    · unfold mainStep runsAfter
      rw [hruns]
      exact ite_self _

theorem afterRaise_main (out : Outside) {cmd : Cmd} {next : cmd.Answer → IoapicProg Unit}
    (h : AfterRaise c s) (hmain : s.main = .op cmd next) :
    secondAfter cmd s.second = s.second ∧ AfterRaise c (mainStep out s cmd next) := by
  obtain ⟨huses, hphase⟩ := h
  rw [hmain] at huses
  obtain ⟨on, hboard⟩ := access_wait huses.1 out s.board
  have hruns : (mainStep out s cmd next).runs = s.runs := by
    simp [mainStep, runsAfter, hboard, triggered, lineHigh, unmasked]
  have hline : lineHigh (mainStep out s cmd next).board = lineHigh s.board :=
    (congrArg lineHigh hboard).trans rfl
  have hvars : (mainStep out s cmd next).board.vars = s.board.vars :=
    (congrArg Board.vars hboard).trans rfl
  refine ⟨secondAfter_plain huses.1.plain _, huses.2 _, hphase.imp ?_ ?_⟩
  · rintro ⟨hhigh, hcounter, hlt⟩
    refine ⟨hline.trans hhigh, ?_, ?_⟩
    · rw [hvars, hruns]
      exact hcounter
    · rw [hruns]
      exact hlt
  · rintro ⟨hlow, hcounter, hle⟩
    refine ⟨hline.trans hlow, ?_, ?_⟩
    · rw [hvars]
      exact hcounter
    · rw [hruns]
      exact hle

/-- A run of the handler counts on, and lowers the line when the counter reaches 2. -/
theorem counting_handler (out : Outside) (h : Counting c s) :
    Counting c (handlerStep out .isr9a s) ∨ Lowered (handlerStep out .isr9a s) := by
  obtain ⟨hline, hcounter, hlt⟩ := h
  have hvars := vars_isr9a out s.board
  have hhandler := lineHigh_isr9a out s.board
  have hsucc : (s.board.vars .gIsr9a + 1).toNat = c.toNat + s.runs + 1 := by
    bv_omega
  by_cases htwo : s.board.vars .gIsr9a + 1 = 2
  · right
    rw [htwo] at hhandler hvars
    refine ⟨hhandler.trans ?_, hvars, Nat.succ_le_succ ?_⟩
    · simp
    · omega
  · left
    have hne : c.toNat + s.runs + 1 ≠ 2 := by
      intro heq
      exact htwo (BitVec.eq_of_toNat_eq (hsucc.trans heq))
    rw [hline, bne_iff_ne.mpr htwo] at hhandler
    refine ⟨hhandler, ?_, ?_⟩
    · exact (congrArg BitVec.toNat hvars).trans hsucc
    · change c.toNat + (s.runs + 1) < 2
      omega

theorem afterRaise_interrupt (out : Outside) (h : AfterRaise c s)
    (hline : lineHigh s.board = true) : AfterRaise c (handlerStep out .isr9a s) := by
  obtain ⟨huses, hcounting | hlowered⟩ := h
  · exact ⟨huses, counting_handler out hcounting⟩
  · exact absurd hline (by simp [hlowered.low])

theorem retriggerInv_step (hc : c.toNat < 2) {t : TestState} (hs : RetriggerInv c s)
    (h : TestStep .isr9a s t) : RetriggerInv c t := by
  obtain ⟨hsecond, hphase⟩ := hs
  cases h with
  | main out hmain hready =>
    rcases hphase with hbefore | hafter
    · obtain ⟨hkeep, hphase⟩ := beforeRaise_main hc out hbefore hmain
      exact ⟨hkeep.trans hsecond, hphase⟩
    · obtain ⟨hkeep, hphase⟩ := afterRaise_main out hafter hmain
      exact ⟨hkeep.trans hsecond, .inr hphase⟩
  | second out hother => simp [hsecond] at hother
  | interrupt out hdeliver =>
    have hline : lineHigh s.board = true := lineHigh_of_deliverable hdeliver
    refine ⟨hsecond, ?_⟩
    rcases hphase with hbefore | hafter
    · exact absurd hline (by simp [hbefore.low])
    · exact .inr (afterRaise_interrupt out hafter hline)

end Bounded

theorem retriggerInv_run {b : IdleBoard} (hc : (b.vars .gIsr9a).toNat < 2)
    {tr : List TestAction} {s : TestState}
    (hrun : (testMachine .isr9a).run (LevelTest.levelRetrigger.start b) tr = some s) :
    RetriggerInv (b.vars .gIsr9a) s := by
  apply Machine.run_preserves (RetriggerInv (b.vars .gIsr9a)) (fun _ => True) _
    (fun _ _ => trivial) _ hrun
  · intro s a t _ hs hstep
    exact retriggerInv_step hc hs (testStep_of_step hstep)
  · have hmain := testIoapicLevelRetrigger_eq
    exact ⟨rfl, .inl ⟨⟨retriggerSetup, uses_retriggerSetup, hmain⟩, b.idle, rfl, rfl⟩⟩

/-- From 0 and 1 the counter passes 2 within two runs. -/
theorem endsPromptly_levelRetrigger {b : IdleBoard} (hc : (b.vars .gIsr9a).toNat < 2) :
    EndsPromptly .levelRetrigger b := by
  intro tr s hrun
  exact (retriggerInv_run hc hrun).runs_le

/-- A run from 0 or 1 that ends with the line low leaves 2 behind. -/
theorem levelRetrigger_leaves_two {b b' : IdleBoard} (hc : (b.vars .gIsr9a).toNat < 2)
    (h : Completes .levelRetrigger b b') : b'.vars .gIsr9a = 2 := by
  obtain ⟨tr, s, hrun, hmain, -, hboard⟩ := h
  obtain ⟨-, hbefore | ⟨-, hcounting | hlowered⟩⟩ := retriggerInv_run hc hrun
  · obtain ⟨p, -, hprog⟩ := hbefore.main
    rw [hprog] at hmain
    cases p with
    | pure u => exact Bool.noConfusion hmain
    | op cmd next => exact Bool.noConfusion hmain
  · have hhigh := hcounting.high
    rw [hboard, b'.idle] at hhigh
    exact Bool.noConfusion hhigh
  · rw [← hboard]
    exact hlowered.counter

section Storm

/-- The test can run on without an interrupt. -/
theorem run_main (isr : Isr) (out : Outside) {α : Type} {p : IoapicProg α} (hp : p.Uses IsPlain)
    (f : α → IoapicProg Unit) {s : TestState} (hmain : s.main = p.bind f) :
    ∃ tr t, (testMachine isr).run s tr = some t ∧
      t.main = f (p.exec (Board.access out) s.board).1 ∧
      t.board = (p.exec (Board.access out) s.board).2 := by
  induction p generalizing s with
  | pure a => exact ⟨[], s, rfl, hmain, rfl⟩
  | op cmd next ih =>
    have hstep : (testMachine isr).step s (.main out) =
        some (mainStep out s cmd fun x => (next x).bind f) := by
      simp [testMachine, hmain, ready_plain hp.1]
    have hnext : (mainStep out s cmd fun x => (next x).bind f).main =
        (next (Board.access out cmd s.board).1).bind f := rfl
    obtain ⟨tr, t, hrun, ht⟩ := ih _ (hp.2 _) hnext
    exact ⟨[.main out] ++ tr, t, Machine.run_trans (Machine.run_single hstep) hrun, ht⟩

def retriggerUntilLoad : IoapicProg U32 := do
  retriggerSetup
  setIrqLine 0x0e 1
  load .gIsr9a

theorem uses_retriggerUntilLoad : retriggerUntilLoad.Uses IsPlain := by
  have hsetup : retriggerSetup.Uses IsPlain :=
    Prog.uses_mono (fun _ => IsSetup.plain) uses_retriggerSetup
  unfold retriggerUntilLoad
  exact Prog.uses_bind hsetup fun _ => ⟨trivial, fun _ => ⟨trivial, fun _ => trivial⟩⟩

/-- What follows the first load of the counter. -/
def retriggerAfterLoad (x : U32) : IoapicProg Unit :=
  (if x = 2 then pure () else do
    irqEnable
    Prog.call Cmd.hlt
    irqDisable
    retriggerRounds 9).bind fun _ => irqEnable

theorem testIoapicLevelRetrigger_eq_untilLoad :
    testIoapicLevelRetrigger = retriggerUntilLoad.bind retriggerAfterLoad := rfl

/-- Whether the loop breaks or not, interrupts are enabled next. -/
theorem retriggerAfterLoad_sti (x : U32) : ∃ next, retriggerAfterLoad x = .op .sti next := by
  unfold retriggerAfterLoad
  split_ifs
  · exact ⟨_, rfl⟩
  · exact ⟨_, rfl⟩

theorem exec_retriggerUntilLoad (out : Outside) (b : Board) :
    lineHigh (retriggerUntilLoad.exec (Board.access out) b).2 = true ∧
      unmasked (retriggerUntilLoad.exec (Board.access out) b).2 = true ∧
      (retriggerUntilLoad.exec (Board.access out) b).2.vars = b.vars := by
  have hregs : (retriggerUntilLoad.exec (Board.access out) b).2.regs =
      Function.update (Function.update b.regs (loReg 0x0e) 0x809a) (hiReg 0x0e) 0 := rfl
  refine ⟨rfl, ?_, rfl⟩
  rw [unmasked, hregs, Function.update_of_ne (loReg_ne_hiReg _ _), Function.update_self]
  rfl

/-- The test raises the line and enables interrupts, whatever the counter is. -/
theorem run_until_sti (out : Outside) (b : IdleBoard) :
    ∃ tr t, (testMachine .isr9a).run (LevelTest.levelRetrigger.start b) tr = some t ∧
      deliverable t.board = true ∧ t.board.vars .gIsr9a = b.vars .gIsr9a := by
  have hstart : (LevelTest.levelRetrigger.start b).main =
      retriggerUntilLoad.bind retriggerAfterLoad := testIoapicLevelRetrigger_eq_untilLoad
  obtain ⟨tr, t, hrun, hmain, hboard⟩ := run_main .isr9a out uses_retriggerUntilLoad _ hstart
  replace hboard : t.board = (retriggerUntilLoad.exec (Board.access out) b.toBoard).2 := hboard
  obtain ⟨hhigh, hunmasked, hvars⟩ := exec_retriggerUntilLoad out b.toBoard
  obtain ⟨next, hsti⟩ := retriggerAfterLoad_sti
    (retriggerUntilLoad.exec (Board.access out) b.toBoard).1
  have hstep : (testMachine .isr9a).step t (.main out) = some (mainStep out t .sti next) := by
    simp only [testMachine, hmain.trans hsti]
    rfl
  refine ⟨_, _, Machine.run_trans hrun (Machine.run_single hstep), ?_, ?_⟩
  · change (lineHigh t.board && unmasked t.board && true) = true
    rw [hboard, hhigh, hunmasked]
    rfl
  · change t.board.vars .gIsr9a = _
    rw [hboard, hvars]

theorem deliverable_isr9a (out : Outside) {s : TestState} (h : deliverable s.board = true)
    (hne : s.board.vars .gIsr9a + 1 ≠ 2) :
    deliverable (handlerStep out .isr9a s).board = true := by
  unfold handlerStep
  rw [afterHandler_isr9a, if_neg hne]
  exact h

theorem run_interrupt (out : Outside) {s : TestState} (h : deliverable s.board = true) :
    (testMachine .isr9a).run s [.interrupt out] = some (handlerStep out .isr9a s) :=
  Machine.run_single (if_pos h)

/-- From every other value the line is still high after two runs of the handler. -/
theorem run_storm (out : Outside) {s : TestState} (h : deliverable s.board = true)
    (hc : 2 ≤ (s.board.vars .gIsr9a).toNat) :
    ∃ tr t, (testMachine .isr9a).run s tr = some t ∧ 2 < t.runs := by
  let s₁ := handlerStep out .isr9a s
  let s₂ := handlerStep out .isr9a s₁
  have hvars : s₁.board.vars .gIsr9a = s.board.vars .gIsr9a + 1 := vars_isr9a out s.board
  have h₁ : deliverable s₁.board = true := deliverable_isr9a out h (by bv_omega)
  have h₂ : deliverable s₂.board = true := deliverable_isr9a out h₁ (by rw [hvars]; bv_omega)
  have hrun : (testMachine .isr9a).run s ([.interrupt out] ++ ([.interrupt out] ++
      [.interrupt out])) = some (handlerStep out .isr9a s₂) :=
    Machine.run_trans (run_interrupt out h)
      (Machine.run_trans (run_interrupt out h₁) (run_interrupt out h₂))
  refine ⟨_, handlerStep out .isr9a s₂, hrun, ?_⟩
  exact Nat.lt_of_lt_of_le (by decide) (Nat.le_add_left 3 s.runs)

theorem not_endsPromptly {b : IdleBoard} (hc : 2 ≤ (b.vars .gIsr9a).toNat) :
    ¬ EndsPromptly .levelRetrigger b := by
  intro h
  obtain ⟨tr₁, t, hrun₁, hdeliver, hvars⟩ := run_until_sti (fun _ => default) b
  rw [← hvars] at hc
  obtain ⟨tr₂, u, hrun₂, hruns⟩ := run_storm (fun _ => default) hdeliver hc
  exact absurd (h _ _ (Machine.run_trans hrun₁ hrun₂)) (by omega)

end Storm

/-- Every level-triggered test ends its interrupt with at most two runs of its handler after
each trigger, except the retrigger test, which does so exactly from the counters 0 and 1. -/
theorem endsPromptly_iff (test : LevelTest) (b : IdleBoard) :
    EndsPromptly test b ↔
      (test = .levelRetrigger → b.vars .gIsr9a = 0 ∨ b.vars .gIsr9a = 1) := by
  have hcounter : b.vars .gIsr9a = 0 ∨ b.vars .gIsr9a = 1 ↔ (b.vars .gIsr9a).toNat < 2 := by
    bv_omega
  rw [hcounter]
  constructor
  · rintro h rfl
    by_contra hc
    exact not_endsPromptly (by omega) h
  · intro h
    by_cases htest : test = .levelRetrigger
    · subst htest
      exact endsPromptly_levelRetrigger (h rfl)
    · exact endsPromptly_of_ne htest b

/-- The board of a freshly loaded module. -/
def loadBoard : IdleBoard where
  index := 0
  regs := fun _ => 0
  ports := fun _ => 0
  vars := loadVars
  irqFlag := true
  idle := rfl

/-- The first run: the test enables interrupts, the handler runs twice, and the loop breaks. -/
def firstRun (out : Outside) : List TestAction :=
  List.replicate 9 (.main out) ++ List.replicate 2 (.interrupt out) ++ List.replicate 4 (.main out)

/-- The first run after the module is loaded leaves the counter at 2, and in the second run
the handler does not lower the line. -/
theorem levelRetrigger_storms :
    ¬ ∀ (test : LevelTest) (b : IdleBoard), LeftBehind test b → EndsPromptly test b := by
  intro h
  have hfirst : ((testMachine .isr9a).run (LevelTest.levelRetrigger.start loadBoard)
      (firstRun fun _ => default)).map
      (fun s => (s.main.done, s.second.done, lineHigh s.board)) = some (true, true, false) := rfl
  obtain ⟨s, hrun, hs⟩ := Option.map_eq_some_iff.mp hfirst
  obtain ⟨hmain, hsecond, hlow⟩ : s.main.done = true ∧ s.second.done = true ∧
      lineHigh s.board = false := by
    simpa only [Prod.mk.injEq] using hs
  have hcompletes : Completes .levelRetrigger loadBoard ⟨s.board, hlow⟩ :=
    ⟨_, s, hrun, hmain, hsecond, rfl⟩
  have hc : 2 ≤ ((⟨s.board, hlow⟩ : IdleBoard).vars .gIsr9a).toNat := by
    rw [levelRetrigger_leaves_two (by decide) hcompletes]
    decide
  exact not_endsPromptly hc (h .levelRetrigger _ (.run (.load rfl) hcompletes))

end PcmTest.Ioapic
