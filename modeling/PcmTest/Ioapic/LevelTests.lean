import PcmTest.Ioapic.Board
import PcmTest.Theory.Machine

/-!
# The level-triggered tests of line 0x0e

A level interrupt is delivered again after every EOI while the line is high, the
entry unmasked and interrupts enabled. The handler can run between any two
accesses of the test and after the last one, and the state counts its runs since
the test last raised the line or unmasked the entry.
-/

namespace PcmTest.Ioapic

open Theory

def lineHigh (b : Board) : Bool := b.ports 0x200e != 0

def unmasked (b : Board) : Bool := !(b.regs (loReg 0x0e)).getLsbD 16

def deliverable (b : Board) : Bool := lineHigh b && unmasked b && b.irqFlag

theorem lineHigh_of_deliverable {b : Board} (h : deliverable b = true) : lineHigh b = true := by
  simp only [deliverable, Bool.and_eq_true] at h
  exact h.1.1

theorem unmasked_of_deliverable {b : Board} (h : deliverable b = true) : unmasked b = true := by
  simp only [deliverable, Bool.and_eq_true] at h
  exact h.1.2

/-- An access raised the line or unmasked the entry. -/
def triggered (b b' : Board) : Bool :=
  !lineHigh b && lineHigh b' || !unmasked b && unmasked b'

inductive LevelTest where
  | levelIntr
  | levelTmr
  | levelTmrSmp
  | levelCoalesce
  | levelSequential
  | levelRetrigger
  | levelMask
  | levelRetriggerMask
  deriving DecidableEq, Repr

def LevelTest.body : LevelTest → IoapicProg Unit
  | .levelIntr => testIoapicLevelIntr
  | .levelTmr => testIoapicLevelTmr
  | .levelTmrSmp => testIoapicLevelTmrSmp
  | .levelCoalesce => testIoapicLevelCoalesce
  | .levelSequential => testIoapicLevelSequential
  | .levelRetrigger => testIoapicLevelRetrigger
  | .levelMask => testIoapicLevelMask
  | .levelRetriggerMask => testIoapicLevelRetriggerMask

def LevelTest.isr : LevelTest → Isr
  | .levelIntr => .isr77
  | .levelTmr | .levelTmrSmp => .isr79
  | .levelCoalesce => .isr98
  | .levelSequential => .isr99
  | .levelRetrigger => .isr9a
  | .levelMask => .isr82
  | .levelRetriggerMask => .isr83

/-- A test under way: what it and the second CPU still have to execute, and how often the
handler ran since the line was last raised or the entry last unmasked. -/
structure TestState where
  main : IoapicProg Unit
  second : IoapicProg Unit
  board : Board
  runs : ℕ

/-- Each action brings the answers that the board leaves open. -/
inductive TestAction where
  | main (out : Outside)
  | second (out : Outside)
  | interrupt (out : Outside)

/-- A loop over a static waits, and a call waits for the one before it. -/
def ready : Cmd → TestState → Bool
  | .spinWhile v x, s => s.board.vars v != x
  | .smpCall _ _, s => s.second.done
  | _, _ => true

def secondAfter : Cmd → IoapicProg Unit → IoapicProg Unit
  | .smpCall _ f, _ => f.body
  | _, second => second

/-- The board after an access of the second CPU, which has an interrupt flag of its own. -/
def secondAccess (out : Outside) (c : Cmd) (b : Board) : Board :=
  { (Board.access out c b).2 with irqFlag := b.irqFlag }

def runsAfter (b b' : Board) (runs : ℕ) : ℕ := if triggered b b' then 0 else runs

def afterHandler (out : Outside) (isr : Isr) (b : Board) : Board :=
  (isr.body.exec (Board.access out) b).2

def mainStep (out : Outside) (s : TestState) (c : Cmd) (next : c.Answer → IoapicProg Unit) :
    TestState :=
  let r := Board.access out c s.board
  { main := next r.1
    second := secondAfter c s.second
    board := r.2
    runs := runsAfter s.board r.2 s.runs }

def secondStep (out : Outside) (s : TestState) (c : Cmd) (next : c.Answer → IoapicProg Unit) :
    TestState :=
  let b := secondAccess out c s.board
  { s with
    second := next (Board.access out c s.board).1
    board := b
    runs := runsAfter s.board b s.runs }

def handlerStep (out : Outside) (isr : Isr) (s : TestState) : TestState :=
  { s with board := afterHandler out isr s.board, runs := s.runs + 1 }

/-- A test with its handler on one CPU, and what it sent to the second one. -/
def testMachine (isr : Isr) : Machine TestState TestAction where
  step s
    | .main out =>
      match s.main with
      | .pure _ => none
      | .op c next => if ready c s then some (mainStep out s c next) else none
    | .second out =>
      match s.second with
      | .pure _ => none
      | .op c next => some (secondStep out s c next)
    | .interrupt out => if deliverable s.board then some (handlerStep out isr s) else none

/-- A board on which no level interrupt is under way. -/
structure IdleBoard extends Board where
  idle : lineHigh toBoard = false

def LevelTest.start (test : LevelTest) (b : IdleBoard) : TestState where
  main := test.body
  second := pure ()
  board := b.toBoard
  runs := 0

/-- Whatever the order of accesses and deliveries, at most two runs of the handler follow each
time the line is raised or the entry unmasked. -/
def EndsPromptly (test : LevelTest) (b : IdleBoard) : Prop :=
  ∀ (tr : List TestAction) (s : TestState),
    (testMachine test.isr).run (test.start b) tr = some s → s.runs ≤ 2

/-- A run of the test from `b` that is over leaves `b'`. -/
def Completes (test : LevelTest) (b b' : IdleBoard) : Prop :=
  ∃ (tr : List TestAction) (s : TestState),
    (testMachine test.isr).run (test.start b) tr = some s ∧ s.main.done = true ∧
      s.second.done = true ∧ s.board = b'.toBoard

/-- The statics of a freshly loaded module. -/
def loadVars : Var → U32
  | .gTmr79 => -1
  | _ => 0

/-- What complete runs of a test, from the load of the module on, leave for its next run. -/
inductive LeftBehind (test : LevelTest) : IdleBoard → Prop
  | load {b : IdleBoard} (h : b.vars = loadVars) : LeftBehind test b
  | run {b b' : IdleBoard} (hb : LeftBehind test b) (h : Completes test b b') : LeftBehind test b'

/-- What one step can do. -/
inductive TestStep (isr : Isr) (s : TestState) : TestState → Prop
  | main (out : Outside) {c : Cmd} {next : c.Answer → IoapicProg Unit} (hmain : s.main = .op c next)
      (hready : ready c s = true) : TestStep isr s (mainStep out s c next)
  | second (out : Outside) {c : Cmd} {next : c.Answer → IoapicProg Unit}
      (hsecond : s.second = .op c next) : TestStep isr s (secondStep out s c next)
  | interrupt (out : Outside) (hdeliver : deliverable s.board = true) :
      TestStep isr s (handlerStep out isr s)

theorem testStep_of_step {isr : Isr} {s t : TestState} {a : TestAction}
    (h : (testMachine isr).step s a = some t) : TestStep isr s t := by
  cases a with
  | main out =>
    cases hmain : s.main with
    | pure u => simp [testMachine, hmain] at h
    | op c next =>
      simp only [testMachine, hmain, Option.ite_none_right_eq_some, Option.some.injEq] at h
      obtain ⟨hready, rfl⟩ := h
      exact .main out hmain hready
  | second out =>
    cases hsecond : s.second with
    | pure u => simp [testMachine, hsecond] at h
    | op c next =>
      simp only [testMachine, hsecond, Option.some.injEq] at h
      obtain rfl := h
      exact .second out hsecond
  | interrupt out =>
    simp only [testMachine, Option.ite_none_right_eq_some, Option.some.injEq] at h
    obtain ⟨hdeliver, rfl⟩ := h
    exact .interrupt out hdeliver

section Quieting

/-- A condition on the board that a delivery needs, that only a trigger can establish, and
that the handler ends. -/
structure Quiets (isr : Isr) (Q : Board → Bool) : Prop where
  of_deliverable : ∀ b, deliverable b = true → Q b = true
  triggered : ∀ b b', Q b = false → Q b' = true → triggered b b' = true
  after : ∀ out b, Q (afterHandler out isr b) = false

/-- No run of the handler since the last trigger while the condition holds, and one at most. -/
def QuietInv (Q : Board → Bool) (s : TestState) : Prop :=
  (Q s.board = true → s.runs = 0) ∧ s.runs ≤ 1

variable {isr : Isr} {Q : Board → Bool}

theorem quietInv_runsAfter (hQ : Quiets isr Q) {s : TestState} (h : QuietInv Q s) (b : Board) :
    (Q b = true → runsAfter s.board b s.runs = 0) ∧ runsAfter s.board b s.runs ≤ 1 := by
  unfold runsAfter
  by_cases htrig : triggered s.board b = true
  · rw [if_pos htrig]
    exact ⟨fun _ => rfl, Nat.zero_le 1⟩
  · rw [if_neg htrig]
    refine ⟨fun hb => ?_, h.2⟩
    cases hs : Q s.board with
    | true => exact h.1 hs
    | false => exact absurd (hQ.triggered s.board b hs hb) htrig

theorem quietInv_step (hQ : Quiets isr Q) {s t : TestState} (hs : QuietInv Q s)
    (h : TestStep isr s t) : QuietInv Q t := by
  cases h with
  | main out hmain hready => exact quietInv_runsAfter hQ hs _
  | second out hsecond => exact quietInv_runsAfter hQ hs _
  | interrupt out hdeliver =>
    have hzero : s.runs = 0 := hs.1 (hQ.of_deliverable s.board hdeliver)
    constructor
    · intro hb
      exact absurd hb (by simp [handlerStep, hQ.after])
    · exact Nat.le_of_eq (congrArg (· + 1) hzero)

/-- A handler that ends its own interrupt runs at most once after each trigger, whatever the
test does. -/
theorem endsPromptly_of_quiets (hQ : Quiets isr Q) {test : LevelTest} (hisr : test.isr = isr)
    (b : IdleBoard) : EndsPromptly test b := by
  intro tr s hrun
  rw [hisr] at hrun
  have hinv : QuietInv Q s := by
    apply Machine.run_preserves (QuietInv Q) (fun _ => True) _ (fun _ _ => trivial) _ hrun
    · intro s a t _ hs hstep
      exact quietInv_step hQ hs (testStep_of_step hstep)
    · exact ⟨fun _ => rfl, Nat.zero_le 1⟩
  exact hinv.2.trans (by decide)

theorem triggered_of_lineHigh {b b' : Board} (h : lineHigh b = false) (h' : lineHigh b' = true) :
    triggered b b' = true := by
  simp [triggered, h, h']

theorem triggered_of_unmasked {b b' : Board} (h : unmasked b = false) (h' : unmasked b' = true) :
    triggered b b' = true := by
  simp [triggered, h, h']

/-- A handler that leaves the line low. -/
theorem quiets_lineHigh (h : ∀ out b, lineHigh (afterHandler out isr b) = false) :
    Quiets isr lineHigh where
  of_deliverable _ := lineHigh_of_deliverable
  triggered _ _ := triggered_of_lineHigh
  after := h

/-- A handler that leaves the entry masked. -/
theorem quiets_unmasked (h : ∀ out b, unmasked (afterHandler out isr b) = false) :
    Quiets isr unmasked where
  of_deliverable _ := unmasked_of_deliverable
  triggered _ _ := triggered_of_unmasked
  after := h

end Quieting

section Handlers

/-- Lowering the line just before the EOI leaves it low. -/
theorem lineHigh_lower_eoi (p : IoapicProg Unit) (out : Outside) (b : Board) :
    lineHigh ((p.bind fun _ => (setIrqLine 0x0e 0).bind fun _ => eoi).exec (Board.access out) b).2 =
      false := by
  rw [Prog.exec_bind]
  rfl

theorem quiets_lower (isr : Isr) (v : Var) (h : isr.body = lowerHandler v) :
    Quiets isr lineHigh := by
  apply quiets_lineHigh
  intro out b
  rw [afterHandler, h]
  exact lineHigh_lower_eoi (increment v) out b

theorem quiets_isr79 : Quiets .isr79 lineHigh := by
  apply quiets_lineHigh
  exact lineHigh_lower_eoi
    ((apicReadBit apicTmr 0x79).bind fun bit => store .gTmr79 (if bit then 1 else 0))

/-- The second edge that `ioapic_isr_98` makes is inside its own run. -/
theorem quiets_isr98 : Quiets .isr98 lineHigh := by
  apply quiets_lineHigh
  intro out b
  rw [afterHandler, Isr.body, ioapicIsr98, Prog.bind_eq, Prog.exec_bind, Prog.bind_eq,
    Prog.exec_bind]
  split_ifs
  · rfl
  · rfl

theorem quiets_isr83 : Quiets .isr83 unmasked := by
  apply quiets_unmasked
  intro out b
  have hmask : ∀ regs : U32 → U32, (maskEntry 0x0e 1 regs (loReg 0x0e)).getLsbD 16 = true := by
    intro regs
    rw [maskEntry, Function.update_self, RedirEntry.getLsbD_maskWord _ _ (by decide)]
    rfl
  rw [afterHandler, Isr.body, ioapicIsr83, Prog.bind_eq, Prog.exec_bind, Prog.bind_eq,
    Prog.exec_bind, exec_setMask]
  exact congrArg Bool.not (hmask _)

end Handlers

/-- The handlers other than `ioapic_isr_9a` end their own interrupt. -/
theorem endsPromptly_of_ne {test : LevelTest} (h : test ≠ .levelRetrigger) (b : IdleBoard) :
    EndsPromptly test b := by
  cases test with
  | levelIntr => exact endsPromptly_of_quiets (quiets_lower .isr77 .gIsr77 rfl) rfl b
  | levelTmr => exact endsPromptly_of_quiets quiets_isr79 rfl b
  | levelTmrSmp => exact endsPromptly_of_quiets quiets_isr79 rfl b
  | levelCoalesce => exact endsPromptly_of_quiets quiets_isr98 rfl b
  | levelSequential => exact endsPromptly_of_quiets (quiets_lower .isr99 .gIsr99 rfl) rfl b
  | levelRetrigger => exact absurd rfl h
  | levelMask => exact endsPromptly_of_quiets (quiets_lower .isr82 .gIsr82 rfl) rfl b
  | levelRetriggerMask => exact endsPromptly_of_quiets quiets_isr83 rfl b

end PcmTest.Ioapic
