import PcmTest.Apps.Ckevent
import PcmTest.Driver.Dispatch

/-!
# pcmtest

The guest tool opens the device for each `-t`, turns the name into an ioctl code
and calls the driver. A name that no arm has leaves the code that the variable
started with. The driver's entry stands behind the call, so an execution of the
whole shows which test a name runs.
-/

namespace PcmTest.Apps

open Theory CString Driver FocusTest

/-- The system calls of the tool; `printError` prints the text of `errno`. -/
inductive AppCmd where
  | openDev
  | ioctl (fd : ℤ) (request arg : U64)
  | close (fd : ℤ)
  | printError
  deriving DecidableEq, Repr

def AppCmd.Answer : AppCmd → Type
  | .openDev | .ioctl _ _ _ => ℤ
  | .close _ | .printError => Unit

instance AppCmd.inhabitedAnswer : (c : AppCmd) → Inhabited c.Answer
  | .openDev | .ioctl _ _ _ => inferInstanceAs (Inhabited ℤ)
  | .close _ | .printError => inferInstanceAs (Inhabited Unit)

abbrev AppProg := Prog AppCmd AppCmd.Answer

abbrev AppTrace := List (Prog.Event AppCmd AppCmd.Answer)

namespace Pcmtest

def openDev : AppProg ℤ := Prog.call AppCmd.openDev

def ioctl (fd : ℤ) (request arg : U64) : AppProg ℤ := Prog.call (AppCmd.ioctl fd request arg)

/-- The arms of the chain, with the codes for `ins_ioc`. -/
def arms : List (Arm U32) :=
  [⟨ofString "cpuid", cpuid⟩, ⟨ofString "rdpmc", rdpmc⟩, ⟨ofString "rdrand", rdrand⟩,
    ⟨ofString "rdseed", rdseed⟩, ⟨ofString "rdtsc", rdtsc⟩, ⟨ofString "rdtscp", rdtscp⟩,
    ⟨ofString "pio", pio⟩, ⟨ofString "mmio", mmio⟩, ⟨ofString "icmp", icmp⟩]

/-- The option loop returns from `main`, or reaches the chain. -/
inductive Parsed where
  | exit (code : ℤ)
  | chain (fd : ℤ) (type : List (BitVec 8))
  deriving DecidableEq, Repr

def readOptions : List Opt → ℤ → List (BitVec 8) → AppProg Parsed
  | [], fd, type => pure (.chain fd type)
  | .t optarg :: opts, _, type => do
    let fd ← openDev
    if fd < 0 then do
      Prog.call AppCmd.printError
      pure (.exit 1)
    else
      readOptions opts fd (strncpy buffSize optarg type)
  | .h :: _, _, _ => pure (.exit 1)
  | .unknown :: opts, fd, type => readOptions opts fd type

/-- The call with the code of the arm, if one was taken. -/
def runTest (fd : ℤ) (arg : U64) (arm : Option (Arm U32)) : AppProg ℤ := do
  let insIoc : U32 := (arm.map Arm.body).getD cpuid
  let err ← ioctl fd (insIoc.setWidth 64) arg
  if err ≠ 0 then do
    Prog.call AppCmd.printError
    pure 1
  else do
    Prog.call (AppCmd.close fd)
    pure 0

/-- `fd` and `arg` are what the uninitialised `fd` and the argument that `ioctl` is not given
happen to be. The result is the exit code, or `none` after a read outside of `type`. -/
def main (fd : ℤ) (arg : U64) (opts : List Opt) : AppProg (Option ℤ) := do
  let parsed ← readOptions opts fd initialType
  match parsed with
  | .exit code => pure (some code)
  | .chain fd type =>
    match select type arms with
    | none => pure none
    | some arm => do
      let code ← runTest fd arg arm
      pure (some code)

theorem arms_short : ∀ arm ∈ arms, arm.name.bytes.length < buffSize := by decide

theorem arms_distinct : (arms.map Arm.name).Nodup := by decide

/-- The chain finds the last argument in the buffer. -/
theorem readOptions_t {args : List CString} {s : CString} {fd₀ fd : ℤ}
    {type : List (BitVec 8)} {tr : AppTrace}
    (h : (readOptions (args.map .t) fd₀ (padded buffSize s.bytes)).Runs tr (.chain fd type)) :
    type = padded buffSize (args.getLastD s).bytes := by
  induction args generalizing s fd₀ tr with
  | nil =>
    obtain ⟨-, he⟩ := Prog.runs_pure.mp h
    cases he
    rfl
  | cons arg args ih =>
    obtain ⟨(x : ℤ), tr', rfl, hrest⟩ := Prog.runs_op.mp h
    change (if x < 0 then _ else _ : AppProg Parsed).Runs tr' _ at hrest
    split_ifs at hrest with hx
    · obtain ⟨y, tr'', rfl, hexit⟩ := Prog.runs_op.mp hrest
      obtain ⟨-, he⟩ := Prog.runs_pure.mp hexit
      cases he
    · rw [strncpy_full (length_padded _ _)] at hrest
      rw [ih hrest, List.getLastD_cons]

/-- With one `-t` the tool opens the device and makes the call of the arm with that name. -/
theorem main_t (fd : ℤ) (arg : U64) (s : CString) :
    main fd arg [.t s] = Prog.op AppCmd.openDev fun (fd : ℤ) =>
      if fd < 0 then Prog.op AppCmd.printError fun _ => .pure (some 1)
      else (runTest fd arg (armOf arms s)).bind fun code => .pure (some code) := by
  refine congrArg (Prog.op AppCmd.openDev) (funext fun (fd : ℤ) => ?_)
  change Prog.bind (if fd < 0 then _ else _ : AppProg Parsed) _ = _
  split_ifs with hfd
  · rfl
  · change (match select (strncpy buffSize s initialType) arms with
      | none => _
      | some arm => _) = _
    rw [initialType, strncpy_full (length_padded _ _), select_padded arms_short]
    rfl

/-- A run on `-t` options ends with an exit code, and so without a read outside of the buffer. -/
theorem runs_main_t {args : List CString} {fd : ℤ} {arg : U64} {tr : AppTrace} {r : Option ℤ}
    (h : (main fd arg (args.map .t)).Runs tr r) : r ≠ none := by
  obtain ⟨tr₁, parsed, tr₂, rfl, hread, hrest⟩ := Prog.runs_bind.mp h
  cases parsed with
  | exit code =>
    obtain ⟨-, rfl⟩ := Prog.runs_pure.mp hrest
    exact Option.some_ne_none code
  | chain fd type =>
    change Prog.Runs (match select type arms with
      | none => _
      | some arm => _) tr₂ r at hrest
    rw [readOptions_t hread, select_padded arms_short] at hrest
    obtain ⟨tr₃, code, tr₄, rfl, -, hdone⟩ := Prog.runs_bind.mp hrest
    obtain ⟨-, rfl⟩ := Prog.runs_pure.mp hdone
    exact Option.some_ne_none code

end Pcmtest

/-- What the two tools make of any number of `-t` options: no comparison reads outside of the
buffer, and the arm is the one with the name that came last. -/
theorem type_selects_last (args : List CString) :
    (∃ arm, Ckevent.main (args.map .t) = .ran arm ∧
      ∀ x, arm = some x ↔ x ∈ Ckevent.arms ∧ x.name = lastName args) ∧
    (∀ (fd₀ fd : ℤ) (type : List (BitVec 8)) (tr : AppTrace),
      (Pcmtest.readOptions (args.map .t) fd₀ initialType).Runs tr (.chain fd type) →
        ∃ arm, select type Pcmtest.arms = some arm ∧
          ∀ x, arm = some x ↔ x ∈ Pcmtest.arms ∧ x.name = lastName args) ∧
    ∀ (fd₀ : ℤ) (arg : U64) (tr : AppTrace) (r : Option ℤ),
      (Pcmtest.main fd₀ arg (args.map .t)).Runs tr r → r ≠ none := by
  refine ⟨?_, ?_, fun _ _ _ _ h => Pcmtest.runs_main_t h⟩
  · exact ⟨_, Ckevent.main_t args, fun x => armOf_eq_some_iff Ckevent.arms_distinct⟩
  · intro fd₀ fd type tr h
    rw [Pcmtest.readOptions_t h]
    exact ⟨_, select_padded Pcmtest.arms_short _,
      fun x => armOf_eq_some_iff Pcmtest.arms_distinct⟩

end PcmTest.Apps
