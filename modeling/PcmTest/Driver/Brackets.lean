import PcmTest.Driver.Ioctl

/-!
# The record bracket of every call

Over any sequence of calls, hypercalls 102 and 103 alternate, each pair encloses
the test bodies of its own call, and a rejected call leaves no trace. What a test
body does to the interrupt flag is left open, so the flag is a relation along the
trace.
-/

namespace PcmTest.Driver

open Theory

section Flag

variable {T : Type}

/-- One command takes the interrupt flag from `on` to `on'`; a test body may leave either. -/
def FlagStep (on : Bool) : IoctlCmd T → Bool → Prop
  | .localIrqDisable, on' => on' = false
  | .localIrqEnable, on' => on' = true
  | .test _, _ => True
  | _, on' => on' = on

/-- The trace can take the interrupt flag from `on` to `on'`. -/
def FlagRun : Bool → IoctlTrace T → Bool → Prop
  | on, [], on' => on' = on
  | on, e :: tr, on' => ∃ mid, FlagStep on e.1 mid ∧ FlagRun mid tr on'

theorem flagRun_append {on on' : Bool} {tr₁ tr₂ : IoctlTrace T}
    (h : FlagRun on (tr₁ ++ tr₂) on') : ∃ mid, FlagRun on tr₁ mid ∧ FlagRun mid tr₂ on' := by
  induction tr₁ generalizing on with
  | nil => exact ⟨on, rfl, h⟩
  | cons e tr ih =>
    obtain ⟨mid, hstep, hrest⟩ := h
    obtain ⟨mid', h₁, h₂⟩ := ih hrest
    exact ⟨mid', ⟨mid, hstep, h₁⟩, h₂⟩

theorem flagRun_accessOk {on on' : Bool} {tr : IoctlTrace T} (htr : ∀ e ∈ tr, IsAccessOk e.1)
    (h : FlagRun on tr on') : on' = on := by
  induction tr generalizing on with
  | nil => exact h
  | cons e tr ih =>
    obtain ⟨mid, hstep, hrest⟩ := h
    have he := htr e (by simp)
    obtain ⟨c, x⟩ := e
    cases c with
    | accessOk type addr size =>
      cases (hstep : mid = on)
      exact ih (fun e he => htr e (by simp [he])) hrest
    | _ => exact he.elim

/-- The bracket ends with interrupts enabled, whatever ran inside. -/
theorem flagRun_bracket {on on' : Bool} {body : IoctlTrace T} (h : FlagRun on (bracket body) on') :
    on' = true := by
  obtain ⟨_, -, _, -, hrest⟩ := h
  obtain ⟨_, -, hlast⟩ := flagRun_append hrest
  obtain ⟨_, -, _, henable, rfl⟩ := hlast
  exact henable

/-- What one call contributes: nothing when it fails, and otherwise one pair that encloses its
test bodies and ends with interrupts enabled. -/
def Bracketed (tr : IoctlTrace T) (result : ℤ) : Prop :=
  (result < 0 → hypercalls tr = [] ∧ testsRun tr = [] ∧
    ∀ on on', FlagRun on tr on' → on' = on) ∧
  (0 ≤ result → hypercalls tr = [102, 103] ∧
    (∃ pre body post, tr = pre ++ ⟨.hypercall 102, ()⟩ :: (body ++ ⟨.hypercall 103, ()⟩ :: post) ∧
      testsRun pre = [] ∧ testsRun post = []) ∧
    ∀ on on', FlagRun on tr on' → on' = true)

/-- The law of a driver's entry over call sequences: the trace is cut into one part for each
call, every part is bracketed, and the hypercalls are the pairs of the calls that succeed. -/
def SessionsBracketed (ioctl : U32 → U64 → IoctlProg T ℤ) : Prop :=
  ∀ (calls : List IoctlCall) (tr : IoctlTrace T) (results : List ℤ),
    (ioctls ioctl calls).Runs tr results →
      ∃ rounds : List (Prog.Round IoctlCall (IoctlCmd T) IoctlCmd.Answer ℤ),
        rounds.map Prog.Round.item = calls ∧ rounds.map Prog.Round.result = results ∧
        rounds.flatMap Prog.Round.trace = tr ∧
        (∀ x ∈ rounds, Bracketed x.trace x.result) ∧
        hypercalls tr = (List.replicate (results.countP (0 ≤ ·)) [102, 103]).flatten

theorem bracketed_of_callTrace {maxNr : U32} {arms : List (SwitchArm T)} {cmd : U32}
    {tr : IoctlTrace T} {r : ℤ} (h : CallTrace maxNr arms cmd tr r) : Bracketed tr r := by
  cases h with
  | rejected hpre herr hwhy =>
    refine ⟨fun _ => ⟨hypercalls_accessOk hpre, testsRun_accessOk hpre, ?_⟩, fun h => by omega⟩
    exact fun on on' h => flagRun_accessOk hpre h
  | @accepted pre hpre hok =>
    refine ⟨fun h => absurd h (by decide), fun _ => ⟨?_, ?_, ?_⟩⟩
    · simp [hypercalls_accessOk hpre]
    · refine ⟨pre ++ [⟨.localIrqDisable, ()⟩], (switchTests cmd arms).map testEvent,
        [⟨.localIrqEnable, ()⟩], ?_, ?_, rfl⟩
      · simp [bracket]
      · rw [testsRun_append, testsRun_accessOk hpre]
        rfl
    · intro on on' hflag
      obtain ⟨_, -, hbracket⟩ := flagRun_append hflag
      exact flagRun_bracket hbracket

theorem hypercalls_rounds
    (rounds : List (Prog.Round IoctlCall (IoctlCmd T) IoctlCmd.Answer ℤ))
    (h : ∀ x ∈ rounds, Bracketed x.trace x.result) :
    hypercalls (rounds.flatMap Prog.Round.trace) =
      (List.replicate ((rounds.map Prog.Round.result).countP (0 ≤ ·)) [102, 103]).flatten := by
  induction rounds with
  | nil => rfl
  | cons x rounds ih =>
    have hrest := ih fun y hy => h y (by simp [hy])
    obtain ⟨hfail, hok⟩ := h x (by simp)
    rw [List.flatMap_cons, hypercalls_append, hrest, List.map_cons]
    by_cases hr : 0 ≤ x.result
    · rw [(hok hr).1, List.countP_cons_of_pos (by simpa using hr), List.replicate_succ]
      rfl
    · rw [(hfail (by omega)).1, List.countP_cons_of_neg (by simpa using hr)]
      rfl

theorem sessionsBracketed_cdevIoctl (maxNr : U32) (arms : List (SwitchArm T)) :
    SessionsBracketed (cdevIoctl maxNr arms) := by
  intro calls tr results h
  obtain ⟨rounds, rfl, rfl, rfl, hrounds⟩ := Prog.runs_forEach h
  have hbracketed : ∀ x ∈ rounds, Bracketed x.trace x.result :=
    fun x hx => bracketed_of_callTrace (callTrace_of_runs (hrounds x hx))
  exact ⟨rounds, rfl, rfl, rfl, hbracketed, hypercalls_rounds rounds hbracketed⟩

end Flag

/-- Both drivers keep the bracket balanced on every path of every sequence of calls. -/
theorem pcmCdevIoctl_bracketed :
    SessionsBracketed PcmUnit.pcmCdevIoctl ∧ SessionsBracketed FocusTest.pcmCdevIoctl :=
  ⟨sessionsBracketed_cdevIoctl _ _, sessionsBracketed_cdevIoctl _ _⟩

end PcmTest.Driver
