import PcmTest.Driver.Setjmp

/-!
# The loop of test_setjmp

`test_setjmp` counts in a volatile local: a direct return of `setjmp` clears it,
and `longjmp` is called again while the counter stays below a bound. What lies
between a return and the next call of `longjmp` is compiled C code; it is held to
what it owes the two locals, and may do what it likes elsewhere.
-/

namespace PcmTest.Driver

open Theory

variable {R : Type} {w : ℕ}

def returned (abi : JumpAbi R w) (s : Cpu R w) : BitVec 32 := (s.regs abi.ax).setWidth 32

/-- A function of the shape of `test_setjmp`, with the places that its locals `i` and `j` have
relative to a register that calls preserve. -/
structure SetjmpLoop (abi : JumpAbi R w) where
  base : R
  base_mem : base ∈ abi.sp :: abi.calleeSaved
  i : BitVec w
  j : BitVec w
  bound : BitVec 32
  val : BitVec 32

namespace SetjmpLoop

variable {abi : JumpAbi R w} (loop : SetjmpLoop abi)

def iAddr (s : Cpu R w) : BitVec w := s.regs loop.base + loop.i

def jAddr (s : Cpu R w) : BitVec w := s.regs loop.base + loop.j

/-- The counter that is printed after a return of `setjmp`. -/
def counter (s : Cpu R w) : BitVec 32 :=
  if returned abi s = 0 then 0 else s.mem.load 32 (loop.iAddr s)

def continues (s : Cpu R w) : Bool := (loop.counter s + 1).slt loop.bound

/-- The compiled code between a return in `s` and the call of `longjmp` in `σ`. -/
structure Calls (s σ : Cpu R w) : Prop where
  continues : loop.continues s
  env : abi.env σ = loop.jAddr s
  val : abi.val σ = loop.val
  i : σ.mem.load 32 (loop.iAddr s) = loop.counter s + 1
  j : ∀ q, Within (loop.jAddr s) abi.stored q → σ.mem q = s.mem q

/-- What the loop has done over the returns that it has seen so far: it counts on from 0, was
initialised once, and is over after `bound` of them and not before. -/
structure Counts (returns : List (Cpu R w)) : Prop where
  visits : returns.map loop.counter = (List.range returns.length).map (BitVec.ofNat 32)
  inits : returns.countP (fun s => returned abi s = 0) = 1
  short : returns.length ≤ loop.bound.toNat
  ends : ∀ s ∈ returns.getLast?, loop.continues s = false ↔ returns.length = loop.bound.toNat

variable {loop} in
theorem continues_iff (hbound : 1 ≤ loop.bound.toInt) {s : Cpu R w} {k : ℕ}
    (hcounter : loop.counter s = BitVec.ofNat 32 k) (hk : k < loop.bound.toNat) :
    loop.continues s ↔ k + 1 < loop.bound.toNat := by
  have hsmall : 2 * loop.bound.toNat < 2 ^ 32 := by
    rw [BitVec.toInt_eq_toNat_cond] at hbound
    split_ifs at hbound with hsign <;> omega
  have hnext : (BitVec.ofNat 32 k + 1).toNat = k + 1 := by
    have hadd := BitVec.toNat_ofNat (k + 1) 32
    rw [BitVec.ofNat_add, Nat.mod_eq_of_lt (by omega)] at hadd
    exact hadd
  rw [continues, hcounter, BitVec.slt_iff_toInt_lt, BitVec.toInt_eq_toNat_of_lt (by omega),
    BitVec.toInt_eq_toNat_of_lt hsmall, hnext]
  exact Int.ofNat_lt

variable [DecidableEq R]

def Round (longjmp : List (Instr R)) (s s' : Cpu R w) : Prop :=
  ∃ σ, loop.Calls s σ ∧ s' = σ.exec abi.sp longjmp

/-- `setjmp(j)` is called in `s`, in a frame whose locals are apart from the return address. -/
structure Enters (setjmp : List (Instr R)) (s : Cpu R w) : Prop where
  env : abi.env s = loop.jAddr (s.exec abi.sp setjmp)
  j : Apart (abi.env s) abi.envSize (s.regs abi.sp) (wordBytes w)
  i : Apart (loop.iAddr (s.exec abi.sp setjmp)) 4 (s.regs abi.sp) (wordBytes w)

end SetjmpLoop

variable [DecidableEq R]

/-- The contract of the C library for the value that `setjmp` seems to return. -/
def ReturnsVal (abi : JumpAbi R w) (longjmp : List (Instr R)) (val : BitVec 32) : Prop :=
  ∀ σ : Cpu R w, abi.val σ = val →
    returned abi (σ.exec abi.sp longjmp) = if val = 0 then 1 else val

/-- A return by `longjmp(env, val)` is told from the direct one, and every loop that calls
`longjmp` with `val` counts to its bound. -/
def LoopContract (abi : JumpAbi R w) (setjmp longjmp : List (Instr R)) (val : BitVec 32) : Prop :=
  ReturnsVal abi longjmp val ∧
    ∀ loop : SetjmpLoop abi, loop.val = val → 1 ≤ loop.bound.toInt →
      ∀ s : Cpu R w, loop.Enters setjmp s → ∀ later : List (Cpu R w),
        List.IsChain (loop.Round longjmp) (s.exec abi.sp setjmp :: later) →
          loop.Counts (s.exec abi.sp setjmp :: later)

namespace JumpShape

variable {abi : JumpAbi R w} (shape : JumpShape abi)

theorem returned_longjmp (hw : wordBytes w ≤ 2 ^ w) (σ : Cpu R w) :
    returned abi (σ.exec abi.sp shape.longjmp) = abi.val σ := by
  rw [returned, shape.exec_longjmp hw σ]
  dsimp only
  rw [Function.update_of_ne shape.ax_ne_sp,
    Function.update_of_ne (shape.carrier_ne _ (by simp)).symm,
    restoreAll_of_notMem shape.restored_ax]
  exact shape.longjmp_val σ

section Rounds

variable {loop : SetjmpLoop abi} {s : Cpu R w}

structure InFrame (loop : SetjmpLoop abi) (s s' : Cpu R w) : Prop where
  base : s'.regs loop.base = (s.exec abi.sp shape.setjmp).regs loop.base
  j : ∀ q, Within (abi.env s) abi.stored q → s'.mem q = (s.exec abi.sp shape.setjmp).mem q

theorem InFrame.iAddr {s' : Cpu R w} (h : shape.InFrame loop s s') :
    loop.iAddr s' = loop.iAddr (s.exec abi.sp shape.setjmp) :=
  congrArg (· + loop.i) h.base

/-- One round stays in the frame, returns `val`, and finds the counter one higher. -/
theorem round (hw : wordBytes w ≤ 2 ^ w) (henters : loop.Enters shape.setjmp s) {s₁ s₂ : Cpu R w}
    (hframe : shape.InFrame loop s s₁) (hround : loop.Round shape.longjmp s₁ s₂) :
    shape.InFrame loop s s₂ ∧ returned abi s₂ = loop.val ∧
      s₂.mem.load 32 (loop.iAddr s₂) = loop.counter s₁ + 1 := by
  obtain ⟨σ, hcalls, rfl⟩ := hround
  have hj : loop.jAddr s₁ = abi.env s := by
    rw [henters.env]
    exact congrArg (· + loop.j) hframe.base
  have henv : abi.env σ = abi.env s := hcalls.env.trans hj
  have hkept : ∀ q, Within (abi.env s) abi.stored q →
      σ.mem q = (s.exec abi.sp shape.setjmp).mem q := by
    intro q hq
    rw [hcalls.j q (by rwa [hj]), hframe.j q hq]
  obtain ⟨-, hresult, hsaved, hsp, hmem⟩ := shape.longjmpReturns hw henters.j henv hkept
  rw [(shape.setjmpReturns henters.j).sp, add_sub_cancel_right] at hmem
  have hframe' : shape.InFrame loop s (σ.exec abi.sp shape.longjmp) := by
    constructor
    · rcases List.mem_cons.mp loop.base_mem with hbase | hbase
      · rw [hbase]
        exact hsp
      · exact hsaved loop.base hbase
    · intro q hq
      have hin : Within (abi.env s) abi.envSize q := Nat.lt_of_lt_of_le hq shape.stored_le
      rw [hmem q (henters.j q hin), hkept q hq]
  refine ⟨hframe', hresult.trans hcalls.val, ?_⟩
  rw [← hcalls.i, hframe'.iAddr, hframe.iAddr]
  exact Memory.load_congr fun q hq => hmem q (henters.i q hq)

theorem counts_from (hw : wordBytes w ≤ 2 ^ w) (henters : loop.Enters shape.setjmp s)
    (hval : loop.val ≠ 0) (hbound : 1 ≤ loop.bound.toInt) {later : List (Cpu R w)}
    {s₁ : Cpu R w} {k : ℕ} (hframe : shape.InFrame loop s s₁)
    (hcounter : loop.counter s₁ = BitVec.ofNat 32 k) (hk : k < loop.bound.toNat)
    (hchain : List.IsChain (loop.Round shape.longjmp) (s₁ :: later)) :
    (s₁ :: later).map loop.counter = (List.range' k (later.length + 1)).map (BitVec.ofNat 32) ∧
      later.countP (fun t => returned abi t = 0) = 0 ∧
      k + (later.length + 1) ≤ loop.bound.toNat ∧
      ∀ t ∈ (s₁ :: later).getLast?,
        loop.continues t = false ↔ k + (later.length + 1) = loop.bound.toNat := by
  induction later generalizing s₁ k with
  | nil =>
    refine ⟨?_, rfl, hk, ?_⟩
    · simp [hcounter]
    · intro t ht
      obtain rfl : s₁ = t := by simpa using ht
      have hiff := SetjmpLoop.continues_iff hbound hcounter hk
      rw [← Bool.not_eq_true, hiff, List.length_nil]
      omega
  | cons s₂ later ih =>
    obtain ⟨hround, hchain⟩ := List.isChain_cons_cons.mp hchain
    obtain ⟨hframe₂, hreturned, hload⟩ := shape.round hw henters hframe hround
    have hcounter₂ : loop.counter s₂ = BitVec.ofNat 32 (k + 1) := by
      rw [SetjmpLoop.counter, if_neg (by rwa [hreturned]), hload, hcounter, BitVec.ofNat_add]
      rfl
    have hk₂ : k + 1 < loop.bound.toNat := by
      obtain ⟨σ, hcalls, -⟩ := hround
      exact (SetjmpLoop.continues_iff hbound hcounter hk).mp hcalls.continues
    obtain ⟨hvisits, hinits, hshort, hends⟩ := ih hframe₂ hcounter₂ hk₂ hchain
    refine ⟨?_, ?_, ?_, ?_⟩
    · rw [List.map_cons, hvisits, hcounter]
      rfl
    · rw [List.countP_cons_of_neg (by simpa [hreturned] using hval), hinits]
    · rw [List.length_cons]
      omega
    · intro t ht
      rw [List.length_cons, hends t (by simpa using ht)]
      omega

end Rounds

theorem returnsVal_iff (hw : wordBytes w ≤ 2 ^ w) {val : BitVec 32}
    (hcall : ∃ σ : Cpu R w, abi.val σ = val) : ReturnsVal abi shape.longjmp val ↔ val ≠ 0 := by
  constructor
  · rintro h rfl
    obtain ⟨σ, hσ⟩ := hcall
    have hone := h σ hσ
    rw [shape.returned_longjmp hw, hσ] at hone
    exact absurd hone (by decide)
  · intro hval σ hσ
    rw [shape.returned_longjmp hw, hσ, if_neg hval]

theorem loopContract_iff (hw : wordBytes w ≤ 2 ^ w) {val : BitVec 32}
    (hcall : ∃ σ : Cpu R w, abi.val σ = val) :
    LoopContract abi shape.setjmp shape.longjmp val ↔ val ≠ 0 := by
  rw [LoopContract, shape.returnsVal_iff hw hcall, and_iff_left_iff_imp]
  rintro hval loop rfl hbound s henters later hchain
  have hfirst : returned abi (s.exec abi.sp shape.setjmp) = 0 :=
    (shape.setjmpReturns henters.j).result
  have hcounter : loop.counter (s.exec abi.sp shape.setjmp) = BitVec.ofNat 32 0 := if_pos hfirst
  have hpos : 0 < loop.bound.toNat := by
    rw [BitVec.toInt_eq_toNat_cond] at hbound
    split_ifs at hbound with hsign <;> omega
  obtain ⟨hvisits, hinits, hshort, hends⟩ := shape.counts_from hw henters hval hbound
    ⟨rfl, fun _ _ => rfl⟩ hcounter hpos hchain
  constructor
  · rw [hvisits, List.length_cons, List.range_eq_range']
  · rw [List.countP_cons_of_pos (by simpa using hfirst), hinits]
  · rw [List.length_cons]
    omega
  · intro t ht
    rw [hends t ht, List.length_cons, Nat.zero_add]

end JumpShape

theorem X64.exists_call (val : BitVec 32) : ∃ σ : Cpu X64.Reg 64, X64.abi.val σ = val :=
  ⟨⟨fun _ => val.setWidth 64, 0, fun _ => 0⟩,
    (BitVec.setWidth_setWidth_of_le val (show 32 ≤ 64 by decide)).trans (BitVec.setWidth_eq val)⟩

theorem I386.exists_call (val : BitVec 32) : ∃ σ : Cpu I386.Reg 32, I386.abi.val σ = val :=
  ⟨⟨fun _ => 0, 0, Memory.store (fun _ => 0) 8 val⟩, Memory.load_store_same _ _ _ (by decide)⟩

/-- Both implementations keep the contract of the C library for exactly the values other
than 0. -/
theorem setjmp_loop_iff (val : BitVec 32) :
    (LoopContract X64.abi X64.setjmp X64.longjmp val ↔ val ≠ 0) ∧
      (LoopContract I386.abi I386.setjmp I386.longjmp val ↔ val ≠ 0) :=
  ⟨X64.shape.loopContract_iff (by decide) (X64.exists_call val),
    I386.shape.loopContract_iff (by decide) (I386.exists_call val)⟩

/-- After `longjmp(env, 0)` the call of `setjmp` returns 0 once more. -/
theorem setjmp_loop_zero :
    ¬ ∀ val : BitVec 32, LoopContract X64.abi X64.setjmp X64.longjmp val ∧
      LoopContract I386.abi I386.setjmp I386.longjmp val := by
  intro h
  have hx64 := (X64.shape.loopContract_iff (by decide) (X64.exists_call 0)).mp (h 0).1
  exact hx64 rfl

end PcmTest.Driver
