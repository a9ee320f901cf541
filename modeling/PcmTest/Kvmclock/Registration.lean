import PcmTest.Kvmclock.TestKvmClock
import PcmTest.Theory.ByteMemory

/-!
# The addresses that the guest registers with the host

`kvm_clock_init` and `kvm_get_wallclock` hand the host the virtual address of
their structures; the host takes it for a guest physical one. A translation
carries the guest's accesses to physical memory, while the host writes at the
address in the register. What is compared is what the guest reads with what the
host last wrote for it.
-/

namespace PcmTest.Kvmclock

open Theory

/-- The bytes of `struct pvclock_vcpu_time_info` and of `struct pvclock_wall_clock`. -/
def vcpuTimeInfoSize : ℕ := 32
def wallClockSize : ℕ := 12

abbrev VcpuTimeInfo := BitVec 256
abbrev WallClockInfo := BitVec 96

/-- The kernel's mapping, and where it has placed the two objects. -/
structure AddressSpace where
  translate : U64 → U64
  injective : Function.Injective translate
  hvClock : U64
  wallClock : U64
  apart : Apart hvClock (vcpuTimeInfoSize * maxCpu) wallClock wallClockSize

namespace AddressSpace

variable (A : AddressSpace)

/-- The virtual address of `hv_clock[index]`. -/
def hvClockAddr (index : ℕ) : U64 := A.hvClock + BitVec.ofNat 64 (vcpuTimeInfoSize * index)

/-- What the guest finds in physical memory through its mapping. -/
def view (mem : Memory 64) : Memory 64 := fun q => mem (A.translate q)

end AddressSpace

/-- Guest memory and the clock registers. The last two fields remember what the host wrote for
each registered structure. -/
structure ClockHost where
  mem : Memory 64
  systemTimeMsr : ℕ → U64
  shown : ℕ → Option VcpuTimeInfo
  wallShown : Option WallClockInfo

inductive ClockHostAction where
  | kvmClockInit (cpu : ℕ)
  | kvmClockClear (cpu : ℕ)
  | hostUpdate (cpu : ℕ) (info : VcpuTimeInfo)
  | kvmGetWallclock (info : WallClockInfo)

namespace ClockHost

variable (A : AddressSpace) (ncpus : ℕ)

/-- The value that `kvm_clock_init` writes to the register of its CPU. -/
def systemTimeValue (cpu : ℕ) : U64 := A.hvClockAddr cpu ||| 1

/-- The address that the host takes from the register: bit 0 is the enable flag. -/
def hostAddr (msr : U64) : U64 := msr &&& ~~~1

def step (s : ClockHost) : ClockHostAction → Option ClockHost
  | .kvmClockInit cpu =>
    if cpu < ncpus then
      some { s with
        systemTimeMsr := Function.update s.systemTimeMsr cpu (systemTimeValue A cpu)
        shown := Function.update s.shown cpu none }
    else none
  | .kvmClockClear cpu =>
    if cpu < ncpus then
      some { s with
        systemTimeMsr := Function.update s.systemTimeMsr cpu 0
        shown := Function.update s.shown cpu none }
    else none
  | .hostUpdate cpu info =>
    if s.systemTimeMsr cpu &&& 1 ≠ 0 then
      some { s with
        mem := s.mem.store (hostAddr (s.systemTimeMsr cpu)) info
        shown := Function.update s.shown cpu (some info) }
    else none
  | .kvmGetWallclock info =>
    -- the write of the register makes the host fill the structure
    some { s with
      mem := s.mem.store A.wallClock info
      wallShown := some info }

def machine : Machine ClockHost ClockHostAction := ⟨step A ncpus⟩

/-- No structure is registered yet. -/
def start (mem : Memory 64) : ClockHost := ⟨mem, fun _ => 0, fun _ => none, none⟩

/-- The structure that `kvm_clock_read` uses on a CPU. -/
def clockRead (s : ClockHost) (cpu : ℕ) : VcpuTimeInfo :=
  (A.view s.mem).load 256 (A.hvClockAddr cpu)

/-- The structure that `pvclock_read_wallclock` loads. -/
def wallclockRead (s : ClockHost) : WallClockInfo := (A.view s.mem).load 96 A.wallClock

/-- The guest reads what the host last wrote for it. -/
def Agree (s : ClockHost) : Prop :=
  (∀ cpu info, s.shown cpu = some info → s.clockRead A cpu = info) ∧
  (∀ info, s.wallShown = some info → s.wallclockRead A = info)

/-- The bytes of every structure in use lie, in order, at the address that the host is given. -/
structure RegistersOwn : Prop where
  clock : ∀ cpu < ncpus, ∀ k < vcpuTimeInfoSize,
    A.translate (A.hvClockAddr cpu + BitVec.ofNat 64 k) =
      hostAddr (systemTimeValue A cpu) + BitVec.ofNat 64 k
  wall : ∀ k < wallClockSize,
    A.translate (A.wallClock + BitVec.ofNat 64 k) = A.wallClock + BitVec.ofNat 64 k

variable {A ncpus}

theorem hvClock_apart {i j : ℕ} (hi : i < maxCpu) (hj : j < maxCpu) (hne : i ≠ j) :
    Apart (A.hvClockAddr i) vcpuTimeInfoSize (A.hvClockAddr j) vcpuTimeInfoSize := by
  unfold maxCpu at hi hj
  unfold AddressSpace.hvClockAddr vcpuTimeInfoSize
  rcases Nat.lt_or_gt_of_ne hne with hlt | hgt
  · apply apart_offsets <;> omega
  · exact (apart_offsets (by omega) (by omega)).symm

theorem hvClock_apart_wallClock {i : ℕ} (hi : i < maxCpu) :
    Apart (A.hvClockAddr i) vcpuTimeInfoSize A.wallClock wallClockSize := by
  intro q hq
  have hle : vcpuTimeInfoSize * i + vcpuTimeInfoSize ≤ vcpuTimeInfoSize * maxCpu := by
    rw [← Nat.mul_succ]
    exact Nat.mul_le_mul_left _ hi
  exact A.apart q (within_of_part hle hq)

theorem clockRead_eq (h : RegistersOwn A ncpus) (s : ClockHost) {cpu : ℕ} (hcpu : cpu < ncpus) :
    s.clockRead A cpu = s.mem.load 256 (hostAddr (systemTimeValue A cpu)) :=
  Memory.load_translate (v := 256) (h.clock cpu hcpu) s.mem

theorem wallclockRead_eq (h : RegistersOwn A ncpus) (s : ClockHost) :
    s.wallclockRead A = s.mem.load 96 A.wallClock :=
  Memory.load_translate (v := 96) h.wall s.mem

/-- The host's writes for one CPU stay away from the structure of another. -/
theorem host_apart (hn : ncpus ≤ maxCpu) (h : RegistersOwn A ncpus) {i j : ℕ} (hi : i < ncpus)
    (hj : j < ncpus) (hne : i ≠ j) :
    Apart (hostAddr (systemTimeValue A i)) vcpuTimeInfoSize (hostAddr (systemTimeValue A j))
      vcpuTimeInfoSize :=
  (hvClock_apart (by omega) (by omega) hne).translate A.injective (h.clock i hi) (h.clock j hj)

theorem host_apart_wallClock (hn : ncpus ≤ maxCpu) (h : RegistersOwn A ncpus) {i : ℕ}
    (hi : i < ncpus) :
    Apart (hostAddr (systemTimeValue A i)) vcpuTimeInfoSize A.wallClock wallClockSize :=
  (hvClock_apart_wallClock (by omega)).translate A.injective (h.clock i hi) h.wall

/-- What the registers hold along a run. -/
structure Registered (A : AddressSpace) (ncpus : ℕ) (s : ClockHost) : Prop where
  msr : ∀ cpu, s.systemTimeMsr cpu = 0 ∨
    cpu < ncpus ∧ s.systemTimeMsr cpu = systemTimeValue A cpu
  shown : ∀ cpu info, s.shown cpu = some info → cpu < ncpus

/-- A new value in a register forgets what was shown through the old one. -/
theorem inv_register {s : ClockHost} {cpu : ℕ} {value : U64}
    (hvalue : value = 0 ∨ cpu < ncpus ∧ value = systemTimeValue A cpu)
    (hs : s.Agree A ∧ Registered A ncpus s) :
    let t := { s with
      systemTimeMsr := Function.update s.systemTimeMsr cpu value
      shown := Function.update s.shown cpu none }
    t.Agree A ∧ Registered A ncpus t := by
  obtain ⟨⟨hclock, hwall⟩, hmsr, hshown⟩ := hs
  have hold : ∀ c info, Function.update s.shown cpu none c = some info →
      s.shown c = some info := by
    intro c info hc
    by_cases he : c = cpu
    · subst he
      rw [Function.update_self] at hc
      cases hc
    · rwa [Function.update_of_ne he] at hc
  refine ⟨⟨fun c info hc => hclock c info (hold c info hc), hwall⟩, fun c => ?_,
    fun c info hc => hshown c info (hold c info hc)⟩
  by_cases he : c = cpu
  · subst he
    simpa using hvalue
  · simpa [Function.update_of_ne he] using hmsr c

theorem inv_hostUpdate (hn : ncpus ≤ maxCpu) (h : RegistersOwn A ncpus) {s : ClockHost} {cpu : ℕ}
    {info : VcpuTimeInfo} (henabled : s.systemTimeMsr cpu &&& 1 ≠ 0)
    (hs : s.Agree A ∧ Registered A ncpus s) :
    let t := { s with
      mem := s.mem.store (hostAddr (s.systemTimeMsr cpu)) info
      shown := Function.update s.shown cpu (some info) }
    t.Agree A ∧ Registered A ncpus t := by
  obtain ⟨⟨hclock, hwall⟩, hmsr, hshown⟩ := hs
  have hcpu : cpu < ncpus ∧ s.systemTimeMsr cpu = systemTimeValue A cpu := by
    rcases hmsr cpu with hzero | hcpu
    · rw [hzero] at henabled
      exact absurd rfl henabled
    · exact hcpu
  obtain ⟨hlt, hvalue⟩ := hcpu
  rw [hvalue]
  intro t
  refine ⟨⟨fun c x hc => ?_, fun x hx => ?_⟩, hmsr, fun c x hc => ?_⟩
  · by_cases he : c = cpu
    · subst he
      obtain rfl : info = x := by simpa [t] using hc
      rw [clockRead_eq h t hlt]
      exact Memory.load_store_same _ _ _ (by decide)
    · have hold : s.shown c = some x := by simpa [t, Function.update_of_ne he] using hc
      have hc := hshown c x hold
      rw [clockRead_eq h t hc, ← hclock c x hold, clockRead_eq h s hc]
      exact Memory.load_store_apart _ (host_apart hn h hc hlt he)
  · rw [wallclockRead_eq h t, ← hwall x hx, wallclockRead_eq h s]
    exact Memory.load_store_apart _ (host_apart_wallClock hn h hlt).symm
  · by_cases he : c = cpu
    · rw [he]
      exact hlt
    · exact hshown c x (by simpa [t, Function.update_of_ne he] using hc)

theorem inv_wallclock (hn : ncpus ≤ maxCpu) (h : RegistersOwn A ncpus) {s : ClockHost}
    (info : WallClockInfo) (hs : s.Agree A ∧ Registered A ncpus s) :
    let t := { s with mem := s.mem.store A.wallClock info, wallShown := some info }
    t.Agree A ∧ Registered A ncpus t := by
  obtain ⟨⟨hclock, hwall⟩, hmsr, hshown⟩ := hs
  intro t
  refine ⟨⟨fun c x hc => ?_, fun x hx => ?_⟩, hmsr, hshown⟩
  · have hlt := hshown c x hc
    rw [clockRead_eq h t hlt, ← hclock c x hc, clockRead_eq h s hlt]
    exact Memory.load_store_apart _ (host_apart_wallClock hn h hlt)
  · obtain rfl : info = x := Option.some.inj hx
    rw [wallclockRead_eq h t]
    exact Memory.load_store_same _ _ _ (by decide)

theorem inv_step (hn : ncpus ≤ maxCpu) (h : RegistersOwn A ncpus) {s t : ClockHost}
    {a : ClockHostAction} (hs : s.Agree A ∧ Registered A ncpus s)
    (hstep : step A ncpus s a = some t) : t.Agree A ∧ Registered A ncpus t := by
  cases a with
  | kvmClockInit cpu =>
    rw [step] at hstep
    split_ifs at hstep with hlt
    cases hstep
    exact inv_register (.inr ⟨hlt, rfl⟩) hs
  | kvmClockClear cpu =>
    rw [step] at hstep
    split_ifs at hstep with hlt
    cases hstep
    exact inv_register (.inl rfl) hs
  | hostUpdate cpu info =>
    rw [step] at hstep
    split_ifs at hstep with henabled
    cases hstep
    exact inv_hostUpdate hn h henabled hs
  | kvmGetWallclock info =>
    cases hstep
    exact inv_wallclock hn h info hs

/-- The flag bit of a registered address is set. -/
theorem systemTimeValue_enabled (A : AddressSpace) (cpu : ℕ) : systemTimeValue A cpu &&& 1 ≠ 0 := by
  intro h
  have hbit := congrArg (fun x => x.getLsbD 0) h
  simp [systemTimeValue] at hbit

theorem update_after_init {cpu : ℕ} (hcpu : cpu < ncpus) (mem : Memory 64) (info : VcpuTimeInfo) :
    ∃ s, (machine A ncpus).run (start mem) [.kvmClockInit cpu, .hostUpdate cpu info] = some s ∧
      s.mem = mem.store (hostAddr (systemTimeValue A cpu)) info ∧ s.shown cpu = some info := by
  let s₁ : ClockHost := { start mem with
    systemTimeMsr := Function.update (fun _ => 0) cpu (systemTimeValue A cpu)
    shown := Function.update (fun _ => none) cpu none }
  have hmsr : s₁.systemTimeMsr cpu = systemTimeValue A cpu := by simp [s₁]
  have h₁ : (machine A ncpus).step (start mem) (.kvmClockInit cpu) = some s₁ := if_pos hcpu
  have h₂ : (machine A ncpus).step s₁ (.hostUpdate cpu info) = some { s₁ with
      mem := mem.store (hostAddr (s₁.systemTimeMsr cpu)) info
      shown := Function.update s₁.shown cpu (some info) } := by
    apply if_pos
    rw [hmsr]
    exact systemTimeValue_enabled A cpu
  refine ⟨_, Machine.run_trans (Machine.run_single h₁) (Machine.run_single h₂), ?_,
    Function.update_self _ _ _⟩
  dsimp only
  rw [hmsr]

/-- One registration and one update show whether the structure is where the host writes. -/
theorem registersOwn_of_agree
    (h : ∀ tr s, (machine A ncpus).run (start fun _ => 0) tr = some s → s.Agree A) :
    RegistersOwn A ncpus := by
  constructor
  · intro cpu hcpu k hk
    apply Memory.translate_of_readback (v := 256) _ hk
    intro info
    obtain ⟨s, hrun, hmem, hshown⟩ := update_after_init (A := A) hcpu (fun _ => 0) info
    have hread := (h _ s hrun).1 cpu info hshown
    unfold clockRead AddressSpace.view at hread
    rwa [hmem] at hread
  · intro k hk
    apply Memory.translate_of_readback (v := 96) _ hk
    intro info
    exact (h [.kvmGetWallclock info] _ rfl).2 info rfl

end ClockHost

/-- A mapping at a constant distance, as the kernel's for its own image. -/
def shiftedSpace : AddressSpace where
  translate q := q + 0x80000000
  injective := fun _ _ h => add_right_cancel h
  hvClock := 0x10000
  wallClock := 0x20000
  apart := by
    intro q hq hq'
    unfold Within vcpuTimeInfoSize maxCpu at hq
    unfold Within wallClockSize at hq'
    bv_omega

end PcmTest.Kvmclock
