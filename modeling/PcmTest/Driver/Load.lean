import PcmTest.Theory.Machine
import PcmTest.Theory.Program
import Mathlib.Data.Int.Notation

/-!
# Loading and unloading the driver module

`pcm_test_init` drops the result of `pcm_cdev_init`, and `pcm_cdev_add` neither
checks most of what it acquires nor undoes it when `cdev_add` fails. The kernel
calls are commands whose answers are open; the handles they return are the only
identity of a resource, so a release can miss what was acquired. The code is the
same in the focus_test and the pcm-unit driver.
-/

namespace PcmTest.Driver

open Theory

/-- A negative return value of a kernel call, by its positive code. -/
structure Errno where
  code : ℕ
  pos : 0 < code
  deriving DecidableEq, Repr

def Errno.ret (e : Errno) : ℤ := -e.code

/-- A major number, a class pointer or an allocation, as the kernel returned it. -/
abbrev Handle := ℕ

/-- The kernel calls of module load and unload. -/
inductive ModuleCmd where
  | allocChrdevRegion
  | classCreate
  | kmalloc
  | cdevAdd (cdev major : Handle)
  | deviceCreate (cls : Option Handle) (major : Handle)
  | deviceDestroy (cls : Option Handle) (major : Handle)
  | classDestroy (cls : Option Handle)
  | cdevDel (cdev : Option Handle)
  | kfree (p : Option Handle)
  | unregisterChrdevRegion (major : Handle)
  deriving DecidableEq, Repr

def ModuleCmd.Answer : ModuleCmd → Type
  | .allocChrdevRegion => Except Errno Handle
  | .classCreate | .kmalloc => Option Handle
  | .cdevAdd _ _ => Except Errno Unit
  | .deviceCreate _ _ => Bool
  | _ => Unit

abbrev ModuleProg := Prog ModuleCmd ModuleCmd.Answer

/-- The statics of the module; `none` is a null or an error pointer. -/
structure ModuleStatics where
  pcmCdevMajor : Handle
  pcmClass : Option Handle
  pcmCdevT : Option Handle
  deriving DecidableEq, Repr

/-- The statics of a freshly loaded image. -/
def ModuleStatics.zero : ModuleStatics := ⟨0, none, none⟩

def allocChrdevRegion : ModuleProg (Except Errno Handle) := Prog.call ModuleCmd.allocChrdevRegion

def classCreate : ModuleProg (Option Handle) := Prog.call ModuleCmd.classCreate

def kmalloc : ModuleProg (Option Handle) := Prog.call ModuleCmd.kmalloc

def cdevAdd (cdev major : Handle) : ModuleProg (Except Errno Unit) :=
  Prog.call (ModuleCmd.cdevAdd cdev major)

def deviceCreate (cls : Option Handle) (major : Handle) : ModuleProg Bool :=
  Prog.call (ModuleCmd.deviceCreate cls major)

def pcmCdevInit (st : ModuleStatics) : ModuleProg (ℤ × ModuleStatics) := do
  match ← allocChrdevRegion with
  | .error e => pure (e.ret, st)
  | .ok major => pure (0, { st with pcmCdevMajor := major })

/-- `none` is a load that never returns. -/
def pcmCdevAdd (st : ModuleStatics) : ModuleProg (Option (ℤ × ModuleStatics)) := do
  let cls ← classCreate
  let p ← kmalloc
  let st := { st with pcmClass := cls, pcmCdevT := p }
  match st.pcmCdevT with
  | none => pure none -- `cdev_init` and the stores after it go through the null pointer
  | some cdev =>
    match ← cdevAdd cdev st.pcmCdevMajor with
    | .error e => pure (some (e.ret, st))
    | .ok () => do
      let _ ← deviceCreate st.pcmClass st.pcmCdevMajor
      pure (some (0, st))

/-- The result of `pcm_cdev_init` is dropped. -/
def pcmTestInit : ModuleProg (Option (ℤ × ModuleStatics)) := do
  let r ← pcmCdevInit .zero
  pcmCdevAdd r.2

def pcmCdevExit (st : ModuleStatics) : ModuleProg Unit := do
  Prog.call (ModuleCmd.deviceDestroy st.pcmClass st.pcmCdevMajor)
  Prog.call (ModuleCmd.classDestroy st.pcmClass)
  Prog.call (ModuleCmd.cdevDel st.pcmCdevT)
  Prog.call (ModuleCmd.kfree st.pcmCdevT)
  Prog.call (ModuleCmd.unregisterChrdevRegion st.pcmCdevMajor)

def pcmTestExit (st : ModuleStatics) : ModuleProg Unit := pcmCdevExit st

/-- What a load acquires from the kernel. -/
inductive Resource where
  | chrdevRegion (major : Handle)
  | cls (cls : Option Handle)
  | memory (p : Option Handle)
  | cdev (cdev : Option Handle)
  | device (cls : Option Handle) (major : Handle)
  deriving DecidableEq, Repr

/-- Whether each kernel call of one load succeeds, and with which handle. -/
structure LoadAnswers where
  region : Except Errno Handle
  cls : Option Handle
  memory : Option Handle
  cdevAdd : Except Errno Unit
  device : Bool
  deriving DecidableEq, Repr

/-- The kernel during one call of the module: its answers, and what it gave and took back. -/
structure KernelLog where
  answers : LoadAnswers
  acquired : List Resource
  released : List Resource
  deriving DecidableEq, Repr

namespace KernelLog

def acquire (k : KernelLog) (r : Resource) : KernelLog := { k with acquired := k.acquired ++ [r] }

def release (k : KernelLog) (r : Resource) : KernelLog := { k with released := k.released ++ [r] }

/-- A call acquires its resource exactly when it succeeds. -/
def answer : (c : ModuleCmd) → KernelLog → c.Answer × KernelLog
  | .allocChrdevRegion, k =>
    match k.answers.region with
    | .error e => (.error e, k)
    | .ok major => (.ok major, k.acquire (.chrdevRegion major))
  | .classCreate, k =>
    match k.answers.cls with
    | none => (none, k)
    | some cls => (some cls, k.acquire (.cls (some cls)))
  | .kmalloc, k =>
    match k.answers.memory with
    | none => (none, k)
    | some p => (some p, k.acquire (.memory (some p)))
  | .cdevAdd cdev _, k =>
    match k.answers.cdevAdd with
    | .error e => (.error e, k)
    | .ok () => (.ok (), k.acquire (.cdev (some cdev)))
  | .deviceCreate cls major, k =>
    if k.answers.device then (true, k.acquire (.device cls major)) else (false, k)
  | .deviceDestroy cls major, k => ((), k.release (.device cls major))
  | .classDestroy cls, k => ((), k.release (.cls cls))
  | .cdevDel cdev, k => ((), k.release (.cdev cdev))
  | .kfree p, k => ((), k.release (.memory p))
  | .unregisterChrdevRegion major, k => ((), k.release (.chrdevRegion major))

end KernelLog

/-- A finished load attempt or unload: what the kernel gave and took back during it. An unload
keeps what its load had acquired. -/
inductive ModuleRecord where
  | load (result : Option ℤ) (acquired released : List Resource)
  | unload (acquired released : List Resource)
  deriving DecidableEq, Repr

/-- Whether the module image is in the kernel; a load that never returns blocks the module. -/
inductive ModuleStatus where
  | unloaded
  | loaded (st : ModuleStatics) (acquired : List Resource)
  | blocked
  deriving DecidableEq, Repr

structure ModuleHost where
  module : ModuleStatus
  history : List ModuleRecord
  deriving DecidableEq, Repr

inductive ModuleAction where
  | load (answers : LoadAnswers)
  | unload
  deriving DecidableEq, Repr

namespace ModuleHost

/-- The log of a load with these answers, and the result of `pcm_test_init`. -/
def loadOutcome (answers : LoadAnswers) : Option (ℤ × ModuleStatics) × KernelLog :=
  pcmTestInit.exec KernelLog.answer ⟨answers, [], []⟩

/-- The resources that an unload of a module with these statics releases. -/
def unloadReleases (st : ModuleStatics) : List Resource :=
  ((pcmTestExit st).exec KernelLog.answer
    ⟨⟨.ok 0, none, none, .ok (), false⟩, [], []⟩).2.released

def loadRecord (answers : LoadAnswers) : ModuleRecord :=
  let r := loadOutcome answers
  .load (r.1.map Prod.fst) r.2.acquired r.2.released

/-- A load that returns a negative result leaves no image behind. -/
def loadStatus (answers : LoadAnswers) : ModuleStatus :=
  let r := loadOutcome answers
  match r.1 with
  | none => .blocked
  | some (ret, st) => if ret < 0 then .unloaded else .loaded st r.2.acquired

def step (s : ModuleHost) : ModuleAction → Option ModuleHost
  | .load answers =>
    match s.module with
    | .unloaded => some ⟨loadStatus answers, s.history ++ [loadRecord answers]⟩
    | _ => none
  | .unload =>
    match s.module with
    | .loaded st acquired => some ⟨.unloaded, s.history ++ [.unload acquired (unloadReleases st)]⟩
    | _ => none

def machine : Machine ModuleHost ModuleAction := ⟨step⟩

def start : ModuleHost := ⟨.unloaded, []⟩

end ModuleHost

/-- One handle of each kind, used consistently. -/
def HoldsAll (held : List Resource) : Prop :=
  ∃ major cls p, .chrdevRegion major ∈ held ∧ .cls (some cls) ∈ held ∧ .memory (some p) ∈ held ∧
    .cdev (some p) ∈ held ∧ .device (some cls) major ∈ held

/-- What the driver owes for a finished load or unload. -/
def ModuleRecord.Clean : ModuleRecord → Prop
  | .load none _ _ => True
  | .load (some ret) acquired released =>
    (ret ≠ 0 → acquired.diff released = []) ∧ (ret = 0 → HoldsAll (acquired.diff released))
  | .unload acquired released => released.Perm acquired

/-- The load never gets past `kmalloc`, or none of its calls fails. -/
def LoadAnswers.AllSucceed (k : LoadAnswers) : Prop :=
  k.memory.isSome = true →
    k.region.isOk = true ∧ k.cls.isSome = true ∧ k.cdevAdd.isOk = true ∧ k.device = true

def ModuleAction.AllSucceed : ModuleAction → Prop
  | .load answers => answers.AllSucceed
  | .unload => True

namespace ModuleHost

/-- The statics of a loaded module name everything its load acquired. -/
def Consistent : ModuleStatus → Prop
  | .loaded st acquired => ∃ major cls p, st = ⟨major, some cls, some p⟩ ∧
      acquired = [.chrdevRegion major, .cls (some cls), .memory (some p), .cdev (some p),
        .device (some cls) major]
  | _ => True

theorem loadOutcome_null {k : LoadAnswers} (hmem : k.memory = none) :
    (loadOutcome k).1 = none := by
  obtain ⟨region, cls, memory, added, device⟩ := k
  cases hmem
  cases region <;> cases cls <;> rfl

/-- What a load acquires before `kmalloc`, dropped results included. -/
def acquiredFirst (k : LoadAnswers) : List Resource :=
  (match k.region with
    | .error _ => []
    | .ok major => [.chrdevRegion major]) ++
  (match k.cls with
    | none => []
    | some cls => [.cls (some cls)])

/-- The static is left at zero when there is no region. -/
def majorOf (k : LoadAnswers) : Handle :=
  match k.region with
  | .error _ => 0
  | .ok major => major

def devices (k : LoadAnswers) : List Resource :=
  if k.device then [.device k.cls (majorOf k)] else []

/-- A load with memory for its `cdev` undoes nothing, whatever else fails. -/
theorem loadOutcome_eq {k : LoadAnswers} {p : Handle} (hmem : k.memory = some p) :
    loadOutcome k = match k.cdevAdd with
      | .error e => (some (e.ret, ⟨majorOf k, k.cls, some p⟩),
          ⟨k, acquiredFirst k ++ [.memory (some p)], []⟩)
      | .ok () => (some (0, ⟨majorOf k, k.cls, some p⟩),
          ⟨k, acquiredFirst k ++ [.memory (some p)] ++ [.cdev (some p)] ++ devices k, []⟩) := by
  obtain ⟨region, cls, memory, added, device⟩ := k
  cases hmem
  cases region <;> cases cls <;> cases added <;> cases device <;> rfl

theorem holdsAll_iff {k : LoadAnswers} {p : Handle} :
    HoldsAll (acquiredFirst k ++ [.memory (some p)] ++ [.cdev (some p)] ++ devices k) ↔
      k.region.isOk = true ∧ k.cls.isSome = true ∧ k.device = true := by
  obtain ⟨region, cls, memory, added, device⟩ := k
  constructor
  · rintro ⟨major, c, q, hregion, hcls, -, -, hdevice⟩
    cases region <;> cases cls <;> cases device <;>
      simp_all [acquiredFirst, devices, Except.isOk, Except.toBool]
  · rintro ⟨hregion, hcls, hdevice⟩
    cases region with
    | error e => cases hregion
    | ok major =>
      cases cls with
      | none => cases hcls
      | some c =>
        cases hdevice
        exact ⟨major, c, p, by simp [acquiredFirst, devices, majorOf]⟩

/-- The record of a load is clean exactly when no call after `kmalloc`'s success fails. -/
theorem clean_loadRecord_iff (k : LoadAnswers) : (loadRecord k).Clean ↔ k.AllSucceed := by
  cases hmem : k.memory with
  | none =>
    have hclean : (loadRecord k).Clean := by
      rw [loadRecord, loadOutcome_null hmem]
      trivial
    have hvacuous : k.AllSucceed := fun h => by simp [hmem] at h
    exact iff_of_true hclean hvacuous
  | some p =>
    have hout := loadOutcome_eq hmem
    cases hadd : k.cdevAdd with
    | error e =>
      have hrec : loadRecord k = .load (some e.ret) (acquiredFirst k ++ [.memory (some p)]) [] := by
        rw [loadRecord, hout, hadd]
        rfl
      rw [hrec]
      apply iff_of_false
      · rintro ⟨hleft, -⟩
        have hne : e.ret ≠ 0 := by
          have hpos := e.pos
          unfold Errno.ret
          omega
        simpa using hleft hne
      · intro h
        have hok := (h (by simp [hmem])).2.2.1
        rw [hadd] at hok
        cases hok
    | ok u =>
      have hrec : loadRecord k = .load (some 0)
          (acquiredFirst k ++ [.memory (some p)] ++ [.cdev (some p)] ++ devices k) [] := by
        rw [loadRecord, hout, hadd]
        rfl
      rw [hrec]
      constructor
      · rintro ⟨-, hall⟩ _
        obtain ⟨hregion, hcls, hdevice⟩ := holdsAll_iff.mp (hall rfl)
        rw [hadd]
        exact ⟨hregion, hcls, rfl, hdevice⟩
      · intro h
        obtain ⟨hregion, hcls, -, hdevice⟩ := h (by simp [hmem])
        exact ⟨fun hne => absurd rfl hne, fun _ => holdsAll_iff.mpr ⟨hregion, hcls, hdevice⟩⟩

theorem consistent_loadStatus {k : LoadAnswers} (h : k.AllSucceed) :
    Consistent (loadStatus k) := by
  cases hmem : k.memory with
  | none =>
    have hstatus : loadStatus k = .blocked := by rw [loadStatus, loadOutcome_null hmem]
    rw [hstatus]
    trivial
  | some p =>
    obtain ⟨hregion, hcls, hadd, hdevice⟩ := h (by simp [hmem])
    obtain ⟨region, cls, memory, added, device⟩ := k
    cases hmem
    cases hdevice
    obtain ⟨c, rfl⟩ := Option.isSome_iff_exists.mp hcls
    cases region with
    | error e => cases hregion
    | ok major =>
      cases added with
      | error e => cases hadd
      | ok u => exact ⟨major, c, p, rfl, rfl⟩

/-- An unload hands back what its statics name, in an order of its own. -/
theorem perm_unloadReleases (major cls p : Handle) :
    (unloadReleases ⟨major, some cls, some p⟩).Perm
      [.chrdevRegion major, .cls (some cls), .memory (some p), .cdev (some p),
        .device (some cls) major] := by
  have hreleases : unloadReleases ⟨major, some cls, some p⟩ = [.device (some cls) major,
      .cls (some cls), .cdev (some p), .memory (some p), .chrdevRegion major] := rfl
  rw [hreleases]
  apply (List.perm_ext_iff_of_nodup (by simp) (by simp)).mpr
  intro r
  simp only [List.mem_cons, List.not_mem_nil, or_false]
  tauto

theorem step_cases {s t : ModuleHost} {a : ModuleAction} (h : step s a = some t) :
    (∃ k, a = .load k ∧ s.module = .unloaded ∧
      t = ⟨loadStatus k, s.history ++ [loadRecord k]⟩) ∨
    (∃ st acquired, a = .unload ∧ s.module = .loaded st acquired ∧
      t = ⟨.unloaded, s.history ++ [.unload acquired (unloadReleases st)]⟩) := by
  obtain ⟨module, history⟩ := s
  cases a with
  | load k => cases module <;> simp_all [step]
  | unload => cases module <;> simp_all [step]

def AllClean (s : ModuleHost) : Prop := ∀ r ∈ s.history, r.Clean

theorem allClean_append {s : ModuleHost} {m : ModuleStatus} {r : ModuleRecord} (hs : s.AllClean)
    (hr : r.Clean) : AllClean ⟨m, s.history ++ [r]⟩ := by
  intro r' hr'
  rcases List.mem_append.mp hr' with hr' | hr'
  · exact hs r' hr'
  · rw [List.mem_singleton.mp hr']
    exact hr

/-- A step whose calls all succeed adds a clean record. -/
theorem clean_step {s t : ModuleHost} {a : ModuleAction} (ha : a.AllSucceed)
    (hs : s.AllClean ∧ Consistent s.module) (h : machine.step s a = some t) :
    t.AllClean ∧ Consistent t.module := by
  obtain ⟨hclean, hmodule⟩ := hs
  rcases step_cases h with ⟨k, rfl, hunloaded, rfl⟩ | ⟨st, acquired, rfl, hloaded, rfl⟩
  · exact ⟨allClean_append hclean ((clean_loadRecord_iff k).mpr ha), consistent_loadStatus ha⟩
  · rw [hloaded] at hmodule
    obtain ⟨major, cls, p, rfl, rfl⟩ := hmodule
    exact ⟨allClean_append hclean (perm_unloadReleases major cls p), trivial⟩

/-- A load in which a call fails adds a record that stays unclean. -/
theorem unclean_step {s t : ModuleHost} {a : ModuleAction} (ha : ¬ a.AllSucceed)
    (h : machine.step s a = some t) : ¬ t.AllClean := by
  rcases step_cases h with ⟨k, rfl, hunloaded, rfl⟩ | ⟨st, acquired, rfl, hloaded, rfl⟩
  · intro hclean
    exact ha ((clean_loadRecord_iff k).mp (hclean _ (by simp)))
  · exact absurd trivial ha

theorem unclean_stays {s t : ModuleHost} {a : ModuleAction} (hs : ¬ s.AllClean)
    (h : machine.step s a = some t) : ¬ t.AllClean := by
  intro hclean
  apply hs
  intro r hr
  rcases step_cases h with ⟨k, rfl, hunloaded, rfl⟩ | ⟨st, acquired, rfl, hloaded, rfl⟩
  · exact hclean r (by simp [hr])
  · exact hclean r (by simp [hr])

end ModuleHost

open ModuleHost in
/-- Over any sequence of loads and unloads, what the driver owes is met exactly when no load
that gets its memory has another call fail. -/
theorem pcmTestInit_clean_iff (tr : List ModuleAction) (s : ModuleHost)
    (hrun : ModuleHost.machine.run start tr = some s) :
    (∀ r ∈ s.history, r.Clean) ↔ ∀ a ∈ tr, a.AllSucceed := by
  have hstart : start.AllClean ∧ Consistent start.module := ⟨by simp [AllClean, start], trivial⟩
  have hsplit := Machine.along_or (C := fun _ a => ModuleAction.AllSucceed a)
    (fun s => s.AllClean ∧ Consistent s.module) (fun s => ¬ s.AllClean)
    (fun _ _ _ ha hs h => clean_step ha hs h) (fun _ _ _ ha _ h => unclean_step ha h)
    (fun _ _ _ hs h => unclean_stays hs h) hstart hrun
  rw [Machine.along_actions hrun] at hsplit
  rcases hsplit with ⟨hall, hclean, -⟩ | ⟨hfail, hunclean⟩
  · exact iff_of_true hclean hall
  · exact iff_of_false hunclean hfail

/-- A load, an unload, and a load without a region: the last one returns 0 all the same. -/
theorem pcmTestInit_clean_iff_reload :
    let tr : List ModuleAction := [.load ⟨.ok 240, some 1, some 2, .ok (), true⟩, .unload,
      .load ⟨.error ⟨16, by decide⟩, some 3, some 4, .ok (), true⟩]
    let s : ModuleHost := ⟨.loaded ⟨0, some 3, some 4⟩ [.cls (some 3), .memory (some 4),
        .cdev (some 4), .device (some 3) 0],
      [.load (some 0) [.chrdevRegion 240, .cls (some 1), .memory (some 2), .cdev (some 2),
          .device (some 1) 240] [],
        .unload [.chrdevRegion 240, .cls (some 1), .memory (some 2), .cdev (some 2),
            .device (some 1) 240]
          [.device (some 1) 240, .cls (some 1), .cdev (some 2), .memory (some 2),
            .chrdevRegion 240],
        .load (some 0) [.cls (some 3), .memory (some 4), .cdev (some 4), .device (some 3) 0] []]⟩
    ModuleHost.machine.run ModuleHost.start tr = some s ∧
      ((∀ r ∈ s.history, r.Clean) ↔ ∀ a ∈ tr, a.AllSucceed) :=
  ⟨rfl, pcmTestInit_clean_iff _ _ rfl⟩

/-- A failing `cdev_add` returns its error and leaves region, class and allocation behind. -/
theorem pcmTestInit_leaves_prefix :
    ¬ ∀ (tr : List ModuleAction) (s : ModuleHost),
      ModuleHost.machine.run ModuleHost.start tr = some s → ∀ r ∈ s.history, r.Clean := by
  intro h
  have hclean := h [.load ⟨.ok 240, some 1, some 2, .error ⟨12, by decide⟩, true⟩]
    ⟨.unloaded, [.load (some (-12)) [.chrdevRegion 240, .cls (some 1), .memory (some 2)] []]⟩ rfl
    _ (List.mem_singleton.mpr rfl)
  exact absurd (hclean.1 (by decide)) (by decide)

end PcmTest.Driver
