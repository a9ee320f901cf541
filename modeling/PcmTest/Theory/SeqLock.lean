import Mathlib.Data.BitVec
import Mathlib.Data.List.Basic
import Mathlib.Logic.Function.Basic
import PcmTest.Theory.Machine

/-!
# Version-guarded records

A writer makes a version word odd, overwrites the fields of a record in any
order, and makes the version even again, which publishes the contents. A reader
loads the version, then the fields, then the version twice more, and retries if
the first of these is odd or the second differs from its own. The version wraps,
so the reader is only safe if fewer than `2 ^ w` increments fall into one attempt.
-/

namespace PcmTest.Theory.SeqLock

variable {w : ℕ} {ι α : Type*}

/-- `version & 1`, the mark of an update in progress. -/
def updating (version : BitVec w) : Bool := version &&& 1#w ≠ 0

/-- Where the reader stands, with the version and the fields it has loaded. -/
inductive Reader (w : ℕ) (ι α : Type*) where
  | loadVersion
  | loadFields (version : BitVec w) (loaded : List (ι × α)) (todo : List ι)
  | testParity (version : BitVec w) (loaded : List (ι × α))
  | testVersion (version : BitVec w) (loaded : List (ι × α))
  | exited (loaded : List (ι × α))
  deriving DecidableEq

/-- The record, its publications so far (latest first), and the number of version
increments since the reader's latest load of the version, counted until it exits. -/
structure State (w : ℕ) (ι α : Type*) where
  version : BitVec w
  payload : ι → α
  published : List (ι → α)
  ticks : ℕ
  reader : Reader w ι α

inductive Action (ι α : Type*) where
  | beginUpdate
  | write (i : ι) (x : α)
  | publish
  | read

def Reader.hasExited : Reader w ι α → Bool
  | .exited _ => true
  | _ => false

/-- One version increment, charged to the attempt under way. -/
def State.increment (s : State w ι α) : State w ι α :=
  { s with
    version := s.version + 1
    ticks := if s.reader.hasExited then s.ticks else s.ticks + 1 }

/-- One load of the reader. The loop condition is two loads, as `||` evaluates them. -/
def readStep (fields : List ι) (s : State w ι α) : Option (State w ι α) :=
  match s.reader with
  | .loadVersion => some { s with ticks := 0, reader := .loadFields s.version [] fields }
  | .loadFields version loaded (i :: todo) =>
    some { s with reader := .loadFields version (loaded ++ [(i, s.payload i)]) todo }
  | .loadFields version loaded [] => some { s with reader := .testParity version loaded }
  | .testParity version loaded =>
    some { s with
      reader := if updating s.version then .loadVersion else .testVersion version loaded }
  | .testVersion version loaded =>
    some { s with reader := if version ≠ s.version then .loadVersion else .exited loaded }
  | .exited _ => none

variable [DecidableEq ι]

/-- Reader and writer interleaved, for a reader that loads `fields` in this order. -/
def machine (w : ℕ) (α : Type*) (fields : List ι) : Machine (State w ι α) (Action ι α) where
  step s
    | .beginUpdate => if updating s.version then none else some s.increment
    | .write i x =>
      if updating s.version then some { s with payload := Function.update s.payload i x }
      else none
    | .publish =>
      if updating s.version then some { s.increment with published := s.payload :: s.published }
      else none
    | .read => readStep fields s

/-- A record at rest counts as published; one under update does not. -/
def start (version : BitVec w) (payload : ι → α) : State w ι α :=
  { version := version
    payload := payload
    published := if updating version then [] else [payload]
    ticks := 0
    reader := .loadVersion }

/-- What an attempt knows: the version has moved by `ticks`, and as long as it has not
moved and is even, the loaded fields are those of the record. -/
def Reader.Attempt (version : BitVec w) (payload : ι → α) (ticks : ℕ) (fields : List ι) :
    Reader w ι α → Prop
  | .loadVersion | .exited _ => True
  | .loadFields first loaded todo => version = first + BitVec.ofNat w ticks ∧
      (ticks = 0 → updating first = false →
        loaded ++ todo.map (fun i => (i, payload i)) = fields.map fun i => (i, payload i))
  | .testParity first loaded => version = first + BitVec.ofNat w ticks ∧
      (ticks = 0 → updating first = false → loaded = fields.map fun i => (i, payload i))
  | .testVersion first loaded => version = first + BitVec.ofNat w ticks ∧
      (ticks = 0 → updating first = false ∧ loaded = fields.map fun i => (i, payload i))

/-- A record at rest holds its latest publication, the reader's attempt is sound, and
a reader that exited within `2 ^ w` increments has one publication's fields. -/
structure Sound (fields : List ι) (s : State w ι α) : Prop where
  rest : updating s.version = false → s.payload ∈ s.published
  attempt : s.reader.Attempt s.version s.payload s.ticks fields
  exit : ∀ loaded, s.reader = .exited loaded → s.ticks < 2 ^ w →
    ∃ p ∈ s.published, loaded = fields.map fun i => (i, p i)

omit [DecidableEq ι] in
theorem start_sound (fields : List ι) (version : BitVec w) (payload : ι → α) :
    Sound fields (start version payload) where
  rest h := by simp [start, show updating version = false from h]
  attempt := trivial
  exit loaded h := by simp [start] at h

theorem eq_zero_of_wrap {version : BitVec w} {n : ℕ} (hn : n < 2 ^ w)
    (h : version = version + BitVec.ofNat w n) : n = 0 := by
  have hzero : BitVec.ofNat w n = 0 := left_eq_add.mp h
  have hnat := congrArg BitVec.toNat hzero
  rwa [BitVec.toNat_ofNat, Nat.mod_eq_of_lt hn] at hnat

omit [DecidableEq ι] in
theorem Reader.attempt_increment {fields : List ι} {version : BitVec w} {payload : ι → α}
    {ticks : ℕ} {r : Reader w ι α} (h : r.Attempt version payload ticks fields) :
    r.Attempt (version + 1) payload (ticks + 1) fields := by
  have hmove : ∀ first : BitVec w, version = first + BitVec.ofNat w ticks →
      version + 1 = first + BitVec.ofNat w (ticks + 1) := by
    rintro first rfl
    rw [BitVec.ofNat_add, BitVec.add_assoc]
    rfl
  cases r with
  | loadVersion => trivial
  | exited loaded => trivial
  | loadFields first loaded todo => exact ⟨hmove first h.1, fun h0 => by omega⟩
  | testParity first loaded => exact ⟨hmove first h.1, fun h0 => by omega⟩
  | testVersion first loaded => exact ⟨hmove first h.1, fun h0 => by omega⟩

/-- The record cannot change while an attempt has seen no increment of an even version. -/
theorem Reader.attempt_write {fields : List ι} {version : BitVec w} {payload : ι → α}
    {ticks : ℕ} {r : Reader w ι α} (hodd : updating version = true) (i : ι) (x : α)
    (h : r.Attempt version payload ticks fields) :
    r.Attempt version (Function.update payload i x) ticks fields := by
  have hmoved : ∀ first : BitVec w, version = first + BitVec.ofNat w ticks → ticks = 0 →
      updating first = true := by
    rintro first rfl rfl
    simpa using hodd
  cases r with
  | loadVersion => trivial
  | exited loaded => trivial
  | loadFields first loaded todo =>
    exact ⟨h.1, fun h0 heven => by simp [hmoved first h.1 h0] at heven⟩
  | testParity first loaded =>
    exact ⟨h.1, fun h0 heven => by simp [hmoved first h.1 h0] at heven⟩
  | testVersion first loaded =>
    exact ⟨h.1, fun h0 => by simpa [hmoved first h.1 h0] using (h.2 h0).1⟩

omit [DecidableEq ι] in
theorem readStep_sound {fields : List ι} {s t : State w ι α} (h : Sound fields s)
    (hstep : readStep fields s = some t) : Sound fields t := by
  have hattempt := h.attempt
  unfold readStep at hstep
  cases hr : s.reader with
  | exited loaded => simp [hr] at hstep
  | loadVersion =>
    simp only [hr, Option.some.injEq] at hstep
    subst hstep
    exact ⟨h.rest, ⟨by simp, fun _ _ => by simp⟩, by simp⟩
  | loadFields first loaded todo =>
    rw [hr] at hattempt
    cases todo with
    | nil =>
      simp only [hr, Option.some.injEq] at hstep
      subst hstep
      exact ⟨h.rest, ⟨hattempt.1, fun h0 he => by simpa using hattempt.2 h0 he⟩, by simp⟩
    | cons i todo =>
      simp only [hr, Option.some.injEq] at hstep
      subst hstep
      exact ⟨h.rest, ⟨hattempt.1, fun h0 he => by simpa using hattempt.2 h0 he⟩, by simp⟩
  | testParity first loaded =>
    rw [hr] at hattempt
    simp only [hr, Option.some.injEq] at hstep
    subst hstep
    cases hu : updating s.version with
    | true => exact ⟨h.rest, trivial, by simp⟩
    | false =>
      refine ⟨h.rest, ⟨hattempt.1, fun h0 => ?_⟩, by simp⟩
      -- no increment since the first load, so the parity seen now is that of `first`
      have hfirst : updating first = false := by
        have he : s.version = first := by
          simpa [show s.ticks = 0 from h0] using hattempt.1
        exact he ▸ hu
      exact ⟨hfirst, hattempt.2 h0 hfirst⟩
  | testVersion first loaded =>
    rw [hr] at hattempt
    simp only [hr, Option.some.injEq] at hstep
    subst hstep
    by_cases hv : first = s.version
    · refine ⟨h.rest, by simp [hv, Reader.Attempt], fun loaded' he hlt => ?_⟩
      simp only [ne_eq, hv, not_true_eq_false, if_false, Reader.exited.injEq] at he
      subst he
      -- equal versions and fewer than `2 ^ w` increments leave only none
      have hticks : s.ticks = 0 := eq_zero_of_wrap hlt (hv ▸ hattempt.1)
      obtain ⟨heven, hloaded⟩ := hattempt.2 hticks
      exact ⟨s.payload, h.rest (hv ▸ heven), hloaded⟩
    · exact ⟨h.rest, by simp [hv, Reader.Attempt], by simp [hv]⟩

theorem step_sound {fields : List ι} {s t : State w ι α} {a : Action ι α} (h : Sound fields s)
    (hstep : (machine w α fields).step s a = some t) : Sound fields t := by
  have hcount : ∀ loaded, s.reader = .exited loaded → s.increment.ticks = s.ticks := by
    intro loaded hr
    simp [State.increment, Reader.hasExited, hr]
  have hincr : s.reader.Attempt (s.version + 1) s.payload s.increment.ticks fields := by
    cases hr : s.reader.hasExited with
    | true => cases hs : s.reader <;> simp_all [Reader.hasExited, Reader.Attempt]
    | false =>
      have ht : s.increment.ticks = s.ticks + 1 := by simp [State.increment, hr]
      rw [ht]
      exact Reader.attempt_increment h.attempt
  cases a with
  | read => exact readStep_sound h hstep
  | beginUpdate =>
    cases hu : updating s.version with
    | true => simp [machine, hu] at hstep
    | false =>
      simp only [machine, hu, Bool.false_eq_true, if_false, Option.some.injEq] at hstep
      subst hstep
      refine ⟨fun _ => h.rest hu, hincr, fun loaded hr hlt => h.exit loaded hr ?_⟩
      exact hcount loaded hr ▸ hlt
  | write i x =>
    cases hu : updating s.version with
    | false => simp [machine, hu] at hstep
    | true =>
      simp only [machine, hu, if_true, Option.some.injEq] at hstep
      subst hstep
      exact ⟨by simp [hu], Reader.attempt_write hu i x h.attempt, h.exit⟩
  | publish =>
    cases hu : updating s.version with
    | false => simp [machine, hu] at hstep
    | true =>
      simp only [machine, hu, if_true, Option.some.injEq] at hstep
      subst hstep
      refine ⟨fun _ => List.mem_cons_self .., hincr, fun loaded hr hlt => ?_⟩
      obtain ⟨p, hp, hl⟩ := h.exit loaded hr (hcount loaded hr ▸ hlt)
      exact ⟨p, List.mem_cons_of_mem _ hp, hl⟩

/-- A reader that leaves the loop has loaded the fields of one publication. -/
theorem exit_consistent {fields : List ι} {version : BitVec w} {payload : ι → α}
    {tr : List (Action ι α)} {s : State w ι α} {loaded : List (ι × α)}
    (hrun : (machine w α fields).run (start version payload) tr = some s)
    (hexit : s.reader = .exited loaded) (hticks : s.ticks < 2 ^ w) :
    ∃ p ∈ s.published, loaded = fields.map fun i => (i, p i) := by
  have hs : Sound fields s := Machine.run_preserves _ (fun _ => True)
    (fun _ _ _ _ h hstep => step_sound h hstep) (by simp) (start_sound fields version payload) hrun
  exact hs.exit loaded hexit hticks

end PcmTest.Theory.SeqLock
