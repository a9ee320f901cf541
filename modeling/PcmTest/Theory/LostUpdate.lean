import Mathlib.Data.BitVec
import Mathlib.Logic.Function.Basic
import PcmTest.Theory.Machine

/-!
# A shared counter without a lock

Threads increment a machine word by a load and a later store. The counter is exact as
long as no thread stores while another one holds a loaded value. The first store that
does so leaves the other thread behind, and from then on the counter stays behind the
number of stores.
-/

namespace PcmTest.Theory

namespace LostUpdate

variable {ι : Type*} {n : ℕ}

/-- The word, the number of stores so far, and the loaded values. -/
structure State (ι : Type*) (n : ℕ) where
  value : BitVec n
  stores : ℕ
  held : ι → Option (BitVec n)

inductive Action (ι : Type*) where
  | load (i : ι)
  | store (i : ι)

variable [DecidableEq ι]

/-- An increment by thread `i` is `load i` and later `store i`. -/
def counter (ι : Type*) [DecidableEq ι] (n : ℕ) : Machine (State ι n) (Action ι) where
  step s
    | .load i =>
      if s.held i = none then
        some { s with held := Function.update s.held i (some s.value) }
      else none
    | .store i => (s.held i).map fun v =>
        { value := v + 1, stores := s.stores + 1, held := Function.update s.held i none }

def start (base : BitVec n) : State ι n := ⟨base, 0, fun _ => none⟩

/-- A store finds no other thread between its load and its store. -/
def Alone (s : State ι n) : Action ι → Prop
  | .load _ => True
  | .store i => ∀ j, j ≠ i → s.held j = none

/-- The counter and the loaded values are the number of stores. -/
def Exact (base : BitVec n) (s : State ι n) : Prop :=
  s.value = base + (s.stores : BitVec n) ∧ ∀ i v, s.held i = some v → v = s.value

/-- The counter is `lag` stores behind and each loaded value `behind i`. Once the counter
has fallen behind, so have all loaded values. -/
def Lagging (base : BitVec n) (s : State ι n) : Prop :=
  ∃ (lag : ℕ) (behind : ι → ℕ),
    s.value + (lag : BitVec n) = base + (s.stores : BitVec n) ∧ lag ≤ s.stores ∧
    (∀ i v, s.held i = some v →
      v + (behind i : BitVec n) = base + (s.stores : BitVec n) ∧ behind i ≤ s.stores) ∧
    (0 < lag → ∀ i, s.held i ≠ none → 0 < behind i) ∧
    (0 < lag ∨ ∃ i, s.held i ≠ none ∧ 0 < behind i)

theorem load_some {s t : State ι n} {i : ι} (h : (counter ι n).step s (.load i) = some t) :
    s.held i = none ∧ t = { s with held := Function.update s.held i (some s.value) } := by
  obtain ⟨hi, ht⟩ := Option.ite_none_right_eq_some.mp h
  exact ⟨hi, (Option.some.inj ht).symm⟩

theorem store_some {s t : State ι n} {i : ι} (h : (counter ι n).step s (.store i) = some t) :
    ∃ v, s.held i = some v ∧ t =
      { value := v + 1, stores := s.stores + 1, held := Function.update s.held i none } := by
  obtain ⟨v, hv, rfl⟩ := Option.map_eq_some_iff.mp h
  exact ⟨v, hv, rfl⟩

theorem exact_step {base : BitVec n} {s t : State ι n} {x : Action ι} (hx : Alone s x)
    (hs : Exact base s) (h : (counter ι n).step s x = some t) : Exact base t := by
  obtain ⟨hvalue, hheld⟩ := hs
  cases x with
  | load i =>
    obtain ⟨-, rfl⟩ := load_some h
    refine ⟨hvalue, fun j v hv => ?_⟩
    by_cases hj : j = i
    · subst hj
      simpa [eq_comm] using hv
    · exact hheld j v (by simpa [hj] using hv)
  | store i =>
    obtain ⟨v, hv, rfl⟩ := store_some h
    refine ⟨?_, fun j u hu => ?_⟩
    · dsimp only
      rw [hheld i v hv, hvalue, Nat.cast_add, Nat.cast_one, add_assoc]
    · by_cases hj : j = i
      · simp [hj] at hu
      · simp [hj, hx j hj] at hu

theorem lagging_of_exact {base : BitVec n} {s t : State ι n} {x : Action ι} (hx : ¬ Alone s x)
    (hs : Exact base s) (h : (counter ι n).step s x = some t) : Lagging base t := by
  obtain ⟨hvalue, hheld⟩ := hs
  cases x with
  | load i => exact absurd trivial hx
  | store i =>
    obtain ⟨v, hv, rfl⟩ := store_some h
    obtain ⟨j, hj, hother⟩ : ∃ j, j ≠ i ∧ s.held j ≠ none := by simpa [Alone] using hx
    refine ⟨0, fun _ => 1, ?_, Nat.zero_le _, fun k u hu => ?_, by simp,
      .inr ⟨j, by simpa [hj] using hother, one_pos⟩⟩
    · dsimp only
      rw [hheld i v hv, hvalue, Nat.cast_add, Nat.cast_one, Nat.cast_zero, add_zero, add_assoc]
    · have hk : k ≠ i := by
        rintro rfl
        simp at hu
      have hu' : u = s.value := hheld k u (by simpa [hk] using hu)
      refine ⟨?_, Nat.le_add_left _ _⟩
      dsimp only
      rw [hu', hvalue, Nat.cast_add, Nat.cast_one, add_assoc]

theorem lagging_step {base : BitVec n} {s t : State ι n} {x : Action ι} (hs : Lagging base s)
    (h : (counter ι n).step s x = some t) : Lagging base t := by
  obtain ⟨lag, behind, hvalue, hlag, hheld, hall, hsome⟩ := hs
  cases x with
  | load i =>
    obtain ⟨hi, rfl⟩ := load_some h
    refine ⟨lag, Function.update behind i lag, hvalue, hlag, fun j v hv => ?_,
      fun hpos j hj => ?_, ?_⟩
    · by_cases hji : j = i
      · subst hji
        obtain rfl : s.value = v := by simpa using hv
        simpa using ⟨hvalue, hlag⟩
      · simpa [hji] using hheld j v (by simpa [hji] using hv)
    · by_cases hji : j = i
      · simpa [hji] using hpos
      · simpa [hji] using hall hpos j (by simpa [hji] using hj)
    · refine hsome.imp_right ?_
      rintro ⟨j, hj, hpos⟩
      have hji : j ≠ i := by
        rintro rfl
        exact hj hi
      exact ⟨j, by simpa [hji] using hj, by simpa [hji] using hpos⟩
  | store i =>
    obtain ⟨v, hv, rfl⟩ := store_some h
    obtain ⟨hi, hle⟩ := hheld i v hv
    refine ⟨behind i, fun j => behind j + 1, ?_, Nat.le_succ_of_le hle, fun j u hu => ?_,
      fun _ j _ => Nat.succ_pos _, ?_⟩
    · dsimp only
      rw [Nat.cast_add, Nat.cast_one, ← add_assoc, ← hi, add_right_comm]
    · have hj : j ≠ i := by
        rintro rfl
        simp at hu
      obtain ⟨hu, hle⟩ := hheld j u (by simpa [hj] using hu)
      refine ⟨?_, Nat.succ_le_succ hle⟩
      dsimp only
      rw [Nat.cast_add, Nat.cast_one, Nat.cast_add, Nat.cast_one, ← add_assoc, ← add_assoc, hu]
    · rcases hsome with hpos | ⟨j, hj, hpos⟩
      · exact .inl (hall hpos i (by simp [hv]))
      · by_cases hji : j = i
        · exact .inl (hji ▸ hpos)
        · exact .inr ⟨j, by simpa [hji] using hj, Nat.succ_pos _⟩

omit [DecidableEq ι] in
theorem start_exact (base : BitVec n) : Exact base (start base : State ι n) := by
  simp [Exact, start]

/-- Runs in which every store is alone end exact, all others end behind. -/
theorem exact_or_lagging {base : BitVec n} {s : State ι n} {tr : List (Action ι)}
    (h : (counter ι n).run (start base) tr = some s) :
    (counter ι n).Along Alone (start base) tr ∧ Exact base s ∨
      ¬ (counter ι n).Along Alone (start base) tr ∧ Lagging base s :=
  Machine.along_or (Exact base) (Lagging base) (fun _ _ _ hx hs h => exact_step hx hs h)
    (fun _ _ _ hx hs h => lagging_of_exact hx hs h) (fun _ _ _ hs h => lagging_step hs h)
    (start_exact base) h

theorem exact_of_alone {base : BitVec n} {s : State ι n} {tr : List (Action ι)}
    (h : (counter ι n).run (start base) tr = some s)
    (halone : (counter ι n).Along Alone (start base) tr) :
    s.value = base + (s.stores : BitVec n) := by
  rcases exact_or_lagging h with ⟨-, hs⟩ | ⟨hnot, -⟩
  · exact hs.1
  · exact absurd halone hnot

/-- At rest, and with fewer stores than the word can count, the counter is exact only if
every store was alone. -/
theorem alone_of_exact {base : BitVec n} {s : State ι n} {tr : List (Action ι)}
    (h : (counter ι n).run (start base) tr = some s) (hrest : ∀ i, s.held i = none)
    (hbound : s.stores < 2 ^ n) (hs : s.value = base + (s.stores : BitVec n)) :
    (counter ι n).Along Alone (start base) tr := by
  rcases exact_or_lagging h with ⟨halone, -⟩ | ⟨-, lag, behind, hvalue, hle, -, -, hsome⟩
  · exact halone
  · have hpos : 0 < lag := hsome.resolve_right fun ⟨i, hi, _⟩ => hi (hrest i)
    rw [← hs] at hvalue
    have hzero : (lag : BitVec n) = 0 := left_eq_add.mp hvalue.symm
    have hmod : lag % 2 ^ n = 0 := by
      simpa using congrArg BitVec.toNat hzero
    rw [Nat.mod_eq_of_lt (hle.trans_lt hbound)] at hmod
    omega

end LostUpdate

end PcmTest.Theory
