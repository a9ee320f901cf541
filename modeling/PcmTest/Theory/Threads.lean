import Mathlib.Algebra.BigOperators.Ring.Finset
import Mathlib.Algebra.Order.BigOperators.Group.Finset
import Mathlib.Data.Finset.Basic
import Mathlib.Tactic.Abel
import PcmTest.Theory.Machine

/-!
# Threads over shared memory

A family of threads takes atomic steps in any order; a step reads and writes the
shared memory and the local state of its own thread, and an environment may act
on the shared memory alone. Two rules are given. `Inductive` is a proof outline
in the manner of Owicki and Gries: a thread keeps its own assertion, and no step
of another thread breaks it. `conserved` is accounting: a shared quantity plus
one contribution for each thread does not change.
-/

namespace PcmTest.Theory

open Finset

/-- The atomic steps of one thread and of the environment. -/
structure Threads (ι σ l α ε : Type*) where
  thread : ι → α → σ → l → Option (σ × l)
  env : ε → σ → Option σ

namespace Threads

variable {ι σ l α ε : Type*}

structure State (ι σ l : Type*) where
  shared : σ
  locals : ι → l

inductive Action (ι α ε : Type*) where
  | thread (i : ι) (a : α)
  | env (e : ε)

variable [DecidableEq ι]

/-- Interleaving semantics: one action is one step of one thread or of the environment. -/
def machine (T : Threads ι σ l α ε) : Machine (State ι σ l) (Action ι α ε) where
  step s
    | .thread i a => (T.thread i a s.shared (s.locals i)).map fun r =>
        ⟨r.1, Function.update s.locals i r.2⟩
    | .env e => (T.env e s.shared).map fun g => ⟨g, s.locals⟩

variable {T : Threads ι σ l α ε}

theorem thread_step {s t : State ι σ l} {i : ι} {a : α}
    (h : T.machine.step s (.thread i a) = some t) :
    ∃ g w, T.thread i a s.shared (s.locals i) = some (g, w) ∧
      t = ⟨g, Function.update s.locals i w⟩ := by
  obtain ⟨⟨g, w⟩, hw, rfl⟩ := Option.map_eq_some_iff.mp h
  exact ⟨g, w, hw, rfl⟩

theorem env_step {s t : State ι σ l} {e : ε} (h : T.machine.step s (.env e) = some t) :
    ∃ g, T.env e s.shared = some g ∧ t = ⟨g, s.locals⟩ := by
  obtain ⟨g, hg, rfl⟩ := Option.map_eq_some_iff.mp h
  exact ⟨g, hg, rfl⟩

theorem env_run {s : State ι σ l} {e : ε} {g : σ} (h : T.env e s.shared = some g) :
    T.machine.run s [.env e] = some ⟨g, s.locals⟩ := by
  apply Machine.run_single
  simp only [machine, h, Option.map_some]

/-- The shared assertion and every thread's assertion. -/
def Holds (I : σ → Prop) (P : ι → σ → l → Prop) (s : State ι σ l) : Prop :=
  I s.shared ∧ ∀ i, P i s.shared (s.locals i)

/-- The actions allowed to a run: `A` restricts thread steps, not the environment. -/
def Allowed (A : ι → α → Prop) : Action ι α ε → Prop
  | .thread i a => A i a
  | .env _ => True

/-- A proof outline: local correctness, freedom from interference, and stability
under the environment. -/
structure Inductive (T : Threads ι σ l α ε) (A : ι → α → Prop) (I : σ → Prop)
    (P : ι → σ → l → Prop) : Prop where
  own : ∀ {i a g w g' w'}, A i a → I g → P i g w → T.thread i a g w = some (g', w') →
    I g' ∧ P i g' w'
  other : ∀ {i j a g w g' w' u}, A i a → i ≠ j → I g → P i g w → P j g u →
    T.thread i a g w = some (g', w') → P j g' u
  env : ∀ {e g g'}, I g → T.env e g = some g' → I g' ∧ ∀ i u, P i g u → P i g' u

variable {A : ι → α → Prop} {I J : σ → Prop} {P Q : ι → σ → l → Prop}

theorem Inductive.step (h : T.Inductive A I P) {s t : State ι σ l} {x : Action ι α ε}
    (hx : Allowed A x) (hs : Holds I P s) (hstep : T.machine.step s x = some t) :
    Holds I P t := by
  cases x with
  | thread i a =>
    obtain ⟨g, w, hw, rfl⟩ := thread_step hstep
    obtain ⟨hI, hP⟩ := h.own hx hs.1 (hs.2 i) hw
    refine ⟨hI, fun j => ?_⟩
    by_cases hij : i = j
    · subst hij
      simpa using hP
    · simpa [Function.update_of_ne (Ne.symm hij)] using
        h.other hx hij hs.1 (hs.2 i) (hs.2 j) hw
  | env e =>
    obtain ⟨g, hg, rfl⟩ := env_step hstep
    obtain ⟨hI, hP⟩ := h.env hs.1 hg
    exact ⟨hI, fun j => hP j _ (hs.2 j)⟩

theorem Inductive.run (h : T.Inductive A I P) {s t : State ι σ l} {tr : List (Action ι α ε)}
    (htr : ∀ x ∈ tr, Allowed A x) (hrun : T.machine.run s tr = some t) (hs : Holds I P s) :
    Holds I P t :=
  Machine.run_preserves _ (Allowed A) (fun _ _ _ hx hs hstep => h.step hx hs hstep) htr hs hrun

omit [DecidableEq ι] in
theorem allowed_true (tr : List (Action ι α ε)) :
    ∀ x ∈ tr, Allowed (fun _ _ => True) x := by
  intro x _
  cases x <;> trivial

omit [DecidableEq ι] in
/-- A second outline may use the first one's assertions. -/
theorem Inductive.and (h : T.Inductive A I P)
    (own : ∀ {i a g w g' w'}, A i a → I g → P i g w → J g → Q i g w →
      T.thread i a g w = some (g', w') → J g' ∧ Q i g' w')
    (other : ∀ {i j a g w g' w' u}, A i a → i ≠ j → I g → P i g w → P j g u → J g → Q i g w →
      Q j g u → T.thread i a g w = some (g', w') → Q j g' u)
    (env : ∀ {e g g'}, I g → J g → T.env e g = some g' → J g' ∧ ∀ i u, P i g u → Q i g u →
      Q i g' u) :
    T.Inductive A (fun g => I g ∧ J g) (fun i g w => P i g w ∧ Q i g w) where
  own hA hI hP hw := by
    have h₁ := h.own hA hI.1 hP.1 hw
    have h₂ := own hA hI.1 hP.1 hI.2 hP.2 hw
    exact ⟨⟨h₁.1, h₂.1⟩, h₁.2, h₂.2⟩
  other hA hij hI hPi hPj hw :=
    ⟨h.other hA hij hI.1 hPi.1 hPj.1 hw,
      other hA hij hI.1 hPi.1 hPj.1 hI.2 hPi.2 hPj.2 hw⟩
  env hI hg := by
    have h₁ := h.env hI.1 hg
    have h₂ := env hI.1 hI.2 hg
    exact ⟨⟨h₁.1, h₂.1⟩, fun i u hP => ⟨h₁.2 i u hP.1, h₂.2 i u hP.1 hP.2⟩⟩

omit [DecidableEq ι] in
theorem Inductive.conj (h₁ : T.Inductive A I P) (h₂ : T.Inductive A J Q) :
    T.Inductive A (fun g => I g ∧ J g) (fun i g w => P i g w ∧ Q i g w) :=
  h₁.and (fun hA _ _ hJ hQ hw => h₂.own hA hJ hQ hw)
    (fun hA hij _ _ _ hJ hQi hQj hw => h₂.other hA hij hJ hQi hQj hw)
    (fun _ hJ hg => ⟨(h₂.env hJ hg).1, fun i u _ hQ => (h₂.env hJ hg).2 i u hQ⟩)

/-- The threads of `J` added up. -/
def total {M : Type*} [AddCommMonoid M] (J : Finset ι) (f : l → M) (ws : ι → l) : M :=
  ∑ i ∈ J, f (ws i)

theorem total_update {M : Type*} [AddCommMonoid M] {J : Finset ι} {i : ι} (hi : i ∈ J)
    (f : l → M) (ws : ι → l) (w : l) :
    total J f (Function.update ws i w) + f (ws i) = total J f ws + f w := by
  unfold total
  rw [← Finset.add_sum_erase J _ hi, ← Finset.add_sum_erase J (fun j => f (ws j)) hi]
  have hrest : ∑ j ∈ J.erase i, f (Function.update ws i w j) = ∑ j ∈ J.erase i, f (ws j) := by
    apply Finset.sum_congr rfl
    intro j hj
    rw [Function.update_of_ne (Finset.ne_of_mem_erase hj)]
  rw [hrest, Function.update_self]
  abel

/-- Potentials: the thread that steps pays for the rise of those in `H` that it disturbs. -/
theorem sum_lt_of_step {J H : Finset ι} {i : ι} (hi : i ∈ H) (hH : H ⊆ J) {f f' : ι → ℕ} {d : ℕ}
    (hother : ∀ j ∈ J, j ≠ i → f' j ≤ f j + if j ∈ H then d else 0)
    (hown : f' i + H.card * d < f i + d) : ∑ j ∈ J, f' j < ∑ j ∈ J, f j := by
  have hrest : ∑ j ∈ J.erase i, f' j ≤ ∑ j ∈ J.erase i, f j + (H.card - 1) * d := by
    calc ∑ j ∈ J.erase i, f' j
        ≤ ∑ j ∈ J.erase i, (f j + if j ∈ H then d else 0) := by
          apply Finset.sum_le_sum
          intro j hj
          exact hother j (Finset.mem_of_mem_erase hj) (Finset.ne_of_mem_erase hj)
      _ = ∑ j ∈ J.erase i, f j + (H.card - 1) * d := by
          have herase : (J.erase i).filter (· ∈ H) = H.erase i := by
            ext j
            simp only [Finset.mem_filter, Finset.mem_erase]
            exact ⟨fun h => ⟨h.1.1, h.2⟩, fun h => ⟨⟨h.1, hH h.2⟩, h.2⟩⟩
          rw [Finset.sum_add_distrib, ← Finset.sum_filter, herase,
            Finset.sum_const_nat fun _ _ => rfl, Finset.card_erase_of_mem hi]
  have hcard : H.card * d = (H.card - 1) * d + d := by
    rw [← Nat.succ_mul, Nat.succ_eq_add_one, Nat.sub_add_cancel (Finset.card_pos.mpr ⟨i, hi⟩)]
  rw [← Finset.add_sum_erase J f' (hH hi), ← Finset.add_sum_erase J f (hH hi)]
  omega

omit [DecidableEq ι] in
theorem total_eq_zero {M : Type*} [AddCommMonoid M] {J : Finset ι} {f : l → M} {ws : ι → l}
    (h : ∀ i ∈ J, f (ws i) = 0) : total J f ws = 0 :=
  Finset.sum_eq_zero h

omit [DecidableEq ι] in
/-- If every thread of `J` contributes `0` or `1` and the total is `J.card`, all contribute. -/
theorem total_indicator {J : Finset ι} {p : l → Bool} {ws : ι → l}
    (h : total J (fun w => if p w then (1 : ℤ) else 0) ws = J.card) : ∀ i ∈ J, p (ws i) = true := by
  have hcard : (J.filter fun i => p (ws i) = true).card = J.card := by
    have hsum : ((J.filter fun i => p (ws i) = true).card : ℤ) = J.card := by
      rw [← h, total, Finset.sum_boole]
    exact_mod_cast hsum
  exact Finset.card_filter_eq_iff.mp hcard

/-- One thread exchanges between the shared quantity and its own contribution. -/
theorem exchange {M : Type*} [AddCommGroup M] {J : Finset ι} {i : ι} (hi : i ∈ J)
    (f : l → M) (ws : ι → l) {w : l} {v v' : M} (hv : v' + f w = v + f (ws i)) :
    v' + total J f (Function.update ws i w) = v + total J f ws := by
  have ht := total_update hi f ws w
  have h₁ : total J f (Function.update ws i w) = total J f ws + f w - f (ws i) :=
    eq_sub_of_add_eq ht
  calc
    v' + total J f (Function.update ws i w) = (v' + f w) + total J f ws - f (ws i) := by
      rw [h₁]
      abel
    _ = v + total J f ws := by
      rw [hv]
      abel

/-- Accounting: if each step of a thread of `J` exchanges, and nothing else moves the
shared quantity, then quantity and contributions add up to the same all along a run. -/
theorem conserved {M : Type*} [AddCommGroup M] {J : Finset ι} {V : σ → M} {f : l → M}
    {K : State ι σ l → Prop}
    (hK : ∀ s x t, Allowed A x → K s → T.machine.step s x = some t → K t)
    (hin : ∀ {s : State ι σ l} {i a g w}, A i a → K s →
      T.thread i a s.shared (s.locals i) = some (g, w) →
      i ∈ J ∧ V g + f w = V s.shared + f (s.locals i))
    (henv : ∀ {s : State ι σ l} {e g}, K s → T.env e s.shared = some g → V g = V s.shared)
    {s t : State ι σ l} {tr : List (Action ι α ε)} (htr : ∀ x ∈ tr, Allowed A x) (hs : K s)
    (hrun : T.machine.run s tr = some t) :
    V t.shared + total J f t.locals = V s.shared + total J f s.locals := by
  let balanced : State ι σ l → Prop := fun u =>
    V u.shared + total J f u.locals = V s.shared + total J f s.locals
  have hstep : ∀ u x v, Allowed A x → K u ∧ balanced u → T.machine.step u x = some v →
      K v ∧ balanced v := by
    rintro u x v hx ⟨hu, he⟩ hstep
    refine ⟨hK u x v hx hu hstep, Eq.trans ?_ he⟩
    cases x with
    | thread i a =>
      obtain ⟨g, w, hw, rfl⟩ := thread_step hstep
      obtain ⟨hi, hv⟩ := hin hx hu hw
      exact exchange hi f u.locals hv
    | env e =>
      obtain ⟨g, hg, rfl⟩ := env_step hstep
      rw [henv hu hg]
  exact (Machine.run_preserves _ (Allowed A) hstep htr ⟨hs, rfl⟩ hrun).2

end Threads

end PcmTest.Theory
