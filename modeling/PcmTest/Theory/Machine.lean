import Mathlib.Data.List.Basic
import Mathlib.Tactic.Common

/-!
# Guarded machines and their runs

A machine is an executable step function that answers `none` when the action is
not enabled. A run is the replay of a list of actions, so every statement about
"all interleavings" is a statement about all action lists that replay.
-/

namespace PcmTest.Theory

/-- A guarded executable step: `none` means that the action is not enabled. -/
structure Machine (σ α : Type*) where
  step : σ → α → Option σ

namespace Machine

variable {σ α : Type*} (M : Machine σ α)

/-- Replay a list of actions; a disabled action stops the replay. -/
def run : σ → List α → Option σ
  | s, [] => some s
  | s, a :: tr => (M.step s a).bind fun t => run t tr

@[simp] theorem run_nil (s : σ) : M.run s [] = some s := rfl

theorem run_cons (s : σ) (a : α) (tr : List α) :
    M.run s (a :: tr) = (M.step s a).bind fun t => M.run t tr := rfl

theorem run_cons_some {s t : σ} {a : α} {tr : List α} (h : M.run s (a :: tr) = some t) :
    ∃ u, M.step s a = some u ∧ M.run u tr = some t :=
  Option.bind_eq_some_iff.mp h

theorem run_append (s : σ) (tr₁ tr₂ : List α) :
    M.run s (tr₁ ++ tr₂) = (M.run s tr₁).bind fun t => M.run t tr₂ := by
  induction tr₁ generalizing s with
  | nil => rfl
  | cons a tr ih => simp only [List.cons_append, run_cons, Option.bind_assoc, ih]

variable {M}

theorem run_split {s t : σ} {tr₁ tr₂ : List α} (h : M.run s (tr₁ ++ tr₂) = some t) :
    ∃ u, M.run s tr₁ = some u ∧ M.run u tr₂ = some t := by
  rw [run_append] at h
  exact Option.bind_eq_some_iff.mp h

theorem run_trans {s t u : σ} {tr₁ tr₂ : List α} (h₁ : M.run s tr₁ = some t)
    (h₂ : M.run t tr₂ = some u) : M.run s (tr₁ ++ tr₂) = some u := by
  rw [run_append, h₁]
  exact h₂

theorem run_single {s t : σ} {a : α} (h : M.step s a = some t) : M.run s [a] = some t := by
  rw [run_cons, h]
  rfl

theorem run_observed {β : Type*} (f : σ → β) {v : β} {s t : σ} {tr : List α}
    (hs : M.run s tr = some t) (h : (M.run s tr).map f = some v) : f t = v := by
  rw [hs] at h
  exact Option.some.inj h

/-- A run that takes an action passes through the two ends of its step. -/
theorem run_of_mem {tr : List α} {s t : σ} {a : α} (ha : a ∈ tr) (hrun : M.run s tr = some t) :
    ∃ tr₁ tr₂ u v, M.run s tr₁ = some u ∧ M.step u a = some v ∧ M.run v tr₂ = some t := by
  obtain ⟨tr₁, tr₂, rfl⟩ := List.append_of_mem ha
  obtain ⟨u, hu, hrun⟩ := run_split hrun
  obtain ⟨v, hv, hrun⟩ := M.run_cons_some hrun
  exact ⟨tr₁, tr₂, u, v, hu, hv, hrun⟩

/-- The invariant rule, with a restriction `A` on the actions of the run. -/
theorem run_preserves (P : σ → Prop) (A : α → Prop)
    (hstep : ∀ s a t, A a → P s → M.step s a = some t → P t) {tr : List α}
    (htr : ∀ a ∈ tr, A a) {s t : σ} (hs : P s) (hrun : M.run s tr = some t) : P t := by
  induction tr generalizing s with
  | nil => cases hrun; exact hs
  | cons a tr ih =>
    obtain ⟨u, hu, hrun⟩ := M.run_cons_some hrun
    exact ih (fun b hb => htr b (by simp [hb])) (hstep s a u (htr a (by simp)) hs hu) hrun

/-- The termination rule: the actions counted by `A` lower the rank and the others do not
raise it, so a run has no more of them than the rank it starts from. -/
theorem run_countP_le (P : σ → Prop) (rank : σ → ℕ) (A : α → Bool)
    (hstep : ∀ s a t, P s → M.step s a = some t → P t)
    (hcounted : ∀ s a t, P s → M.step s a = some t → A a = true → rank t < rank s)
    (hother : ∀ s a t, P s → M.step s a = some t → A a = false → rank t ≤ rank s)
    {tr : List α} {s t : σ} (hs : P s) (hrun : M.run s tr = some t) :
    tr.countP A + rank t ≤ rank s := by
  induction tr generalizing s with
  | nil =>
    cases hrun
    simp
  | cons a tr ih =>
    obtain ⟨u, hu, hrest⟩ := M.run_cons_some hrun
    have hrec := ih (hstep s a u hs hu) hrest
    cases hA : A a with
    | true =>
      have hlt := hcounted s a u hs hu hA
      rw [List.countP_cons_of_pos hA]
      omega
    | false =>
      have hle := hother s a u hs hu hA
      rw [List.countP_cons_of_neg (by simp [hA])]
      omega

/-- The number of steps of a run that `C` counts, by the state before the step and its action. -/
def counted (M : Machine σ α) (C : σ → α → Bool) : σ → List α → ℕ
  | _, [] => 0
  | s, a :: tr => (C s a).toNat + (M.step s a).elim 0 fun t => counted M C t tr

/-- The termination rule for a count that depends on the state. -/
theorem counted_le {C : σ → α → Bool} (P : σ → Prop) (rank : σ → ℕ)
    (hstep : ∀ s a t, P s → M.step s a = some t → P t)
    (hrank : ∀ s a t, P s → M.step s a = some t → rank t + (C s a).toNat ≤ rank s)
    {tr : List α} {s t : σ} (hs : P s) (hrun : M.run s tr = some t) :
    M.counted C s tr + rank t ≤ rank s := by
  induction tr generalizing s with
  | nil =>
    cases hrun
    simp [counted]
  | cons a tr ih =>
    obtain ⟨u, hu, hrest⟩ := M.run_cons_some hrun
    have hrec := ih (hstep s a u hs hu) hrest
    have hle := hrank s a u hs hu
    rw [counted, hu, Option.elim_some]
    omega

/-- The progress rule: where every state short of the goal has a step that lowers the rank,
the goal can be reached. -/
theorem reaches_of_rank {P Goal : σ → Prop} (rank : σ → ℕ)
    (hstep : ∀ s, P s → ¬ Goal s → ∃ a t, M.step s a = some t ∧ P t ∧ rank t < rank s) {s : σ}
    (hs : P s) : ∃ tr t, M.run s tr = some t ∧ Goal t := by
  induction hr : rank s using Nat.strongRecOn generalizing s with
  | ind r ih =>
    by_cases hgoal : Goal s
    · exact ⟨[], s, rfl, hgoal⟩
    · obtain ⟨a, u, hu, hP, hlt⟩ := hstep s hs hgoal
      obtain ⟨tr, t, hrun, ht⟩ := ih (rank u) (hr ▸ hlt) hP rfl
      exact ⟨a :: tr, t, run_trans (run_single hu) hrun, ht⟩

/-- Every step of the run meets a condition on the state before it and its action. -/
def Along (M : Machine σ α) (C : σ → α → Prop) : σ → List α → Prop
  | _, [] => True
  | s, a :: tr => C s a ∧ ∀ t, M.step s a = some t → Along M C t tr

theorem along_append {C : σ → α → Prop} {s t : σ} {tr₁ : List α} (h : M.run s tr₁ = some t)
    (tr₂ : List α) : M.Along C s (tr₁ ++ tr₂) ↔ M.Along C s tr₁ ∧ M.Along C t tr₂ := by
  induction tr₁ generalizing s with
  | nil =>
    cases h
    exact ⟨fun h => ⟨trivial, h⟩, fun h => h.2⟩
  | cons a tr ih =>
    obtain ⟨u, hu, hrun⟩ := M.run_cons_some h
    constructor
    · rintro ⟨hC, hrest⟩
      obtain ⟨h₁, h₂⟩ := (ih hrun).mp (hrest u hu)
      refine ⟨⟨hC, fun v hv => ?_⟩, h₂⟩
      cases hu.symm.trans hv
      exact h₁
    · rintro ⟨⟨hC, h₁⟩, h₂⟩
      refine ⟨hC, fun v hv => ?_⟩
      cases hu.symm.trans hv
      exact (ih hrun).mpr ⟨h₁ u hu, h₂⟩

/-- A condition on the actions alone holds along a run when every action meets it. -/
theorem along_actions {A : α → Prop} {s t : σ} {tr : List α} (h : M.run s tr = some t) :
    M.Along (fun _ a => A a) s tr ↔ ∀ a ∈ tr, A a := by
  induction tr generalizing s with
  | nil => simp [Along]
  | cons a tr ih =>
    obtain ⟨u, hu, hrest⟩ := M.run_cons_some h
    rw [List.forall_mem_cons, ← ih hrest]
    constructor
    · exact fun h => ⟨h.1, h.2 u hu⟩
    · rintro ⟨hA, hrest⟩
      refine ⟨hA, fun v hv => ?_⟩
      cases hu.symm.trans hv
      exact hrest

/-- Two assertions split the runs: `G` lasts while the steps meet `C`, the first step that
does not ends in `B`, and `B` lasts. -/
theorem along_or {C : σ → α → Prop} (G B : σ → Prop)
    (hgood : ∀ s a t, C s a → G s → M.step s a = some t → G t)
    (hfail : ∀ s a t, ¬ C s a → G s → M.step s a = some t → B t)
    (hbad : ∀ s a t, B s → M.step s a = some t → B t) {tr : List α} {s t : σ} (hs : G s)
    (hrun : M.run s tr = some t) : M.Along C s tr ∧ G t ∨ ¬ M.Along C s tr ∧ B t := by
  induction tr generalizing s with
  | nil =>
    cases hrun
    exact .inl ⟨trivial, hs⟩
  | cons a tr ih =>
    obtain ⟨u, hu, hrest⟩ := M.run_cons_some hrun
    by_cases hC : C s a
    · rcases ih (hgood s a u hC hs hu) hrest with ⟨halong, ht⟩ | ⟨halong, ht⟩
      · refine .inl ⟨⟨hC, fun v hv => ?_⟩, ht⟩
        cases hu.symm.trans hv
        exact halong
      · exact .inr ⟨fun h => halong (h.2 u hu), ht⟩
    · refine .inr ⟨fun h => hC h.1, ?_⟩
      exact run_preserves B (fun _ => True) (fun v b w _ hv hw => hbad v b w hv hw)
        (fun _ _ => trivial) (hfail s a u hC hs hu) hrest

/-- What a run looks like from outside: `obs` lists what each step shows. -/
def observed {β : Type*} (M : Machine σ α) (obs : σ → α → List β) : σ → List α → List β
  | _, [] => []
  | s, a :: tr => obs s a ++ (M.step s a).elim [] fun t => observed M obs t tr

end Machine

/-- A step-by-step simulation of `M` by `N`, in which a step of `M` is the run of `N` that
`obs` shows. -/
structure Simulation {σ α τ β : Type*} (M : Machine σ α) (N : Machine τ β)
    (R : σ → τ → Prop) (A : α → Prop) (obs : σ → α → List β) : Prop where
  step : ∀ s a s' t, A a → R s t → M.step s a = some s' →
    ∃ t', N.run t (obs s a) = some t' ∧ R s' t'

namespace Simulation

variable {σ α τ β : Type*} {M : Machine σ α} {N : Machine τ β} {R : σ → τ → Prop}
  {A : α → Prop} {obs : σ → α → List β}

theorem run (S : Simulation M N R A obs) {tr : List α} (htr : ∀ a ∈ tr, A a) {s s' : σ} {t : τ}
    (hR : R s t) (hrun : M.run s tr = some s') :
    ∃ t', N.run t (M.observed obs s tr) = some t' ∧ R s' t' := by
  induction tr generalizing s t with
  | nil =>
    cases hrun
    exact ⟨t, rfl, hR⟩
  | cons a tr ih =>
    obtain ⟨u, hu, hrest⟩ := M.run_cons_some hrun
    obtain ⟨v, hv, hRv⟩ := S.step s a u t (htr a (by simp)) hR hu
    obtain ⟨w, hw, hRw⟩ := ih (fun b hb => htr b (by simp [hb])) hRv hrest
    refine ⟨w, ?_, hRw⟩
    rw [Machine.observed, hu]
    exact Machine.run_trans hv hw

/-- A condition that agrees step by step agrees along whole runs. -/
theorem along (S : Simulation M N R A obs) {C : σ → α → Prop} {D : τ → β → Prop}
    (hstep : ∀ s a s' t, A a → R s t → M.step s a = some s' →
      (C s a ↔ N.Along D t (obs s a))) {tr : List α} (htr : ∀ a ∈ tr, A a) {s s' : σ} {t : τ}
    (hR : R s t) (hrun : M.run s tr = some s') :
    M.Along C s tr ↔ N.Along D t (M.observed obs s tr) := by
  induction tr generalizing s t with
  | nil => exact Iff.rfl
  | cons a tr ih =>
    obtain ⟨u, hu, hrest⟩ := M.run_cons_some hrun
    have hA := htr a (by simp)
    obtain ⟨v, hv, hRv⟩ := S.step s a u t hA hR hu
    have hrec := ih (fun b hb => htr b (by simp [hb])) hRv hrest
    rw [Machine.observed, hu, Option.elim_some, Machine.along_append hv, ← hrec,
      ← hstep s a u t hA hR hu]
    constructor
    · exact fun h => ⟨h.1, h.2 u hu⟩
    · rintro ⟨hC, h⟩
      refine ⟨hC, fun w hw => ?_⟩
      cases hu.symm.trans hw
      exact h

end Simulation

end PcmTest.Theory
