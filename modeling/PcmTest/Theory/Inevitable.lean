import PcmTest.Theory.Machine
import PcmTest.Theory.Program

/-!
# What every run comes to

`Inevitable Q s` says that each run from `s`, continued for as long as a step is
enabled, passes a state in `Q`: no order of the steps ends it earlier and none
goes on for ever without one. `Ensures` is the same for a program that is one part
of the machine, so that programs can be composed in sequence.
-/

namespace PcmTest.Theory

namespace Machine

variable {σ α : Type*} {M : Machine σ α} {Q R : σ → Prop} {s t : σ} {tr : List α}

/-- Every run from `s` passes a state in `Q` if it is continued as long as it can be. -/
inductive Inevitable (M : Machine σ α) (Q : σ → Prop) : σ → Prop
  | now {s : σ} (h : Q s) : Inevitable M Q s
  | next {s : σ} (henabled : ∃ a t, M.step s a = some t)
      (h : ∀ a t, M.step s a = some t → Inevitable M Q t) : Inevitable M Q s

theorem Inevitable.bind (h : M.Inevitable Q s) (hQ : ∀ t, Q t → M.Inevitable R t) :
    M.Inevitable R s := by
  induction h with
  | now h => exact hQ _ h
  | next henabled _ ih => exact .next henabled ih

theorem Inevitable.mono (h : M.Inevitable Q s) (hQ : ∀ t, Q t → R t) : M.Inevitable R s :=
  h.bind fun t ht => .now (hQ t ht)

/-- Some run gets there. -/
theorem Inevitable.reached (h : M.Inevitable Q s) : ∃ tr t, M.run s tr = some t ∧ Q t := by
  induction h with
  | now h => exact ⟨[], _, rfl, h⟩
  | next henabled _ ih =>
    obtain ⟨a, t, ht⟩ := henabled
    obtain ⟨tr, u, hrun, hu⟩ := ih a t ht
    exact ⟨a :: tr, u, run_trans (run_single ht) hrun, hu⟩

/-- A run that is over has been there. -/
theorem Inevitable.passed (h : M.Inevitable Q s) (hrun : M.run s tr = some t)
    (hstuck : ∀ a, M.step t a = none) :
    ∃ tr₁ tr₂ u, tr = tr₁ ++ tr₂ ∧ M.run s tr₁ = some u ∧ Q u ∧ M.run u tr₂ = some t := by
  induction h generalizing tr with
  | now h => exact ⟨[], tr, _, rfl, rfl, h, hrun⟩
  | next henabled _ ih =>
    cases tr with
    | nil =>
      cases hrun
      obtain ⟨a, u, hu⟩ := henabled
      exact absurd hu (by simp [hstuck])
    | cons a tr =>
      obtain ⟨u, hu, hrest⟩ := M.run_cons_some hrun
      obtain ⟨tr₁, tr₂, v, rfl, hv, hQ, hend⟩ := ih a u hu hrest
      exact ⟨a :: tr₁, tr₂, v, rfl, run_trans (run_single hu) hv, hQ, hend⟩

/-- If nothing can follow the states in `Q`, a run that is over ends in one. -/
theorem Inevitable.of_over (h : M.Inevitable Q s) (hQ : ∀ u, Q u → ∀ a, M.step u a = none)
    (hrun : M.run s tr = some t) (hstuck : ∀ a, M.step t a = none) : Q t := by
  obtain ⟨tr₁, tr₂, u, -, -, hu, hend⟩ := h.passed hrun hstuck
  cases tr₂ with
  | nil =>
    cases hend
    exact hu
  | cons a tr₂ =>
    obtain ⟨v, hv, -⟩ := M.run_cons_some hend
    exact absurd hv (by simp [hQ u hu])

end Machine

section Ensures

variable {S Act κ C ρ σ α β : Type} {A : C → Type}

/-- A program placed anywhere before a rest `k`, in surroundings `w`, always comes to its end, in
surroundings that meet `Q`. -/
def Prog.Ensures (M : Machine S Act) (place : κ → Prog C A ρ → σ → S) (p : Prog C A α) (w : σ)
    (Q : α → σ → Prop) : Prop :=
  ∀ (x : κ) (k : α → Prog C A ρ),
    M.Inevitable (fun s => ∃ a w', Q a w' ∧ s = place x (k a) w') (place x (p.bind k) w)

namespace Prog

variable {M : Machine S Act} {place : κ → Prog C A ρ → σ → S} {w : σ} {p : Prog C A α}
  {Q R : α → σ → Prop}

theorem ensures_pure {a : α} (h : Q a w) : (Prog.pure a : Prog C A α).Ensures M place w Q :=
  fun _ _ => .now ⟨a, w, h, rfl⟩

theorem ensures_bind {f : α → Prog C A β} {T : β → σ → Prop}
    (h : p.Ensures M place w fun a w' => (f a).Ensures M place w' T) :
    (p.bind f).Ensures M place w T := by
  intro x k
  rw [bind_assoc]
  refine (h x fun a => (f a).bind k).bind ?_
  rintro s ⟨a, w', hf, rfl⟩
  exact hf x k

theorem ensures_mono (hQ : ∀ a w', Q a w' → R a w') (h : p.Ensures M place w Q) :
    p.Ensures M place w R :=
  fun x k => (h x k).mono fun _ ⟨a, w', ha, hs⟩ => ⟨a, w', hQ a w' ha, hs⟩

theorem ensures_then {f : α → Prog C A β} {T : β → σ → Prop} (h : p.Ensures M place w Q)
    (hf : ∀ a w', Q a w' → (f a).Ensures M place w' T) : (p.bind f).Ensures M place w T :=
  ensures_bind (ensures_mono hf h)

/-- The end of a program that is the last one. -/
theorem Ensures.ends {p : Prog C A ρ} {Q : ρ → σ → Prop} (h : p.Ensures M place w Q) (x : κ) :
    M.Inevitable (fun s => ∃ a w', Q a w' ∧ s = place x (.pure a) w') (place x p w) := by
  have hend := h x .pure
  rwa [bind_pure] at hend

end Prog

end Ensures

end PcmTest.Theory
