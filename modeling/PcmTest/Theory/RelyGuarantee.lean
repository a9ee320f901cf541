import PcmTest.Theory.Program
import PcmTest.Theory.Threads

/-!
# Tasks that run programs over shared state

Every task runs a program of its own; a step is the next command of one task, and
its effect is a function of the answer. `rg` computes along the tree what a task
owes in every interleaving: each of its steps keeps the invariant and stays in the
guarantee, and its end is in the postcondition, as long as the steps of the others
keep the invariant and stay in the rely. `tasks_run` puts the tasks together: when
the guarantee of each is in the rely of the others, all keep their promise.
-/

namespace PcmTest.Theory

/-- What a command of a task does once its answer is known; `none` refuses the answer. -/
abbrev Effect (σ C : Type) (A : C → Type) := (c : C) → A c → σ → Option σ

namespace Prog

variable {ι σ C α β : Type} {A : C → Type}

/-- Each task runs its program. An action says what every command would be answered. -/
def tasks (effect : ι → Effect σ C A) : Threads ι σ (Prog C A α) ((c : C) → A c) Empty where
  thread i answers g p :=
    match p with
    | .pure _ => none
    | .op c next => (effect i c (answers c) g).map fun h => (h, next (answers c))
  env e _ := e.elim

/-- What a task owes under the invariant `I`, the rely `R` and the guarantee `G`. -/
def rg (effect : Effect σ C A) (I : σ → Prop) (R G : σ → σ → Prop) :
    Prog C A α → (α → σ → Prop) → σ → Prop
  | .pure a, Q, g => ∀ g', R g g' → I g' → Q a g'
  | .op c next, Q, g => ∀ g', R g g' → I g' → ∀ x h, effect c x g' = some h →
      (I h ∧ G g' h) ∧ (next x).rg effect I R G Q h

section Rules

variable {effect : Effect σ C A} {I : σ → Prop} {R G : σ → σ → Prop} {Q P : α → σ → Prop} {g : σ}

theorem rg_stable (htrans : ∀ g₁ g₂ g₃, R g₁ g₂ → R g₂ g₃ → R g₁ g₃) {p : Prog C A α} {g' : σ}
    (hR : R g g') (h : p.rg effect I R G Q g) : p.rg effect I R G Q g' := by
  cases p with
  | pure a => exact fun k hk => h k (htrans _ _ _ hR hk)
  | op c next => exact fun k hk => h k (htrans _ _ _ hR hk)

/-- The other tasks may always have moved before the program starts. -/
theorem rg_later (hrefl : ∀ g, R g g) {p : Prog C A α}
    (h : ∀ g', R g g' → I g' → p.rg effect I R G Q g') : p.rg effect I R G Q g := by
  cases p with
  | pure a => exact fun g' hR hI => h g' hR hI g' (hrefl g') hI
  | op c next => exact fun g' hR hI => h g' hR hI g' (hrefl g') hI

theorem rg_bind {p : Prog C A α} {f : α → Prog C A β} {Q : β → σ → Prop} (hrefl : ∀ g, R g g)
    (h : p.rg effect I R G (fun a g => (f a).rg effect I R G Q g) g) :
    (p.bind f).rg effect I R G Q g := by
  induction p generalizing g with
  | pure a => exact rg_later hrefl h
  | op c next ih =>
    intro g' hR hI x k hx
    obtain ⟨hk, hrest⟩ := h g' hR hI x k hx
    exact ⟨hk, ih x hrest⟩

theorem rg_mono {p : Prog C A α} (hQ : ∀ a g, I g → Q a g → P a g)
    (h : p.rg effect I R G Q g) : p.rg effect I R G P g := by
  induction p generalizing g with
  | pure a => exact fun g' hR hI => hQ a g' hI (h g' hR hI)
  | op c next ih =>
    intro g' hR hI x k hx
    obtain ⟨hk, hrest⟩ := h g' hR hI x k hx
    exact ⟨hk, ih x hrest⟩

/-- The frame rule: every command of the program keeps a stable assertion. -/
theorem rg_frame {U : C → Prop} {J : σ → Prop} (hstable : ∀ g g', R g g' → J g → J g')
    (hstep : ∀ c x g h, U c → I g → J g → effect c x g = some h → (I h ∧ G g h) ∧ J h)
    {p : Prog C A α} (hp : p.Uses U) (hJ : J g) : p.rg effect I R G (fun _ => J) g := by
  induction p generalizing g with
  | pure a => exact fun g' hR _ => hstable g g' hR hJ
  | op c next ih =>
    intro g' hR hI x k hx
    obtain ⟨hk, hJ⟩ := hstep c x g' k hp.1 hI (hstable g g' hR hJ) hx
    exact ⟨hk, ih x (hp.2 x) hJ⟩

/-- The loop rule, with the rounds done so far in the invariant of the loop. -/
theorem rg_forEach {κ : Type} {body : κ → Prog C A α} (hrefl : ∀ g, R g g)
    (J : List κ → σ → Prop) (hstable : ∀ is g g', R g g' → J is g → J is g') {is : List κ}
    (hbody : ∀ past i g, i ∈ is → J past g →
      (body i).rg effect I R G (fun _ => J (past ++ [i])) g)
    (h : J [] g) : (forEach body is).rg effect I R G (fun _ => J is) g := by
  have hloop : ∀ rest, (∀ i ∈ rest, i ∈ is) → ∀ past g, J past g →
      (forEach body rest).rg effect I R G (fun _ => J (past ++ rest)) g := by
    intro rest hrest
    induction rest with
    | nil =>
      intro past g h g' hR _
      rw [List.append_nil]
      exact hstable past g g' hR h
    | cons i rest ih =>
      intro past g h
      obtain ⟨hi, hrest⟩ := List.forall_mem_cons.mp hrest
      refine rg_bind hrefl (rg_mono (fun a g _ h => ?_) (hbody past i g hi h))
      refine rg_bind hrefl (rg_mono (fun as g _ h => ?_) (ih hrest (past ++ [i]) g h))
      intro g' hR _
      rw [List.append_assoc] at h
      exact hstable _ g g' hR h
  exact hloop is (fun _ hi => hi) [] g h

end Rules

section Parallel

variable {effect : ι → Effect σ C A} {I : σ → Prop} {R G : ι → σ → σ → Prop}
  {Q : ι → α → σ → Prop}

/-- Parallel composition. -/
theorem tasks_outline (hrefl : ∀ i g, R i g g)
    (htrans : ∀ i g₁ g₂ g₃, R i g₁ g₂ → R i g₂ g₃ → R i g₁ g₃)
    (hcompat : ∀ i j g g', i ≠ j → G i g g' → R j g g') :
    (tasks effect).Inductive (fun _ _ => True) I
      (fun i g p => p.rg (effect i) I (R i) (G i) (Q i) g) := by
  have hstep : ∀ {i answers g p g' p'}, I g → p.rg (effect i) I (R i) (G i) (Q i) g →
      (tasks effect).thread i answers g p = some (g', p') →
      (I g' ∧ G i g g') ∧ p'.rg (effect i) I (R i) (G i) (Q i) g' := by
    intro i answers g p g' p' hI h ht
    cases p with
    | pure a => cases ht
    | op c next =>
      obtain ⟨k, hx, heq⟩ := Option.map_eq_some_iff.mp ht
      cases heq
      exact h g (hrefl i g) hI (answers c) _ hx
  constructor
  · intro i answers g p g' p' _ hI h ht
    obtain ⟨⟨hI', -⟩, hrest⟩ := hstep hI h ht
    exact ⟨hI', hrest⟩
  · intro i j answers g p g' p' q _ hij hI h hj ht
    exact rg_stable (htrans j) (hcompat i j g g' hij (hstep hI h ht).1.2) hj
  · intro e
    exact e.elim

/-- Every interleaving keeps the invariant, and a task that has finished has kept its promise. -/
theorem tasks_run [DecidableEq ι] (hrefl : ∀ i g, R i g g)
    (htrans : ∀ i g₁ g₂ g₃, R i g₁ g₂ → R i g₂ g₃ → R i g₁ g₃)
    (hcompat : ∀ i j g g', i ≠ j → G i g g' → R j g g') {s t : Threads.State ι σ (Prog C A α)}
    {tr : List (Threads.Action ι ((c : C) → A c) Empty)} (hI : I s.shared)
    (hstart : ∀ i, (s.locals i).rg (effect i) I (R i) (G i) (Q i) s.shared)
    (hrun : (tasks effect).machine.run s tr = some t) :
    I t.shared ∧ ∀ i a, t.locals i = .pure a → Q i a t.shared := by
  have hholds := (tasks_outline hrefl htrans hcompat).run (Threads.allowed_true tr) hrun
    ⟨hI, hstart⟩
  refine ⟨hholds.1, fun i a hi => ?_⟩
  have h := hholds.2 i
  rw [hi] at h
  exact h t.shared (hrefl i t.shared) hholds.1

end Parallel

section Sequential

/-- What a program owes that runs alone. -/
abbrev seq (effect : Effect σ C A) (p : Prog C A α) (Q : α → σ → Prop) : σ → Prop :=
  p.rg effect (fun _ => True) Eq (fun _ _ => True) Q

variable {effect : Effect σ C A} {g : σ}

theorem seq_pure {a : α} {Q : α → σ → Prop} (h : Q a g) :
    seq effect (Prog.pure a : Prog C A α) Q g := by
  rintro _ rfl _
  exact h

theorem seq_call {c : C} {f : A c → Prog C A β} {Q : β → σ → Prop}
    (h : ∀ x k, effect c x g = some k → seq effect (f x) Q k) :
    seq effect ((call c).bind f) Q g := by
  rintro _ rfl _ x k hx
  exact ⟨⟨trivial, trivial⟩, h x k hx⟩

theorem seq_bind {p : Prog C A α} {f : α → Prog C A β} {P : α → σ → Prop} {Q : β → σ → Prop}
    (hp : seq effect p P g) (hf : ∀ a k, P a k → seq effect (f a) Q k) :
    seq effect (p.bind f) Q g :=
  rg_bind (fun _ => rfl) (rg_mono (fun a k _ h => hf a k h) hp)

theorem seq_frame {U : C → Prop} {J : σ → Prop}
    (hstep : ∀ c x g h, U c → J g → effect c x g = some h → J h) {p : Prog C A α} (hp : p.Uses U)
    (hJ : J g) : seq effect p (fun _ => J) g :=
  rg_frame (fun _ _ h => h ▸ id)
    (fun c x g h hc _ hJ hx => ⟨⟨trivial, trivial⟩, hstep c x g h hc hJ hx⟩) hp hJ

theorem seq_forEach {κ : Type} {body : κ → Prog C A α} (J : List κ → σ → Prop) {is : List κ}
    (hbody : ∀ past i g, J past g → seq effect (body i) (fun _ => J (past ++ [i])) g)
    (h : J [] g) : seq effect (forEach body is) (fun _ => J is) g :=
  rg_forEach (fun _ => rfl) J (fun _ _ _ h => h ▸ id) (fun past i g _ hJ => hbody past i g hJ) h

/-- Commands may be replaced by programs that keep what the commands promise. -/
theorem seq_expand {C' : Type} {A' : C' → Type} {effect' : Effect σ C' A'}
    (h : (c : C) → Prog C' A' (A c))
    (hcmd : ∀ c g (Q : A c → σ → Prop), (∀ x k, effect c x g = some k → Q x k) →
      seq effect' (h c) Q g)
    {p : Prog C A α} {Q : α → σ → Prop} (hp : seq effect p Q g) :
    seq effect' (p.expand h) Q g := by
  induction p generalizing g with
  | pure a => exact hp
  | op c next ih =>
    refine rg_bind (fun _ => rfl) (hcmd c g _ fun x k hx => ?_)
    exact ih x (hp g rfl trivial x k hx).2

theorem seq_run {p : Prog C A α} {Q : α → σ → Prop} (hp : seq effect p Q g)
    {t : Threads.State Unit σ (Prog C A α)}
    {tr : List (Threads.Action Unit ((c : C) → A c) Empty)}
    (hrun : (tasks fun _ => effect).machine.run ⟨g, fun _ => p⟩ tr = some t) {a : α}
    (ha : t.locals () = .pure a) : Q a t.shared :=
  (tasks_run (R := fun _ => Eq) (G := fun _ _ _ => True) (Q := fun _ => Q) (fun _ _ => rfl)
    (fun _ _ _ _ => Eq.trans) (fun _ _ _ _ hij => absurd rfl hij) trivial (fun _ => hp) hrun).2 () a
    ha

end Sequential

end Prog

end PcmTest.Theory
