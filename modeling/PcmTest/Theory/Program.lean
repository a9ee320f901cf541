import Mathlib.Data.List.Basic
import Mathlib.Tactic.Common

/-!
# Programs over the commands of a device

Straight code that talks to its surroundings is a tree of commands: `A c` is the
type of the answers to the command `c`. The tree is read in two ways. `Runs`
lists the commands and answers of an execution and leaves the answers open, for
statements about every surrounding. `exec` threads a state through a device that
computes the answers, and `execAt` lets an interrupt change that state between
two commands.
-/

namespace PcmTest.Theory

/-- A program that issues commands of `C` and returns an `α`. -/
inductive Prog (C : Type) (A : C → Type) (α : Type) where
  | pure (a : α) : Prog C A α
  | op (c : C) (next : A c → Prog C A α) : Prog C A α

namespace Prog

variable {C C' : Type} {A : C → Type} {A' : C' → Type} {α β γ σ : Type}

def bind : Prog C A α → (α → Prog C A β) → Prog C A β
  | .pure a, f => f a
  | .op c next, f => .op c fun x => (next x).bind f

instance : Monad (Prog C A) where
  pure := .pure
  bind := .bind

/-- The program has nothing left to issue. -/
def done : Prog C A α → Bool
  | .pure _ => true
  | .op _ _ => false

theorem eq_pure_of_done {p : Prog C A α} (h : p.done = true) : ∃ a, p = .pure a := by
  cases p with
  | pure a => exact ⟨a, rfl⟩
  | op c next => cases h

/-- Issue one command and return its answer. -/
def call (c : C) : Prog C A (A c) := .op c .pure

/-- Run `body` on every element of a list, in order, and list what it returns. -/
def forEach {ι : Type} (body : ι → Prog C A α) : List ι → Prog C A (List α)
  | [] => .pure []
  | i :: is => (body i).bind fun a => (forEach body is).bind fun as => .pure (a :: as)

/-- Two loops over the same rounds. -/
theorem forEach_map_congr {ι κ : Type} {body : κ → Prog C A α} {body' : ι → Prog C A α}
    {f : ι → κ} {is : List ι} (h : ∀ i ∈ is, body (f i) = body' i) :
    forEach body (is.map f) = forEach body' is := by
  induction is with
  | nil => rfl
  | cons i is ih =>
    rw [List.map_cons, forEach, forEach, h i (by simp), ih fun j hj => h j (by simp [hj])]

@[simp] theorem pure_eq (a : α) : (Pure.pure a : Prog C A α) = .pure a := rfl

@[simp] theorem bind_eq (p : Prog C A α) (f : α → Prog C A β) : p >>= f = p.bind f := rfl

@[simp] theorem pure_bind (a : α) (f : α → Prog C A β) : (Prog.pure a).bind f = f a := rfl

@[simp] theorem op_bind (c : C) (next : A c → Prog C A α) (f : α → Prog C A β) :
    (Prog.op c next).bind f = .op c fun x => (next x).bind f := rfl

@[simp] theorem call_bind (c : C) (f : A c → Prog C A β) : (call c).bind f = .op c f := rfl

theorem bind_assoc (p : Prog C A α) (f : α → Prog C A β) (g : β → Prog C A γ) :
    (p.bind f).bind g = p.bind fun a => (f a).bind g := by
  induction p with
  | pure a => rfl
  | op c next ih => simp only [op_bind, ih]

@[simp] theorem bind_pure (p : Prog C A α) : p.bind .pure = p := by
  induction p with
  | pure a => rfl
  | op c next ih => simp only [op_bind, ih]

/-- A command of an execution, with the answer it got. -/
abbrev Event (C : Type) (A : C → Type) := Σ c : C, A c

/-- `p.Runs tr a`: the program can issue exactly the commands of `tr`, get the answers there,
and return `a`. -/
inductive Runs : Prog C A α → List (Event C A) → α → Prop
  | pure (a : α) : Runs (.pure a) [] a
  | op {c : C} {next : A c → Prog C A α} (x : A c) {tr : List (Event C A)} {a : α} :
      Runs (next x) tr a → Runs (.op c next) (⟨c, x⟩ :: tr) a

@[simp] theorem runs_pure {a b : α} {tr : List (Event C A)} :
    (Prog.pure a : Prog C A α).Runs tr b ↔ tr = [] ∧ b = a := by
  constructor
  · intro h
    cases h
    exact ⟨rfl, rfl⟩
  · rintro ⟨rfl, rfl⟩
    exact .pure b

theorem runs_op {c : C} {next : A c → Prog C A α} {tr : List (Event C A)} {a : α} :
    (Prog.op c next).Runs tr a ↔ ∃ x tr', tr = ⟨c, x⟩ :: tr' ∧ (next x).Runs tr' a := by
  constructor
  · intro h
    cases h with
    | op x h => exact ⟨x, _, rfl, h⟩
  · rintro ⟨x, tr', rfl, h⟩
    exact .op x h

theorem runs_call_bind {c : C} {f : A c → Prog C A β} {tr : List (Event C A)} {b : β} :
    ((call c).bind f).Runs tr b ↔ ∃ x tr', tr = ⟨c, x⟩ :: tr' ∧ (f x).Runs tr' b := runs_op

theorem runs_call {c : C} {tr : List (Event C A)} {x : A c} (h : (call c).Runs tr x) :
    tr = [⟨c, x⟩] := by
  obtain ⟨y, tr', rfl, hy⟩ := runs_op.mp h
  obtain ⟨rfl, rfl⟩ := runs_pure.mp hy
  rfl

theorem runs_bind {p : Prog C A α} {f : α → Prog C A β} {tr : List (Event C A)} {b : β} :
    (p.bind f).Runs tr b ↔ ∃ tr₁ a tr₂, tr = tr₁ ++ tr₂ ∧ p.Runs tr₁ a ∧ (f a).Runs tr₂ b := by
  induction p generalizing tr with
  | pure a =>
    constructor
    · intro h
      exact ⟨[], a, tr, rfl, .pure a, h⟩
    · rintro ⟨tr₁, a', tr₂, rfl, h₁, h₂⟩
      obtain ⟨rfl, rfl⟩ := runs_pure.mp h₁
      exact h₂
  | op c next ih =>
    rw [op_bind, runs_op]
    constructor
    · rintro ⟨x, tr', rfl, h⟩
      obtain ⟨tr₁, a, tr₂, rfl, h₁, h₂⟩ := (ih x).mp h
      exact ⟨⟨c, x⟩ :: tr₁, a, tr₂, rfl, .op x h₁, h₂⟩
    · rintro ⟨tr₁, a, tr₂, rfl, h₁, h₂⟩
      obtain ⟨x, tr', rfl, h⟩ := runs_op.mp h₁
      exact ⟨x, tr' ++ tr₂, rfl, (ih x).mpr ⟨tr', a, tr₂, rfl, h, h₂⟩⟩

/-- Some execution exists, since every command has an answer. -/
theorem exists_runs [∀ c, Inhabited (A c)] (p : Prog C A α) : ∃ tr a, p.Runs tr a := by
  induction p with
  | pure a => exact ⟨[], a, .pure a⟩
  | op c next ih =>
    obtain ⟨tr, a, h⟩ := ih default
    exact ⟨⟨c, default⟩ :: tr, a, .op default h⟩

/-- One element of a loop: the item, the commands of its round, and what the round returned. -/
structure Round (ι : Type) (C : Type) (A : C → Type) (α : Type) where
  item : ι
  trace : List (Event C A)
  result : α

/-- An execution of a loop is cut into the executions of its rounds. -/
theorem runs_forEach {ι : Type} {body : ι → Prog C A α} {is : List ι} {tr : List (Event C A)}
    {as : List α} (h : (forEach body is).Runs tr as) :
    ∃ rounds : List (Round ι C A α), rounds.map Round.item = is ∧
      rounds.map Round.result = as ∧ rounds.flatMap Round.trace = tr ∧
      ∀ x ∈ rounds, (body x.item).Runs x.trace x.result := by
  induction is generalizing tr as with
  | nil =>
    obtain ⟨rfl, rfl⟩ := runs_pure.mp h
    exact ⟨[], rfl, rfl, rfl, by simp⟩
  | cons i is ih =>
    obtain ⟨tr₁, a, tr₂, rfl, hbody, hrest⟩ := runs_bind.mp h
    obtain ⟨tr₃, as', tr₄, rfl, hloop, hlast⟩ := runs_bind.mp hrest
    obtain ⟨rfl, rfl⟩ := runs_pure.mp hlast
    obtain ⟨rounds, rfl, rfl, rfl, hrounds⟩ := ih hloop
    refine ⟨⟨i, tr₁, a⟩ :: rounds, rfl, rfl, by simp, ?_⟩
    intro x hx
    rcases List.mem_cons.mp hx with rfl | hx
    · exact hbody
    · exact hrounds x hx

/-- Executions of the rounds make one of the loop. -/
theorem forEach_runs {ι : Type} {body : ι → Prog C A α} {rounds : List (Round ι C A α)}
    (h : ∀ x ∈ rounds, (body x.item).Runs x.trace x.result) :
    (forEach body (rounds.map Round.item)).Runs (rounds.flatMap Round.trace)
      (rounds.map Round.result) := by
  induction rounds with
  | nil => exact .pure []
  | cons x rounds ih =>
    obtain ⟨hx, hrest⟩ := List.forall_mem_cons.mp h
    refine runs_bind.mpr ⟨x.trace, x.result, _, rfl, hx, ?_⟩
    exact runs_bind.mpr ⟨_, _, [], (List.append_nil _).symm, ih hrest, .pure _⟩

section Uses

/-- Every command that the program can issue satisfies `P`. -/
def Uses (P : C → Prop) : Prog C A α → Prop
  | .pure _ => True
  | .op c next => P c ∧ ∀ x, (next x).Uses P

variable {P Q : C → Prop}

@[simp] theorem uses_pure (a : α) : (Prog.pure a : Prog C A α).Uses P := trivial

@[simp] theorem uses_op {c : C} {next : A c → Prog C A α} :
    (Prog.op c next).Uses P ↔ P c ∧ ∀ x, (next x).Uses P := Iff.rfl

@[simp] theorem uses_call {c : C} : (call c : Prog C A (A c)).Uses P ↔ P c :=
  ⟨fun h => h.1, fun h => ⟨h, fun _ => trivial⟩⟩

theorem uses_bind {p : Prog C A α} {f : α → Prog C A β} (hp : p.Uses P)
    (hf : ∀ a, (f a).Uses P) : (p.bind f).Uses P := by
  induction p with
  | pure a => exact hf a
  | op c next ih => exact ⟨hp.1, fun x => ih x (hp.2 x)⟩

theorem uses_forEach {ι : Type} {body : ι → Prog C A α} {is : List ι}
    (h : ∀ i ∈ is, (body i).Uses P) : (forEach body is).Uses P := by
  induction is with
  | nil => trivial
  | cons i is ih =>
    obtain ⟨hi, hrest⟩ := List.forall_mem_cons.mp h
    exact uses_bind hi fun _ => uses_bind (ih hrest) fun _ => trivial

theorem uses_of_forall (hP : ∀ c, P c) (p : Prog C A α) : p.Uses P := by
  induction p with
  | pure a => trivial
  | op c next ih => exact ⟨hP c, ih⟩

theorem uses_mono (hPQ : ∀ c, P c → Q c) {p : Prog C A α} (hp : p.Uses P) : p.Uses Q := by
  induction p with
  | pure a => trivial
  | op c next ih => exact ⟨hPQ c hp.1, fun x => ih x (hp.2 x)⟩

/-- The commands of an execution are commands of the program. -/
theorem Uses.of_runs {p : Prog C A α} (hp : p.Uses P) {tr : List (Event C A)} {a : α}
    (h : p.Runs tr a) : ∀ e ∈ tr, P e.1 := by
  induction h with
  | pure a => simp
  | op x h ih =>
    intro e he
    rcases List.mem_cons.mp he with rfl | he
    · exact hp.1
    · exact ih (hp.2 x) e he

end Uses

section Picks

variable {ι : Type} {f : Event C A → Option ι} {l l' : List ι}

/-- Of every execution, `f` picks these events. -/
def Picks (f : Event C A → Option ι) (l : List ι) (p : Prog C A α) : Prop :=
  ∀ tr a, p.Runs tr a → tr.filterMap f = l

theorem picks_pure (a : α) : (Prog.pure a : Prog C A α).Picks f [] := by
  intro tr b h
  obtain ⟨rfl, -⟩ := runs_pure.mp h
  rfl

theorem picks_bind {p : Prog C A α} {q : α → Prog C A β} (hp : p.Picks f l)
    (hq : ∀ a, (q a).Picks f l') : (p.bind q).Picks f (l ++ l') := by
  intro tr b h
  obtain ⟨tr₁, a, tr₂, rfl, h₁, h₂⟩ := runs_bind.mp h
  rw [List.filterMap_append, hp tr₁ a h₁, hq a tr₂ b h₂]

theorem picks_of_uses {p : Prog C A α} (hp : p.Uses fun c => ∀ x, f ⟨c, x⟩ = none) :
    p.Picks f [] := by
  intro tr a h
  rw [List.filterMap_eq_nil_iff]
  exact fun e he => hp.of_runs h e he e.2

theorem picks_call {c : C} {i : ι} (hc : ∀ x, f ⟨c, x⟩ = some i) :
    (call c : Prog C A (A c)).Picks f [i] := by
  intro tr x h
  obtain rfl := runs_call h
  simp [hc]

theorem picks_forEach {κ : Type} {body : κ → Prog C A α} {is : List κ} {g : κ → List ι}
    (h : ∀ i ∈ is, (body i).Picks f (g i)) : (forEach body is).Picks f (is.flatMap g) := by
  induction is with
  | nil => exact picks_pure []
  | cons i is ih =>
    have hrest : ∀ a, ((forEach body is).bind fun as => Prog.pure (a :: as)).Picks f
        (is.flatMap g ++ []) :=
      fun a => picks_bind (ih fun j hj => h j (by simp [hj])) fun as => picks_pure (a :: as)
    simp only [List.append_nil] at hrest
    exact picks_bind (h i (by simp)) hrest

end Picks

section Retry

/-- Attempts until one is `ok`, with at most `left` more after the first. -/
def retry (attempt : Prog C A α) (ok : α → Bool) : ℕ → Prog C A α
  | 0 => attempt
  | left + 1 => attempt.bind fun a => if ok a then .pure a else retry attempt ok left

variable {attempt : Prog C A α} {ok : α → Bool}

/-- The executions of a retry loop: failed attempts, and one that is `ok` or the last. -/
theorem runs_retry {left : ℕ} {tr : List (Event C A)} {a : α} :
    (retry attempt ok left).Runs tr a ↔
      ∃ (failed : List (List (Event C A) × α)) (last : List (Event C A)),
        (∀ x ∈ failed, attempt.Runs x.1 x.2 ∧ ok x.2 = false) ∧ attempt.Runs last a ∧
        (failed.length < left ∧ ok a = true ∨ failed.length = left) ∧
        tr = failed.flatMap Prod.fst ++ last := by
  induction left generalizing tr with
  | zero =>
    constructor
    · exact fun h => ⟨[], tr, by simp, h, .inr rfl, rfl⟩
    · rintro ⟨failed, last, -, hlast, ⟨hlt, -⟩ | hlen, rfl⟩
      · exact absurd hlt (Nat.not_lt_zero _)
      · rw [List.eq_nil_of_length_eq_zero hlen]
        exact hlast
  | succ left ih =>
    rw [retry, runs_bind]
    constructor
    · rintro ⟨tr₁, b, tr₂, rfl, h₁, h₂⟩
      split_ifs at h₂ with hok
      · obtain ⟨rfl, rfl⟩ := runs_pure.mp h₂
        exact ⟨[], tr₁, by simp, h₁, .inl ⟨Nat.succ_pos _, hok⟩, by simp⟩
      · obtain ⟨failed, last, hfailed, hlast, hstop, rfl⟩ := ih.mp h₂
        refine ⟨(tr₁, b) :: failed, last, ?_, hlast, ?_, by simp⟩
        · exact List.forall_mem_cons.mpr ⟨⟨h₁, by simpa using hok⟩, hfailed⟩
        · exact hstop.imp (fun h => ⟨Nat.succ_lt_succ h.1, h.2⟩) (congrArg Nat.succ)
    · rintro ⟨failed, last, hfailed, hlast, hstop, rfl⟩
      cases failed with
      | nil =>
        have hok : ok a = true := by simpa using hstop
        exact ⟨last, a, [], by simp, hlast, by rw [if_pos hok]; exact .pure a⟩
      | cons x failed =>
        obtain ⟨⟨hx, hno⟩, hrest⟩ := List.forall_mem_cons.mp hfailed
        refine ⟨x.1, x.2, failed.flatMap Prod.fst ++ last, by simp, hx, ?_⟩
        rw [if_neg (by simp [hno])]
        refine ih.mpr ⟨failed, last, hrest, hlast, ?_, rfl⟩
        exact hstop.imp (fun h => ⟨Nat.lt_of_succ_lt_succ h.1, h.2⟩) Nat.succ.inj

theorem uses_retry {P : C → Prop} (h : attempt.Uses P) (left : ℕ) :
    (retry attempt ok left).Uses P := by
  induction left with
  | zero => exact h
  | succ left ih =>
    refine uses_bind h fun a => ?_
    split_ifs
    · trivial
    · exact ih

end Retry

section UntilError

variable {ι ε : Type}

/-- Run `body` on the elements of a list up to the first one that fails. -/
def untilError (body : ι → Prog C A (Option ε)) : List ι → Prog C A (Option (ι × ε))
  | [] => .pure none
  | i :: is => (body i).bind fun
    | none => untilError body is
    | some e => .pure (some (i, e))

/-- An execution passes some elements, and stops at the end of the list or at a failing one. -/
theorem runs_untilError {body : ι → Prog C A (Option ε)} {is : List ι} {tr : List (Event C A)}
    {r : Option (ι × ε)} (h : (untilError body is).Runs tr r) :
    ∃ passed : List (ι × List (Event C A)), (∀ x ∈ passed, (body x.1).Runs x.2 none) ∧
      ((r = none ∧ is = passed.map Prod.fst ∧ tr = passed.flatMap Prod.snd) ∨
        ∃ i e last rest, r = some (i, e) ∧ is = passed.map Prod.fst ++ i :: rest ∧
          (body i).Runs last (some e) ∧ tr = passed.flatMap Prod.snd ++ last) := by
  induction is generalizing tr with
  | nil =>
    obtain ⟨rfl, rfl⟩ := runs_pure.mp h
    exact ⟨[], by simp, .inl ⟨rfl, rfl, rfl⟩⟩
  | cons i is ih =>
    obtain ⟨tr₁, a, tr₂, rfl, hbody, hrest⟩ := runs_bind.mp h
    cases a with
    | some e =>
      obtain ⟨rfl, rfl⟩ := runs_pure.mp hrest
      exact ⟨[], by simp, .inr ⟨i, e, tr₁, is, rfl, rfl, hbody, by simp⟩⟩
    | none =>
      obtain ⟨passed, hpassed, hend⟩ := ih hrest
      refine ⟨(i, tr₁) :: passed, List.forall_mem_cons.mpr ⟨hbody, hpassed⟩, ?_⟩
      rcases hend with ⟨rfl, rfl, rfl⟩ | ⟨j, e, last, rest, rfl, rfl, hlast, rfl⟩
      · exact .inl ⟨rfl, rfl, rfl⟩
      · exact .inr ⟨j, e, last, rest, rfl, rfl, hlast, by simp⟩

theorem uses_untilError {P : C → Prop} {body : ι → Prog C A (Option ε)} {is : List ι}
    (h : ∀ i ∈ is, (body i).Uses P) : (untilError body is).Uses P := by
  induction is with
  | nil => trivial
  | cons i is ih =>
    obtain ⟨hi, hrest⟩ := List.forall_mem_cons.mp h
    refine uses_bind hi fun r => ?_
    cases r with
    | none => exact ih hrest
    | some e => trivial

end UntilError

section Expand

variable (h : (c : C) → Prog C' A' (A c))

/-- Replace every command by a program of another interface. -/
def expand : Prog C A α → Prog C' A' α
  | .pure a => .pure a
  | .op c next => (h c).bind fun x => (next x).expand

theorem expand_bind (p : Prog C A α) (f : α → Prog C A β) :
    (p.bind f).expand h = (p.expand h).bind fun a => (f a).expand h := by
  induction p with
  | pure a => rfl
  | op c next ih =>
    simp only [op_bind, expand, ih]
    exact (bind_assoc _ _ _).symm

theorem expand_forEach {ι : Type} (body : ι → Prog C A α) (is : List ι) :
    (forEach body is).expand h = forEach (fun i => (body i).expand h) is := by
  induction is with
  | nil => rfl
  | cons i is ih =>
    simp only [forEach, expand_bind, ih]
    rfl

theorem uses_expand {P : C → Prop} {Q : C' → Prop} {p : Prog C A α} (hp : p.Uses P)
    (hQ : ∀ c, P c → (h c).Uses Q) : (p.expand h).Uses Q := by
  induction p with
  | pure a => trivial
  | op c next ih => exact uses_bind (hQ c hp.1) fun x => ih x (hp.2 x)

/-- A property of all the programs that commands are replaced by. -/
theorem uses_expand_of_forall {Q : C' → Prop} (hQ : ∀ c, (h c).Uses Q) (p : Prog C A α) :
    (p.expand h).Uses Q := by
  induction p with
  | pure a => trivial
  | op c next ih => exact uses_bind (hQ c) ih

/-- The commands of an execution, each replaced by an execution of its program. -/
inductive Expands : List (Event C A) → List (Event C' A') → Prop
  | nil : Expands [] []
  | cons {c : C} {x : A c} {part : List (Event C' A')} {tr : List (Event C A)}
      {tr' : List (Event C' A')} :
      (h c).Runs part x → Expands tr tr' → Expands (⟨c, x⟩ :: tr) (part ++ tr')

variable {h}

theorem expands_nil {tr' : List (Event C' A')} (hexp : Expands h [] tr') : tr' = [] := by
  cases hexp
  rfl

theorem expands_cons {c : C} {x : A c} {tr : List (Event C A)} {tr' : List (Event C' A')}
    (hexp : Expands h (⟨c, x⟩ :: tr) tr') :
    ∃ part rest, tr' = part ++ rest ∧ (h c).Runs part x ∧ Expands h tr rest := by
  cases hexp with
  | cons hpart hrest => exact ⟨_, _, rfl, hpart, hrest⟩

theorem expands_append {tr₁ tr₂ : List (Event C A)} {tr' : List (Event C' A')}
    (hexp : Expands h (tr₁ ++ tr₂) tr') :
    ∃ tr₁' tr₂', tr' = tr₁' ++ tr₂' ∧ Expands h tr₁ tr₁' ∧ Expands h tr₂ tr₂' := by
  induction tr₁ generalizing tr' with
  | nil => exact ⟨[], tr', rfl, .nil, hexp⟩
  | cons e tr ih =>
    cases hexp with
    | @cons c x part _ rest hpart hrest =>
      obtain ⟨tr₁', tr₂', rfl, h₁, h₂⟩ := ih hrest
      exact ⟨part ++ tr₁', tr₂', (List.append_assoc _ _ _).symm, .cons hpart h₁, h₂⟩

/-- A handler that makes one call for each command only renames them. -/
theorem Expands.eq_map {f : Event C A → Event C' A'}
    (hf : ∀ c x part, (h c).Runs part x → part = [f ⟨c, x⟩]) {tr : List (Event C A)}
    {tr' : List (Event C' A')} (hexp : Expands h tr tr') : tr' = tr.map f := by
  induction hexp with
  | nil => rfl
  | @cons c x part tr tr' hpart hrest ih => rw [hf c x part hpart, ih, List.map_cons]; rfl

/-- The commands of the expansion are commands of the programs. -/
theorem Expands.uses {P : C' → Prop} {tr : List (Event C A)} {tr' : List (Event C' A')}
    (hexp : Expands h tr tr') (hP : ∀ e ∈ tr, (h e.1).Uses P) : ∀ e ∈ tr', P e.1 := by
  induction hexp with
  | nil => simp
  | @cons c x part tr tr' hpart hrest ih =>
    intro e he
    rcases List.mem_append.mp he with he | he
    · exact (hP ⟨c, x⟩ (by simp)).of_runs hpart e he
    · exact ih (fun e he => hP e (by simp [he])) e he

/-- An execution of the expanded program expands an execution of the program. -/
theorem runs_expand {p : Prog C A α} {tr' : List (Event C' A')} {a : α}
    (hrun : (p.expand h).Runs tr' a) : ∃ tr, p.Runs tr a ∧ Expands h tr tr' := by
  induction p generalizing tr' with
  | pure b =>
    obtain ⟨rfl, rfl⟩ := runs_pure.mp hrun
    exact ⟨[], .pure _, .nil⟩
  | op c next ih =>
    obtain ⟨part, x, rest, rfl, hpart, hrest⟩ := runs_bind.mp hrun
    obtain ⟨tr, htr, hexp⟩ := ih x hrest
    exact ⟨⟨c, x⟩ :: tr, .op x htr, .cons hpart hexp⟩

end Expand

section Exec

variable (device : (c : C) → σ → A c × σ)

/-- Run the program on a device that answers each command and moves to its next state. -/
def exec : Prog C A α → σ → α × σ
  | .pure a, s => (a, s)
  | .op c next, s => (next (device c s).1).exec (device c s).2

/-- Run the program, with `isr` changing the state after its first `k` commands. -/
def execAt (isr : σ → σ) : ℕ → Prog C A α → σ → α × σ
  | 0, p, s => p.exec device (isr s)
  | _ + 1, .pure a, s => (a, isr s)
  | k + 1, .op c next, s => execAt isr k (next (device c s).1) (device c s).2

@[simp] theorem exec_pure (a : α) (s : σ) : (Prog.pure a : Prog C A α).exec device s = (a, s) :=
  rfl

@[simp] theorem exec_op (c : C) (next : A c → Prog C A α) (s : σ) :
    (Prog.op c next).exec device s = (next (device c s).1).exec device (device c s).2 := rfl

@[simp] theorem execAt_zero (isr : σ → σ) (p : Prog C A α) (s : σ) :
    p.execAt device isr 0 s = p.exec device (isr s) := by
  cases p <;> rfl

@[simp] theorem execAt_pure (isr : σ → σ) (k : ℕ) (a : α) (s : σ) :
    (Prog.pure a : Prog C A α).execAt device isr k s = (a, isr s) := by
  cases k <;> rfl

@[simp] theorem execAt_op (isr : σ → σ) (k : ℕ) (c : C) (next : A c → Prog C A α) (s : σ) :
    (Prog.op c next).execAt device isr (k + 1) s =
      (next (device c s).1).execAt device isr k (device c s).2 := rfl

theorem exec_bind (p : Prog C A α) (f : α → Prog C A β) (s : σ) :
    (p.bind f).exec device s = (f (p.exec device s).1).exec device (p.exec device s).2 := by
  induction p generalizing s with
  | pure a => rfl
  | op c next ih => exact ih _ _

/-- A loop whose rounds act on the state alone. -/
theorem exec_forEach {ι : Type} (body : ι → Prog C A α) (act : ι → σ → σ)
    (hbody : ∀ i s, ((body i).exec device s).2 = act i s) (is : List ι) (s : σ) :
    ((forEach body is).exec device s).2 = is.foldl (fun s i => act i s) s := by
  induction is generalizing s with
  | nil => rfl
  | cons i is ih =>
    rw [forEach, exec_bind, exec_bind, hbody]
    exact ih _

/-- The commands and answers of the run on a device. -/
def log : Prog C A α → σ → List (Event C A)
  | .pure _, _ => []
  | .op c next, s => ⟨c, (device c s).1⟩ :: (next (device c s).1).log (device c s).2

/-- The run on a device is one of the executions. -/
theorem runs_log (p : Prog C A α) (s : σ) : p.Runs (p.log device s) (p.exec device s).1 := by
  induction p generalizing s with
  | pure a => exact .pure a
  | op c next ih => exact .op _ (ih _ _)

/-- The commands that the program issues, each with the state that it finds. -/
def issued : Prog C A α → σ → List (C × σ)
  | .pure _, _ => []
  | .op c next, s => (c, s) :: (next (device c s).1).issued (device c s).2

@[simp] theorem issued_pure (a : α) (s : σ) :
    (Prog.pure a : Prog C A α).issued device s = [] := rfl

@[simp] theorem issued_op (c : C) (next : A c → Prog C A α) (s : σ) :
    (Prog.op c next).issued device s =
      (c, s) :: (next (device c s).1).issued device (device c s).2 := rfl

/-- `P` holds before every command and in the end. -/
def Throughout (p : Prog C A α) (s : σ) (P : σ → Prop) : Prop :=
  (∀ x ∈ p.issued device s, P x.2) ∧ P (p.exec device s).2

@[simp] theorem throughout_pure (a : α) (s : σ) (P : σ → Prop) :
    (Prog.pure a : Prog C A α).Throughout device s P ↔ P s := by
  simp [Throughout]

@[simp] theorem throughout_op (c : C) (next : A c → Prog C A α) (s : σ) (P : σ → Prop) :
    (Prog.op c next).Throughout device s P ↔
      P s ∧ (next (device c s).1).Throughout device (device c s).2 P := by
  simp [Throughout, and_assoc]

end Exec

end Prog

end PcmTest.Theory
