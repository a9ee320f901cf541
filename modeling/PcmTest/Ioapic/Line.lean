import PcmTest.Ioapic.Delivery

/-!
# Line 0x0e under a test

What decides whether a test of line 0x0e is interrupted is a handful of bits: the
line, the low word of its entry, and where its vector stands between the I/O APIC
and the processor. `Line` holds these and is concrete at every point of a test;
`Slate` holds what the test leaves open, with the counters. `Shows` relates both
to the world, and every operation of the tests has one rule over it.
-/

namespace PcmTest.Ioapic

open Theory

/-- Line 0x0e, its entry, and the processor's side of it. `waiting` is the remote IRR bit. -/
structure Line where
  high : Bool
  word : U32
  irr : List ℕ
  inService : List ℕ
  waiting : Bool
  irqFlag : Bool
  shadow : Bool
  halted : Bool
  deriving DecidableEq

namespace Line

def setHigh (high : Bool) (l : Line) : Line := { l with high := high }

def setWord (word : U32) (l : Line) : Line := { l with word := word }

def setFlag (irqFlag : Bool) (l : Line) : Line := { l with irqFlag := irqFlag }

def setService (inService : List ℕ) (l : Line) : Line := { l with inService := inService }

/-- A request that the local APIC keeps. -/
def keep (vec : ℕ) (l : Line) : Line := { l with irr := l.irr.insert vec }

/-- `sti` holds interrupts back for one more access if it turns them on. -/
def enable (l : Line) : Line := { l with irqFlag := true, shadow := !l.irqFlag }

def release (l : Line) : Line := { l with shadow := false }

def asks (l : Line) : Bool := l.high && isLevel l.word && !isMasked l.word && !l.waiting

def service (l : Line) : Line :=
  if l.asks then { l.keep (vectorOf l.word) with waiting := true } else l

/-- A rising edge that an edge entry lets through. -/
def rises (up : Bool) (l : Line) : Bool := up && !l.high && !isMasked l.word

def drive (up : Bool) (l : Line) : Line :=
  if isLevel l.word then (l.setHigh up).service
  else if l.rises up then (l.setHigh up).keep (vectorOf l.word)
  else l.setHigh up

/-- The EOI of `vec` frees its line. -/
def free (vec : ℕ) (l : Line) : Line := { l with waiting := l.waiting && vectorOf l.word ≠ vec }

/-- The EOI of what is being served; `level` is how it was triggered. -/
def eoi (level : Bool) (l : Line) : Line :=
  match l.inService with
  | [] => l
  | vec :: rest =>
    if level then ((l.setService rest).free vec).service else l.setService rest

def request (l : Line) : Option ℕ :=
  if l.irqFlag && !l.shadow then
    l.irr.max?.filter fun vec => l.inService.all fun v => v / 16 < vec / 16
  else
    none

/-- The program goes on, and not because an `sti` holds an interrupt back. -/
def calm (l : Line) : Bool := l.request.isNone && !l.halted && !l.shadow

def acknowledge (vec : ℕ) (l : Line) : Line :=
  { l with
    irqFlag := false
    halted := false
    irr := l.irr.erase vec
    inService := vec :: l.inService }

end Line

/-- What the tests leave open: the machine, the selected register, the entry of line 0x0f, the gates
and trigger modes, the statics and how often each handler was entered. -/
structure Slate where
  platform : Platform
  index : U32
  other : U32
  idt : ℕ → Option Isr
  tmr : ℕ → Bool
  vars : Var → U32
  taken : Isr → ℕ

namespace Slate

def accept (vec : ℕ) (level : Bool) (t : Slate) : Slate :=
  { t with tmr := Function.update t.tmr vec level }

def service (l : Line) (t : Slate) : Slate :=
  if l.asks then t.accept (vectorOf l.word) true else t

def drive (up : Bool) (l : Line) (t : Slate) : Slate :=
  if isLevel l.word then t.service (l.setHigh up)
  else if l.rises up then t.accept (vectorOf l.word) false
  else t

def eoi (level : Bool) (l : Line) (t : Slate) : Slate :=
  match l.inService with
  | [] => t
  | vec :: rest => if level then t.service ((l.setService rest).free vec) else t

def set (v : Var) (x : U32) (t : Slate) : Slate := { t with vars := Function.update t.vars v x }

@[simp] theorem set_vars (v : Var) (x : U32) (t : Slate) :
    (t.set v x).vars = Function.update t.vars v x := rfl

@[simp] theorem set_self (v : Var) (x : U32) (t : Slate) : (t.set v x).vars v = x := by
  rw [set_vars, Function.update_self]

def enter (isr : Isr) (t : Slate) : Slate :=
  { t with taken := Function.update t.taken isr (t.taken isr + 1) }

def select (reg : U32) (t : Slate) : Slate := { t with index := reg }

def install (vec : ℕ) (isr : Isr) (t : Slate) : Slate :=
  { t with idt := Function.update t.idt vec (some isr) }

end Slate

/-- The world shows a line and a slate, and the second CPU has only commands of `U` left. A line
that went up through an edge entry may have come down again. The machine suits the tests, and the
kernel reaches the local APIC. -/
structure Shows (U : Cmd → Prop) (l : Line) (t : Slate) (w : World) : Prop where
  platform : w.platform = t.platform
  suits : t.platform.Suits
  mode : w.x2apic = t.platform.kernelX2apic
  line : w.lineHigh 0x0e = l.high ∨ isLevel l.word = false ∧ l.high = true
  low : w.lineHigh 0x0f = false
  word : w.entry 0x0e = l.word
  index : w.index = t.index
  other : w.entry 0x0f = t.other
  irr : w.irr = l.irr
  inService : w.inService = l.inService
  waiting : w.remoteIrr = if l.waiting then [0x0e] else []
  irqFlag : w.irqFlag = l.irqFlag
  shadow : w.shadow = l.shadow
  halted : w.halted = l.halted
  idt : w.idt = t.idt
  tmr : w.tmr = t.tmr
  vars : w.vars = t.vars
  taken : w.taken = t.taken
  second : w.second.Uses U

section Shows

variable {U : Cmd → Prop} {l : Line} {t : Slate} {w : World}

theorem request_shows (h : Shows U l t w) : w.request = l.request := by
  rw [World.request, Line.request, h.irr, h.inService, h.irqFlag, h.shadow]

theorem goesOn_shows (h : Shows U l t w) {c : Cmd} (hrequest : l.request = none)
    (hhalted : l.halted = false) (hready : w.ready c = true) : w.goesOn c = true := by
  rw [World.goesOn, request_shows h, h.halted, hready, hrequest, hhalted]
  rfl

theorem reaches_shows (h : Shows U l t w) : w.x2apic = w.platform.kernelX2apic := by
  rw [h.mode, h.platform]

theorem contains_waiting (h : Shows U l t w) : w.remoteIrr.contains 0x0e = l.waiting := by
  rw [h.waiting]
  cases l.waiting <;> rfl

/-- The second line is never heard: it is low between two accesses. -/
theorem service_other (h : w.lineHigh 0x0f = false) : w.service 0x0f = w := by
  rw [World.service, h]
  rfl

theorem asks_shows (h : Shows U l t w) :
    (w.lineHigh 0x0e && isLevel (w.entry 0x0e) && !isMasked (w.entry 0x0e) &&
      !w.remoteIrr.contains 0x0e) = l.asks := by
  rw [h.word, contains_waiting h, Line.asks]
  rcases h.line with hline | ⟨hedge, -⟩
  · rw [hline]
  · simp [hedge]

theorem shows_accept (h : Shows U l t w) (vec : ℕ) (level : Bool) :
    Shows U (l.keep vec) (t.accept vec level) (w.accept vec level) := by
  refine { h with irr := congrArg (List.insert vec) h.irr, tmr := ?_ }
  change Function.update w.tmr vec level = Function.update t.tmr vec level
  rw [h.tmr]

theorem shows_service (h : Shows U l t w) :
    Shows U l.service (t.service l) (w.service 0x0e) := by
  unfold World.service Line.service Slate.service
  rw [asks_shows h]
  split_ifs with hasks
  · rw [h.word]
    have hfree : l.waiting = false := by
      simp only [Line.asks, Bool.and_eq_true, Bool.not_eq_true'] at hasks
      exact hasks.2
    have hnil := h.waiting
    rw [hfree] at hnil
    exact { shows_accept h (vectorOf l.word) true with
      waiting := congrArg (List.cons (0x0e : U32)) hnil }
  · exact h

theorem shows_serviceAll (h : Shows U l t w) :
    Shows U l.service (t.service l) w.serviceAll := by
  have hall : w.serviceAll = (w.service 0x0e).service 0x0f := rfl
  rw [hall, service_other (shows_service h).low]
  exact shows_service h

end Shows

section Drive

variable {U : Cmd → Prop} {l : Line} {t : Slate} {w : World}

def World.setPort (port : U16) (value : U8) (w : World) : World :=
  { w with ports := Function.update w.ports port value }

/-- What `set_irq_line` writes. -/
def levelOf (up : Bool) : U8 := if up then 1 else 0

theorem levelOf_ne_zero (up : Bool) : (levelOf up != 0) = up := by
  cases up <;> rfl

theorem lineHigh_setPort (line : U32) (up : Bool) :
    (w.setPort (irqPort line) (levelOf up)).lineHigh line = up := by
  have hport : (w.setPort (irqPort line) (levelOf up)).ports (irqPort line) = levelOf up :=
    Function.update_self _ _ _
  rw [World.lineHigh, hport, levelOf_ne_zero]

theorem lineHigh_setPort_other {line line' : U32} (h : irqPort line' ≠ irqPort line) (value : U8) :
    (w.setPort (irqPort line) value).lineHigh line' = w.lineHigh line' := by
  have hport : (w.setPort (irqPort line) value).ports (irqPort line') = w.ports (irqPort line') :=
    Function.update_of_ne h _ _
  rw [World.lineHigh, hport, World.lineHigh]

theorem shows_setPort (h : Shows U l t w) (up : Bool) :
    Shows U (l.setHigh up) t (w.setPort (irqPort 0x0e) (levelOf up)) :=
  { h with
    line := .inl (lineHigh_setPort 0x0e up)
    low := (lineHigh_setPort_other (by decide) _).trans h.low }

/-- A rising edge is seen where the line is known to be low. -/
theorem rises_shows (up : Bool)
    (hline : up = true → w.lineHigh 0x0e = l.high) :
    (levelOf up ≠ 0 ∧ w.ports (irqPort 0x0e) = 0 ∧ isMasked l.word = false) ↔
      l.rises up = true := by
  cases up with
  | false => simp [Line.rises, levelOf]
  | true =>
    have hlow : w.ports (irqPort 0x0e) = 0 ↔ l.high = false := by
      rw [← hline rfl, World.lineHigh, bne_eq_false_iff_eq]
    rw [hlow]
    simp [Line.rises, levelOf]

theorem shows_drive (h : Shows U l t w) (up : Bool)
    (hline : up = true → isLevel l.word = false → w.lineHigh 0x0e = l.high) :
    Shows U (l.drive up) (t.drive up l) (w.drive (levelOf up) (irqPort 0x0e)) := by
  have hdrive : w.drive (levelOf up) (irqPort 0x0e) =
      if isLevel (w.entry 0x0e) then (w.setPort (irqPort 0x0e) (levelOf up)).service 0x0e
      else if levelOf up ≠ 0 ∧ w.ports (irqPort 0x0e) = 0 ∧ isMasked (w.entry 0x0e) = false then
        (w.setPort (irqPort 0x0e) (levelOf up)).accept (vectorOf (w.entry 0x0e)) false
      else w.setPort (irqPort 0x0e) (levelOf up) := rfl
  rw [hdrive, h.word, Line.drive, Slate.drive]
  by_cases hlevel : isLevel l.word = true
  · rw [if_pos hlevel, if_pos hlevel, if_pos hlevel]
    exact shows_service (shows_setPort h up)
  · rw [if_neg hlevel, if_neg hlevel, if_neg hlevel]
    have hrises := rises_shows up fun hup => hline hup (Bool.not_eq_true _ ▸ hlevel)
    by_cases hup : l.rises up = true
    · rw [if_pos (hrises.mpr hup), if_pos hup, if_pos hup]
      exact shows_accept (shows_setPort h up) _ _
    · rw [if_neg (mt hrises.mp hup), if_neg hup, if_neg hup]
      exact shows_setPort h up

end Drive

section Rules

variable {U : Cmd → Prop} {l : Line} {t : Slate} {w : World} {α : Type} {Q : α → World → Prop}

/-- The commands of the second CPU that change nothing here. -/
def Line.tolerates (l : Line) : Cmd → Bool
  | .cli | .sti => true
  | .out value port => value = 0 && port = irqPort 0x0e && (!l.high || !isLevel l.word)
  | _ => false

def Tame (U : Cmd → Prop) (l : Line) : Prop := ∀ c, U c → l.tolerates c = true

theorem drive_down (l : Line) : l.drive false = l.setHigh false := by
  unfold Line.drive
  split_ifs with hlevel hrises
  · rfl
  · exact absurd hrises (by simp [Line.rises])
  · rfl

theorem slate_drive_down (l : Line) (t : Slate) : t.drive false l = t := by
  unfold Slate.drive
  split_ifs with hlevel hrises
  · rfl
  · exact absurd hrises (by simp [Line.rises])
  · rfl

/-- A line that is low, or went up through an edge entry, may be lowered. -/
theorem shows_lowered (h : Shows U (l.setHigh false) t w)
    (hline : l.high = false ∨ isLevel l.word = false) : Shows U l t w := by
  have hlow : w.lineHigh 0x0e = false := by
    rcases h.line with hlow | ⟨-, hhigh⟩
    · exact hlow
    · exact absurd hhigh Bool.false_ne_true
  refine { h with line := ?_ }
  cases hhigh : l.high with
  | false => exact .inl hlow
  | true => exact .inr ⟨hline.resolve_left (by simp [hhigh]), rfl⟩

theorem stable_shows (hU : Tame U l) : Stable (Shows U l t) := by
  rintro w u h ⟨out, c, next, hsecond, rfl⟩
  have huses : (Prog.op c next).Uses U := hsecond ▸ h.second
  have hc := hU c huses.1
  cases c with
  | cli => exact { h with irqFlag := h.irqFlag, second := huses.2 _ }
  | sti => exact { h with irqFlag := h.irqFlag, second := huses.2 _ }
  | out value port =>
    simp only [Line.tolerates, Bool.and_eq_true, decide_eq_true_eq, Bool.or_eq_true,
      Bool.not_eq_true'] at hc
    obtain ⟨⟨rfl, rfl⟩, hline⟩ := hc
    have hdown := shows_drive h false nofun
    rw [drive_down, slate_drive_down] at hdown
    have hlowered := shows_lowered hdown hline
    exact { hlowered with irqFlag := h.irqFlag, second := huses.2 _ }
  | _ => cases hc

/-- One access that is not held up. -/
theorem ends_shows {c : Cmd} {l' : Line} {t' : Slate} {A : c.Answer → Prop} (h : Shows U l t w)
    (hU : Tame U l) (hrequest : l.request = none) (hhalted : l.halted = false)
    (hready : ∀ w, Shows U l t w → w.ready c = true)
    (hstep : ∀ w out, Shows U l t w →
      A (w.access out c).1 ∧ Shows U l' t' (w.access out c).2) :
    Ends (Prog.call c) w fun a w' => A a ∧ Shows U l' t' w' :=
  ends_call (stable_shows hU) (fun w h => goesOn_shows h hrequest hhalted (hready w h))
    (fun w out h => hstep w out h) h

theorem calm_parts (hcalm : l.calm = true) :
    l.request = none ∧ l.halted = false ∧ l.shadow = false := by
  simpa only [Line.calm, Bool.and_eq_true, Option.isNone_iff_eq_none, Bool.not_eq_true', and_assoc]
    using hcalm

/-- One access in the calm, other than `sti`. -/
theorem ends_calm {c : Cmd} {l' : Line} {t' : Slate} (h : Shows U l t w) (hU : Tame U l)
    (hcalm : l.calm = true) (hsti : c ≠ .sti) (hready : ∀ w, Shows U l t w → w.ready c = true)
    (hstep : ∀ w out, Shows U l t w → Shows U l' t' (w.effect out c).2)
    (hshadow : l'.shadow = l.shadow) :
    Ends (Prog.call c) w fun a w' =>
      (∃ w₀ out, Shows U l t w₀ ∧ a = (w₀.effect out c).1) ∧ Shows U l' t' w' := by
  obtain ⟨hrequest, hhalted, hoff⟩ := calm_parts hcalm
  refine ends_shows h hU hrequest hhalted hready fun w out h => ⟨⟨w, out, h, rfl⟩, ?_⟩
  refine { hstep w out h with shadow := ?_ }
  rw [hshadow, hoff]
  simp [World.access, hsti]

/-- One access in the calm that returns nothing. -/
theorem ends_quiet {c : Cmd} {l' : Line} {t' : Slate} (h : Shows U l t w) (hU : Tame U l)
    (hcalm : l.calm = true) (hsti : c ≠ .sti) (hready : ∀ w, Shows U l t w → w.ready c = true)
    (hstep : ∀ w out, Shows U l t w → Shows U l' t' (w.effect out c).2)
    (hshadow : l'.shadow = l.shadow) : Ends (Prog.call c) w fun _ => Shows U l' t' :=
  Prog.ensures_mono (fun _ _ h => h.2) (ends_calm h hU hcalm hsti hready hstep hshadow)

theorem ends_load (v : Var) (hU : Tame U l) (hcalm : l.calm = true) (h : Shows U l t w) :
    Ends (load v) w fun x w' => x = t.vars v ∧ Shows U l t w' := by
  refine Prog.ensures_mono ?_
    (ends_calm h hU hcalm nofun (fun _ _ => rfl) (fun _ _ h => h) rfl)
  rintro x w' ⟨⟨w₀, out, h₀, rfl⟩, hw'⟩
  exact ⟨congrFun h₀.vars v, hw'⟩

theorem ends_store (v : Var) (x : U32) (hU : Tame U l) (hcalm : l.calm = true)
    (h : Shows U l t w) : Ends (store v x) w fun _ => Shows U l (t.set v x) := by
  refine ends_quiet h hU hcalm nofun (fun _ _ => rfl) (fun w out h => { h with vars := ?_ }) rfl
  change Function.update w.vars v x = Function.update t.vars v x
  rw [h.vars]

theorem ends_increment (v : Var) (hU : Tame U l) (hcalm : l.calm = true) (h : Shows U l t w) :
    Ends (increment v) w fun _ => Shows U l (t.set v (t.vars v + 1)) := by
  refine Prog.ensures_then (ends_load v hU hcalm h) ?_
  rintro x w' ⟨rfl, hw'⟩
  exact ends_store v _ hU hcalm hw'

theorem ends_nop (hU : Tame U l) (hcalm : l.calm = true) (h : Shows U l t w) :
    Ends nop w fun _ => Shows U l t :=
  ends_quiet h hU hcalm nofun (fun _ _ => rfl) (fun _ _ h => h) rfl

theorem ends_cli (hU : Tame U l) (hcalm : l.calm = true) (h : Shows U l t w) :
    Ends irqDisable w fun _ => Shows U (l.setFlag false) t :=
  ends_quiet h hU hcalm nofun (fun _ _ => rfl) (fun _ _ h => { h with irqFlag := rfl }) rfl

theorem ends_sti (hU : Tame U l) (hcalm : l.calm = true) (h : Shows U l t w) :
    Ends irqEnable w fun _ => Shows U l.enable t := by
  obtain ⟨hrequest, hhalted, -⟩ := calm_parts hcalm
  refine Prog.ensures_mono (fun _ _ h => h.2) (ends_shows (A := fun _ => True) h hU hrequest
    hhalted (fun _ _ => rfl) fun w out h => ⟨trivial, ?_⟩)
  exact { h with irqFlag := rfl, shadow := congrArg Bool.not h.irqFlag }

/-- The access after an `sti`, which no interrupt comes before. -/
theorem ends_held {c : Cmd} {l' : Line} {t' : Slate} (h : Shows U l t w) (hU : Tame U l)
    (hrequest : l.request = none) (hhalted : l.halted = false) (hsti : c ≠ .sti)
    (hready : ∀ w, Shows U l t w → w.ready c = true)
    (hstep : ∀ w out, Shows U l t w → Shows U l' t' (w.effect out c).2) :
    Ends (Prog.call c) w fun _ => Shows U l'.release t' := by
  refine Prog.ensures_mono (fun _ _ h => h.2) (ends_shows (A := fun _ => True) h hU hrequest
    hhalted hready fun w out h => ⟨trivial, ?_⟩)
  refine { hstep w out h with shadow := ?_ }
  simp [World.access, Line.release, hsti]

theorem shows_install (vec : U32) (isr : Isr) (out : Outside) (h : Shows U l t w) :
    Shows U l (t.install vec.toNat isr) (w.effect out (.handleIrqLocal vec isr)).2 := by
  refine { h with idt := ?_ }
  change Function.update w.idt vec.toNat (some isr) = Function.update t.idt vec.toNat (some isr)
  rw [h.idt]

theorem ends_handleIrqLocal (vec : U32) (isr : Isr) (hU : Tame U l) (hcalm : l.calm = true)
    (h : Shows U l t w) :
    Ends (handleIrqLocal vec isr) w fun _ => Shows U l (t.install vec.toNat isr) :=
  ends_quiet h hU hcalm nofun (fun _ _ => rfl) (fun _ out h => shows_install vec isr out h) rfl

theorem shadow_service (l : Line) : l.service.shadow = l.shadow := by
  unfold Line.service
  split_ifs
  · rfl
  · rfl

theorem shadow_drive (up : Bool) (l : Line) : (l.drive up).shadow = l.shadow := by
  unfold Line.drive
  split_ifs
  · exact shadow_service _
  · rfl
  · rfl

theorem shadow_eoi (level : Bool) (l : Line) : (l.eoi level).shadow = l.shadow := by
  unfold Line.eoi
  split
  · rfl
  · split_ifs
    · exact shadow_service _
    · rfl

/-- Raising the line, which through an edge entry needs it low. -/
theorem ends_raise (hU : Tame U l) (hcalm : l.calm = true)
    (hline : isLevel l.word = true ∨ l.high = false) (h : Shows U l t w) :
    Ends (setIrqLine 0x0e 1) w fun _ => Shows U (l.drive true) (t.drive true l) := by
  refine ends_quiet h hU hcalm nofun (fun _ _ => rfl) (fun w out h => ?_) (shadow_drive true l)
  refine shows_drive h true fun _ hedge => ?_
  rcases h.line with hlow | ⟨-, hhigh⟩
  · exact hlow
  · rcases hline with hlevel | hlow
    · exact absurd (hedge.symm.trans hlevel) Bool.false_ne_true
    · exact absurd (hlow.symm.trans hhigh) Bool.false_ne_true

theorem ends_lower (hU : Tame U l) (hcalm : l.calm = true) (h : Shows U l t w) :
    Ends (setIrqLine 0x0e 0) w fun _ => Shows U (l.setHigh false) t := by
  refine ends_quiet h hU hcalm nofun (fun _ _ => rfl) (fun w out h => ?_) rfl
  have hdown := shows_drive h false nofun
  rwa [drive_down, slate_drive_down] at hdown

theorem effect_eoi (out : Outside) (h : Shows U l t w) :
    (w.effect out (.apicWrite apicEoi 0)).2 = w.endOfInterrupt :=
  if_pos ⟨reaches_shows h, rfl⟩

/-- The EOI, of an interrupt whose trigger mode is known. -/
theorem shows_eoi (level : Bool) {vec : ℕ} {rest : List ℕ} (hservice : l.inService = vec :: rest)
    (hmode : t.tmr vec = level) (h : Shows U l t w) :
    Shows U (l.eoi level) (t.eoi level l) w.endOfInterrupt := by
  have hmode' : w.tmr vec = level := (congrFun h.tmr vec).trans hmode
  have hwaiting : (w.remoteIrr.filter fun line => vectorOf (w.entry line) ≠ vec) =
      if (l.waiting && decide (vectorOf l.word ≠ vec)) then [0x0e] else [] := by
    have hword : w.entry 14#32 = l.word := h.word
    rw [h.waiting]
    cases l.waiting with
    | false => rfl
    | true => simp [List.filter_cons, hword]
  unfold World.endOfInterrupt Line.eoi Slate.eoi
  rw [h.inService, hservice]
  dsimp only
  rw [hmode']
  cases level with
  | true => exact shows_serviceAll { h with inService := rfl, waiting := hwaiting }
  | false => exact { h with inService := rfl }

theorem ends_eoi (level : Bool) (hU : Tame U l) (hcalm : l.calm = true) (h : Shows U l t w)
    {vec : ℕ} {rest : List ℕ} (hservice : l.inService = vec :: rest) (hmode : t.tmr vec = level) :
    Ends eoi w fun _ => Shows U (l.eoi level) (t.eoi level l) :=
  ends_quiet h hU hcalm nofun (fun _ _ => rfl)
    (fun _ out h => effect_eoi out h ▸ shows_eoi level hservice hmode h) (shadow_eoi level l)

theorem ends_eoi_edge (hU : Tame U l) (hcalm : l.calm = true) (h : Shows U l t w) {vec : ℕ}
    {rest : List ℕ} (hservice : l.inService = vec :: rest) (hmode : t.tmr vec = false) :
    Ends eoi w fun _ => Shows U (l.setService rest) t := by
  have hend := ends_eoi false hU hcalm h hservice hmode
  rw [Line.eoi, Slate.eoi, hservice] at hend
  exact hend

/-- Selecting a register. -/
theorem shows_select (reg : U32) (out : Outside) (hasks : l.asks = false) (h : Shows U l t w) :
    Shows U l (t.select reg) (w.effect out (.mmioWrite indexOffset reg)).2 := by
  have hselected : Shows U l (t.select reg) { w with index := reg } := { h with index := rfl }
  have hserviced := shows_serviceAll hselected
  rwa [Line.service, Slate.service, hasks] at hserviced

theorem ends_select (reg : U32) (hU : Tame U l) (hcalm : l.calm = true) (hasks : l.asks = false)
    (h : Shows U l t w) :
    Ends (mmioWrite indexOffset reg) w fun _ => Shows U l (t.select reg) :=
  ends_quiet h hU hcalm nofun (fun _ _ => rfl) (fun _ out h => shows_select reg out hasks h) rfl

/-- Reading the low word of the entry. -/
theorem ends_read (hU : Tame U l) (hcalm : l.calm = true) (h : Shows U l t w) :
    Ends (mmioRead dataOffset) w fun x w' =>
      (t.index = loReg 0x0e → x = l.word) ∧ Shows U l t w' := by
  refine Prog.ensures_mono ?_
    (ends_calm h hU hcalm nofun (fun _ _ => rfl) (fun _ _ h => h) rfl)
  rintro x w' ⟨⟨w₀, out, h₀, rfl⟩, hw'⟩
  refine ⟨fun hindex => ?_, hw'⟩
  rw [← h₀.word, World.entry, ← hindex, ← h₀.index]
  rfl

/-- Writing the low word: if the line is high, the new entry may let it through. -/
theorem ends_write (value : U32) (hindex : t.index = loReg 0x0e) (hU : Tame U l)
    (hcalm : l.calm = true) (hline : l.high = false ∨ isLevel value = isLevel l.word)
    (h : Shows U l t w) :
    Ends (mmioWrite dataOffset value) w fun _ =>
      Shows U (l.setWord value).service (t.service (l.setWord value)) := by
  refine ends_quiet h hU hcalm nofun (fun _ _ => rfl) (fun w out h => ?_) (shadow_service _)
  have hindex' : w.index = loReg 0x0e := h.index.trans hindex
  have hwritten : Shows U (l.setWord value) t
      { w with regs := Function.update w.regs w.index value } := by
    refine { h with line := ?_, word := ?_, other := ?_ }
    · rcases h.line with hline' | ⟨hedge, hhigh⟩
      · exact .inl hline'
      · refine .inr ⟨?_, hhigh⟩
        exact (hline.resolve_left (by simp [hhigh])).trans hedge
    · change Function.update w.regs w.index value (loReg 0x0e) = value
      rw [hindex', Function.update_self]
    · change Function.update w.regs w.index value (loReg 0x0f) = t.other
      rw [hindex', Function.update_of_ne (by decide)]
      exact h.other
  exact shows_serviceAll hwritten

/-- Writing the entry of line 0x0f. -/
theorem ends_write_other (value : U32) (hindex : t.index = loReg 0x0f) (hU : Tame U l)
    (hcalm : l.calm = true) (hasks : l.asks = false) (h : Shows U l t w) :
    Ends (mmioWrite dataOffset value) w fun _ => Shows U l { t with other := value } := by
  refine ends_quiet h hU hcalm nofun (fun _ _ => rfl) (fun w out h => ?_) rfl
  have hindex' : w.index = loReg 0x0f := h.index.trans hindex
  have hwritten : Shows U l { t with other := value }
      { w with regs := Function.update w.regs w.index value } := by
    refine { h with word := ?_, other := ?_ }
    · change Function.update w.regs w.index value (loReg 0x0e) = l.word
      rw [hindex', Function.update_of_ne (by decide)]
      exact h.word
    · change Function.update w.regs w.index value (loReg 0x0f) = value
      rw [hindex', Function.update_self]
  have hserviced := shows_serviceAll hwritten
  rwa [Line.service, Slate.service, hasks] at hserviced

/-- Writing a register that is no low word of the two entries. -/
theorem ends_write_else (value : U32) (hlo : t.index ≠ loReg 0x0e) (hlo' : t.index ≠ loReg 0x0f)
    (hU : Tame U l) (hcalm : l.calm = true) (hasks : l.asks = false) (h : Shows U l t w) :
    Ends (mmioWrite dataOffset value) w fun _ => Shows U l t := by
  refine ends_quiet h hU hcalm nofun (fun _ _ => rfl) (fun w out h => ?_) rfl
  have hwritten : Shows U l t { w with regs := Function.update w.regs w.index value } := by
    refine { h with word := ?_, other := ?_ }
    · change Function.update w.regs w.index value (loReg 0x0e) = l.word
      rw [h.index, Function.update_of_ne hlo.symm]
      exact h.word
    · change Function.update w.regs w.index value (loReg 0x0f) = t.other
      rw [h.index, Function.update_of_ne hlo'.symm]
      exact h.other
  have hserviced := shows_serviceAll hwritten
  rwa [Line.service, Slate.service, hasks] at hserviced

/-- The word that `set_ioapic_redir` writes. -/
def redirWord (vec : U32) (trigMode : TriggerMode) : U32 :=
  RedirEntry.lo
    { vector := vec.setWidth 8
      deliveryMode := 0
      destMode := 0
      deliveryStatus := 0
      polarity := 0
      remoteIrr := 0
      trigMode := trigMode.bit
      mask := 0
      reserve := 0
      reserved := 0
      destId := 0 }

theorem asks_low (hlow : l.high = false) : l.asks = false := by
  rw [Line.asks, hlow]
  rfl

theorem service_asks (hasks : l.asks = false) : l.service = l := if_neg (by simp [hasks])

theorem slate_service_asks (hasks : l.asks = false) : t.service l = t := if_neg (by simp [hasks])

theorem tame_word (hlow : l.high = false) (hU : Tame U l) (word : U32) :
    Tame U (l.setWord word) := by
  intro c hc
  have htolerates := hU c hc
  cases c with
  | out value port => simpa [Line.tolerates, Line.setWord, hlow] using htolerates
  | cli => rfl
  | sti => rfl
  | _ => cases htolerates

/-- `set_ioapic_redir` while the line is low. -/
theorem ends_setIoapicRedir (vec : U32) (trigMode : TriggerMode) (hU : Tame U l)
    (hcalm : l.calm = true) (hlow : l.high = false) (h : Shows U l t w) :
    Ends (setIoapicRedir 0x0e vec trigMode) w fun _ =>
      Shows U (l.setWord (redirWord vec trigMode)) (t.select (hiReg 0x0e)) := by
  have hasks : (l.setWord (redirWord vec trigMode)).asks = false := asks_low hlow
  have hU' := tame_word hlow hU (redirWord vec trigMode)
  refine Prog.ensures_then (Prog.ensures_then (ends_select (loReg 0x0e) hU hcalm (asks_low hlow) h)
    fun _ w h => ends_write (redirWord vec trigMode) rfl hU hcalm (.inl hlow) h) fun _ w h => ?_
  rw [service_asks hasks, slate_service_asks hasks] at h
  exact Prog.ensures_then (ends_select (hiReg 0x0e) hU' hcalm hasks h) fun _ w h =>
    ends_write_else _ (hiReg_ne_loReg _ _) (hiReg_ne_loReg _ _) hU' hcalm hasks h

/-- `set_ioapic_redir` of the other line. -/
theorem ends_setIoapicRedir_other (vec : U32) (trigMode : TriggerMode) (hU : Tame U l)
    (hcalm : l.calm = true) (hlow : l.high = false) (h : Shows U l t w) :
    Ends (setIoapicRedir 0x0f vec trigMode) w fun _ =>
      Shows U l { t.select (hiReg 0x0f) with other := redirWord vec trigMode } := by
  refine Prog.ensures_then (Prog.ensures_then (ends_select (loReg 0x0f) hU hcalm (asks_low hlow) h)
    fun _ w h => ends_write_other (redirWord vec trigMode) rfl hU hcalm (asks_low hlow) h)
    fun _ w h => ?_
  exact Prog.ensures_then (ends_select (hiReg 0x0f) hU hcalm (asks_low hlow) h) fun _ w h =>
    ends_write_else _ (hiReg_ne_loReg _ _) (hiReg_ne_loReg _ _) hU hcalm (asks_low hlow) h

/-- What `set_mask` does after it has written the low word. -/
def writeBack (hi : U32) : IoapicProg Unit := do
  mmioWrite indexOffset (hiReg 0x0e)
  mmioWrite dataOffset hi

theorem ends_writeBack (hi : U32) (hU : Tame U l) (hcalm : l.calm = true) (hasks : l.asks = false)
    (h : Shows U l t w) : Ends (writeBack hi) w fun _ => Shows U l (t.select (hiReg 0x0e)) :=
  Prog.ensures_then (ends_select (hiReg 0x0e) hU hcalm hasks h) fun _ _ h =>
    ends_write_else hi (hiReg_ne_loReg _ _) (hiReg_ne_loReg _ _) hU hcalm hasks h

theorem isLevel_maskWord (word mask : U32) :
    isLevel (RedirEntry.maskWord word mask) = isLevel word := by
  rw [isLevel, RedirEntry.getLsbD_maskWord _ _ (by decide)]
  rfl

/-- `set_mask` up to the new low word, which can let the line through. -/
theorem ends_setMask_then {R : World → Prop} (mask : U32) (hU : Tame U l) (hcalm : l.calm = true)
    (hasks : l.asks = false)
    (hrest : ∀ hi w', Shows U (l.setWord (RedirEntry.maskWord l.word mask)).service
        ((t.select (loReg 0x0e)).service (l.setWord (RedirEntry.maskWord l.word mask))) w' →
      Ends (writeBack hi) w' fun _ => R) (h : Shows U l t w) :
    Ends (setMask 0x0e mask) w fun _ => R := by
  rw [setMask_eq]
  refine Prog.ensures_then (ends_select (loReg 0x0e) hU hcalm hasks h) fun _ w h => ?_
  refine Prog.ensures_then (ends_read hU hcalm h) fun lo w h => ?_
  obtain rfl := h.1 rfl
  refine Prog.ensures_then (ends_select (hiReg 0x0e) hU hcalm hasks h.2) fun _ w h => ?_
  refine Prog.ensures_then (ends_read hU hcalm h) fun hi w h => ?_
  refine Prog.ensures_then (ends_select (loReg 0x0e) hU hcalm hasks h.2) fun _ w h => ?_
  exact Prog.ensures_then (ends_write _ rfl hU hcalm (.inr (isLevel_maskWord _ _)) h)
    fun _ w h => hrest hi w h

/-- `set_mask` when the line stays unheard. -/
theorem ends_setMask (mask : U32) (hU : Tame U l)
    (hU' : Tame U (l.setWord (RedirEntry.maskWord l.word mask))) (hcalm : l.calm = true)
    (hasks : l.asks = false)
    (hasks' : (l.setWord (RedirEntry.maskWord l.word mask)).asks = false)
    (h : Shows U l t w) :
    Ends (setMask 0x0e mask) w fun _ =>
      Shows U (l.setWord (RedirEntry.maskWord l.word mask)) (t.select (hiReg 0x0e)) := by
  refine ends_setMask_then mask hU hcalm hasks (fun hi w h => ?_) h
  rw [service_asks hasks', slate_service_asks hasks'] at h
  exact ends_writeBack (t := t.select (loReg 0x0e)) hi hU' hcalm hasks' h

theorem tmrWord_bit (tmr : ℕ → Bool) (i : ℕ) {j : ℕ} (hj : j < 32) :
    (tmrWord tmr i &&& BitVec.twoPow 32 j != 0) = tmr (32 * i + j) := by
  have hbit : (tmrWord tmr i).getLsbD j = tmr (32 * i + j) := by
    rw [tmrWord, BitVec.getLsbD_ofNat, Nat.testBit_ofBits_lt _ _ hj, decide_eq_true hj,
      Bool.true_and]
  rw [BitVec.and_twoPow, hbit]
  cases tmr (32 * i + j) with
  | false => rfl
  | true =>
    rw [if_pos rfl, bne_iff_ne]
    exact fun hzero => absurd (congrArg (fun x => x.getLsbD j) hzero) (by simp [hj])

/-- The trigger mode bit of vector 0x79. -/
theorem ends_apicReadBit (hU : Tame U l) (hcalm : l.calm = true) (h : Shows U l t w) :
    Ends (apicReadBit apicTmr 0x79) w fun bit w' => bit = t.tmr 0x79 ∧ Shows U l t w' := by
  refine Prog.ensures_then
    (ends_calm h hU hcalm nofun (fun _ _ => rfl) (fun _ _ h => h) rfl) ?_
  rintro x w' ⟨⟨w₀, out, h₀, rfl⟩, hw'⟩
  refine Prog.ensures_pure ⟨?_, hw'⟩
  have hanswer : (w₀.effect out (.apicRead 0x1b0)).1 = tmrWord w₀.tmr 3 :=
    if_pos ⟨reaches_shows h₀, by decide⟩
  have hbit := tmrWord_bit w₀.tmr 3 (j := 25) (by decide)
  rw [← hanswer] at hbit
  rw [← h₀.tmr]
  exact hbit

/-- An interrupt and its handler. -/
theorem ends_handler (vec : ℕ) (isr : Isr) {l' : Line} {t' : Slate} {p : IoapicProg α}
    (h : Shows U l t w) (hU : Tame U l) (hU' : Tame U l') (hrequest : l.request = some vec)
    (hgate : t.idt vec = some isr)
    (hbody : ∀ w, Shows U (l.acknowledge vec) (t.enter isr) w →
      Ends isr.body w fun _ => Shows U l' t') (hoff : l'.irqFlag = false)
    (hnext : ∀ w, Shows U (l'.setFlag true) t' w → Ends p w Q) : Ends p w Q := by
  refine ends_interrupt vec isr (stable_shows hU) (stable_shows hU')
    (fun w h => ⟨(request_shows h).trans hrequest, (congrFun h.idt vec).trans hgate⟩)
    (fun w h => hbody _ ?_) (fun w h => h.irqFlag.trans hoff)
    (fun w h => hnext _ { h with irqFlag := rfl }) h
  refine { h with
    irr := congrArg (List.erase · vec) h.irr
    inService := congrArg (List.cons vec) h.inService
    irqFlag := rfl
    halted := rfl
    taken := ?_ }
  change Function.update w.taken isr (w.taken isr + 1) =
    Function.update t.taken isr (t.taken isr + 1)
  rw [h.taken]

theorem drive_other (value : U8) (hother : w.entry 0x0f = t.other)
    (hedge : isLevel t.other = false) :
    w.drive value (irqPort 0x0f) =
      if value ≠ 0 ∧ w.ports (irqPort 0x0f) = 0 ∧ isMasked t.other = false then
        (w.setPort (irqPort 0x0f) value).accept (vectorOf t.other) false
      else w.setPort (irqPort 0x0f) value := by
  rw [← hother] at hedge ⊢
  exact if_neg (by rw [hedge]; exact Bool.false_ne_true)

/-- The edge of the other line, as it shows when the line is low again. -/
theorem shows_rise_other (hedge : isLevel t.other = false) (hopen : isMasked t.other = false)
    (h : Shows U l t w) :
    Shows U (l.keep (vectorOf t.other)) (t.accept (vectorOf t.other) false)
      ((w.drive 1 (irqPort 0x0f)).setPort (irqPort 0x0f) 0) := by
  have hport : w.ports (irqPort 0x0f) = 0 := by simpa [World.lineHigh] using h.low
  rw [drive_other 1 h.other hedge, if_pos ⟨by decide, hport, hopen⟩]
  have hup : Shows U l t ((w.setPort (irqPort 0x0f) 1).setPort (irqPort 0x0f) 0) := by
    refine { h with line := ?_, low := ?_ }
    · rw [lineHigh_setPort_other (by decide), lineHigh_setPort_other (by decide)]
      exact h.line
    · exact lineHigh_setPort 0x0f false
  exact shows_accept hup _ _

theorem ends_raise_other (hU : Tame U l) (hcalm : l.calm = true) (hedge : isLevel t.other = false)
    (hopen : isMasked t.other = false) (h : Shows U l t w) :
    Ends (setIrqLine 0x0f 1) w fun _ w' =>
      Shows U (l.keep (vectorOf t.other)) (t.accept (vectorOf t.other) false)
        (w'.setPort (irqPort 0x0f) 0) := by
  obtain ⟨hrequest, hhalted, hshadow⟩ := calm_parts hcalm
  refine ends_call (stable_shows hU) (fun w h => goesOn_shows h hrequest hhalted rfl)
    (fun w out h => ?_) h
  exact { shows_rise_other hedge hopen h with shadow := hshadow.symm }

/-- No interrupt comes before the line is low again, since they are off. -/
theorem ends_lower_other (hU : ∀ c, ¬ U c) (hcalm : l.calm = true) (hoff : l.irqFlag = false)
    (hedge : isLevel t.other = false) (h : Shows U l t (w.setPort (irqPort 0x0f) 0)) :
    Ends (setIrqLine 0x0f 0) w fun _ => Shows U l t := by
  obtain ⟨-, hhalted, hshadow⟩ := calm_parts hcalm
  refine ends_call (P := fun w => Shows U l t (w.setPort (irqPort 0x0f) 0)) ?_ (fun w h => ?_)
    (fun w out h => ?_) h
  · rintro w u h ⟨out, c, next, hsecond, -⟩
    have huses : w.second.Uses U := h.second
    rw [hsecond] at huses
    exact absurd huses.1 (hU c)
  · have hflag : w.irqFlag = false := h.irqFlag.trans hoff
    have hawake : w.halted = false := h.halted.trans hhalted
    simp [World.goesOn, World.request, World.ready, hflag, hawake]
  · have hother : w.entry 0x0f = t.other := h.other
    have hdown : w.drive 0 (irqPort 0x0f) = w.setPort (irqPort 0x0f) 0 := by
      rw [drive_other 0 hother hedge, if_neg (by simp)]
    exact { hdown.symm ▸ h with shadow := hshadow.symm }

/-- A pulse on the other line while interrupts are off: its edge is kept. -/
theorem ends_toggle_other (word : U32) (hU : ∀ c, ¬ U c) (hcalm : l.calm = true)
    (hoff : l.irqFlag = false) (hword : t.other = word) (hedge : isLevel word = false)
    (hopen : isMasked word = false) (h : Shows U l t w) :
    Ends (toggleIrqLine 0x0f) w fun _ =>
      Shows U (l.keep (vectorOf word)) (t.accept (vectorOf word) false) := by
  obtain rfl := hword
  refine Prog.ensures_then (ends_raise_other (fun c hc => absurd hc (hU c)) hcalm hedge hopen h)
    fun _ w h => ends_lower_other hU ?_ hoff hedge h
  obtain ⟨-, hhalted, hshadow⟩ := calm_parts hcalm
  simp [Line.calm, Line.request, Line.keep, hoff, hhalted, hshadow]

end Rules

end PcmTest.Ioapic
