import PcmTest.Ioapic.Line

/-!
# What the interrupt tests count

Each test on its own, from a line that rests to a line that rests: the handlers it
enters and the statics they leave. The retrigger test alone does not hand over a line
that rests, since its last access is an `sti`.
-/

namespace PcmTest.Ioapic

open Theory

/-- Count one more. -/
def bump {κ β : Type} [DecidableEq κ] [Add β] [One β] (k : κ) (f : κ → β) : κ → β :=
  Function.update f k (f k + 1)

/-- The line between two tests: low, nothing accepted, interrupts on. -/
def Line.idle (word : U32) : Line := ⟨false, word, [], [], false, true, false, false⟩

/-- Between two tests on a machine, with these counters. -/
def Rests (U : Cmd → Prop) (platform : Platform) (vars : Var → U32) (taken : Isr → ℕ)
    (w : World) : Prop :=
  ∃ word t, t.vars = vars ∧ t.taken = taken ∧ Shows U (Line.idle word) t w ∧ t.platform = platform

section Single

variable {U : Cmd → Prop} {l : Line} {t : Slate} {w : World} {α : Type} {Q : α → World → Prop}
  {platform : Platform} {vars : Var → U32} {taken : Isr → ℕ}

/-- The second CPU has nothing to do. -/
def Alone : Cmd → Prop := fun _ => False

theorem tame_alone (l : Line) : Tame Alone l := fun _ h => h.elim

/-- Every test installs its handler and lets the line through to it. -/
theorem ends_arm (vec : U32) (isr : Isr) (trigMode : TriggerMode) {word : U32} {p : IoapicProg α}
    (hU : Tame U (Line.idle word)) (h : Shows U (Line.idle word) t w)
    (hnext : ∀ w, Shows U (Line.idle (redirWord vec trigMode))
      ((t.install vec.toNat isr).select (hiReg 0x0e)) w → Ends p w Q) :
    Ends ((handleIrqLocal vec isr).bind fun _ => (setIoapicRedir 0x0e vec trigMode).bind fun _ => p)
      w Q := by
  refine Prog.ensures_then (ends_handleIrqLocal vec isr hU rfl h) fun _ w h => ?_
  exact Prog.ensures_then (ends_setIoapicRedir vec trigMode hU rfl rfl h) fun _ w h => hnext w h

theorem tame_low (hU : Tame U l) : Tame U (l.setHigh false) := by
  intro c hc
  have htolerates := hU c hc
  cases c with
  | out value port =>
    simp only [Line.tolerates, Bool.and_eq_true] at htolerates ⊢
    exact ⟨htolerates.1, rfl⟩
  | cli => rfl
  | sti => rfl
  | _ => cases htolerates

theorem ends_lowerHandler (v : Var) (level : Bool) (hU : Tame U l) (hcalm : l.calm = true)
    (h : Shows U l t w) {vec : ℕ} {rest : List ℕ} (hservice : l.inService = vec :: rest)
    (hmode : t.tmr vec = level) :
    Ends (lowerHandler v) w fun _ => Shows U ((l.setHigh false).eoi level)
      ((t.set v (t.vars v + 1)).eoi level (l.setHigh false)) := by
  refine Prog.ensures_then (ends_increment v hU hcalm h) fun _ w h => ?_
  refine Prog.ensures_then (ends_lower hU hcalm h) fun _ w h => ?_
  exact ends_eoi level (tame_low hU) hcalm h hservice hmode

theorem ends_levelIntr (h : Rests Alone platform vars taken w) :
    Ends testIoapicLevelIntr w fun _ =>
      Rests Alone platform (bump .gIsr77 vars) (bump .isr77 taken) := by
  obtain ⟨word, t, rfl, rfl, h, rfl⟩ := h
  refine ends_arm 0x77 .isr77 .level (tame_alone _) h fun w h => ?_
  refine Prog.ensures_then (ends_raise (tame_alone _) rfl (.inl rfl) h) fun _ w h => ?_
  refine ends_handler 0x77 .isr77 h (tame_alone _) (tame_alone _) rfl rfl
    (fun w h => ends_lowerHandler .gIsr77 true (tame_alone _) rfl h rfl rfl) rfl fun w h => ?_
  refine Prog.ensures_mono (fun _ w h => ?_) (ends_nop (tame_alone _) rfl h)
  exact ⟨_, _, rfl, rfl, h, rfl⟩

theorem ends_edgeIntr (h : Rests Alone platform vars taken w) :
    Ends testIoapicEdgeIntr w fun _ =>
      Rests Alone platform (bump .gIsr76 vars) (bump .isr76 taken) := by
  obtain ⟨word, t, rfl, rfl, h, rfl⟩ := h
  refine ends_arm 0x76 .isr76 .edge (tame_alone _) h fun w h => ?_
  refine Prog.ensures_bind (Prog.ensures_then (ends_raise (tame_alone _) rfl (.inr rfl) h)
    fun _ w h => ?_)
  -- the line is still high when the handler returns
  refine ends_handler 0x76 .isr76 h (tame_alone _) (tame_alone _) rfl rfl
    (fun w h => Prog.ensures_then (ends_increment .gIsr76 (tame_alone _) rfl h) fun _ w h =>
      ends_eoi_edge (tame_alone _) rfl h rfl rfl) rfl fun w h => ?_
  refine Prog.ensures_mono (fun _ w h => ?_) (ends_lower (tame_alone _) rfl h)
  refine Prog.ensures_mono (fun _ w h => ?_) (ends_nop (tame_alone _) rfl h)
  exact ⟨_, _, rfl, rfl, h, rfl⟩

/-- What the handler of 0x66 counts, with `g_78` at its new value. -/
def after78 (vars : Var → U32) : Var → U32 :=
  if vars .g78 ≠ 0 then bump .g66After78 vars else vars

theorem ends_isr66 {rest : List ℕ} (hU : Tame U l) (hcalm : l.calm = true) (h : Shows U l t w)
    (hservice : l.inService = 0x66 :: rest) (hmode : t.tmr 0x66 = false) :
    Ends ioapicIsr66 w fun _ => Shows U (l.setService rest)
      { t with vars := after78 (bump .g66 t.vars) } := by
  refine Prog.ensures_then (ends_increment .g66 hU hcalm h) fun _ w h => ?_
  refine Prog.ensures_then (ends_load .g78 hU hcalm h) ?_
  rintro x w ⟨rfl, h⟩
  dsimp only
  have hx : (t.set .g66 (t.vars .g66 + 1)).vars .g78 = bump .g66 t.vars .g78 := rfl
  rw [hx, after78]
  split_ifs with hne
  · refine Prog.ensures_then (ends_increment .g66After78 hU hcalm h) fun _ w h => ?_
    exact ends_eoi_edge hU hcalm h hservice hmode
  · exact ends_eoi_edge hU hcalm h hservice hmode

theorem ends_simultaneous (h : Rests Alone platform vars taken w) :
    Ends testIoapicSimultaneous w fun _ =>
      Rests Alone platform (after78 (bump .g66 (bump .g78 vars)))
        (bump .isr66 (bump .isr78 taken)) := by
  obtain ⟨word, t, rfl, rfl, h, rfl⟩ := h
  refine Prog.ensures_then (ends_handleIrqLocal 0x78 .isr78 (tame_alone _) rfl h) fun _ w h => ?_
  refine Prog.ensures_then (ends_handleIrqLocal 0x66 .isr66 (tame_alone _) rfl h) fun _ w h => ?_
  refine Prog.ensures_then (ends_setIoapicRedir 0x78 .edge (tame_alone _) rfl rfl h)
    fun _ w (h : Shows Alone (Line.idle (redirWord 0x78 .edge)) _ w) => ?_
  refine Prog.ensures_then (ends_setIoapicRedir_other 0x66 .edge (tame_alone _) rfl rfl h)
    fun _ w h => ?_
  refine Prog.ensures_then (ends_cli (tame_alone _) rfl h) fun _ w h => ?_
  refine Prog.ensures_then (ends_toggle_other (redirWord 0x66 .edge) (fun _ h => h) rfl rfl rfl rfl
    rfl h) fun _ w h => ?_
  refine Prog.ensures_bind (Prog.ensures_then (ends_raise (tame_alone _) rfl (.inr rfl) h)
    fun _ w h => ?_)
  refine Prog.ensures_mono (fun _ w h => ?_) (ends_lower (tame_alone _) rfl h)
  refine Prog.ensures_then (ends_sti (tame_alone _) rfl h) fun _ w h => ?_
  -- both requests wait for the end of the `nop`, and the higher one goes first
  rw [← Prog.bind_pure nop]
  refine Prog.ensures_then (ends_held h (tame_alone _) rfl rfl nofun (fun _ _ => rfl)
    (fun _ _ h => h)) fun _ w h => ?_
  refine ends_handler 0x78 .isr78 h (tame_alone _) (tame_alone _) rfl rfl
    (fun w h => Prog.ensures_then (ends_increment .g78 (tame_alone _) rfl h) fun _ w h =>
      ends_eoi_edge (tame_alone _) rfl h rfl rfl) rfl fun w h => ?_
  refine ends_handler 0x66 .isr66 h (tame_alone _) (tame_alone _) rfl rfl
    (fun w h => ends_isr66 (tame_alone _) rfl h rfl rfl) rfl fun w h => ?_
  exact Prog.ensures_pure ⟨_, _, rfl, rfl, h, rfl⟩

/-- The second edge inside of the handler is lost: the line waits for the EOI. -/
theorem ends_isr98 (h : Shows Alone
      ⟨true, redirWord 0x98 .level, [], [0x98], true, false, false, false⟩ t w)
    (hmode : t.tmr 0x98 = true) :
    Ends ioapicIsr98 w fun _ =>
      Shows Alone { Line.idle (redirWord 0x98 .level) with irqFlag := false }
        (t.set .gIsr98 (t.vars .gIsr98 + 1)) := by
  have hlast : ∀ w, Shows Alone ⟨true, redirWord 0x98 .level, [], [0x98], true, false, false, false⟩
      (t.set .gIsr98 (t.vars .gIsr98 + 1)) w →
      Ends ((setIrqLine 0x0e 0).bind fun _ => eoi) w fun _ =>
        Shows Alone { Line.idle (redirWord 0x98 .level) with irqFlag := false }
          (t.set .gIsr98 (t.vars .gIsr98 + 1)) := fun w h =>
    Prog.ensures_then (ends_lower (tame_alone _) rfl h) fun _ w h =>
      ends_eoi true (tame_alone _) rfl h rfl hmode
  refine Prog.ensures_then (ends_increment .gIsr98 (tame_alone _) rfl h) fun _ w h => ?_
  refine Prog.ensures_then (ends_load .gIsr98 (tame_alone _) rfl h) ?_
  rintro x w ⟨-, h⟩
  dsimp only
  split_ifs
  · refine Prog.ensures_then (ends_lower (tame_alone _) rfl h) fun _ w h => ?_
    exact Prog.ensures_then (ends_raise (tame_alone _) rfl (.inl rfl) h) fun _ w h => hlast w h
  · exact hlast w h

theorem ends_levelCoalesce (h : Rests Alone platform vars taken w) :
    Ends testIoapicLevelCoalesce w fun _ =>
      Rests Alone platform (bump .gIsr98 vars) (bump .isr98 taken) := by
  obtain ⟨word, t, rfl, rfl, h, rfl⟩ := h
  refine ends_arm 0x98 .isr98 .level (tame_alone _) h fun w h => ?_
  refine Prog.ensures_then (ends_raise (tame_alone _) rfl (.inl rfl) h) fun _ w h => ?_
  refine ends_handler 0x98 .isr98 h (tame_alone _) (tame_alone _) rfl rfl
    (fun w h => ends_isr98 h rfl) rfl fun w h => ?_
  refine Prog.ensures_mono (fun _ w h => ?_) (ends_nop (tame_alone _) rfl h)
  exact ⟨_, _, rfl, rfl, h, rfl⟩

/-- Each of the two raises is heard, since the handler lowers the line in between. -/
theorem ends_levelSequential (h : Rests Alone platform vars taken w) :
    Ends testIoapicLevelSequential w fun _ =>
      Rests Alone platform (bump .gIsr99 (bump .gIsr99 vars))
        (bump .isr99 (bump .isr99 taken)) := by
  obtain ⟨word, t, rfl, rfl, h, rfl⟩ := h
  refine ends_arm 0x99 .isr99 .level (tame_alone _) h fun w h => ?_
  refine Prog.ensures_then (ends_raise (tame_alone _) rfl (.inl rfl) h) fun _ w h => ?_
  refine ends_handler 0x99 .isr99 h (tame_alone _) (tame_alone _) rfl rfl
    (fun w h => ends_lowerHandler .gIsr99 true (tame_alone _) rfl h rfl rfl) rfl fun w h => ?_
  refine Prog.ensures_then (ends_raise (tame_alone _) rfl (.inl rfl) h) fun _ w h => ?_
  refine ends_handler 0x99 .isr99 h (tame_alone _) (tame_alone _) rfl rfl
    (fun w h => ends_lowerHandler .gIsr99 true (tame_alone _) rfl h rfl rfl) rfl fun w h => ?_
  refine Prog.ensures_mono (fun _ w h => ?_) (ends_nop (tame_alone _) rfl h)
  exact ⟨_, _, rfl, rfl, h, rfl⟩

/-- The high line is heard in the middle of the `set_mask` that unmasks it. -/
theorem ends_levelMask (h : Rests Alone platform vars taken w) :
    Ends testIoapicLevelMask w fun _ =>
      Rests Alone platform (bump .gIsr82 vars) (bump .isr82 taken) := by
  obtain ⟨word, t, rfl, rfl, h, rfl⟩ := h
  refine ends_arm 0x82 .isr82 .level (tame_alone _) h fun w h => ?_
  refine Prog.ensures_then (ends_setMask 1 (tame_alone _) (tame_alone _) rfl rfl rfl h)
    fun _ w h => ?_
  refine Prog.ensures_then (ends_raise (tame_alone _) rfl (.inl rfl) h) fun _ w h => ?_
  refine Prog.ensures_then (ends_nop (tame_alone _) rfl h) fun _ w h => ?_
  refine Prog.ensures_bind (ends_setMask_then 0 (tame_alone _) rfl rfl (fun hi w h => ?_) h)
  refine ends_handler 0x82 .isr82 h (tame_alone _) (tame_alone _) rfl rfl
    (fun w h => ends_lowerHandler .gIsr82 true (tame_alone _) rfl h rfl rfl) rfl fun w h => ?_
  refine Prog.ensures_mono (fun _ w h => ?_) (ends_writeBack hi (tame_alone _) rfl rfl h)
  refine Prog.ensures_mono (fun _ w h => ?_) (ends_nop (tame_alone _) rfl h)
  exact ⟨_, _, rfl, rfl, h, rfl⟩

theorem ends_isr83 (h : Shows Alone
      ⟨true, redirWord 0x83 .level, [], [0x83], true, false, false, false⟩ t w)
    (hmode : t.tmr 0x83 = true) :
    Ends ioapicIsr83 w fun _ =>
      Shows Alone ⟨true, RedirEntry.maskWord (redirWord 0x83 .level) 1, [], [], false, false, false,
          false⟩
        ((t.set .gIsr83 (t.vars .gIsr83 + 1)).select (hiReg 0x0e)) := by
  refine Prog.ensures_then (ends_increment .gIsr83 (tame_alone _) rfl h) fun _ w h => ?_
  refine Prog.ensures_then (ends_setMask 1 (tame_alone _) (tame_alone _) rfl rfl rfl h)
    fun _ w h => ?_
  exact ends_eoi true (tame_alone _) rfl h rfl hmode

/-- The handler masks the entry, and the `set_mask` of the test is broken off a second time. -/
theorem ends_levelRetriggerMask (h : Rests Alone platform vars taken w) :
    Ends testIoapicLevelRetriggerMask w fun _ =>
      Rests Alone platform (bump .gIsr83 (bump .gIsr83 vars))
        (bump .isr83 (bump .isr83 taken)) := by
  obtain ⟨word, t, rfl, rfl, h, rfl⟩ := h
  refine ends_arm 0x83 .isr83 .level (tame_alone _) h fun w h => ?_
  refine Prog.ensures_then (ends_raise (tame_alone _) rfl (.inl rfl) h) fun _ w h => ?_
  refine ends_handler 0x83 .isr83 h (tame_alone _) (tame_alone _) rfl rfl
    (fun w h => ends_isr83 h rfl) rfl fun w h => ?_
  refine Prog.ensures_then (ends_nop (tame_alone _) rfl h) fun _ w h => ?_
  refine Prog.ensures_bind (ends_setMask_then 0 (tame_alone _) rfl rfl (fun hi w h => ?_) h)
  refine ends_handler 0x83 .isr83 h (tame_alone _) (tame_alone _) rfl rfl
    (fun w h => ends_isr83 h rfl) rfl fun w h => ?_
  refine Prog.ensures_mono (fun _ w h => ?_) (ends_writeBack hi (tame_alone _) rfl rfl h)
  refine Prog.ensures_then (ends_nop (tame_alone _) rfl h) fun _ w h => ?_
  refine Prog.ensures_then (ends_lower (tame_alone _) rfl h) fun _ w h => ?_
  refine Prog.ensures_mono (fun _ w h => ?_)
    (ends_setMask 0 (tame_alone _) (tame_alone _) rfl rfl rfl h)
  exact ⟨_, _, rfl, rfl, h, rfl⟩

/-- The handler of the trigger mode tests stores the bit of its vector. -/
theorem ends_isr79 (level : Bool) (hU : Tame U l) (hcalm : l.calm = true) (h : Shows U l t w)
    {rest : List ℕ} (hservice : l.inService = 0x79 :: rest) (hmode : t.tmr 0x79 = level) :
    Ends ioapicIsr79 w fun _ => Shows U ((l.setHigh false).eoi level)
      ((t.set .gTmr79 (if level then 1 else 0)).eoi level (l.setHigh false)) := by
  refine Prog.ensures_then (ends_apicReadBit hU hcalm h) ?_
  rintro bit w ⟨rfl, h⟩
  rw [hmode]
  refine Prog.ensures_then (ends_store .gTmr79 _ hU hcalm h) fun _ w h => ?_
  refine Prog.ensures_then (ends_lower hU hcalm h) fun _ w h => ?_
  exact ends_eoi level (tame_low hU) hcalm h hservice hmode

theorem ends_edgeTmr (h : Rests Alone platform vars taken w) :
    Ends testIoapicEdgeTmr w fun _ =>
      Rests Alone platform (Function.update vars .gTmr79 0) (bump .isr79 taken) := by
  obtain ⟨word, t, rfl, rfl, h, rfl⟩ := h
  refine ends_arm 0x79 .isr79 .edge (tame_alone _) h fun w h => ?_
  refine Prog.ensures_then (ends_apicReadBit (tame_alone _) rfl h) fun _ w h => ?_
  refine Prog.ensures_bind (Prog.ensures_then (ends_raise (tame_alone _) rfl (.inr rfl) h.2)
    fun _ w h => ?_)
  refine ends_handler 0x79 .isr79 h (tame_alone _) (tame_alone _) rfl rfl
    (fun w h => ends_isr79 false (tame_alone _) rfl h rfl rfl) rfl fun w h => ?_
  refine Prog.ensures_mono (fun _ w h => ?_) (ends_lower (tame_alone _) rfl h)
  refine Prog.ensures_mono (fun _ w h => ?_) (ends_nop (tame_alone _) rfl h)
  exact ⟨_, _, rfl, rfl, h, rfl⟩

theorem ends_levelTmr (h : Rests Alone platform vars taken w) :
    Ends testIoapicLevelTmr w fun _ =>
      Rests Alone platform (Function.update vars .gTmr79 1) (bump .isr79 taken) := by
  obtain ⟨word, t, rfl, rfl, h, rfl⟩ := h
  refine ends_arm 0x79 .isr79 .level (tame_alone _) h fun w h => ?_
  refine Prog.ensures_then (ends_apicReadBit (tame_alone _) rfl h) fun _ w h => ?_
  refine Prog.ensures_then (ends_raise (tame_alone _) rfl (.inl rfl) h.2) fun _ w h => ?_
  refine ends_handler 0x79 .isr79 h (tame_alone _) (tame_alone _) rfl rfl
    (fun w h => ends_isr79 true (tame_alone _) rfl h rfl rfl) rfl fun w h => ?_
  refine Prog.ensures_mono (fun _ w h => ?_) (ends_nop (tame_alone _) rfl h)
  exact ⟨_, _, rfl, rfl, h, rfl⟩

end Single

section Retrigger

variable {t : Slate} {w : World} {α : Type} {Q : α → World → Prop} {platform : Platform}
  {vars : Var → U32} {taken : Isr → ℕ}

/-- The line of the retrigger test is high and was accepted. -/
def storm (irqFlag halted : Bool) : Line :=
  ⟨true, redirWord 0x9a .level, [0x9a], [], true, irqFlag, false, halted⟩

theorem ends_isr9a_last
    (h : Shows Alone ⟨true, redirWord 0x9a .level, [], [0x9a], true, false, false, false⟩ t w)
    (hmode : t.tmr 0x9a = true) (hcount : t.vars .gIsr9a + 1 = 2) :
    Ends ioapicIsr9a w fun _ => Shows Alone ((Line.idle (redirWord 0x9a .level)).setFlag false)
      (t.set .gIsr9a 2) := by
  refine Prog.ensures_then (ends_increment .gIsr9a (tame_alone _) rfl h) fun _ w h => ?_
  rw [hcount] at h
  refine Prog.ensures_then (ends_load .gIsr9a (tame_alone _) rfl h) ?_
  rintro x w ⟨rfl, h⟩
  dsimp only
  rw [Slate.set_self, if_pos rfl]
  refine Prog.ensures_then (ends_lower (tame_alone _) rfl h) fun _ w h => ?_
  exact ends_eoi true (tame_alone _) rfl h rfl hmode

/-- Before the counter passes 2, the EOI lets the line be heard again. -/
theorem ends_isr9a_again
    (h : Shows Alone ⟨true, redirWord 0x9a .level, [], [0x9a], true, false, false, false⟩ t w)
    (hmode : t.tmr 0x9a = true) (hcount : t.vars .gIsr9a + 1 ≠ 2) :
    Ends ioapicIsr9a w fun _ => Shows Alone (storm false false)
      ((t.set .gIsr9a (t.vars .gIsr9a + 1)).accept 0x9a true) := by
  refine Prog.ensures_then (ends_increment .gIsr9a (tame_alone _) rfl h) fun _ w h => ?_
  refine Prog.ensures_then (ends_load .gIsr9a (tame_alone _) rfl h) ?_
  rintro x w ⟨rfl, h⟩
  dsimp only
  rw [Slate.set_self, if_neg hcount]
  exact ends_eoi true (tame_alone _) rfl h rfl hmode

/-- The slate after a run of the handler that leaves the line high. -/
def Slate.again (t : Slate) : Slate :=
  ((t.enter .isr9a).set .gIsr9a (t.vars .gIsr9a + 1)).accept 0x9a true

theorem again_count (t : Slate) : t.again.vars .gIsr9a = t.vars .gIsr9a + 1 :=
  Slate.set_self .gIsr9a (t.vars .gIsr9a + 1) (t.enter .isr9a)

theorem again_taken (t : Slate) :
    t.again.taken = Function.update t.taken .isr9a (t.taken .isr9a + 1) := rfl

/-- How often the handler runs from a counter on, up to the run that lowers the line. -/
def retriggers (c : U32) : ℕ := (1 - c).toNat + 1

/-- The storm of interrupts goes on until the counter has wrapped around to 2. -/
theorem ends_storm {p : IoapicProg α} {halted : Bool} (h : Shows Alone (storm true halted) t w)
    (hgate : t.idt 0x9a = some .isr9a) (hmode : t.tmr 0x9a = true)
    (hnext : ∀ t' w, t'.platform = t.platform → t'.idt = t.idt →
      t'.vars = Function.update t.vars .gIsr9a 2 →
      t'.taken = Function.update t.taken .isr9a
        (t.taken .isr9a + retriggers (t.vars .gIsr9a)) →
      Shows Alone (Line.idle (redirWord 0x9a .level)) t' w → Ends p w Q) : Ends p w Q := by
  generalize hm : (1 - t.vars .gIsr9a).toNat = m
  induction m generalizing t w halted with
  | zero =>
    have hcount : t.vars .gIsr9a + 1 = 2 := by bv_omega
    refine ends_handler 0x9a .isr9a h (tame_alone _) (tame_alone _) rfl hgate
      (fun w h => ends_isr9a_last h hmode hcount) rfl fun w h => ?_
    refine hnext ((t.enter .isr9a).set .gIsr9a 2) w rfl rfl rfl ?_ h
    rw [retriggers, hm]
    rfl
  | succ m ih =>
    have hcount : t.vars .gIsr9a + 1 ≠ 2 := by bv_omega
    have hleft : (1 - (t.vars .gIsr9a + 1)).toNat = m := by bv_omega
    refine ends_handler 0x9a .isr9a h (tame_alone _) (tame_alone _) rfl hgate
      (fun w h => ends_isr9a_again h hmode hcount) rfl fun w h => ?_
    refine ih (t := t.again) h hgate rfl (fun t' w hplatform hidt hvars htaken h =>
      hnext t' w hplatform hidt (hvars.trans (Function.update_idem ..)) ?_ h)
      (again_count t ▸ hleft)
    have hruns : retriggers (t.vars .gIsr9a) = 1 + retriggers (t.vars .gIsr9a + 1) := by
      rw [retriggers, retriggers, hm, hleft, Nat.add_comm]
    rw [htaken, again_count, again_taken, Function.update_self, hruns, ← Nat.add_assoc]
    exact Function.update_idem ..

/-- The counters after the retrigger test. -/
def retriggered (vars : Var → U32) : Var → U32 := Function.update vars .gIsr9a 2

def stormed (vars : Var → U32) (taken : Isr → ℕ) : Isr → ℕ :=
  Function.update taken .isr9a (taken .isr9a + retriggers (vars .gIsr9a))

/-- The end of the retrigger test, at its last `sti`. A counter that was at 2 from the start has
kept the test from waiting, and its interrupts are still to come. -/
def Retriggered (platform : Platform) (vars : Var → U32) (taken : Isr → ℕ) (w : World) : Prop :=
  ∃ t, t.platform = platform ∧
    ((t.vars = retriggered vars ∧ t.taken = stormed vars taken ∧
      Shows Alone ((Line.idle (redirWord 0x9a .level)).setFlag false).enable t w) ∨
    (vars .gIsr9a = 2 ∧ t.vars = vars ∧ t.taken = taken ∧ t.idt 0x9a = some .isr9a ∧
      t.tmr 0x9a = true ∧ Shows Alone (storm false false).enable t w))

theorem retriggerRounds_succ (i : ℕ) :
    retriggerRounds (i + 1) = (load .gIsr9a).bind fun x => if x = 2 then .pure () else
      irqEnable.bind fun _ => (Prog.call Cmd.hlt).bind fun _ => irqDisable.bind fun _ =>
        retriggerRounds i := rfl

theorem ends_rounds_done {l : Line} (i : ℕ) (hcalm : l.calm = true) (h : Shows Alone l t w)
    (hcount : t.vars .gIsr9a = 2) : Ends (retriggerRounds i) w fun _ => Shows Alone l t := by
  cases i with
  | zero => exact Prog.ensures_pure h
  | succ i =>
    rw [retriggerRounds_succ]
    refine Prog.ensures_then (ends_load .gIsr9a (tame_alone _) hcalm h) ?_
    rintro x w ⟨rfl, h⟩
    rw [if_pos hcount]
    exact Prog.ensures_pure h

/-- A round that waits takes all the interrupts there are. -/
theorem ends_rounds_wait (i : ℕ) (h : Shows Alone (storm false false) t w)
    (hgate : t.idt 0x9a = some .isr9a) (hmode : t.tmr 0x9a = true)
    (hcount : t.vars .gIsr9a ≠ 2) :
    Ends (retriggerRounds (i + 1)) w fun _ w' => ∃ t', t'.platform = t.platform ∧
      t'.vars = retriggered t.vars ∧ t'.taken = stormed t.vars t.taken ∧
      Shows Alone ((Line.idle (redirWord 0x9a .level)).setFlag false) t' w' := by
  rw [retriggerRounds_succ]
  refine Prog.ensures_then (ends_load .gIsr9a (tame_alone _) rfl h) ?_
  rintro x w ⟨rfl, h⟩
  rw [if_neg hcount]
  refine Prog.ensures_then (ends_sti (tame_alone _) rfl h) fun _ w h => ?_
  have hhalt : ∀ (w : World) (out : Outside), Shows Alone (storm false false).enable t w →
      Shows Alone { storm true true with shadow := true } t (w.effect out .hlt).2 :=
    fun _ _ h => { h with halted := rfl }
  refine Prog.ensures_then (ends_held h (tame_alone _) rfl rfl nofun (fun _ _ => rfl) hhalt)
    fun _ w h => ?_
  refine ends_storm h hgate hmode fun t' w hplatform _ hvars htaken h => ?_
  refine Prog.ensures_then (ends_cli (tame_alone _) rfl h) fun _ w h => ?_
  have hdone : t'.vars .gIsr9a = 2 := by rw [hvars, Function.update_self]
  exact Prog.ensures_mono (fun _ w h => ⟨t', hplatform, hvars, htaken, h⟩)
    (ends_rounds_done i rfl h hdone)

theorem ends_levelRetrigger (h : Rests Alone platform vars taken w) :
    Ends testIoapicLevelRetrigger w fun _ => Retriggered platform vars taken := by
  obtain ⟨word, t, rfl, rfl, h, rfl⟩ := h
  refine ends_arm 0x9a .isr9a .level (tame_alone _) h fun w h => ?_
  refine Prog.ensures_then (ends_cli (tame_alone _) rfl h) fun _ w h => ?_
  refine Prog.ensures_then (ends_raise (tame_alone _) rfl (.inl rfl) h)
    fun _ w (h : Shows Alone (storm false false) _ w) => ?_
  by_cases hcount : t.vars .gIsr9a = 2
  · refine Prog.ensures_then (ends_rounds_done 10 rfl h hcount) fun _ w h => ?_
    refine Prog.ensures_mono (fun _ w h => ?_) (ends_sti (tame_alone _) rfl h)
    refine ⟨_, ?_, .inr ⟨hcount, ?_, ?_, ?_, ?_, h⟩⟩ <;> rfl
  · refine Prog.ensures_then (ends_rounds_wait 9 h rfl rfl hcount) ?_
    rintro _ w ⟨t', hplatform, hvars, htaken, h⟩
    refine Prog.ensures_mono (fun _ w h => ?_) (ends_sti (tame_alone _) rfl h)
    exact ⟨t', hplatform, .inl ⟨hvars, htaken, h⟩⟩

/-- The first access of the next test is held by the `sti`; interrupts that are still to come
come after it. -/
theorem ends_install_retriggered (h : Retriggered platform vars taken w) :
    Ends (handleIrqLocal 0x81 .isr81) w fun _ w' => ∃ word t, t.idt 0x81 = some .isr81 ∧
      t.platform = platform ∧ t.vars = retriggered vars ∧ t.taken = stormed vars taken ∧
      Shows Alone (Line.idle word) t w' := by
  rw [← Prog.bind_pure (handleIrqLocal 0x81 .isr81)]
  obtain ⟨t, rfl, ⟨hvars, htaken, h⟩ | ⟨hcount, rfl, rfl, hgate, hmode, h⟩⟩ := h
  · refine Prog.ensures_then (ends_held h (tame_alone _) rfl rfl nofun (fun _ _ => rfl)
      (fun _ out h => shows_install 0x81 .isr81 out h)) fun _ w h => ?_
    exact Prog.ensures_pure
      ⟨redirWord 0x9a .level, t.install 0x81 .isr81, rfl, rfl, hvars, htaken, h⟩
  · refine Prog.ensures_then (ends_held h (tame_alone _) rfl rfl nofun (fun _ _ => rfl)
      (fun _ out h => shows_install 0x81 .isr81 out h))
      fun _ w (h : Shows Alone (storm true false) (t.install 0x81 .isr81) w) => ?_
    refine ends_storm h hgate hmode fun t' w hplatform hidt hvars htaken h => ?_
    exact Prog.ensures_pure ⟨_, t', congrFun hidt 0x81, hplatform, hvars, htaken, h⟩

/-- The edge at the masked entry is lost. -/
theorem ends_edgeMask (h : Retriggered platform vars taken w) :
    Ends testIoapicEdgeMask w fun _ =>
      Rests Alone platform (bump .gIsr81 (retriggered vars))
        (bump .isr81 (stormed vars taken)) := by
  refine Prog.ensures_then (ends_install_retriggered h) ?_
  rintro _ w ⟨word, t, hgate, hplatform, hvars, htaken, h⟩
  refine Prog.ensures_then (ends_setIoapicRedir 0x81 .edge (tame_alone _) rfl rfl h)
    fun _ w (h : Shows Alone (Line.idle (redirWord 0x81 .edge)) _ w) => ?_
  refine Prog.ensures_then (ends_setMask 1 (tame_alone _) (tame_alone _) rfl rfl rfl h)
    fun _ w h => ?_
  refine Prog.ensures_then (ends_raise (tame_alone _) rfl (.inr rfl) h) fun _ w h => ?_
  refine Prog.ensures_then (ends_lower (tame_alone _) rfl h) fun _ w h => ?_
  refine Prog.ensures_then (ends_nop (tame_alone _) rfl h) fun _ w h => ?_
  refine Prog.ensures_then (ends_setMask 0 (tame_alone _) (tame_alone _) rfl rfl rfl h)
    fun _ w h => ?_
  refine Prog.ensures_then (ends_raise (tame_alone _) rfl (.inr rfl) h) fun _ w h => ?_
  refine ends_handler 0x81 .isr81 h (tame_alone _) (tame_alone _) rfl hgate
    (fun w h => ends_lowerHandler .gIsr81 false (tame_alone _) rfl h rfl rfl) rfl fun w h => ?_
  refine Prog.ensures_mono (fun _ w h => ?_) (ends_nop (tame_alone _) rfl h)
  exact ⟨_, _, congrArg (bump .gIsr81) hvars, congrArg (bump .isr81) htaken, h, hplatform⟩

end Retrigger

end PcmTest.Ioapic
