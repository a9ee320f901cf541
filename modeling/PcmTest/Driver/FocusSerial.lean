import PcmTest.Driver.FocusTasks

/-!
# Calls of `icmp_test` that do not overlap

The statics of icmp.c and the pointer to the caller's stack are right for the
message only while no other task is in `icmp_test`. With that, each task assigns to
them as a sequential program would, and each socket gets one message, with the
text that its caller wrote. Without it a message can be read from an array that
its owner has left.
-/

namespace PcmTest.Driver.FocusTest

open Theory Kernel

variable {ι : Type} [DecidableEq ι]

/-- The echo request, and the text behind it. -/
def helloPacket : Packet := [8, 0, 0, 0, 0xd2, 0x04, 1, 0] ++ hello

/-- The message that icmp.c means to send. -/
def helloMessage (owner : ι) (sock : Socket) : Message ι :=
  ⟨owner, .kernelDs, sock, some ⟨afInet, 0, inAton 192 168 199 1⟩, some helloPacket, 13⟩

/-- The sockets that have had their message, in the order of the messages. -/
def used (k : Kernel ι) : List (ι × Socket) := k.sent.map fun m => (m.owner, m.sock)

/-- The invariant when calls of `icmp_test` do not overlap. -/
structure Orderly (k : Kernel ι) : Prop where
  port : k.memory.addrIn.port = 0
  sent : ∀ m ∈ k.sent, m = helloMessage m.owner m.sock
  used : k.inside = ∅ → k.sockets = used k

/-- Nothing that icmp.c works with has changed. -/
structure Untouched (k k' : Kernel ι) : Prop where
  memory : k'.memory = k.memory
  inside : k'.inside = k.inside
  sockets : k'.sockets = k.sockets
  sent : k'.sent = k.sent

structure RelyAlone (i : ι) (k k' : Kernel ι) : Prop where
  alone : k.inside = {i} → Untouched k k'
  outside : i ∉ k.inside → i ∉ k'.inside
  limits : k'.limits i = k.limits i

def GuaranteeAlone (i : ι) (k k' : Kernel ι) : Prop := ∀ j, j ≠ i → RelyAlone j k k'

/-- What a command of the task asks for. -/
def FocusCmd.Alone (self : ι) (k : Kernel ι) : FocusCmd ι → Prop
  | .sockCreate _ _ _ | .assign _ => k.inside = {self}
  | .leave => k.inside = {self} ∧ k.sockets = used k
  | .sockSendmsg sock size => k.inside = {self} ∧ k.message self sock size = helloMessage self sock
  | _ => True

variable {self : ι} {c : FocusCmd ι} {k k' : Kernel ι}

omit [DecidableEq ι] in
theorem untouched_refl (k : Kernel ι) : Untouched k k := ⟨rfl, rfl, rfl, rfl⟩

omit [DecidableEq ι] in
theorem relyAlone_refl (i : ι) (k : Kernel ι) : RelyAlone i k k :=
  ⟨fun _ => untouched_refl k, fun h => h, rfl⟩

omit [DecidableEq ι] in
theorem relyAlone_trans (i : ι) (k₁ k₂ k₃ : Kernel ι) (h : RelyAlone i k₁ k₂)
    (h' : RelyAlone i k₂ k₃) : RelyAlone i k₁ k₃ := by
  refine ⟨fun hi => ?_, fun hi => h'.outside (h.outside hi), h'.limits.trans h.limits⟩
  have h₁ := h.alone hi
  have h₂ := h'.alone (h₁.inside.trans hi)
  exact ⟨h₂.memory.trans h₁.memory, h₂.inside.trans h₁.inside, h₂.sockets.trans h₁.sockets,
    h₂.sent.trans h₁.sent⟩

omit [DecidableEq ι] in
theorem singleton_ne {i j : ι} (hij : j ≠ i) (h : k.inside = {i}) : k.inside ≠ {j} := by
  rw [h]
  exact fun heq => hij (Finset.singleton_injective heq).symm

/-- A step of one task, as the others see it. -/
theorem guaranteeAlone_moves (h : Moves true self k c k') (hc : c.Alone self k) :
    GuaranteeAlone self k k' := by
  intro j hj
  cases h with
  | quiet => exact relyAlone_refl j k
  | enter data hserial =>
    refine ⟨fun hk => ?_, fun hout => ?_, rfl⟩
    · exact absurd (hk.symm.trans (hserial rfl)) (Finset.singleton_ne_empty j)
    · exact fun hin => (Finset.mem_insert.mp hin).elim hj hout
  | leave =>
    refine ⟨fun hk => absurd hk (singleton_ne hj hc.1), fun hout => ?_, rfl⟩
    exact fun hin => hout (Finset.mem_of_mem_erase hin)
  | created hs => exact ⟨fun hk => absurd hk (singleton_ne hj hc), fun hout => hout, rfl⟩
  | assign a => exact ⟨fun hk => absurd hk (singleton_ne hj hc), fun hout => hout, rfl⟩
  | setFs seg =>
    exact ⟨fun _ => ⟨rfl, rfl, rfl, rfl⟩, fun hout => hout, Function.update_of_ne hj _ _⟩
  | sent sock size => exact ⟨fun hk => absurd hk (singleton_ne hj hc.1), fun hout => hout, rfl⟩
  | mapped phys size => exact ⟨fun _ => ⟨rfl, rfl, rfl, rfl⟩, fun hout => hout, rfl⟩

theorem orderly_moves (h : Moves true self k c k') (hc : c.Alone self k) (hk : Orderly k) :
    Orderly k' := by
  obtain ⟨hport, hsent, hused⟩ := hk
  have hne : k.inside = {self} → k.inside ≠ ∅ := fun h => h ▸ Finset.singleton_ne_empty self
  cases h with
  | quiet => exact ⟨hport, hsent, hused⟩
  | enter data hserial =>
    exact ⟨hport, hsent, fun h => absurd h (Finset.insert_ne_empty _ _)⟩
  | leave => exact ⟨hport, hsent, fun _ => hc.2⟩
  | created hs => exact ⟨hport, hsent, fun h => absurd h (hne hc)⟩
  | assign a => exact ⟨(port_assign a).trans hport, hsent, fun h => absurd h (hne hc)⟩
  | setFs seg => exact ⟨hport, hsent, hused⟩
  | sent sock size =>
    refine ⟨hport, fun m hm => ?_, fun h => absurd h (hne hc.1)⟩
    rcases List.mem_append.mp hm with hm | hm
    · exact hsent m hm
    · rw [List.mem_singleton.mp hm, hc.2]
      rfl
  | mapped phys size => exact ⟨hport, hsent, hused⟩

abbrev owesAlone (self : ι) {α : Type} (p : FocusProg ι α) (Q : α → Kernel ι → Prop) :
    Kernel ι → Prop :=
  p.rg (effect true self) Orderly (RelyAlone self) (GuaranteeAlone self) Q

theorem owesAlone_call {α : Type} {f : c.Answer → FocusProg ι α} {Q : α → Kernel ι → Prop}
    (h : ∀ k₁, RelyAlone self k k₁ → Orderly k₁ → ∀ x k₂, effect true self c x k₁ = some k₂ →
      c.Alone self k₁ ∧ owesAlone self (f x) Q k₂) :
    owesAlone self ((Prog.call c).bind f) Q k := by
  refine rg_command (fun c k k' hmoves (hc : c.Alone self k) hk => ?_) h
  exact ⟨orderly_moves hmoves hc hk, guaranteeAlone_moves hmoves hc⟩

/-- The task is the one inside, with this limit, this memory, and these sockets to send on. -/
structure Holding (i : ι) (limit : Segment) (m : Memory ι) (fresh : List (ι × Socket))
    (k : Kernel ι) : Prop where
  inside : k.inside = {i}
  limits : k.limits i = limit
  memory : k.memory = m
  sockets : k.sockets = used k ++ fresh

variable {limit : Segment} {m : Memory ι} {fresh : List (ι × Socket)}

omit [DecidableEq ι] in
theorem holding_rely (hR : RelyAlone self k k') (h : Holding self limit m fresh k) :
    Holding self limit m fresh k' := by
  have hsame := hR.alone h.inside
  refine ⟨hsame.inside.trans h.inside, hR.limits.trans h.limits, hsame.memory.trans h.memory, ?_⟩
  rw [hsame.sockets, used, hsame.sent]
  exact h.sockets

/-- An assignment by the one task inside is as in a sequential program. -/
theorem owesAlone_assign {α : Type} {a : Assign ι} {f : Unit → FocusProg ι α}
    {Q : α → Kernel ι → Prop} (h : Holding self limit m fresh k)
    (hnext : ∀ k, Holding self limit (m.assign a) fresh k → owesAlone self (f ()) Q k) :
    owesAlone self ((assign a).bind f) Q k := by
  refine owesAlone_call fun k₁ hR₁ _ u k₂ hx => ⟨(holding_rely hR₁ h).inside, ?_⟩
  cases hx
  have h₁ := holding_rely hR₁ h
  exact hnext _ ⟨h₁.inside, h₁.limits, by rw [h₁.memory], h₁.sockets⟩

theorem owesAlone_assigns {as : List (Assign ι)} (h : Holding self limit m fresh k) :
    owesAlone self (Prog.forEach assign as)
      (fun _ => Holding self limit (as.foldl Memory.assign m) fresh) k := by
  refine Prog.rg_forEach (relyAlone_refl self)
    (fun past => Holding self limit (past.foldl Memory.assign m) fresh)
    (fun past k k' hR => holding_rely hR) ?_ h
  intro past a k _ hk
  rw [List.foldl_append]
  exact owesAlone_assign (f := .pure) hk fun k hk k' hR _ => holding_rely hR hk

section Message

/-- What the two `memcpy` leave in the array. -/
theorem overwrite_hello (xs : Packet) {hdr : Packet} (hhdr : hdr.length = 8) :
    (overwrite (overwrite xs 0 hdr) 8 hello).take 13 = hdr ++ hello := by
  have hhello : hello.length = 5 := rfl
  have hfirst : overwrite xs 0 hdr = hdr ++ xs.drop 8 := by simp [overwrite, hhdr]
  have htake : (hdr ++ xs.drop 8).take 8 = hdr := List.take_left' hhdr
  have hlength : (hdr ++ hello).length = 13 := by rw [List.length_append, hhdr, hhello]
  rw [hfirst, overwrite, htake]
  exact List.take_left' hlength

/-- The assignments of `icmp_test`, one after the other. -/
def filled (self : ι) (ret : ℤ) (m : Memory ι) : Memory ι :=
  ((fillMessage self).foldl Memory.assign (m.assign (.retVal ret))).assign (.oldfs .userDs)

theorem sock_filled (ret : ℤ) (m : Memory ι) : (filled self ret m).sock = m.sock := by
  have hfold : ∀ (as : List (Assign ι)) (m : Memory ι),
      (as.foldl Memory.assign m).sock = m.sock := by
    intro as
    induction as with
    | nil => exact fun m => rfl
    | cons a as ih => exact fun m => (ih (m.assign a)).trans (sock_assign a)
  rw [filled, sock_assign, hfold, sock_assign]

theorem message_filled {ret : ℤ} {m : Memory ι} (hport : m.addrIn.port = 0)
    {fresh : List (ι × Socket)} (h : Holding self .kernelDs (filled self ret m) fresh k)
    (sock : Socket) : k.message self sock 13 = helloMessage self sock := by
  have hhdr : (Icmphdr.bytes ⟨icmpEcho, 0, 0, 1234, 1⟩).length = 8 := rfl
  have hname : k.memory.name = some ⟨afInet, 0, inAton 192 168 199 1⟩ := by
    rw [h.memory, ← hport]
    rfl
  have hpayload : k.payload = some helloPacket := by
    have hin : self ∈ k.inside := by simp [h.inside]
    have heq := overwrite_hello (m.data self) hhdr
    unfold payload
    rw [h.memory]
    simp only [filled, fillMessage, List.foldl, Memory.assign, if_pos hin, Function.update_self]
    exact congrArg some heq
  rw [message, h.limits, hname, hpayload]
  rfl

/-- What is left of the call when the array and the socket are there. -/
theorem owesAlone_sendHello {ret : ℤ} {m : Memory ι} (hport : m.addrIn.port = 0)
    (h : Holding self .userDs (m.assign (.retVal ret)) [(self, m.sock)] k) :
    owesAlone self (sendHello self)
      (fun _ => Holding self .userDs (filled self ret m) []) k := by
  refine Prog.rg_bind (relyAlone_refl self) (Prog.rg_mono (fun _ k _ h => ?_) (owesAlone_assigns h))
  refine owesAlone_call fun k₁ hR₁ _ fs k₂ hx => ⟨trivial, ?_⟩
  obtain ⟨rfl, rfl⟩ := effect_getFs hx
  have h₂ := holding_rely hR₁ h
  rw [h₂.limits]
  refine owesAlone_assign h₂ fun k₃ h₃ => ?_
  refine owesAlone_call fun k₄ hR₄ _ u k₅ hx => ⟨trivial, ?_⟩
  cases hx
  have h₄ := holding_rely hR₄ h₃
  have h₅ : Holding self .kernelDs (filled self ret m) [(self, m.sock)]
      { k₄ with limits := Function.update k₄.limits self .kernelDs } :=
    ⟨h₄.inside, Function.update_self .., h₄.memory, h₄.sockets⟩
  refine owesAlone_call fun k₆ hR₆ _ sock k₇ hx => ⟨trivial, ?_⟩
  obtain ⟨rfl, rfl⟩ := effect_loadSock hx
  have h₇ := holding_rely hR₆ h₅
  have hsock : k₇.memory.sock = m.sock := by rw [h₇.memory, sock_filled]
  rw [hsock]
  refine owesAlone_call fun k₈ hR₈ _ u k₉ hx => ?_
  have h₈ := holding_rely hR₈ h₇
  have hmessage := message_filled hport h₈ m.sock
  refine ⟨⟨h₈.inside, hmessage⟩, ?_⟩
  cases hx
  have h₉ : Holding self .kernelDs (filled self ret m) []
      { k₈ with sent := k₈.sent ++ [k₈.message self m.sock (sizeofIcmphdr + 5)] } := by
    refine ⟨h₈.inside, h₈.limits, h₈.memory, ?_⟩
    rw [List.append_nil, used, List.map_append]
    exact h₈.sockets
  refine owesAlone_call fun k₁₀ hR₁₀ _ fs k₁₁ hx => ⟨trivial, ?_⟩
  obtain ⟨rfl, rfl⟩ := effect_loadOldfs hx
  have h₁₁ := holding_rely hR₁₀ h₉
  have hold : k₁₁.memory.oldfs = .userDs := by
    rw [h₁₁.memory]
    rfl
  rw [hold]
  refine owesAlone_call fun k₁₂ hR₁₂ _ u k₁₃ hx => ⟨trivial, ?_⟩
  cases hx
  have h₁₂ := holding_rely hR₁₂ h₁₁
  exact fun k₁₄ hR₁₄ _ => holding_rely hR₁₄
    ⟨h₁₂.inside, Function.update_self .., h₁₂.memory, h₁₂.sockets⟩

end Message

section Callers

/-- Between two calls, and in the tests other than `icmp_test`. -/
structure Outside (i : ι) (k : Kernel ι) : Prop where
  inside : i ∉ k.inside
  limits : k.limits i = .userDs

omit [DecidableEq ι] in
theorem outside_rely (hR : RelyAlone self k k') (h : Outside self k) : Outside self k' :=
  ⟨hR.outside h.inside, hR.limits.trans h.limits⟩

theorem owesAlone_leave {m : Memory ι} (h : Holding self .userDs m [] k) :
    owesAlone self (Prog.call FocusCmd.leave) (fun _ => Outside self) k := by
  refine owesAlone_call fun k₁ hR₁ _ u k₂ hx => ?_
  have h₁ := holding_rely hR₁ h
  refine ⟨⟨h₁.inside, h₁.sockets.trans (List.append_nil _)⟩, ?_⟩
  cases hx
  exact fun k₃ hR₃ _ => outside_rely hR₃ ⟨Finset.notMem_erase self _, h₁.limits⟩

theorem owesAlone_reportFailure {m : Memory ι} (h : Holding self .userDs m [] k) :
    owesAlone self reportFailure (fun _ => Holding self .userDs m []) k := by
  refine owesAlone_call fun k₁ hR₁ _ ret k₂ hx => ⟨trivial, ?_⟩
  simp only [effect, Option.ite_none_right_eq_some, Option.some.injEq] at hx
  obtain ⟨-, rfl⟩ := hx
  refine owesAlone_call fun k₃ hR₃ _ u k₄ hx => ⟨trivial, ?_⟩
  cases hx
  exact fun k₅ hR₅ _ => holding_rely hR₅ (holding_rely hR₃ (holding_rely hR₁ h))

theorem owesAlone_icmpTest (h : Outside self k) :
    owesAlone self (icmpTest self) (fun _ => Outside self) k := by
  refine owesAlone_call fun k₁ hR₁ hk₁ xs k₂ hx => ⟨trivial, ?_⟩
  have h₁ := outside_rely hR₁ h
  -- `icmp_test` was empty, so every socket has had its message.
  have h₂ : Holding self .userDs k₂.memory [] k₂ ∧ k₂.memory.addrIn.port = 0 := by
    simp only [effect, Option.ite_none_left_eq_some, Option.some.injEq, true_and,
      Finset.not_nonempty_iff_eq_empty] at hx
    obtain ⟨hempty, rfl⟩ := hx
    refine ⟨⟨by simp [hempty], h₁.limits, rfl, ?_⟩, hk₁.port⟩
    exact (hk₁.used hempty).trans (List.append_nil _).symm
  obtain ⟨h₂, hport⟩ := h₂
  refine owesAlone_call fun k₃ hR₃ hk₃ created k₄ hx => ?_
  have h₃ := holding_rely hR₃ h₂
  refine ⟨h₃.inside, ?_⟩
  have h₄ : (created.1 < 0 → Holding self .userDs k₂.memory [] k₄) ∧
      (¬ created.1 < 0 → Holding self .userDs { k₂.memory with sock := created.2 }
        [(self, created.2)] k₄) := by
    simp only [effect] at hx
    split_ifs at hx with hret
    · cases hx
      exact ⟨fun _ => h₃, fun h => absurd hret h⟩
    · cases hx
      refine ⟨fun h => absurd h hret, fun _ => ⟨h₃.inside, h₃.limits, by rw [h₃.memory], ?_⟩⟩
      exact congrArg (· ++ [(self, created.2)]) (h₃.sockets.trans (List.append_nil _))
  by_cases hret : created.1 < 0
  · refine owesAlone_assign (h₄.1 hret) fun k₅ h₅ => ?_
    rw [afterCreate, if_pos hret]
    exact Prog.rg_bind (relyAlone_refl self)
      (Prog.rg_mono (fun _ k _ h => owesAlone_leave h) (owesAlone_reportFailure h₅))
  · refine owesAlone_assign (h₄.2 hret) fun k₅ h₅ => ?_
    rw [afterCreate, if_neg hret]
    have hsend := owesAlone_sendHello (m := { k₂.memory with sock := created.2 }) hport h₅
    exact Prog.rg_bind (relyAlone_refl self) (Prog.rg_mono (fun _ k _ h => owesAlone_leave h) hsend)

theorem owesAlone_mmioTest (h : Outside self k) :
    owesAlone self mmioTest (fun _ => Outside self) k := by
  refine owesAlone_call fun k₁ hR₁ _ addr k₂ hx => ⟨trivial, ?_⟩
  have h₂ : Outside self k₂ := by
    have h₁ := outside_rely hR₁ h
    simp only [effect] at hx
    split_ifs at hx <;> cases hx <;> exact ⟨h₁.inside, h₁.limits⟩
  refine owesAlone_call fun k₃ hR₃ _ val k₄ hx => ⟨trivial, ?_⟩
  simp only [effect, Option.ite_none_left_eq_some, Option.some.injEq] at hx
  obtain ⟨-, rfl⟩ := hx
  exact fun k₅ hR₅ _ => outside_rely hR₅ (outside_rely hR₃ h₂)

theorem owesAlone_testBody (t : Test) (h : Outside self k) :
    owesAlone self (testBody self t) (fun _ => Outside self) k := by
  by_cases hmmio : t = .mmio
  · rw [hmmio]
    exact owesAlone_mmioTest h
  · by_cases hicmp : t = .icmp
    · rw [hicmp]
      exact owesAlone_icmpTest h
    · exact rg_quiet (fun k j _ => relyAlone_refl j k) (fun k k' hR => outside_rely hR)
        (uses_quietTest hmmio hicmp) h

theorem owesAlone_caller (calls : List IoctlCall) (h : Outside self k) :
    owesAlone self (caller self calls) (fun _ => Outside self) k := by
  refine Prog.rg_forEach (relyAlone_refl self) (fun _ => Outside self)
    (fun _ k k' hR => outside_rely hR) ?_ h
  intro past call k _ hk
  exact rg_ioctl (relyAlone_refl self) (fun k j _ => relyAlone_refl j k)
    (fun k k' hR => outside_rely hR) (fun k k' hR => outside_rely hR)
    (fun t _ k hk => owesAlone_testBody t hk) (fun _ k hk => hk) hk

/-- When calls of `icmp_test` do not overlap, every message is the echo request with the text of
its caller, and whenever nobody is inside, the sockets are those of the messages, each used once
and in this order. -/
theorem callers_send (calls : ι → List IoctlCall) (data : ι → Packet)
    (tr : List (Threads.Action ι ((c : FocusCmd ι) → c.Answer) Empty))
    (t : Threads.State ι (Kernel ι) (FocusProg ι (List ℤ)))
    (hrun : (Prog.tasks (effect true)).machine.run
      ⟨loaded data, fun i => caller i (calls i)⟩ tr = some t) :
    (∀ m ∈ t.shared.sent, m = helloMessage m.owner m.sock) ∧
    (t.shared.inside = ∅ → t.shared.sockets = t.shared.sent.map fun m => (m.owner, m.sock)) := by
  have hstart : ∀ i, owesAlone i (caller i (calls i)) (fun _ => Outside i) (loaded data) :=
    fun i => owesAlone_caller (calls i) ⟨by simp [loaded], rfl⟩
  have horderly : Orderly (loaded data) := ⟨rfl, by simp [loaded], fun _ => rfl⟩
  obtain ⟨hend, -⟩ := Prog.tasks_run relyAlone_refl relyAlone_trans
    (fun i j k k' hij hG => hG j hij.symm) horderly hstart hrun
  exact ⟨hend.sent, hend.used⟩

/-- Two callers, one after the other. -/
theorem callers_send_in_turn :
    ∃ t, (Prog.tasks (effect true)).machine.run
        ⟨loaded fun _ => [], fun i => caller i [⟨icmp, 0⟩]⟩
        (turns true 7 30 ++ turns false 8 30) = some t ∧
      used t.shared = [(true, 7), (false, 8)] ∧
      (∀ m ∈ t.shared.sent, m = helloMessage m.owner m.sock) ∧
      (t.shared.inside = ∅ →
        t.shared.sockets = t.shared.sent.map fun m => (m.owner, m.sock)) := by
  obtain ⟨t, ht, hused⟩ := Option.map_eq_some_iff.mp
    (show ((Prog.tasks (effect true)).machine.run
      ⟨loaded fun _ => [], fun i => caller i [⟨icmp, 0⟩]⟩
      (turns true 7 30 ++ turns false 8 30)).map (fun t => used t.shared) =
      some [(true, 7), (false, 8)] by decide +kernel)
  exact ⟨t, ht, hused, callers_send (fun _ => [⟨icmp, 0⟩]) (fun _ => []) _ t ht⟩

/-- A second call between the assignments and the send: the pointer leads to an array that is no
longer there. -/
example : ((Prog.tasks (effect false)).machine.run
      ⟨loaded fun _ => [], fun i => caller i [⟨icmp, 0⟩]⟩
      (turns true 7 23 ++ turns false 8 30 ++ turns true 8 7)).map (fun t =>
        t.shared.sent.map fun m => (m.owner, m.data)) =
    some [(false, some helloPacket), (true, none)] := by
  decide +kernel

end Callers

end PcmTest.Driver.FocusTest
