import PcmTest.Driver.FocusBodies
import PcmTest.Theory.RelyGuarantee

/-!
# Concurrent callers of the focus_test driver

The entry is an unlocked ioctl, so any number of tasks may be in it at a time, and
those in `icmp_test` share its statics. Two things are shown. In every
interleaving the address limit of a task is raised only inside `icmp_test`, what is
sent goes to one host on a socket of the driver, and each task leaves one socket
behind for each message and one mapping for each MMIO call. What is in a message
is right when calls of `icmp_test` do not overlap.
-/

namespace PcmTest.Driver.FocusTest

open Theory

variable {ι : Type}

/-- The statics of icmp.c, and for each task the stack array of its `icmp_test`. -/
structure Memory (ι : Type) where
  sock : Socket
  addrIn : SockaddrIn
  icmpHdr : Icmphdr
  msg : Msghdr ι
  iov : Iovec ι
  oldfs : Segment
  retVal : ℤ
  data : ι → Packet

/-- `memcpy` into an array. -/
def overwrite (xs : Packet) (offset : ℕ) (ys : Packet) : Packet :=
  xs.take offset ++ ys ++ xs.drop (offset + ys.length)

namespace Memory

variable [DecidableEq ι]

def assign (m : Memory ι) : Assign ι → Memory ι
  | .retVal v => { m with retVal := v }
  | .sinFamily v => { m with addrIn.family := v }
  | .sinAddr v => { m with addrIn.addr := v }
  | .clearIcmpHdr => { m with icmpHdr := .zero }
  | .icmpType v => { m with icmpHdr.type := v }
  | .echoId v => { m with icmpHdr.id := v }
  | .echoSequence v => { m with icmpHdr.sequence := v }
  | .copyHdr dst =>
    { m with data := Function.update m.data dst (overwrite (m.data dst) 0 m.icmpHdr.bytes) }
  | .copyText dst text =>
    { m with data := Function.update m.data dst (overwrite (m.data dst) sizeofIcmphdr text) }
  | .iovBase p => { m with iov.base := p }
  | .iovLen n => { m with iov.len := n }
  | .msgName p => { m with msg.name := p }
  | .msgNamelen n => { m with msg.namelen := n }
  | .msgControl p => { m with msg.control := p }
  | .msgControllen n => { m with msg.controllen := n }
  | .msgIov p => { m with msg.iov := p }
  | .oldfs seg => { m with oldfs := seg }

/-- The destination that `msg` names. -/
def name (m : Memory ι) : Option SockaddrIn :=
  if m.msg.name = .addrIn then some m.addrIn else none

end Memory

/-- What `sock_sendmsg` was given: the limit that it ran under, the destination and, where the
pointers of `msg` lead to an array that is still there, the bytes. -/
structure Message (ι : Type) where
  owner : ι
  limit : Segment
  sock : Socket
  name : Option SockaddrIn
  data : Option Packet
  size : ℕ
  deriving DecidableEq, Repr

/-- The memory of icmp.c and what the kernel keeps for the driver: the tasks inside `icmp_test`,
the address limits, and the sockets, mappings and messages by the task they are owed to. -/
structure Kernel (ι : Type) where
  memory : Memory ι
  inside : Finset ι
  limits : ι → Segment
  sockets : List (ι × Socket)
  maps : List (ι × U64)
  sent : List (Message ι)

namespace Kernel

variable [DecidableEq ι]

/-- The bytes that `msg` leads to. -/
def payload (k : Kernel ι) : Option Packet :=
  match k.memory.msg.iov, k.memory.iov.base with
  | .iov, .data j =>
    if j ∈ k.inside then some ((k.memory.data j).take k.memory.iov.len.toNat) else none
  | _, _ => none

def message (k : Kernel ι) (self : ι) (sock : Socket) (size : ℕ) : Message ι :=
  ⟨self, k.limits self, sock, k.memory.name, k.payload, size⟩

/-- The effect of a command of the task `self`. A command that reads accepts the value that is
there, `sock_create` gives a socket that nobody has, and a failed `ioremap` ends in the fault of
the read. With `serial`, `icmp_test` waits until nobody is in it. -/
def effect (serial : Bool) (self : ι) : Effect (Kernel ι) (FocusCmd ι) FocusCmd.Answer
  | .enter, xs, k =>
    if serial = true ∧ k.inside.Nonempty then none
    else some { k with memory.data := Function.update k.memory.data self xs.1,
                       inside := insert self k.inside }
  | .leave, _, k => some { k with inside := k.inside.erase self }
  | .sockCreate _ _ _, x, k =>
    if x.1 < 0 then some k
    else if x.2 ∈ k.sockets.map Prod.snd then none
    else some { k with memory.sock := x.2, sockets := k.sockets ++ [(self, x.2)] }
  | .loadRetVal, v, k => if (show ℤ from v) = k.memory.retVal then some k else none
  | .loadSock, v, k => if (show Socket from v) = k.memory.sock then some k else none
  | .loadOldfs, v, k => if (show Segment from v) = k.memory.oldfs then some k else none
  | .assign a, _, k => some { k with memory := k.memory.assign a }
  | .getFs, v, k => if (show Segment from v) = k.limits self then some k else none
  | .setFs seg, _, k => some { k with limits := Function.update k.limits self seg }
  | .sockSendmsg sock size, _, k => some { k with sent := k.sent ++ [k.message self sock size] }
  | .ioremap phys _, addr, k =>
    if (show U64 from addr) = 0 then some k else some { k with maps := k.maps ++ [(self, phys)] }
  | .readl addr, _, k => if addr = 0 then none else some k
  | _, _, k => some k

/-- The kernel when the module has been loaded; the arrays on the stacks hold anything. -/
def loaded (data : ι → Packet) : Kernel ι where
  memory := ⟨0, ⟨0, 0, 0⟩, .zero, ⟨.null, 0, .null, 0, .null⟩, ⟨.null, 0⟩, .unassigned, 0, data⟩
  inside := ∅
  limits _ := .userDs
  sockets := []
  maps := []
  sent := []

def socketsOf (i : ι) (k : Kernel ι) : ℕ := k.sockets.countP fun s => s.1 = i

def mapsOf (i : ι) (k : Kernel ι) : ℕ := k.maps.countP fun s => s.1 = i

def sentBy (i : ι) (k : Kernel ι) : ℕ := k.sent.countP fun m => m.owner = i

end Kernel

namespace Kernel

variable [DecidableEq ι]

/-- What the commands of the task `self` can do to the kernel. -/
inductive Moves (serial : Bool) (self : ι) (k : Kernel ι) : FocusCmd ι → Kernel ι → Prop
  | quiet (c : FocusCmd ι) : Moves serial self k c k
  | enter (data : ι → Packet) (hserial : serial = true → k.inside = ∅) : Moves serial self k .enter
        { k with memory.data := data, inside := insert self k.inside }
  | leave : Moves serial self k .leave { k with inside := k.inside.erase self }
  | created {family type protocol : BitVec 16} {s : Socket} (hs : s ∉ k.sockets.map Prod.snd) :
      Moves serial self k (.sockCreate family type protocol)
        { k with memory.sock := s, sockets := k.sockets ++ [(self, s)] }
  | assign (a : Assign ι) : Moves serial self k (.assign a) { k with memory := k.memory.assign a }
  | setFs (seg : Segment) : Moves serial self k (.setFs seg)
      { k with limits := Function.update k.limits self seg }
  | sent (sock : Socket) (size : ℕ) : Moves serial self k (.sockSendmsg sock size)
      { k with sent := k.sent ++ [k.message self sock size] }
  | mapped (phys size : U64) : Moves serial self k (.ioremap phys size)
      { k with maps := k.maps ++ [(self, phys)] }

variable {serial : Bool} {self : ι} {c : FocusCmd ι} {x : c.Answer} {k k' : Kernel ι}

theorem moves_of_effect (h : effect serial self c x k = some k') : Moves serial self k c k' := by
  cases c with
  | enter =>
    simp only [effect, Option.ite_none_left_eq_some, Option.some.injEq] at h
    obtain ⟨hwait, rfl⟩ := h
    refine .enter _ fun hs => ?_
    rw [not_and, Finset.not_nonempty_iff_eq_empty] at hwait
    exact hwait hs
  | leave =>
    cases h
    exact .leave
  | sockCreate family type protocol =>
    simp only [effect] at h
    split_ifs at h with hret hs
    · cases h
      exact .quiet _
    · cases h
      exact .created hs
  | assign a =>
    cases h
    exact .assign a
  | setFs seg =>
    cases h
    exact .setFs seg
  | sockSendmsg sock size =>
    cases h
    exact .sent sock size
  | ioremap phys size =>
    simp only [effect] at h
    split_ifs at h
    · cases h
      exact .quiet _
    · cases h
      exact .mapped phys size
  | loadRetVal | loadSock | loadOldfs | getFs =>
    simp only [effect, Option.ite_none_right_eq_some, Option.some.injEq] at h
    obtain ⟨-, rfl⟩ := h
    exact .quiet _
  | readl addr =>
    simp only [effect, Option.ite_none_left_eq_some, Option.some.injEq] at h
    obtain ⟨-, rfl⟩ := h
    exact .quiet _
  | _ =>
    cases h
    exact .quiet _

end Kernel

section Turns

/-- The answers of a kernel in which nothing fails and `sock` is the socket. -/
def answering (sock : Socket) : (c : FocusCmd ι) → c.Answer
  | .accessOk _ _ _ => true
  | .cpuid _ | .readl _ => (0 : U32)
  | .rdpmc _ | .rdtsc | .ioremap _ _ => (1 : U64)
  | .rdtscp => ((0, 0) : U64 × U32)
  | .rdseed | .rdrand => ((0, true) : U64 × Bool)
  | .enter => ⟨List.replicate 13 0, rfl⟩
  | .sockCreate _ _ _ => ((0, sock) : ℤ × Socket)
  | .loadRetVal | .sockSendmsg _ _ => (0 : ℤ)
  | .loadSock => sock
  | .loadOldfs | .getFs => Segment.userDs
  | .localIrqDisable | .localIrqEnable | .hypercall _ | .invd | .printk _ | .leave | .assign _
  | .setFs _ => ()

/-- The next `n` commands of a task. -/
def turns (i : ι) (sock : Socket) (n : ℕ) :
    List (Threads.Action ι ((c : FocusCmd ι) → c.Answer) Empty) :=
  List.replicate n (.thread i (answering sock))

end Turns

section Callers

open Kernel

variable [DecidableEq ι] {serial : Bool} {self : ι} {I : Kernel ι → Prop}
  {R G : Kernel ι → Kernel ι → Prop} {k : Kernel ι}

/-- The commands that leave the kernel as it is. -/
def FocusCmd.IsQuiet : FocusCmd ι → Prop
  | .accessOk _ _ _ | .localIrqDisable | .localIrqEnable | .hypercall _ | .cpuid _ | .invd
  | .rdpmc _ | .rdtsc | .rdtscp | .rdseed | .rdrand | .printk _ => True
  | _ => False

/-- One command: what it asks of the state, and what is owed from there. -/
theorem rg_command {α : Type} {Care : FocusCmd ι → Kernel ι → Prop}
    (hcare : ∀ c k k', Moves serial self k c k' → Care c k → I k → I k' ∧ G k k')
    {c : FocusCmd ι} {f : c.Answer → FocusProg ι α} {Q : α → Kernel ι → Prop}
    (h : ∀ k₁, R k k₁ → I k₁ → ∀ x k₂, effect serial self c x k₁ = some k₂ →
      Care c k₁ ∧ (f x).rg (effect serial self) I R G Q k₂) :
    ((Prog.call c).bind f).rg (effect serial self) I R G Q k := by
  intro k₁ hR hk₁ x k₂ hx
  obtain ⟨hc, hrest⟩ := h k₁ hR hk₁ x k₂ hx
  exact ⟨hcare c k₁ k₂ (moves_of_effect hx) hc hk₁, hrest⟩

theorem rg_quiet {α : Type} {J : Kernel ι → Prop} (hG : ∀ k, G k k)
    (hstable : ∀ k k', R k k' → J k → J k') {p : FocusProg ι α} (hp : p.Uses FocusCmd.IsQuiet)
    (hJ : J k) : p.rg (effect serial self) I R G (fun _ => J) k := by
  refine Prog.rg_frame hstable ?_ hp hJ
  intro c x k k' hc hI hJ hx
  have heq : k' = k := by
    cases c <;> first | exact hc.elim | exact (Option.some.inj hx).symm
  rw [heq]
  exact ⟨⟨hI, hG k⟩, hJ⟩

/-- The commands of the entry itself. -/
def IsEntry : IoctlCmd Test → Prop
  | .test _ => False
  | _ => True

theorem switch_of_ne {cmd : U32} {arms : List (SwitchArm Test)}
    (h : ∀ arm ∈ arms, cmd ≠ arm.code) : switch cmd arms = pure () := by
  induction arms with
  | nil => rfl
  | cons arm arms ih =>
    obtain ⟨harm, hrest⟩ := List.forall_mem_cons.mp h
    rw [switch, if_neg harm]
    exact ih hrest

theorem uses_checkAccess (cmd : U32) (arg : U64) : (checkAccess cmd arg).Uses IsEntry := by
  rw [checkAccess]
  split_ifs
  · exact ⟨trivial, fun ok => trivial⟩
  · exact ⟨trivial, fun ok => trivial⟩
  · trivial

/-- A word that is no code runs no test. -/
theorem uses_entry {cmd : U32} (arg : U64) (h : requested cmd = none) :
    (pcmCdevIoctl cmd arg).Uses IsEntry := by
  have harms : ∀ arm ∈ arms, cmd ≠ arm.code := by
    have hcode : ∀ arm ∈ arms, arm.code = code arm.test := by decide
    intro arm harm
    rw [hcode arm harm]
    exact ne_code_of_requestedIn (fun t => by cases t <;> decide) h arm.test
  rw [pcmCdevIoctl, cdevIoctl]
  split_ifs
  · trivial
  · trivial
  · refine Prog.uses_bind (uses_checkAccess cmd arg) fun err => ?_
    cases err with
    | true => trivial
    | false =>
      simp only [switch_of_ne harms]
      exact ⟨trivial, fun _ => ⟨trivial, fun _ => ⟨trivial, fun _ => ⟨trivial, fun _ => trivial⟩⟩⟩⟩

omit [DecidableEq ι] in
theorem uses_quiet {cmd : U32} (arg : U64) (h : requested cmd = none) :
    (pcmCdevIoctlFull self cmd arg).Uses FocusCmd.IsQuiet := by
  refine Prog.uses_expand (entryCmd self) (uses_entry arg h) fun c hc => ?_
  cases c with
  | test t => exact hc.elim
  | _ => exact ⟨trivial, fun _ => trivial⟩

omit [DecidableEq ι] in
/-- A code runs its test between the two hypercalls. -/
theorem pcmCdevIoctlFull_code (t : Test) (arg : U64) :
    pcmCdevIoctlFull self (code t) arg =
      (Prog.call FocusCmd.localIrqDisable).bind fun _ => (Prog.call (.hypercall 102)).bind fun _ =>
        (testBody self t).bind fun _ => (Prog.call (.hypercall 103)).bind fun _ =>
          (Prog.call .localIrqEnable).bind fun _ => .pure 0 := by
  cases t <;> rfl

/-- A call, by what its test does. -/
theorem rg_ioctl {J J' : Kernel ι → Prop} (hrefl : ∀ k, R k k) (hG : ∀ k, G k k)
    (hJ : ∀ k k', R k k' → J k → J k') (hJ' : ∀ k k', R k k' → J' k → J' k') {call : IoctlCall}
    (hcode : ∀ t, requested call.cmd = some t → ∀ k, J k →
      (testBody self t).rg (effect serial self) I R G (fun _ => J') k)
    (hnone : requested call.cmd = none → ∀ k, J k → J' k) (hk : J k) :
    (pcmCdevIoctlFull self call.cmd call.arg).rg (effect serial self) I R G (fun _ => J') k := by
  cases hreq : requested call.cmd with
  | none => exact rg_quiet hG hJ' (uses_quiet call.arg hreq) (hnone hreq k hk)
  | some t =>
    have hentry : ((Prog.call FocusCmd.localIrqDisable).bind fun _ =>
        Prog.call (FocusCmd.hypercall 102) : FocusProg ι Unit).Uses FocusCmd.IsQuiet :=
      ⟨trivial, fun _ => ⟨trivial, fun _ => trivial⟩⟩
    have hexit : ((Prog.call (FocusCmd.hypercall 103)).bind fun _ =>
        (Prog.call FocusCmd.localIrqEnable).bind fun _ => .pure 0 : FocusProg ι ℤ).Uses
          FocusCmd.IsQuiet :=
      ⟨trivial, fun _ => ⟨trivial, fun _ => trivial⟩⟩
    rw [code_of_requestedIn hreq, pcmCdevIoctlFull_code, ← Prog.bind_assoc]
    refine Prog.rg_bind hrefl (Prog.rg_mono (fun _ k _ hk => ?_) (rg_quiet hG hJ hentry hk))
    refine Prog.rg_bind hrefl (Prog.rg_mono (fun _ k _ hk => ?_) (hcode t hreq k hk))
    exact rg_quiet hG hJ' hexit hk

omit [DecidableEq ι] in
/-- The tests that leave the kernel as it is. -/
theorem uses_quietTest {t : Test} (hmmio : t ≠ .mmio) (hicmp : t ≠ .icmp) :
    (testBody self t).Uses FocusCmd.IsQuiet := by
  cases t with
  | mmio => exact absurd rfl hmmio
  | icmp => exact absurd rfl hicmp
  | rdrand =>
    refine Prog.uses_bind (Prog.uses_retry (Prog.uses_call.mpr trivial) _) fun _ => ?_
    exact ⟨trivial, fun _ => trivial⟩
  | rdseed | rdtsc | rdtscp => exact ⟨trivial, fun _ => ⟨trivial, fun _ => trivial⟩⟩
  | cpuid | rdpmc | invd | pio => exact ⟨trivial, fun _ => trivial⟩

end Callers

section Statics

variable [DecidableEq ι]

/-- What icmp.c stores in these statics is the same in every call. -/
def Assign.Same : Assign ι → Prop
  | .sinFamily v => v = afInet
  | .sinAddr v => v = inAton 192 168 199 1
  | .msgName p => p = .addrIn
  | .oldfs seg => seg = .userDs
  | _ => True

/-- Such a static has got its value. -/
def Assign.Done : Assign ι → Memory ι → Prop
  | .sinFamily _, m => m.addrIn.family = afInet
  | .sinAddr _, m => m.addrIn.addr = inAton 192 168 199 1
  | .msgName _, m => m.msg.name = .addrIn
  | .oldfs _, m => m.oldfs = .userDs
  | _, _ => True

variable {m : Memory ι} {a b : Assign ι}

theorem done_assign (hb : b.Same) : b.Done (m.assign b) := by
  cases b with
  | sinFamily v | sinAddr v | msgName p | oldfs seg => exact hb
  | _ => trivial

theorem done_of_done (hb : b.Same) (ha : a.Done m) : a.Done (m.assign b) := by
  cases a with
  | sinFamily v | sinAddr v | msgName p | oldfs seg =>
    cases b <;> first | exact ha | exact hb
  | _ => trivial

theorem port_assign (b : Assign ι) : (m.assign b).addrIn.port = m.addrIn.port := by
  cases b <;> rfl

theorem sock_assign (b : Assign ι) : (m.assign b).sock = m.sock := by
  cases b <;> rfl

omit [DecidableEq ι] in
theorem same_fillMessage (self : ι) : ∀ a ∈ fillMessage self, a.Same := by
  simp [fillMessage, Assign.Same]

end Statics

section Interleavings

open Kernel

variable [DecidableEq ι]

/-- Sent under the raised limit, to the one host. -/
structure Message.Addressed (m : Message ι) : Prop where
  limit : m.limit = .kernelDs
  name : m.name = some ⟨afInet, 0, inAton 192 168 199 1⟩
  size : m.size = 13

/-- The invariant of the kernel. -/
structure Sound (k : Kernel ι) : Prop where
  port : k.memory.addrIn.port = 0
  sent : ∀ m ∈ k.sent, m.Addressed ∧ m.sock ∈ k.sockets.map Prod.snd
  limits : ∀ i, i ∉ k.inside → k.limits i = .userDs

/-- What no task undoes. -/
structure Kept (k k' : Kernel ι) : Prop where
  done : ∀ a : Assign ι, a.Done k.memory → a.Done k'.memory
  created : ∀ s ∈ k.sockets.map Prod.snd, s ∈ k'.sockets.map Prod.snd
  sock : k.memory.sock ∈ k.sockets.map Prod.snd → k'.memory.sock ∈ k'.sockets.map Prod.snd

/-- What belongs to one task. -/
def view (i : ι) (k : Kernel ι) : Bool × Segment × ℕ × ℕ × ℕ :=
  (decide (i ∈ k.inside), k.limits i, socketsOf i k, sentBy i k, mapsOf i k)

def Rely (i : ι) (k k' : Kernel ι) : Prop := Kept k k' ∧ view i k' = view i k

def Guarantee (i : ι) (k k' : Kernel ι) : Prop :=
  Kept k k' ∧ ∀ j, j ≠ i → view j k' = view j k

/-- What a command of the task asks of the state it is issued in. -/
def FocusCmd.Careful (self : ι) (k : Kernel ι) : FocusCmd ι → Prop
  | .assign a => a.Same
  | .leave => k.limits self = .userDs
  | .setFs _ => self ∈ k.inside
  | .sockSendmsg sock size =>
    (k.message self sock size).Addressed ∧ sock ∈ k.sockets.map Prod.snd
  | _ => True

variable {serial : Bool} {self : ι} {c : FocusCmd ι} {x : c.Answer} {k k' : Kernel ι}

omit [DecidableEq ι] in
theorem kept_refl (k : Kernel ι) : Kept k k := ⟨fun _ h => h, fun _ h => h, fun h => h⟩

omit [DecidableEq ι] in
theorem Kept.trans {k₁ k₂ k₃ : Kernel ι} (h : Kept k₁ k₂) (h' : Kept k₂ k₃) : Kept k₁ k₃ :=
  ⟨fun a ha => h'.done a (h.done a ha), fun s hs => h'.created s (h.created s hs),
    fun hs => h'.sock (h.sock hs)⟩

theorem rely_refl (i : ι) (k : Kernel ι) : Rely i k k := ⟨kept_refl k, rfl⟩

theorem rely_trans (i : ι) (k₁ k₂ k₃ : Kernel ι) (h : Rely i k₁ k₂) (h' : Rely i k₂ k₃) :
    Rely i k₁ k₃ := ⟨h.1.trans h'.1, h'.2.trans h.2⟩

theorem rely_of_guarantee (i j : ι) (k k' : Kernel ι) (hij : i ≠ j) (h : Guarantee i k k') :
    Rely j k k' := ⟨h.1, h.2 j hij.symm⟩

/-- The frame of a command: the other tasks keep what is theirs. -/
theorem view_moves (h : Moves serial self k c k') {j : ι} (hj : j ≠ self) :
    view j k' = view j k := by
  have hself : self ≠ j := hj.symm
  cases h with
  | quiet => rfl
  | enter data hserial =>
    simp [view, hj, socketsOf, sentBy, mapsOf]
  | leave => simp [view, hj, socketsOf, sentBy, mapsOf]
  | created hs => simp [view, hself, socketsOf, sentBy, mapsOf]
  | assign a => rfl
  | setFs seg => simp [view, hj, socketsOf, sentBy, mapsOf]
  | sent sock size => simp [view, hself, socketsOf, sentBy, mapsOf, message]
  | mapped phys size => simp [view, hself, socketsOf, sentBy, mapsOf]

theorem kept_moves (h : Moves serial self k c k') (hc : c.Careful self k) : Kept k k' := by
  cases h with
  | assign a =>
    refine ⟨fun b hb => done_of_done hc hb, fun s hs => hs, fun hs => ?_⟩
    rw [sock_assign]
    exact hs
  | created hs =>
    refine ⟨fun b hb => by cases b <;> exact hb, fun s hs => ?_, fun _ => by simp⟩
    rw [List.map_append]
    exact List.mem_append_left _ hs
  | enter data hserial =>
    exact ⟨fun b hb => by cases b <;> exact hb, fun s hs => hs, fun h => h⟩
  | _ => exact ⟨fun b hb => hb, fun s hs => hs, fun h => h⟩

theorem sound_moves (h : Moves serial self k c k') (hc : c.Careful self k) (hk : Sound k) :
    Sound k' := by
  obtain ⟨hport, hsent, hlimits⟩ := hk
  cases h with
  | quiet => exact ⟨hport, hsent, hlimits⟩
  | enter data hserial =>
    refine ⟨hport, hsent, fun i hi => hlimits i fun h => hi ?_⟩
    exact Finset.mem_insert_of_mem h
  | leave =>
    refine ⟨hport, hsent, fun i hi => ?_⟩
    by_cases his : i = self
    · rw [his]
      exact hc
    · exact hlimits i fun h => hi (Finset.mem_erase.mpr ⟨his, h⟩)
  | created hs =>
    refine ⟨hport, fun m hm => ⟨(hsent m hm).1, ?_⟩, hlimits⟩
    rw [List.map_append]
    exact List.mem_append_left _ (hsent m hm).2
  | assign a => exact ⟨(port_assign a).trans hport, hsent, hlimits⟩
  | setFs seg =>
    refine ⟨hport, hsent, fun i hi => ?_⟩
    have his : i ≠ self := by
      rintro rfl
      exact hi hc
    exact (Function.update_of_ne his _ _).trans (hlimits i hi)
  | sent sock size =>
    refine ⟨hport, fun m hm => ?_, hlimits⟩
    rcases List.mem_append.mp hm with hm | hm
    · exact hsent m hm
    · rw [List.mem_singleton.mp hm]
      exact hc
  | mapped phys size => exact ⟨hport, hsent, hlimits⟩

/-- The obligation of a task under this invariant, rely and guarantee. -/
abbrev owes (serial : Bool) (self : ι) {α : Type} (p : FocusProg ι α) (Q : α → Kernel ι → Prop) :
    Kernel ι → Prop :=
  p.rg (effect serial self) Sound (Rely self) (Guarantee self) Q

theorem owes_call {α : Type} {f : c.Answer → FocusProg ι α} {Q : α → Kernel ι → Prop}
    (h : ∀ k₁, Rely self k k₁ → Sound k₁ → ∀ x k₂, effect serial self c x k₁ = some k₂ →
      c.Careful self k₁ ∧ owes serial self (f x) Q k₂) :
    owes serial self ((Prog.call c).bind f) Q k := by
  refine rg_command (fun c k k' hmoves (hc : c.Careful self k) hk => ?_) h
  exact ⟨sound_moves hmoves hc hk, kept_moves hmoves hc, fun j hj => view_moves hmoves hj⟩

/-- Where the task is: inside `icmp_test` or not, its limit, and how many more sockets than
messages and how many mappings it owns. -/
def At (self : ι) (inside : Bool) (limit : Segment) (extra maps : ℕ) (k : Kernel ι) : Prop :=
  ∃ n, view self k = (inside, limit, n + extra, n, maps)

theorem at_rely {inside : Bool} {limit : Segment} {extra maps : ℕ} (hR : Rely self k k')
    (h : At self inside limit extra maps k) : At self inside limit extra maps k' := by
  obtain ⟨n, hn⟩ := h
  exact ⟨n, hR.2.trans hn⟩

/-- Inside `icmp_test` with a socket that has had no message yet, after these assignments. -/
structure Filling (i : ι) (limit : Segment) (maps : ℕ) (past : List (Assign ι))
    (k : Kernel ι) : Prop where
  place : At i true limit 1 maps k
  sock : k.memory.sock ∈ k.sockets.map Prod.snd
  done : ∀ a ∈ past, a.Done k.memory

theorem filling_rely {limit : Segment} {maps : ℕ} {past : List (Assign ι)} (hR : Rely self k k')
    (h : Filling self limit maps past k) : Filling self limit maps past k' :=
  ⟨at_rely hR h.place, hR.1.sock h.sock, fun a ha => hR.1.done a (h.done a ha)⟩

theorem filling_assign {limit : Segment} {maps : ℕ} {past : List (Assign ι)} {a : Assign ι}
    (ha : a.Same) (h : Filling self limit maps past k) :
    Filling self limit maps (past ++ [a]) { k with memory := k.memory.assign a } := by
  refine ⟨h.place, ?_, fun b hb => ?_⟩
  · rw [sock_assign]
    exact h.sock
  · rcases List.mem_append.mp hb with hb | hb
    · exact done_of_done ha (h.done b hb)
    · rw [List.mem_singleton.mp hb]
      exact done_assign ha

theorem owes_assigns {limit : Segment} {maps : ℕ} {as : List (Assign ι)} (has : ∀ a ∈ as, a.Same)
    (h : Filling self limit maps [] k) :
    owes serial self (Prog.forEach assign as) (fun _ => Filling self limit maps as) k := by
  refine Prog.rg_forEach (rely_refl self) (fun past => Filling self limit maps past)
    (fun past k k' hR => filling_rely hR) ?_ h
  intro past a k ha hk
  refine owes_call fun k₁ hR hk₁ x k₂ hx => ⟨has a ha, ?_⟩
  cases hx
  exact fun k₃ hR' _ => filling_rely hR' (filling_assign (has a ha) (filling_rely hR hk))

theorem effect_getFs {v : Segment} (h : effect serial self .getFs v k = some k') :
    v = k.limits self ∧ k' = k := by
  simp only [effect, Option.ite_none_right_eq_some, Option.some.injEq] at h
  exact ⟨h.1, h.2.symm⟩

theorem effect_loadSock {v : Socket} (h : effect serial self .loadSock v k = some k') :
    v = k.memory.sock ∧ k' = k := by
  simp only [effect, Option.ite_none_right_eq_some, Option.some.injEq] at h
  exact ⟨h.1, h.2.symm⟩

theorem effect_loadOldfs {v : Segment} (h : effect serial self .loadOldfs v k = some k') :
    v = k.memory.oldfs ∧ k' = k := by
  simp only [effect, Option.ite_none_right_eq_some, Option.some.injEq] at h
  exact ⟨h.1, h.2.symm⟩

theorem At.inside {limit : Segment} {extra maps : ℕ} (h : At self true limit extra maps k) :
    self ∈ k.inside := by
  obtain ⟨n, hn⟩ := h
  exact of_decide_eq_true (congrArg Prod.fst hn)

theorem At.limit {inside : Bool} {limit : Segment} {extra maps : ℕ}
    (h : At self inside limit extra maps k) : k.limits self = limit := by
  obtain ⟨n, hn⟩ := h
  exact congrArg (fun v => v.2.1) hn

theorem at_setFs {inside : Bool} {limit : Segment} {extra maps : ℕ}
    (h : At self inside limit extra maps k) (seg : Segment) :
    At self inside seg extra maps { k with limits := Function.update k.limits self seg } := by
  obtain ⟨n, hn⟩ := h
  refine ⟨n, ?_⟩
  simp only [view, Prod.mk.injEq] at hn ⊢
  exact ⟨hn.1, Function.update_self .., hn.2.2⟩

theorem at_sent {inside : Bool} {limit : Segment} {maps : ℕ} {m : Message ι} (hm : m.owner = self)
    (h : At self inside limit 1 maps k) :
    At self inside limit 0 maps { k with sent := k.sent ++ [m] } := by
  obtain ⟨n, hn⟩ := h
  refine ⟨n + 1, ?_⟩
  simp only [view, Prod.mk.injEq, sentBy, List.countP_append, socketsOf, mapsOf] at hn ⊢
  simp [hn, hm]

/-- Filling the message under the task's own limit, and sending it under the kernel's. -/
theorem owes_sendHello {maps : ℕ} (h : Filling self .userDs maps [] k) :
    owes serial self (sendHello self) (fun _ => At self true .userDs 0 maps) k := by
  refine Prog.rg_bind (rely_refl self)
    (Prog.rg_mono (fun _ k _ h => ?_) (owes_assigns (same_fillMessage self) h))
  refine owes_call fun k₁ hR₁ _ fs k₂ hx => ⟨trivial, ?_⟩
  obtain ⟨rfl, rfl⟩ := effect_getFs hx
  have h₁ := filling_rely hR₁ h
  have hfs : k₂.limits self = .userDs := h₁.place.limit
  refine owes_call fun k₃ hR₃ _ u k₄ hx => ⟨hfs, ?_⟩
  cases hx
  have h₃ := filling_assign (a := .oldfs (k₂.limits self)) hfs (filling_rely hR₃ h₁)
  refine owes_call fun k₅ hR₅ _ u k₆ hx => ⟨(filling_rely hR₅ h₃).place.inside, ?_⟩
  cases hx
  have h₅ := filling_rely hR₅ h₃
  have h₆ : Filling self .kernelDs maps (fillMessage self ++ [.oldfs (k₂.limits self)])
      { k₅ with limits := Function.update k₅.limits self .kernelDs } :=
    ⟨at_setFs h₅.place .kernelDs, h₅.sock, h₅.done⟩
  refine owes_call fun k₇ hR₇ hk₇ sock k₈ hx => ⟨trivial, ?_⟩
  obtain ⟨rfl, rfl⟩ := effect_loadSock hx
  have h₇ := filling_rely hR₇ h₆
  refine owes_call fun k₉ hR₉ hk₉ u k₁₀ hx => ⟨?_, ?_⟩
  · have h₉ := filling_rely hR₉ h₇
    have hfamily := h₉.done (.sinFamily afInet) (by simp [fillMessage])
    have haddr := h₉.done (.sinAddr (inAton 192 168 199 1)) (by simp [fillMessage])
    have hname := h₉.done (.msgName .addrIn) (by simp [fillMessage])
    refine ⟨⟨h₉.place.limit, ?_, rfl⟩, hR₉.1.created _ h₇.sock⟩
    have heq : k₉.memory.addrIn = ⟨afInet, 0, inAton 192 168 199 1⟩ := by
      rw [← hfamily, ← haddr, ← hk₉.port]
    rw [← heq]
    exact if_pos hname
  · cases hx
    have h₉ := filling_rely hR₉ h₇
    have hat := at_sent (m := k₉.message self k₈.memory.sock (sizeofIcmphdr + 5)) rfl h₉.place
    refine owes_call fun k₁₁ hR₁₁ _ fs k₁₂ hx => ⟨trivial, ?_⟩
    obtain ⟨rfl, rfl⟩ := effect_loadOldfs hx
    have hat₁₁ := at_rely hR₁₁ hat
    have hold : k₁₂.memory.oldfs = .userDs :=
      hR₁₁.1.done (.oldfs (k₂.limits self)) (h₉.done (.oldfs (k₂.limits self)) (by simp))
    refine owes_call fun k₁₃ hR₁₃ _ u k₁₄ hx => ⟨(at_rely hR₁₃ hat₁₁).inside, ?_⟩
    cases hx
    intro k₁₅ hR₁₅ _
    have hat₁₄ := at_setFs (at_rely hR₁₃ hat₁₁) k₁₂.memory.oldfs
    rw [hold] at hat₁₄ hR₁₅
    exact at_rely hR₁₅ hat₁₄

theorem at_enter {limit : Segment} {extra maps : ℕ} {data : ι → Packet}
    (h : At self false limit extra maps k) :
    At self true limit extra maps
      { k with memory.data := data, inside := insert self k.inside } := by
  obtain ⟨n, hn⟩ := h
  refine ⟨n, ?_⟩
  simp only [view, Prod.mk.injEq] at hn ⊢
  exact ⟨by simp, hn.2⟩

theorem at_leave {limit : Segment} {extra maps : ℕ} (h : At self true limit extra maps k) :
    At self false limit extra maps { k with inside := k.inside.erase self } := by
  obtain ⟨n, hn⟩ := h
  refine ⟨n, ?_⟩
  simp only [view, Prod.mk.injEq] at hn ⊢
  exact ⟨by simp, hn.2⟩

theorem filling_created {limit : Segment} {maps : ℕ} {s : Socket}
    (h : At self true limit 0 maps k) :
    Filling self limit maps []
      { k with memory.sock := s, sockets := k.sockets ++ [(self, s)] } := by
  obtain ⟨n, hn⟩ := h
  refine ⟨⟨n, ?_⟩, by simp, by simp⟩
  simp only [view, Prod.mk.injEq, socketsOf, List.countP_append, sentBy, mapsOf] at hn ⊢
  simp [hn]

theorem owes_icmpTest {maps : ℕ} (h : At self false .userDs 0 maps k) :
    owes serial self (icmpTest self) (fun _ => At self false .userDs 0 maps) k := by
  have hleave : ∀ k, At self true .userDs 0 maps k →
      owes serial self (Prog.call FocusCmd.leave) (fun _ => At self false .userDs 0 maps) k := by
    intro k h
    refine owes_call fun k₁ hR₁ _ u k₂ hx => ⟨(at_rely hR₁ h).limit, ?_⟩
    cases hx
    exact fun k₃ hR₃ _ => at_rely hR₃ (at_leave (at_rely hR₁ h))
  refine owes_call fun k₁ hR₁ _ xs k₂ hx => ⟨trivial, ?_⟩
  have h₂ : At self true .userDs 0 maps k₂ := by
    simp only [effect, Option.ite_none_left_eq_some, Option.some.injEq] at hx
    obtain ⟨-, rfl⟩ := hx
    exact at_enter (at_rely hR₁ h)
  refine owes_call fun k₃ hR₃ _ created k₄ hx => ⟨trivial, ?_⟩
  have h₃ := at_rely hR₃ h₂
  -- A failure gives no socket, and the other way there is one that has had no message.
  have h₄ : (created.1 < 0 → At self true .userDs 0 maps k₄) ∧
      (¬ created.1 < 0 → Filling self .userDs maps [] k₄) := by
    simp only [effect] at hx
    split_ifs at hx with hret
    · cases hx
      exact ⟨fun _ => h₃, fun h => absurd hret h⟩
    · cases hx
      exact ⟨fun h => absurd h hret, fun _ => filling_created h₃⟩
  refine owes_call fun k₅ hR₅ _ u k₆ hx => ⟨trivial, ?_⟩
  cases hx
  refine Prog.rg_bind (rely_refl self) (Prog.rg_mono (fun _ k _ h => hleave k h) ?_)
  rw [afterCreate]
  split_ifs with hret
  · have h₆ := at_rely hR₅ (h₄.1 hret)
    refine owes_call fun k₇ hR₇ _ ret k₈ hx => ⟨trivial, ?_⟩
    simp only [effect, Option.ite_none_right_eq_some, Option.some.injEq] at hx
    obtain ⟨-, rfl⟩ := hx
    refine owes_call fun k₉ hR₉ _ u k₁₀ hx => ⟨trivial, ?_⟩
    cases hx
    exact fun k₁₁ hR₁₁ _ => at_rely hR₁₁ (at_rely hR₉ (at_rely hR₇ h₆))
  · have h₆ := filling_rely hR₅ (h₄.2 hret)
    refine owes_sendHello ⟨h₆.place, ?_, by simp⟩
    rw [sock_assign]
    exact h₆.sock

/-- A finished `mmio_test` has read through its mapping, so it has got one. -/
theorem owes_mmioTest {maps : ℕ} (h : At self false .userDs 0 maps k) :
    owes serial self mmioTest (fun _ => At self false .userDs 0 (maps + 1)) k := by
  refine owes_call fun k₁ hR₁ _ addr k₂ hx => ⟨trivial, ?_⟩
  refine owes_call fun k₃ hR₃ _ val k₄ hx' => ⟨trivial, ?_⟩
  simp only [effect, Option.ite_none_left_eq_some, Option.some.injEq] at hx'
  obtain ⟨haddr, rfl⟩ := hx'
  have h₂ : At self false .userDs 0 (maps + 1) k₂ := by
    simp only [effect, if_neg haddr, Option.some.injEq] at hx
    rw [← hx]
    obtain ⟨n, hn⟩ := at_rely hR₁ h
    refine ⟨n, ?_⟩
    simp only [view, Prod.mk.injEq, mapsOf, List.countP_append, socketsOf, sentBy] at hn ⊢
    simp [hn]
  exact fun k₅ hR₅ _ => at_rely hR₅ (at_rely hR₃ h₂)

/-- Between two calls of a task. -/
def Resting (self : ι) (past : List IoctlCall) : Kernel ι → Prop :=
  At self false .userDs 0 (past.countP fun call => call.cmd = mmio)

theorem resting_append {past : List IoctlCall} {call : IoctlCall} (hcmd : call.cmd ≠ mmio)
    (h : Resting self past k) : Resting self (past ++ [call]) k := by
  have hzero : [call].countP (fun call => call.cmd = mmio) = 0 := by simp [hcmd]
  rw [Resting, List.countP_append, hzero, Nat.add_zero]
  exact h

theorem owes_caller (calls : List IoctlCall) (h : Resting self [] k) :
    owes serial self (caller self calls) (fun _ => Resting self calls) k := by
  refine Prog.rg_forEach (rely_refl self) (Resting self) (fun past k k' hR => at_rely hR) ?_ h
  intro past call k _ hk
  refine rg_ioctl (rely_refl self) (fun k => ⟨kept_refl k, fun j _ => rfl⟩)
    (fun k k' hR => at_rely hR) (fun k k' hR => at_rely hR) ?_ ?_ hk
  · intro t ht k hk
    have hcmd := code_of_requestedIn ht
    by_cases hmmio : t = .mmio
    · rw [hmmio] at hcmd ⊢
      have hone : [call].countP (fun call => call.cmd = mmio) = 1 := by simp [hcmd, code]
      simp only [List.countP_append, hone]
      exact owes_mmioTest hk
    · have hne : call.cmd ≠ mmio := by
        rw [hcmd]
        cases t <;> first | exact absurd rfl hmmio | decide
      by_cases hicmp : t = .icmp
      · rw [hicmp]
        exact Prog.rg_mono (fun _ k _ h => resting_append hne h) (owes_icmpTest hk)
      · exact rg_quiet (fun k => ⟨kept_refl k, fun j _ => rfl⟩) (fun k k' hR => at_rely hR)
          (uses_quietTest hmmio hicmp) (resting_append hne hk)
  · intro hnone k hk
    have hne := ne_code_of_requestedIn (fun t => by cases t <;> decide) hnone .mmio
    exact resting_append hne hk

/-- In every interleaving of any number of callers: a task outside `icmp_test` has its own address
limit, every message went to the one host under the raised limit and on a socket of the driver,
and a task that is through has left one socket for each of its messages and one mapping for each
of its MMIO calls. -/
theorem callers_leave (serial : Bool) (calls : ι → List IoctlCall) (data : ι → Packet)
    (tr : List (Threads.Action ι ((c : FocusCmd ι) → c.Answer) Empty))
    (t : Threads.State ι (Kernel ι) (FocusProg ι (List ℤ)))
    (hrun : (Prog.tasks (effect serial)).machine.run
      ⟨loaded data, fun i => caller i (calls i)⟩ tr = some t) :
    (∀ i, i ∉ t.shared.inside → t.shared.limits i = .userDs) ∧
    (∀ m ∈ t.shared.sent, m.limit = .kernelDs ∧
      m.name = some ⟨afInet, 0, inAton 192 168 199 1⟩ ∧ m.size = 13 ∧
      m.sock ∈ t.shared.sockets.map Prod.snd) ∧
    ∀ i results, t.locals i = .pure results → i ∉ t.shared.inside ∧
      socketsOf i t.shared = sentBy i t.shared ∧
      mapsOf i t.shared = (calls i).countP fun call => call.cmd = mmio := by
  have hsound : Sound (loaded data) := ⟨rfl, by simp [loaded], fun _ _ => rfl⟩
  have hstart : ∀ i, owes serial i (caller i (calls i)) (fun _ => Resting i (calls i))
      (loaded data) := fun i => owes_caller (calls i) ⟨0, rfl⟩
  obtain ⟨hend, hdone⟩ := Prog.tasks_run rely_refl rely_trans rely_of_guarantee hsound hstart hrun
  refine ⟨hend.limits, fun m hm => ?_, fun i results hi => ?_⟩
  · obtain ⟨haddressed, hsock⟩ := hend.sent m hm
    exact ⟨haddressed.limit, haddressed.name, haddressed.size, hsock⟩
  · obtain ⟨n, hn⟩ := hdone i results hi
    simp only [view, Prod.mk.injEq, decide_eq_false_iff_not] at hn
    obtain ⟨hinside, -, hsockets, hsent, hmaps⟩ := hn
    exact ⟨hinside, hsockets.trans hsent.symm, hmaps⟩

/-- Two tasks of which one is in `icmp_test` while the other runs it and the MMIO test. -/
theorem callers_leave_two :
    let calls (i : Bool) : List IoctlCall := if i then [⟨icmp, 0⟩] else [⟨icmp, 0⟩, ⟨mmio, 0⟩]
    let tr := turns true 7 23 ++ turns false 8 36 ++ turns true 8 7
    ∃ t, (Prog.tasks (effect false)).machine.run
        ⟨loaded fun _ => [], fun i => caller i (calls i)⟩ tr = some t ∧
      (∀ i, i ∉ t.shared.inside → t.shared.limits i = .userDs) ∧
      (∀ m ∈ t.shared.sent, m.limit = .kernelDs ∧
        m.name = some ⟨afInet, 0, inAton 192 168 199 1⟩ ∧ m.size = 13 ∧
        m.sock ∈ t.shared.sockets.map Prod.snd) ∧
      ∀ i results, t.locals i = .pure results → i ∉ t.shared.inside ∧
        socketsOf i t.shared = sentBy i t.shared ∧
        mapsOf i t.shared = (calls i).countP fun call => call.cmd = mmio := by
  intro calls tr
  have hsome : ((Prog.tasks (effect false)).machine.run
      ⟨loaded fun _ => [], fun i => caller i (calls i)⟩ tr).isSome = true := by decide +kernel
  obtain ⟨t, ht⟩ := Option.isSome_iff_exists.mp hsome
  exact ⟨t, ht, callers_leave false calls (fun _ => []) tr t ht⟩

end Interleavings

end PcmTest.Driver.FocusTest
