import PcmTest.Driver.Dispatch
import PcmTest.Driver.Report

/-!
# The focus_test driver with its test bodies

The ten test bodies as programs over the instructions, kernel calls and memory
accesses that they consist of. icmp.c keeps what it sends in statics, which all
callers share, and one array on the stack of the caller; every statement of it is
a command of its own. The driver is its entry with the bodies in place, and a
sequence of calls executes between its hypercalls the instructions that the codes
ask for.
-/

namespace PcmTest.Driver.FocusTest

open Theory

/-- The values of `mm_segment_t`; the last is that of a static never assigned. -/
inductive Segment where
  | userDs
  | kernelDs
  | unassigned
  deriving DecidableEq, Repr

/-- A `struct socket *` of the kernel. -/
abbrev Socket := ℕ

/-- The pointers that icmp.c stores; `data` is the array on the stack of a caller. -/
inductive Pointer (ι : Type) where
  | null
  | addrIn
  | iov
  | data (caller : ι)
  deriving DecidableEq, Repr

structure SockaddrIn where
  family : BitVec 16
  port : BitVec 16
  addr : U32
  deriving DecidableEq, Repr

structure Icmphdr where
  type : BitVec 8
  code : BitVec 8
  checksum : BitVec 16
  id : BitVec 16
  sequence : BitVec 16
  deriving DecidableEq, Repr

def Icmphdr.zero : Icmphdr := ⟨0, 0, 0, 0, 0⟩

/-- The header in memory, on a little-endian machine. -/
def Icmphdr.bytes (h : Icmphdr) : List (BitVec 8) :=
  [h.type, h.code] ++ halfword h.checksum ++ halfword h.id ++ halfword h.sequence
where
  halfword (v : BitVec 16) : List (BitVec 8) := [v.setWidth 8, (v >>> 8).setWidth 8]

structure Msghdr (ι : Type) where
  name : Pointer ι
  namelen : U32
  control : Pointer ι
  controllen : U64
  iov : Pointer ι
  deriving DecidableEq, Repr

structure Iovec (ι : Type) where
  base : Pointer ι
  len : U64
  deriving DecidableEq, Repr

/-- The content of `char data[sizeof(icmp_hdr) + 5]`. -/
abbrev Packet := List (BitVec 8)

def sizeofIcmphdr : ℕ := 8

def hello : Packet := [0x68, 0x65, 0x6c, 0x6c, 0x6f]

/-- `in_aton`: the first byte has the lowest address. -/
def inAton (a b c d : BitVec 8) : U32 := d ++ c ++ b ++ a

def afInet : BitVec 16 := 2
def sockDgram : BitVec 16 := 2
def ipprotoIcmp : BitVec 16 := 1
def icmpEcho : BitVec 8 := 8
def sizeofSockaddrIn : U32 := 16

/-- An assignment of icmp.c to a static or, by `memcpy`, to the array of the caller. -/
inductive Assign (ι : Type) where
  | retVal (v : ℤ)
  | sinFamily (v : BitVec 16)
  | sinAddr (v : U32)
  | clearIcmpHdr
  | icmpType (v : BitVec 8)
  | echoId (v : BitVec 16)
  | echoSequence (v : BitVec 16)
  | copyHdr (dst : ι)
  | copyText (dst : ι) (text : Packet)
  | iovBase (p : Pointer ι)
  | iovLen (n : U64)
  | msgName (p : Pointer ι)
  | msgNamelen (n : U32)
  | msgControl (p : Pointer ι)
  | msgControllen (n : U64)
  | msgIov (p : Pointer ι)
  | oldfs (seg : Segment)
  deriving DecidableEq, Repr

/-- The instructions, kernel calls and memory accesses of the driver. `enter` and `leave` begin
and end the lifetime of the array of `icmp_test`. -/
inductive FocusCmd (ι : Type) where
  | accessOk (type : Verify) (addr : U64) (size : U32)
  | localIrqDisable
  | localIrqEnable
  | hypercall (nr : U32)
  | cpuid (op : U32)
  | invd
  | rdpmc (counter : U32)
  | rdtsc
  | rdtscp
  | rdseed
  | rdrand
  | ioremap (phys size : U64)
  | readl (addr : U64)
  | printk (line : Line)
  | enter
  | leave
  | sockCreate (family type protocol : BitVec 16)
  | loadRetVal
  | loadSock
  | loadOldfs
  | assign (a : Assign ι)
  | getFs
  | setFs (seg : Segment)
  | sockSendmsg (sock : Socket) (size : ℕ)
  deriving DecidableEq, Repr

/-- `rdtscp` answers with the counter and `aux`, `rdseed` and `rdrand` with the register and the
carry flag, `enter` with what is in the array, and `sock_create` with its result and the socket
of a success. -/
def FocusCmd.Answer {ι : Type} : FocusCmd ι → Type
  | .accessOk _ _ _ => Bool
  | .cpuid _ | .readl _ => U32
  | .rdpmc _ | .rdtsc | .ioremap _ _ => U64
  | .rdtscp => U64 × U32
  | .rdseed | .rdrand => U64 × Bool
  | .enter => { xs : Packet // xs.length = sizeofIcmphdr + 5 }
  | .sockCreate _ _ _ => ℤ × Socket
  | .loadRetVal | .sockSendmsg _ _ => ℤ
  | .loadSock => Socket
  | .loadOldfs | .getFs => Segment
  | _ => Unit

abbrev FocusProg (ι : Type) := Prog (FocusCmd ι) FocusCmd.Answer

abbrev FocusTrace (ι : Type) := List (Prog.Event (FocusCmd ι) FocusCmd.Answer)

section Bodies

variable {ι : Type}

def printk (format : String) (args : List PrintArg) : FocusProg ι Unit :=
  Prog.call (FocusCmd.printk (format, args))

def assign (a : Assign ι) : FocusProg ι Unit := Prog.call (FocusCmd.assign a)

def cpuidTest : FocusProg ι Unit := do
  let _ ← (Prog.call (FocusCmd.cpuid 0) : FocusProg ι U32)

def invdTest : FocusProg ι Unit := Prog.call FocusCmd.invd

def rdpmcTest : FocusProg ι Unit := do
  let _ ← (Prog.call (FocusCmd.rdpmc 0) : FocusProg ι U64)

/-- The mapping is never undone. -/
def mmioTest : FocusProg ι Unit := do
  let addr ← (Prog.call (FocusCmd.ioremap 0xfebc0000 4) : FocusProg ι U64)
  let _ ← (Prog.call (FocusCmd.readl addr) : FocusProg ι U32)

def pioTest : FocusProg ι Unit :=
  printk "disabled pio case, revisit later %d%d%d%d" [.int 0, .int 2, .int 0, .int 0]

def rdtscTest : FocusProg ι Unit := do
  let val ← (Prog.call FocusCmd.rdtsc : FocusProg ι U64)
  printk "rdtsc=%llx\n" [.long val]

def rdtscpTest : FocusProg ι Unit := do
  let val ← (Prog.call FocusCmd.rdtscp : FocusProg ι (U64 × U32))
  printk "rdtscp=%llx\n" [.long val.1]

/-- The carry flag is returned, and dropped by the caller. -/
def rdseedLong : FocusProg ι (U64 × Bool) := Prog.call FocusCmd.rdseed

def rdseedTest : FocusProg ι Unit := do
  let v ← rdseedLong
  printk "get_rdseed=%lx\n" [.long v.1]

def rdrandRetryLoops : ℕ := 10

/-- `do … while (--retry)`, left early on success. -/
def rdrandLong : FocusProg ι (U64 × Bool) :=
  Prog.retry (Prog.call FocusCmd.rdrand) (fun v : U64 × Bool => v.2) (rdrandRetryLoops - 1)

def rdrandTest : FocusProg ι Unit := do
  let v ← rdrandLong
  printk "get_rdrand=%lx\n" [.long v.1]

/-- The assignments between `sock_create` and `get_fs`, in their order. -/
def fillMessage (self : ι) : List (Assign ι) :=
  [.sinFamily afInet, .sinAddr (inAton 192 168 199 1), .clearIcmpHdr, .icmpType icmpEcho,
    .echoId 1234, .echoSequence 1, .copyHdr self, .copyText self hello, .iovBase (.data self),
    .iovLen 13, .msgName .addrIn, .msgNamelen sizeofSockaddrIn, .msgControl .null,
    .msgControllen 0, .msgIov .iov]

/-- Between the creation of the socket and the end of the function; nothing releases it. -/
def sendHello (self : ι) : FocusProg ι Unit := do
  let _ ← Prog.forEach assign (fillMessage self)
  let fs ← (Prog.call FocusCmd.getFs : FocusProg ι Segment)
  assign (.oldfs fs)
  Prog.call (FocusCmd.setFs .kernelDs)
  let sock ← (Prog.call FocusCmd.loadSock : FocusProg ι Socket)
  let _ ← (Prog.call (FocusCmd.sockSendmsg sock (sizeofIcmphdr + 5)) : FocusProg ι ℤ)
  let oldfs ← (Prog.call FocusCmd.loadOldfs : FocusProg ι Segment)
  Prog.call (FocusCmd.setFs oldfs)

/-- The early return of a failed `sock_create`. -/
def reportFailure : FocusProg ι Unit := do
  let ret ← (Prog.call FocusCmd.loadRetVal : FocusProg ι ℤ)
  printk "Create socket for ICMP failed.%d\n" [.int (BitVec.ofInt 32 ret)]

def afterCreate (self : ι) (ret : ℤ) : FocusProg ι Unit :=
  if ret < 0 then reportFailure else sendHello self

def icmpTest (self : ι) : FocusProg ι Unit := do
  let _ ← Prog.call FocusCmd.enter
  let created ← (Prog.call (FocusCmd.sockCreate afInet sockDgram ipprotoIcmp) :
    FocusProg ι (ℤ × Socket))
  assign (.retVal created.1)
  afterCreate self created.1
  Prog.call FocusCmd.leave

/-- The body of each test, run by the caller `self`. -/
def testBody (self : ι) : Test → FocusProg ι Unit
  | .cpuid => cpuidTest
  | .rdpmc => rdpmcTest
  | .rdrand => rdrandTest
  | .rdseed => rdseedTest
  | .invd => invdTest
  | .rdtsc => rdtscTest
  | .rdtscp => rdtscpTest
  | .pio => pioTest
  | .mmio => mmioTest
  | .icmp => icmpTest self

def entryCmd (self : ι) : (c : IoctlCmd Test) → FocusProg ι c.Answer
  | .accessOk type addr size => Prog.call (FocusCmd.accessOk type addr size)
  | .localIrqDisable => Prog.call FocusCmd.localIrqDisable
  | .localIrqEnable => Prog.call FocusCmd.localIrqEnable
  | .hypercall nr => Prog.call (FocusCmd.hypercall nr)
  | .test t => testBody self t

/-- `pcm_cdev_ioctl` with its test bodies. -/
def pcmCdevIoctlFull (self : ι) (cmd : U32) (arg : U64) : FocusProg ι ℤ :=
  (pcmCdevIoctl cmd arg).expand (entryCmd self)

/-- What one caller does: any sequence of calls. -/
def caller (self : ι) (calls : List IoctlCall) : FocusProg ι (List ℤ) :=
  Prog.forEach (fun call => pcmCdevIoctlFull self call.cmd call.arg) calls

end Bodies

section Exits

variable {ι : Type}

/-- The commands that a hypervisor may see: what the driver was written to measure. -/
def FocusCmd.mayExit : FocusCmd ι → Bool
  | .hypercall _ | .cpuid _ | .invd | .rdpmc _ | .rdtsc | .rdtscp | .rdseed | .rdrand
  | .readl _ => true
  | _ => false

def exits (tr : FocusTrace ι) : FocusTrace ι := tr.filter fun e => e.1.mayExit

def printed (tr : FocusTrace ι) : List Line :=
  tr.filterMap fun
    | ⟨.printk line, _⟩ => some line
    | _ => none

@[simp] theorem exits_append (tr₁ tr₂ : FocusTrace ι) :
    exits (tr₁ ++ tr₂) = exits tr₁ ++ exits tr₂ := List.filter_append ..

@[simp] theorem printed_append (tr₁ tr₂ : FocusTrace ι) :
    printed (tr₁ ++ tr₂) = printed tr₁ ++ printed tr₂ := List.filterMap_append

def rdrandEvent (v : U64 × Bool) : Prog.Event (FocusCmd ι) FocusCmd.Answer := ⟨.rdrand, v⟩

/-- What each test executes that may exit, and what it prints. `RDRAND` is retried until it
delivers, at most ten times in all; what the last attempt left is printed either way, and so is
what a failed `RDSEED` leaves. -/
inductive Executes : Test → FocusTrace ι → List Line → Prop
  | cpuid (eax : U32) : Executes .cpuid [⟨.cpuid 0, eax⟩] []
  | rdpmc (val : U64) : Executes .rdpmc [⟨.rdpmc 0, val⟩] []
  | rdrand (failed : List (U64 × Bool)) (v : U64 × Bool) (hfailed : ∀ x ∈ failed, x.2 = false)
      (hstop : failed.length < 9 ∧ v.2 = true ∨ failed.length = 9) :
      Executes .rdrand ((failed ++ [v]).map rdrandEvent) [("get_rdrand=%lx\n", [.long v.1])]
  | rdseed (v : U64 × Bool) :
      Executes .rdseed [⟨.rdseed, v⟩] [("get_rdseed=%lx\n", [.long v.1])]
  | invd : Executes .invd [⟨.invd, ()⟩] []
  | rdtsc (val : U64) : Executes .rdtsc [⟨.rdtsc, val⟩] [("rdtsc=%llx\n", [.long val])]
  | rdtscp (val : U64 × U32) :
      Executes .rdtscp [⟨.rdtscp, val⟩] [("rdtscp=%llx\n", [.long val.1])]
  | pio : Executes .pio []
      [("disabled pio case, revisit later %d%d%d%d", [.int 0, .int 2, .int 0, .int 0])]
  | mmio (addr : U64) (val : U32) : Executes .mmio [⟨.readl addr, val⟩] []
  | icmp {failure : List Line}
      (h : failure = [] ∨ ∃ ret, failure = [("Create socket for ICMP failed.%d\n", [.int ret])]) :
      Executes .icmp [] failure

/-- The commands of icmp.c apart from its print. -/
def FocusCmd.IsIcmp : FocusCmd ι → Prop
  | .enter | .leave | .sockCreate _ _ _ | .loadRetVal | .loadSock | .loadOldfs | .assign _ | .getFs
  | .setFs _ | .sockSendmsg _ _ => True
  | _ => False

/-- The commands of the test bodies, as against those of the entry. -/
def FocusCmd.IsBody : FocusCmd ι → Prop
  | .accessOk _ _ _ | .localIrqDisable | .localIrqEnable | .hypercall _ => False
  | _ => True

theorem exits_icmp {tr : FocusTrace ι} (h : ∀ e ∈ tr, e.1.IsIcmp) : exits tr = [] := by
  apply List.filter_eq_nil_iff.mpr
  rintro ⟨c, x⟩ he
  have hc : c.IsIcmp := h _ he
  cases c <;> simp_all [FocusCmd.IsIcmp, FocusCmd.mayExit]

theorem printed_icmp {tr : FocusTrace ι} (h : ∀ e ∈ tr, e.1.IsIcmp) : printed tr = [] := by
  apply List.filterMap_eq_nil_iff.mpr
  rintro ⟨c, x⟩ he
  cases c with
  | printk line => exact (h _ he).elim
  | _ => rfl

theorem isBody_of_isIcmp (c : FocusCmd ι) (hc : c.IsIcmp) : c.IsBody := by
  cases c <;> trivial

theorem uses_assigns (as : List (Assign ι)) :
    (Prog.forEach assign as).Uses FocusCmd.IsIcmp := by
  induction as with
  | nil => trivial
  | cons a as ih =>
    exact Prog.uses_bind (Prog.uses_call.mpr trivial) fun _ => Prog.uses_bind ih fun _ => trivial

theorem uses_sendHello (self : ι) : (sendHello self).Uses FocusCmd.IsIcmp := by
  refine Prog.uses_bind (uses_assigns _) fun _ => ⟨trivial, fun fs => ⟨trivial, fun _ => ?_⟩⟩
  refine ⟨trivial, fun _ => ⟨trivial, fun sock => ⟨trivial, fun _ => ?_⟩⟩⟩
  exact ⟨trivial, fun oldfs => ⟨trivial, fun _ => trivial⟩⟩

theorem uses_rdrandTest : (rdrandTest : FocusProg ι Unit).Uses FocusCmd.IsBody :=
  Prog.uses_bind (Prog.uses_retry (Prog.uses_call.mpr trivial) _)
    fun _ => ⟨trivial, fun _ => trivial⟩

theorem uses_icmpTest (self : ι) : (icmpTest self).Uses FocusCmd.IsBody := by
  have hafter : ∀ ret, (afterCreate self ret).Uses FocusCmd.IsBody := by
    intro ret
    rw [afterCreate]
    split_ifs
    · exact ⟨trivial, fun ret => ⟨trivial, fun _ => trivial⟩⟩
    · exact Prog.uses_mono isBody_of_isIcmp (uses_sendHello self)
  refine Prog.uses_bind (Prog.uses_call.mpr trivial) fun data => ?_
  refine Prog.uses_bind (Prog.uses_call.mpr trivial) fun created => ?_
  refine Prog.uses_bind (Prog.uses_call.mpr trivial) fun _ => ?_
  exact Prog.uses_bind (hafter _) fun _ => ⟨trivial, fun _ => trivial⟩

theorem uses_testBody (self : ι) (t : Test) : (testBody self t).Uses FocusCmd.IsBody := by
  cases t with
  | rdrand => exact uses_rdrandTest
  | icmp => exact uses_icmpTest self
  | mmio => exact ⟨trivial, fun _ => ⟨trivial, fun _ => trivial⟩⟩
  | rdseed | rdtsc | rdtscp => exact ⟨trivial, fun _ => ⟨trivial, fun _ => trivial⟩⟩
  | cpuid | rdpmc | invd | pio => exact ⟨trivial, fun _ => trivial⟩

theorem exits_attempts (vs : List (U64 × Bool)) :
    exits (vs.map (rdrandEvent (ι := ι))) = vs.map rdrandEvent := by
  induction vs with
  | nil => rfl
  | cons v vs ih => exact congrArg (rdrandEvent v :: ·) ih

theorem printed_attempts (vs : List (U64 × Bool)) :
    printed (vs.map (rdrandEvent (ι := ι))) = [] := by
  induction vs with
  | nil => rfl
  | cons v vs ih => exact ih

theorem executes_rdrand {tr : FocusTrace ι} {u : Unit}
    (h : (rdrandTest : FocusProg ι Unit).Runs tr u) : Executes .rdrand (exits tr) (printed tr) := by
  obtain ⟨tr₁, v, tr₂, rfl, hlong, hprint⟩ := Prog.runs_bind.mp h
  obtain ⟨attempts, last, hattempts, hlast, hstop, rfl⟩ := Prog.runs_retry.mp hlong
  have htrace : attempts.flatMap Prod.fst ++ last =
      (attempts.map Prod.snd ++ [v]).map (rdrandEvent (ι := ι)) := by
    have hone : ∀ x ∈ attempts, x.1 = [rdrandEvent x.2] :=
      fun x hx => Prog.runs_call (hattempts x hx).1
    rw [List.map_append, List.map_map, Prog.runs_call hlast, List.flatMap_def,
      List.map_congr_left hone, ← List.flatMap_def]
    congr 1
    exact (List.map_eq_flatMap ..).symm
  have hfailed : ∀ x ∈ attempts.map Prod.snd, x.2 = false := by
    intro x hx
    obtain ⟨y, hy, rfl⟩ := List.mem_map.mp hx
    exact (hattempts y hy).2
  have hexec := Executes.rdrand (ι := ι) (attempts.map Prod.snd) v hfailed
    (by rwa [List.length_map])
  rw [htrace, Prog.runs_call hprint, exits_append, printed_append, exits_attempts,
    printed_attempts]
  exact (List.append_nil _).symm ▸ hexec

/-- What `icmp_test` does by name may not exit; a failure is printed. -/
theorem executes_icmp {self : ι} {tr : FocusTrace ι} {u : Unit} (h : (icmpTest self).Runs tr u) :
    Executes .icmp (exits tr) (printed tr) := by
  obtain ⟨data, tr₁, rfl, h₁⟩ := Prog.runs_call_bind.mp h
  obtain ⟨created, tr₂, rfl, h₂⟩ := Prog.runs_call_bind.mp h₁
  obtain ⟨⟨⟩, tr₃, rfl, h₃⟩ := Prog.runs_call_bind.mp h₂
  obtain ⟨body, ⟨⟩, tr₄, rfl, hbody, h₄⟩ := Prog.runs_bind.mp h₃
  rw [Prog.runs_call h₄]
  have hexits : exits (⟨.enter, data⟩ :: ⟨.sockCreate afInet sockDgram ipprotoIcmp, created⟩ ::
      ⟨.assign (.retVal created.1), ()⟩ :: (body ++ [⟨.leave, ()⟩])) = exits body :=
    (exits_append body _).trans (List.append_nil _)
  have hprinted : printed (⟨.enter, data⟩ :: ⟨.sockCreate afInet sockDgram ipprotoIcmp, created⟩ ::
      ⟨.assign (.retVal created.1), ()⟩ :: (body ++ [⟨.leave, ()⟩])) = printed body :=
    (printed_append body _).trans (List.append_nil _)
  rw [hexits, hprinted]
  rw [afterCreate] at hbody
  split_ifs at hbody with hret
  · obtain ⟨ret, tr₅, rfl, h₅⟩ := Prog.runs_call_bind.mp hbody
    rw [Prog.runs_call h₅]
    exact .icmp (.inr ⟨_, rfl⟩)
  · have hicmp := (uses_sendHello self).of_runs hbody
    rw [exits_icmp hicmp, printed_icmp hicmp]
    exact .icmp (.inl rfl)

theorem executes_testBody {self : ι} {t : Test} {tr : FocusTrace ι} {u : Unit}
    (h : (testBody self t).Runs tr u) : Executes t (exits tr) (printed tr) := by
  cases t with
  | cpuid =>
    obtain ⟨eax, tr', rfl, hrest⟩ := Prog.runs_call_bind.mp h
    rw [(Prog.runs_pure.mp hrest).1]
    exact .cpuid eax
  | rdpmc =>
    obtain ⟨val, tr', rfl, hrest⟩ := Prog.runs_call_bind.mp h
    rw [(Prog.runs_pure.mp hrest).1]
    exact .rdpmc val
  | rdrand => exact executes_rdrand h
  | rdseed =>
    obtain ⟨v, tr', rfl, hrest⟩ := Prog.runs_call_bind.mp h
    rw [Prog.runs_call hrest]
    exact .rdseed v
  | invd =>
    rw [Prog.runs_call h]
    exact .invd
  | rdtsc =>
    obtain ⟨val, tr', rfl, hrest⟩ := Prog.runs_call_bind.mp h
    rw [Prog.runs_call hrest]
    exact .rdtsc val
  | rdtscp =>
    obtain ⟨val, tr', rfl, hrest⟩ := Prog.runs_call_bind.mp h
    rw [Prog.runs_call hrest]
    exact .rdtscp val
  | pio =>
    rw [Prog.runs_call h]
    exact .pio
  | mmio =>
    obtain ⟨addr, tr', rfl, hrest⟩ := Prog.runs_call_bind.mp h
    obtain ⟨val, tr'', rfl, hlast⟩ := Prog.runs_call_bind.mp hrest
    rw [(Prog.runs_pure.mp hlast).1]
    exact .mmio addr val
  | icmp => exact executes_icmp h

end Exits

section Window

variable {ι : Type}

def FocusCmd.IsAccess : FocusCmd ι → Prop
  | .accessOk _ _ _ => True
  | _ => False

/-- What an accepted call does around its test. -/
def window (body : FocusTrace ι) : FocusTrace ι :=
  ⟨.localIrqDisable, ()⟩ :: ⟨.hypercall 102, ()⟩ ::
    (body ++ [⟨.hypercall 103, ()⟩, ⟨.localIrqEnable, ()⟩])

/-- The body of an accepted call, for the test whose code it has. -/
def BodyOf : Option Test → FocusTrace ι → Prop
  | none, body => body = []
  | some t, body => Executes t (exits body) (printed body) ∧ ∀ e ∈ body, e.1.IsBody

/-- A word that is no code is rejected with an error, or passes the checks and opens a window with
nothing in it. A code opens a window with its test in it. -/
inductive Served (cmd : U32) : FocusTrace ι → ℤ → Prop
  | rejected {tr : FocusTrace ι} {err : ℤ} (hcode : requested cmd = none) (herr : err < 0)
      (htr : ∀ e ∈ tr, e.1.IsAccess) : Served cmd tr err
  | accepted {pre body : FocusTrace ι} (hpre : ∀ e ∈ pre, e.1.IsAccess)
      (hbody : BodyOf (requested cmd) body) : Served cmd (pre ++ window body) 0

theorem access_of_expands {self : ι} {tr : IoctlTrace Test} {tr' : FocusTrace ι}
    (hexp : Prog.Expands (entryCmd self) tr tr') (htr : ∀ e ∈ tr, IsAccessOk e.1) :
    ∀ e ∈ tr', e.1.IsAccess := by
  have huses : ∀ e ∈ tr, (entryCmd self e.1).Uses FocusCmd.IsAccess := by
    rintro ⟨c, x⟩ he
    cases c with
    | accessOk type addr size => exact ⟨trivial, fun _ => trivial⟩
    | _ => exact (htr _ he).elim
  exact hexp.uses huses

theorem expands_bracket {self : ι} {body : IoctlTrace Test} {tr : FocusTrace ι}
    (hexp : Prog.Expands (entryCmd self) (bracket body) tr) :
    ∃ body', Prog.Expands (entryCmd self) body body' ∧ tr = window body' := by
  obtain ⟨_, _, rfl, h₁, hrest⟩ := Prog.expands_cons hexp
  obtain ⟨_, _, rfl, h₂, hrest⟩ := Prog.expands_cons hrest
  obtain ⟨body', _, rfl, hbody, hrest⟩ := Prog.expands_append hrest
  obtain ⟨_, _, rfl, h₃, hrest⟩ := Prog.expands_cons hrest
  obtain ⟨_, _, rfl, h₄, hrest⟩ := Prog.expands_cons hrest
  rw [Prog.runs_call h₁, Prog.runs_call h₂, Prog.runs_call h₃, Prog.runs_call h₄,
    Prog.expands_nil hrest]
  exact ⟨body', hbody, rfl⟩

theorem bodyOf_of_expands {self : ι} {cmd : U32} {body : FocusTrace ι}
    (hexp : Prog.Expands (entryCmd self) ((switchTests cmd arms).map testEvent) body) :
    BodyOf (requested cmd) body := by
  rw [switchTests_arms] at hexp
  cases hreq : requested cmd with
  | none =>
    rw [hreq] at hexp
    exact Prog.expands_nil hexp
  | some t =>
    rw [hreq] at hexp
    obtain ⟨part, rest, rfl, hpart, hrest⟩ := Prog.expands_cons hexp
    rw [Prog.expands_nil hrest, List.append_nil]
    exact ⟨executes_testBody hpart, (uses_testBody self t).of_runs hpart⟩

theorem served_of_runs {self : ι} {cmd : U32} {arg : U64} {tr : FocusTrace ι} {r : ℤ}
    (h : (pcmCdevIoctlFull self cmd arg).Runs tr r) : Served cmd tr r := by
  obtain ⟨tr₀, hrun, hexp⟩ := Prog.runs_expand h
  have htrace := callTrace_of_runs hrun
  cases hreq : requested cmd with
  | none =>
    cases htrace with
    | rejected hpre herr hwhy => exact .rejected hreq herr (access_of_expands hexp hpre)
    | accepted hpre hok =>
      obtain ⟨pre, _, rfl, hexpPre, hexp⟩ := Prog.expands_append hexp
      obtain ⟨body, hbody, rfl⟩ := expands_bracket hexp
      exact .accepted (access_of_expands hexpPre hpre) (bodyOf_of_expands hbody)
  | some t =>
    have hresult : r = 0 := result_of_code (t := t) (code_of_requestedIn hreq ▸ htrace)
    cases htrace with
    | rejected hpre herr hwhy => exact absurd hresult (Int.ne_of_lt herr)
    | accepted hpre hok =>
      obtain ⟨pre, _, rfl, hexpPre, hexp⟩ := Prog.expands_append hexp
      obtain ⟨body, hbody, rfl⟩ := expands_bracket hexp
      exact .accepted (access_of_expands hexpPre hpre) (bodyOf_of_expands hbody)

end Window

end PcmTest.Driver.FocusTest
