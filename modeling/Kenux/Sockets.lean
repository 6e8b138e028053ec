import Kenux.Bytes
import Kenux.Tcp

/-!
The sockets of `net.c`: descriptors, and the TCP and UDP control blocks that they
point to. Whether a block is free is read off its protocol state, so a block that was
just taken may be taken again; and the two pointers of a descriptor are one union, through
which TCP code reaches UDP blocks (`sockets_share_blocks`). In every run in which a block
is taken only when no open descriptor points to it, no datagram socket is connected, and
none is closed while it is bound or shares its port, the descriptors have blocks of their own,
and closing a socket releases its block and no other and ends what comes in on its port
(`sockets_run_isolated`).
-/
namespace Kenux.Sockets
open Kenux.Bytes Kenux.Tcp Kenux.Runs
open Function (update update_self update_of_ne)

def afInet : Int := 2
def sockStream : Int := 1
def sockDgram : Int := 2
def maxDescriptors : Nat := 128
def udpMaxSockets : Nat := 32
def udpRxBufSize : Nat := 8192
def sizeofUdpHeader : Nat := 8

/-- The numbers of the TCP states, for code that reads one out of a UDP block. -/
def tcpSynSent : BitVec 32 := 1
def tcpEstablished : BitVec 32 := 3
def tcpFinWait1 : BitVec 32 := 4
def tcpListen : BitVec 32 := 10

structure UdpSocket where
  localIp : BitVec 32
  localPort : BitVec 16
  remoteIp : BitVec 32
  remotePort : BitVec 16
  bound : BitVec 32
  lock : BitVec 32
  rxBuf : Nat → UInt8
  rxHead : BitVec 32
  rxTail : BitVec 32
  peerIp : BitVec 32
  peerPort : BitVec 16
  hasData : Bool

/-- The union of a descriptor: the address of a TCP or of a UDP block. -/
inductive Block where
  | tcp (i : Nat)
  | udp (i : Nat)
  deriving DecidableEq, Repr

structure Socket where
  domain : Int
  type : Int
  protocol : Int
  block : Option Block
  deriving DecidableEq, Repr

/-- The tables of `net.c`; the descriptors are in `sockets`, not in `tcp`. -/
structure Kernel where
  tcp : Net
  udp : Nat → UdpSocket
  sockets : Nat → Socket
  netConfigured : Bool

def Socket.cleared : Socket := ⟨0,0,0,none⟩

def UdpSocket.cleared : UdpSocket := ⟨0,0,0,0,0,0,fun _ => 0,0,0,0,0,false⟩

def clearedTcp : TcpSocket := ⟨.closed,0,0,0,0,0,0,0,0,0,fun _ => 0,0,0⟩

variable (k : Kernel)

def Kernel.setTcp (i : Nat) (b : TcpSocket) : Kernel := { k with tcp := k.tcp.setSock i b }

def Kernel.setUdp (i : Nat) (b : UdpSocket) : Kernel := { k with udp := update k.udp i b }

def Kernel.setSocket (fd : Nat) (sock : Socket) : Kernel :=
  { k with sockets := update k.sockets fd sock }

def Kernel.freeDescriptor : Option Nat :=
  (List.range maxDescriptors).find? (fun fd => (k.sockets fd).domain = 0)

def Kernel.closedBlock : Option Nat :=
  (List.range maxSockets).find? (fun i => (k.tcp.socks i).state = .closed)

def Kernel.unboundBlock : Option Nat :=
  (List.range udpMaxSockets).find? (fun i => (k.udp i).bound = 0)

def Kernel.pendingBlock : Option Nat :=
  (List.range maxSockets).find? (fun i => (k.tcp.socks i).state = .synRecv)

def descriptor (sockfd : Int) : Option Nat :=
  if sockfd < 0 ∨ sockfd ≥ maxDescriptors then none else some sockfd.toNat

def sysSocket (domain type protocol : Int) : Int × Kernel :=
  if domain ≠ afInet then (-1,k)
  else
    match k.freeDescriptor with
    | none => (-1,k)
    | some fd =>
      if type = sockStream then
        match k.closedBlock with
        | none => (-1,k.setSocket fd .cleared)
        | some i => (fd,(k.setTcp i clearedTcp).setSocket fd ⟨domain,type,protocol,some (.tcp i)⟩)
      else if type = sockDgram then
        match k.unboundBlock with
        | none => (-1,k.setSocket fd .cleared)
        | some i => (fd,(k.setUdp i .cleared).setSocket fd ⟨domain,type,protocol,some (.udp i)⟩)
      else (fd,k.setSocket fd ⟨domain,type,protocol,none⟩)

def sysBind (sockfd : Int) (ip : BitVec 32) (port : BitVec 16) : Int × Kernel :=
  match descriptor sockfd with
  | none => (-1,k)
  | some fd =>
    let sock := k.sockets fd
    if sock.domain = 0 then (-1,k)
    else
      match sock.block with
      | some (.tcp i) =>
        if sock.type = sockStream then (0,k.setTcp i { k.tcp.socks i with localIp := ip, localPort := port }) else (0,k)
      | some (.udp i) =>
        if sock.type = sockDgram then (0,k.setUdp i { k.udp i with localIp := ip, localPort := port, bound := 1 })
        else (0,k)
      | none => (0,k)

/-- In a UDP block the local address lies where a TCP block has its state. -/
def sysListen (sockfd : Int) : Int × Kernel :=
  match descriptor sockfd with
  | none => (-1,k)
  | some fd =>
    match (k.sockets fd).block with
    | none => (-1,k)
    | some (.tcp i) => (0,k.setTcp i { k.tcp.socks i with state := .listen })
    | some (.udp i) => (0,k.setUdp i { k.udp i with localIp := tcpListen })

/-- The test `sock->tcp && sock->tcp->state == TCP_LISTEN`. -/
def Kernel.listens (fd : Nat) : Bool :=
  match (k.sockets fd).block with
  | none => false
  | some (.tcp i) => (k.tcp.socks i).state = .listen
  | some (.udp i) => (k.udp i).localIp = tcpListen

/-- `sys_accept`: the descriptor, and the address of the peer. -/
def sysAccept (sockfd : Int) : Int × Option (BitVec 32 × BitVec 16) × Kernel :=
  match descriptor sockfd with
  | none => (-1,none,k)
  | some fd =>
    if !k.listens fd then (-1,none,k)
    else
      match k.pendingBlock with
      | none => (-1,none,k)
      | some i =>
        match k.freeDescriptor with
        | none => (-1,none,k)
        | some new =>
          let sock := k.tcp.socks i
          (new,some (sock.remoteIp,sock.remotePort),
            (k.setSocket new ⟨afInet,sockStream,0,some (.tcp i)⟩).setTcp i { sock with state := .established })

def ephemeralPort (net : Net) : BitVec 16 := BitVec.ofNat 16 (0xC000 + net.nextSeq.toNat % 0x4000)

def connectTcp (net : Net) (ip : BitVec 32) (port : BitVec 16) (sent : Bool) (b : TcpSocket) : TcpSocket :=
  tcpSendPacket sent flagSyn 0 { b with
    remoteIp := ip
    remotePort := port
    localIp := net.localIp
    localPort := if b.localPort = 0 then ephemeralPort net else b.localPort
    sndNxt := net.nextSeq
    sndUna := net.nextSeq
    rcvWnd := BitVec.ofNat 16 rxBufSize
    state := .synSent }

/-- `sys_connect` on a UDP block: every field of the TCP block lies somewhere in it.
    `remote_port` is the lower half of `bound`, `snd_una` is the lock, and `snd_nxt` and
    `rcv_wnd` are bytes of the buffer. -/
def connectUdp (net : Net) (ip : BitVec 32) (port : BitVec 16) (sent : Bool) (b : UdpSocket) : UdpSocket :=
  let sndNxt := if sent then net.nextSeq + 1 else net.nextSeq
  { b with
    remotePort := ip.setWidth 16
    bound := (b.bound &&& 0xFFFF0000) ||| port.setWidth 32
    localPort := net.localIp.setWidth 16
    remoteIp := if b.remoteIp.setWidth 16 = 0#16 then b.remoteIp ||| (ephemeralPort net).setWidth 32 else b.remoteIp
    rxBuf := store (store b.rxBuf 0 sndNxt.toNat 4) 10 rxBufSize 2
    lock := net.nextSeq
    localIp := tcpSynSent }

def sysConnect (sockfd : Int) (ip : BitVec 32) (port : BitVec 16) (sent : Bool) : Int × Kernel :=
  match descriptor sockfd with
  | none => (-1,k)
  | some fd =>
    let later := { k with tcp := { k.tcp with nextSeq := k.tcp.nextSeq + 1 } }
    match (k.sockets fd).block with
    | none => (-1,k)
    | some (.tcp i) => (0,later.setTcp i (connectTcp k.tcp ip port sent (k.tcp.socks i)))
    | some (.udp i) => (0,later.setUdp i (connectUdp k.tcp ip port sent (k.udp i)))

def shutdownTcp (sent : Bool) (b : TcpSocket) : TcpSocket :=
  if b.state = .established then tcpSendPacket sent (flagFin ||| flagAck) 0 { b with state := .finWait1 } else b

/-- `sys_shutdown` on a UDP block; `snd_nxt` is the beginning of the buffer. -/
def shutdownUdp (sent : Bool) (b : UdpSocket) : UdpSocket :=
  if b.localIp = tcpEstablished then
    { b with
      localIp := tcpFinWait1
      rxBuf := if sent then store b.rxBuf 0 ((load b.rxBuf 0 4 + 1) % 2^32) 4 else b.rxBuf }
  else b

def sysShutdown (sockfd : Int) (sent : Bool) : Int × Kernel :=
  match descriptor sockfd with
  | none => (-1,k)
  | some fd =>
    match (k.sockets fd).block with
    | none => (-1,k)
    | some (.tcp i) => (0,k.setTcp i (shutdownTcp sent (k.tcp.socks i)))
    | some (.udp i) => (0,k.setUdp i (shutdownUdp sent (k.udp i)))

/-- `sys_close_socket`; once `sock->tcp` is `NULL`, so is `sock->udp`. `sys_shutdown` is called
    in the states established and close-wait, and does nothing in the other one. -/
def sysCloseSocket (sockfd : Int) (sent : Bool) : Int × Kernel :=
  match descriptor sockfd with
  | none => (-1,k)
  | some fd =>
    match (k.sockets fd).block with
    | none => (0,k.setSocket fd .cleared)
    | some (.tcp i) =>
      (0,(k.setTcp i { shutdownTcp sent (k.tcp.socks i) with state := .closed }).setSocket fd .cleared)
    | some (.udp i) => (0,(k.setUdp i { shutdownUdp sent (k.udp i) with localIp := 0 }).setSocket fd .cleared)

/-! ### Incoming packets -/

/-- A datagram with the fields in host order; `body` is the bytes behind the UDP header, and
    `lease` the address that they grant if they are a DHCP acknowledgement. -/
structure Datagram where
  srcIp : BitVec 32
  srcPort : BitVec 16
  dstPort : BitVec 16
  udpLen : BitVec 16
  len : BitVec 64
  body : Nat → UInt8
  lease : Option (BitVec 32)

def Datagram.dataLen (d : Datagram) : BitVec 16 := d.udpLen - BitVec.ofNat 16 sizeofUdpHeader

/-- An answer to the DHCP client of the kernel. -/
def Kernel.leases (d : Datagram) : Bool :=
  d.srcPort = 67 && d.dstPort = 68 && !k.netConfigured

/-- The block that a datagram is for. -/
def Kernel.udpTaker (d : Datagram) : Option Nat :=
  if d.len.toNat < sizeofUdpHeader ∨ k.leases d then none
  else (List.range udpMaxSockets).find? (fun i => (k.udp i).bound ≠ 0 && (k.udp i).localPort = d.dstPort)

/-- The loop that stores the first `n` bytes of a datagram. -/
def storeDatagram (d : Datagram) (tail : BitVec 32) : Nat → (Nat → UInt8) → Nat → UInt8
  | 0, buf => buf
  | n+1, buf =>
    update (storeDatagram d tail n buf) ((tail + BitVec.ofNat 32 n).toNat % udpRxBufSize) (d.body n)

def deliver (d : Datagram) (b : UdpSocket) : UdpSocket :=
  let avail := BitVec.ofNat 32 udpRxBufSize - (b.rxTail - b.rxHead)
  let avail := if avail > d.dataLen.setWidth 32 then d.dataLen.setWidth 32 else avail
  { b with
    rxBuf := storeDatagram d b.rxTail avail.toNat b.rxBuf
    rxTail := b.rxTail + avail
    peerIp := d.srcIp
    peerPort := d.srcPort
    hasData := true }

/-- `none` when the lock of the block was written over, and the handler waits for it. -/
def udpHandlePacket (d : Datagram) : Option Kernel :=
  if d.len.toNat < sizeofUdpHeader then some k
  else if k.leases d then
    match d.lease with
    | none => some k
    | some ip => some { k with tcp := { k.tcp with localIp := ip }, netConfigured := true }
  else
    match k.udpTaker d with
    | none => some k
    | some i => if (k.udp i).lock ≠ 0 then none else some (k.setUdp i (deliver d (k.udp i)))

/-- The block that a `SYN` to a listener takes. -/
def Kernel.synBlock (seg : Segment) : Option Nat :=
  match k.tcp.taker seg with
  | none => none
  | some i => if (k.tcp.socks i).state = .listen ∧ seg.has flagSyn then k.closedBlock else none

/-- A descriptor points to the block. -/
def Kernel.Owned (b : Block) : Prop := ∃ fd < maxDescriptors, (k.sockets fd).block = some b

instance (k : Kernel) (b : Block) : Decidable (k.Owned b) :=
  inferInstanceAs (Decidable (∃ fd < maxDescriptors, (k.sockets fd).block = some b))

/-- The tables, and the blocks of connections that a `SYN` opened and no descriptor has yet. -/
structure State where
  kernel : Kernel
  pending : Nat → Bool

inductive Request where
  | socket (domain type protocol : Int)
  | bind (sockfd : Int) (ip : BitVec 32) (port : BitVec 16)
  | listen (sockfd : Int)
  | accept (sockfd : Int)
  | connect (sockfd : Int) (ip : BitVec 32) (port : BitVec 16) (sent : Bool)
  | shutdown (sockfd : Int) (sent : Bool)
  | close (sockfd : Int) (sent : Bool)
  | segment (seg : Segment) (sent : Bool)
  | datagram (d : Datagram)

/-- A block that a descriptor points to does not wait any more. -/
def settle (pending : Nat → Bool) (k : Kernel) : State := ⟨k,fun i => pending i && !decide (k.Owned (.tcp i))⟩

def step (s : State) : Request → Option State
  | .socket domain type protocol => some (settle s.pending (sysSocket s.kernel domain type protocol).2)
  | .bind sockfd ip port => some (settle s.pending (sysBind s.kernel sockfd ip port).2)
  | .listen sockfd => some (settle s.pending (sysListen s.kernel sockfd).2)
  | .accept sockfd => some (settle s.pending (sysAccept s.kernel sockfd).2.2)
  | .connect sockfd ip port sent => some (settle s.pending (sysConnect s.kernel sockfd ip port sent).2)
  | .shutdown sockfd sent => some (settle s.pending (sysShutdown s.kernel sockfd sent).2)
  | .close sockfd sent => some (settle s.pending (sysCloseSocket s.kernel sockfd sent).2)
  | .segment seg sent =>
    some (settle (fun i => s.pending i || decide (s.kernel.synBlock seg = some i))
      { s.kernel with tcp := tcpHandlePacket sent s.kernel.tcp seg })
  | .datagram d => (udpHandlePacket s.kernel d).map (settle s.pending)

def start (nextSeq localIp : BitVec 32) (netConfigured : Bool) : State where
  kernel :=
    { tcp := ⟨fun _ => clearedTcp,localIp,nextSeq,fun _ => none⟩
      udp := fun _ => .cleared
      sockets := fun _ => .cleared
      netConfigured }
  pending := fun _ => false

def Kernel.blockOf (sockfd : Int) : Option Block :=
  (descriptor sockfd).bind (fun fd => (k.sockets fd).block)

def NotOwned (kind : Nat → Block) (taken : Option Nat) : Prop := ∀ i ∈ taken, ¬ k.Owned (kind i)

def NotUdp (ok : UdpSocket → Prop) : Option Block → Prop
  | some (.udp i) => ok (k.udp i)
  | _ => True

/-- No other block in use has the port of the block. -/
def Alone : Option Block → Prop
  | some (.tcp i) => ∀ j < maxSockets, j ≠ i → (k.tcp.socks j).state ≠ .closed → (k.tcp.socks j).localPort ≠ (k.tcp.socks i).localPort
  | some (.udp i) => ∀ j < udpMaxSockets, j ≠ i → (k.udp j).bound ≠ 0 → (k.udp j).localPort ≠ (k.udp i).localPort
  | none => True

/-- A block is taken only if no descriptor points to it, no datagram socket is connected, and
    none is closed while it is bound, nor any socket while another has its port. -/
def Meets (s : State) : Request → Prop
  | .socket _ type _ =>
    (type = sockStream → NotOwned s.kernel .tcp s.kernel.closedBlock) ∧
      (type = sockDgram → NotOwned s.kernel .udp s.kernel.unboundBlock)
  | .connect sockfd _ _ _ => NotUdp s.kernel (fun _ => False) (s.kernel.blockOf sockfd)
  | .close sockfd _ => NotUdp s.kernel (fun b => b.bound = 0) (s.kernel.blockOf sockfd) ∧ Alone s.kernel (s.kernel.blockOf sockfd)
  | .segment seg _ => NotOwned s.kernel .tcp (s.kernel.synBlock seg)
  | _ => True

instance (k : Kernel) (kind : Nat → Block) : ∀ taken, Decidable (NotOwned k kind taken)
  | none => .isTrue (by simp [NotOwned])
  | some i => decidable_of_iff (¬ k.Owned (kind i)) (by simp [NotOwned])

instance (k : Kernel) (ok : UdpSocket → Prop) [∀ b, Decidable (ok b)] : ∀ b, Decidable (NotUdp k ok b)
  | some (.udp i) => inferInstanceAs (Decidable (ok (k.udp i)))
  | some (.tcp _) | none => .isTrue trivial

instance (k : Kernel) : ∀ b, Decidable (Alone k b)
  | some (.tcp _) | some (.udp _) => inferInstanceAs (Decidable (∀ _ < _, _))
  | none => .isTrue trivial

instance (s : State) : ∀ a, Decidable (Meets s a)
  | .socket .. => inferInstanceAs (Decidable ((_ → NotOwned _ _ _) ∧ (_ → NotOwned _ _ _)))
  | .connect .. => inferInstanceAs (Decidable (NotUdp s.kernel (fun _ => False) _))
  | .close .. => inferInstanceAs (Decidable (NotUdp s.kernel (fun b => b.bound = 0) _ ∧ Alone s.kernel _))
  | .segment .. => inferInstanceAs (Decidable (NotOwned ..))
  | .bind _ _ _ | .listen _ | .accept _ | .shutdown _ _ | .datagram _ => .isTrue trivial

/-- Closing the descriptor leaves its block free, so that nothing is delivered to it, nor to another block
    for its port, and changes no other block and no other descriptor. -/
structure Released (k : Kernel) (fd : Nat) (l : Kernel) : Prop where
  gone : l.sockets fd = .cleared
  others : ∀ fd' ≠ fd, l.sockets fd' = k.sockets fd'
  tcp : ∀ i, (k.sockets fd).block = some (.tcp i) → (l.tcp.socks i).state = .closed ∧
    ∀ seg, l.tcp.taker seg ≠ some i ∧ (seg.dstPort = (k.tcp.socks i).localPort → l.tcp.taker seg = none)
  udp : ∀ i, (k.sockets fd).block = some (.udp i) → (l.udp i).bound = 0 ∧
    ∀ d, l.udpTaker d ≠ some i ∧ (d.dstPort = (k.udp i).localPort → l.udpTaker d = none)
  otherTcp : ∀ i, (k.sockets fd).block ≠ some (.tcp i) → l.tcp.socks i = k.tcp.socks i
  otherUdp : ∀ i, (k.sockets fd).block ≠ some (.udp i) → l.udp i = k.udp i

/-- Two descriptors never point to one block; only blocks of descriptors, and of connections
    that wait for one, take packets; and closing a socket releases its block. -/
structure Sound (s : State) : Prop where
  isolated : ∀ fd fd' b, (s.kernel.sockets fd).block = some b → (s.kernel.sockets fd').block = some b → fd = fd'
  tcp : ∀ i, (s.kernel.tcp.socks i).state ≠ .closed → s.kernel.Owned (.tcp i) ∨ s.pending i = true
  waiting : ∀ i, s.pending i = true → ¬ s.kernel.Owned (.tcp i)
  udp : ∀ i, (s.kernel.udp i).bound ≠ 0 → s.kernel.Owned (.udp i)
  close : ∀ sockfd sent, Meets s (.close sockfd sent) → ∃ t, step s (.close sockfd sent) = some t ∧
    ∀ fd, descriptor sockfd = some fd → Released s.kernel fd t.kernel

/-! ### The tables -/

/-- What holds of the tables, with the blocks that wait for a descriptor. -/
structure Core (k : Kernel) (pending : Nat → Bool) : Prop where
  cleared : ∀ fd, (k.sockets fd).domain = 0 → (k.sockets fd).block = none
  outside : ∀ fd b, (k.sockets fd).block = some b → fd < maxDescriptors
  sole : ∀ fd fd' b, (k.sockets fd).block = some b → (k.sockets fd').block = some b → fd = fd'
  held : ∀ i, (k.tcp.socks i).state = .synRecv → ¬ k.Owned (.tcp i)
  taken : ∀ i, (k.tcp.socks i).state ≠ .closed → k.Owned (.tcp i) ∨ pending i = true
  bound : ∀ i, (k.udp i).bound ≠ 0 → k.Owned (.udp i)
  lock : ∀ i, (k.udp i).lock = 0

section
variable {k : Kernel} {pending : Nat → Bool}
  {fd i : Nat} {b : TcpSocket} {net : Net} {sock : Socket} {sockfd : Int} {sent : Bool} {seg : Segment}

private theorem owned_setSocket {b : Block} (owned : (k.setSocket fd sock).Owned b) : sock.block = some b ∨ k.Owned b := by
  obtain ⟨fd',inside,points⟩ := owned
  by_cases same : fd' = fd
  · left
    simpa [Kernel.setSocket,same] using points
  · right
    exact ⟨fd',inside,by simpa [Kernel.setSocket,same] using points⟩

theorem Owned.setSocket {b : Block} (owned : k.Owned b) (other : (k.sockets fd).block ≠ some b) :
    (k.setSocket fd sock).Owned b := by
  obtain ⟨fd',inside,points⟩ := owned
  have apart : fd' ≠ fd := by
    rintro rfl
    exact other points
  exact ⟨fd',inside,by simpa [Kernel.setSocket,apart] using points⟩

section
variable (core : Core k pending)
include core

theorem Core.owner {b : Block} (points : (k.sockets fd).block = some b) : k.Owned b :=
  ⟨fd,core.outside fd b points,points⟩

theorem Core.setTcp (held : b.state = .synRecv → ¬ k.Owned (.tcp i))
    (taken : b.state ≠ .closed → k.Owned (.tcp i) ∨ pending i = true) : Core (k.setTcp i b) pending :=
  { core with
    held := by
      dsimp only [Kernel.setTcp,Net.setSock]
      exact update_cases held (fun j _ => core.held j)
    taken := by
      dsimp only [Kernel.setTcp,Net.setSock]
      exact update_cases taken (fun j _ => core.taken j) }

theorem Core.setUdp {b : UdpSocket} (bound : b.bound ≠ 0 → k.Owned (.udp i))
    (lock : b.lock = 0) : Core (k.setUdp i b) pending :=
  { core with
    bound := by
      dsimp only [Kernel.setUdp]
      exact update_cases bound (fun j _ => core.bound j)
    lock := by
      dsimp only [Kernel.setUdp]
      exact update_cases lock (fun j _ => core.lock j) }

theorem Core.later (socks : net.socks = k.tcp.socks) (netConfigured : Bool) :
    Core { k with tcp := net, netConfigured } pending :=
  { core with
    held := fun i state => core.held i (by rw [← socks]; exact state)
    taken := fun i state => core.taken i (by rw [← socks]; exact state) }

section
variable (inside : fd < maxDescriptors) (tcp : ∀ i, (k.sockets fd).block = some (.tcp i) → (k.tcp.socks i).state = .closed)
  (udp : ∀ i, (k.sockets fd).block = some (.udp i) → (k.udp i).bound = 0)
include inside tcp udp

/-- A descriptor is filled: with no block, or with a block that no other descriptor points to.
    The block it had before is free, or waits, or is the same. -/
theorem Core.setSocket (cleared : sock.domain = 0 → sock.block = none) (fresh : ∀ b, sock.block = some b → ¬ k.Owned b)
    (held : ∀ i, sock.block = some (.tcp i) → (k.tcp.socks i).state ≠ .synRecv) :
    Core (k.setSocket fd sock) pending where
  cleared := by
    dsimp only [Kernel.setSocket]
    exact update_cases cleared (fun j _ => core.cleared j)
  outside := by
    dsimp only [Kernel.setSocket]
    exact update_cases (fun _ _ => inside) (fun j _ => core.outside j)
  sole := by
    intro fd₁ fd₂ b first second
    by_cases one : fd₁ = fd <;> by_cases two : fd₂ = fd
    · rw [one,two]
    · subst one
      simp only [Kernel.setSocket,update_self,update_of_ne two] at first second
      exact absurd (core.owner second) (fresh b first)
    · subst two
      simp only [Kernel.setSocket,update_self,update_of_ne one] at first second
      exact absurd (core.owner first) (fresh b second)
    · simp only [Kernel.setSocket,update_of_ne one,update_of_ne two] at first second
      exact core.sole fd₁ fd₂ b first second
  held := by
    intro i state owned
    rcases owned_setSocket owned with new | old
    · exact held i new state
    · exact core.held i state old
  taken := by
    intro i state
    rcases core.taken i state with owned | waits
    · exact .inl (Owned.setSocket owned (fun had => state (tcp i had)))
    · exact .inr waits
  bound := by
    intro i state
    exact Owned.setSocket (core.bound i state) (fun had => state (udp i had))
  lock := core.lock

theorem Core.clear : Core (k.setSocket fd .cleared) pending :=
  core.setSocket inside tcp udp (fun _ => rfl) (by rintro b ⟨⟩) (by rintro i ⟨⟩)

end

theorem Core.open (free : k.freeDescriptor = some fd)
    (domain : sock.domain ≠ 0) (fresh : ∀ b, sock.block = some b → ¬ k.Owned b)
    (held : ∀ i, sock.block = some (.tcp i) → (k.tcp.socks i).state ≠ .synRecv) : Core (k.setSocket fd sock) pending := by
  have unused := List.find?_some free
  have none_ := core.cleared fd (by simpa using unused)
  exact core.setSocket (by simpa using List.mem_of_find?_eq_some free) (by simp [none_]) (by simp [none_])
    (fun zero => absurd zero domain) fresh held

end

private theorem descriptor_lt (found : descriptor sockfd = some fd) : fd < maxDescriptors := by
  simp only [descriptor] at found
  split at found
  · cases found
  · cases found
    omega

section
variable (core : Core k pending)
include core

theorem Core.socket (domain type protocol : Int)
    (stream : type = sockStream → NotOwned k .tcp k.closedBlock)
    (dgram : type = sockDgram → NotOwned k .udp k.unboundBlock) :
    Core (sysSocket k domain type protocol).2 pending := by
  rw [sysSocket]
  split
  · exact core
  rename_i inet
  have open_ : domain ≠ 0 := by
    rintro rfl
    exact inet nofun
  split
  · exact core
  next fd free =>
    have inside : fd < maxDescriptors := by simpa using List.mem_of_find?_eq_some free
    have had : (k.sockets fd).block = none := core.cleared fd (by simpa using List.find?_some free)
    have cleared : Core (k.setSocket fd .cleared) pending := core.clear inside (by simp [had]) (by simp [had])
    split
    next isStream =>
      split
      · exact cleared
      next i found =>
        have emptied : Core (k.setTcp i clearedTcp) pending :=
          core.setTcp (by rintro ⟨⟩) (fun notClosed => absurd rfl notClosed)
        refine emptied.open free open_ ?_ ?_
        · rintro b ⟨⟩
          exact stream isStream i found
        · rintro j ⟨⟩
          simp [Kernel.setTcp,clearedTcp]
    · split
      next isDgram =>
        split
        · exact cleared
        next i found =>
          have emptied : Core (k.setUdp i .cleared) pending := core.setUdp (fun bound => absurd rfl bound) rfl
          refine emptied.open free open_ ?_ ?_
          · rintro b ⟨⟩
            exact dgram isDgram i found
          · rintro j ⟨⟩
      · exact core.open free open_ (by rintro b ⟨⟩) (by rintro j ⟨⟩)

theorem Core.ownTcp (points : (k.sockets fd).block = some (.tcp i))
    (state : b.state ≠ .synRecv) : Core (k.setTcp i b) pending :=
  core.setTcp (fun pend => absurd pend state) (fun _ => .inl (core.owner points))

theorem Core.ownUdp {b : UdpSocket} (points : (k.sockets fd).block = some (.udp i))
    (lock : b.lock = 0) : Core (k.setUdp i b) pending :=
  core.setUdp (fun _ => core.owner points) lock

theorem Core.not_synRecv (points : (k.sockets fd).block = some (.tcp i)) :
    (k.tcp.socks i).state ≠ .synRecv :=
  fun pend => core.held i pend (core.owner points)

theorem Core.bind (sockfd : Int) (ip : BitVec 32) (port : BitVec 16) :
    Core (sysBind k sockfd ip port).2 pending := by
  rw [sysBind]
  split
  · exact core
  dsimp only
  split
  · exact core
  split
  next i points =>
    split
    · exact core.ownTcp points (core.not_synRecv points)
    · exact core
  next i points =>
    split
    · exact core.ownUdp points (core.lock i)
    · exact core
  · exact core

theorem Core.listen (sockfd : Int) : Core (sysListen k sockfd).2 pending := by
  rw [sysListen]
  split
  · exact core
  split
  · exact core
  next i points => exact core.ownTcp points (by rintro ⟨⟩)
  next i points => exact core.ownUdp points (core.lock i)

theorem Core.accept (sockfd : Int) : Core (sysAccept k sockfd).2.2 pending := by
  rw [sysAccept]
  split
  · exact core
  split
  · exact core
  split
  · exact core
  next i found =>
    have synRecv : (k.tcp.socks i).state = .synRecv := by simpa using List.find?_some found
    split
    · exact core
    next new free =>
      -- the state changes first, so that no descriptor has a pending connection
      have established : Core (k.setTcp i { k.tcp.socks i with state := .established }) pending :=
        core.setTcp (by rintro ⟨⟩) (fun _ => core.taken i (by rw [synRecv]; rintro ⟨⟩))
      refine established.open free (show afInet ≠ 0 by decide) ?_ ?_
      · rintro b ⟨⟩
        exact core.held i synRecv
      · rintro j ⟨⟩
        simp [Kernel.setTcp]

end

@[simp] theorem tcpSendPacket_state (sent : Bool) (flags : BitVec 8) (len : BitVec 16) (b : TcpSocket) :
    (tcpSendPacket sent flags len b).state = b.state := by
  simp only [tcpSendPacket]
  split_ifs <;> rfl

private theorem shutdownTcp_state (state : b.state ≠ .synRecv) : (shutdownTcp sent b).state ≠ .synRecv := by
  rw [shutdownTcp]
  split
  · simp
  · exact state

private theorem shutdownUdp_bound (sent : Bool) (b : UdpSocket) : (shutdownUdp sent b).bound = b.bound := by
  rw [shutdownUdp]
  split <;> rfl

private theorem shutdownUdp_lock (sent : Bool) (b : UdpSocket) : (shutdownUdp sent b).lock = b.lock := by
  rw [shutdownUdp]
  split <;> rfl

private theorem not_closed_of_taker (found : net.taker seg = some i) : (net.socks i).state ≠ .closed := by
  have takes := taker_takes found
  intro closed
  simp [TcpSocket.takes,closed] at takes

private theorem taker_state (found : net.taker seg = some i) :
    (net.socks i).state = .listen ∨ (net.socks i).state = .synRecv ∨ (net.socks i).state = .established := by
  have takes := taker_takes found
  cases state : (net.socks i).state <;> simp [TcpSocket.takes,state] at takes ⊢

private theorem receive_state (state : b.state = .established) : (receive sent seg b).state ≠ .synRecv := by
  rw [receive]
  split
  · rintro ⟨⟩
  · split <;> simp [state]

/-- What a segment does to the blocks: it takes a closed one for a new connection, or
    changes the one it is for, which does not become pending by that, or nothing. -/
theorem tcpHandlePacket_cases (k : Kernel) (seg : Segment) (sent : Bool) :
    (∃ j b, k.synBlock seg = some j ∧ (tcpHandlePacket sent k.tcp seg).socks = (k.tcp.setSock j b).socks) ∨
    (∃ i b, k.tcp.taker seg = some i ∧ (b.state = .synRecv → (k.tcp.socks i).state = .synRecv) ∧
      (tcpHandlePacket sent k.tcp seg).socks = (k.tcp.setSock i b).socks) ∨
    (tcpHandlePacket sent k.tcp seg).socks = k.tcp.socks := by
  rw [tcpHandlePacket,Kernel.synBlock]
  cases found : k.tcp.taker seg with
  | none => exact .inr (.inr rfl)
  | some i =>
    rcases taker_state found with state | state | state
    · by_cases syn : seg.has flagSyn = true
      · simp only [state,syn]
        cases closed : k.closedBlock with
        | none =>
          rw [show List.find? _ _ = none from closed]
          exact .inr (.inr rfl)
        | some j =>
          rw [show List.find? _ _ = some j from closed]
          -- the block is written twice: by the handler, and when the answer is sent
          exact .inl ⟨j,_,rfl,Function.update_idem ..⟩
      · simp only [state,syn]
        exact .inr (.inr rfl)
    · by_cases ack : seg.has flagAck = true
      · simp only [state,ack]
        exact .inr (.inl ⟨i,_,rfl,fun _ => state,rfl⟩)
      · simp only [state,ack]
        exact .inr (.inr rfl)
    · simp only [state]
      exact .inr (.inl ⟨i,_,rfl,fun pend => absurd pend (receive_state state),rfl⟩)

theorem udpTaker_spec {d : Datagram} (found : k.udpTaker d = some i) :
    i < udpMaxSockets ∧ (k.udp i).bound ≠ 0 ∧ (k.udp i).localPort = d.dstPort := by
  rw [Kernel.udpTaker] at found
  split at found
  · cases found
  · have takes := List.find?_some found
    simp only [Bool.and_eq_true,decide_eq_true_eq] at takes
    exact ⟨List.mem_range.mp (List.mem_of_find?_eq_some found),takes⟩

theorem taker_port (found : net.taker seg = some i) : i < maxSockets ∧ (net.socks i).localPort = seg.dstPort := by
  have takes := taker_takes found
  rw [Net.taker] at found
  split at found
  · cases found
  · simp only [TcpSocket.takes,Bool.and_eq_true,decide_eq_true_eq] at takes
    exact ⟨List.mem_range.mp (List.mem_of_find?_eq_some found),takes.1.2⟩

/-- Closing the only block in use with its port ends the segments for the port. -/
theorem closed_port {net' : Net} (closed : (net'.socks i).state = .closed) (others : ∀ j ≠ i, net'.socks j = net.socks j)
    (alone : ∀ j < maxSockets, j ≠ i → (net.socks j).state ≠ .closed → (net.socks j).localPort ≠ (net.socks i).localPort) :
    net'.taker seg ≠ some i ∧ (seg.dstPort = (net.socks i).localPort → net'.taker seg = none) := by
  have free : net'.taker seg ≠ some i := fun taken => not_closed_of_taker taken closed
  refine ⟨free,fun port => Option.eq_none_iff_forall_ne_some.mpr (fun j taken => ?_)⟩
  have other : j ≠ i := fun same => free (same ▸ taken)
  have inUse := not_closed_of_taker taken
  obtain ⟨inside,same⟩ := taker_port taken
  rw [others j other] at inUse same
  exact alone j inside other inUse (same.trans port)

/-- The same of datagrams, for a block that is not bound. -/
theorem unbound_port {l : Kernel} {d : Datagram} (free : (l.udp i).bound = 0) (others : ∀ j ≠ i, l.udp j = k.udp j)
    (alone : ∀ j < udpMaxSockets, j ≠ i → (k.udp j).bound ≠ 0 → (k.udp j).localPort ≠ (k.udp i).localPort) :
    l.udpTaker d ≠ some i ∧ (d.dstPort = (k.udp i).localPort → l.udpTaker d = none) := by
  have absent : l.udpTaker d ≠ some i := fun taken => (udpTaker_spec taken).2.1 free
  refine ⟨absent,fun port => Option.eq_none_iff_forall_ne_some.mpr (fun j taken => ?_)⟩
  have other : j ≠ i := fun same => absent (same ▸ taken)
  obtain ⟨inside,bound,same⟩ := udpTaker_spec taken
  rw [others j other] at bound same
  exact alone j inside other bound (same.trans port)

theorem released (found : descriptor sockfd = some fd) (meets : NotUdp k (fun b => b.bound = 0) (k.blockOf sockfd) ∧
    Alone k (k.blockOf sockfd)) : Released k fd (sysCloseSocket k sockfd sent).2 := by
  obtain ⟨unbound,alone⟩ := meets
  rw [Kernel.blockOf,found,Option.bind_some] at unbound alone
  rw [sysCloseSocket,found]
  dsimp only
  split
  next points =>
    exact ⟨update_self ..,fun _ other => update_of_ne other ..,by simp [points],by simp [points],fun _ _ => rfl,fun _ _ => rfl⟩
  next i points =>
    refine ⟨update_self ..,fun _ other => update_of_ne other ..,fun j had => ?_,by simp [points],fun j other => ?_,fun _ _ => rfl⟩
    · obtain rfl : i = j := by simpa [points] using had
      have closed : ((k.tcp.setSock i { shutdownTcp sent (k.tcp.socks i) with state := .closed }).socks i).state = .closed := by
        simp
      rw [points] at alone
      exact ⟨closed,fun seg => closed_port closed (fun j other => setSock_of_ne other) alone⟩
    · refine setSock_of_ne ?_
      rintro rfl
      exact other points
  next i points =>
    rw [points] at unbound alone
    refine ⟨update_self ..,fun _ other => update_of_ne other ..,by simp [points],fun j had => ?_,fun _ _ => rfl,fun j other => ?_⟩
    · obtain rfl : i = j := by simpa [points] using had
      have free : (k.udp i).bound = 0 := unbound
      have still : ((k.setUdp i { shutdownUdp sent (k.udp i) with localIp := 0 }).udp i).bound = 0 := by
        simp [Kernel.setUdp,shutdownUdp_bound,free]
      exact ⟨still,fun d => unbound_port still (fun j other => update_of_ne other ..) alone⟩
    · refine update_of_ne ?_ ..
      rintro rfl
      exact other points

structure Inv (s : State) : Prop where
  core : Core s.kernel s.pending
  waiting : ∀ i, s.pending i = true → ¬ s.kernel.Owned (.tcp i)

section
variable (core : Core k pending)
include core

theorem Core.connect (sockfd : Int) (ip : BitVec 32) (port : BitVec 16) (sent : Bool)
    (notUdp : NotUdp k (fun _ => False) (k.blockOf sockfd)) : Core (sysConnect k sockfd ip port sent).2 pending := by
  rw [sysConnect]
  rw [Kernel.blockOf] at notUdp
  split
  · exact core
  next fd found =>
    split
    · exact core
    next i points =>
      have synSent : (connectTcp k.tcp ip port sent (k.tcp.socks i)).state ≠ .synRecv := by simp [connectTcp]
      have same : { k.tcp with nextSeq := k.tcp.nextSeq + 1 }.socks = k.tcp.socks := rfl
      exact (core.later same k.netConfigured).ownTcp points synSent
    next i points =>
      rw [found,Option.bind_some,points] at notUdp
      exact notUdp.elim

theorem Core.shutdown (sockfd : Int) (sent : Bool) : Core (sysShutdown k sockfd sent).2 pending := by
  rw [sysShutdown]
  split
  · exact core
  split
  · exact core
  next i points => exact core.ownTcp points (shutdownTcp_state (core.not_synRecv points))
  next i points => exact core.ownUdp points (by rw [shutdownUdp_lock]; exact core.lock i)

theorem Core.close (sockfd : Int) (sent : Bool)
    (unbound : NotUdp k (fun b => b.bound = 0) (k.blockOf sockfd)) : Core (sysCloseSocket k sockfd sent).2 pending := by
  rw [sysCloseSocket]
  rw [Kernel.blockOf] at unbound
  split
  · exact core
  next fd found =>
    have inside := descriptor_lt found
    rw [found,Option.bind_some] at unbound
    split
    next points => exact core.clear inside (by simp [points]) (by simp [points])
    next i points =>
      exact (core.ownTcp points (by rintro ⟨⟩)).clear inside (by simp [Kernel.setTcp,points]) (by simp [Kernel.setTcp,points])
    next i points =>
      rw [points] at unbound
      have free : (k.udp i).bound = 0 := unbound
      refine (core.ownUdp points ?_).clear inside (by simp [Kernel.setUdp,points]) ?_
      · exact (shutdownUdp_lock sent (k.udp i)).trans (core.lock i)
      · simp [Kernel.setUdp,points,shutdownUdp_bound,free]

theorem Core.segment (seg : Segment) (sent : Bool) (free : NotOwned k .tcp (k.synBlock seg)) :
    Core { k with tcp := tcpHandlePacket sent k.tcp seg } (fun i => pending i || decide (k.synBlock seg = some i)) := by
  have wider : Core k (fun i => pending i || decide (k.synBlock seg = some i)) :=
    { core with taken := fun i state => (core.taken i state).imp_right (fun waits => by simp [waits]) }
  rcases tcpHandlePacket_cases k seg sent with ⟨j,b,syn,socks⟩ | ⟨i,b,found,state,socks⟩ | socks
  · exact (wider.setTcp (fun _ => free j syn) (fun _ => .inr (by simp [syn]))).later socks _
  · have changed : Core (k.setTcp i b) (fun i => pending i || decide (k.synBlock seg = some i)) :=
      wider.setTcp (fun pend => core.held i (state pend)) (fun _ => wider.taken i (not_closed_of_taker found))
    exact changed.later socks _
  · exact wider.later socks _

theorem Core.datagram (d : Datagram) : ∃ l, udpHandlePacket k d = some l ∧ Core l pending := by
  rw [udpHandlePacket]
  split
  · exact ⟨k,rfl,core⟩
  split
  · cases d.lease with
    | none => exact ⟨k,rfl,core⟩
    | some ip =>
      have same : { k.tcp with localIp := ip }.socks = k.tcp.socks := rfl
      exact ⟨_,rfl,core.later same true⟩
  cases found : k.udpTaker d with
  | none => exact ⟨k,rfl,core⟩
  | some i =>
    have kept : Core (k.setUdp i (deliver d (k.udp i))) pending :=
      core.setUdp (fun _ => core.bound i (udpTaker_spec found).2.1) (by simp [deliver,core.lock i])
    exact ⟨_,by simp [core.lock i],kept⟩

theorem Core.settle : Inv (settle pending k) where
  core := { core with
    taken := fun i state => by
      by_cases owned : k.Owned (.tcp i)
      · exact .inl owned
      · rcases core.taken i state with had | waits
        · exact absurd had owned
        · exact .inr (by simp [Sockets.settle,waits,owned]) }
  waiting := fun i waits => by
    simp only [Sockets.settle,Bool.and_eq_true,Bool.not_eq_true',decide_eq_false_iff_not] at waits
    exact waits.2

end

theorem inv_step (s : State) (a : Request) (inv : Inv s) (meets : Meets s a) : ∃ t, step s a = some t ∧ Inv t := by
  have core := inv.core
  cases a with
  | socket domain type protocol => exact ⟨_,rfl,(core.socket domain type protocol meets.1 meets.2).settle⟩
  | bind sockfd ip port => exact ⟨_,rfl,(core.bind sockfd ip port).settle⟩
  | listen sockfd => exact ⟨_,rfl,(core.listen sockfd).settle⟩
  | accept sockfd => exact ⟨_,rfl,(core.accept sockfd).settle⟩
  | connect sockfd ip port sent => exact ⟨_,rfl,(core.connect sockfd ip port sent meets).settle⟩
  | shutdown sockfd sent => exact ⟨_,rfl,(core.shutdown sockfd sent).settle⟩
  | close sockfd sent => exact ⟨_,rfl,(core.close sockfd sent meets.1).settle⟩
  | segment seg sent => exact ⟨_,rfl,(core.segment seg sent meets).settle⟩
  | datagram d =>
    obtain ⟨l,handled,kept⟩ := core.datagram d
    exact ⟨Sockets.settle s.pending l,by rw [step,handled]; rfl,kept.settle⟩

theorem start_inv (nextSeq localIp : BitVec 32) (netConfigured : Bool) : Inv (start nextSeq localIp netConfigured) where
  core :=
    { cleared := fun _ _ => rfl
      outside := by rintro fd b ⟨⟩
      sole := by rintro fd fd' b ⟨⟩
      held := by rintro i ⟨⟩
      taken := fun _ state => absurd rfl state
      bound := fun _ bound => absurd rfl bound
      lock := fun _ => rfl }
  waiting := by rintro i ⟨⟩

theorem Inv.sound {s : State} (inv : Inv s) : Sound s where
  isolated := inv.core.sole
  tcp := inv.core.taken
  waiting := inv.waiting
  udp := inv.core.bound
  close := fun _ _ meets => ⟨_,rfl,fun _ found => released found meets⟩

end

/-- In every run that meets the condition the sockets are as they should be in the state that is reached. -/
theorem sockets_run_isolated (nextSeq localIp : BitVec 32) (netConfigured : Bool) (requests : List Request)
    (guarded : Guarded step Meets (start nextSeq localIp netConfigured) requests) :
    ∃ t, run step (start nextSeq localIp netConfigured) requests = some t ∧ Sound t := by
  obtain ⟨t,ran,inv⟩ := run_invariant inv_step requests _ (start_inv nextSeq localIp netConfigured) guarded
  exact ⟨t,ran,inv.sound⟩

def segmentOf (flags : BitVec 8) : Segment := ⟨7,1024,80,100,0,0x50,flags,512,20,fun _ => 0⟩

def someDatagram : Datagram := ⟨7,1024,53,12,12,fun _ => 5,none⟩

def someRun : List Request :=
  [.socket 2 1 0,.bind 0 0 80,.listen 0,.segment (segmentOf flagSyn) true,.accept 0,.socket 2 2 0,.bind 2 0 53,
   .datagram someDatagram,.socket 2 1 0,.connect 3 9 443 true,.close 3 true]

theorem sockets_run_isolated_of_accept :
    ∃ t, run step (start 0 1 true) someRun = some t ∧ Sound t :=
  sockets_run_isolated 0 1 true someRun (by decide +kernel)

/-- Two stream sockets that were just opened have one block; a connection that comes in takes
    the block of a socket that is open, and `sys_accept` gives it to a second descriptor; and
    a datagram socket that was bound still receives after it was closed. -/
theorem sockets_share_blocks :
    (run step (start 0 1 true) [.socket 2 1 0,.socket 2 1 0]).map
        (fun s => ((s.kernel.sockets 0).block,(s.kernel.sockets 1).block)) = some (some (.tcp 0),some (.tcp 0)) ∧
    (run step (start 0 1 true)
        [.socket 2 1 0,.bind 0 0 80,.listen 0,.socket 2 1 0,.segment (segmentOf flagSyn) true,.accept 0]).map
        (fun s => ((s.kernel.sockets 1).block,(s.kernel.sockets 2).block)) = some (some (.tcp 1),some (.tcp 1)) ∧
    (run step (start 0 1 true) [.socket 2 2 0,.bind 0 0 53,.close 0 true]).map
        (fun s => ((s.kernel.sockets 0).domain,s.kernel.udpTaker someDatagram)) = some (0,some 0) := by
  decide +kernel

end Kenux.Sockets
