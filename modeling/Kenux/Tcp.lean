import Kenux.Rings
import Kenux.Runs

/-!
The receive side of TCP (`tcp_handle_packet` and `sys_recv` of `net.c`) over the whole table
of sockets. `tcp_handle_packet` does not compare the sequence number of a segment with
`rcv_nxt`, and acknowledges the whole segment even if only a part of it fits
(`tcp_recv_repeats`). `tcp_recv_stream`: in every run whose segments come in order and fit, or
are old and find the buffer full, the bytes that `sys_recv` returns are a beginning of the
peer's stream and only stored bytes are acknowledged.
-/
namespace Kenux.Tcp
open Kenux.Runs

def maxSockets : Nat := 64
def rxBufSize : Nat := 32768
def sizeofHeader : Nat := 20

def flagFin : BitVec 8 := 1
def flagSyn : BitVec 8 := 2
def flagAck : BitVec 8 := 16

inductive TcpState where
  | closed
  | synSent
  | synRecv
  | established
  | finWait1
  | finWait2
  | closeWait
  | closing
  | lastAck
  | timeWait
  | listen
  deriving DecidableEq, Repr

structure TcpSocket where
  state : TcpState
  localIp : BitVec 32
  localPort : BitVec 16
  remoteIp : BitVec 32
  remotePort : BitVec 16
  sndUna : BitVec 32
  sndNxt : BitVec 32
  rcvNxt : BitVec 32
  sndWnd : BitVec 16
  rcvWnd : BitVec 16
  rxBuf : Nat → UInt8
  rxHead : BitVec 32
  rxTail : BitVec 32

/-- The sockets, the address of the host, the next sequence number, and the socket of
    each descriptor. -/
structure Net where
  socks : Nat → TcpSocket
  localIp : BitVec 32
  nextSeq : BitVec 32
  files : Nat → Option Nat

/-- A segment with the fields in host order: `body` is the bytes from the TCP header on. -/
structure Segment where
  srcIp : BitVec 32
  srcPort : BitVec 16
  dstPort : BitVec 16
  seq : BitVec 32
  ack : BitVec 32
  dataOffset : BitVec 8
  flags : BitVec 8
  window : BitVec 16
  len : BitVec 64
  body : Nat → UInt8

namespace Segment

def has (seg : Segment) (flag : BitVec 8) : Bool := seg.flags &&& flag ≠ 0

def offset (seg : Segment) : BitVec 16 := ((seg.dataOffset >>> 4 &&& 15).setWidth 16) * 4

def payloadLen (seg : Segment) : BitVec 16 := (seg.len - seg.offset.setWidth 64).setWidth 16

def payload (seg : Segment) (i : Nat) : UInt8 := seg.body (seg.offset.toNat + i)

end Segment

/-- The test of `tcp_find_socket`. -/
def TcpSocket.takes (s : TcpSocket) (localPort : BitVec 16) (remoteIp : BitVec 32) (remotePort : BitVec 16) : Bool :=
  s.state ≠ .closed && s.localPort = localPort &&
    if s.state = .synRecv ∨ s.state = .established then s.remoteIp = remoteIp ∧ s.remotePort = remotePort else s.state = .listen

def tcpFindSocket (net : Net) (localPort : BitVec 16) (remoteIp : BitVec 32) (remotePort : BitVec 16) : Option Nat :=
  (List.range maxSockets).find? (fun i => (net.socks i).takes localPort remoteIp remotePort)

/-- What `tcp_send_packet` does to the socket; `sent` says if there was memory for the packet. -/
def tcpSendPacket (sent : Bool) (flags : BitVec 8) (len : BitVec 16) (sock : TcpSocket) : TcpSocket :=
  if sent then
    let sock := if flags &&& flagSyn ≠ 0 then { sock with sndNxt := sock.sndNxt + 1 } else sock
    let sock := if flags &&& flagFin ≠ 0 then { sock with sndNxt := sock.sndNxt + 1 } else sock
    { sock with sndNxt := sock.sndNxt + len.setWidth 32 }
  else sock

/-- The socket of a connection that a `SYN` opens. -/
def acceptSyn (net : Net) (seg : Segment) : TcpSocket :=
  { state := .synRecv
    localIp := net.localIp
    localPort := seg.dstPort
    remoteIp := seg.srcIp
    remotePort := seg.srcPort
    sndUna := net.nextSeq
    sndNxt := net.nextSeq
    rcvNxt := seg.seq + 1
    sndWnd := seg.window
    rcvWnd := BitVec.ofNat 16 rxBufSize
    rxBuf := fun _ => 0
    rxHead := 0
    rxTail := 0 }

/-- The loop that stores the first `n` bytes of a payload. -/
def storeBytes (seg : Segment) (tail : BitVec 32) : Nat → (Nat → UInt8) → Nat → UInt8
  | 0, buf => buf
  | n+1, buf =>
    Function.update (storeBytes seg tail n buf) ((tail + BitVec.ofNat 32 n).toNat % rxBufSize) (seg.payload n)

/-- The bytes of a payload that are stored: those that fit. -/
def TcpSocket.avail (sock : TcpSocket) (seg : Segment) : BitVec 32 :=
  let avail := BitVec.ofNat 32 rxBufSize - (sock.rxTail - sock.rxHead)
  if avail > seg.payloadLen.setWidth 32 then seg.payloadLen.setWidth 32 else avail

def receive (sent : Bool) (seg : Segment) (sock : TcpSocket) : TcpSocket :=
  if seg.has flagFin then
    { tcpSendPacket sent flagAck 0 { sock with rcvNxt := seg.seq + 1 } with state := .closeWait }
  else if seg.payloadLen > 0 then
    let avail := sock.avail seg
    tcpSendPacket sent flagAck 0 { sock with
      rxBuf := storeBytes seg sock.rxTail avail.toNat sock.rxBuf
      rxTail := sock.rxTail + avail
      rcvNxt := seg.seq + seg.payloadLen.setWidth 32 }
  else sock

def Net.setSock (net : Net) (i : Nat) (sock : TcpSocket) : Net := { net with socks := Function.update net.socks i sock }

/-- The socket that a segment is for. -/
def Net.taker (net : Net) (seg : Segment) : Option Nat :=
  if seg.len.toNat < sizeofHeader then none else tcpFindSocket net seg.dstPort seg.srcIp seg.srcPort

def tcpHandlePacket (sent : Bool) (net : Net) (seg : Segment) : Net :=
  match net.taker seg with
  | none => net
  | some i =>
    let sock := net.socks i
    match sock.state with
    | .listen =>
      if seg.has flagSyn then
        match (List.range maxSockets).find? (fun j => (net.socks j).state = .closed) with
        | none => net
        | some j =>
          let net := net.setSock j (acceptSyn net seg)
          let net := { net with nextSeq := net.nextSeq + 1 }
          net.setSock j (tcpSendPacket sent (flagSyn ||| flagAck) 0 (net.socks j))
      else net
    | .synSent =>
      if seg.flags &&& (flagSyn ||| flagAck) = flagSyn ||| flagAck ∧ seg.ack = sock.sndNxt then
        net.setSock i (tcpSendPacket sent flagAck 0 { sock with state := .established, rcvNxt := seg.seq + 1 })
      else net
    | .synRecv => if seg.has flagAck then net.setSock i { sock with state := .established } else net
    | .established => net.setSock i (receive sent seg sock)
    | .closeWait => if seg.has flagFin then net.setSock i (tcpSendPacket sent flagAck 0 sock) else net
    | .lastAck => if seg.has flagAck then net.setSock i { sock with state := .closed } else net
    | _ => net

/-- `sys_recv`: the value returned, the bytes written to the buffer of the caller, and the sockets. -/
def sysRecv (net : Net) (sockfd : Int) (len : BitVec 64) : Int × List UInt8 × Net :=
  if sockfd < 0 ∨ sockfd ≥ 128 then (-1,[],net)
  else
    match net.files sockfd.toNat with
    | none => (-1,[],net)
    | some i =>
      let tcp := net.socks i
      let avail := tcp.rxTail - tcp.rxHead
      let avail := if avail.setWidth 64 > len then len.setWidth 32 else avail
      (avail.toInt,(List.range avail.toNat).map (fun j => tcp.rxBuf ((tcp.rxHead + BitVec.ofNat 32 j).toNat % rxBufSize)),
        net.setSock i { tcp with rxHead := tcp.rxHead + avail })

/-- The peer of the connection at socket `sock`: the bytes it sends, and the sequence
    number of the first one. -/
structure Peer where
  sock : Nat
  stream : List UInt8
  first : BitVec 32

/-- The sockets; the bytes returned to the reader of the connection; the places in the
    stream of the bytes that were stored; and the place up to which `rcv_nxt` acknowledges. -/
structure State where
  net : Net
  returned : List UInt8
  stored : List Nat
  acked : Nat

inductive Request where
  | segment (seg : Segment) (place : Nat) (sent : Bool)
  | recv (sockfd : Int) (len : BitVec 64)

/-- The segment reaches the connection, in the state in which data is taken. -/
def Reaches (p : Peer) (net : Net) (seg : Segment) : Prop :=
  net.taker seg = some p.sock ∧ (net.socks p.sock).state = .established

instance (p : Peer) (net : Net) (seg : Segment) : Decidable (Reaches p net seg) := inferInstanceAs (Decidable (_ ∧ _))

def step (p : Peer) (s : State) : Request → Option State
  | .segment seg place sent =>
    let net := tcpHandlePacket sent s.net seg
    let more := ((net.socks p.sock).rxTail - (s.net.socks p.sock).rxTail).toNat
    if ¬ Reaches p s.net seg then some { s with net := net }
    else if seg.has flagFin then some { s with net := net, acked := place + 1 }
    else if seg.payloadLen > 0 then
      some { s with
        net := net
        stored := s.stored ++ (List.range more).map (place + ·)
        acked := place + seg.payloadLen.toNat }
    else some { s with net := net }
  | .recv sockfd len =>
    let (_,bytes,net) := sysRecv s.net sockfd len
    if s.net.files sockfd.toNat = some p.sock then some { s with net := net, returned := s.returned ++ bytes }
    else some { s with net := net }

def start (net : Net) : State := ⟨net,[],[],0⟩

/-- A connection that was just established. -/
structure Established (p : Peer) (net : Net) : Prop where
  inside : p.sock < maxSockets
  state : (net.socks p.sock).state = .established
  empty : (net.socks p.sock).rxTail = (net.socks p.sock).rxHead
  first : (net.socks p.sock).rcvNxt = p.first

/-- The segment carries the bytes of the stream from the given place on, and `FIN` only at
    the end of the stream. -/
@[mk_iff] structure Cut (p : Peer) (seg : Segment) (place : Nat) : Prop where
  header : sizeofHeader ≤ seg.offset.toNat
  whole : seg.offset.toNat ≤ seg.len.toNat
  short : seg.len.toNat < 2^16
  inside : place + (seg.len.toNat - seg.offset.toNat) ≤ p.stream.length
  seq : seg.seq = p.first + BitVec.ofNat 32 place
  bytes : ∀ i < seg.len.toNat - seg.offset.toNat, p.stream[place + i]? = some (seg.payload i)
  last : seg.has flagFin = true → place + (seg.len.toNat - seg.offset.toNat) = p.stream.length

instance (p : Peer) (seg : Segment) (place : Nat) : Decidable (Cut p seg place) := decidable_of_iff _ (cut_iff ..).symm

/-- What comes from the peer is cut from its stream; other segments are free. -/
def Legal (p : Peer) (s : State) : Request → Prop
  | .segment seg place _ =>
    seg.dstPort = (s.net.socks p.sock).localPort ∧ seg.srcIp = (s.net.socks p.sock).remoteIp ∧
      seg.srcPort = (s.net.socks p.sock).remotePort → Cut p seg place
  | .recv _ _ => True

instance (p : Peer) (s : State) (a : Request) : Decidable (Legal p s a) :=
  match a with
  | .segment seg place _ => inferInstanceAs (Decidable (_ → Cut p seg place))
  | .recv _ _ => inferInstanceAs (Decidable True)

def TcpSocket.waiting (sock : TcpSocket) : Nat := (sock.rxTail - sock.rxHead).toNat

/-- The bytes taken so far: those that were returned and those that wait. -/
def State.taken (p : Peer) (s : State) : Nat := s.returned.length + (s.net.socks p.sock).waiting

/-- Data that reaches the connection comes in order and fits, or it is old and the buffer
    is full; `FIN` comes when its first byte, or the whole stream, was taken. -/
def Meets (p : Peer) (s : State) : Request → Prop
  | .segment seg place _ => Reaches p s.net seg →
      if seg.has flagFin then place < s.taken p ∨ p.stream.length ≤ s.taken p
      else seg.payloadLen = 0 ∨
        (place = s.taken p ∧ (s.net.socks p.sock).waiting + seg.payloadLen.toNat ≤ rxBufSize) ∨
        (place + seg.payloadLen.toNat ≤ s.taken p ∧ (s.net.socks p.sock).waiting = rxBufSize)
  | .recv _ _ => True

instance (p : Peer) (s : State) (a : Request) : Decidable (Meets p s a) :=
  match a with
  | .segment seg _ _ => inferInstanceAs (Decidable (Reaches p s.net seg → if seg.has flagFin then _ else _))
  | .recv _ _ => inferInstanceAs (Decidable True)

/-- What was returned is a beginning of the stream, and `rcv_nxt` acknowledges only bytes
    that were stored. -/
structure Sound (p : Peer) (s : State) : Prop where
  returned : s.returned <+: p.stream
  rcvNxt : (s.net.socks p.sock).rcvNxt = p.first + BitVec.ofNat 32 s.acked
  acked : ∀ place < s.acked, place < p.stream.length → place ∈ s.stored

section
variable {p : Peer} {s : State} {net : Net} {seg : Segment} {sock : TcpSocket} {place i n : Nat} {sent : Bool}
  {avail : BitVec 32}

@[simp] theorem setSock_self : (net.setSock i sock).socks i = sock := Function.update_self ..

theorem setSock_of_ne {j : Nat} (other : j ≠ i) : (net.setSock i sock).socks j = net.socks j := Function.update_of_ne other ..

private theorem tcpSendPacket_ack : tcpSendPacket sent flagAck 0 sock = sock := by
  cases sent
  · rfl
  · simp [tcpSendPacket,flagAck,flagSyn,flagFin]

theorem taker_takes (found : net.taker seg = some i) : (net.socks i).takes seg.dstPort seg.srcIp seg.srcPort = true := by
  rw [Net.taker] at found
  split at found
  · cases found
  · exact List.find?_some (p := fun j => (net.socks j).takes seg.dstPort seg.srcIp seg.srcPort) found

theorem takes_established (taken : sock.takes seg.dstPort seg.srcIp seg.srcPort = true) (state : sock.state = .established) :
    seg.dstPort = sock.localPort ∧ seg.srcIp = sock.remoteIp ∧ seg.srcPort = sock.remotePort := by
  simp only [TcpSocket.takes,state,Bool.and_eq_true,decide_eq_true_eq,or_true,if_true] at taken
  exact ⟨taken.1.2.symm,taken.2.1.symm,taken.2.2.symm⟩

private theorem not_takes_closeWait (state : sock.state = .closeWait) : sock.takes seg.dstPort seg.srcIp seg.srcPort = false := by
  simp [TcpSocket.takes,state]

private theorem handle_reaches (reaches : Reaches p net seg) :
    tcpHandlePacket sent net seg = net.setSock p.sock (receive sent seg (net.socks p.sock)) := by
  rw [tcpHandlePacket,reaches.1]
  dsimp only
  rw [reaches.2]

theorem handle_other (open_ : (net.socks i).state = .established ∨ (net.socks i).state = .closeWait)
    (other : net.taker seg = some i → (net.socks i).state ≠ .established) :
    (tcpHandlePacket sent net seg).socks i = net.socks i := by
  rw [tcpHandlePacket]
  cases found : net.taker seg with
  | none => rfl
  | some j =>
    have different : i ≠ j := by
      rintro rfl
      have state := open_.resolve_left (other found)
      have taken := taker_takes found
      rw [not_takes_closeWait state] at taken
      cases taken
    dsimp only
    split
    · split
      · split
        · rfl
        case _ k free =>
          have closed := List.find?_some free
          have apart : i ≠ k := by
            rintro rfl
            rcases open_ with state | state <;> simp [state] at closed
          rw [setSock_of_ne apart]
          exact setSock_of_ne apart
      · rfl
    all_goals first | (split <;> first | exact setSock_of_ne different | rfl) | exact setSock_of_ne different | rfl

private theorem place_eq {size : Nat} (whole : size ∣ 2^32) (b : BitVec 32) (n : Nat) :
    (b + BitVec.ofNat 32 n).toNat % size = (b.toNat + n) % size := by
  rw [BitVec.toNat_add,BitVec.toNat_ofNat,Nat.add_mod_mod]
  exact Nat.mod_mod_of_dvd _ whole

private theorem storeBytes_eq (tail : BitVec 32) (buf : Nat → UInt8) : ∀ n, storeBytes seg tail n buf = Rings.fill rxBufSize tail.toNat seg.payload n buf
  | 0 => rfl
  | n+1 => by rw [storeBytes,Rings.fill,storeBytes_eq tail buf n,place_eq (by decide)]

theorem avail_eq (seg : Segment) (room : sock.waiting ≤ rxBufSize) : (sock.avail seg).toNat = min (rxBufSize - sock.waiting) seg.payloadLen.toNat := by
  have free : (BitVec.ofNat 32 rxBufSize - (sock.rxTail - sock.rxHead)).toNat = rxBufSize - sock.waiting := by
    rw [BitVec.toNat_sub_of_le]
    · rfl
    · exact room
  have wide : (seg.payloadLen.setWidth 32).toNat = seg.payloadLen.toNat := by
    rw [BitVec.toNat_setWidth]
    omega
  rw [TcpSocket.avail]
  split
  case isTrue above =>
    have less := BitVec.lt_def.mp above
    omega
  case isFalse below =>
    have most := Nat.le_of_not_lt (fun less => below (BitVec.lt_def.mpr less))
    omega

theorem waiting_store (sock : TcpSocket) (b : BitVec 32) (fits : sock.waiting + b.toNat < 2^32) :
    (sock.rxTail + b - sock.rxHead).toNat = sock.waiting + b.toNat := by
  have same : sock.rxTail + b - sock.rxHead = (sock.rxTail - sock.rxHead) + b := by
    rw [BitVec.sub_eq_add_neg,BitVec.sub_eq_add_neg,BitVec.add_assoc,BitVec.add_comm b,← BitVec.add_assoc]
  rw [same]
  exact Nat.mod_eq_of_lt fits

private theorem tail_place (sock : TcpSocket) : sock.rxTail.toNat % rxBufSize = (sock.rxHead.toNat + sock.waiting) % rxBufSize := by
  have sum : sock.rxTail = sock.rxHead + (sock.rxTail - sock.rxHead) := by
    rw [BitVec.add_comm,BitVec.sub_add_cancel]
  rw [sum]
  exact Nat.mod_mod_of_dvd _ (by decide)

theorem waiting_read (sock : TcpSocket) (b : BitVec 32) (fits : b.toNat ≤ sock.waiting) :
    (sock.rxTail - (sock.rxHead + b)).toNat = sock.waiting - b.toNat := by
  have same : sock.rxTail - (sock.rxHead + b) = (sock.rxTail - sock.rxHead) - b := by
    simp only [BitVec.sub_eq_add_neg,BitVec.neg_add,BitVec.add_assoc]
  rw [same,BitVec.toNat_sub_of_le fits]
  rfl

theorem Cut.payloadLen (cut : Cut p seg place) : seg.payloadLen.toNat = seg.len.toNat - seg.offset.toNat := by
  have wide : (seg.offset.setWidth 64).toNat = seg.offset.toNat := by
    rw [BitVec.toNat_setWidth]
    omega
  have whole := cut.whole
  have short := cut.short
  rw [Segment.payloadLen,BitVec.toNat_setWidth,BitVec.toNat_sub_of_le (by rw [BitVec.le_def]; exact whole)]
  omega

/-- What was returned and what waits in the buffer are a beginning of the stream, all of it
    stored, and no byte after it is acknowledged. -/
@[mk_iff] structure Inv (p : Peer) (s : State) : Prop where
  open_ : (s.net.socks p.sock).state = .established ∨ (s.net.socks p.sock).state = .closeWait
  room : (s.net.socks p.sock).waiting ≤ rxBufSize
  fits : s.taken p ≤ p.stream.length
  returned : s.returned = p.stream.take s.returned.length
  buffered : Rings.Holds rxBufSize (s.net.socks p.sock).rxBuf (s.net.socks p.sock).rxHead.toNat
    ((p.stream.drop s.returned.length).take (s.net.socks p.sock).waiting)
  stored : ∀ place < s.taken p, place ∈ s.stored
  rcvNxt : (s.net.socks p.sock).rcvNxt = p.first + BitVec.ofNat 32 s.acked
  acked : ∀ place < s.acked, place < p.stream.length → place < s.taken p

theorem Cut.continues (cut : Cut p seg place) :
    (List.range seg.payloadLen.toNat).map seg.payload = (p.stream.drop place).take seg.payloadLen.toNat := by
  apply List.ext_getElem?
  intro i
  by_cases less : i < seg.payloadLen.toNat
  · rw [List.getElem?_map,List.getElem?_range less,List.getElem?_take_of_lt less,List.getElem?_drop]
    exact (cut.bytes i (by rw [← cut.payloadLen]; exact less)).symm
  · rw [List.getElem?_eq_none (by simpa using less),List.getElem?_eq_none]
    rw [List.length_take]
    omega

section
variable (inv : Inv p s)
include inv

theorem Inv.sound : Sound p s where
  returned := by
    rw [inv.returned]
    exact List.take_prefix ..
  rcvNxt := inv.rcvNxt
  acked := fun place less inside => inv.stored place (inv.acked place less inside)

theorem Inv.same (same : net.socks p.sock = s.net.socks p.sock) : Inv p { s with net := net } := by
  rw [inv_iff] at inv ⊢
  simpa only [State.taken,same] using inv

theorem Inv.acks {state : TcpState} {rcvNxt : BitVec 32} {upTo : Nat}
    (open_ : state = .established ∨ state = .closeWait) (next : rcvNxt = p.first + BitVec.ofNat 32 upTo)
    (acked : ∀ o < upTo, o < p.stream.length → o < s.taken p) :
    Inv p { s with
      net := s.net.setSock p.sock { (s.net.socks p.sock) with rcvNxt := rcvNxt, state := state }
      acked := upTo } := by
  rw [inv_iff] at inv ⊢
  simp only [State.taken,setSock_self]
  exact ⟨open_,inv.2.1,inv.2.2.1,inv.2.2.2.1,inv.2.2.2.2.1,inv.2.2.2.2.2.1,next,acked⟩

theorem Inv.fin (cut : Cut p seg place) (known : place < s.taken p ∨ p.stream.length ≤ s.taken p) :
    Inv p { s with
      net := s.net.setSock p.sock { (s.net.socks p.sock) with rcvNxt := seg.seq + 1, state := .closeWait }
      acked := place + 1 } := by
  refine inv.acks (.inr rfl) ?_ (by omega)
  rw [cut.seq,BitVec.add_assoc]
  congr 1
  exact (BitVec.ofNat_add ..).symm

theorem Inv.store (cut : Cut p seg place) (next : place = s.taken p)
    (room : (s.net.socks p.sock).waiting + seg.payloadLen.toNat ≤ rxBufSize) (all : avail.toNat = seg.payloadLen.toNat) :
    Inv p { s with
      net := s.net.setSock p.sock { (s.net.socks p.sock) with
        rxBuf := storeBytes seg (s.net.socks p.sock).rxTail avail.toNat (s.net.socks p.sock).rxBuf
        rxTail := (s.net.socks p.sock).rxTail + avail
        rcvNxt := seg.seq + seg.payloadLen.setWidth 32 }
      stored := s.stored ++ (List.range avail.toNat).map (place + ·)
      acked := place + seg.payloadLen.toNat } := by
  have small : rxBufSize < 2^32 := by decide
  have waits := waiting_store (s.net.socks p.sock) avail (by omega)
  have inside := cut.inside
  rw [← cut.payloadLen] at inside
  have known : ∀ o, o < place + seg.payloadLen.toNat → o ∈ s.stored ++ (List.range avail.toNat).map (place + ·) := by
    intro o less
    by_cases old : o < place
    · exact List.mem_append_left _ (inv.stored o (by omega))
    · refine List.mem_append_right _ (List.mem_map.mpr ⟨o - place,?_,by omega⟩)
      rw [List.mem_range]
      omega
  have total : s.returned.length + ((s.net.socks p.sock).waiting + avail.toNat) = place + seg.payloadLen.toNat := by
    rw [next,State.taken]
    omega
  refine ⟨?_,?_,?_,inv.returned,?_,?_,?_,?_⟩ <;> simp only [State.taken,TcpSocket.waiting,setSock_self]
  · exact inv.open_
  · omega
  · rw [waits,total]
    exact inside
  · rw [waits,storeBytes_eq,List.take_add,List.drop_drop,all]
    have place_ : s.returned.length + (s.net.socks p.sock).waiting = place := next.symm
    rw [place_,← cut.continues]
    have length : ((p.stream.drop s.returned.length).take (s.net.socks p.sock).waiting).length = (s.net.socks p.sock).waiting := by
      rw [List.length_take,List.length_drop]
      omega
    have holds := inv.buffered.fill seg.payload seg.payloadLen.toNat (by rw [length]; exact room)
    rw [length] at holds
    rw [Rings.fill_shift (tail_place _)]
    exact holds
  · intro o less
    rw [waits,total] at less
    exact known o less
  · rw [cut.seq,BitVec.add_assoc]
    rw [BitVec.ofNat_add,BitVec.ofNat_toNat]
  · intro o less _
    rw [waits,total]
    exact less

theorem Inv.drop (cut : Cut p seg place) (old : place + seg.payloadLen.toNat ≤ s.taken p) :
    Inv p { s with
      net := s.net.setSock p.sock { (s.net.socks p.sock) with rcvNxt := seg.seq + seg.payloadLen.setWidth 32 }
      acked := place + seg.payloadLen.toNat } := by
  refine inv.acks inv.open_ ?_ (by omega)
  rw [cut.seq,BitVec.add_assoc,BitVec.ofNat_add,BitVec.ofNat_toNat]

end

private theorem receive_fin (fin : seg.has flagFin = true) (sock : TcpSocket) :
    receive sent seg sock = { sock with rcvNxt := seg.seq + 1, state := .closeWait } := by
  rw [receive,if_pos fin,tcpSendPacket_ack]

theorem receive_data (fin : seg.has flagFin = false) (data : seg.payloadLen > 0) (sock : TcpSocket) :
    receive sent seg sock = { sock with
      rxBuf := storeBytes seg sock.rxTail (sock.avail seg).toNat sock.rxBuf
      rxTail := sock.rxTail + sock.avail seg
      rcvNxt := seg.seq + seg.payloadLen.setWidth 32 } := by
  rw [receive,if_neg (by simp [fin]),if_pos data]
  exact tcpSendPacket_ack

private theorem receive_none (fin : seg.has flagFin = false) (empty : ¬ seg.payloadLen > 0) (sock : TcpSocket) : receive sent seg sock = sock := by
  rw [receive,if_neg (by simp [fin]),if_neg empty]

theorem Inv.segment (inv : Inv p s) (legal : Legal p s (.segment seg place sent)) (meets : Meets p s (.segment seg place sent)) :
    ∃ t, step p s (.segment seg place sent) = some t ∧ Inv p t := by
  rw [step]
  by_cases reaches : Reaches p s.net seg
  · rw [if_neg (by simpa using reaches),handle_reaches reaches]
    have cut := legal (takes_established (taker_takes reaches.1) reaches.2)
    have condition := meets reaches
    by_cases fin : seg.has flagFin = true
    · rw [if_pos fin] at condition ⊢
      rw [receive_fin fin]
      exact ⟨_,rfl,inv.fin cut condition⟩
    · have noFin : seg.has flagFin = false := by simpa using fin
      rw [if_neg fin] at condition ⊢
      split
      case isTrue data =>
        rw [receive_data noFin data,setSock_self]
        refine ⟨_,rfl,?_⟩
        have stored := avail_eq seg inv.room
        have more : (s.net.socks p.sock).rxTail + (s.net.socks p.sock).avail seg - (s.net.socks p.sock).rxTail =
            (s.net.socks p.sock).avail seg := by
          rw [BitVec.add_comm,BitVec.add_sub_cancel]
        rw [more]
        rcases condition with empty | ⟨next,room⟩ | ⟨old,full⟩
        · rw [empty] at data
          exact absurd data nofun
        · exact inv.store cut next room (by omega)
        · have none : (s.net.socks p.sock).avail seg = 0 := by
            apply BitVec.eq_of_toNat_eq
            rw [stored,full]
            simp
          rw [none]
          simpa [storeBytes] using inv.drop cut old
      case isFalse data =>
        rw [receive_none noFin data]
        exact ⟨_,rfl,inv.same setSock_self⟩
  · rw [if_pos reaches]
    exact ⟨_,rfl,inv.same (handle_other inv.open_ (fun found state => reaches ⟨found,state⟩))⟩

theorem Inv.read (inv : Inv p s) (fits : avail.toNat ≤ (s.net.socks p.sock).waiting) :
    Inv p { s with
      net := s.net.setSock p.sock { (s.net.socks p.sock) with rxHead := (s.net.socks p.sock).rxHead + avail }
      returned := s.returned ++ (List.range avail.toNat).map (fun j =>
        (s.net.socks p.sock).rxBuf (((s.net.socks p.sock).rxHead + BitVec.ofNat 32 j).toNat % rxBufSize)) } := by
  have bound := inv.fits
  rw [State.taken] at bound
  have waits := waiting_read (s.net.socks p.sock) avail fits
  have bytes : (List.range avail.toNat).map (fun j =>
      (s.net.socks p.sock).rxBuf (((s.net.socks p.sock).rxHead + BitVec.ofNat 32 j).toNat % rxBufSize)) =
      (p.stream.drop s.returned.length).take avail.toNat := by
    simp only [place_eq (show rxBufSize ∣ 2^32 by decide)]
    rw [inv.buffered.read (by rw [List.length_take,List.length_drop]; omega),List.take_take,Nat.min_eq_left fits]
  have length : (s.returned ++ (p.stream.drop s.returned.length).take avail.toNat).length = s.returned.length + avail.toNat := by
    rw [List.length_append,List.length_take,List.length_drop]
    omega
  have total : s.returned.length + avail.toNat + ((s.net.socks p.sock).waiting - avail.toNat) = s.taken p := by
    rw [State.taken]
    omega
  rw [bytes]
  refine ⟨?_,?_,?_,?_,?_,?_,?_,?_⟩ <;> simp only [State.taken,TcpSocket.waiting,setSock_self]
  · exact inv.open_
  · rw [waits]
    exact Nat.le_trans (Nat.sub_le ..) inv.room
  · rw [length,waits,total]
    exact inv.fits
  · rw [length,List.take_add,← inv.returned]
  · rw [length,waits,← List.drop_drop,← List.drop_take]
    refine (inv.buffered.drop avail.toNat).shift ?_
    exact Nat.mod_mod_of_dvd _ (by decide)
  · intro o less
    rw [length,waits,total] at less
    exact inv.stored o less
  · exact inv.rcvNxt
  · intro o less inside
    rw [length,waits,total]
    exact inv.acked o less inside

theorem Inv.recv {sockfd : Int} {len : BitVec 64} (inv : Inv p s) : ∃ t, step p s (.recv sockfd len) = some t ∧ Inv p t := by
  rw [step,sysRecv]
  by_cases bad : sockfd < 0 ∨ sockfd ≥ 128
  · dsimp only
    split
    · exact ⟨_,rfl,by simpa using inv⟩
    · exact ⟨_,rfl,inv⟩
  · rw [if_neg bad]
    cases file : s.net.files sockfd.toNat with
    | none => exact ⟨_,rfl,inv⟩
    | some i =>
      dsimp only
      by_cases here : i = p.sock
      · subst here
        rw [if_pos rfl]
        refine ⟨_,rfl,inv.read ?_⟩
        split
        case isTrue above =>
          have less := BitVec.lt_def.mp above
          rw [BitVec.toNat_setWidth] at less ⊢
          simp only [TcpSocket.waiting]
          omega
        · exact Nat.le_refl _
      · rw [if_neg (by simpa using here)]
        exact ⟨_,rfl,inv.same (setSock_of_ne (Ne.symm here))⟩

theorem inv_step (s : State) (a : Request) (inv : Inv p s) (ok : Legal p s a ∧ Meets p s a) : ∃ t, step p s a = some t ∧ Inv p t := by
  cases a with
  | segment seg place sent => exact inv.segment ok.1 ok.2
  | recv sockfd len => exact inv.recv

theorem start_inv (first : Established p net) : Inv p (start net) := by
  have none : (net.socks p.sock).waiting = 0 := by
    rw [TcpSocket.waiting,first.empty,BitVec.sub_self]
    rfl
  have taken : (start net).taken p = 0 := by
    simp only [State.taken,start]
    rw [none]
    rfl
  refine ⟨Or.inl first.state,?_,?_,rfl,?_,?_,?_,nofun⟩
  · simp only [start]
    rw [none]
    decide
  · rw [taken]
    exact Nat.zero_le _
  · simp only [start]
    rw [none]
    exact fun i x found => by simp at found
  · rw [taken]
    exact nofun
  · simpa [start] using first.first

end

/-- In every run that meets the condition the bytes returned are the first of the peer's, and only bytes stored are acknowledged. -/
theorem tcp_recv_stream (p : Peer) (net : Net) (first : Established p net) (requests : List Request)
    (guarded : Guarded (step p) (fun s a => Legal p s a ∧ Meets p s a) (start net) requests) :
    ∃ s, run (step p) (start net) requests = some s ∧ Sound p s := by
  obtain ⟨s,ran,inv⟩ := run_invariant inv_step requests _ (start_inv first) guarded
  exact ⟨s,ran,inv.sound⟩

def shortPeer : Peer := ⟨0,[1,2,3],100⟩

def shortNet : Net :=
  { socks := fun i => ⟨if i = 0 then .established else .closed,1,80,2,5000,0,0,100,0,32768,fun _ => 0,0,0⟩
    localIp := 1
    nextSeq := 0
    files := fun i => if i = 3 then some 0 else none }

def shortSegment (place : Nat) (bytes : List UInt8) (flags : BitVec 8) : Segment :=
  ⟨2,5000,80,100 + BitVec.ofNat 32 place,0,80,flags,0,BitVec.ofNat 64 (20 + bytes.length),fun i => bytes.getD (i - 20) 0⟩

private theorem shortNet_established : Established shortPeer shortNet := ⟨by decide,rfl,rfl,rfl⟩

def inOrder : List Request :=
  [.segment (shortSegment 0 [1,2] flagAck) 0 true, .recv 3 1, .segment (shortSegment 2 [3] flagAck) 2 true, .recv 3 10,
    .segment (shortSegment 3 [] flagFin) 3 false]

theorem tcp_recv_stream_of_inOrder :
    Guarded (step shortPeer) (fun s a => Legal shortPeer s a ∧ Meets shortPeer s a) (start shortNet) inOrder ∧
      ∃ s, run (step shortPeer) (start shortNet) inOrder = some s ∧ Sound shortPeer s :=
  have guarded : Guarded (step shortPeer) (fun s a => Legal shortPeer s a ∧ Meets shortPeer s a) (start shortNet) inOrder := by
    decide +kernel
  ⟨guarded,tcp_recv_stream shortPeer shortNet shortNet_established inOrder guarded⟩

def repeated : List Request :=
  [.segment (shortSegment 0 [1] flagAck) 0 true, .segment (shortSegment 0 [1] flagAck) 0 true, .recv 3 10]

def early : List Request := [.segment (shortSegment 1 [2] flagAck) 1 true]

theorem tcp_recv_repeats : Established shortPeer shortNet ∧
    (Guarded (step shortPeer) (Legal shortPeer) (start shortNet) repeated ∧
      ∃ s, run (step shortPeer) (start shortNet) repeated = some s ∧ ¬ s.returned <+: shortPeer.stream) ∧
    (Guarded (step shortPeer) (Legal shortPeer) (start shortNet) early ∧
      ∃ s, run (step shortPeer) (start shortNet) early = some s ∧ s.acked = 2 ∧ s.stored = [1] ∧ ¬ Sound shortPeer s) := by
  refine ⟨shortNet_established,⟨by decide +kernel,?_⟩,by decide +kernel,?_⟩
  · exact run_shows State.returned [1,1] (by decide +kernel) (fun s bytes => by rw [bytes]; decide)
  · refine run_shows (fun s => (s.acked,s.stored)) (2,[1]) (by decide +kernel) (fun s seen => ?_)
    obtain ⟨acked,stored⟩ := Prod.mk.inj seen
    refine ⟨acked,stored,fun sound => ?_⟩
    have member := sound.acked 0 (by rw [acked]; decide) (by decide)
    rw [stored] at member
    simp at member

end Kenux.Tcp
