import Kenux.Rings
import Kenux.Runs
import Mathlib.Data.List.Nodup

/-!
Kernel messages (`ipc_send` and `ipc_receive` of `ipc.c`) in one buffer of 64 slots.
`ipc_receive` fills the slot of the message it returns with the last message but leaves
`ipc_tail` where it is, so that messages are returned twice or overtake each other
(`ipc_receive_repeats`). `ipc_run_in_order`: in every run that sends only when
`ipc_tail` is the slot behind the last message, and receives only when the message
that moves overtakes none of its own source and destination, each message is
returned at most once, unchanged and in order, and waits for its destination until then.
-/
namespace Kenux.IpcMessages
open Kenux.Runs
open Function (update update_self update_of_ne)

def maxMessages : Nat := 64
def maxSize : Nat := 256

structure Message where
  source : BitVec 64
  destination : BitVec 64
  type : BitVec 64
  size : BitVec 64
  data : Nat → UInt8

structure Ipc where
  buffer : Nat → Message
  head : Nat
  tail : Nat
  count : Nat

/-- The slot of the message at the given place of the search. -/
def Ipc.slot (m : Ipc) (i : Nat) : Nat := (m.head + i) % maxMessages

def Ipc.at (m : Ipc) (i : Nat) : Message := m.buffer (m.slot i)

def ipcInit : Ipc := ⟨fun _ => ⟨0,0,0,0,fun _ => 0⟩,0,0,0⟩

/-- The message that `ipc_send` writes over an old slot; `data` may be `NULL`. -/
def compose (old : Message) (current destination type : BitVec 64) (data : Option (Nat → UInt8)) (size : BitVec 64) : Message :=
  { source := current
    destination := destination
    type := type
    size := size
    data := match data with
      | some bytes => fun i => if i < size.toNat then bytes i else old.data i
      | none => old.data }

def ipcSend (current destination type : BitVec 64) (data : Option (Nat → UInt8)) (size : BitVec 64) (m : Ipc) : Int × Ipc :=
  if size.toNat > maxSize then (-1,m)
  else if m.count ≥ maxMessages then (-1,m)
  else
    (0,{ m with
      buffer := update m.buffer m.tail (compose (m.buffer m.tail) current destination type data size)
      tail := (m.tail + 1) % maxMessages
      count := m.count + 1 })

/-- The test of `ipc_receive`; the source `-1` stands for every source. -/
def Admits (current source : BitVec 64) (msg : Message) : Prop :=
  msg.destination = current ∧ (source = BitVec.allOnes 64 ∨ msg.source = source)

instance (current source : BitVec 64) (msg : Message) : Decidable (Admits current source msg) := inferInstanceAs (Decidable (_ ∧ _))

/-- The place of the message that `ipc_receive` returns. -/
def search (current source : BitVec 64) (m : Ipc) : Option Nat :=
  (List.range m.count).find? (fun i => Admits current source (m.at i))

/-- The pointers that the caller passes: which are not `NULL`, and `*size`. -/
structure Wants where
  type : Bool
  data : Bool
  size : Option (BitVec 64)
  deriving DecidableEq

/-- What `ipc_receive` writes through them. -/
structure Delivered where
  type : Option (BitVec 64)
  data : Option (List UInt8)
  size : Option (BitVec 64)
  deriving DecidableEq

def deliver (wants : Wants) (msg : Message) : Delivered :=
  let type := if wants.type then some msg.type else none
  match wants.size with
  | none => ⟨type,none,none⟩
  | some room =>
    if wants.data ∧ room > 0 then
      let copySize := if msg.size < room then msg.size else room
      ⟨type,some ((List.range copySize.toNat).map msg.data),some copySize⟩
    else ⟨type,none,some msg.size⟩

/-- The last message takes the slot of the one that is returned. -/
def moveLast {α : Type} (m : Ipc) (i : Nat) (cells : Nat → α) : Nat → α :=
  let tailIdx := (m.head + m.count - 1) % maxMessages
  if m.slot i ≠ tailIdx then update cells (m.slot i) (cells tailIdx) else cells

def ipcReceive (current source : BitVec 64) (wants : Wants) (m : Ipc) : Int × Delivered × Ipc :=
  match search current source m with
  | none => (-1,⟨none,none,none⟩,m)
  | some i => (0,deliver wants (m.at i),{ m with buffer := moveLast m i m.buffer, count := m.count - 1 })

structure Sent where
  source : BitVec 64
  destination : BitVec 64
  type : BitVec 64
  size : BitVec 64
  data : Option (Nat → UInt8)

/-- A call that returned the message with the given number. -/
structure Receipt where
  id : Nat
  wants : Wants
  delivered : Delivered

/-- The buffer, the numbers of the messages in its slots, and what was sent and received. -/
structure State where
  ipc : Ipc
  ids : Nat → Nat
  sent : List Sent
  received : List Receipt

inductive Request where
  | send (current destination type : BitVec 64) (data : Option (Nat → UInt8)) (size : BitVec 64)
  | receive (current source : BitVec 64) (wants : Wants)

def step (s : State) : Request → Option State
  | .send current destination type data size =>
    let (code,ipc) := ipcSend current destination type data size s.ipc
    if code = 0 then
      some { s with
        ipc := ipc
        ids := update s.ids s.ipc.tail s.sent.length
        sent := s.sent ++ [⟨current,destination,type,size,data⟩] }
    else some { s with ipc := ipc }
  | .receive current source wants =>
    let (_,delivered,ipc) := ipcReceive current source wants s.ipc
    match search current source s.ipc with
    | none => some { s with ipc := ipc }
    | some i =>
      some { s with
        ipc := ipc
        ids := moveLast s.ipc i s.ids
        received := s.received ++ [⟨s.ids (s.ipc.slot i),wants,delivered⟩] }

def start : State := ⟨ipcInit,fun _ => 0,[],[]⟩

/-- A message is sent only to the slot behind the last one; the message that moves
    overtakes none from its source to its destination. -/
def Meets (s : State) : Request → Prop
  | .send _ _ _ _ size => maxSize < size.toNat ∨ maxMessages ≤ s.ipc.count ∨ s.ipc.tail = s.ipc.slot s.ipc.count
  | .receive current source _ => ∀ i ∈ search current source s.ipc, ∀ j < s.ipc.count - 1, i < j →
      ¬ ((s.ipc.at j).source = (s.ipc.at (s.ipc.count - 1)).source ∧
        (s.ipc.at j).destination = (s.ipc.at (s.ipc.count - 1)).destination)

instance (s : State) (a : Request) : Decidable (Meets s a) :=
  match a with
  | .send _ _ _ _ size => inferInstanceAs (Decidable (maxSize < size.toNat ∨ _ ∨ _))
  | .receive current source _ => inferInstanceAs (Decidable (∀ i ∈ search current source s.ipc, ∀ j < s.ipc.count - 1, i < j → _))

/-- The source and the destination of a message. -/
def State.pair (s : State) (id : Nat) : Option (BitVec 64 × BitVec 64) :=
  s.sent[id]?.map (fun m => (m.source,m.destination))

def State.returned (s : State) : List Nat := s.received.map Receipt.id

/-- The slot keeps the message as it was sent. -/
structure Keeps (m : Sent) (msg : Message) : Prop where
  source : msg.source = m.source
  destination : msg.destination = m.destination
  type : msg.type = m.type
  size : msg.size = m.size
  data : ∀ bytes, m.data = some bytes → ∀ i < m.size.toNat, msg.data i = bytes i

/-- Messages are returned at most once, in the order sent from each source to each
    destination, and as they were sent; until then they wait, and a call of their
    destination that admits their source returns a message. -/
structure Sound (s : State) : Prop where
  once : s.returned.Nodup
  inOrder : ∀ q, s.returned.filter (fun id => s.pair id = some q) <+:
    (List.range s.sent.length).filter (fun id => s.pair id = some q)
  kept : ∀ r ∈ s.received, ∃ m msg, s.sent[r.id]? = some m ∧ Keeps m msg ∧ r.delivered = deliver r.wants msg
  waiting : ∀ id m, s.sent[id]? = some m → id ∉ s.returned →
    (∃ i < s.ipc.count, s.ids (s.ipc.slot i) = id ∧ Keeps m (s.ipc.at i)) ∧
    ∀ source wants, source = BitVec.allOnes 64 ∨ source = m.source → (ipcReceive m.destination source wants s.ipc).1 = 0

section
variable {α : Type} {m : Ipc} {i j d : Nat}
  {current source : BitVec 64}

theorem slot_ne (first : i < maxMessages) (second : j < maxMessages) (different : i ≠ j) : m.slot i ≠ m.slot j :=
  Rings.place_ne first second different

theorem moveLast_slot (cells : Nat → α) (full : m.count ≤ maxMessages) (less : i < m.count) (before : j < m.count - 1) :
    moveLast m i cells (m.slot j) = if j = i then cells (m.slot (m.count - 1)) else cells (m.slot j) := by
  have last : (m.head + m.count - 1) % maxMessages = m.slot (m.count - 1) := by
    rw [Ipc.slot,Nat.add_sub_assoc (by omega)]
  rw [moveLast,last]
  split
  · by_cases here : j = i
    · subst here
      rw [update_self,if_pos rfl]
    · rw [update_of_ne (slot_ne (by omega) (by omega) here),if_neg here]
  case isFalse same =>
    -- the message returned is the last one itself
    have equal : i = m.count - 1 := by
      by_contra different
      exact same (slot_ne (by omega) (by omega) different)
    rw [if_neg (by omega)]

/-- Putting the last element in the place of the one that is taken out keeps the order of a
    class of elements if the one taken out was the first of the class and the last one
    overtakes none of it. -/
theorem filter_moveLast (f : Nat → α) (q : α → Bool) (less : i ≤ d) (first : q (f i) = true → ∀ j < i, q (f j) = false)
    (last : q (f d) = true → ∀ j < d, i < j → q (f j) = false) :
    [f i].filter q ++ ((List.range d).map (fun j => if j = i then f d else f j)).filter q = ((List.range (d+1)).map f).filter q := by
  have firstNone : q (f i) = true → ((List.range i).map f).filter q = [] := by
    intro taken
    simpa [List.filter_eq_nil_iff] using first taken
  have head : (List.range i).map (fun j => if j = i then f d else f j) = (List.range i).map f := by
    apply List.map_congr_left
    intro j member
    rw [if_neg (Nat.ne_of_lt (List.mem_range.mp member))]
  rw [List.range_succ,List.map_append,List.filter_append]
  by_cases end_ : i = d
  · subst end_
    rw [head]
    by_cases taken : q (f i) = true
    · rw [firstNone taken]
      simp
    · simp [taken]
  · obtain ⟨k,rfl⟩ : ∃ k, d = i + (k + 1) := ⟨d - i - 1,by omega⟩
    have between : List.range (i + (k + 1)) = List.range i ++ i :: List.range' (i+1) k := by
      rw [List.range_eq_range',List.range_eq_range',← List.range'_append_1,List.range'_succ,Nat.zero_add]
    have tail : (List.range' (i+1) k).map (fun j => if j = i then f (i + (k + 1)) else f j) = (List.range' (i+1) k).map f := by
      apply List.map_congr_left
      intro j member
      have low := (List.mem_range'_1.mp member).1
      rw [if_neg (by omega)]
    have lastNone : q (f (i + (k + 1))) = true → ((List.range' (i+1) k).map f).filter q = [] := by
      intro moved
      simp only [List.filter_eq_nil_iff,List.forall_mem_map,List.mem_range'_1,Bool.not_eq_true]
      exact fun j inside => last moved j (by omega) inside.1
    rw [between,List.map_append,List.map_cons,head,tail]
    by_cases taken : q (f i) = true <;> by_cases moved : q (f (i + (k + 1))) = true
    · simp [taken,moved,firstNone taken,lastNone moved]
    · simp [taken,moved,firstNone taken]
    · simp [taken,moved,lastNone moved]
    · simp [taken,moved]

theorem search_some (found : search current source m = some i) :
    i < m.count ∧ Admits current source (m.at i) ∧ ∀ j < i, ¬ Admits current source (m.at j) := by
  obtain ⟨admits,less,before⟩ := List.find?_range_eq_some.mp found
  refine ⟨List.mem_range.mp less,of_decide_eq_true admits,fun j earlier => ?_⟩
  simpa using before j earlier

private theorem search_none (found : search current source m = none) : ∀ j < m.count, ¬ Admits current source (m.at j) := by
  intro j less
  have refused := List.find?_eq_none.mp found j (List.mem_range.mpr less)
  simpa using refused

end

/-- The numbers of the messages in the slots that are searched. -/
def State.window (s : State) : List Nat := (List.range s.ipc.count).map (fun i => s.ids (s.ipc.slot i))

/-- For each source and destination, the messages returned followed by those that wait are
    all that were sent. -/
structure Inv (s : State) : Prop where
  few : s.ipc.count ≤ maxMessages
  order : ∀ q, s.returned.filter (fun id => s.pair id = some q) ++ s.window.filter (fun id => s.pair id = some q) =
    (List.range s.sent.length).filter (fun id => s.pair id = some q)
  keeps : ∀ i < s.ipc.count, ∃ m, s.sent[s.ids (s.ipc.slot i)]? = some m ∧ Keeps m (s.ipc.at i)
  kept : ∀ r ∈ s.received, ∃ m msg, s.sent[r.id]? = some m ∧ Keeps m msg ∧ r.delivered = deliver r.wants msg

section
variable {s s' : State} {i j id : Nat} {current source destination type size : BitVec 64}
  {data : Option (Nat → UInt8)} {wants : Wants} {m : Sent}

private theorem receive_of_admits {m : Ipc} (less : i < m.count) (admits : Admits current source (m.at i)) : (ipcReceive current source wants m).1 = 0 := by
  rw [ipcReceive]
  cases found : search current source m with
  | none => exact absurd admits (search_none found i less)
  | some _ => rfl

private theorem keeps_compose (old : Message) (current destination type : BitVec 64) (data : Option (Nat → UInt8)) (size : BitVec 64) :
    Keeps ⟨current,destination,type,size,data⟩ (compose old current destination type data size) := by
  refine ⟨rfl,rfl,rfl,rfl,?_⟩
  rintro bytes rfl i less
  exact if_pos less

private theorem pair_append {more : List Sent} (same : s'.sent = s.sent ++ more) (inside : id < s.sent.length) :
    s'.pair id = s.pair id := by
  rw [State.pair,State.pair,same,List.getElem?_append_left inside]

private theorem slot_congr {m m' : Ipc} (head : m'.head = m.head) : m'.slot i = m.slot i := by rw [Ipc.slot,Ipc.slot,head]

theorem Inv.take {d : Nat} (wants : Wants) (inv : Inv s) (less : i ≤ d) (before : s.ipc.count = d + 1) (head : s'.ipc.head = s.ipc.head)
    (count : s'.ipc.count = d) (sent : s'.sent = s.sent)
    (received : s'.received = s.received ++ [⟨s.ids (s.ipc.slot i),wants,deliver wants (s.ipc.at i)⟩])
    (moved : ∀ j < d, s'.ids (s.ipc.slot j) = (if j = i then s.ids (s.ipc.slot d) else s.ids (s.ipc.slot j)) ∧
      s'.ipc.at j = if j = i then s.ipc.at d else s.ipc.at j)
    (first : ∀ j < i, s.pair (s.ids (s.ipc.slot j)) ≠ s.pair (s.ids (s.ipc.slot i)))
    (last : ∀ j < d, i < j → s.pair (s.ids (s.ipc.slot j)) ≠ s.pair (s.ids (s.ipc.slot d))) : Inv s' := by
  have pair : s'.pair = s.pair := by
    funext id
    rw [State.pair,State.pair,sent]
  have window : s'.window = (List.range d).map (fun j => if j = i then s.ids (s.ipc.slot d) else s.ids (s.ipc.slot j)) := by
    rw [State.window,count]
    apply List.map_congr_left
    intro j member
    rw [slot_congr head]
    exact (moved j (List.mem_range.mp member)).1
  have returned : s'.returned = s.returned ++ [s.ids (s.ipc.slot i)] := by
    rw [State.returned,received,List.map_append]
    rfl
  refine ⟨?_,?_,?_,?_⟩
  · have few := inv.few
    omega
  · intro q
    rw [returned,window,pair,sent,← inv.order q,List.filter_append,List.append_assoc]
    congr 1
    rw [State.window,before]
    refine filter_moveLast (fun j => s.ids (s.ipc.slot j)) _ less (fun taken j earlier => ?_) (fun taken j below above => ?_)
    · rw [decide_eq_false_iff_not,← of_decide_eq_true taken]
      exact first j earlier
    · rw [decide_eq_false_iff_not,← of_decide_eq_true taken]
      exact last j below above
  · intro j small
    rw [count] at small
    rw [slot_congr head,(moved j small).1,(moved j small).2,sent]
    split
    · exact inv.keeps d (by omega)
    · exact inv.keeps j (by omega)
  · rw [received,sent]
    refine List.forall_mem_append.mpr ⟨inv.kept,List.forall_mem_singleton.mpr ?_⟩
    obtain ⟨m,found,keeps⟩ := inv.keeps i (by omega)
    exact ⟨m,s.ipc.at i,found,keeps,rfl⟩

theorem start_inv : Inv start := ⟨by decide,fun _ => rfl,nofun,nofun⟩

section
variable (inv : Inv s)
include inv

theorem Inv.once : s.returned.Nodup := by
  rw [List.nodup_iff_count_le_one]
  intro id
  by_cases member : id ∈ s.returned
  · obtain ⟨r,received,rfl⟩ := List.mem_map.mp member
    obtain ⟨m,_,sent,_⟩ := inv.kept r received
    have pair : s.pair r.id = some (m.source,m.destination) := by rw [State.pair,sent]; rfl
    have fromRange := congrArg (List.count r.id) (inv.order (m.source,m.destination))
    have single := List.nodup_iff_count_le_one.mp (List.nodup_range (n := s.sent.length)) r.id
    rw [List.count_append,List.count_filter (by simpa using pair),List.count_filter (by simpa using pair),
      List.count_filter (by simpa using pair)] at fromRange
    omega
  · rw [List.count_eq_zero_of_not_mem member]
    exact Nat.zero_le _

theorem Inv.waits (sent : s.sent[id]? = some m) (waits : id ∉ s.returned) :
    ∃ i < s.ipc.count, s.ids (s.ipc.slot i) = id ∧ Keeps m (s.ipc.at i) := by
  have pair : s.pair id = some (m.source,m.destination) := by rw [State.pair,sent]; rfl
  have inside : id < s.sent.length := (List.getElem?_eq_some_iff.mp sent).1
  have member : id ∈ (List.range s.sent.length).filter (fun id => s.pair id = some (m.source,m.destination)) :=
    List.mem_filter.mpr ⟨List.mem_range.mpr inside,by simpa using pair⟩
  rw [← inv.order,List.mem_append] at member
  rcases member with returned | waiting
  · exact absurd (List.mem_of_mem_filter returned) waits
  · obtain ⟨i,less,here⟩ := List.mem_map.mp (List.mem_of_mem_filter waiting)
    obtain ⟨other,found,keeps⟩ := inv.keeps i (List.mem_range.mp less)
    rw [here,sent] at found
    cases found
    exact ⟨i,List.mem_range.mp less,here,keeps⟩

theorem Inv.sound : Sound s where
  once := inv.once
  inOrder := fun q => ⟨_,inv.order q⟩
  kept := inv.kept
  waiting := by
    intro id m sent waits
    obtain ⟨i,less,here,keeps⟩ := inv.waits sent waits
    refine ⟨⟨i,less,here,keeps⟩,fun source wants any => receive_of_admits less ⟨keeps.destination,?_⟩⟩
    rw [keeps.source]
    exact any.imp_right Eq.symm

theorem Inv.ids_lt (less : i < s.ipc.count) : s.ids (s.ipc.slot i) < s.sent.length := by
  obtain ⟨_,sent,_⟩ := inv.keeps i less
  exact (List.getElem?_eq_some_iff.mp sent).1

theorem Inv.window_lt : ∀ id ∈ s.window, id < s.sent.length := by
  intro id member
  obtain ⟨i,less,rfl⟩ := List.mem_map.mp member
  exact inv.ids_lt (List.mem_range.mp less)

theorem Inv.returned_lt : ∀ id ∈ s.returned, id < s.sent.length := by
  intro id member
  obtain ⟨r,received,rfl⟩ := List.mem_map.mp member
  obtain ⟨_,_,sent,_⟩ := inv.kept r received
  exact (List.getElem?_eq_some_iff.mp sent).1

theorem Inv.store (room : s.ipc.count < maxMessages) (head : s'.ipc.head = s.ipc.head)
    (count : s'.ipc.count = s.ipc.count + 1) (sent : s'.sent = s.sent ++ [m]) (received : s'.received = s.received)
    (old : ∀ i < s.ipc.count, s'.ids (s.ipc.slot i) = s.ids (s.ipc.slot i) ∧ s'.ipc.at i = s.ipc.at i)
    (new : s'.ids (s.ipc.slot s.ipc.count) = s.sent.length) (keeps : Keeps m (s'.ipc.at s.ipc.count)) : Inv s' := by
  have returned : s'.returned = s.returned := by rw [State.returned,received]; rfl
  have window : s'.window = s.window ++ [s.sent.length] := by
    rw [State.window,count,List.range_succ,List.map_append,List.map_singleton,slot_congr head,new]
    congr 1
    apply List.map_congr_left
    intro i less
    rw [slot_congr head]
    exact (old i (List.mem_range.mp less)).1
  have same : ∀ q (l : List Nat), (∀ id ∈ l, id < s.sent.length) →
      l.filter (fun id => s'.pair id = some q) = l.filter (fun id => s.pair id = some q) := by
    intro q l inside
    apply List.filter_congr
    intro id member
    rw [pair_append sent (inside id member)]
  refine ⟨?_,?_,?_,?_⟩
  · rw [count]
    exact room
  · intro q
    rw [returned,window,List.filter_append,same q _ inv.returned_lt,same q _ inv.window_lt,← List.append_assoc,inv.order q,sent,
      List.length_append,List.length_singleton,List.range_succ,List.filter_append,
      same q _ (fun id member => List.mem_range.mp member)]
  · intro i less
    rw [slot_congr head]
    by_cases last : i = s.ipc.count
    · subst last
      exact ⟨m,by rw [new,sent,List.getElem?_concat_length],keeps⟩
    · obtain ⟨m,found,holds⟩ := inv.keeps i (by omega)
      obtain ⟨id,cell⟩ := old i (by omega)
      rw [id,cell,sent,List.getElem?_append_left (inv.ids_lt (by omega))]
      exact ⟨m,found,holds⟩
  · rw [received]
    intro r member
    obtain ⟨m,msg,found,rest⟩ := inv.kept r member
    exact ⟨m,msg,by rw [sent,List.getElem?_append_left (List.getElem?_eq_some_iff.mp found).1]; exact found,rest⟩

theorem Inv.send (meets : Meets s (.send current destination type data size)) :
    ∃ t, step s (.send current destination type data size) = some t ∧ Inv t := by
  rw [step,ipcSend]
  by_cases long : size.toNat > maxSize
  · rw [if_pos long]
    exact ⟨_,rfl,inv⟩
  · rw [if_neg long]
    by_cases full : s.ipc.count ≥ maxMessages
    · rw [if_pos full]
      exact ⟨_,rfl,inv⟩
    · rw [if_neg full]
      have tail := (meets.resolve_left long).resolve_left full
      have apart : ∀ i < s.ipc.count, s.ipc.slot i ≠ s.ipc.tail := by
        intro i less
        rw [tail]
        exact slot_ne (by omega) (by omega) (Nat.ne_of_lt less)
      refine ⟨_,rfl,inv.store (m := ⟨current,destination,type,size,data⟩) (by omega) rfl rfl rfl rfl ?_ ?_ ?_⟩
      · intro i less
        exact ⟨update_of_ne (apart i less) ..,update_of_ne (apart i less) ..⟩
      · rw [← tail]
        exact update_self ..
      · show Keeps _ (update s.ipc.buffer s.ipc.tail _ (s.ipc.slot s.ipc.count))
        rw [← tail,update_self]
        exact keeps_compose ..

theorem Inv.pair_slot (less : i < s.ipc.count) :
    s.pair (s.ids (s.ipc.slot i)) = some ((s.ipc.at i).source,(s.ipc.at i).destination) := by
  obtain ⟨m,found,keeps⟩ := inv.keeps i less
  rw [State.pair,found,keeps.source,keeps.destination]
  rfl

theorem Inv.receive (meets : Meets s (.receive current source wants)) :
    ∃ t, step s (.receive current source wants) = some t ∧ Inv t := by
  rw [step,ipcReceive]
  cases found : search current source s.ipc with
  | none => exact ⟨_,rfl,inv⟩
  | some i =>
    obtain ⟨less,admits,before⟩ := search_some found
    obtain ⟨d,size⟩ : ∃ d, s.ipc.count = d + 1 := ⟨s.ipc.count - 1,by omega⟩
    have overtakes := meets i found
    rw [size] at overtakes
    have fits := inv.few
    refine ⟨_,rfl,inv.take (d := d) (i := i) wants (by omega) size rfl (by dsimp only; omega) rfl rfl ?_ ?_ ?_⟩
    · intro j small
      have ids := moveLast_slot s.ids fits less (j := j) (by omega)
      have cells := moveLast_slot s.ipc.buffer fits less (j := j) (by omega)
      rw [size] at ids cells
      exact ⟨ids,cells⟩
    · intro j earlier same
      rw [inv.pair_slot (by omega),inv.pair_slot less] at same
      obtain ⟨sources,destinations⟩ := Prod.mk.inj (Option.some.inj same)
      exact before j earlier ⟨destinations.trans admits.1,sources ▸ admits.2⟩
    · intro j below above same
      rw [inv.pair_slot (by omega),inv.pair_slot (by omega)] at same
      exact overtakes j below above (Prod.mk.inj (Option.some.inj same))

end

theorem inv_step (s : State) (a : Request) (inv : Inv s) (meets : Meets s a) : ∃ t, step s a = some t ∧ Inv t := by
  cases a with
  | send current destination type data size => exact inv.send meets
  | receive current source wants => exact inv.receive meets

end

/-- In every run that meets the condition messages are returned at most once, in order and as they were sent, and none is lost. -/
theorem ipc_run_in_order (requests : List Request) (guarded : Guarded step Meets start requests) :
    ∃ s, run step start requests = some s ∧ Sound s := by
  obtain ⟨s,ran,inv⟩ := run_invariant inv_step requests _ start_inv guarded
  exact ⟨s,ran,inv.sound⟩

def sendTwo (current destination : BitVec 64) : Request := .send current destination 7 (some (fun i => UInt8.ofNat (i+1))) 2

def receiveAll (current : BitVec 64) : Request := .receive current (BitVec.allOnes 64) ⟨true,true,some 256⟩

theorem ipc_run_in_order_of_two :
    Guarded step Meets start [sendTwo 1 2, sendTwo 3 2, sendTwo 1 4, receiveAll 2, receiveAll 2, receiveAll 4, receiveAll 2] ∧
      ∃ s, run step start [sendTwo 1 2, sendTwo 3 2, sendTwo 1 4, receiveAll 2, receiveAll 2, receiveAll 4, receiveAll 2] = some s ∧ Sound s :=
  have guarded : Guarded step Meets start
      [sendTwo 1 2, sendTwo 3 2, sendTwo 1 4, receiveAll 2, receiveAll 2, receiveAll 4, receiveAll 2] := by decide +kernel
  ⟨guarded,ipc_run_in_order _ guarded⟩

/-- The second message is never returned, the first one twice; and of three messages from
    one process to another the third overtakes the second. -/
theorem ipc_receive_repeats :
    (∃ s, run step start [sendTwo 1 2, receiveAll 2, sendTwo 1 2, receiveAll 2] = some s ∧ s.returned = [0,0] ∧ ¬ Sound s) ∧
    (∃ s, run step start [sendTwo 1 2, sendTwo 1 2, sendTwo 1 2, receiveAll 2, receiveAll 2] = some s ∧ s.returned = [0,2] ∧ ¬ Sound s) := by
  constructor
  · refine run_shows State.returned [0,0] (by decide +kernel) (fun s returned => ⟨returned,fun sound => ?_⟩)
    have once := sound.once
    rw [returned] at once
    simp at once
  · refine run_shows (fun s => (s.returned,(List.range 3).map s.pair,s.sent.length))
      ([0,2],[some (1,2),some (1,2),some (1,2)],3) (by decide +kernel) (fun s seen => ?_)
    obtain ⟨returned,rest⟩ := Prod.mk.inj seen
    obtain ⟨pairs,length⟩ := Prod.mk.inj rest
    refine ⟨returned,fun sound => ?_⟩
    have order := sound.inOrder (1,2)
    have known : s.pair 0 = some (1,2) ∧ s.pair 1 = some (1,2) ∧ s.pair 2 = some (1,2) := by simpa [List.range_succ] using pairs
    rw [returned,length] at order
    simp [List.range_succ,known] at order

end Kenux.IpcMessages
