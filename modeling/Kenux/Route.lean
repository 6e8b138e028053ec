import Kenux.Runs
import Kenux.Scans
import Mathlib.Data.List.Perm.Basic
import Mathlib.Data.List.Perm.Lattice
import Mathlib.Data.List.Flatten

/-!
The routing tables (`route.c`). `route_lookup` starts with the prefix 0 and takes a
route only if its prefix is longer, so a default route is never found; it compares
the metrics of two tables nowhere, and skips the table 0, which `route_add` accepts
(`route_lookup_misses`). `route_run_best`: in every run that adds no default route
and nothing to table 0, and where routes of one length in two tables that share a
destination are searched in the order of their metrics, `route_lookup` returns a
live route with the longest prefix and the lowest metric, for every destination.
-/
namespace Kenux.Route
open Kenux.Runs

def tableMax : Nat := 256
def entryMax : BitVec 32 := 1024

inductive RouteType where
  | unicast
  | host
  deriving DecidableEq, Repr

structure RouteEntry where
  dst : BitVec 32
  mask : BitVec 32
  gw : BitVec 32
  ifIndex : BitVec 32
  metric : BitVec 32
  mtu : BitVec 32
  type : RouteType
  flags : BitVec 16
  deriving DecidableEq, Repr

structure RouteTable where
  tbId : BitVec 32
  entries : List RouteEntry
  count : BitVec 32

structure Fib where
  tables : Nat → RouteTable
  tableCount : BitVec 32

/-- The loop of `mask_to_prefix`, which counts the bits of the mask. -/
def prefixLoop : Nat → BitVec 32 → Nat → Nat
  | 0, _, bits => bits
  | rounds+1, mask, bits => if mask = 0 then bits else prefixLoop rounds (mask >>> 1) (bits + (mask &&& 1).toNat)

def maskToPrefix (mask : BitVec 32) : Nat := prefixLoop 32 mask 0

def RouteEntry.length (e : RouteEntry) : Nat := maskToPrefix e.mask

/-- `route_table_get`; the test of the count, which is unsigned, is always true. -/
def routeTableGet (fib : Fib) (tableId : BitVec 32) : Option Nat :=
  (List.range tableMax).find? (fun i => (fib.tables i).tbId = tableId)

def Fib.setTable (fib : Fib) (i : Nat) (table : RouteTable) : Fib := { fib with tables := Function.update fib.tables i table }

def routeTableCreate (tableId : BitVec 32) (fib : Fib) : Int × Fib :=
  match (List.range tableMax).find? (fun i => (fib.tables i).tbId = 0) with
  | none => (-1,fib)
  | some i => (0,{ fib.setTable i ⟨tableId,[],0⟩ with tableCount := fib.tableCount + 1 })

/-- `route_insert_sorted`: before the first route that is shorter, or as long and of
    larger metric. -/
def routeInsertSorted (entry : RouteEntry) : List RouteEntry → List RouteEntry
  | [] => [entry]
  | cur :: rest =>
    if entry.length > cur.length then entry :: cur :: rest
    else if entry.length = cur.length ∧ entry.metric < cur.metric then entry :: cur :: rest
    else cur :: routeInsertSorted entry rest

def newEntry (dst mask gw ifIndex metric : BitVec 32) : RouteEntry :=
  { dst := dst &&& mask
    mask := mask
    gw := gw
    ifIndex := ifIndex
    metric := metric
    mtu := 1500
    type := if mask = 0xffffffff then .host else .unicast
    flags := if gw ≠ 0 then 3 else 1 }

/-- The table of `route_add`: it is created if it does not exist. -/
def routeTableFor (tableId : BitVec 32) (fib : Fib) : Option Nat × Fib :=
  match routeTableGet fib tableId with
  | some i => (some i,fib)
  | none =>
    let (code,fib) := routeTableCreate tableId fib
    if code ≠ 0 then (none,fib) else (routeTableGet fib tableId,fib)

/-- `route_add`; `memory` says if there is memory for the entry. -/
def routeAdd (tableId dst mask gw ifIndex metric : BitVec 32) (memory : Bool) (fib : Fib) : Int × Fib :=
  match routeTableFor tableId fib with
  | (none,fib) => (-1,fib)
  | (some i,fib) =>
    let table := fib.tables i
    if table.count ≥ entryMax then (-1,fib)
    else if memory then
      (0,fib.setTable i { table with
        entries := routeInsertSorted (newEntry dst mask gw ifIndex metric) table.entries
        count := table.count + 1 })
    else (-1,fib)

/-- The loop of `route_del`: the entry that is freed, and the entries that stay. -/
def unlinkEntry (dst mask : BitVec 32) : List RouteEntry → Option (RouteEntry × List RouteEntry)
  | [] => none
  | cur :: rest =>
    if cur.dst = dst &&& mask ∧ cur.mask = mask then some (cur,rest)
    else (unlinkEntry dst mask rest).map (fun (freed,stay) => (freed,cur :: stay))

def routeDel (tableId dst mask : BitVec 32) (fib : Fib) : Int × Option RouteEntry × Fib :=
  match routeTableGet fib tableId with
  | none => (-1,none,fib)
  | some i =>
    let table := fib.tables i
    match unlinkEntry dst mask table.entries with
    | none => (-1,none,fib)
    | some (freed,stay) => (0,some freed,fib.setTable i { table with entries := stay, count := table.count - 1 })

def Matches (dst : BitVec 32) (e : RouteEntry) : Prop := dst &&& e.mask = e.dst

instance (dst : BitVec 32) : DecidablePred (Matches dst) := fun _ => inferInstanceAs (Decidable (_ = _))

/-- The loop of `route_lookup` over the entries of a table. -/
def lookupTable (dst : BitVec 32) : List RouteEntry → Option RouteEntry × Nat → Option RouteEntry × Nat
  | [], best => best
  | e :: rest, best =>
    lookupTable dst rest (if Matches dst e then if e.length > best.2 then (some e,e.length) else best else best)

def routeLookup (fib : Fib) (dst : BitVec 32) : Option RouteEntry :=
  ((List.range tableMax).foldl (fun best t =>
    if (fib.tables t).tbId = 0 then best else lookupTable dst (fib.tables t).entries best) (none,0)).1

def emptied (table : RouteTable) : RouteTable := { table with entries := [], count := 0 }

def routeFlush (tableId : BitVec 32) (fib : Fib) : Fib :=
  match routeTableGet fib tableId with
  | none => fib
  | some i => fib.setTable i (emptied (fib.tables i))

def routeFlushAll (fib : Fib) : Fib :=
  { fib with tables := fun i => if i < tableMax ∧ (fib.tables i).tbId ≠ 0 then emptied (fib.tables i) else fib.tables i }

/-- The tables, and the live routes: those added and not yet deleted or flushed. -/
structure State where
  fib : Fib
  live : List (BitVec 32 × RouteEntry)

inductive Request where
  | tableCreate (tableId : BitVec 32)
  | add (tableId dst mask gw ifIndex metric : BitVec 32) (memory : Bool)
  | del (tableId dst mask : BitVec 32)
  | flush (tableId : BitVec 32)
  | flushAll
  deriving DecidableEq, Repr

def step (s : State) : Request → Option State
  | .tableCreate tableId => some { s with fib := (routeTableCreate tableId s.fib).2 }
  | .add tableId dst mask gw ifIndex metric memory =>
    let (code,fib) := routeAdd tableId dst mask gw ifIndex metric memory s.fib
    some ⟨fib,if code = 0 then (tableId,newEntry dst mask gw ifIndex metric) :: s.live else s.live⟩
  | .del tableId dst mask =>
    let (_,freed,fib) := routeDel tableId dst mask s.fib
    some ⟨fib,match freed with | some e => s.live.erase (tableId,e) | none => s.live⟩
  | .flush tableId => some ⟨routeFlush tableId s.fib,s.live.filter (fun r => r.1 ≠ tableId)⟩
  | .flushAll => some ⟨routeFlushAll s.fib,[]⟩

/-- The tables before `route_init`, whose calls are the first of a run. -/
def start : State := ⟨⟨fun _ => ⟨0,[],0⟩,0⟩,[]⟩

/-- Some destination matches both routes. -/
def Overlaps (a b : RouteEntry) : Prop := a.dst &&& b.mask = b.dst &&& a.mask

instance (a b : RouteEntry) : Decidable (Overlaps a b) := inferInstanceAs (Decidable (_ = _))

/-- The table where `route_add` looks for the table id, or that it creates. -/
def slotFor (fib : Fib) (tableId : BitVec 32) : Option Nat :=
  (routeTableGet fib tableId).or (routeTableGet fib 0)

/-- The route goes to a table that is searched, is no default route, and is searched in the
    order of the metrics with the routes of its length of the other tables. -/
def Meets (s : State) : Request → Prop
  | .add tableId dst mask gw ifIndex metric _ => tableId ≠ 0 ∧ mask ≠ 0 ∧ ∀ t ∈ slotFor s.fib tableId, ∀ u < tableMax,
      ∀ e ∈ (s.fib.tables u).entries, e.length = maskToPrefix mask → Overlaps e (newEntry dst mask gw ifIndex metric) →
        (u < t → e.metric ≤ metric) ∧ (t < u → metric ≤ e.metric)
  | _ => True

instance (s : State) (a : Request) : Decidable (Meets s a) :=
  match a with
  | .add tableId _ mask _ _ _ _ => inferInstanceAs (Decidable (tableId ≠ 0 ∧ mask ≠ 0 ∧ ∀ t ∈ slotFor s.fib tableId, ∀ u < tableMax, _))
  | .tableCreate _ | .del _ _ _ | .flush _ | .flushAll => inferInstanceAs (Decidable True)

/-- A route with the longest prefix among those that match, and among these of the lowest
    metric; nothing only if none matches. -/
def IsBest (live : List RouteEntry) (dst : BitVec 32) : Option RouteEntry → Prop
  | none => ∀ e ∈ live, ¬ Matches dst e
  | some b => b ∈ live ∧ Matches dst b ∧ ∀ e ∈ live, Matches dst e → e.length < b.length ∨ (e.length = b.length ∧ b.metric ≤ e.metric)

/-- A lookup gives the best of the routes that are there. -/
def Sound (s : State) : Prop := ∀ dst, IsBest (s.live.map Prod.snd) dst (routeLookup s.fib dst)

/-! ### Lengths and order -/

section
variable {a b c e entry : RouteEntry} {dst mask id : BitVec 32} {es : List RouteEntry} {fib fib' : Fib} {s : State} {i t u : Nat}
  {table : RouteTable}

private theorem prefixLoop_zero : ∀ rounds bits, prefixLoop rounds 0 bits = bits
  | 0, _ => rfl
  | _+1, _ => rfl

private theorem shift_lt {rounds : Nat} (small : mask.toNat < 2^(rounds+1)) : (mask >>> 1).toNat < 2^rounds := by
  rw [BitVec.toNat_ushiftRight,Nat.shiftRight_eq_div_pow]
  omega

/-- The loop ends within as many rounds as the mask has bits. -/
theorem prefixLoop_more : ∀ (rounds more : Nat) (mask : BitVec 32) (bits : Nat), mask.toNat < 2^rounds →
    prefixLoop (rounds + more) mask bits = prefixLoop rounds mask bits
  | 0, more, mask, bits, small => by
    obtain rfl : mask = 0 := BitVec.eq_of_toNat_eq (by simpa using small)
    rw [prefixLoop_zero,prefixLoop_zero]
  | rounds+1, more, mask, bits, small => by
    rw [Nat.add_right_comm,prefixLoop,prefixLoop]
    split
    · rfl
    · exact prefixLoop_more rounds more _ _ (shift_lt small)

theorem lt_prefixLoop : ∀ (rounds : Nat) (mask : BitVec 32) (bits : Nat), mask ≠ 0 → mask.toNat < 2^rounds → bits < prefixLoop rounds mask bits
  | 0, mask, _, set, small => absurd (BitVec.eq_of_toNat_eq (by simpa using small)) set
  | rounds+1, mask, bits, set, small => by
    rw [prefixLoop,if_neg set]
    by_cases last : mask >>> 1 = 0
    · rw [last,prefixLoop_zero]
      have one : mask = 1 := by
        apply BitVec.eq_of_toNat_eq
        have half := congrArg BitVec.toNat last
        rw [BitVec.toNat_ushiftRight,Nat.shiftRight_eq_div_pow] at half
        have positive : mask.toNat ≠ 0 := fun zero => set (BitVec.eq_of_toNat_eq zero)
        have zero : (0 : BitVec 32).toNat = 0 := rfl
        have unit : (1 : BitVec 32).toNat = 1 := rfl
        omega
      rw [one]
      exact Nat.lt_succ_self bits
    · exact Nat.lt_of_le_of_lt (Nat.le_add_right ..) (lt_prefixLoop rounds _ _ last (shift_lt small))

private theorem length_pos (set : e.mask ≠ 0) : 0 < e.length := lt_prefixLoop 32 e.mask 0 set e.mask.isLt

/-- The order of the entries of a table. -/
def Before (a b : RouteEntry) : Prop := b.length < a.length ∨ (a.length = b.length ∧ a.metric ≤ b.metric)

theorem Before.trans (first : Before a b) (second : Before b c) : Before a c := by
  rcases first with longer | ⟨same,lower⟩ <;> rcases second with longer' | ⟨same',lower'⟩
  · exact Or.inl (by omega)
  · exact Or.inl (by omega)
  · exact Or.inl (by omega)
  · exact Or.inr ⟨by omega,BitVec.le_trans lower lower'⟩

private theorem insert_perm : ∀ es, (routeInsertSorted entry es).Perm (entry :: es)
  | [] => .refl _
  | cur :: rest => by
    rw [routeInsertSorted]
    split
    · exact .refl _
    · split
      · exact .refl _
      · exact ((insert_perm rest).cons cur).trans (.swap ..)

theorem insert_sorted : ∀ es, es.Pairwise Before → (routeInsertSorted entry es).Pairwise Before
  | [], _ => List.pairwise_singleton ..
  | cur :: rest, sorted => by
    obtain ⟨head,tail⟩ := List.pairwise_cons.mp sorted
    have front : Before entry cur → (entry :: cur :: rest).Pairwise Before := by
      intro first
      refine List.pairwise_cons.mpr ⟨fun e member => ?_,sorted⟩
      rcases List.mem_cons.mp member with here | later
      · rw [here]
        exact first
      · exact first.trans (head e later)
    rw [routeInsertSorted]
    split
    case isTrue longer => exact front (Or.inl longer)
    case isFalse longer =>
      split
      case isTrue lower => exact front (Or.inr ⟨lower.1,BitVec.le_of_lt lower.2⟩)
      case isFalse lower =>
        refine List.pairwise_cons.mpr ⟨fun e member => ?_,insert_sorted rest tail⟩
        rcases List.mem_cons.mp ((insert_perm rest).mem_iff.mp member) with here | later
        · rw [here]
          by_cases same : entry.length = cur.length
          · exact Or.inr ⟨same.symm,BitVec.not_lt.mp (fun less => lower ⟨same,less⟩)⟩
          · exact Or.inl (by omega)
        · exact head e later

theorem unlinkEntry_spec : ∀ {es stay : List RouteEntry} {freed : RouteEntry}, unlinkEntry dst mask es = some (freed,stay) →
    es.Perm (freed :: stay) ∧ stay.Sublist es
  | [], _, _, found => nomatch found
  | cur :: rest, stay, freed, found => by
    rw [unlinkEntry] at found
    split at found
    · obtain ⟨rfl,rfl⟩ := Prod.mk.inj (Option.some.inj found)
      exact ⟨.refl _,List.sublist_cons_self ..⟩
    · obtain ⟨⟨other,more⟩,deeper,same⟩ := Option.map_eq_some_iff.mp found
      obtain ⟨rfl,rfl⟩ := Prod.mk.inj same
      obtain ⟨perm,sub⟩ := unlinkEntry_spec deeper
      exact ⟨(perm.cons cur).trans (.swap ..),sub.cons_cons cur⟩

private theorem overlaps_of_matches (first : Matches dst a) (second : Matches dst b) : Overlaps a b := by
  rw [Overlaps,← first,← second,BitVec.and_assoc,BitVec.and_assoc,BitVec.and_comm a.mask]

/-! ### The lookup -/

def Fib.routes (fib : Fib) : List RouteEntry := (List.range tableMax).flatMap (fun t => (fib.tables t).entries)

private theorem lookupTable_eq : ∀ es best, lookupTable dst es best = es.foldl (Scans.heavier (Matches dst) RouteEntry.length) best
  | [], _ => rfl
  | e :: rest, best => by
    rw [lookupTable,List.foldl_cons,lookupTable_eq rest]
    congr 1
    rw [Scans.heavier]
    by_cases here : Matches dst e <;> simp [here]

section
variable (fresh : ∀ t, (fib.tables t).tbId = 0 → (fib.tables t).entries = [])
include fresh

theorem routeLookup_eq :
    routeLookup fib dst = (fib.routes.foldl (Scans.heavier (Matches dst) RouteEntry.length) (none,0)).1 := by
  have scan : ∀ (ts : List Nat) best, ts.foldl (fun best t =>
      if (fib.tables t).tbId = 0 then best else lookupTable dst (fib.tables t).entries best) best =
      (ts.flatMap (fun t => (fib.tables t).entries)).foldl (Scans.heavier (Matches dst) RouteEntry.length) best := by
    intro ts
    induction ts with
    | nil => exact fun _ => rfl
    | cons t rest ih =>
      intro best
      rw [List.foldl_cons,List.flatMap_cons,List.foldl_append,ih]
      congr 1
      split
      case isTrue unused =>
        rw [fresh t unused]
        rfl
      · exact lookupTable_eq ..
  rw [routeLookup,scan]
  rfl

/-- Routes that are searched in the order of their metrics, none of them a default route. -/
theorem isBest_of_ordered (positive : ∀ e ∈ fib.routes, e.mask ≠ 0)
    (ordered : fib.routes.Pairwise (fun a b => a.length = b.length → Overlaps a b → a.metric ≤ b.metric)) :
    IsBest fib.routes dst (routeLookup fib dst) := by
  have spec := Scans.scan_spec (Matches dst) RouteEntry.length fib.routes
  rw [routeLookup_eq fresh]
  generalize fib.routes.foldl (Scans.heavier (Matches dst) RouteEntry.length) (none,0) = best at spec
  obtain ⟨item,w⟩ := best
  cases item with
  | none =>
    intro e member taken
    have zero := spec.2 e member taken
    have set := length_pos (positive e member)
    omega
  | some b =>
    obtain ⟨_,taken,_,before,after,split,less,most⟩ := spec
    refine ⟨by rw [split]; simp,taken,fun e member matched => ?_⟩
    rw [split] at member ordered
    rcases List.mem_append.mp member with early | late
    · exact Or.inl (less e early matched)
    · rcases List.mem_cons.mp late with here | later
      · rw [here]
        exact Or.inr ⟨rfl,BitVec.le_refl _⟩
      · have rest := (List.pairwise_cons.mp (List.pairwise_append.mp ordered).2.1).1 e later
        rcases Nat.lt_or_eq_of_le (most e later matched) with shorter | same
        · exact Or.inl shorter
        · exact Or.inr ⟨same,rest same.symm (overlaps_of_matches taken matched)⟩

end

/-- The routes of the tables, each with the id of its table. -/
def Fib.stored (fib : Fib) : List (BitVec 32 × RouteEntry) :=
  (List.range tableMax).flatMap (fun t => (fib.tables t).entries.map (fun e => ((fib.tables t).tbId,e)))

/-- Tables are used from the first slot on, and of two tables with one id only the first
    has entries; entries are sorted and have the order of their metrics across tables. -/
structure Tidy (fib : Fib) : Prop where
  inside : ∀ t, tableMax ≤ t → (fib.tables t).tbId = 0
  fresh : ∀ t, (fib.tables t).tbId = 0 → (fib.tables t).entries = []
  packed : ∀ t u, t < u → (fib.tables t).tbId = 0 → (fib.tables u).tbId = 0
  first : ∀ t u, t < u → (fib.tables t).tbId = (fib.tables u).tbId → (fib.tables u).entries = []
  sorted : ∀ t, (fib.tables t).entries.Pairwise Before
  across : ∀ t u, t < u → ∀ a ∈ (fib.tables t).entries, ∀ b ∈ (fib.tables u).entries, a.length = b.length → Overlaps a b → a.metric ≤ b.metric
  positive : ∀ t, ∀ e ∈ (fib.tables t).entries, e.mask ≠ 0

structure Inv (s : State) : Prop where
  tidy : Tidy s.fib
  live : s.live.Perm s.fib.stored

private theorem setTable_self : (fib.setTable i table).tables i = table := Function.update_self ..

private theorem setTable_of_ne (other : t ≠ i) : (fib.setTable i table).tables t = fib.tables t := Function.update_of_ne other ..

theorem get_spec (found : routeTableGet fib id = some i) :
    (fib.tables i).tbId = id ∧ i < tableMax ∧ ∀ t < i, (fib.tables t).tbId ≠ id := by
  obtain ⟨here,less,before⟩ := List.find?_range_eq_some.mp found
  refine ⟨of_decide_eq_true here,List.mem_range.mp less,fun t earlier => ?_⟩
  simpa using before t earlier

private theorem get_none (found : routeTableGet fib id = none) : ∀ t < tableMax, (fib.tables t).tbId ≠ id := by
  intro t less
  have refused := List.find?_eq_none.mp found t (List.mem_range.mpr less)
  simpa using refused

theorem stored_congr (same : ∀ t, (fib'.tables t).entries = (fib.tables t).entries)
    (ids : ∀ t, (fib.tables t).entries ≠ [] → (fib'.tables t).tbId = (fib.tables t).tbId) : fib'.stored = fib.stored := by
  apply List.flatMap_congr
  intro t _
  rw [same t]
  by_cases none : (fib.tables t).entries = []
  · rw [none]
    rfl
  · rw [ids t none]

theorem stored_grow (fib fib' : Fib) (less : i < tableMax) (here : ((fib'.tables i).entries).Perm (e :: (fib.tables i).entries))
    (id : (fib'.tables i).tbId = (fib.tables i).tbId) (others : ∀ t, t ≠ i → fib'.tables t = fib.tables t) :
    fib'.stored.Perm (((fib.tables i).tbId,e) :: fib.stored) := by
  have front := List.perm_cons_erase (List.mem_range.mpr less)
  refine (front.flatMap_right _).trans (.trans ?_ ((front.flatMap_right _).symm.cons _))
  rw [List.flatMap_cons,List.flatMap_cons,id]
  refine ((here.map _).append_right _).trans (.of_eq (congrArg _ (List.flatMap_congr (fun t member => ?_))))
  rw [others t (List.nodup_range.mem_erase_iff.mp member).1]

section
variable (tidy : Tidy fib)
include tidy

theorem Tidy.shrink (less : ∀ t, (fib'.tables t).tbId = (fib.tables t).tbId ∧
    (fib'.tables t).entries.Sublist (fib.tables t).entries) : Tidy fib' where
  inside := fun t behind => (less t).1.trans (tidy.inside t behind)
  fresh := by
    intro t unused
    obtain ⟨id,sub⟩ := less t
    rw [tidy.fresh t (id.symm.trans unused)] at sub
    exact List.sublist_nil.mp sub
  packed := by
    intro t u before unused
    rw [(less _).1] at unused ⊢
    exact tidy.packed t u before unused
  first := by
    intro t u before same
    rw [(less t).1,(less u).1] at same
    have sub := (less u).2
    rw [tidy.first t u before same] at sub
    exact List.sublist_nil.mp sub
  sorted := fun t => (tidy.sorted t).sublist (less t).2
  across := fun t u before a first b second => tidy.across t u before a ((less t).2.subset first) b ((less u).2.subset second)
  positive := fun t e member => tidy.positive t e ((less t).2.subset member)

theorem Tidy.set (id : table.tbId = (fib.tables i).tbId)
    (less : table.entries.Sublist (fib.tables i).entries) : Tidy (fib.setTable i table) := by
  refine tidy.shrink ?_
  dsimp only [Fib.setTable]
  exact update_cases ⟨id,less⟩ (fun _ _ => ⟨rfl,.refl _⟩)

theorem Tidy.entries_create (unused : (fib.tables i).tbId = 0) (t : Nat) :
    ((fib.setTable i ⟨id,[],0⟩).tables t).entries = (fib.tables t).entries := by
  dsimp only [Fib.setTable]
  exact update_cases (tidy.fresh i unused).symm (fun _ _ => rfl) t

theorem Tidy.insert {entry : RouteEntry} (used : (fib.tables i).tbId ≠ 0)
    (before : ∀ t < i, (fib.tables t).tbId ≠ (fib.tables i).tbId)
    (set : entry.mask ≠ 0) (order : ∀ u, ∀ e ∈ (fib.tables u).entries, e.length = entry.length → Overlaps e entry →
      (u < i → e.metric ≤ entry.metric) ∧ (i < u → entry.metric ≤ e.metric)) (id : table.tbId = (fib.tables i).tbId)
    (entries : table.entries = routeInsertSorted entry (fib.tables i).entries) : Tidy (fib.setTable i table) := by
  have ids : ∀ t, ((fib.setTable i table).tables t).tbId = (fib.tables t).tbId := by
    dsimp only [Fib.setTable]
    exact update_cases id (fun _ _ => rfl)
  have members : ∀ t, ∀ e ∈ ((fib.setTable i table).tables t).entries, e ∈ (fib.tables t).entries ∨ (t = i ∧ e = entry) := by
    dsimp only [Fib.setTable]
    refine update_cases (fun e member => ?_) (fun _ _ _ => .inl)
    rw [entries,(insert_perm _).mem_iff] at member
    rcases List.mem_cons.mp member with new | old
    · exact Or.inr ⟨rfl,new⟩
    · exact Or.inl old
  constructor
  · exact fun t behind => (ids t).trans (tidy.inside t behind)
  · intro t unused
    rw [ids] at unused
    have other : t ≠ i := by
      rintro rfl
      exact used unused
    rw [setTable_of_ne other]
    exact tidy.fresh t unused
  · intro t u less unused
    rw [ids] at unused ⊢
    exact tidy.packed t u less unused
  · intro t u less same
    rw [ids,ids] at same
    have other : u ≠ i := by
      rintro rfl
      exact before t less same
    rw [setTable_of_ne other]
    exact tidy.first t u less same
  · dsimp only [Fib.setTable]
    refine update_cases ?_ (fun t _ => tidy.sorted t)
    rw [entries]
    exact insert_sorted _ (tidy.sorted i)
  · intro t u less a first b second length overlaps
    rcases members t a first with oldA | ⟨atA,newA⟩ <;> rcases members u b second with oldB | ⟨atB,newB⟩
    · exact tidy.across t u less a oldA b oldB length overlaps
    · rw [newB] at length overlaps ⊢
      exact (order t a oldA length overlaps).1 (by omega)
    · rw [newA] at length overlaps ⊢
      exact (order u b oldB length.symm overlaps.symm).2 (by omega)
    · omega
  · intro t e member
    rcases members t e member with old | ⟨_,new⟩
    · exact tidy.positive t e old
    · rw [new]
      exact set

theorem Tidy.stored_flush : (routeFlush id fib).stored = fib.stored.filter (fun r => r.1 ≠ id) := by
  rw [Fib.stored,Fib.stored,List.filter_flatMap,routeFlush]
  refine List.flatMap_congr (fun t member => ?_)
  cases found : routeTableGet fib id with
  | none => simp [List.filter_map,Function.comp_def,get_none found t (List.mem_range.mp member)]
  | some i =>
    obtain ⟨here,_,before⟩ := get_spec found
    by_cases same : t = i
    · simp [same,setTable_self,emptied,here]
    · rw [setTable_of_ne same]
      by_cases again : (fib.tables t).tbId = id
      · have later : i < t := by
          by_contra early
          exact before t (by omega) again
        simp [tidy.first i t later (here.trans again.symm)]
      · simp [List.filter_map,Function.comp_def,again]

end

section
variable (inv : Inv s)
include inv

theorem Inv.sound : Sound s := by
  intro dst
  have best : IsBest s.fib.routes dst (routeLookup s.fib dst) := by
    refine isBest_of_ordered inv.tidy.fresh ?_ ?_
    · intro e member
      obtain ⟨t,_,inside⟩ := List.mem_flatMap.mp member
      exact inv.tidy.positive t e inside
    · refine List.pairwise_flatMap.mpr ⟨fun t _ => ?_,?_⟩
      · refine (inv.tidy.sorted t).imp (fun before same _ => ?_)
        rcases before with longer | lower
        · omega
        · exact lower.2
      · exact List.pairwise_lt_range.imp (fun less a first b second => inv.tidy.across _ _ less a first b second)
  have same : ∀ e, e ∈ s.live.map Prod.snd ↔ e ∈ s.fib.routes := by
    intro e
    rw [(inv.live.map Prod.snd).mem_iff,Fib.stored,Fib.routes]
    simp
  cases found : routeLookup s.fib dst with
  | none =>
    rw [found] at best
    exact fun e member => best e ((same e).mp member)
  | some b =>
    rw [found] at best
    exact ⟨(same b).mpr best.1,best.2.1,fun e member => best.2.2 e ((same e).mp member)⟩

theorem Inv.tableCreate (id : BitVec 32) : Inv { s with fib := (routeTableCreate id s.fib).2 } := by
  rw [routeTableCreate]
  cases found : (List.range tableMax).find? (fun i => (s.fib.tables i).tbId = 0) with
  | none => exact inv
  | some i =>
    obtain ⟨unused,less,before⟩ := get_spec found
    have tidy := inv.tidy
    have entries := @Tidy.entries_create id _ i tidy unused
    constructor
    · constructor
      · intro t behind
        rw [setTable_of_ne (by omega)]
        exact tidy.inside t behind
      · intro t none
        rw [entries]
        by_cases here : t = i
        · rw [here]
          exact tidy.fresh i unused
        · rw [setTable_of_ne here] at none
          exact tidy.fresh t none
      · intro t u order none
        have after : i ≤ t := by
          by_contra early
          rw [setTable_of_ne (by omega)] at none
          exact before t (by omega) none
        rw [setTable_of_ne (by omega)]
        exact tidy.packed i u (by omega) unused
      · intro t u order same
        rw [entries]
        by_cases here : u = i
        · rw [here]
          exact tidy.fresh i unused
        · by_cases new : t = i
          · exact tidy.fresh u (tidy.packed i u (by omega) unused)
          · rw [setTable_of_ne here,setTable_of_ne new] at same
            exact tidy.first t u order same
      · intro t
        rw [entries]
        exact tidy.sorted t
      · intro t u order
        rw [entries,entries]
        exact tidy.across t u order
      · intro t
        rw [entries]
        exact tidy.positive t
    · refine inv.live.trans (List.Perm.of_eq (Eq.symm (stored_congr entries ?_)))
      intro t some
      have other : t ≠ i := by
        rintro rfl
        exact some (tidy.fresh t unused)
      rw [setTable_of_ne other]

theorem Inv.tableFor {slot : Option Nat} (ran : routeTableFor id s.fib = (slot,fib')) :
    Inv { s with fib := fib' } ∧ (∀ t, (fib'.tables t).entries = (s.fib.tables t).entries) ∧
      ∀ i ∈ slot, slotFor s.fib id = some i ∧ i < tableMax ∧ (fib'.tables i).tbId = id ∧ ∀ t < i, (fib'.tables t).tbId ≠ id := by
  rw [routeTableFor] at ran
  cases found : routeTableGet s.fib id with
  | some i =>
    rw [found] at ran
    obtain ⟨rfl,rfl⟩ := Prod.mk.inj ran
    refine ⟨inv,fun _ => rfl,?_⟩
    rintro i ⟨⟩
    obtain ⟨here,less,before⟩ := get_spec found
    exact ⟨by rw [slotFor,found]; rfl,less,here,before⟩
  | none =>
    rw [found] at ran
    have made := inv.tableCreate id
    rw [routeTableCreate] at ran made
    cases free : (List.range tableMax).find? (fun i => (s.fib.tables i).tbId = 0) with
    | none =>
      rw [free] at ran
      obtain ⟨rfl,rfl⟩ := Prod.mk.inj ran
      exact ⟨inv,fun _ => rfl,nofun⟩
    | some j =>
      rw [free] at ran made
      obtain ⟨unused,less,before⟩ := get_spec free
      obtain ⟨rfl,rfl⟩ := Prod.mk.inj ran
      refine ⟨made,inv.tidy.entries_create unused,fun i member => ?_⟩
      obtain ⟨here,below,earlier⟩ := get_spec member
      have same : i = j := by
        by_contra other
        rw [setTable_of_ne other] at here
        exact get_none found i below here
      subst same
      exact ⟨by rw [slotFor,found]; exact free,below,here,earlier⟩

theorem Inv.add {gw ifIndex metric : BitVec 32} {memory : Bool} (meets : Meets s (.add id dst mask gw ifIndex metric memory)) :
    ∃ t, step s (.add id dst mask gw ifIndex metric memory) = some t ∧ Inv t := by
  obtain ⟨used,set,order⟩ := meets
  rw [step,routeAdd]
  obtain ⟨slot,fib',ran⟩ : ∃ slot fib', routeTableFor id s.fib = (slot,fib') := ⟨_,_,rfl⟩
  obtain ⟨kept,entries,found⟩ := inv.tableFor ran
  rw [ran]
  cases slot with
  | none => exact ⟨_,rfl,kept⟩
  | some i =>
    obtain ⟨at_,less,here,before⟩ := found i rfl
    dsimp only
    split
    · exact ⟨_,rfl,kept⟩
    · split
      · refine ⟨_,rfl,?_,?_⟩
        · refine kept.tidy.insert (by rwa [here]) (by rwa [here]) set (fun u e member length overlaps => ?_) rfl rfl
          rw [entries] at member
          by_cases inside : u < tableMax
          · exact order i at_ u inside e member length overlaps
          · rw [inv.tidy.fresh u (inv.tidy.inside u (Nat.le_of_not_lt inside))] at member
            cases member
        · refine (kept.live.cons _).trans (List.Perm.symm ?_)
          rw [← here]
          exact stored_grow fib' _ less (by rw [setTable_self]; exact insert_perm _) (by rw [setTable_self])
            (fun t other => setTable_of_ne other)
      · exact ⟨_,rfl,kept⟩

theorem Inv.del : ∃ t, step s (.del id dst mask) = some t ∧ Inv t := by
  rw [step,routeDel]
  cases found : routeTableGet s.fib id with
  | none => exact ⟨_,rfl,inv⟩
  | some i =>
    obtain ⟨here,less,before⟩ := get_spec found
    dsimp only
    cases taken : unlinkEntry dst mask (s.fib.tables i).entries with
    | none => exact ⟨_,rfl,inv⟩
    | some pair =>
      obtain ⟨freed,stay⟩ := pair
      obtain ⟨perm,sub⟩ := unlinkEntry_spec taken
      refine ⟨_,rfl,?_,?_⟩
      · exact inv.tidy.set rfl sub
      · have grown := stored_grow (s.fib.setTable i { s.fib.tables i with
          entries := stay
          count := (s.fib.tables i).count - 1 }) s.fib less (by rw [setTable_self]; exact perm) (by rw [setTable_self])
          (fun t other => (setTable_of_ne other).symm)
        rw [setTable_self,here] at grown
        have removed := (inv.live.trans grown).erase (id,freed)
        rwa [List.erase_cons_head] at removed

theorem Inv.flush : ∃ t, step s (.flush id) = some t ∧ Inv t := by
  refine ⟨_,rfl,?_,by rw [inv.tidy.stored_flush]; exact inv.live.filter _⟩
  rw [routeFlush]
  cases routeTableGet s.fib id with
  | none => exact inv.tidy
  | some i => exact inv.tidy.set rfl (List.nil_sublist _)

theorem Inv.flushAll : ∃ t, step s .flushAll = some t ∧ Inv t := by
  have entries : ∀ t < tableMax, ((routeFlushAll s.fib).tables t).entries = [] := by
    intro t less
    simp only [routeFlushAll]
    split
    · rfl
    case isFalse unused =>
      refine inv.tidy.fresh t ?_
      by_contra used
      exact unused ⟨less,used⟩
  refine ⟨_,rfl,inv.tidy.shrink (fun t => ?_),?_⟩
  · simp only [routeFlushAll]
    split
    · exact ⟨rfl,List.nil_sublist _⟩
    · exact ⟨rfl,.refl _⟩
  · have none : (routeFlushAll s.fib).stored = [] := by
      rw [Fib.stored,List.flatMap_eq_nil_iff]
      intro t member
      rw [entries t (List.mem_range.mp member)]
      rfl
    rw [none]

end

theorem inv_step (s : State) (a : Request) (inv : Inv s) (meets : Meets s a) : ∃ t, step s a = some t ∧ Inv t := by
  cases a with
  | tableCreate id => exact ⟨_,rfl,inv.tableCreate id⟩
  | add id dst mask gw ifIndex metric memory => exact inv.add meets
  | del id dst mask => exact inv.del
  | flush id => exact inv.flush
  | flushAll => exact inv.flushAll

theorem start_inv : Inv start :=
  ⟨⟨fun _ _ => rfl,fun _ _ => rfl,fun _ _ _ _ => rfl,fun _ _ _ _ => rfl,fun _ => .nil,nofun,nofun⟩,by decide +kernel⟩

end

/-- In every run that meets the condition a lookup gives the best of the routes that were added and not deleted. -/
theorem route_run_best (requests : List Request) (guarded : Guarded step Meets start requests) :
    ∃ s, run step start requests = some s ∧ Sound s := by
  obtain ⟨s,ran,inv⟩ := run_invariant inv_step requests _ start_inv guarded
  exact ⟨s,ran,inv.sound⟩

def routed : List Request :=
  [.tableCreate 255, .tableCreate 254, .tableCreate 253, .add 255 0x7f000001 0xffffffff 0 1 0 true, .add 255 0x7f000000 0xff000000 0 1 0 true,
    .add 254 0x0a000000 0xff000000 1 2 20 true, .add 254 0x0a010000 0xffff0000 0 2 10 true, .add 7 0x0a000000 0xff000000 1 2 30 true,
    .add 254 0x0a000000 0xff000000 1 2 10 true, .del 254 0x0a000000 0xff000000, .flush 255]

theorem route_run_best_of_routed : Guarded step Meets start routed ∧ ∃ s, run step start routed = some s ∧ Sound s :=
  have guarded : Guarded step Meets start routed := by decide +kernel
  ⟨guarded,route_run_best routed guarded⟩

theorem route_lookup_misses :
    (∃ s, run step start [.add 254 0 0 1 1 0 true] = some s ∧ ¬ Sound s) ∧
    (∃ s, run step start [.add 255 0x0a000000 0xff000000 0 1 5 true, .add 254 0x0a000000 0xff000000 0 1 1 true] = some s ∧ ¬ Sound s) ∧
    (∃ s, run step start [.add 0 0x0a000000 0xff000000 0 1 5 true] = some s ∧ ¬ Sound s) := by
  have shows : ∀ {requests} dst live found,
      (run step start requests).map (fun s => (s.live,routeLookup s.fib dst)) = some (live,found) →
        ¬ IsBest (live.map Prod.snd) dst found → ∃ s, run step start requests = some s ∧ ¬ Sound s := by
    intro _ dst live found seen wrong
    refine run_shows _ _ seen (fun s same sound => wrong ?_)
    obtain ⟨rfl,rfl⟩ := Prod.mk.inj same
    exact sound dst
  refine ⟨?_,?_,?_⟩
  · exact shows 8 [(254,newEntry 0 0 1 1 0)] none (by decide +kernel)
      (fun best => best (newEntry 0 0 1 1 0) (by simp) (by decide))
  · refine shows 0x0a000001 [(254,newEntry 0x0a000000 0xff000000 0 1 1),(255,newEntry 0x0a000000 0xff000000 0 1 5)]
      (some (newEntry 0x0a000000 0xff000000 0 1 5)) (by decide +kernel) (fun best => ?_)
    exact absurd (best.2.2 (newEntry 0x0a000000 0xff000000 0 1 1) (by simp) (by decide)) (by decide +kernel)
  · exact shows 0x0a000001 [(0,newEntry 0x0a000000 0xff000000 0 1 5)] none (by decide +kernel)
      (fun best => best (newEntry 0x0a000000 0xff000000 0 1 5) (by simp) (by decide))

end Kenux.Route
