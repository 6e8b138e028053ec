import Kenux.SlabLists

/-!
One cache of `kmalloc`. Its slab takes two pages, and the first allocation makes
its partial list a cycle; from then on the slab stays at the head of the partial
list, its objects are handed out from the last one down, and after the first one
the cache gives nothing more (`opened_alloc`). The calls write in the pages of
the slab only (`Within`).
-/
namespace Kenux.KmallocCache
open Kenux.Bytes Kenux.Words Kenux.Slab Kenux.SlabLists
open Kenux.Blocks (Apart)
open Kenux.Buddy (pageSize)

def room (i : Nat) : Nat := 2^(13-i)

def header (base : Nat) : Nat := base + 8136

/-- A free list of `j` objects: the object before the `j`-th, or `NULL`. -/
def chainHead (base i j : Nat) : Nat := if j = 0 then 0 else base + (j-1) * 2^i

/-- The cache of the objects of `2^i` bytes. -/
structure Shape (c : Cache) (i : Nat) : Prop where
  low : 7 ≤ i
  high : i ≤ 11
  objSize : c.objSize = 2^i
  objsPerSlab : c.objsPerSlab = room i
  slabOrder : c.slabOrder = 1

/-- The slab of a cache with its first `n` objects free, at the head of the partial list. -/
structure Chained (w : World) (i base n : Nat) : Prop where
  shape : Shape w.cache i
  inside : 0 < base ∧ base + 8192 < 2^64
  few : n ≤ room i
  part : w.cache.heads .part = header base
  objCount : w.get .objCount (header base) = room i
  freeCount : w.get .freeCount (header base) = n
  freeList : w.get .freeList (header base) = chainHead base i n
  links : ∀ j < n, w.link (base + j * 2^i) = chainHead base i j

/-- The slab once `popped` of its objects were handed out. -/
structure Opened (w : World) (i base popped : Nat) : Prop where
  started : 0 < popped
  few : popped ≤ room i
  chained : Chained w i base (room i - popped)
  cycle : popped < room i → w.cache.heads .full = 0 ∧ w.get .state (header base) = Kind.part.code ∧
    w.get .next (header base) = header base ∧ w.get .prev (header base) = header base

/-- Only bytes of the two pages change. -/
def Within (base : Nat) (w w' : World) : Prop := ∀ a, a < base ∨ base + 8192 ≤ a → w'.mem a = w.mem a

section
variable {w w' w'' : World} {c : Cache} {i j base popped v o : Nat} {f g : Slot} {k : Kind} {s : Nat}

theorem Within.refl : Within base w w := fun _ _ => rfl

theorem Within.trans (first : Within base w w') (second : Within base w' w'') : Within base w w'' :=
  fun a outside => (second a outside).trans (first a outside)

private theorem within_set : Within base w (w.set f (header base) v) := by
  intro a outside
  have inside := slot_inside f
  simp only [header]
  exact store_of_apart (by omega)

private theorem within_setLink (low : base ≤ o) (high : o + 8 ≤ base + 8192) : Within base w (w.setLink o v) :=
  fun _ outside => store_of_apart (by omega)

private theorem within_setHead : Within base w (w.setHead k v) := Within.refl

private theorem room_mul (low : i ≤ 11) : room i * 2^i = 8192 := by
  rw [room,← Nat.pow_add]
  rw [show 13 - i + i = 13 by omega]

theorem room_bounds (low : 7 ≤ i) (high : i ≤ 11) : 4 ≤ room i ∧ room i ≤ 64 ∧ 128 ≤ 2^i ∧ 2^i ≤ 2048 := by
  have first : 2^2 ≤ room i := Nat.pow_le_pow_right (by decide) (by omega)
  have second : room i ≤ 2^6 := Nat.pow_le_pow_right (by decide) (by omega)
  have third : 2^7 ≤ 2^i := Nat.pow_le_pow_right (by decide) (by omega)
  have fourth : 2^i ≤ 2^11 := Nat.pow_le_pow_right (by decide) (by omega)
  omega

theorem object_end (high : i ≤ 11) (less : j < room i) : j * 2^i + 2^i ≤ 8192 := by
  have step : (j+1) * 2^i ≤ room i * 2^i := Nat.mul_le_mul_right _ less
  rw [room_mul high,Nat.succ_mul] at step
  exact step

theorem alone : header base ∈ [header base] := List.mem_singleton_self _

section
variable (shape : Shape c i)
include shape

theorem Shape.slabSize : c.slabSize = 8192 := by
  rw [Cache.slabSize,shape.slabOrder]
  rfl

theorem Shape.base_header : SlabLists.base c (header base) = base := by
  rw [SlabLists.base,shape.slabSize,header,sizeofSlab]
  omega

theorem Shape.layout (inside : 0 < base ∧ base + 8192 < 2^64) : Layout c [header base] := by
  obtain ⟨many,few,large,small⟩ := room_bounds shape.low shape.high
  refine ⟨?_,?_,?_⟩
  · intro s inS t inT other
    rw [List.mem_singleton.mp inS,List.mem_singleton.mp inT] at other
    exact absurd rfl other
  · intro s inS
    rw [List.mem_singleton.mp inS,shape.slabSize,header,sizeofSlab]
    omega
  · intro _
    have last := object_end (j := room i - 1) shape.high (by omega)
    rw [shape.objSize,shape.objsPerSlab,shape.slabSize,sizeofSlab]
    omega

theorem Shape.object (base : Nat) (less : j < room i) : IsObject c (header base) (base + j * 2^i) :=
  ⟨j,by rw [shape.objsPerSlab]; exact less,by rw [shape.base_header,shape.objSize]⟩

end

private theorem get_set_alone (layout : Layout c [header base]) (fits : v < 256 ^ f.field.size) :
    (w.set f (header base) v).get g (header base) = if g = f then v else w.get g (header base) := by
  rw [get_set_of_lt layout alone alone fits]
  simp

private theorem within_popObject {obj n : Nat} : Within base w (popObject (header base) obj n w) := by
  have first : Within base w (w.set .freeList (header base) (w.link obj)) := within_set
  exact first.trans within_set

theorem within_slabAdd (head : w.cache.heads k = 0 ∨ w.cache.heads k = header base) :
    Within base w (slabAdd k (header base) w) := by
  have linked : Within base w ((w.set .next (header base) (w.cache.heads k)).set .prev (header base) 0) :=
    within_set.trans within_set
  rcases head with none | same
  · simp only [slabAdd,none]
    rw [none] at linked
    exact linked
  · simp only [slabAdd,same]
    rw [same] at linked
    exact linked.trans within_set

theorem within_slabRemove (layout : Layout c [header base]) (prev : w.get .prev (header base) = 0 ∨ w.get .prev (header base) = header base)
    (next : w.get .next (header base) = 0 ∨ w.get .next (header base) = header base) :
    Within base w (slabRemove k (header base) w) := by
  have prevIn : w.get .prev (header base) ≠ 0 → w.get .prev (header base) ∈ [header base] :=
    fun present => List.mem_singleton.mpr (prev.resolve_left present)
  have kept : (slabSkip k (header base) w).get .next (header base) = w.get .next (header base) := by
    rw [slabSkip_get layout alone prevIn]
    split <;> rfl
  have skip : Within base w (slabSkip k (header base) w) := by
    rcases prev with none | same
    · simp only [slabSkip,none]
      exact within_setHead
    · simp only [slabSkip,same]
      exact within_set
  have back : Within base (slabSkip k (header base) w) (slabBack (header base) (slabSkip k (header base) w)) := by
    rcases next with none | same
    · rw [none] at kept
      simp only [slabBack,kept,ne_eq,not_true_eq_false,if_false]
      exact Within.refl
    · rw [same] at kept
      simp only [slabBack,kept]
      exact within_set
  exact (skip.trans back).trans (within_set.trans within_set)

private theorem slabRehome_stay (state : w.get .state s = k.code)
    (count : Kind.ofCount (w.get .freeCount s) (w.get .objCount s) = k) : slabRehome s w = w.set .state s k.code := by
  simp [slabRehome,state,ofState_code,count]

private theorem slabRehome_move {target : Kind} (state : w.get .state s = k.code)
    (count : Kind.ofCount (w.get .freeCount s) (w.get .objCount s) = target) (moves : k ≠ target) :
    slabRehome s w = slabAdd target s (slabRemove k s (w.set .state s target.code)) := by
  simp [slabRehome,state,ofState_code,count,moves]

private theorem chainHead_succ : chainHead base i (j+1) = base + j * 2^i := by simp [chainHead]

section
variable {n : Nat}

theorem Shape.heads (shape : Shape c i) (h : Kind → Nat) : Shape { c with heads := h } i :=
  { shape with }

section
variable (chained : Chained w i base n)
include chained

theorem Chained.layout : Layout w.cache [header base] := chained.shape.layout chained.inside

theorem Chained.congr (shape : Shape w'.cache i) (part : w'.cache.heads .part = header base)
    (kept : ∀ g, g ≠ .next → g ≠ .prev → g ≠ .state → w'.get g (header base) = w.get g (header base))
    (links : ∀ j < room i, w'.link (base + j * 2^i) = w.link (base + j * 2^i)) : Chained w' i base n := by
  refine ⟨shape,chained.inside,chained.few,part,?_,?_,?_,?_⟩
  · rw [kept .objCount nofun nofun nofun]
    exact chained.objCount
  · rw [kept .freeCount nofun nofun nofun]
    exact chained.freeCount
  · rw [kept .freeList nofun nofun nofun]
    exact chained.freeList
  · intro j below
    rw [links j (Nat.lt_of_lt_of_le below chained.few)]
    exact chained.links j below

theorem Chained.stay (some : n ≠ 0) (other : n ≠ room i)
    (state : w.get .state (header base) = Kind.part.code) :
    Chained (slabRehome (header base) w) i base n ∧ Within base w (slabRehome (header base) w) ∧
      (slabRehome (header base) w).cache = w.cache ∧
      ∀ g, (slabRehome (header base) w).get g (header base) = w.get g (header base) := by
  have layout := chained.layout
  have count : Kind.ofCount (w.get .freeCount (header base)) (w.get .objCount (header base)) = .part := by
    rw [chained.freeCount,chained.objCount,Kind.ofCount,if_neg some,if_neg other]
  have kept : ∀ g, (w.set .state (header base) Kind.part.code).get g (header base) = w.get g (header base) := by
    intro g
    rw [get_set_alone layout (code_lt .part)]
    split
    · next same => rw [same,state]
    · rfl
  rw [slabRehome_stay state count]
  refine ⟨chained.congr chained.shape chained.part (fun g _ _ _ => kept g) (fun j less => ?_),within_set,rfl,kept⟩
  exact link_set layout alone alone (chained.shape.object base less)

end

theorem Chained.serve {v : World} {pages : Nat} (chained : Chained w i base (n+1))
    (found : slabForAlloc pages v = (header base,w)) :
    ∃ x, kmemCacheAlloc pages v = (base + n * 2^i,slabRehome (header base) x) ∧ Chained x i base n ∧ Within base w x ∧
      x.cache.heads = w.cache.heads ∧ ∀ g, g ≠ .freeCount → g ≠ .freeList → x.get g (header base) = w.get g (header base) := by
  obtain ⟨many,few,large,small⟩ := room_bounds chained.shape.low chained.shape.high
  have below := chained.few
  have positive := chained.inside.1
  have layout := chained.layout
  have written : ∀ g, (popObject (header base) (base + n * 2^i) n w).get g (header base) = if g = .freeCount then n
      else if g = .freeList then chainHead base i n else w.get g (header base) := by
    intro g
    rw [popObject_get _ layout alone alone (by omega),chained.links n (by omega)]
    simp
  have shape : Shape (popObject (header base) (base + n * 2^i) n w).cache i := by
    obtain ⟨objs,size,order⟩ := counts_shape (c := w.cache) (add64 w.cache.totalObjs 1) (sub64 w.cache.freeObjs 1)
    exact ⟨chained.shape.low,chained.shape.high,size.trans chained.shape.objSize,objs.trans chained.shape.objsPerSlab,
      order.trans chained.shape.slabOrder⟩
  refine ⟨_,?_,⟨shape,chained.inside,by omega,?_,?_,?_,?_,?_⟩,within_popObject,counts_heads ..,?_⟩
  · exact kmemCacheAlloc_found layout alone found (chained.freeList.trans chainHead_succ) (by omega) chained.freeCount (by omega)
  · exact (congrFun (counts_heads (c := w.cache) _ _) .part).trans chained.part
  · rw [written]
    simpa using chained.objCount
  · simp [written]
  · simp [written]
  · intro j less
    rw [popObject_link _ layout alone alone (chained.shape.object base (by omega)),chained.links j (by omega)]
  · intro g notCount notList
    rw [written,if_neg notCount,if_neg notList]

/-- A slab marked for another list and taken off its own. -/
structure Unlinked (w z : World) (i base : Nat) (source target : Kind) : Prop where
  get : ∀ g, z.get g (header base) =
    if g = .next then 0 else if g = .prev then 0 else if g = .state then target.code else w.get g (header base)
  cache : z.cache = { w.cache with
    heads := if w.get .prev (header base) = 0 then Function.update w.cache.heads source (w.get .next (header base))
      else w.cache.heads }
  links : ∀ j < room i, z.link (base + j * 2^i) = w.link (base + j * 2^i)
  within : Within base w z

section
variable (source target : Kind) (chained : Chained w i base n)
  (prev : w.get .prev (header base) = 0 ∨ w.get .prev (header base) = header base)
  (next : w.get .next (header base) = w.get .prev (header base))
include chained prev next

theorem Chained.unlink :
    Unlinked w (slabRemove source (header base) (w.set .state (header base) target.code)) i base source target := by
  have layout := chained.layout
  obtain ⟨y,marked⟩ : ∃ y, y = w.set .state (header base) target.code := ⟨_,rfl⟩
  have atY : ∀ g, y.get g (header base) = if g = .state then target.code else w.get g (header base) := by
    intro g
    rw [marked,get_set_alone layout (code_lt target)]
  have prevY : y.get .prev (header base) = w.get .prev (header base) := by simp [atY]
  have nextY : y.get .next (header base) = w.get .next (header base) := by simp [atY]
  have prevIn : y.get .prev (header base) ≠ 0 → y.get .prev (header base) ∈ [header base] := by
    rw [prevY]
    exact fun present => List.mem_singleton.mpr (prev.resolve_left present)
  have nextIn : y.get .next (header base) ≠ 0 → y.get .next (header base) ∈ [header base] := by
    rw [nextY,next]
    exact fun present => List.mem_singleton.mpr (prev.resolve_left present)
  rw [←marked]
  constructor
  · intro g
    rw [slabRemove_get layout alone alone prevIn nextIn,←atY]
    by_cases isNext : g = .next
    · simp [isNext]
    · by_cases isPrev : g = .prev
      · simp [isPrev]
      · simp [isNext,isPrev]
  · rw [slabRemove_cache,prevY,nextY,marked,set_cache]
  · intro j less
    have object := chained.shape.object base less
    rw [slabRemove_link layout alone alone prevIn nextIn object,marked,link_set layout alone alone object]
  · have first : Within base w y := by
      rw [marked]
      exact within_set
    refine first.trans (within_slabRemove layout ?_ ?_)
    · rw [prevY]
      exact prev
    · rw [nextY,next]
      exact prev

theorem Chained.move (moves : source ≠ target) (state : w.get .state (header base) = source.code)
    (count : Kind.ofCount (w.get .freeCount (header base)) (w.get .objCount (header base)) = target)
    (notPart : source ≠ .part ∨ w.get .prev (header base) ≠ 0)
    (head : w.cache.heads target = 0 ∨ w.cache.heads target = header base) :
    Chained (slabRehome (header base) w) i base n ∧ Within base w (slabRehome (header base) w) ∧
      (slabRehome (header base) w).get .state (header base) = target.code ∧
      (slabRehome (header base) w).get .next (header base) = w.cache.heads target ∧
      (slabRehome (header base) w).get .prev (header base) = w.cache.heads target ∧
      (slabRehome (header base) w).cache.heads .full = if target = .full then header base else
        if source = .full ∧ w.get .prev (header base) = 0 then w.get .next (header base) else w.cache.heads .full := by
  have layout := chained.layout
  have someS := layout.slab_ne_zero alone
  rw [slabRehome_move state count moves]
  have unlinked := chained.unlink source target prev next
  generalize slabRemove source (header base) (w.set .state (header base) target.code) = z at unlinked ⊢
  have headZ : z.cache.heads target = w.cache.heads target := by
    rw [unlinked.cache]
    split
    · exact Function.update_of_ne (Ne.symm moves) _ _
    · rfl
  have headIn : z.cache.heads target ≠ 0 → z.cache.heads target ∈ [header base] := by
    rw [headZ]
    exact fun present => List.mem_singleton.mpr (head.resolve_left present)
  have kept : ∀ g, g ≠ .next → g ≠ .prev → (slabAdd target (header base) z).get g (header base) =
      if g = .state then target.code else w.get g (header base) := by
    intro g notNext notPrev
    rw [slabAdd_get layout alone alone headIn,unlinked.get]
    simp [notNext,notPrev]
  have links : ∀ j < room i, (slabAdd target (header base) z).link (base + j * 2^i) = w.link (base + j * 2^i) := by
    intro j less
    rw [slabAdd_link layout alone alone headIn (chained.shape.object base less),unlinked.links j less]
  have headsAdd : ∀ k, (slabAdd target (header base) z).cache.heads k = if target = k then header base else
      if source = k ∧ w.get .prev (header base) = 0 then w.get .next (header base) else w.cache.heads k := by
    intro k
    rw [slabAdd_cache,unlinked.cache]
    by_cases isTarget : target = k
    · simp [isTarget]
    · simp only [Function.update_of_ne (Ne.symm isTarget),if_neg isTarget]
      by_cases none : w.get .prev (header base) = 0
      · by_cases wasSource : source = k
        · simp [none,wasSource]
        · simp [none,wasSource,Ne.symm wasSource]
      · simp [none]
  have part : (slabAdd target (header base) z).cache.heads .part = header base := by
    have elsewhere : ¬(source = .part ∧ w.get .prev (header base) = 0) :=
      fun both => notPart.elim (fun other => other both.1) (fun present => present both.2)
    rw [headsAdd,if_neg elsewhere,chained.part,ite_self]
  have shape : Shape (slabAdd target (header base) z).cache i := by
    rw [slabAdd_cache,unlinked.cache]
    exact chained.shape.heads _
  refine ⟨chained.congr shape part (fun g notNext notPrev notState => ?_) links,?_,?_,?_,?_,?_⟩
  · rw [kept g notNext notPrev,if_neg notState]
  · refine unlinked.within.trans (within_slabAdd ?_)
    rw [headZ]
    exact head
  · rw [kept .state nofun nofun,if_pos rfl]
  · rw [slabAdd_get layout alone alone headIn,headZ]
    simp
  · rw [slabAdd_get layout alone alone headIn,headZ]
    rcases head with none | same
    · simp [none]
    · simp [same,someS]
  · exact headsAdd .full

end

theorem opened_alloc (opened : Opened w i base popped) (less : popped < room i) (pages : Nat) :
    ∃ w', kmemCacheAlloc pages w = (base + (room i - popped - 1) * 2^i,w') ∧ Opened w' i base (popped+1) ∧ Within base w w' := by
  obtain ⟨started,few,chained,cycle⟩ := opened
  obtain ⟨full,state,next,prev⟩ := cycle less
  have layout := chained.layout
  have someS := layout.slab_ne_zero alone
  obtain ⟨n,left⟩ : ∃ n, room i - popped = n + 1 := ⟨room i - popped - 1,by omega⟩
  rw [left] at chained
  rw [show room i - popped - 1 = n by omega]
  obtain ⟨x,run,popped',wrote,headsX,kept⟩ := chained.serve (slabForAlloc_part pages chained.part someS)
  have stateX := (kept .state (by decide) (by decide)).trans state
  have nextX := (kept .next (by decide) (by decide)).trans next
  have prevX := (kept .prev (by decide) (by decide)).trans prev
  by_cases last : n = 0
  · -- the slab goes to the full list, and stays the head of the partial list
    subst last
    have count : Kind.ofCount (x.get .freeCount (header base)) (x.get .objCount (header base)) = .full := by
      rw [popped'.freeCount,Kind.ofCount,if_pos rfl]
    obtain ⟨chained',within,-⟩ := popped'.move .part .full (.inr prevX) (nextX.trans prevX.symm)
      (by decide) stateX count (.inr (by rw [prevX]; exact someS)) (.inl (by rw [headsX]; exact full))
    refine ⟨_,run,⟨by omega,by omega,?_,fun more => absurd more (by omega)⟩,wrote.trans within⟩
    rw [show room i - (popped + 1) = 0 by omega]
    exact chained'
  · obtain ⟨chained',within,cache,same⟩ := popped'.stay last (by omega) stateX
    refine ⟨_,run,⟨by omega,by omega,?_,fun _ => ?_⟩,wrote.trans within⟩
    · rw [show room i - (popped + 1) = n by omega]
      exact chained'
    · rw [same,same,same,cache,headsX]
      exact ⟨full,stateX,nextX,prevX⟩

theorem opened_spent (opened : Opened w i base (room i)) (pages : Nat) : kmemCacheAlloc pages w = (0,w) := by
  have chained := opened.chained
  have someS := chained.layout.slab_ne_zero (List.mem_singleton_self _)
  have none : w.get .freeList (header base) = 0 := chained.freeList.trans (by simp [chainHead])
  simp [kmemCacheAlloc,slabForAlloc_part pages chained.part someS,none]

theorem linkObjects_spec (shape : Shape c i) (inside : 0 < base ∧ base + 8192 < 2^64) : ∀ (rounds j : Nat) (w : World),
    j + rounds = room i → ∃ w', linkObjects base (2^i) rounds j (chainHead base i j) w = (chainHead base i (room i),w') ∧
      w'.cache = w.cache ∧ Within base w w' ∧ (∀ g, w'.get g (header base) = w.get g (header base)) ∧
      (∀ m < j, w'.link (base + m * 2^i) = w.link (base + m * 2^i)) ∧
      ∀ m, j ≤ m → m < room i → w'.link (base + m * 2^i) = chainHead base i m
  | 0, j, w, all => ⟨w,by rw [linkObjects,← all]; rfl,rfl,Within.refl,fun _ => rfl,fun _ _ => rfl,fun m low high => by omega⟩
  | rounds+1, j, w, all => by
    have layout := shape.layout inside
    have object := shape.object base (show j < room i by omega)
    have ends := object_end shape.high (show j < room i by omega)
    have bounds := room_bounds shape.low shape.high
    have isObj : add64 base (j * 2^i % 2^32) = base + j * 2^i := by
      rw [Nat.mod_eq_of_lt (show j * 2^i < 2^32 by omega),add64_of_lt (by omega)]
    have small : chainHead base i j < 256^8 := by
      cases j with
      | zero => simp [chainHead]
      | succ j =>
        have before := object_end shape.high (show j < room i by omega)
        rw [chainHead_succ]
        omega
    obtain ⟨w',run,cache,within,gets,early,late⟩ :=
      linkObjects_spec shape inside rounds (j+1) (w.setLink (base + j * 2^i) (chainHead base i j)) (by omega)
    have linkAt : ∀ m < room i, (w.setLink (base + j * 2^i) (chainHead base i j)).link (base + m * 2^i) =
        if m = j then chainHead base i j else w.link (base + m * 2^i) := by
      intro m less
      rw [link_setLink layout alone alone object (shape.object base less),Nat.mod_eq_of_lt small]
      simp
    refine ⟨w',?_,cache,?_,fun g => ?_,fun m less => ?_,fun m low high => ?_⟩
    · rw [linkObjects]
      simp only [isObj]
      exact run
    · exact (within_setLink (by omega) (by omega)).trans within
    · rw [gets g]
      exact get_setLink layout alone alone object
    · rw [early m (by omega),linkAt m (by omega),if_neg (by omega)]
    · by_cases first : m = j
      · subst first
        rw [early m (by omega),linkAt m high,if_pos rfl]
      · exact late m (by omega) high

theorem slabCreate_spec (shape : Shape w.cache i) (inside : 0 < base ∧ base + 8192 < 2^64) :
    ∃ w', slabCreate base w = (header base,w') ∧ w'.cache = w.cache ∧ Within base w w' ∧
      w'.get .objCount (header base) = room i ∧ w'.get .freeCount (header base) = room i ∧
      w'.get .freeList (header base) = chainHead base i (room i) ∧ w'.get .state (header base) = Kind.empty.code ∧
      ∀ m < room i, w'.link (base + m * 2^i) = chainHead base i m := by
  obtain ⟨many,bounded,large,small⟩ := room_bounds shape.low shape.high
  have layout := shape.layout inside
  have where' : add64 base (w.cache.slabSize - sizeofSlab) = header base := by
    rw [shape.slabSize,add64_of_lt (by omega)]
    rfl
  have someBase : base ≠ 0 := by omega
  obtain ⟨v,cleared⟩ : ∃ v : World, v = { w with mem := store w.mem (header base) 0 sizeofSlab } := ⟨_,rfl⟩
  have wiped : Within base w v := by
    intro a outside
    rw [cleared]
    exact store_of_apart (by simp only [header,sizeofSlab]; omega)
  obtain ⟨x,named⟩ : ∃ x, x = ((((v.set .mem (header base) base).set .objSize (header base) (2^i)).set .objCount (header base)
    (room i)).set .freeCount (header base) (room i)).set .state (header base) Kind.empty.code := ⟨_,rfl⟩
  have fits : room i < 256^4 := by omega
  have cacheX : x.cache = w.cache := by rw [named,cleared]; rfl
  have wrote : Within base w x := by
    rw [named]
    exact ((((wiped.trans within_set).trans within_set).trans within_set).trans within_set).trans within_set
  have state : x.get .state (header base) = Kind.empty.code := by
    rw [named,get_set_alone layout (code_lt .empty),if_pos rfl]
  have freeCount : x.get .freeCount (header base) = room i := by
    rw [named,get_set_alone layout (code_lt .empty),get_set_alone layout fits]
    simp
  have objCount : x.get .objCount (header base) = room i := by
    rw [named,get_set_alone layout (code_lt .empty),get_set_alone layout fits,get_set_alone layout fits]
    simp
  obtain ⟨y,run,cacheY,within,gets,-,links⟩ := linkObjects_spec shape inside (room i) 0 x (by omega)
  have head : chainHead base i (room i) < 256^8 := by
    rw [show room i = (room i - 1) + 1 by omega,chainHead_succ]
    have ends := object_end shape.high (show room i - 1 < room i by omega)
    omega
  have kept : ∀ g, (y.set .freeList (header base) (chainHead base i (room i))).get g (header base) =
      if g = .freeList then chainHead base i (room i) else x.get g (header base) := by
    intro g
    rw [get_set_alone layout head,gets g]
  refine ⟨y.set .freeList (header base) (chainHead base i (room i)),?_,?_,?_,?_,?_,?_,?_,?_⟩
  · have first : chainHead base i 0 = 0 := rfl
    rw [first] at run
    have cacheV : v.cache = w.cache := by rw [cleared]
    simp only [slabCreate,someBase,if_false,where',set_cache,← cleared]
    rw [cacheV,shape.objSize,shape.objsPerSlab,← named,run]
  · rw [set_cache,cacheY,cacheX]
  · exact (wrote.trans within).trans within_set
  · simp [kept,objCount]
  · simp [kept,freeCount]
  · rw [kept,if_pos rfl]
  · simp [kept,state]
  · intro m less
    rw [link_set layout alone alone (shape.object base less),links m (Nat.zero_le m) less]

theorem opened_create (shape : Shape w.cache i) (heads : ∀ k, w.cache.heads k = 0)
    (inside : 0 < base ∧ base + 8192 < 2^64) :
    ∃ w', kmemCacheAlloc base w = (base + (room i - 1) * 2^i,w') ∧ Opened w' i base 1 ∧ Within base w w' := by
  obtain ⟨many,bounded,large,small⟩ := room_bounds shape.low shape.high
  have layout := shape.layout inside
  have someS := layout.slab_ne_zero alone
  obtain ⟨v,run,cacheV,wrote,objCount,freeCount,freeList,state,links⟩ := slabCreate_spec shape inside
  have headsV : ∀ k, v.cache.heads k = 0 := by rw [cacheV]; exact heads
  obtain ⟨x,added⟩ : ∃ x, x = slabAdd .part (header base) v := ⟨_,rfl⟩
  have atX : ∀ g, x.get g (header base) = if g = .prev then 0 else if g = .next then 0 else v.get g (header base) := by
    intro g
    rw [added,slabAdd_get layout alone alone (fun present => absurd (headsV .part) present),headsV]
    simp
  have found : slabForAlloc base w = (header base,x) := by
    simp [slabForAlloc,heads,run,someS,added]
  have cacheX : x.cache = { w.cache with heads := Function.update w.cache.heads .part (header base) } := by
    rw [added,slabAdd_cache,cacheV]
  have chained : Chained x i base ((room i - 1) + 1) := by
    rw [show room i - 1 + 1 = room i by omega]
    refine ⟨by rw [cacheX]; exact shape.heads _,inside,Nat.le_refl _,by simp [cacheX],?_,?_,?_,?_⟩
    · simp [atX,objCount]
    · simp [atX,freeCount]
    · simp [atX,freeList]
    · intro j less
      rw [added,slabAdd_link layout alone alone (fun present => absurd (headsV .part) present) (shape.object base less),
        links j less]
  obtain ⟨y,allocated,popped',wroteY,sameHeads,kept⟩ := chained.serve found
  have wroteX : Within base w x := by
    rw [added]
    exact wrote.trans (within_slabAdd (.inl (headsV .part)))
  have headsY : y.cache.heads = Function.update w.cache.heads .part (header base) := by rw [sameHeads,cacheX]
  have stateY : y.get .state (header base) = Kind.empty.code := by
    rw [kept .state (by decide) (by decide),atX]
    simp [state]
  have nextY : y.get .next (header base) = 0 := by
    rw [kept .next (by decide) (by decide),atX]
    simp
  have prevY : y.get .prev (header base) = 0 := by
    rw [kept .prev (by decide) (by decide),atX]
    simp
  have count : Kind.ofCount (y.get .freeCount (header base)) (y.get .objCount (header base)) = .part := by
    rw [popped'.freeCount,popped'.objCount,Kind.ofCount,if_neg (by omega),if_neg (by omega)]
  have partY : y.cache.heads .part = header base := popped'.part
  obtain ⟨chained',within,state',next',prev',full'⟩ := popped'.move .empty .part (.inl prevY)
    (nextY.trans prevY.symm) (by decide) stateY count (.inl (by decide)) (.inr partY)
  refine ⟨_,allocated,⟨by omega,by omega,chained',fun _ => ⟨?_,state',next'.trans partY,prev'.trans partY⟩⟩,(wroteX.trans wroteY).trans within⟩
  rw [full',headsY]
  exact heads .full

theorem Opened.frame (opened : Opened w i base popped) (cache : w'.cache = w.cache)
    (same : ∀ a, base ≤ a → a < base + 8192 → w'.mem a = w.mem a) : Opened w' i base popped := by
  have gets : ∀ g, w'.get g (header base) = w.get g (header base) := by
    intro g
    have inside := slot_inside g
    exact load_congr (fun a low high => same a (by simp only [header] at low; omega) (by simp only [header] at high; omega))
  have links : ∀ j < room i, w'.link (base + j * 2^i) = w.link (base + j * 2^i) := by
    intro j less
    have ends := object_end opened.chained.shape.high less
    have large := room_bounds opened.chained.shape.low opened.chained.shape.high
    exact load_congr (fun a low high => same a (by omega) (by omega))
  refine ⟨opened.started,opened.few,?_,?_⟩
  · exact opened.chained.congr (by rw [cache]; exact opened.chained.shape) (by rw [cache]; exact opened.chained.part)
      (fun g _ _ _ => gets g) links
  · rw [gets,gets,gets,cache]
    exact opened.cycle

end
end
end Kenux.KmallocCache
