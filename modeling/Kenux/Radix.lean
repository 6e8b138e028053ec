import Mathlib.Data.List.Induction
import Mathlib.Tactic.Common

/-!
Trees of tables in a memory of words. A format says what table an entry links
to and where the entries of a table are; `descend` follows a path of indices
from the root. In a tree (`Tree`) no table is reached by two paths. Writing an
entry of a lowest table changes that entry alone (`Tree.write`), and linking a
table of zero words into the tree changes no entry of a lowest table
(`Tree.grow`). Where several roots share a memory, each table can be labelled with
its owner and its level (`Owned`): what an owner's tables lead to is the owner's.
-/
namespace Kenux.Radix
open Function (update update_of_ne)

/-- What a table looks like in memory. `proper` is what a link must look like besides. -/
structure Format (Word Addr ι : Type*) where
  zero : Word
  next : Word → Option Addr
  proper : Word → Prop
  slot : Addr → ι → Addr
  IsTable : Addr → Prop
  next_zero : next zero = none
  isTable_of_next : ∀ {w t}, next w = some t → IsTable t
  slot_inj : ∀ {t u i j}, IsTable t → IsTable u → slot t i = slot u j → t = u ∧ i = j

section
variable {Word Addr ι : Type*} (f : Format Word Addr ι) {words words' : Addr → Word} {root t : Addr} {depth : Nat}

/-- The table at the end of a path. -/
def descend (words : Addr → Word) : Addr → List ι → Option Addr
  | t, [] => some t
  | t, i :: rest => (f.next (words (f.slot t i))).bind (fun u => descend words u rest)

theorem descend_append (words : Addr → Word) (t : Addr) (p q : List ι) :
    descend f words t (p ++ q) = (descend f words t p).bind (fun u => descend f words u q) := by
  induction p generalizing t with
  | nil => rfl
  | cons i rest ih =>
    simp only [List.cons_append,descend,Option.bind_assoc]
    congr 1
    funext u
    exact ih u

variable {p q : List ι} {u : Addr} {i : ι} {w : Word}

theorem descend_snoc (reached : descend f words root p = some t) (i : ι) :
    descend f words root (p ++ [i]) = f.next (words (f.slot t i)) := by
  rw [descend_append,reached]
  simp [descend]

/-- The word that a lowest table has for a path and an index; zero when there is no such table. -/
def entry (words : Addr → Word) (root : Addr) (p : List ι) (i : ι) : Word :=
  ((descend f words root p).map (fun t => words (f.slot t i))).getD f.zero

theorem entry_of_descend (reached : descend f words root p = some t) (i : ι) :
    entry f words root p i = words (f.slot t i) := by
  rw [entry,reached]
  rfl

theorem entry_of_none (missing : descend f words root p = none) (i : ι) : entry f words root p i = f.zero := by
  rw [entry,missing]
  rfl

/-- The tables down to a depth are reached by one path each, and their links are proper. -/
structure Tree (words : Addr → Word) (root : Addr) (depth : Nat) : Prop where
  isTable : f.IsTable root
  distinct : ∀ {p q t}, p.length ≤ depth → q.length ≤ depth →
    descend f words root p = some t → descend f words root q = some t → p = q
  proper : ∀ {p t i u}, p.length < depth → descend f words root p = some t →
    f.next (words (f.slot t i)) = some u → f.proper (words (f.slot t i))

variable {f}

theorem Tree.isTable_of_descend (tree : Tree f words root depth)
    (reached : descend f words root p = some t) : f.IsTable t := by
  rcases List.eq_nil_or_concat p with rfl | ⟨front,i,rfl⟩
  · cases reached
    exact tree.isTable
  · rw [List.concat_eq_append,descend_append] at reached
    obtain ⟨u,_,last⟩ := Option.bind_eq_some_iff.mp reached
    simp only [descend,Option.bind_fun_some] at last
    exact f.isTable_of_next last

/-- Paths are followed by entries of the tables above their ends. -/
theorem descend_congr (same : ∀ p t i, p.length < depth → descend f words root p = some t →
    words' (f.slot t i) = words (f.slot t i)) (q : List ι) (short : q.length ≤ depth) :
    descend f words' root q = descend f words root q := by
  induction q using List.reverseRecOn with
  | nil => rfl
  | append_singleton front i ih =>
    rw [List.length_append,List.length_singleton] at short
    rw [descend_append,descend_append,ih (by omega)]
    cases reached : descend f words root front with
    | none => rfl
    | some t => simp [descend,same front t i (by omega) reached]

theorem Tree.slot_ne (tree : Tree f words root depth) {j : ι} (low : p.length ≤ depth)
    (low' : q.length ≤ depth) (reached : descend f words root p = some t) (reached' : descend f words root q = some u)
    (different : ¬ (q = p ∧ j = i)) : f.slot u j ≠ f.slot t i := by
  intro same
  obtain ⟨rfl,rfl⟩ := f.slot_inj (tree.isTable_of_descend reached') (tree.isTable_of_descend reached) same
  exact different ⟨tree.distinct low' low reached' reached,rfl⟩

section
variable [DecidableEq Addr] (tree : Tree f words root depth) (lowest : p.length = depth) (reached : descend f words root p = some t)
include tree lowest reached

/-- The tables above the lowest do not see that an entry of a lowest table is written. -/
theorem Tree.write_above (j : ι) (short : q.length < depth)
    (there : descend f words root q = some u) : update words (f.slot t i) w (f.slot u j) = words (f.slot u j) := by
  apply update_of_ne
  apply tree.slot_ne (Nat.le_of_eq lowest) (Nat.le_of_lt short) reached there
  rintro ⟨rfl,_⟩
  omega

theorem Tree.write_descend (q : List ι) (low : q.length ≤ depth) :
    descend f (update words (f.slot t i) w) root q = descend f words root q :=
  descend_congr (fun _ _ j short there => tree.write_above lowest reached j short there) q low

theorem Tree.write [DecidableEq ι] :
    Tree f (update words (f.slot t i) w) root depth ∧ ∀ q j, q.length = depth →
      entry f (update words (f.slot t i) w) root q j = if q = p ∧ j = i then w else entry f words root q j := by
  have paths := tree.write_descend (i := i) (w := w) lowest reached
  constructor
  · constructor
    · exact tree.isTable
    · intro q r u shortQ shortR reachedQ reachedR
      rw [paths q shortQ] at reachedQ
      rw [paths r shortR] at reachedR
      exact tree.distinct shortQ shortR reachedQ reachedR
    · intro q u j v short there link
      rw [paths q (Nat.le_of_lt short)] at there
      rw [tree.write_above lowest reached j short there] at link ⊢
      exact tree.proper short there link
  · intro q j full
    rw [entry,entry,paths q (Nat.le_of_eq full)]
    cases there : descend f words root q with
    | none =>
      rw [if_neg]
      · rfl
      · rintro ⟨rfl,_⟩
        cases reached.symm.trans there
    | some u =>
      by_cases here : q = p ∧ j = i
      · obtain ⟨rfl,rfl⟩ := here
        cases reached.symm.trans there
        simp
      · have away := tree.slot_ne (Nat.le_of_eq lowest) (Nat.le_of_eq full) reached there here
        simp [here,update_of_ne away]

end

section
variable [DecidableEq ι]

/-- A table of zero words, linked into the entry at a path that ended there. -/
structure Grown (f : Format Word Addr ι) (words words' : Addr → Word) (t : Addr) (i : ι) (new : Addr) : Prop where
  absent : f.next (words (f.slot t i)) = none
  isTable : f.IsTable new
  link : f.next (words' (f.slot t i)) = some new
  proper : f.proper (words' (f.slot t i))
  blank : ∀ j, words' (f.slot new j) = f.zero
  same : ∀ {u j}, f.IsTable u → u ≠ new → ¬ (u = t ∧ j = i) → words' (f.slot u j) = words (f.slot u j)

variable {p : List ι} {i : ι} {new : Addr}

section
variable (grown : Grown f words words' t i new) (tree : Tree f words root depth) (short : p.length < depth)
  (reached : descend f words root p = some t) (fresh : ∀ q, q.length ≤ depth → descend f words root q ≠ some new)
include grown tree short reached fresh

theorem Grown.descend (q : List ι) (low : q.length ≤ depth) :
    descend f words' root q = if q = p ++ [i] then some new else descend f words root q := by
  induction q using List.reverseRecOn with
  | nil =>
    rw [if_neg (by simp)]
    rfl
  | append_singleton front j ih =>
    rw [List.length_append] at low
    rw [descend_append,ih (by omega),descend_append f words]
    by_cases below : front = p ++ [i]
    · subst below
      rw [if_pos rfl,descend_snoc f reached,grown.absent]
      simp [Radix.descend,grown.blank,f.next_zero]
    · rw [if_neg below]
      cases there : Radix.descend f words root front with
      | none =>
        rw [if_neg]
        · rfl
        · intro here
          obtain ⟨rfl,_⟩ := List.append_inj' here rfl
          cases reached.symm.trans there
      | some u =>
        have other : u ≠ new := fun same => fresh front (by omega) (same ▸ there)
        by_cases here : u = t ∧ j = i
        · obtain ⟨rfl,rfl⟩ := here
          rw [if_pos (by rw [tree.distinct (by omega) (Nat.le_of_lt short) there reached])]
          simp [Radix.descend,grown.link]
        · rw [if_neg]
          · simp [Radix.descend,grown.same (tree.isTable_of_descend there) other here]
          · intro path
            obtain ⟨rfl,last⟩ := List.append_inj' path rfl
            cases reached.symm.trans there
            exact here ⟨rfl,List.singleton_inj.mp last⟩

/-- Linking a table of zero words keeps the tree, and every entry of a lowest table. -/
theorem Tree.grow :
    Tree f words' root depth ∧ ∀ q j, q.length = depth → entry f words' root q j = entry f words root q j := by
  have paths := grown.descend tree short reached fresh
  constructor
  · constructor
    · exact tree.isTable
    · intro q r u lowQ lowR reachedQ reachedR
      rw [paths q lowQ] at reachedQ
      rw [paths r lowR] at reachedR
      split_ifs at reachedQ reachedR with first second second
      · rw [first,second]
      · exact absurd (reachedR.trans reachedQ.symm) (fresh r lowR)
      · exact absurd (reachedQ.trans reachedR.symm) (fresh q lowQ)
      · exact tree.distinct lowQ lowR reachedQ reachedR
    · intro q u j v shortQ reachedQ link
      rw [paths q (Nat.le_of_lt shortQ)] at reachedQ
      split at reachedQ
      · cases reachedQ
        rw [grown.blank,f.next_zero] at link
        cases link
      · by_cases here : u = t ∧ j = i
        · obtain ⟨rfl,rfl⟩ := here
          exact grown.proper
        · have other : u ≠ new := fun same => fresh q (Nat.le_of_lt shortQ) (same ▸ reachedQ)
          rw [grown.same (tree.isTable_of_descend reachedQ) other here] at link ⊢
          exact tree.proper shortQ reachedQ link
  · intro q j full
    rw [entry,paths q (Nat.le_of_eq full)]
    by_cases here : q = p ++ [i]
    · subst here
      have missing : Radix.descend f words root (p ++ [i]) = none := by rw [descend_snoc f reached,grown.absent]
      rw [if_pos rfl,entry_of_none f missing]
      exact grown.blank j
    · rw [if_neg here,entry]
      cases there : Radix.descend f words root q with
      | none => rfl
      | some u =>
        have other : u ≠ new := fun same => fresh q (Nat.le_of_eq full) (same ▸ there)
        have away : ¬ (u = t ∧ j = i) := by
          rintro ⟨rfl,_⟩
          have path := tree.distinct (Nat.le_of_eq full) (Nat.le_of_lt short) there reached
          rw [path] at full
          omega
        simp [grown.same (tree.isTable_of_descend there) other away]

end

end

/-- Tables with an owner and a level: a link leads to a table of the same owner, one level down. -/
structure Owned {κ : Type*} (f : Format Word Addr ι) (words : Addr → Word) (own : Addr → Option (κ × Nat)) (depth : Nat) : Prop where
  isTable : ∀ {t label}, own t = some label → f.IsTable t
  down : ∀ {t owner k i u}, own t = some (owner,k) → k < depth → f.next (words (f.slot t i)) = some u → own u = some (owner,k + 1)

variable {κ : Type*} {own : Addr → Option (κ × Nat)} {owner : κ} {k : Nat}

theorem Owned.congr (owned : Owned f words own depth)
    (same : ∀ {t label}, own t = some label → ∀ i, words' (f.slot t i) = words (f.slot t i)) : Owned f words' own depth := by
  refine ⟨owned.isTable,?_⟩
  intro t owner k i u label low link
  rw [same label] at link
  exact owned.down label low link

theorem Owned.descend (owned : Owned f words own depth) {path : List ι} (label : own t = some (owner,k))
    (low : k + path.length ≤ depth) (reached : descend f words t path = some u) : own u = some (owner,k + path.length) := by
  induction path generalizing t k with
  | nil =>
    cases reached
    exact label
  | cons i rest ih =>
    rw [List.length_cons] at low ⊢
    obtain ⟨v,link,reached⟩ := Option.bind_eq_some_iff.mp reached
    rw [ih (owned.down label (by omega) link) (by omega) reached]
    congr 2
    omega

variable [DecidableEq Addr] {i : ι} {new : Addr}

/-- An entry of a lowest table is no link. -/
theorem Owned.write (owned : Owned f words own depth) (lowest : own t = some (owner,depth)) (i : ι) (w : Word) :
    Owned f (update words (f.slot t i) w) own depth := by
  refine ⟨owned.isTable,?_⟩
  intro u other k j v label low link
  rw [update_of_ne] at link
  · exact owned.down label low link
  · intro same
    obtain ⟨rfl,_⟩ := f.slot_inj (owned.isTable label) (owned.isTable lowest) same
    rw [label] at lowest
    cases lowest
    exact Nat.lt_irrefl _ low

/-- A new table gets the owner of the table it is linked into, or any owner if that has none. -/
theorem Owned.grow (owned : Owned f words own depth) (grown : Grown f words words' t i new) (free : own new = none)
    (under : ∀ other j, own t = some (other,j) → (other,j + 1) = (owner,k)) :
    Owned f words' (update own new (some (owner,k))) depth := by
  constructor
  · intro u label is
    by_cases here : u = new
    · exact here ▸ grown.isTable
    · rw [update_of_ne here] at is
      exact owned.isTable is
  · intro u other j l v label low link
    by_cases here : u = new
    · subst here
      rw [grown.blank,f.next_zero] at link
      cases link
    · rw [update_of_ne here] at label
      by_cases linked : u = t ∧ l = i
      · obtain ⟨rfl,rfl⟩ := linked
        rw [grown.link] at link
        cases link
        rw [Function.update_self,under other j label]
      · rw [grown.same (owned.isTable label) here linked] at link
        have below := owned.down label low link
        rw [update_of_ne (ne_of_apply_ne own (by simp [free,below]))]
        exact below

end
end Kenux.Radix
