import Mobfs.Lib.Recency
import Mobfs.Vfs.BlockCache
/-!
# The books of the block store

The store keeps its blocks by key with the tick of their last use, the keys by that
tick, and the sum of the lengths. `Books st l`: all three say what the list `l` says,
the blocks with their ticks in the order of the ticks. Each operation does to that list
what it does to a cache that drops the least recently used first (`Lru`).
-/

namespace Mobfs

open Lib Std

/-- The operations of the store. -/
inductive StoreOp where
  | insert (key : BlockKey) (b : Block) (generation : Nat)
  | get (key : BlockKey)
  | invalidateRange (path : String) (offset len : Nat)
  | invalidatePath (path : String)
  | invalidateTree (path : String)
  | clear

def Block.size (b : Block) : Nat := b.data.length

namespace BlockStore

def apply (st : BlockStore) : StoreOp → BlockStore
  | .insert key b generation => st.insert key b generation
  | .get key => (st.get key).1
  | .invalidateRange path offset len => st.invalidateRange path offset len
  | .invalidatePath path => st.invalidatePath path
  | .invalidateTree path => st.invalidateWhere (st.treePaths path) fun _ => false
  | .clear => st.clear

/-- The blocks in the order of the ticks. -/
def recency (st : BlockStore) : List (BlockKey × Block) :=
  st.lru.toList.filterMap fun x => (st.block x.2).map fun b => (x.2, b)

/-! ## Subtractions -/

/-- To subtract the length of the block at the key leaves a number. -/
def Counted (st : BlockStore) (key : BlockKey) : Prop := ∀ x, st.blocks[key]? = some x → x.1.size ≤ st.bytes

/-- The same for all subtractions of a loop that removes the keys. -/
def RemovalsCounted (st : BlockStore) : List BlockKey → Prop
  | [] => True
  | key :: keys => st.Counted key ∧ (st.remove key).RemovalsCounted keys

/-- And of the eviction loop. -/
def EvictionCounted (st : BlockStore) : List (Nat × BlockKey) → Prop
  | [] => True
  | (tick, oldest) :: order =>
    st.bytes > st.capacity → st.Counted oldest ∧ (st.popFirst tick oldest).EvictionCounted order

def InvalidationCounted (st : BlockStore) (paths : List String) (keep : BlockKey → Bool) : Prop :=
  (st.bump paths).RemovalsCounted (st.blocks.keys.filter fun key => key.1 ∈ paths && !keep key)

/-- No `saturating_sub` of the operation saturates. -/
def OpCounted (st : BlockStore) : StoreOp → Prop
  | .insert key b generation =>
    st.generations key.1 = generation → st.Counted key ∧ (st.place key b).EvictionCounted (st.place key b).lru.toList
  | .get _ => True
  | .invalidateRange path offset len => st.InvalidationCounted [path] fun key => !inRange offset len key.2
  | .invalidatePath path => st.InvalidationCounted [path] fun _ => false
  | .invalidateTree path => st.InvalidationCounted (st.treePaths path) fun _ => false
  | .clear => True

end BlockStore

/-! ## Least recently used first -/

/-- The store as the list of its blocks in the order of their last use. -/
structure Lru where
  recency : List (BlockKey × Block)
  generations : String → Nat

namespace Lru

def empty : Lru := ⟨[], fun _ => 0⟩

def paths (s : Lru) : List String := s.recency.map (·.1.1)

def invalidateWhere (s : Lru) (paths : List String) (keep : BlockKey → Bool) : Lru where
  recency := s.recency.filter fun x => !(x.1.1 ∈ paths && !keep x.1)
  generations := fun p => if p ∈ paths then s.generations p + 1 else s.generations p

def apply (capacity : Nat) (s : Lru) : StoreOp → Lru
  | .insert key b generation =>
    if s.generations key.1 ≠ generation then s else { s with recency := enter Block.size capacity key b s.recency }
  | .get key => { s with recency := touch key s.recency }
  | .invalidateRange path offset len => s.invalidateWhere [path] fun key => !BlockStore.inRange offset len key.2
  | .invalidatePath path => s.invalidateWhere [path] fun _ => false
  | .invalidateTree path => s.invalidateWhere (s.paths.filter (BlockStore.under path) ++ [path]) fun _ => false
  | .clear => s.invalidateWhere s.paths fun _ => false

end Lru

namespace BlockStore

/-- A block with its key and the tick of its last use. -/
abbrev Use := Nat × BlockKey × Block

def useSize (u : BlockKey × Block) : Nat := u.2.size

/-- All that the store keeps about its blocks is what the list says. -/
structure Books (st : BlockStore) (l : List Use) : Prop where
  ticks : l.Pairwise fun x y => x.1 < y.1
  lru : ∀ (t : Nat) (k : BlockKey), st.lru[t]? = some k ↔ ∃ b, (t, k, b) ∈ l
  blocks : ∀ (k : BlockKey) (b : Block) (t : Nat), st.blocks[k]? = some (b, t) ↔ (t, k, b) ∈ l
  bytes : st.bytes = total useSize l
  tick : ∀ x ∈ l, x.1 ≤ st.tick

variable {st : BlockStore} {l : List Use} {key : BlockKey}

theorem books_new (capacity : Nat) : (new capacity).Books [] :=
  ⟨.nil, by simp [new], by simp [new], rfl, by simp⟩

theorem Books.key_eq (h : st.Books l) {x y : Use} (hx : x ∈ l) (hy : y ∈ l) (hk : x.2.1 = y.2.1) : x = y := by
  obtain ⟨t, k, b⟩ := x
  obtain ⟨t', k', b'⟩ := y
  obtain rfl : k = k' := hk
  have hxy := ((h.blocks k b t).2 hx).symm.trans ((h.blocks k b' t').2 hy)
  cases hxy
  rfl

theorem Books.absent (h : st.Books l) : st.blocks[key]? = none ↔ ∀ x ∈ l, x.2.1 ≠ key := by
  constructor
  · rintro hnone ⟨t, k, b⟩ hx rfl
    rw [(h.blocks k b t).2 hx] at hnone
    cases hnone
  · intro hall
    by_contra hne
    obtain ⟨⟨b, t⟩, hb⟩ := Option.ne_none_iff_exists'.1 hne
    exact hall _ ((h.blocks key b t).1 hb) rfl

theorem Books.counted (h : st.Books l) (key : BlockKey) : st.Counted key := by
  rintro ⟨b, t⟩ hx
  rw [h.bytes]
  exact size_le_total useSize ((h.blocks key b t).1 hx)

theorem Books.lru_toList (h : st.Books l) : st.lru.toList = l.map fun x => (x.1, x.2.1) := by
  refine toList_eq_of_lt (List.pairwise_map.2 h.ticks) fun t k => ?_
  rw [h.lru, List.mem_map]
  constructor
  · rintro ⟨b, hb⟩
    exact ⟨_, hb, rfl⟩
  · rintro ⟨⟨t', k', b⟩, hb, he⟩
    cases he
    exact ⟨b, hb⟩

theorem Books.recency_eq (h : st.Books l) : st.recency = l.map (·.2) := by
  rw [recency, h.lru_toList, List.filterMap_map]
  refine List.filterMap_eq_map_iff_forall_eq_some.2 ?_
  rintro ⟨t, k, b⟩ hx
  simp [block, (h.blocks k b t).2 hx]

/-! ## Removing a block -/

/-- The list without the block of a key; there is one at most. -/
theorem Books.dropped (h : st.Books l) {b : Block} {t : Nat} (hb : (t, key, b) ∈ l) :
    total useSize l = b.size + total useSize (l.filter fun x => x.2.1 ≠ key) := by
  have hperm : l.Perm ((t, key, b) :: l.filter fun x => x.2.1 ≠ key) := by
    have hnodup : l.Nodup := h.ticks.imp fun hlt he => Nat.ne_of_lt hlt (congrArg Prod.fst he)
    refine (List.perm_ext_iff_of_nodup hnodup (List.nodup_cons.2 ⟨by simp, hnodup.filter _⟩)).2 fun x => ?_
    rw [List.mem_cons, List.mem_filter, decide_eq_true_eq]
    constructor
    · intro hx
      by_cases hk : x.2.1 = key
      · exact .inl (h.key_eq hx hb hk)
      · exact .inr ⟨hx, hk⟩
    · rintro (rfl | ⟨hx, -⟩)
      · exact hb
      · exact hx
  rw [total_perm useSize hperm, total_cons]
  rfl

theorem Books.remove (h : st.Books l) (key : BlockKey) : (st.remove key).Books (l.filter fun x => x.2.1 ≠ key) := by
  unfold BlockStore.remove
  split
  · rename_i hnone
    rw [List.filter_eq_self.2 fun x hx => by simpa using h.absent.1 hnone x hx]
    exact h
  · rename_i b t hb
    have hmem := (h.blocks key b t).1 hb
    refine ⟨h.ticks.filter _, fun t' k => ?_, fun k b' t' => ?_, ?_, fun x hx => h.tick x (List.mem_filter.1 hx).1⟩
    · rw [get?_erase]
      simp only [List.mem_filter, decide_eq_true_eq]
      split
      · rename_i ht
        subst ht
        -- The tick is that of the block removed.
        refine ⟨fun hk => (by cases hk), ?_⟩
        rintro ⟨b', hb', hk⟩
        have := ((h.lru t' k).2 ⟨b', hb'⟩).symm.trans ((h.lru t' key).2 ⟨b, hmem⟩)
        exact absurd (Option.some.inj this) hk
      · rename_i ht
        rw [h.lru]
        refine ⟨fun ⟨b', hb'⟩ => ⟨b', hb', ?_⟩, fun ⟨b', hb', _⟩ => ⟨b', hb'⟩⟩
        rintro rfl
        exact ht (congrArg Prod.fst (h.key_eq hb' hmem rfl))
    · rw [get?_erase]
      simp only [List.mem_filter, decide_eq_true_eq]
      split
      · rename_i hk
        simp [hk]
      · rename_i hk
        rw [h.blocks]
        simp [hk]
    · show st.bytes - b.data.length = _
      rw [h.bytes, h.dropped hmem, Block.size, Nat.add_sub_cancel_left]

/-- A block that has the next tick. -/
theorem Books.append (h : st.Books l) (hkey : st.blocks[key]? = none) (b : Block) :
    ({ st with
        tick := st.tick + 1
        bytes := st.bytes + b.data.length
        lru := st.lru.insert (st.tick + 1) key
        blocks := st.blocks.insert key (b, st.tick + 1) } : BlockStore).Books (l ++ [(st.tick + 1, key, b)]) := by
  have hlt : ∀ x ∈ l, x.1 < st.tick + 1 := fun x hx => Nat.lt_succ_of_le (h.tick x hx)
  have hother := h.absent.1 hkey
  refine ⟨?_, fun t k => ?_, fun k b' t => ?_, ?_, ?_⟩
  · refine List.pairwise_append.2 ⟨h.ticks, List.pairwise_singleton _ _, fun x hx y hy => ?_⟩
    rw [List.mem_singleton.1 hy]
    exact hlt x hx
  · simp only [get?_insert, List.mem_append, List.mem_singleton, Prod.mk.injEq]
    split
    · rename_i ht
      constructor
      · intro hk
        exact ⟨b, .inr ⟨ht, (Option.some.inj hk).symm, rfl⟩⟩
      · rintro ⟨b', hb' | ⟨-, rfl, -⟩⟩
        · exact absurd (hlt _ hb') (by simp [ht])
        · rfl
    · rename_i ht
      rw [h.lru]
      simp [ht]
  · simp only [get?_insert, List.mem_append, List.mem_singleton, Prod.mk.injEq]
    split
    · rename_i hk
      constructor
      · intro he
        cases he
        exact .inr ⟨rfl, hk, rfl⟩
      · rintro (hb' | ⟨rfl, -, rfl⟩)
        · exact absurd hk (hother _ hb')
        · rfl
    · rename_i hk
      rw [h.blocks]
      simp [hk]
  · simp only [total_append, total_cons, total_nil, h.bytes]
    rfl
  · intro x hx
    rcases List.mem_append.1 hx with hx | hx
    · exact Nat.le_of_lt (hlt x hx)
    · rw [List.mem_singleton.1 hx]

/-! ## The operations -/

theorem remove_absent (h : st.Books l) (key : BlockKey) : (st.remove key).blocks[key]? = none := by
  rw [(h.remove key).absent]
  intro x hx
  simpa using (List.mem_filter.1 hx).2

@[simp] theorem tick_remove (key : BlockKey) : (st.remove key).tick = st.tick := by
  unfold remove
  split <;> rfl

@[simp] theorem capacity_remove (key : BlockKey) : (st.remove key).capacity = st.capacity := by
  unfold remove
  split <;> rfl

theorem Books.place (h : st.Books l) (key : BlockKey) (b : Block) :
    (st.place key b).Books ((l.filter fun x => x.2.1 ≠ key) ++ [((st.remove key).tick + 1, key, b)]) :=
  (h.remove key).append (remove_absent h key) b

theorem Books.get (h : st.Books l) {b : Block} {t : Nat} (hb : st.blocks[key]? = some (b, t)) :
    (st.get key).1.Books ((l.filter fun x => x.2.1 ≠ key) ++ [(st.tick + 1, key, b)]) := by
  have hplace := h.place key b
  have hmem := (h.blocks key b t).1 hb
  -- The books are those of taking the block out and in again.
  refine ⟨by simpa using hplace.ticks, fun t' k => ?_, fun k b' t' => ?_, ?_, fun x hx => ?_⟩
  · have := hplace.lru t' k
    simpa [BlockStore.get, BlockStore.place, BlockStore.remove, hb] using this
  · have := hplace.blocks k b' t'
    by_cases hk : k = key
    · simpa [BlockStore.get, BlockStore.place, BlockStore.remove, hb, get?_insert, get?_erase, hk] using this
    · simpa [BlockStore.get, BlockStore.place, BlockStore.remove, hb, get?_insert, get?_erase, hk] using this
  · simp only [BlockStore.get, hb, total_append, total_cons, total_nil, h.bytes, h.dropped hmem]
    exact Nat.add_comm _ _
  · have := hplace.tick x (by simpa using hx)
    simpa [BlockStore.get, BlockStore.place, hb] using this

theorem popFirst_eq_remove {tick : Nat} {oldest : BlockKey} (h : st.Books l) (hl : st.lru[tick]? = some oldest) :
    st.popFirst tick oldest = st.remove oldest := by
  obtain ⟨b, hb⟩ := (h.lru tick oldest).1 hl
  simp [popFirst, remove, (h.blocks oldest b tick).2 hb]

/-- The eviction loop, on all of the order of use. -/
theorem Books.evict (h : st.Books l) :
    (st.evict (l.map fun x => (x.1, x.2.1))).Books (trim useSize st.capacity l) ∧
      st.EvictionCounted (l.map fun x => (x.1, x.2.1)) := by
  induction l generalizing st with
  | nil => exact ⟨h, trivial⟩
  | cons x l ih =>
    obtain ⟨t, k, b⟩ := x
    have hpop : st.popFirst t k = st.remove k := popFirst_eq_remove h ((h.lru t k).2 ⟨b, List.mem_cons_self⟩)
    have hrest : ((t, k, b) :: l).filter (fun x => x.2.1 ≠ k) = l := by
      rw [List.filter_cons_of_neg (by simp), List.filter_eq_self]
      intro y hy
      rw [decide_eq_true_eq]
      intro hk
      have hxy := h.key_eq (List.mem_cons_of_mem _ hy) List.mem_cons_self hk
      exact absurd (List.rel_of_pairwise_cons h.ticks hy) (by simp [hxy])
    have hbooks : (st.popFirst t k).Books l := by
      rw [hpop, ← hrest]
      exact h.remove k
    have hcap : (st.popFirst t k).capacity = st.capacity := by rw [hpop, capacity_remove]
    obtain ⟨hevict, hcounted⟩ := ih hbooks
    rw [List.map_cons, BlockStore.evict, EvictionCounted, trim, ← h.bytes]
    refine ⟨?_, fun _ => ⟨h.counted k, hcounted⟩⟩
    split
    · rwa [hcap] at hevict
    · exact h

theorem Books.insert (h : st.Books l) (key : BlockKey) (b : Block) {generation : Nat}
    (hg : st.generations key.1 = generation) :
    ∃ t, (st.insert key b generation).Books
      (trim useSize st.capacity ((l.filter fun x => x.2.1 ≠ key) ++ [(t, key, b)])) ∧ st.OpCounted (.insert key b generation) := by
  have hplace := h.place key b
  have hcap : (st.place key b).capacity = st.capacity := by simp [BlockStore.place]
  obtain ⟨hevict, hcounted⟩ := hplace.evict
  refine ⟨(st.remove key).tick + 1, ?_, fun _ => ⟨h.counted key, ?_⟩⟩
  · rw [BlockStore.insert, if_neg (not_not.2 hg), hplace.lru_toList, ← hcap]
    exact hevict
  · rw [hplace.lru_toList]
    exact hcounted

theorem Books.removals (h : st.Books l) (keys : List BlockKey) :
    (keys.foldl BlockStore.remove st).Books (l.filter fun x => x.2.1 ∉ keys) ∧ st.RemovalsCounted keys := by
  induction keys generalizing st l with
  | nil => exact ⟨by simpa using h, trivial⟩
  | cons key keys ih =>
    obtain ⟨hrest, hcounted⟩ := ih (h.remove key)
    refine ⟨?_, h.counted key, hcounted⟩
    rw [List.filter_filter] at hrest
    simpa [not_or, Bool.and_comm, Bool.decide_and] using hrest

theorem Books.bump (h : st.Books l) (paths : List String) : (st.bump paths).Books l :=
  ⟨h.ticks, h.lru, h.blocks, h.bytes, h.tick⟩

theorem Books.mem_keys (h : st.Books l) {k : BlockKey} : k ∈ st.blocks.keys ↔ ∃ x ∈ l, x.2.1 = k := by
  rw [mem_keys_iff, ne_eq, block_eq_none, h.absent]
  push Not
  exact Iff.rfl

theorem Books.invalidateWhere (h : st.Books l) (paths : List String) (keep : BlockKey → Bool) :
    (st.invalidateWhere paths keep).Books (l.filter fun x => !(x.2.1.1 ∈ paths && !keep x.2.1)) ∧
      st.InvalidationCounted paths keep := by
  obtain ⟨hrest, hcounted⟩ := (h.bump paths).removals (st.blocks.keys.filter fun key => key.1 ∈ paths && !keep key)
  refine ⟨?_, hcounted⟩
  have hsame : (l.filter fun x => x.2.1 ∉ st.blocks.keys.filter fun key => key.1 ∈ paths && !keep key) =
      l.filter fun x => !(x.2.1.1 ∈ paths && !keep x.2.1) := by
    refine List.filter_congr fun x hx => ?_
    have hk : x.2.1 ∈ st.blocks.keys := h.mem_keys.2 ⟨x, hx, rfl⟩
    simp [List.mem_filter, hk]
  rw [← hsame]
  exact hrest

theorem books_clear (st : BlockStore) : st.clear.Books [] :=
  ⟨.nil, by simp [BlockStore.clear], by simp [BlockStore.clear], rfl, by simp⟩

/-! ## Simulation -/

/-- What the store holds, without its books. -/
def asLru (st : BlockStore) : Lru := ⟨st.recency, st.generations⟩

theorem map_filter_key (l : List Use) (key : BlockKey) :
    (l.filter fun x => x.2.1 ≠ key).map (·.2) = dropKey key (l.map (·.2)) := by
  rw [dropKey, List.filter_map]
  rfl

theorem map_trim (bound : Nat) (l : List Use) :
    (trim useSize bound l).map (·.2) = trim Block.size bound (l.map (·.2)) :=
  (trim_map useSize Block.size (f := fun x : Use => x.2) (fun _ => rfl) bound l).symm

theorem Books.mem_paths (h : st.Books l) {p : String} : p ∈ st.blocks.keys.map (·.1) ↔ p ∈ st.asLru.paths := by
  simp only [Lru.paths, asLru, h.recency_eq, List.mem_map, h.mem_keys]
  constructor
  · rintro ⟨_, ⟨x, hx, rfl⟩, rfl⟩
    exact ⟨x.2, ⟨x, hx, rfl⟩, rfl⟩
  · rintro ⟨_, ⟨x, hx, rfl⟩, rfl⟩
    exact ⟨x.2.1, ⟨x, hx, rfl⟩, rfl⟩

theorem Books.asLru_invalidateWhere (h : st.Books l) {paths paths' : List String} (keep : BlockKey → Bool)
    (hp : ∀ p, p ∈ paths ↔ p ∈ paths') :
    (st.invalidateWhere paths keep).asLru = st.asLru.invalidateWhere paths' keep := by
  have hgen : (st.invalidateWhere paths keep).generations =
      fun p => if p ∈ paths' then st.generations p + 1 else st.generations p := by
    funext p
    rw [generations_invalidateWhere]
    simp only [hp]
  rw [asLru, hgen, (h.invalidateWhere paths keep).1.recency_eq, Lru.invalidateWhere]
  simp only [asLru, h.recency_eq, List.filter_map, hp]
  rfl

theorem Books.asLru_get (h : st.Books l) (key : BlockKey) :
    (st.get key).1.asLru = { st.asLru with recency := touch key st.recency } := by
  rw [asLru, generations_get]
  congr 1
  cases hb : st.blocks[key]? with
  | none =>
    have hnone : st.recency.find? (fun x => x.1 = key) = none := by
      rw [h.recency_eq, List.find?_map, Option.map_eq_none_iff, List.find?_eq_none]
      exact fun x hx => by simpa using h.absent.1 hb x hx
    rw [touch, hnone]
    simp [BlockStore.get, hb]
  | some y =>
    obtain ⟨b, t⟩ := y
    have hmem := (h.blocks key b t).1 hb
    have hfind : l.find? (fun x => x.2.1 = key) = some (t, key, b) := by
      obtain ⟨x, hx⟩ : ∃ x, l.find? (fun x => x.2.1 = key) = some x := by
        rw [← Option.isSome_iff_exists, List.find?_isSome]
        exact ⟨_, hmem, by simp⟩
      rw [hx, h.key_eq (List.mem_of_find?_eq_some hx) hmem (by simpa using List.find?_some hx)]
    have htouch : touch key st.recency = dropKey key (l.map (·.2)) ++ [(key, b)] := by
      rw [touch, h.recency_eq, List.find?_map]
      simp only [Function.comp_def, hfind, Option.map_some]
    rw [htouch, (h.get hb).recency_eq, List.map_append, map_filter_key]
    rfl

/-- Each operation keeps the books, and does to the blocks what it does to a cache that
drops the least recently used. -/
theorem Books.apply (h : st.Books l) (op : StoreOp) :
    (∃ l', (st.apply op).Books l') ∧ st.OpCounted op ∧ (st.apply op).capacity = st.capacity ∧
      (st.apply op).asLru = st.asLru.apply st.capacity op := by
  have hwhere : ∀ (paths : List String) (keep : BlockKey → Bool), (st.invalidateWhere paths keep).capacity = st.capacity := by
    intro paths keep
    have hfold : ∀ (keys : List BlockKey) (st : BlockStore), (keys.foldl BlockStore.remove st).capacity = st.capacity := by
      intro keys
      induction keys with
      | nil => exact fun _ => rfl
      | cons key keys ih => exact fun st => (ih _).trans (capacity_remove key)
    exact hfold _ _
  cases op with
  | insert key b generation =>
    by_cases hg : st.generations key.1 = generation
    · obtain ⟨t, hb, hcounted⟩ := h.insert key b hg
      refine ⟨⟨_, hb⟩, hcounted, ?_, ?_⟩
      · have hevict : ∀ (order : List (Nat × BlockKey)) (st : BlockStore), (st.evict order).capacity = st.capacity := by
          intro order
          induction order with
          | nil => exact fun _ => rfl
          | cons x order ih =>
            intro st
            rw [BlockStore.evict]
            split
            · rw [ih, popFirst]
              split <;> rfl
            · rfl
        simp only [BlockStore.apply, BlockStore.insert, if_neg (not_not.2 hg), hevict]
        simp [BlockStore.place]
      · have hb : (st.insert key b generation).recency = enter Block.size st.capacity key b st.recency := by
          rw [hb.recency_eq, map_trim, List.map_append, map_filter_key, ← h.recency_eq]
          rfl
        rw [asLru, BlockStore.apply, hb, generations_insert, Lru.apply]
        exact (if_neg (not_not.2 hg)).symm
    · have hsame : st.insert key b generation = st := if_pos hg
      refine ⟨⟨l, ?_⟩, fun he => absurd he hg, ?_, ?_⟩
      · rwa [BlockStore.apply, hsame]
      · rw [BlockStore.apply, hsame]
      · rw [BlockStore.apply, hsame, Lru.apply]
        exact (if_pos hg).symm
  | get key =>
    refine ⟨?_, trivial, ?_, h.asLru_get key⟩
    · cases hb : st.blocks[key]? with
      | none =>
        refine ⟨l, ?_⟩
        simpa [BlockStore.apply, BlockStore.get, hb] using h
      | some y => exact ⟨_, h.get hb⟩
    · simp only [BlockStore.apply, BlockStore.get]
      split <;> rfl
  | invalidateRange path offset len =>
    obtain ⟨hb, hcounted⟩ := h.invalidateWhere [path] fun key => !inRange offset len key.2
    exact ⟨⟨_, hb⟩, hcounted, hwhere _ _, h.asLru_invalidateWhere _ fun _ => Iff.rfl⟩
  | invalidatePath path =>
    obtain ⟨hb, hcounted⟩ := h.invalidateWhere [path] fun _ => false
    exact ⟨⟨_, hb⟩, hcounted, hwhere _ _, h.asLru_invalidateWhere _ fun _ => Iff.rfl⟩
  | invalidateTree path =>
    obtain ⟨hb, hcounted⟩ := h.invalidateWhere (st.treePaths path) fun _ => false
    refine ⟨⟨_, hb⟩, hcounted, hwhere _ _, h.asLru_invalidateWhere _ fun p => ?_⟩
    simp only [treePaths, List.mem_append, List.mem_filter, h.mem_paths]
  | clear =>
    refine ⟨⟨_, books_clear st⟩, trivial, rfl, ?_⟩
    have hrecency : st.clear.recency = [] := (books_clear st).recency_eq
    have hgen : st.clear.generations = fun p => if p ∈ st.asLru.paths then st.generations p + 1 else st.generations p := by
      funext p
      simp only [← h.mem_paths]
      rfl
    rw [BlockStore.apply, asLru, hrecency, hgen, Lru.apply, Lru.invalidateWhere]
    congr 1
    rw [eq_comm, List.filter_eq_nil_iff]
    intro x hx
    have : x.1.1 ∈ st.asLru.paths := List.mem_map.2 ⟨x, hx, rfl⟩
    simpa using this

/-! ## Every sequence of operations -/

theorem asLru_new (capacity : Nat) : (new capacity).asLru = Lru.empty := by
  rw [asLru, (books_new capacity).recency_eq]
  rfl

/-- The store after some operations. -/
def after (capacity : Nat) (ops : List StoreOp) : BlockStore := ops.foldl apply (new capacity)

theorem after_books (capacity : Nat) (ops : List StoreOp) :
    (∃ l, (after capacity ops).Books l) ∧ (after capacity ops).capacity = max capacity (blockSize * 4) ∧
      (after capacity ops).asLru = ops.foldl (Lru.apply (max capacity (blockSize * 4))) .empty := by
  suffices h : ∀ (st : BlockStore), (∃ l, st.Books l) →
      (∃ l, (ops.foldl apply st).Books l) ∧ (ops.foldl apply st).capacity = st.capacity ∧
        (ops.foldl apply st).asLru = ops.foldl (Lru.apply st.capacity) st.asLru by
    obtain ⟨hbooks, hcap, hlru⟩ := h (new capacity) ⟨[], books_new capacity⟩
    exact ⟨hbooks, hcap, by rw [after, hlru, asLru_new]; rfl⟩
  induction ops with
  | nil => exact fun st h => ⟨h, rfl, rfl⟩
  | cons op ops ih =>
    rintro st ⟨l, h⟩
    obtain ⟨hbooks, -, hcap, hlru⟩ := h.apply op
    obtain ⟨hbooks', hcap', hlru'⟩ := ih _ hbooks
    exact ⟨hbooks', hcap'.trans hcap, by rw [List.foldl_cons, List.foldl_cons, hlru', hcap, hlru]⟩

theorem total_apply_le {capacity : Nat} {s : Lru} (h : total Block.size s.recency ≤ capacity) (op : StoreOp) :
    total Block.size (s.apply capacity op).recency ≤ capacity := by
  have hwhere : ∀ paths keep, total Block.size (s.invalidateWhere paths keep).recency ≤ capacity := fun _ _ =>
    Nat.le_trans (total_filter_le _ _ _) h
  cases op with
  | insert key b generation =>
    rw [Lru.apply]
    split
    · exact h
    · exact total_trim_le _ _ _
  | get key =>
    show total Block.size (touch key s.recency) ≤ capacity
    rw [touch]
    split
    · exact h
    · rename_i x hx
      -- The block leaves its place and comes again at the end.
      obtain ⟨hk, l₁, l₂, hl, -⟩ := List.find?_eq_some_iff_append.1 hx
      have hk : x.1 = key := by simpa using hk
      have hx' : dropKey key s.recency = dropKey key l₁ ++ dropKey key l₂ := by
        rw [hl, dropKey, List.filter_append, List.filter_cons_of_neg (by simp [hk])]
        rfl
      rw [hl, total_append, total_cons] at h
      rw [hx', total_append, total_append, total_cons, total_nil]
      have h₁ : total Block.size (dropKey key l₁) ≤ total Block.size l₁ := total_filter_le _ _ _
      have h₂ : total Block.size (dropKey key l₂) ≤ total Block.size l₂ := total_filter_le _ _ _
      omega
  | invalidateRange path offset len => exact hwhere _ _
  | invalidatePath path => exact hwhere _ _
  | invalidateTree path => exact hwhere _ _
  | clear => exact hwhere _ _

theorem total_after_le (capacity : Nat) (ops : List StoreOp) :
    total Block.size (ops.foldl (Lru.apply capacity) .empty).recency ≤ capacity := by
  suffices h : ∀ s : Lru, total Block.size s.recency ≤ capacity →
      total Block.size (ops.foldl (Lru.apply capacity) s).recency ≤ capacity from h .empty (Nat.zero_le _)
  induction ops with
  | nil => exact fun s h => h
  | cons op ops ih => exact fun s h => ih _ (total_apply_le h op)

theorem Books.mem_recency (h : st.Books l) (k : BlockKey) (b : Block) : (k, b) ∈ st.recency ↔ st.block k = some b := by
  rw [h.recency_eq, List.mem_map, block, Option.map_eq_some_iff]
  constructor
  · rintro ⟨⟨t, k', b'⟩, hx, he⟩
    cases he
    exact ⟨(b, t), (h.blocks k b t).2 hx, rfl⟩
  · rintro ⟨⟨b', t⟩, hb, rfl⟩
    exact ⟨(t, k, b'), (h.blocks k b' t).1 hb, rfl⟩

theorem Books.sum_blocks (h : st.Books l) : (st.blocks.toList.map fun x => x.2.1.size).sum = total useSize l := by
  have hperm : (st.blocks.toList.map fun x => (x.2.2, x.1, x.2.1)).Perm l := by
    have hnodup : (st.blocks.toList.map fun x => (x.2.2, x.1, x.2.1)).Nodup := by
      refine List.pairwise_map.2 ((ExtTreeMap.distinct_keys_toList (t := st.blocks)).imp fun hne he => hne ?_)
      rw [show _ = _ from congrArg (fun u : Use => u.2.1) he]
      exact ReflCmp.compare_self
    refine (List.perm_ext_iff_of_nodup hnodup (h.ticks.imp fun hlt he => Nat.ne_of_lt hlt (congrArg Prod.fst he))).2 ?_
    rintro ⟨t, k, b⟩
    rw [← h.blocks, List.mem_map]
    constructor
    · rintro ⟨⟨k', b', t'⟩, hx, he⟩
      cases he
      exact ExtTreeMap.mem_toList_iff_getElem?_eq_some.1 hx
    · intro hb
      exact ⟨(k, b, t), ExtTreeMap.mem_toList_iff_getElem?_eq_some.2 hb, rfl⟩
  rw [← total_perm useSize hperm, total, List.map_map]
  rfl

/-- After any operations with blocks of any length: `lru` and `blocks` are each other's
inverse, `bytes` is the sum of the lengths and at most the capacity, and no subtraction
of a further operation saturates. The blocks in the order of their ticks are those of a
cache that has moved each block to the end at its last use, and dropped from the front.
An insertion for the present generation keeps an end of that list, as long as fits: with
the last block that has left it would not. The new block stays if it fits at all. -/
theorem store_keeps_books (capacity : Nat) (ops : List StoreOp) :
    let st := after capacity ops
    st.capacity = max capacity (blockSize * 4) ∧
    (∀ (t : Nat) (k : BlockKey), st.lru[t]? = some k ↔ ∃ b, st.blocks[k]? = some (b, t)) ∧
    st.bytes = (st.blocks.toList.map fun x => x.2.1.size).sum ∧ st.bytes ≤ st.capacity ∧
    (∀ op, st.OpCounted op) ∧
    (∀ k b, (k, b) ∈ st.recency ↔ st.block k = some b) ∧
    st.recency = (ops.foldl (Lru.apply st.capacity) .empty).recency ∧
    ∀ (key : BlockKey) (b : Block),
      let kept := st.insert key b (st.generations key.1)
      ∃ gone, dropKey key st.recency ++ [(key, b)] = gone ++ kept.recency ∧
        (∀ x, gone.getLast? = some x → st.capacity < x.2.size + total Block.size kept.recency) ∧
        (b.size ≤ st.capacity → kept.block key = some b) := by
  intro st
  obtain ⟨⟨l, h⟩, hcap, hlru⟩ := after_books capacity ops
  change st.Books l at h
  change st.capacity = _ at hcap
  have hrecency : st.recency = (ops.foldl (Lru.apply st.capacity) .empty).recency := by
    rw [hcap, ← hlru]
    rfl
  have hbytes : st.bytes = total Block.size st.recency := by
    rw [h.bytes, h.recency_eq, total, total, List.map_map]
    rfl
  refine ⟨hcap, fun t k => ?_, ?_, ?_, fun op => (h.apply op).2.1, h.mem_recency, hrecency, fun key b => ?_⟩
  · rw [h.lru]
    simp only [h.blocks]
  · rw [h.sum_blocks, h.bytes]
  · rw [hbytes, hrecency]
    exact total_after_le _ _
  · obtain ⟨t, hb, -⟩ := h.insert key b rfl
    have hkept : (st.insert key b (st.generations key.1)).recency =
        trim Block.size st.capacity (dropKey key st.recency ++ [(key, b)]) := by
      rw [hb.recency_eq, map_trim, List.map_append, map_filter_key, ← h.recency_eq]
      rfl
    obtain ⟨gone, hgone, hlast⟩ := trim_spec Block.size st.capacity (dropKey key st.recency ++ [(key, b)])
    refine ⟨gone, by rw [hkept, ← hgone], fun x hx => by rw [hkept]; exact hlast x hx, fun hfits => ?_⟩
    rw [← hb.mem_recency, hkept]
    exact mem_trim_last Block.size _ hfits

/-- Reading a block moves it to the end, and so does inserting it again. -/
example : (after 0 [.insert ("f", 0) ⟨[1], 0⟩ 0, .insert ("f", 1) ⟨[2], 0⟩ 0, .get ("f", 0), .insert ("f", 1) ⟨[3], 0⟩ 0]).recency =
    [(("f", 0), ⟨[1], 0⟩), (("f", 1), ⟨[3], 0⟩)] := by
  decide

end BlockStore

end Mobfs
