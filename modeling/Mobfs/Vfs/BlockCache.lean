import Mobfs.Lib.Chunks
import Mobfs.Lib.Maps
import Mobfs.Path
import Mobfs.Protocol
/-!
# The block cache: its store

Blocks of remote files, the least recently used evicted first. A path has a
generation, which every invalidation of it advances; a block is inserted only if
the generation its reader had read is still the present one. `Block.readAt` is the
time at which the remote read of the block started. The code does not keep it.
-/

namespace Mobfs

open Lib Std

def blockSize : Nat := 1024 * 1024

def u64Max : Nat := 2 ^ 64 - 1

abbrev BlockKey := String × Nat

def BlockKey.cmp : BlockKey → BlockKey → Ordering := compareLex (compareOn (·.1)) (compareOn (·.2))

instance : TransCmp BlockKey.cmp := inferInstanceAs (TransCmp (compareLex _ _))

instance : LawfulEqCmp BlockKey.cmp where
  eq_of_compare := by
    intro a b h
    obtain ⟨h1, h2⟩ := compareLex_eq_eq.1 h
    exact Prod.ext (LawfulEqCmp.eq_of_compare h1) (LawfulEqCmp.eq_of_compare h2)

structure Block where
  data : Bytes
  readAt : Nat
  deriving DecidableEq

structure BlockStore where
  blocks : ExtTreeMap BlockKey (Block × Nat) BlockKey.cmp
  lru : ExtTreeMap Nat BlockKey
  generations : String → Nat
  tick : Nat
  bytes : Nat
  capacity : Nat

namespace BlockStore

/-- `BlockCache::new`. -/
def new (capacity : Nat) : BlockStore := ⟨∅, ∅, fun _ => 0, 0, 0, max capacity (blockSize * 4)⟩

/-- The block in the cache, without its place in the order of use. -/
def block (st : BlockStore) (key : BlockKey) : Option Block := st.blocks[key]?.map (·.1)

def get (st : BlockStore) (key : BlockKey) : BlockStore × Option Block :=
  match st.blocks[key]? with
  | none => (st, none)
  | some (b, oldTick) =>
    let tick := st.tick + 1
    ({ st with
        tick
        lru := (st.lru.erase oldTick).insert tick key
        blocks := st.blocks.insert key (b, tick) }, some b)

/-- Takes a block out, with its bytes and its place in the order of use. -/
def remove (st : BlockStore) (key : BlockKey) : BlockStore :=
  match st.blocks[key]? with
  | none => st
  | some (old, tick) =>
    { st with blocks := st.blocks.erase key, bytes := st.bytes - old.data.length, lru := st.lru.erase tick }

/-- One round of the eviction loop, on the least recently used key. -/
def popFirst (st : BlockStore) (tick : Nat) (oldest : BlockKey) : BlockStore :=
  match st.blocks[oldest]? with
  | none => { st with lru := st.lru.erase tick }
  | some (old, _) =>
    { st with lru := st.lru.erase tick, blocks := st.blocks.erase oldest, bytes := st.bytes - old.data.length }

/-- The eviction loop of `insert`; `order` is `lru` from its first entry on. -/
def evict (st : BlockStore) : List (Nat × BlockKey) → BlockStore
  | [] => st
  | (tick, oldest) :: order => if st.bytes > st.capacity then (st.popFirst tick oldest).evict order else st

/-- The keys that loop evicts. -/
def evicted (st : BlockStore) : List (Nat × BlockKey) → List BlockKey
  | [] => []
  | (tick, oldest) :: order =>
    if st.bytes > st.capacity then oldest :: (st.popFirst tick oldest).evicted order else []

/-- `insert` up to its eviction loop, for a generation that is the present one. -/
def place (st : BlockStore) (key : BlockKey) (b : Block) : BlockStore :=
  let st := st.remove key
  let tick := st.tick + 1
  { st with
    tick
    bytes := st.bytes + b.data.length
    lru := st.lru.insert tick key
    blocks := st.blocks.insert key (b, tick) }

def insert (st : BlockStore) (key : BlockKey) (b : Block) (generation : Nat) : BlockStore :=
  if st.generations key.1 ≠ generation then st
  else (st.place key b).evict (st.place key b).lru.toList

/-- `paths` is a set: each of its paths is advanced once. -/
def bump (st : BlockStore) (paths : List String) : BlockStore :=
  { st with generations := fun p => if p ∈ paths then st.generations p + 1 else st.generations p }

def invalidateWhere (st : BlockStore) (paths : List String) (keep : BlockKey → Bool) : BlockStore :=
  (st.blocks.keys.filter fun key => key.1 ∈ paths && !keep key).foldl remove (st.bump paths)

def invalidatePath (st : BlockStore) (path : String) : BlockStore := st.invalidateWhere [path] fun _ => false

/-- The blocks `invalidate_range` takes out, in the saturating arithmetic of `u64`. -/
def inRange (offset len index : Nat) : Bool :=
  let first := offset / blockSize
  let last := (min (offset + max len 1) u64Max - 1) / blockSize
  !(index < first || index > last)

def invalidateRange (st : BlockStore) (path : String) (offset len : Nat) : BlockStore :=
  st.invalidateWhere [path] fun key => !inRange offset len key.2

/-- The path, or one below it. -/
def under (d path : String) : Bool := path = d || below d path

/-- The paths `invalidate_tree` collects in its first critical section. -/
def treePaths (st : BlockStore) (path : String) : List String :=
  (st.blocks.keys.map (·.1)).filter (under path) ++ [path]

def clear (st : BlockStore) : BlockStore :=
  { st.bump (st.blocks.keys.map (·.1)) with blocks := ∅, lru := ∅, bytes := 0 }

/-! ## What is in the cache afterwards -/

variable {st : BlockStore} {key k : BlockKey}

theorem block_eq_none : st.block k = none ↔ st.blocks[k]? = none := by simp [block]

theorem get_snd : (st.get key).2 = st.block key := by
  unfold get block
  cases st.blocks[key]? <;> rfl

theorem block_get : (st.get key).1.block k = st.block k := by
  unfold get
  cases h : st.blocks[key]? with
  | none => rfl
  | some x =>
    simp only [block, get?_insert]
    by_cases hk : k = key
    · rw [if_pos hk, hk, h]
      rfl
    · rw [if_neg hk]

theorem generations_get : (st.get key).1.generations = st.generations := by
  unfold get
  cases st.blocks[key]? <;> rfl

theorem block_remove : (st.remove key).block k = if k = key then none else st.block k := by
  unfold remove
  cases h : st.blocks[key]? with
  | none =>
    by_cases hk : k = key
    · rw [if_pos hk, block_eq_none, hk, h]
    · rw [if_neg hk]
  | some x =>
    simp only [block, get?_erase]
    by_cases hk : k = key
    · rw [if_pos hk, if_pos hk]
      rfl
    · rw [if_neg hk, if_neg hk]

theorem generations_remove : (st.remove key).generations = st.generations := by
  unfold remove
  cases st.blocks[key]? <;> rfl

theorem block_popFirst (tick : Nat) : (st.popFirst tick key).block k = if k = key then none else st.block k := by
  unfold popFirst
  cases h : st.blocks[key]? with
  | none =>
    by_cases hk : k = key
    · rw [if_pos hk, block_eq_none, hk]
      exact h
    · rw [if_neg hk]
      rfl
  | some x =>
    simp only [block, get?_erase]
    by_cases hk : k = key
    · rw [if_pos hk, if_pos hk]
      rfl
    · rw [if_neg hk, if_neg hk]

theorem generations_popFirst (tick : Nat) : (st.popFirst tick key).generations = st.generations := by
  unfold popFirst
  cases st.blocks[key]? <;> rfl

theorem block_evict (order : List (Nat × BlockKey)) :
    (st.evict order).block k = if k ∈ st.evicted order then none else st.block k := by
  induction order generalizing st with
  | nil => simp [evict, evicted]
  | cons x order ih =>
    unfold evict evicted
    by_cases hb : st.bytes > st.capacity
    · rw [if_pos hb, if_pos hb, ih, block_popFirst]
      by_cases hk : k = x.2
      · simp [hk]
      · simp [hk]
    · simp [hb]

theorem generations_evict (order : List (Nat × BlockKey)) : (st.evict order).generations = st.generations := by
  induction order generalizing st with
  | nil => rfl
  | cons x order ih =>
    unfold evict
    by_cases hb : st.bytes > st.capacity
    · rw [if_pos hb, ih, generations_popFirst]
    · rw [if_neg hb]

theorem block_place (b : Block) : (st.place key b).block k = if k = key then some b else st.block k := by
  unfold place
  simp only [block, get?_insert]
  by_cases hk : k = key
  · rw [if_pos hk, if_pos hk]
    rfl
  · rw [if_neg hk, if_neg hk]
    have h : (st.remove key).block k = if k = key then none else st.block k := block_remove
    rw [if_neg hk] at h
    exact h

/-- A block that is there after `insert` was there before, or is the new one, read
in the present generation. -/
theorem block_insert {b b' : Block} {generation : Nat} (h : (st.insert key b generation).block k = some b') :
    st.block k = some b' ∨ (k = key ∧ b' = b ∧ st.generations key.1 = generation) := by
  unfold insert at h
  by_cases hg : st.generations key.1 = generation
  · rw [if_neg (not_not.2 hg), block_evict, block_place] at h
    by_cases he : k ∈ (st.place key b).evicted (st.place key b).lru.toList
    · rw [if_pos he] at h
      cases h
    · rw [if_neg he] at h
      by_cases hk : k = key
      · rw [if_pos hk] at h
        exact .inr ⟨hk, (Option.some.inj h).symm, hg⟩
      · rw [if_neg hk] at h
        exact .inl h
  · rw [if_pos hg] at h
    exact .inl h

/-- What `insert` does not evict stays. -/
theorem block_insert_kept {b : Block} {generation : Nat} (h : st.block k ≠ none)
    (he : st.generations key.1 = generation → k ∉ (st.place key b).evicted (st.place key b).lru.toList) :
    (st.insert key b generation).block k ≠ none := by
  unfold insert
  by_cases hg : st.generations key.1 = generation
  · rw [if_neg (not_not.2 hg), block_evict, if_neg (he hg), block_place]
    by_cases hk : k = key
    · simp [hk]
    · rwa [if_neg hk]
  · rwa [if_pos hg]

theorem generations_insert (b : Block) (generation : Nat) :
    (st.insert key b generation).generations = st.generations := by
  unfold insert
  by_cases hg : st.generations key.1 = generation
  · rw [if_neg (not_not.2 hg), generations_evict]
    exact generations_remove
  · rw [if_pos hg]

theorem block_foldl_remove (keys : List BlockKey) :
    (keys.foldl remove st).block k = if k ∈ keys then none else st.block k := by
  induction keys generalizing st with
  | nil => simp
  | cons x keys ih =>
    rw [List.foldl_cons, ih, block_remove]
    by_cases hk : k = x
    · simp [hk]
    · simp [hk]

theorem generations_foldl_remove (keys : List BlockKey) : (keys.foldl remove st).generations = st.generations := by
  induction keys generalizing st with
  | nil => rfl
  | cons x keys ih => rw [List.foldl_cons, ih, generations_remove]

/-- The cache has a block of the path. -/
def Cached (st : BlockStore) (path : String) : Prop := ∃ index, st.block (path, index) ≠ none

theorem mem_keys_iff : k ∈ st.blocks.keys ↔ st.block k ≠ none := by
  rw [ExtTreeMap.mem_keys, mem_iff_get?, ne_eq, block_eq_none]
  cases st.blocks[k]? <;> simp

theorem block_invalidateWhere (paths : List String) (keep : BlockKey → Bool) :
    (st.invalidateWhere paths keep).block k = if k.1 ∈ paths ∧ keep k = false then none else st.block k := by
  unfold invalidateWhere
  rw [block_foldl_remove]
  have hb : (st.bump paths).block k = st.block k := rfl
  by_cases hc : k.1 ∈ paths ∧ keep k = false
  · rw [if_pos hc, hb]
    by_cases hn : st.block k = none
    · rw [hn, ite_self]
    · have hm : k ∈ st.blocks.keys := mem_keys_iff.2 hn
      rw [if_pos (List.mem_filter.2 ⟨hm, by simp [hc]⟩)]
  · rw [if_neg hc, hb, if_neg]
    simp only [List.mem_filter, Bool.and_eq_true, decide_eq_true_eq, Bool.not_eq_eq_eq_not, Bool.not_true]
    exact fun h => hc h.2

theorem generations_invalidateWhere (paths : List String) (keep : BlockKey → Bool) (p : String) :
    (st.invalidateWhere paths keep).generations p =
      if p ∈ paths then st.generations p + 1 else st.generations p := by
  unfold invalidateWhere
  rw [generations_foldl_remove]
  rfl

theorem block_clear : st.clear.block k = none := by simp [clear, block]

theorem generations_clear (p : String) :
    (st.Cached p → st.clear.generations p = st.generations p + 1) ∧ st.generations p ≤ st.clear.generations p := by
  have hmem : p ∈ st.blocks.keys.map (·.1) ↔ st.Cached p := by
    simp only [List.mem_map, mem_keys_iff, Cached, Prod.exists]
    constructor
    · rintro ⟨q, i, hk, rfl⟩
      exact ⟨i, hk⟩
    · rintro ⟨i, hk⟩
      exact ⟨p, i, hk, rfl⟩
  have hgen : st.clear.generations p =
      if p ∈ st.blocks.keys.map (·.1) then st.generations p + 1 else st.generations p := rfl
  rw [hgen]
  by_cases hc : st.Cached p
  · rw [if_pos (hmem.2 hc)]
    exact ⟨fun _ => rfl, by omega⟩
  · rw [if_neg fun h => hc (hmem.1 h)]
    exact ⟨fun h => absurd h hc, by omega⟩

/-- The block has a byte of the range; a range without length counts as one byte. -/
def Overlaps (offset len index : Nat) : Prop :=
  ∃ byte, offset ≤ byte ∧ byte < offset + max len 1 ∧ byte / blockSize = index

theorem inRange_of_overlaps {offset len index : Nat} (h : Overlaps offset len index) (hi : index * blockSize ≤ u64Max) :
    inRange offset len index = true := by
  obtain ⟨byte, h1, h2, rfl⟩ := h
  have hfirst : ¬ byte / blockSize < offset / blockSize := Nat.not_lt.2 (Nat.div_le_div_right h1)
  have hlast : ¬ byte / blockSize > (min (offset + max len 1) u64Max - 1) / blockSize := by
    simp only [u64Max, blockSize] at *
    omega
  simp [inRange, hfirst, hlast]

theorem overlaps_of_inRange {offset len index : Nat} (h : inRange offset len index = true) :
    Overlaps offset len index := by
  simp only [inRange, Bool.not_eq_eq_eq_not, Bool.not_true, Bool.or_eq_false_iff, decide_eq_false_iff_not] at h
  obtain ⟨hfirst, hlast⟩ := h
  refine ⟨max offset (index * blockSize), ?_, ?_, ?_⟩
  · omega
  · simp only [u64Max, blockSize] at *
    omega
  · simp only [u64Max, blockSize] at *
    omega

end BlockStore

end Mobfs
