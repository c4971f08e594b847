import Mobfs.Lib.Contents
import Mobfs.Vfs.BlockCache
/-!
# Writes and the cached blocks

A write takes out the cached blocks it overlaps: where it is made, again when it has
been uploaded, and on the other mounts when the feed thread applies its event. The
other blocks stay. `read` takes a block that is shorter than a block for the end of
the file.

A write beyond the end fills the file up to its offset, so the block the old end was in
grows, and it is not among those taken out (`blocks_truthful_iff`).
-/

namespace Mobfs

open Lib

/-- The bytes of a file that its block `i` holds. -/
def blockOf (cs : Bytes) (i : Nat) : Bytes := (cs.drop (i * blockSize)).take blockSize

/-- How a mount hears of a write. -/
inductive Heard where
  /-- It makes the write itself: at the end of `write`, when the bytes are in the buffer. -/
  | write
  /-- It has uploaded the bytes. -/
  | upload
  /-- `apply_change` with a `Write` event; a local write under the path may be pending. -/
  | event (pending : Bool)
  deriving DecidableEq

/-- Not so for an event that `apply_change` passes over. -/
def Heard.acts (ignore : List String) (path : String) : Heard → Bool
  | .event pending => !(path = "" || shouldIgnoreRel ignore path || pending)
  | _ => true

namespace BlockStore

/-- What the mount then does to its blocks. -/
def hears (st : BlockStore) (ignore : List String) (path : String) (offset len : Nat) (h : Heard) : BlockStore :=
  if h.acts ignore path then st.invalidateRange path offset len else st

/-- The blocks of the path are as the file is, and at positions a file can have. -/
structure Truthful (st : BlockStore) (path : String) (cs : Bytes) : Prop where
  data : ∀ i b, st.block (path, i) = some b → b.data = blockOf cs i
  position : ∀ i, st.block (path, i) ≠ none → i * blockSize ≤ u64Max

/-- Where a read stops at a short block, the file ends there. -/
def StopsAtEnd (st : BlockStore) (path : String) (cs : Bytes) : Prop :=
  ∀ i b, st.block (path, i) = some b → b.data.length < blockSize → cs.length ≤ i * blockSize + b.data.length

variable {st : BlockStore} {path : String} {cs d : Bytes} {o : Nat}

theorem length_blockOf (i : Nat) : (blockOf cs i).length = min blockSize (cs.length - i * blockSize) := by
  simp [blockOf]

theorem getElem?_blockOf (i j : Nat) :
    (blockOf cs i)[j]? = if j < blockSize then cs[i * blockSize + j]? else none := by
  simp [blockOf, List.getElem?_take, List.getElem?_drop]

theorem Truthful.stopsAtEnd (h : st.Truthful path cs) : st.StopsAtEnd path cs := by
  intro i b hb hshort
  rw [h.data i b hb, length_blockOf] at hshort ⊢
  omega

/-! ## What a write changes of a block -/

/-- A block that ends before the write grows if the file ended before it was full. -/
theorem blockOf_writeAt_before {i : Nat} (hd : d ≠ []) (hi : i < o / blockSize) :
    blockOf (writeAt 0 cs o d) i = blockOf cs i ↔ (i + 1) * blockSize ≤ cs.length := by
  have hend : (i + 1) * blockSize ≤ o :=
    Nat.le_trans (Nat.mul_le_mul_right _ hi) (Nat.div_mul_le_self o blockSize)
  have hmul : (i + 1) * blockSize = i * blockSize + blockSize := Nat.succ_mul _ _
  constructor
  · intro h
    have hlen := congrArg List.length h
    rw [length_blockOf, length_blockOf, length_writeAt 0 cs o d hd] at hlen
    have hpos : 0 < blockSize := by decide
    omega
  · intro hfull
    apply List.ext_getElem?
    intro j
    rw [getElem?_blockOf, getElem?_blockOf]
    split
    · rename_i hj
      rw [getElem?_writeAt 0 cs o d hd, if_neg (by omega), if_neg (by omega)]
    · rfl

/-- A block that begins behind the write stays as it is. -/
theorem blockOf_writeAt_after {i : Nat} (hd : d ≠ []) (hi : o + d.length ≤ i * blockSize) :
    blockOf (writeAt 0 cs o d) i = blockOf cs i := by
  apply List.ext_getElem?
  intro j
  rw [getElem?_blockOf, getElem?_blockOf]
  split
  · rw [getElem?_writeAt 0 cs o d hd, if_neg (by omega), if_neg (by omega)]
  · rfl

theorem block_invalidateRange (offset len i : Nat) :
    (st.invalidateRange path offset len).block (path, i) =
      if inRange offset len i = true then none else st.block (path, i) := by
  rw [invalidateRange, block_invalidateWhere]
  cases inRange offset len i <;> simp

/-- The blocks that are out of range lie before the write or behind it. -/
theorem before_or_after {len i : Nat} (hpos : 0 < len) (hi : i * blockSize ≤ u64Max) :
    inRange o len i = false ↔ i < o / blockSize ∨ o + len ≤ i * blockSize := by
  constructor
  · intro h
    by_contra hne
    obtain ⟨hfirst, hlast⟩ := not_or.1 hne
    have hover : Overlaps o len i := by
      refine ⟨max o (i * blockSize), ?_, ?_, ?_⟩
      · omega
      · omega
      · simp only [blockSize] at *
        omega
    rw [inRange_of_overlaps hover hi] at h
    cases h
  · intro h
    by_contra hne
    obtain ⟨byte, h1, h2, rfl⟩ := overlaps_of_inRange (Bool.not_eq_false _ ▸ hne)
    rcases h with h | h
    · exact absurd (Nat.div_le_div_right h1) (Nat.not_le.2 h)
    · have := Nat.div_mul_le_self byte blockSize
      omega

/-! ## The blocks that stay -/

theorem truthful_place {b : Block} (hb : b.data = blockOf cs 0) (capacity : Nat) :
    ((new capacity).place (path, 0) b).Truthful path cs := by
  have hblock : ∀ i, ((new capacity).place (path, 0) b).block (path, i) = if i = 0 then some b else none := by
    intro i
    rw [block_place]
    simp [new, block]
  refine ⟨fun i b' hb' => ?_, fun i hi => ?_⟩
  · rw [hblock] at hb'
    split at hb'
    · rename_i hi
      cases hb'
      rw [hi, hb]
    · cases hb'
  · rw [hblock] at hi
    split at hi
    · rename_i hz
      simp [hz]
    · exact absurd rfl hi

/-- After a write is heard of, the blocks of the path that are still cached are as the
file is now, and a read that stops at a short one of them stops at the end of the file,
if and only if the blocks that were cached before the one the write begins in are full
blocks. Of an event that is passed over: if and only if the write changes none of the
cached blocks. -/
theorem blocks_truthful_iff (ignore : List String) (h : Heard) (hd : d ≠ []) (ht : st.Truthful path cs) :
    ((st.hears ignore path o d.length h).Truthful path (writeAt 0 cs o d) ∧
      (st.hears ignore path o d.length h).StopsAtEnd path (writeAt 0 cs o d)) ↔
    ∀ i, st.block (path, i) ≠ none →
      if h.acts ignore path then i < o / blockSize → (i + 1) * blockSize ≤ cs.length
      else blockOf (writeAt 0 cs o d) i = blockOf cs i := by
  have hstops : ∀ st' : BlockStore, (st'.Truthful path (writeAt 0 cs o d) ∧ st'.StopsAtEnd path (writeAt 0 cs o d)) ↔
      st'.Truthful path (writeAt 0 cs o d) := fun st' => ⟨fun h => h.1, fun h => ⟨h, h.stopsAtEnd⟩⟩
  rw [hstops, hears]
  by_cases ha : h.acts ignore path = true
  · simp only [if_pos ha]
    have hpos : 0 < d.length := List.length_pos_iff.2 hd
    constructor
    · intro ht' i hi hbefore
      obtain ⟨b, hb⟩ := Option.ne_none_iff_exists'.1 hi
      have hout : inRange o d.length i = false := (before_or_after hpos (ht.position i hi)).2 (.inl hbefore)
      have hkept : (st.invalidateRange path o d.length).block (path, i) = some b := by
        rw [block_invalidateRange, hout, hb]
        rfl
      exact (blockOf_writeAt_before hd hbefore).1 ((ht'.data i b hkept).symm.trans (ht.data i b hb))
    · intro hfull
      refine ⟨fun i b hb => ?_, fun i hi => ?_⟩
      · rw [block_invalidateRange] at hb
        split at hb
        · cases hb
        · rename_i hout
          have hi : st.block (path, i) ≠ none := by simp [hb]
          rw [ht.data i b hb]
          rcases (before_or_after hpos (ht.position i hi)).1 (Bool.not_eq_true _ ▸ hout) with hbefore | hafter
          · exact ((blockOf_writeAt_before hd hbefore).2 (hfull i hi hbefore)).symm
          · exact (blockOf_writeAt_after hd hafter).symm
      · apply ht.position i
        rw [block_invalidateRange] at hi
        split at hi
        · exact absurd rfl hi
        · exact hi
  · simp only [if_neg ha]
    constructor
    · intro ht' i hi
      obtain ⟨b, hb⟩ := Option.ne_none_iff_exists'.1 hi
      exact (ht'.data i b hb).symm.trans (ht.data i b hb)
    · intro hsame
      refine ⟨fun i b hb => ?_, ht.position⟩
      rw [hsame i (by simp [hb]), ht.data i b hb]

/-- Another mount overwrites the only byte of a file. -/
theorem blocks_truthful_overwritten :
    (((new 0).place ("a", 0) ⟨[7], 0⟩).hears [] "a" 0 1 (.event false)).Truthful "a" (writeAt 0 [7] 0 [1]) :=
  ((blocks_truthful_iff [] (.event false) (d := [1]) (by decide) (truthful_place (by decide) 0)).2 fun _ _ => by
    rw [if_pos (by decide)]
    intro h
    simp at h).1

/-- A file of one byte, its block cached, and a write beginning where the second block
does: a read still stops behind the one byte. -/
theorem write_behind_short_block :
    ((new 0).place ("a", 0) ⟨[7], 0⟩).Truthful "a" [7] ∧
      ¬(((new 0).place ("a", 0) ⟨[7], 0⟩).hears [] "a" blockSize 1 .write).StopsAtEnd "a"
        (writeAt 0 [7] blockSize [1]) := by
  refine ⟨truthful_place (by decide) 0, fun h => ?_⟩
  have hkept : (((new 0).place ("a", 0) ⟨[7], 0⟩).hears [] "a" blockSize 1 .write).block ("a", 0) = some ⟨[7], 0⟩ := by
    rw [hears, if_pos (show Heard.acts [] "a" .write = true from rfl), block_invalidateRange, if_neg (by decide), block_place, if_pos rfl]
  have hend := h 0 _ hkept (by decide)
  rw [length_writeAt 0 [7] blockSize [1] (by decide)] at hend
  revert hend
  decide

end BlockStore

/-! ## Reading -/

/-- The blocks that `read` fetches. -/
def readIndices (offset stop : Nat) : List Nat :=
  List.range' (offset / blockSize) ((stop - 1) / blockSize + 1 - offset / blockSize)

/-- One round of the loop on a block of the file. -/
theorem read_round (cs : Bytes) (offset stop k : Nat) :
    (cs.take (min stop (k * blockSize))).drop offset ++
        ((blockOf cs k).take (min (min stop (k * blockSize + blockSize) - k * blockSize) (blockOf cs k).length)).drop
          (max offset (k * blockSize) - k * blockSize) =
      (cs.take (min stop ((k + 1) * blockSize))).drop offset := by
  rw [Nat.succ_mul]
  by_cases hk : k * blockSize < stop
  · have hend : min stop (k * blockSize + blockSize) = k * blockSize + min (stop - k * blockSize) blockSize := by omega
    rw [Nat.min_eq_right hk.le, hend, Nat.add_sub_cancel_left, List.take_add, List.drop_append, ← List.take_eq_take_min]
    congr 1
    rw [blockOf, List.take_take, Nat.min_eq_left (Nat.min_le_right _ _), List.length_take]
    by_cases hlen : k * blockSize ≤ cs.length
    · rw [Nat.min_eq_left hlen]
      congr 1
      omega
    · simp [List.drop_of_length_le (Nat.le_of_not_le hlen)]
  · have hstop : stop ≤ k * blockSize := Nat.le_of_not_lt hk
    have hnone : min stop (k * blockSize + blockSize) - k * blockSize = 0 := by omega
    rw [hnone, Nat.min_eq_left hstop, Nat.min_eq_left (Nat.le_trans hstop (Nat.le_add_right _ _))]
    simp

end Mobfs
