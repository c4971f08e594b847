import Mobfs.Vfs.BlockWrites
import Mobfs.Vfs.WriteBack
/-!
# Reading a file

`read` goes over the blocks of its range. A first part that is all of the result so far
is kept as a part of its block, and copied when a second one comes. The loop stops at a
block that is not full, which it takes for the end of the file, and at a fetch that
fails: with the error if nothing has been read, else with what has been read.

So a fetch that fails later makes a short read of a read that should have failed
(`failed_fetch_is_error_iff`).
-/

namespace Mobfs

open Lib

/-- `out` and `single`. -/
structure Gathered where
  out : Bytes
  single : Option (Bytes × Nat × Nat)
  deriving DecidableEq, Repr

namespace Gathered

def empty : Gathered := ⟨[], none⟩

def nothing (g : Gathered) : Bool := g.out.isEmpty && g.single.isNone

def part (x : Bytes × Nat × Nat) : Bytes := (x.1.take x.2.2).drop x.2.1

/-- The slice of the `ReadData`. -/
def data (g : Gathered) : Bytes :=
  match g.single with
  | some x => part x
  | none => g.out

def push (g : Gathered) (block : Bytes) (first last : Nat) : Gathered :=
  if first < last then
    match g.single with
    | none => if g.out.isEmpty then ⟨[], some (block, first, last)⟩ else ⟨g.out ++ part (block, first, last), none⟩
    | some x => ⟨g.out ++ part x ++ part (block, first, last), none⟩
  else g

/-- One round of the loop, on the block at the index. -/
def round (g : Gathered) (offset stop index : Nat) (block : Bytes) : Gathered :=
  let start := index * blockSize
  g.push block (max offset start - start) (min (min stop (start + blockSize) - start) block.length)

/-- A part is kept apart only while nothing is copied, and is not empty. -/
def Valid (g : Gathered) : Prop := ∀ x, g.single = some x → g.out = [] ∧ part x ≠ []

theorem valid_empty : empty.Valid := by simp [empty, Valid]

theorem Valid.nothing_iff {g : Gathered} (h : g.Valid) : g.nothing = true ↔ g.data = [] := by
  unfold nothing data
  cases hs : g.single with
  | none => simp
  | some x => simpa using (h x hs).2

theorem part_ne_nil {block : Bytes} {first last : Nat} (h : first < last) (hl : last ≤ block.length) :
    part (block, first, last) ≠ [] := by
  simp only [part, ne_eq, List.drop_eq_nil_iff, List.length_take]
  omega

theorem Valid.push {g : Gathered} (h : g.Valid) {block : Bytes} {first last : Nat} (hl : last ≤ block.length) :
    (g.push block first last).Valid ∧ (g.push block first last).data = g.data ++ part (block, first, last) := by
  unfold Gathered.push
  split
  · rename_i hlt
    cases hs : g.single with
    | none =>
      simp only
      split
      · rename_i hout
        refine ⟨?_, by simp_all [data]⟩
        rintro x ⟨⟩
        exact ⟨rfl, part_ne_nil hlt hl⟩
      · exact ⟨by simp [Valid], by simp [data, hs]⟩
    | some x => exact ⟨by simp [Valid], by simp [data, hs, (h x hs).1]⟩
  · rename_i hle
    have hnil : part (block, first, last) = [] := by
      simp only [part, List.drop_eq_nil_iff, List.length_take]
      omega
    exact ⟨h, by rw [hnil, List.append_nil]⟩

theorem Valid.round {g : Gathered} (h : g.Valid) (offset stop index : Nat) (block : Bytes) :
    (g.round offset stop index block).Valid ∧
      (g.round offset stop index block).data = g.data ++ part (block, max offset (index * blockSize) - index * blockSize,
        min (min stop (index * blockSize + blockSize) - index * blockSize) block.length) :=
  h.push (Nat.min_le_right _ _)

end Gathered

/-- The loop over the indices. -/
def readBlocks (fetch : Nat → Except Errno Bytes) (offset stop : Nat) : List Nat → Gathered → Except Errno Gathered
  | [], g => .ok g
  | index :: rest, g =>
    match fetch index with
    | .error e => if g.nothing then .error e else .ok g
    | .ok block =>
      let g := g.round offset stop index block
      if block.length < blockSize then .ok g else readBlocks fetch offset stop rest g

/-- `offset.saturating_add(size)`. -/
def readStop (offset size : Nat) : Nat := min (offset + size) u64Max

/-- `read` of a file, when there is nothing to flush. `fileSize` is that of the cached
entry. -/
def vfsRead (fileSize : Option Nat) (fetch : Nat → Except Errno Bytes) (offset size : Nat) : Except Errno Bytes :=
  if fileSize.any (· ≤ offset) then .ok []
  else (readBlocks fetch offset (readStop offset size) (readIndices offset (readStop offset size)) .empty).map Gathered.data

/-- What `read` is asked for. -/
def requested (cs : Bytes) (offset size : Nat) : Bytes := (cs.take (min (offset + size) cs.length)).drop offset

/-! ## What the loop has read -/

theorem take_readStop {cs : Bytes} (hlen : cs.length ≤ u64Max) (offset size : Nat) :
    (cs.take (readStop offset size)).drop offset = requested cs offset size := by
  rw [requested]
  congr 1
  rw [List.take_eq_take_iff, readStop]
  omega

/-- The bytes of the blocks before `k`. -/
def readBefore (cs : Bytes) (offset stop k : Nat) : Bytes := (cs.take (min stop (k * blockSize))).drop offset

theorem readBefore_first (cs : Bytes) (offset stop : Nat) : readBefore cs offset stop (offset / blockSize) = [] := by
  have hfirst : offset / blockSize * blockSize ≤ offset := Nat.div_mul_le_self _ _
  rw [readBefore, List.drop_eq_nil_iff, List.length_take]
  omega

/-- Nothing is left for the blocks from `k` on. -/
theorem readBefore_end {cs : Bytes} {offset stop k : Nat} (h : stop ≤ k * blockSize ∨ cs.length ≤ k * blockSize) :
    readBefore cs offset stop k = (cs.take stop).drop offset := by
  rw [readBefore]
  congr 1
  rw [List.take_eq_take_iff]
  omega

theorem Gathered.Valid.round_block {g : Gathered} (h : g.Valid) {cs : Bytes} {offset stop k : Nat}
    (hg : g.data = readBefore cs offset stop k) :
    (g.round offset stop k (blockOf cs k)).Valid ∧
      (g.round offset stop k (blockOf cs k)).data = readBefore cs offset stop (k + 1) := by
  obtain ⟨hv, hd⟩ := h.round offset stop k (blockOf cs k)
  refine ⟨hv, ?_⟩
  rw [hd, hg, readBefore, readBefore, part, read_round]

/-- A block of the file that is not full is the last one. -/
theorem readBefore_short {cs : Bytes} {offset stop k : Nat} (h : (blockOf cs k).length < blockSize) :
    readBefore cs offset stop (k + 1) = (cs.take stop).drop offset := by
  rw [BlockStore.length_blockOf] at h
  have hmul : (k + 1) * blockSize = k * blockSize + blockSize := Nat.succ_mul _ _
  exact readBefore_end (.inr (by omega))

/-! ## Fetches that fail -/

/-- The blocks of a file, some of which cannot be had. -/
def fetchOf (cs : Bytes) (fails : Nat → Option Errno) (index : Nat) : Except Errno Bytes :=
  match fails index with
  | some e => .error e
  | none => .ok (blockOf cs index)

variable {cs : Bytes} {fails : Nat → Option Errno} {offset stop : Nat}

/-- The loop has read all that the blocks from `k` on are needed for. -/
structure ReadsAll (cs : Bytes) (fails : Nat → Option Errno) (offset stop k n : Nat) (result : Except Errno Bytes) : Prop where
  result : result = .ok ((cs.take stop).drop offset)
  had : ∀ i ∈ List.range' k n, i * blockSize < cs.length → fails i = none

/-- The loop has stopped before block `i`, which cannot be had. -/
structure StopsBefore (cs : Bytes) (fails : Nat → Option Errno) (offset stop k n i : Nat) (e : Errno)
    (result : Except Errno Bytes) : Prop where
  index : i ∈ List.range' k n
  failed : fails i = some e
  had : ∀ j, k ≤ j → j < i → fails j = none ∧ (j + 1) * blockSize ≤ cs.length
  result : result = if readBefore cs offset stop i = [] then .error e else .ok (readBefore cs offset stop i)

variable (fails) in
theorem readBlocks_spec {n k : Nat} {g : Gathered} (hv : g.Valid) (hg : g.data = readBefore cs offset stop k)
    (hstop : stop ≤ (k + n) * blockSize) :
    let result := (readBlocks (fetchOf cs fails) offset stop (List.range' k n) g).map Gathered.data
    ReadsAll cs fails offset stop k n result ∨ ∃ i e, StopsBefore cs fails offset stop k n i e result := by
  induction n generalizing k g with
  | zero =>
    rw [Nat.add_zero] at hstop
    refine .inl ⟨?_, by simp⟩
    rw [List.range'_zero, readBlocks, Except.map, hg, readBefore_end (.inl hstop)]
  | succ n ih =>
    simp only [List.range'_succ, readBlocks]
    cases hk : fails k with
    | some e =>
      refine .inr ⟨k, e, by simp [List.range'_succ], hk, fun j h1 h2 => absurd h2 (Nat.not_lt.2 h1), ?_⟩
      simp only [fetchOf, hk, ← hg, ← hv.nothing_iff]
      split <;> rfl
    | none =>
      obtain ⟨hv', hg'⟩ := hv.round_block hg
      simp only [fetchOf, hk]
      split
      · rename_i hshort
        refine .inl ⟨?_, fun i hi hlt => ?_⟩
        · rw [Except.map, hg', readBefore_short hshort]
        · rw [List.range'_succ, List.mem_cons, List.mem_range'_1] at hi
          rcases hi with rfl | ⟨hi, -⟩
          · exact hk
          · -- The block before it is not full.
            rw [BlockStore.length_blockOf] at hshort
            have hmul : (k + 1) * blockSize ≤ i * blockSize := Nat.mul_le_mul_right _ hi
            rw [Nat.succ_mul] at hmul
            omega
      · rename_i hfull
        have hnext : (k + 1) * blockSize ≤ cs.length := by
          rw [BlockStore.length_blockOf] at hfull
          have hmul : (k + 1) * blockSize = k * blockSize + blockSize := Nat.succ_mul _ _
          have hpos : 0 < blockSize := by decide
          omega
        rcases ih hv' hg' (by rwa [Nat.add_right_comm, Nat.add_assoc]) with h | ⟨i, e, h⟩
        · refine .inl ⟨h.result, fun i hi hlt => ?_⟩
          rw [List.range'_succ, List.mem_cons] at hi
          rcases hi with rfl | hi
          · exact hk
          · exact h.had i hi hlt
        · refine .inr ⟨i, e, by rw [List.range'_succ]; exact List.mem_cons_of_mem _ h.index, h.failed, fun j h1 h2 => ?_, h.result⟩
          rcases Nat.eq_or_lt_of_le h1 with rfl | h1
          · exact ⟨hk, hnext⟩
          · exact h.had j h1 h2

/-- All blocks before a later one are full. -/
theorem StopsBefore.full {n k i : Nat} {e : Errno} {result : Except Errno Bytes}
    (h : StopsBefore cs fails offset stop k n i e result) (hik : k < i) : i * blockSize ≤ cs.length := by
  have hpos : 0 < i := Nat.zero_lt_of_lt hik
  have hfull := (h.had (i - 1) (Nat.le_sub_one_of_lt hik) (Nat.sub_one_lt_of_lt hpos)).2
  rwa [Nat.sub_add_cancel hpos] at hfull

/-- What has been read before a later block that cannot be had is all that was asked for
only where the file ends there. -/
theorem StopsBefore.short_iff {n i : Nat} {e : Errno} {result : Except Errno Bytes} {k : Nat}
    (h : StopsBefore cs fails offset stop k n i e result) (hk : k = offset / blockSize) (hn : k + n ≤ (stop - 1) / blockSize + 1)
    (hik : k < i) :
    readBefore cs offset stop i ≠ [] ∧ (readBefore cs offset stop i = (cs.take stop).drop offset ↔ cs.length = i * blockSize) := by
  have hfull := h.full hik
  have hi := List.mem_range'_1.1 h.index
  have hstop : i * blockSize < stop := by
    have hle : i * blockSize ≤ (stop - 1) / blockSize * blockSize := Nat.mul_le_mul_right _ (by omega)
    have := Nat.div_mul_le_self (stop - 1) blockSize
    have hpos : 0 < i * blockSize := Nat.mul_pos (by omega) (by decide)
    omega
  have hoffset : offset < i * blockSize := (Nat.div_lt_iff_lt_mul (by decide)).1 (hk ▸ hik)
  have hlength : (readBefore cs offset stop i).length = i * blockSize - offset := by
    rw [readBefore, List.length_drop, List.length_take]
    omega
  refine ⟨fun hnil => ?_, fun heq => ?_, fun hend => readBefore_end (.inr (Nat.le_of_eq hend))⟩
  · rw [hnil, List.length_nil] at hlength
    omega
  · rw [heq, List.length_drop, List.length_take] at hlength
    omega

/-- A read that returns `Ok` has read what was asked for, whichever fetches fail, if and
only if the first block cannot be had, or all blocks that the file has in the range can. -/
theorem failed_fetch_is_error_iff (cs : Bytes) (fails : Nat → Option Errno) (fileSize : Option Nat) (offset size : Nat)
    (hlen : cs.length ≤ u64Max) (hsize : ∀ n, fileSize = some n → n = cs.length) :
    (∀ data, vfsRead fileSize (fetchOf cs fails) offset size = .ok data → data = requested cs offset size) ↔
      (fails (offset / blockSize)).isSome ∨
        ∀ i ∈ readIndices offset (readStop offset size), i * blockSize < cs.length → fails i = none := by
  rw [← take_readStop hlen, vfsRead, readIndices]
  generalize readStop offset size = stop
  split
  · -- The range begins behind the end, and at most its first block is a block of the file.
    rename_i hbehind
    obtain ⟨n, hn, hle⟩ := (Option.any_eq_true _ _).1 hbehind
    have hle : cs.length ≤ offset := hsize n hn ▸ of_decide_eq_true hle
    refine ⟨fun _ => ?_, fun _ data hdata => ?_⟩
    · cases hfirst : fails (offset / blockSize) with
      | some e => exact .inl rfl
      | none =>
        refine .inr fun i hi hlt => ?_
        have hi := (List.mem_range'_1.1 hi).1
        have hi' : i ≤ offset / blockSize := (Nat.le_div_iff_mul_le (by decide)).2 (by omega)
        rw [Nat.le_antisymm hi' hi, hfirst]
    · cases hdata
      rw [eq_comm, List.drop_eq_nil_iff, List.length_take]
      omega
  · have hstop : stop ≤ (offset / blockSize + ((stop - 1) / blockSize + 1 - offset / blockSize)) * blockSize := by
      simp only [blockSize]
      omega
    have hspec := readBlocks_spec fails Gathered.valid_empty (readBefore_first cs offset stop).symm hstop
    generalize (readBlocks (fetchOf cs fails) offset stop _ Gathered.empty).map Gathered.data = result at hspec ⊢
    rcases hspec with h | ⟨i, e, h⟩
    · refine ⟨fun _ => .inr h.had, fun _ data hdata => ?_⟩
      rw [h.result] at hdata
      exact (Except.ok.inj hdata).symm
    · rcases Nat.eq_or_lt_of_le (List.mem_range'_1.1 h.index).1 with rfl | hlater
      · refine ⟨fun _ => .inl (by rw [h.failed]; rfl), fun _ data hdata => ?_⟩
        rw [h.result, if_pos (readBefore_first cs offset stop)] at hdata
        cases hdata
      · obtain ⟨hne, hshort⟩ := h.short_iff rfl (by have := List.mem_range'_1.1 h.index; omega) hlater
        rw [h.result, if_neg hne]
        have hfirst := (h.had _ (Nat.le_refl _) hlater).1
        have hfull := h.full hlater
        constructor
        · intro hall
          have hend := hshort.1 (hall _ rfl)
          refine .inr fun j hj hlt => (h.had j (List.mem_range'_1.1 hj).1 ?_).1
          rw [hend] at hlt
          exact Nat.lt_of_mul_lt_mul_right hlt
        · rintro (hsome | hall) data hdata
          · rw [hfirst] at hsome
            cases hsome
          · have hnot : ¬ i * blockSize < cs.length := fun hlt => by
              have := hall i h.index hlt
              rw [h.failed] at this
              cases this
            rw [← Except.ok.inj hdata]
            exact hshort.2 (by omega)

/-- The one block of the file can be had; another fetch would fail. -/
theorem failed_fetch_is_error_small : requested [7, 8, 9] 1 5 = [8, 9] :=
  ((failed_fetch_is_error_iff [7, 8, 9] (fun i => if i = 1 then some .eio else none) (some 3) 1 5 (by decide)
    (by rintro n ⟨⟩; rfl)).2
    (.inr fun i hi _ => by
      obtain rfl : i = 0 := by simpa [readIndices, readStop, u64Max, blockSize] using hi
      rfl) [8, 9] rfl).symm

/-- A file one byte longer than a block, whose second block cannot be had. -/
def twoBlocks : Bytes := List.replicate (blockSize + 1) 7

def secondFails (index : Nat) : Option Errno := if index = 1 then some .eio else none

/-- Two bytes are asked for across the end of the first block; the read returns `Ok` with
one of them. -/
theorem read_stops_at_failed_fetch :
    vfsRead (some (blockSize + 1)) (fetchOf twoBlocks secondFails) (blockSize - 1) 2 = .ok [7] ∧
      requested twoBlocks (blockSize - 1) 2 = [7, 7] := by
  have hindices : readIndices (blockSize - 1) (readStop (blockSize - 1) 2) = [0, 1] := by decide
  have hblock : blockOf twoBlocks 0 = List.replicate blockSize 7 := by simp [blockOf, twoBlocks]
  have hround : Gathered.empty.round (blockSize - 1) (readStop (blockSize - 1) 2) 0 (List.replicate blockSize 7) =
      ⟨[], some (List.replicate blockSize 7, blockSize - 1, blockSize)⟩ := by
    rw [Gathered.round, List.length_replicate]
    rfl
  refine ⟨?_, ?_⟩
  · rw [vfsRead, if_neg (by decide), hindices]
    simp only [readBlocks, fetchOf, show secondFails 0 = none from rfl, show secondFails 1 = some .eio from rfl, hblock,
      List.length_replicate, Nat.lt_irrefl, if_false, hround]
    simp only [Gathered.nothing, List.isEmpty_nil, Option.isNone_some, Bool.and_false, Bool.false_eq_true, if_false, Except.map,
      Gathered.data, Gathered.part, List.take_replicate, List.drop_replicate]
    rfl
  · simp only [requested, twoBlocks, List.length_replicate, List.take_replicate, List.drop_replicate]
    rfl

end Mobfs
