import Mobfs.Daemon.Stream
/-!
# Reads of a file

A call of `read` returns between one byte and as many as are asked for while there are
any, and nothing at the end of the file. `OpenFile` is a file that does not change, with
what the system makes of each call.

`read_range` reads until it has what it wants, so it does not depend on the sizes of the
reads (`readRange_eq`).
-/

namespace Mobfs

open Lib

def maxRangeBytes : Nat := 16 * 1024 * 1024

/-- The most that a `ReadFileChunk` returns. -/
def maxChunkBytes : Nat := 1024 * 1024

/-- An open file. `split i` is the most that the `i`-th call of `read` returns, if it is
not zero. `maxOffset` is the largest offset of its file system. -/
structure OpenFile where
  contents : Bytes
  split : Nat → Nat
  maxOffset : Nat

namespace OpenFile

/-- `seek` takes the offset: it is an `i64`, and the file system has it. -/
def Seekable (f : OpenFile) (offset : Nat) : Prop := offset < 2 ^ 63 ∧ offset ≤ f.maxOffset

instance (f : OpenFile) (offset : Nat) : Decidable (f.Seekable offset) :=
  inferInstanceAs (Decidable (offset < 2 ^ 63 ∧ offset ≤ f.maxOffset))

def seekError : MobfsError := .io "Invalid argument (os error 22)"

/-- The `i`-th call of `read`, at a position, with a buffer of some size. -/
def read (f : OpenFile) (i pos size : Nat) : Bytes := (f.contents.drop pos).take (min (max 1 (f.split i)) size)

/-- The loop of `read_range`, with what is read so far. It takes no more rounds than there
are bytes wanted (`fill_eq`). -/
def fill (f : OpenFile) (offset want : Nat) : Nat → Nat → Bytes → Bytes
  | 0, _, data => data
  | fuel + 1, i, data =>
    if data.length < want then
      match f.read i (offset + data.length) (want - data.length) with
      | [] => data
      | bytes => fill f offset want fuel (i + 1) (data ++ bytes)
    else data

/-- `read_range`, from the open file on. -/
def readRange (f : OpenFile) (offset len : Nat) : Except MobfsError (Bytes × Bool) :=
  let want := min (min len maxRangeBytes) (f.contents.length - offset)
  if f.Seekable offset then
    let data := f.fill offset want want 0 []
    .ok (data, f.contents.length ≤ satAdd offset data.length)
  else .error seekError

/-- The handler of `ReadFileChunk`, from the open file on: one call of `read`. The end of
the file is taken from the length of what it returns. -/
def readFileChunk (f : OpenFile) (i offset len : Nat) : Except MobfsError (Bytes × Bool) :=
  if f.Seekable offset then
    let data := f.read i offset (min len maxChunkBytes)
    .ok (data, data.isEmpty || data.length < min len maxChunkBytes)
  else .error seekError

end OpenFile

section Handler
variable {σ : Type} (os : Os σ) (openRead : AbsPath → Io σ OpenFile)

/-- Opens the file of a request for reading. -/
def openFor (root rel : String) (policy : RootPolicy) : Io σ OpenFile := fun s =>
  match policy.check os root s with
  | (.error e, s) => (.error e, s)
  | (.ok root, s) =>
    match safeJoin root rel with
    | .error e => (.error e, s)
    | .ok path => openRead path s

/-- `read_range`, the handler of `ReadRange`. -/
def readRange (root rel : String) (offset len : Nat) (policy : RootPolicy) (d : Daemon σ) :
    Except MobfsError (Bytes × Bool) × Daemon σ :=
  match d.call (openFor os openRead root rel policy) with
  | (.error e, d) => (.error e, d)
  | (.ok f, d) => (f.readRange offset len, d)

end Handler

namespace OpenFile

/-- A read goes on where the last one ended. -/
theorem take_append_read (f : OpenFile) (i offset n size : Nat) (hn : offset + n ≤ f.contents.length) :
    ∃ k, k ≤ size ∧ (offset + n < f.contents.length → 0 < size → 0 < k) ∧ n + k ≤ f.contents.length - offset ∧
      f.read i (offset + n) size = (f.contents.drop (offset + n)).take k ∧
      (f.contents.drop offset).take n ++ f.read i (offset + n) size = (f.contents.drop offset).take (n + k) := by
  refine ⟨min (min (max 1 (f.split i)) size) (f.contents.length - (offset + n)), by omega, by omega, by omega, ?_, ?_⟩
  · rw [read, ← List.length_drop, List.take_eq_take_iff]
    omega
  · rw [List.take_add, List.drop_drop, read]
    congr 1
    rw [List.take_eq_take_iff, List.length_drop]
    omega

/-- What a read gets goes on where the bytes read so far end. -/
theorem read_next (f : OpenFile) {n : Nat} (hn : n ≤ f.contents.length) (i size : Nat) (hsize : 0 < size) :
    (f.read i n size = [] → n = f.contents.length) ∧
      ∃ m, m ≤ f.contents.length ∧ (f.read i n size ≠ [] → n < m) ∧
        f.contents.take n ++ f.read i n size = f.contents.take m := by
  obtain ⟨k, -, hpos, hle, hread, happ⟩ := f.take_append_read i 0 n size (by omega)
  rw [Nat.zero_add, List.drop_zero] at *
  constructor
  · intro hnil
    by_contra hne
    have hk : 0 < k := hpos (by omega) hsize
    have hlen := congrArg List.length (hread.symm.trans hnil)
    rw [List.length_take, List.length_drop, List.length_nil] at hlen
    omega
  · refine ⟨n + k, by omega, fun hne => ?_, happ⟩
    have hk : k ≠ 0 := by
      rintro rfl
      exact hne hread
    omega

theorem fill_eq (f : OpenFile) {offset want : Nat} (hwant : want ≤ f.contents.length - offset) (fuel i n : Nat)
    (hn : n ≤ want) (hfuel : want - n ≤ fuel) :
    f.fill offset want fuel i ((f.contents.drop offset).take n) = (f.contents.drop offset).take want := by
  have hlen : ∀ m, m ≤ want → ((f.contents.drop offset).take m).length = m := by
    intro m hm
    rw [List.length_take, List.length_drop]
    omega
  induction fuel generalizing i n with
  | zero =>
    have : n = want := by omega
    rw [this, fill]
  | succ fuel ih =>
    rw [fill, hlen n hn]
    split
    · rename_i hlt
      obtain ⟨k, hk, hpos, -, hread, happ⟩ := f.take_append_read i offset n (want - n) (by omega)
      have hk0 : 0 < k := hpos (by omega) (by omega)
      split
      · rename_i hnil
        have : k = 0 := by
          have h := congrArg List.length (hread.symm.trans hnil)
          rw [List.length_take, List.length_drop, List.length_nil] at h
          omega
        omega
      · rw [happ]
        exact ih (i + 1) (n + k) (by omega) (by omega)
    · have : n = want := by omega
      rw [this]

/-- `C[offset .. min(offset + len, |C|)]`, whatever the reads return. -/
theorem readRange_eq (f : OpenFile) {offset : Nat} (len : Nat) (h : f.Seekable offset) :
    f.readRange offset len = .ok
      ((f.contents.take (min (offset + min len maxRangeBytes) f.contents.length)).drop offset,
        f.contents.length ≤ offset + ((f.contents.take (min (offset + min len maxRangeBytes) f.contents.length)).drop offset).length) := by
  have hdata : f.fill offset (min (min len maxRangeBytes) (f.contents.length - offset))
      (min (min len maxRangeBytes) (f.contents.length - offset)) 0 [] =
      (f.contents.take (min (offset + min len maxRangeBytes) f.contents.length)).drop offset := by
    have := f.fill_eq (Nat.min_le_right (min len maxRangeBytes) (f.contents.length - offset))
      (min (min len maxRangeBytes) (f.contents.length - offset)) 0 0 (Nat.zero_le _) (Nat.le_refl _)
    rw [List.take_zero] at this
    rw [this, List.drop_take, List.take_eq_take_iff, List.length_drop]
    omega
  have hoffset : offset < 2 ^ 63 := h.1
  unfold readRange
  rw [if_pos h]
  dsimp only
  rw [hdata]
  congr 3
  unfold satAdd
  rw [List.length_drop, List.length_take]
  have : min len maxRangeBytes ≤ maxRangeBytes := Nat.min_le_right _ _
  simp only [maxRangeBytes] at this ⊢
  exact propext (by omega)

end OpenFile

end Mobfs
