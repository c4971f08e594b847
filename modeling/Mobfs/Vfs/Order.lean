import Mathlib.Data.List.Sort
import Mobfs.Vfs.Places
/-!
# The order of overlapping writes

Uploads of overlapping ranges of a file run one after the other, in the order
they were registered. So the remote file gets overlapping writes in the order of
the calls if they are registered in that order: `MoveOk` asks that no chunk is
registered while an older write that it overlaps is still in another buffer or
in another thread's hands.

`Places.Ordered` has what follows: the remote contents, with the writes that
have not reached it applied in the order of the calls, are the original contents
with all writes applied in that order.
-/

namespace Mobfs

open Lib

/-! ## Writes and chunks -/

/-- The contents after a write. -/
def applyPart (c : Bytes) (p : Part) : Bytes := writeAt 0 c p.offset p.data

/-- The writes have a byte in common. -/
def Part.meets (p q : Part) : Prop :=
  max p.offset q.offset < min (p.offset + p.data.length) (q.offset + q.data.length)

instance (p q : Part) : Decidable (p.meets q) := inferInstanceAs (Decidable (_ < _))

theorem applyPart_comm {p q : Part} (h : ¬ p.meets q) (c : Bytes) :
    applyPart (applyPart c p) q = applyPart (applyPart c q) p := by
  unfold applyPart
  by_cases hp : p.data = []
  · simp [hp]
  by_cases hq : q.data = []
  · simp [hq]
  have hp' : 0 < p.data.length := List.length_pos_iff.2 hp
  have hq' : 0 < q.data.length := List.length_pos_iff.2 hq
  apply writeAt_comm
  unfold Part.meets at h
  omega

/-- Writing a chunk is writing its parts. -/
theorem foldl_applyPart_chained {offset : Nat} {ps : List Part} (h : Chained offset ps) (c : Bytes) :
    ps.foldl applyPart c = writeAt 0 c offset (partsData ps) := by
  induction ps generalizing offset c with
  | nil => simp [partsData]
  | cons p ps ih =>
    obtain ⟨rfl, h⟩ := h
    rw [List.foldl_cons, ih h, applyPart, writeAt_append]
    rfl

theorem Chained.bounds {offset : Nat} {ps : List Part} (h : Chained offset ps) {p : Part} (hp : p ∈ ps) :
    offset ≤ p.offset ∧ p.offset + p.data.length ≤ offset + (partsData ps).length := by
  induction ps generalizing offset with
  | nil => cases hp
  | cons q ps ih =>
    obtain ⟨rfl, h⟩ := h
    rw [partsData, List.flatMap_cons, List.length_append]
    rcases List.mem_cons.1 hp with rfl | hp
    · omega
    · have hb := ih h hp
      rw [partsData] at hb
      omega

theorem Chained.not_meets {offset : Nat} {ps : List Part} (h : Chained offset ps) :
    ps.Pairwise fun p q => ¬ p.meets q := by
  induction ps generalizing offset with
  | nil => exact .nil
  | cons p ps ih =>
    obtain ⟨rfl, h⟩ := h
    refine List.pairwise_cons.2 ⟨?_, ih h⟩
    intro q hq
    have hb := h.bounds hq
    unfold Part.meets
    omega

/-- What holds of any two parts of a list holds of an older and a newer one. -/
theorem pairwise_older {R : Part → Part → Prop} {ps : List Part} (hs : ps.Pairwise (·.id < ·.id))
    (hR : ps.Pairwise R) {p q : Part} (hp : p ∈ ps) (hq : q ∈ ps) (hlt : p.id < q.id) : R p q := by
  induction ps with
  | nil => cases hp
  | cons r ps ih =>
    obtain ⟨hs1, hs2⟩ := List.pairwise_cons.1 hs
    obtain ⟨hR1, hR2⟩ := List.pairwise_cons.1 hR
    rcases List.mem_cons.1 hp with rfl | hp'
    · rcases List.mem_cons.1 hq with rfl | hq'
      · omega
      · exact hR1 q hq'
    · rcases List.mem_cons.1 hq with rfl | hq'
      · have hgt := hs1 p hp'
        omega
      · exact ih hs2 hR2 hp' hq'

/-- Chunks with parts that meet are found to overlap. -/
theorem overlaps_of_meets {c c' : Pending} {p q : Part} (hp : p ∈ c.parts) (hq : q ∈ c'.parts) (h : p.meets q) :
    overlaps c.offset c.data.length c'.offset c'.data.length = true := by
  have hb := c.chained.bounds hp
  have hb' := c'.chained.bounds hq
  unfold Part.meets at h
  have h1 : c.offset < c'.offset + (partsData c'.parts).length := by omega
  have h2 : c'.offset < c.offset + (partsData c.parts).length := by omega
  simp [overlaps, Pending.data, h1, h2]

/-! ## The invariant -/

namespace Places

def writtenTo (v : Places) (path : String) : List Part := v.written.filter (·.path = path)

/-- The writes to a path that have not reached the remote. -/
def unapplied (v : Places) (path : String) : List Part :=
  v.written.filter fun p => p.path = path && v.place p.id ≠ .applied

/-- The chunk is in a buffer, in a thread's hands or in an upload. -/
def HasChunk (v : Places) (c : Pending) : Prop :=
  (∃ fh, v.buf fh = some c) ∨ (∃ t fh, v.hold t = some (fh, c)) ∨ ∃ u ∈ v.fly, u.pending = c

/-- All parts of the chunk are writes to its file, the oldest first. -/
structure ChunkOk (inodes : Nat → Option String) (c : Pending) : Prop where
  path : inodes c.ino = some c.path
  parts : ∀ p ∈ c.parts, p.path = c.path
  sorted : c.parts.Pairwise (·.id < ·.id)

structure Ordered (inodes : Nat → Option String) (orig : String → Bytes) (v : Places) : Prop where
  inv : v.Inv
  chunks : ∀ c, v.HasChunk c → ChunkOk inodes c
  /-- No upload has failed. -/
  kept : ∀ p ∈ v.written, v.place p.id ≠ .lost
  states : ∀ u ∈ v.fly, u.state = .queued ∨ u.state = .written
  /-- What overlaps an upload and is older is on the remote. -/
  order : ∀ u ∈ v.fly, ∀ q ∈ u.pending.parts, ∀ p ∈ v.written, p.path = q.path → p.id < q.id → p.meets q →
    v.place p.id = .applied
  contents : ∀ path, (v.unapplied path).foldl applyPart (v.remote path) =
    (v.writtenTo path).foldl applyPart (orig path)

/-- What the moves of the threads must satisfy. -/
def MoveOk (inodes : Nat → Option String) (v : Places) : Move → Prop
  | .accept ino p => inodes ino = some p.path
  | .extend ino p => inodes ino = some p.path
  | .resolve t path => ∀ fh c, v.hold t = some (fh, c) → path = (inodes c.ino).getD c.path
  | .register t => ∀ fh c, v.hold t = some (fh, c) → ∀ q ∈ c.parts, ∀ p ∈ v.written, p.path = q.path → p.id < q.id →
      p.meets q → v.place p.id ≠ .buffered ∧ ∀ t' ≠ t, v.place p.id ≠ .held t'
  | .fail .. => False
  | _ => True

variable {v v' : Places} {inodes : Nat → Option String} {orig : String → Bytes}

theorem Inv.written_sorted (h : v.Inv) : v.written.Pairwise (·.id < ·.id) := by
  rw [List.pairwise_iff_getElem]
  intro i j hi hj hij
  rw [h.ids i _ (List.getElem?_eq_getElem hi), h.ids j _ (List.getElem?_eq_getElem hj)]
  exact hij

/-- A move that leaves the remote, the writes and what has reached the remote. -/
theorem Ordered.contents_congr (h : v.Ordered inodes orig) (hw : v'.written = v.written) (hr : v'.remote = v.remote)
    (hp : ∀ p ∈ v.written, v'.place p.id = .applied ↔ v.place p.id = .applied) (path : String) :
    (v'.unapplied path).foldl applyPart (v'.remote path) = (v'.writtenTo path).foldl applyPart (orig path) := by
  have hun : v'.unapplied path = v.unapplied path := by
    rw [unapplied, unapplied, hw]
    apply List.filter_congr
    intro p hm
    simp only [hp p hm, ne_eq]
  rw [hun, hr, writtenTo, hw]
  exact h.contents path

/-- A new write is the last to be applied. -/
theorem contents_add (h : v.Ordered inodes orig) {p : Part} (hid : p.id = v.written.length) (buf : Nat → Option Pending)
    (path : String) :
    (({ v with buf := buf, written := v.written ++ [p], place := v.move [p] .buffered } : Places).unapplied path).foldl
        applyPart (v.remote path) =
      ((v.written ++ [p]).filter (·.path = path)).foldl applyPart (orig path) := by
  have hold : (v.written.filter fun q => q.path = path && v.move [p] .buffered q.id ≠ .applied) = v.unapplied path := by
    apply List.filter_congr
    intro q hq
    have hlt := h.inv.id_lt hq
    have hne : q.id ≠ p.id := by omega
    simp [move, hne]
  have hself : v.move [p] .buffered p.id = .buffered := by simp [move]
  have hc := h.contents path
  simp only [unapplied, writtenTo, List.filter_append, List.foldl_append] at hold hc ⊢
  rw [hold, hc]
  by_cases hp : p.path = path
  · simp [hp, hself]
  · simp [hp]

theorem Ordered.add (h : v.Ordered inodes orig) {p : Part} {c : Pending} (hid : p.id = v.written.length)
    (hok : ChunkOk inodes c) (hc : c.parts = ((v.buf p.fh).elim [] (·.parts)) ++ [p]) :
    Ordered inodes orig { v with buf := Function.update v.buf p.fh (some c), written := v.written ++ [p],
                                 place := v.move [p] .buffered } := by
  have hmove : ∀ q ∈ v.written, v.move [p] .buffered q.id = v.place q.id := by
    intro q hq
    have hlt := h.inv.id_lt hq
    have hne : q.id ≠ p.id := by omega
    simp [move, hne]
  refine ⟨h.inv.add hid hc, ?_, ?_, h.states, ?_, fun path => contents_add h hid _ path⟩
  · rintro c' (⟨fh, hb⟩ | hhold | hfly)
    · by_cases hfh : fh = p.fh
      · subst hfh
        simp only [Function.update_self, Option.some.injEq] at hb
        exact hb ▸ hok
      · simp only [Function.update_of_ne hfh] at hb
        exact h.chunks c' (.inl ⟨fh, hb⟩)
    · exact h.chunks c' (.inr (.inl hhold))
    · exact h.chunks c' (.inr (.inr hfly))
  · intro q hq
    rcases List.mem_append.1 hq with hq | hq
    · simpa only [hmove q hq] using h.kept q hq
    · rw [List.mem_singleton.1 hq]
      simp [move]
  · intro u hu q hq r hr hpath hlt hmeets
    have hqw := (h.inv.fly u hu q hq).1
    rcases List.mem_append.1 hr with hr | hr
    · simpa only [hmove r hr] using h.order u hu q hq r hr hpath hlt hmeets
    · -- The new write is not older than anything.
      have hlt' := h.inv.id_lt hqw
      rw [List.mem_singleton.1 hr] at hlt
      omega

theorem Ordered.take (h : v.Ordered inodes orig) {t fh : Nat} (hs : v.step (.take t fh) = some v') :
    v'.Ordered inodes orig := by
  have hinv := h.inv.take hs
  simp only [step] at hs
  split at hs
  case h_2 => cases hs
  case h_1 c hb hh =>
  cases hs
  have hmove : ∀ q ∈ v.written, v.move c.parts (.held t) q.id = if q ∈ c.parts then .held t else v.place q.id :=
    fun q hq => h.inv.move_eq _ (fun r hr => (h.inv.buf fh c hb r hr).1) hq
  have happ : ∀ q ∈ v.written, v.move c.parts (.held t) q.id = .applied ↔ v.place q.id = .applied := by
    intro q hq
    rw [hmove q hq]
    split
    · simp [(h.inv.buf fh c hb q ‹_›).2.2]
    · rfl
  refine ⟨hinv, ?_, ?_, h.states, ?_, h.contents_congr rfl rfl happ⟩
  · rintro c' (⟨fh', hb'⟩ | ⟨t', fh', hh'⟩ | hfly)
    · by_cases hfh : fh' = fh
      · simp [hfh] at hb'
      · simp only [Function.update_of_ne hfh] at hb'
        exact h.chunks c' (.inl ⟨fh', hb'⟩)
    · by_cases ht : t' = t
      · simp only [ht, Function.update_self, Option.some.injEq, Prod.mk.injEq] at hh'
        exact hh'.2 ▸ h.chunks c (.inl ⟨fh, hb⟩)
      · simp only [Function.update_of_ne ht] at hh'
        exact h.chunks c' (.inr (.inl ⟨t', fh', hh'⟩))
    · exact h.chunks c' (.inr (.inr hfly))
  · intro q hq
    simp only [hmove q hq]
    split
    · simp
    · exact h.kept q hq
  · intro u hu q hq p hp hpath hlt hmeets
    exact (happ p hp).2 (h.order u hu q hq p hp hpath hlt hmeets)

/-- A chunk that may be registered: all older writes it overlaps are on the remote. -/
theorem Ordered.older_applied (h : v.Ordered inodes orig) {t fh : Nat} {c : Pending} (hh : v.hold t = some (fh, c))
    (hok : MoveOk inodes v (.register t)) (hno : v.overlapping c = false) :
    ∀ q ∈ c.parts, ∀ p ∈ v.written, p.path = q.path → p.id < q.id → p.meets q → v.place p.id = .applied := by
  intro q hq p hp hpath hlt hmeets
  obtain ⟨hnb, hnh⟩ := hok fh c hh q hq p hp hpath hlt hmeets
  have hcok := h.chunks c (.inr (.inl ⟨t, fh, hh⟩))
  have hl := h.inv.located p hp
  cases hpl : v.place p.id with
  | buffered => exact absurd hpl hnb
  | held t' =>
    by_cases ht : t' = t
    · -- Parts of one chunk do not meet.
      rw [hpl, ht] at hl
      obtain ⟨c', hc', hpc⟩ := hl
      rw [hh] at hc'
      obtain ⟨-, rfl⟩ := Prod.mk.inj (Option.some.inj hc')
      exact absurd hmeets (pairwise_older hcok.sorted c.chained.not_meets hpc hq hlt)
    · exact absurd hpl (hnh t' ht)
  | flying id =>
    rw [hpl] at hl
    obtain ⟨u, hu, -, -, hpu⟩ := hl
    have huok := h.chunks u.pending (.inr (.inr ⟨u, hu, rfl⟩))
    have hsame : u.pending.path = c.path := by rw [← huok.parts p hpu, hpath, hcok.parts q hq]
    -- An upload in flight that it meets would keep the chunk waiting.
    rw [overlapping, List.any_eq_false] at hno
    exact absurd (by simp [hsame, overlaps_of_meets hpu hq hmeets]) (hno u hu)
  | applied => rfl
  | lost => exact absurd hpl (h.kept p hp)

theorem Ordered.register (h : v.Ordered inodes orig) {t : Nat} (hok : MoveOk inodes v (.register t))
    (hs : v.step (.register t) = some v') : v'.Ordered inodes orig := by
  have hinv := h.inv.register hs
  simp only [step] at hs
  split at hs
  case h_1 => cases hs
  case h_2 fh c hh =>
  split at hs
  case isTrue => cases hs
  case isFalse hno =>
  cases hs
  have hmove : ∀ q ∈ v.written, v.move c.parts (.flying (v.next + 1)) q.id =
      if q ∈ c.parts then .flying (v.next + 1) else v.place q.id :=
    fun q hq => h.inv.move_eq _ (fun r hr => (h.inv.hold t fh c hh r hr).1) hq
  have happ : ∀ q ∈ v.written, v.move c.parts (.flying (v.next + 1)) q.id = .applied ↔ v.place q.id = .applied := by
    intro q hq
    rw [hmove q hq]
    split
    · simp [(h.inv.hold t fh c hh q ‹_›).2.2]
    · rfl
  refine ⟨hinv, ?_, ?_, ?_, ?_, h.contents_congr rfl rfl happ⟩
  · rintro c' (hbuf | ⟨t', fh', hh'⟩ | ⟨u, hu, rfl⟩)
    · exact h.chunks c' (.inl hbuf)
    · by_cases ht : t' = t
      · simp [ht] at hh'
      · simp only [Function.update_of_ne ht] at hh'
        exact h.chunks c' (.inr (.inl ⟨t', fh', hh'⟩))
    · rcases List.mem_append.1 hu with hu | hu
      · exact h.chunks _ (.inr (.inr ⟨u, hu, rfl⟩))
      · rw [List.mem_singleton.1 hu]
        exact h.chunks c (.inr (.inl ⟨t, fh, hh⟩))
  · intro q hq
    simp only [hmove q hq]
    split
    · simp
    · exact h.kept q hq
  · intro u hu
    rcases List.mem_append.1 hu with hu | hu
    · exact h.states u hu
    · rw [List.mem_singleton.1 hu]
      exact .inl rfl
  · intro u hu q hq p hp hpath hlt hmeets
    refine (happ p hp).2 ?_
    rcases List.mem_append.1 hu with hu | hu
    · exact h.order u hu q hq p hp hpath hlt hmeets
    · rw [List.mem_singleton.1 hu] at hq
      exact h.older_applied hh hok (by simpa using hno) q hq p hp hpath hlt hmeets

/-- The writes to the file of an upload that have not reached the remote: those
of the upload may be applied first. -/
theorem Ordered.contents_upload (h : v.Ordered inodes orig) {u : Upload} (hu : u ∈ v.fly) (hq : u.state = .queued) :
    ((v.unapplied u.pending.path).filter fun p => !decide (p ∈ u.pending.parts)).foldl applyPart
        (writeAt 0 (v.remote u.pending.path) u.pending.offset u.pending.data) =
      (v.writtenTo u.pending.path).foldl applyPart (orig u.pending.path) := by
  have huok := h.chunks u.pending (.inr (.inr ⟨u, hu, rfl⟩))
  have hfly : ∀ p ∈ u.pending.parts, p ∈ v.written ∧ v.place p.id = .flying u.id := by
    intro p hp
    obtain ⟨hw, -, hpl⟩ := h.inv.fly u hu p hp
    exact ⟨hw, by simpa [Upload.place, hq] using hpl⟩
  have hsorted : (v.unapplied u.pending.path).Pairwise (·.id < ·.id) := h.inv.written_sorted.filter _
  have hsame : (v.unapplied u.pending.path).filter (fun p => decide (p ∈ u.pending.parts)) = u.pending.parts := by
    have hirr : Std.Irrefl fun p q : Part => p.id < q.id := ⟨fun _ => Nat.lt_irrefl _⟩
    have hanti : Std.Antisymm fun p q : Part => p.id < q.id := ⟨fun _ _ h h' => absurd h (Nat.lt_asymm h')⟩
    refine (hsorted.filter _).eq_of_mem_iff huok.sorted fun p => ?_
    simp only [unapplied, List.mem_filter, decide_eq_true_eq, Bool.and_eq_true]
    constructor
    · exact fun hp => hp.2
    · intro hp
      exact ⟨⟨(hfly p hp).1, huok.parts p hp, by simp [(hfly p hp).2]⟩, hp⟩
  -- An older write that is not applied does not meet the upload, by `order`.
  have hcomm : (v.unapplied u.pending.path).Pairwise fun x y => decide (x ∈ u.pending.parts) = false →
      decide (y ∈ u.pending.parts) = true → ∀ b, applyPart (applyPart b x) y = applyPart (applyPart b y) x := by
    refine hsorted.imp_of_mem ?_
    intro x y hx hy hlt _ hy' b
    simp only [decide_eq_true_eq] at hy'
    apply applyPart_comm
    intro hmeets
    simp only [unapplied, List.mem_filter, Bool.and_eq_true, decide_eq_true_eq] at hx
    obtain ⟨hxw, hxp, hxa⟩ := hx
    exact hxa (h.order u hu y hy' x hxw (hxp.trans (huok.parts y hy').symm) hlt hmeets)
  have hpart := foldl_partition applyPart (fun p => decide (p ∈ u.pending.parts)) (v.unapplied u.pending.path)
    (v.remote u.pending.path) hcomm
  rw [hsame, foldl_applyPart_chained u.pending.chained] at hpart
  exact hpart.trans (h.contents u.pending.path)

theorem Ordered.upload (h : v.Ordered inodes orig) {id : Nat} (hs : v.step (.upload id) = some v') :
    v'.Ordered inodes orig := by
  have hinv := h.inv.upload hs
  simp only [step] at hs
  split at hs
  · cases hs
  rename_i u hf
  split at hs
  case isFalse => cases hs
  case isTrue hq =>
  cases hs
  obtain ⟨hu, hid, -⟩ := h.inv.find_eq hf
  have huok := h.chunks u.pending (.inr (.inr ⟨u, hu, rfl⟩))
  have hmove : ∀ q ∈ v.written, v.move u.pending.parts .applied q.id =
      if q ∈ u.pending.parts then .applied else v.place q.id :=
    fun q hq => h.inv.move_eq _ (fun r hr => (h.inv.fly u hu r hr).1) hq
  have hgrow : ∀ q ∈ v.written, v.place q.id = .applied → v.move u.pending.parts .applied q.id = .applied := by
    intro q hq hpl
    rw [hmove q hq]
    split
    · rfl
    · exact hpl
  have hmem : ∀ w ∈ v.setState id .written, ∃ x ∈ v.fly, w.pending = x.pending ∧
      (w.state = x.state ∨ w.state = .written) := by
    intro w hw
    obtain ⟨x, hx, rfl⟩ := mem_setState.1 hw
    refine ⟨x, hx, ?_⟩
    split
    · exact ⟨rfl, .inr rfl⟩
    · exact ⟨rfl, .inl rfl⟩
  refine ⟨hinv, ?_, ?_, ?_, ?_, ?_⟩
  · rintro c (hbuf | hhold | ⟨w, hw, rfl⟩)
    · exact h.chunks c (.inl hbuf)
    · exact h.chunks c (.inr (.inl hhold))
    · obtain ⟨x, hx, hxp, -⟩ := hmem w hw
      rw [hxp]
      exact h.chunks _ (.inr (.inr ⟨x, hx, rfl⟩))
  · intro q hq
    simp only [hmove q hq]
    split
    · simp
    · exact h.kept q hq
  · intro w hw
    obtain ⟨x, hx, -, hst | hst⟩ := hmem w hw
    · rw [hst]
      exact h.states x hx
    · exact .inr hst
  · intro w hw q hq p hp hpath hlt hmeets
    obtain ⟨x, hx, hxp, -⟩ := hmem w hw
    rw [hxp] at hq
    exact hgrow p hp (h.order x hx q hq p hp hpath hlt hmeets)
  · intro path
    have hun : ({ v with remote := v.writeRemote u.pending u.pending.data, uploaded := v.uploaded ++ [u.pending],
                         fly := v.setState id .written, place := v.move u.pending.parts .applied } : Places).unapplied
        path = (v.unapplied path).filter fun p => !decide (p ∈ u.pending.parts) := by
      simp only [unapplied, List.filter_filter]
      apply List.filter_congr
      intro q hq
      simp only [hmove q hq]
      by_cases hm : q ∈ u.pending.parts <;> simp [hm]
    rw [hun]
    by_cases hpath : path = u.pending.path
    · subst hpath
      simp only [writeRemote, Function.update_self]
      exact h.contents_upload hu hq
    · simp only [writeRemote, Function.update_of_ne hpath]
      have hother : (v.unapplied path).filter (fun p => !decide (p ∈ u.pending.parts)) = v.unapplied path := by
        rw [List.filter_eq_self]
        intro q hq
        simp only [unapplied, List.mem_filter, Bool.and_eq_true, decide_eq_true_eq] at hq
        have hnot : q ∉ u.pending.parts := fun hm => hpath (hq.2.1.symm.trans (huok.parts q hm))
        simp [hnot]
      rw [hother]
      exact h.contents path

theorem Ordered.complete (h : v.Ordered inodes orig) {id : Nat} (hs : v.step (.complete id) = some v') :
    v'.Ordered inodes orig := by
  have hinv := h.inv.complete hs
  simp only [step] at hs
  split at hs
  · cases hs
  · rename_i u hf
    obtain ⟨hu, -, -⟩ := h.inv.find_eq hf
    split at hs
    · cases hs
    · cases hs
      refine ⟨hinv, ?_, h.kept, fun w hw => h.states w (List.mem_filter.1 hw).1,
        fun w hw => h.order w (List.mem_filter.1 hw).1, h.contents⟩
      rintro c (hbuf | hhold | ⟨w, hw, rfl⟩)
      · exact h.chunks c (.inl hbuf)
      · exact h.chunks c (.inr (.inl hhold))
      · exact h.chunks _ (.inr (.inr ⟨w, (List.mem_filter.1 hw).1, rfl⟩))
    · rename_i e hst
      rcases h.states u hu with hq | hq <;> rw [hst] at hq <;> cases hq

theorem Ordered.resolve (h : v.Ordered inodes orig) {t : Nat} {path : String}
    (hok : MoveOk inodes v (.resolve t path)) (hs : v.step (.resolve t path) = some v') :
    v'.Ordered inodes orig := by
  have hinv := step_inv h.inv hs
  simp only [step] at hs
  split at hs
  · cases hs
  · rename_i fh c hh
    cases hs
    refine ⟨hinv, ?_, h.kept, h.states, h.order, h.contents⟩
    have hc := h.chunks c (.inr (.inl ⟨t, fh, hh⟩))
    have hpath : path = c.path := by rw [hok fh c hh, hc.path, Option.getD_some]
    rintro c' (hbuf | ⟨t', fh', hh'⟩ | hfly)
    · exact h.chunks c' (.inl hbuf)
    · by_cases ht : t' = t
      · simp only [ht, Function.update_self, Option.some.injEq, Prod.mk.injEq] at hh'
        rw [← hh'.2, hpath]
        exact hc
      · simp only [Function.update_of_ne ht] at hh'
        exact h.chunks c' (.inr (.inl ⟨t', fh', hh'⟩))
    · exact h.chunks c' (.inr (.inr hfly))

theorem Ordered.extend (h : v.Ordered inodes orig) {ino : Nat} {p : Part} (hok : MoveOk inodes v (.extend ino p))
    (hs : v.step (.extend ino p) = some v') : v'.Ordered inodes orig := by
  simp only [step] at hs
  split at hs
  · cases hs
  · rename_i c hb
    split at hs
    · rename_i ho
      split at hs
      · rename_i hc
        cases hs
        obtain ⟨rfl, hid⟩ := hc
        have hcok := h.chunks c (.inl ⟨p.fh, hb⟩)
        have hpath : p.path = c.path := Option.some.inj (hok.symm.trans hcok.path)
        refine h.add hid ⟨hcok.path, ?_, ?_⟩ (by simp [hb, Pending.extend])
        · intro q hq
          rcases List.mem_append.1 hq with hq | hq
          · exact hcok.parts q hq
          · rw [List.mem_singleton.1 hq]
            exact hpath
        · refine List.pairwise_append.2 ⟨hcok.sorted, List.pairwise_singleton _ _, ?_⟩
          intro q hq r hr
          have hlt := h.inv.id_lt (h.inv.buf p.fh c hb q hq).1
          rw [List.mem_singleton.1 hr]
          omega
      · cases hs
    · cases hs

/-- Every move that is in order keeps the invariant. -/
theorem step_ordered (h : v.Ordered inodes orig) {m : Move} (hok : MoveOk inodes v m) (hs : v.step m = some v') :
    v'.Ordered inodes orig := by
  cases m with
  | takeError fh =>
    have hinv := step_inv h.inv hs
    cases hs
    exact ⟨hinv, h.chunks, h.kept, h.states, h.order, h.contents⟩
  | accept ino p =>
    simp only [step] at hs
    split at hs
    · rename_i hc
      cases hs
      refine h.add hc.2 ⟨hok, ?_, List.pairwise_singleton _ _⟩ (by simp [hc.1, Pending.single])
      simp [Pending.single]
    · cases hs
  | extend ino p => exact h.extend hok hs
  | take t fh => exact h.take hs
  | resolve t path => exact h.resolve hok hs
  | register t => exact h.register hok hs
  | upload id => exact h.upload hs
  | fail id e n => exact hok.elim
  | complete id => exact h.complete hs

end Places

end Mobfs
