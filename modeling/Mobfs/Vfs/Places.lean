import Mathlib.Data.List.Pairwise
import Mobfs.Vfs.WriteBack
/-!
# Where written data is

`Places` is what is left of the write-back state without its threads: which
data is in a buffer, in the hands of a thread, in an upload, on the remote or
lost. `Places.step` are the moves between these. Every written part is in the
one place `place` says (`Places.Inv`), and moves only forward
(`Places.step_forward`). What the threads do is a list of moves
(`Mobfs.Vfs.Threads`).
-/

namespace Mobfs

open Lib Std

/-- The place of the data of an upload. -/
def Upload.place (u : Upload) : Place := if u.state = .written then .applied else .flying u.id

structure Places where
  buf : Nat → Option Pending
  hold : Nat → Option (Nat × Pending)
  fly : List Upload
  next : Nat
  errors : Nat → Option Errno
  taken : List Nat
  remote : String → Bytes
  written : List Part
  uploaded : List Pending
  place : Nat → Place

/-- A move of data. -/
inductive Move where
  | takeError (fh : Nat)
  | accept (ino : Nat) (p : Part)
  | extend (ino : Nat) (p : Part)
  | take (t fh : Nat)
  | resolve (t : Nat) (path : String)
  | register (t : Nat)
  | upload (id : Nat)
  | fail (id : Nat) (e : Errno) (bytes : Nat)
  | complete (id : Nat)

namespace Places

def move (v : Places) (parts : List Part) (dest : Place) : Nat → Place :=
  fun id => if id ∈ parts.map (·.id) then dest else v.place id

def overlapping (v : Places) (c : Pending) : Bool :=
  v.fly.any fun u => u.pending.path = c.path &&
    overlaps u.pending.offset u.pending.data.length c.offset c.data.length

def setState (v : Places) (id : Nat) (state : UploadState) : List Upload :=
  v.fly.map fun u => if u.id = id then { u with state } else u

def writeRemote (v : Places) (c : Pending) (data : Bytes) : String → Bytes :=
  Function.update v.remote c.path (writeAt 0 (v.remote c.path) c.offset data)

def step (v : Places) : Move → Option Places
  | .takeError fh => some { v with errors := Function.update v.errors fh none, taken := fh :: v.taken }
  | .accept ino p =>
    if v.buf p.fh = none ∧ p.id = v.written.length then
      some { v with buf := Function.update v.buf p.fh (some (.single ino p)), written := v.written ++ [p],
                    place := v.move [p] .buffered }
    else none
  | .extend ino p =>
    match v.buf p.fh with
    | none => none
    | some c =>
      if h : p.offset = c.offset + c.data.length then
        if c.ino = ino ∧ p.id = v.written.length then
          some { v with buf := Function.update v.buf p.fh (some (c.extend p h)), written := v.written ++ [p],
                        place := v.move [p] .buffered }
        else none
      else none
  | .take t fh =>
    match v.buf fh, v.hold t with
    | some c, none =>
      some { v with buf := Function.update v.buf fh none, hold := Function.update v.hold t (some (fh, c)),
                    place := v.move c.parts (.held t) }
    | _, _ => none
  | .resolve t path =>
    match v.hold t with
    | none => none
    | some (fh, c) => some { v with hold := Function.update v.hold t (some (fh, { c with path })) }
  | .register t =>
    match v.hold t with
    | none => none
    | some (fh, c) =>
      if v.overlapping c then none
      else some { v with hold := Function.update v.hold t none, next := v.next + 1,
                         fly := v.fly ++ [⟨v.next + 1, fh, c, .queued⟩],
                         place := v.move c.parts (.flying (v.next + 1)) }
  | .upload id =>
    match v.fly.find? (·.id = id) with
    | none => none
    | some u =>
      if u.state = .queued then
        some { v with remote := v.writeRemote u.pending u.pending.data, uploaded := v.uploaded ++ [u.pending],
                      fly := v.setState id .written, place := v.move u.pending.parts .applied }
      else none
  | .fail id e n =>
    match v.fly.find? (·.id = id) with
    | none => none
    | some u =>
      if u.state = .queued then
        some { v with remote := v.writeRemote u.pending (u.pending.data.take n), fly := v.setState id (.failed e) }
      else none
  | .complete id =>
    match v.fly.find? (·.id = id) with
    | none => none
    | some u =>
      match u.state with
      | .queued => none
      | .written => some { v with fly := v.fly.filter (·.id ≠ id) }
      | .failed e => some { v with fly := v.fly.filter (·.id ≠ id), errors := Function.update v.errors u.fh (some e),
                                   place := v.move u.pending.parts .lost }

/-! ## Every part is where `place` says -/

/-- The part is found at the place. -/
def Located (v : Places) (p : Part) : Place → Prop
  | .buffered => ∃ c, v.buf p.fh = some c ∧ p ∈ c.parts
  | .held t => ∃ c, v.hold t = some (p.fh, c) ∧ p ∈ c.parts
  | .flying id => ∃ u ∈ v.fly, u.id = id ∧ u.fh = p.fh ∧ p ∈ u.pending.parts
  | .applied => ∃ c ∈ v.uploaded, p ∈ c.parts
  | .lost => v.errors p.fh ≠ none ∨ p.fh ∈ v.taken

structure Inv (v : Places) : Prop where
  ids : ∀ i (p : Part), v.written[i]? = some p → p.id = i
  buf : ∀ fh c, v.buf fh = some c → ∀ p ∈ c.parts, p ∈ v.written ∧ p.fh = fh ∧ v.place p.id = .buffered
  hold : ∀ t fh c, v.hold t = some (fh, c) → ∀ p ∈ c.parts,
    p ∈ v.written ∧ p.fh = fh ∧ v.place p.id = .held t
  fly : ∀ u ∈ v.fly, ∀ p ∈ u.pending.parts, p ∈ v.written ∧ p.fh = u.fh ∧ v.place p.id = u.place
  flyIds : v.fly.Pairwise (·.id ≠ ·.id)
  flyNext : ∀ u ∈ v.fly, u.id ≤ v.next
  located : ∀ p ∈ v.written, v.Located p (v.place p.id)

variable {v v' : Places}

theorem Inv.eq_of_id (h : v.Inv) {p q : Part} (hp : p ∈ v.written) (hq : q ∈ v.written) (he : p.id = q.id) :
    p = q := by
  obtain ⟨i, hi⟩ := List.mem_iff_getElem?.1 hp
  obtain ⟨j, hj⟩ := List.mem_iff_getElem?.1 hq
  have hij : i = j := by rw [← h.ids i p hi, ← h.ids j q hj, he]
  subst hij
  exact Option.some.inj (hi.symm.trans hj)

theorem Inv.id_lt (h : v.Inv) {p : Part} (hp : p ∈ v.written) : p.id < v.written.length := by
  obtain ⟨i, hi⟩ := List.mem_iff_getElem?.1 hp
  rw [h.ids i p hi]
  exact (List.getElem?_eq_some_iff.1 hi).1

/-- The place of a part after some parts have been moved. -/
theorem Inv.move_eq (h : v.Inv) {parts : List Part} (dest : Place) (hsub : ∀ q ∈ parts, q ∈ v.written)
    {p : Part} (hp : p ∈ v.written) : v.move parts dest p.id = if p ∈ parts then dest else v.place p.id := by
  have hiff : p.id ∈ parts.map (·.id) ↔ p ∈ parts := by
    constructor
    · intro hm
      obtain ⟨q, hq, he⟩ := List.mem_map.1 hm
      exact h.eq_of_id hp (hsub q hq) he.symm ▸ hq
    · exact fun hm => List.mem_map.2 ⟨p, hm, rfl⟩
  simp only [move, hiff]

theorem Inv.take (h : v.Inv) {t fh : Nat} (hs : v.step (.take t fh) = some v') : v'.Inv := by
  simp only [step] at hs
  split at hs
  case h_2 => cases hs
  case h_1 c hb hh =>
  cases hs
  have hsub : ∀ q ∈ c.parts, q ∈ v.written := fun q hq => (h.buf fh c hb q hq).1
  have hmove := fun {p : Part} (hp : p ∈ v.written) => h.move_eq (.held t) hsub hp
  refine ⟨h.ids, ?_, ?_, ?_, h.flyIds, h.flyNext, ?_⟩
  · intro fh' c' hb' p hp
    grind [h.buf]
  · intro t' fh' c' hh' p hp
    grind [h.buf, h.hold]
  · intro u hu p hp
    grind [h.buf, h.fly, Upload.place]
  · intro p hp
    have hl := h.located p hp
    simp only [hmove hp]
    split
    · grind [h.buf, Located]
    · cases hpl : v.place p.id <;> simp only [hpl, Located] at hl ⊢ <;> grind

/-- A new part goes into the buffer of its handle, after those that are there. -/
theorem Inv.add (h : v.Inv) {p : Part} {c : Pending} (hid : p.id = v.written.length)
    (hc : c.parts = ((v.buf p.fh).elim [] (·.parts)) ++ [p]) :
    Inv { v with buf := Function.update v.buf p.fh (some c), written := v.written ++ [p],
                 place := v.move [p] .buffered } := by
  have hmove : ∀ q ∈ v.written, v.move [p] .buffered q.id = v.place q.id := by
    intro q hq
    have hlt := h.id_lt hq
    have hne : q.id ≠ p.id := by omega
    simp [move, hne]
  have hself : v.move [p] .buffered p.id = .buffered := by simp [move]
  have hold : ∀ q ∈ (v.buf p.fh).elim [] (·.parts), q ∈ v.written ∧ q.fh = p.fh ∧ v.place q.id = .buffered := by
    cases hb : v.buf p.fh with
    | none => simp
    | some c' => exact h.buf p.fh c' hb
  refine ⟨?_, ?_, ?_, ?_, h.flyIds, h.flyNext, ?_⟩
  · intro i q hq
    rw [List.getElem?_append] at hq
    split at hq
    · exact h.ids i q hq
    · obtain ⟨hi, rfl⟩ := List.getElem?_eq_some_iff.1 hq
      simp only [List.length_singleton] at hi
      simp only [List.getElem_singleton]
      omega
  · intro fh c' hb' q hq
    grind [h.buf]
  · intro t fh c' hh q hq
    grind [h.hold]
  · intro u hu q hq
    grind [h.fly]
  · intro q hq
    rcases List.mem_append.1 hq with hq | hq
    · have hl := h.located q hq
      simp only [hmove q hq]
      cases hpl : v.place q.id <;> simp only [hpl, Located] at hl ⊢ <;> grind
    · obtain rfl := List.mem_singleton.1 hq
      simp only [hself, Located]
      exact ⟨_, Function.update_self .., by simp [hc]⟩

theorem Inv.register (h : v.Inv) {t : Nat} (hs : v.step (.register t) = some v') : v'.Inv := by
  simp only [step] at hs
  split at hs
  case h_1 => cases hs
  case h_2 fh c hh =>
  split at hs
  case isTrue => cases hs
  case isFalse =>
  cases hs
  have hsub : ∀ q ∈ c.parts, q ∈ v.written := fun q hq => (h.hold t fh c hh q hq).1
  have hheld : ∀ q ∈ c.parts, q.fh = fh ∧ v.place q.id = .held t := fun q hq => (h.hold t fh c hh q hq).2
  have hmove := fun {p : Part} (hp : p ∈ v.written) => h.move_eq (.flying (v.next + 1)) hsub hp
  refine ⟨h.ids, ?_, ?_, ?_, ?_, ?_, ?_⟩
  · intro fh' c' hb' p hp
    grind [h.buf, h.hold]
  · intro t' fh' c' hh' p hp
    grind [h.hold]
  · intro u hu p hp
    rcases List.mem_append.1 hu with hu | hu
    · grind [h.hold, h.fly, Upload.place]
    · obtain rfl := List.mem_singleton.1 hu
      grind [h.hold, Upload.place]
  · rw [List.pairwise_append]
    refine ⟨h.flyIds, List.pairwise_singleton _ _, ?_⟩
    intro u hu u' hu'
    have hle := h.flyNext u hu
    obtain rfl := List.mem_singleton.1 hu'
    simp only
    omega
  · intro u hu
    rcases List.mem_append.1 hu with hu | hu
    · have hle := h.flyNext u hu
      simp only
      omega
    · obtain rfl := List.mem_singleton.1 hu
      exact Nat.le_refl _
  · intro p hp
    have hl := h.located p hp
    simp only [hmove hp]
    split
    · simp only [Located]
      exact ⟨⟨v.next + 1, fh, c, .queued⟩, by simp, rfl, (hheld p ‹_›).1.symm, ‹_›⟩
    · cases hpl : v.place p.id <;> simp only [hpl, Located] at hl ⊢ <;> grind

/-! ### Uploads -/

theorem Inv.find_eq (h : v.Inv) {u : Upload} {id : Nat} (hf : v.fly.find? (·.id = id) = some u) :
    u ∈ v.fly ∧ u.id = id ∧ ∀ w ∈ v.fly, w.id = id → w = u := by
  have hu := List.mem_of_find?_eq_some hf
  have hid : u.id = id := by simpa using List.find?_some hf
  refine ⟨hu, hid, ?_⟩
  intro w hw hwid
  have hsymm : Std.Symm fun x y : Upload => x.id ≠ y.id := ⟨fun _ _ h => h.symm⟩
  by_contra hne
  exact h.flyIds.forall hw hu hne (hwid.trans hid.symm)

theorem mem_setState {id : Nat} {state : UploadState} {w : Upload} :
    w ∈ v.setState id state ↔ ∃ u ∈ v.fly, w = if u.id = id then { u with state } else u := by
  simp only [setState, List.mem_map, eq_comm]

/-- A change of the state of upload `u`, which moves its parts if it is done. -/
theorem Inv.setState (h : v.Inv) {u : Upload} {id : Nat} (hf : v.fly.find? (·.id = id) = some u)
    (hq : u.state = .queued) (state : UploadState) (remote : String → Bytes) {place : Nat → Place}
    {uploaded : List Pending} (hsub : ∀ c ∈ v.uploaded, c ∈ uploaded) (hnew : state = .written → u.pending ∈ uploaded)
    (hplace : ∀ p ∈ v.written, place p.id = if p ∈ u.pending.parts then
      Upload.place { u with state } else v.place p.id) :
    Inv { v with fly := v.setState id state, place := place, remote := remote, uploaded := uploaded } := by
  obtain ⟨hu, hid, huniq⟩ := h.find_eq hf
  have hparts : ∀ p ∈ u.pending.parts, p ∈ v.written ∧ p.fh = u.fh ∧ v.place p.id = .flying id := by
    intro p hp
    have := h.fly u hu p hp
    simpa [Upload.place, hq, hid] using this
  refine ⟨h.ids, ?_, ?_, ?_, ?_, ?_, ?_⟩
  · intro fh c hb p hp
    grind [h.buf]
  · intro t fh c hh p hp
    grind [h.hold]
  · intro w hw p hp
    obtain ⟨x, hx, rfl⟩ := mem_setState.1 hw
    split at hp
    · have hxu := huniq x hx ‹_›
      grind [Upload.place]
    · grind [h.fly, Upload.place]
  · simp only [Places.setState]
    rw [List.pairwise_map]
    exact h.flyIds.imp fun hne => by split <;> split <;> exact hne
  · intro w hw
    obtain ⟨x, hx, rfl⟩ := mem_setState.1 hw
    split <;> exact h.flyNext x hx
  · intro p hp
    have hl := h.located p hp
    simp only [hplace p hp]
    split
    · by_cases hw : state = .written
      · simp only [Upload.place, hw, if_true, Located]
        exact ⟨u.pending, hnew hw, ‹_›⟩
      · simp only [Upload.place, hw, if_false, Located]
        exact ⟨{ u with state }, mem_setState.2 ⟨u, hu, by simp [hid]⟩, rfl, (hparts p ‹_›).2.1.symm, ‹_›⟩
    · cases hpl : v.place p.id <;> simp only [hpl, Located] at hl ⊢
      case flying i =>
        obtain ⟨x, hx, rfl, hfh, hxp⟩ := hl
        exact ⟨if x.id = id then { x with state } else x, mem_setState.2 ⟨x, hx, rfl⟩, by split <;> rfl,
          by split <;> exact hfh, by split <;> exact hxp⟩
      case applied =>
        obtain ⟨c, hc, hpc⟩ := hl
        exact ⟨c, hsub c hc, hpc⟩
      all_goals exact hl

theorem Inv.upload (h : v.Inv) {id : Nat} (hs : v.step (.upload id) = some v') : v'.Inv := by
  simp only [step] at hs
  split at hs
  · cases hs
  · rename_i u hf
    split at hs
    · rename_i hq
      cases hs
      obtain ⟨hu, -, -⟩ := h.find_eq hf
      exact h.setState hf hq .written _ (fun c hc => List.mem_append_left _ hc) (fun _ => by simp)
        fun p hp => h.move_eq _ (fun q hq => (h.fly u hu q hq).1) hp
    · cases hs

theorem Inv.fail (h : v.Inv) {id n : Nat} {e : Errno} (hs : v.step (.fail id e n) = some v') : v'.Inv := by
  simp only [step] at hs
  split at hs
  · cases hs
  · rename_i u hf
    split at hs
    · rename_i hq
      cases hs
      obtain ⟨hu, hid, -⟩ := h.find_eq hf
      refine h.setState hf hq (.failed e) _ (fun _ hc => hc) (by simp) fun p hp => ?_
      split
      · have := (h.fly u hu p ‹_›).2.2
        simpa [Upload.place, hq] using this
      · rfl
    · cases hs

/-- An upload that is done is taken off the list. -/
theorem Inv.remove (h : v.Inv) {u : Upload} {id : Nat} (hf : v.fly.find? (·.id = id) = some u)
    (errors : Nat → Option Errno) (place : Nat → Place) (dest : Place)
    (hplace : ∀ p ∈ v.written, place p.id = if p ∈ u.pending.parts then dest else v.place p.id)
    (herr : ∀ fh, fh ≠ u.fh → errors fh = v.errors fh) (hkeep : v.errors u.fh ≠ none → errors u.fh ≠ none)
    (hdest : dest = .applied ∧ u.state = .written ∨ dest = .lost ∧ u.state ≠ .written ∧ errors u.fh ≠ none) :
    Inv { v with fly := v.fly.filter (·.id ≠ id), errors := errors, place := place } := by
  obtain ⟨hu, hid, huniq⟩ := h.find_eq hf
  have hparts : ∀ p ∈ u.pending.parts, p ∈ v.written ∧ p.fh = u.fh ∧ v.place p.id = u.place := h.fly u hu
  have hout : u.place = .applied ∨ u.place = .flying id := by
    unfold Upload.place
    split
    · exact .inl rfl
    · exact .inr (by rw [hid])
  have hstay : ∀ p ∈ v.written, v.place p.id ≠ u.place → place p.id = v.place p.id := by
    intro p hp hne
    rw [hplace p hp, if_neg fun hm => hne (hparts p hm).2.2]
  refine ⟨h.ids, ?_, ?_, ?_, h.flyIds.filter _, fun w hw => h.flyNext w (List.mem_filter.1 hw).1, ?_⟩
  · intro fh c hb p hp
    obtain ⟨hw, hfh, hpl⟩ := h.buf fh c hb p hp
    exact ⟨hw, hfh, (hstay p hw (by rcases hout with ho | ho <;> simp [ho, hpl])).trans hpl⟩
  · intro t fh c hh p hp
    obtain ⟨hw, hfh, hpl⟩ := h.hold t fh c hh p hp
    exact ⟨hw, hfh, (hstay p hw (by rcases hout with ho | ho <;> simp [ho, hpl])).trans hpl⟩
  · intro w hw p hp
    obtain ⟨hw, hne⟩ := List.mem_filter.1 hw
    obtain ⟨hpw, hfh, hpl⟩ := h.fly w hw p hp
    refine ⟨hpw, hfh, (hplace p hpw).trans ?_⟩
    split
    · -- A part of two uploads is on the remote already.
      have hboth : w.place = u.place := hpl.symm.trans (hparts p ‹_›).2.2
      have hwid : w.id ≠ u.id := by simpa [hid] using hne
      rcases hdest with ⟨rfl, hst⟩ | ⟨rfl, hst, -⟩
      · rw [hboth, Upload.place, if_pos hst]
      · simp only [Upload.place, hst, if_false] at hboth
        split at hboth
        · cases hboth
        · exact absurd (Place.flying.inj hboth) hwid
    · exact hpl
  · intro p hp
    have hl := h.located p hp
    simp only [hplace p hp]
    split
    · rcases hdest with ⟨rfl, hst⟩ | ⟨rfl, -, he⟩
      · rwa [(hparts p ‹_›).2.2, Upload.place, if_pos hst] at hl
      · exact .inl ((hparts p ‹_›).2.1 ▸ he)
    · cases hpl : v.place p.id <;> simp only [hpl, Located] at hl ⊢
      case flying i =>
        obtain ⟨x, hx, rfl, hfh, hxp⟩ := hl
        refine ⟨x, List.mem_filter.2 ⟨hx, ?_⟩, rfl, hfh, hxp⟩
        simp only [ne_eq, decide_eq_true_eq]
        intro hxid
        exact absurd (huniq x hx hxid ▸ hxp) ‹_›
      case lost =>
        rcases hl with hl | hl
        · by_cases hfh : p.fh = u.fh
          · exact .inl (hfh ▸ hkeep (hfh ▸ hl))
          · exact .inl (herr _ hfh ▸ hl)
        · exact .inr hl
      all_goals exact hl

theorem Inv.complete (h : v.Inv) {id : Nat} (hs : v.step (.complete id) = some v') : v'.Inv := by
  simp only [step] at hs
  split at hs
  · cases hs
  · rename_i u hf
    obtain ⟨hu, -, -⟩ := h.find_eq hf
    split at hs
    · cases hs
    · rename_i hst
      cases hs
      refine h.remove hf v.errors v.place .applied ?_ (fun _ _ => rfl) (fun he => he) (.inl ⟨rfl, hst⟩)
      intro p hp
      split
      · rw [(h.fly u hu p ‹_›).2.2, Upload.place, if_pos hst]
      · rfl
    · rename_i e hst
      cases hs
      refine h.remove hf _ _ .lost (fun p hp => h.move_eq _ (fun q hq => (h.fly u hu q hq).1) hp)
        (fun fh hne => Function.update_of_ne hne ..) ?_ (.inr ⟨rfl, by simp [hst], ?_⟩)
      · simp
      · simp

/-- Every move keeps the invariant. -/
theorem step_inv (h : v.Inv) {m : Move} (hs : v.step m = some v') : v'.Inv := by
  cases m with
  | takeError fh =>
    cases hs
    refine ⟨h.ids, h.buf, h.hold, h.fly, h.flyIds, h.flyNext, ?_⟩
    intro p hp
    have hl := h.located p hp
    cases hpl : v.place p.id <;> simp only [hpl, Located] at hl ⊢
    case lost =>
      -- The error of a lost part goes from its slot to those that have been taken.
      by_cases hfh : p.fh = fh
      · exact .inr (by simp [hfh])
      · rcases hl with hl | hl
        · exact .inl (by rwa [Function.update_of_ne hfh])
        · exact .inr (List.mem_cons_of_mem _ hl)
    all_goals exact hl
  | accept ino p =>
    simp only [step] at hs
    split at hs
    · rename_i hc
      cases hs
      exact h.add hc.2 (by simp [hc.1, Pending.single])
    · cases hs
  | extend ino p =>
    simp only [step] at hs
    split at hs
    · cases hs
    · rename_i c hb
      split at hs
      · split at hs
        · rename_i hc
          cases hs
          exact h.add hc.2 (by simp [hb, Pending.extend])
        · cases hs
      · cases hs
  | take t fh => exact h.take hs
  | resolve t path =>
    simp only [step] at hs
    split at hs
    · cases hs
    · rename_i fh c hh
      cases hs
      refine ⟨h.ids, h.buf, ?_, h.fly, h.flyIds, h.flyNext, ?_⟩
      · intro t' fh' c' hh' p hp
        grind [h.hold]
      · intro p hp
        have hl := h.located p hp
        cases hpl : v.place p.id <;> simp only [hpl, Located] at hl ⊢ <;> grind
  | register t => exact h.register hs
  | upload id => exact h.upload hs
  | fail id e n => exact h.fail hs
  | complete id => exact h.complete hs

/-! ## Data only moves forward -/

def rank : Place → Nat
  | .buffered => 0
  | .held _ => 1
  | .flying _ => 2
  | .applied => 3
  | .lost => 3

/-- A move takes a part to a later place, or leaves it where it is. -/
theorem step_forward (h : v.Inv) {m : Move} (hs : v.step m = some v') {p : Part} (hp : p ∈ v.written) :
    p ∈ v'.written ∧ (v'.place p.id = v.place p.id ∨ rank (v.place p.id) < rank (v'.place p.id)) := by
  have hmoved : ∀ (parts : List Part) (src dest : Place), rank src < rank dest →
      (∀ q ∈ parts, q ∈ v.written ∧ v.place q.id = src) →
      v.move parts dest p.id = v.place p.id ∨ rank (v.place p.id) < rank (v.move parts dest p.id) := by
    intro parts src dest hlt hparts
    rw [h.move_eq _ (fun q hq => (hparts q hq).1) hp]
    split
    · exact .inr ((hparts p ‹_›).2 ▸ hlt)
    · exact .inl rfl
  have hnew : ∀ q : Part, q.id = v.written.length → v.move [q] .buffered p.id = v.place p.id := by
    intro q hq
    have hlt := h.id_lt hp
    have hne : p.id ≠ q.id := by omega
    simp [move, hne]
  cases m <;> simp only [step] at hs
  case takeError fh =>
    cases hs
    exact ⟨hp, .inl rfl⟩
  case accept ino q =>
    split at hs
    · cases hs
      exact ⟨List.mem_append_left _ hp, .inl (hnew q (by simp_all))⟩
    · cases hs
  case extend ino q =>
    split at hs
    · cases hs
    · split at hs
      · split at hs
        · cases hs
          exact ⟨List.mem_append_left _ hp, .inl (hnew q (by simp_all))⟩
        · cases hs
      · cases hs
  case take t fh =>
    split at hs
    · rename_i c hb hh
      cases hs
      exact ⟨hp, hmoved c.parts .buffered _ (by simp [rank]) fun q hq => ⟨(h.buf fh c hb q hq).1, (h.buf fh c hb q hq).2.2⟩⟩
    · cases hs
  case resolve t path =>
    split at hs
    · cases hs
    · cases hs
      exact ⟨hp, .inl rfl⟩
  case register t =>
    split at hs
    · cases hs
    · rename_i fh c hh
      split at hs
      · cases hs
      · cases hs
        exact ⟨hp, hmoved c.parts (.held t) _ (by simp [rank]) fun q hq =>
          ⟨(h.hold t fh c hh q hq).1, (h.hold t fh c hh q hq).2.2⟩⟩
  case upload id =>
    split at hs
    · cases hs
    · rename_i u hf
      obtain ⟨hu, hid, -⟩ := h.find_eq hf
      split at hs
      · rename_i hq
        cases hs
        refine ⟨hp, hmoved u.pending.parts (.flying id) _ (by simp [rank]) fun q hq' => ⟨(h.fly u hu q hq').1, ?_⟩⟩
        simpa [Upload.place, hq, hid] using (h.fly u hu q hq').2.2
      · cases hs
  case fail id e n =>
    split at hs
    · cases hs
    · split at hs
      · cases hs
        exact ⟨hp, .inl rfl⟩
      · cases hs
  case complete id =>
    split at hs
    · cases hs
    · rename_i u hf
      obtain ⟨hu, hid, -⟩ := h.find_eq hf
      split at hs
      · cases hs
      · cases hs
        exact ⟨hp, .inl rfl⟩
      · rename_i e hst
        cases hs
        refine ⟨hp, hmoved u.pending.parts (.flying id) _ (by simp [rank]) fun q hq' => ⟨(h.fly u hu q hq').1, ?_⟩⟩
        simpa [Upload.place, hst, hid] using (h.fly u hu q hq').2.2

end Places

end Mobfs
