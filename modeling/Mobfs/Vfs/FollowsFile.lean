import Mobfs.Vfs.Chunks
import Mobfs.Vfs.Windows
/-!
# Buffered data follows its file

The path of an upload is looked up when the buffer has been taken out, and used
after a wait that has no bound. Where the inode has no path any more, the path of the
time of the write is used. A rename or removal waits for the uploads that are
registered, and does not see a buffer that a thread has taken out
(`upload_recreates_old_name`).

Where nothing comes in between (`FollowGuard`), every upload goes to the path its inode has
when it is applied.
-/

namespace Mobfs

open Lib Std
open WriteBack (matching)

/-! ## Renames and removals -/

namespace Names

variable {s s' : Names} {ignore : List String} {a : NameAct}

/-- A name given up: the inodes with a path there, and what is still to be written for
them, are younger than that. -/
structure GivenUp (s : Names) (l : Left) : Prop where
  written : l.written ≤ s.wb.written.length
  inodes : l.inodes ≤ s.inodes.next
  younger : ∀ i p, s.inodes.path i = some p → matching l.path p = true → l.inodes ≤ i
  parts : ∀ c, s.wb.HasChunk c → l.inodes ≤ c.ino → ∀ p ∈ c.parts, l.written ≤ p.id

structure NameInv (s : Names) : Prop where
  synced : s.wb.inodes = s.inodes.path
  placed : s.wb.Placed
  left : ∀ l ∈ s.left, s.GivenUp l

theorem NameInv.flows (h : s.NameInv) (hf : s.wb.Flows s'.wb) (hi : s'.inodes = s.inodes) (hl : s'.left = s.left) :
    s'.NameInv := by
  refine ⟨?_, h.placed.flows hf, fun l hm => ?_⟩
  · rw [hf.inodes, hi]
    exact h.synced
  · obtain ⟨hw, hn, hy, hp⟩ := h.left l (hl ▸ hm)
    refine ⟨Nat.le_trans hw hf.written, by rwa [hi], by rwa [hi], fun c hc hino p hpc => ?_⟩
    rcases hf.chunk hc hpc with hid | ⟨c₀, hc₀, hsame, hpc₀⟩
    · rw [hid]
      exact hw
    · exact hp c₀ hc₀ (hsame ▸ hino) p hpc₀

theorem flows_refl (wb : WriteBack) : wb.Flows wb :=
  WriteBack.flows_uploads rfl rfl rfl (fun _ _ hc => hc) fun u hu => ⟨u, hu, rfl, id⟩

theorem flows_flushes (s : Names) (t : Nat) (p : String) : s.wb.Flows (s.flushes t p).wb :=
  WriteBack.flows_call (by simp [Instr.holding]) (by simp)

theorem flows_dropBuffers (s : Names) (p : String) : s.wb.Flows (s.dropBuffers p).wb := by
  refine WriteBack.flows_uploads rfl rfl rfl (fun fh c hc => ?_) fun u hu => ⟨u, hu, rfl, id⟩
  simp only [dropBuffers, get?_collect, Option.bind_eq_some_iff] at hc
  obtain ⟨c₀, hc₀, he⟩ := hc
  split at he
  · cases he
  · cases he
    exact hc₀

theorem flows_setRemote (s : Names) (remote : String → Bytes) : s.wb.Flows (s.setRemote remote).wb :=
  WriteBack.flows_uploads rfl rfl rfl (fun _ _ hc => hc) fun u hu => ⟨u, hu, rfl, id⟩

theorem NameInv.afterRun (h : s.NameInv) {t : Nat} {wb : WriteBack} (hf : s.wb.Flows wb) : (s.afterRun t wb).NameInv := by
  have hwb : NameInv { s with wb } := h.flows hf rfl rfl
  unfold Names.afterRun
  dsimp only
  split
  · split
    · exact hwb.flows (flows_flushes { s with wb } t _) rfl rfl
    · exact hwb.flows (flows_refl _) rfl rfl
  · exact hwb.flows (flows_refl _) rfl rfl
  · exact hwb

/-- The inodes change, and the names given up with them. -/
theorem NameInv.setInodes (h : s.NameInv) {n : Inodes} {left : List Left}
    (hqueued : ∀ u ∈ s.wb.inflight, u.state = .queued → n.path u.pending.ino = s.inodes.path u.pending.ino)
    (hregister : ∀ t fh c, .register fh c ∈ s.wb.threads t → n.path c.ino = s.inodes.path c.ino)
    (hresolve : ∀ t fh c, .resolve fh c ∈ s.wb.threads t → n.path c.ino ≠ none)
    (hbuffers : ∀ (fh : Nat) (c : Pending), s.wb.buffers[fh]? = some c → n.path c.ino ≠ none)
    (hcall : ∀ t fh ino path offset data, .buffer fh ino path offset data ∈ s.wb.threads t → n.path ino ≠ none)
    (hleft : ∀ l ∈ left, GivenUp (Names.setInodes { s with left } n) l) :
    (Names.setInodes { s with left } n).NameInv := by
  refine ⟨rfl, ⟨hcall, hbuffers, hresolve, fun t fh c hm => ?_, fun u hu hq => ?_⟩, hleft⟩
  · rw [← h.placed.register t fh c hm, h.synced]
    exact hregister t fh c hm
  · rw [← h.placed.inflight u hu hq, h.synced]
    exact hqueued u hu hq

/-- A name given up stays so if no older inode gets a path there. -/
theorem GivenUp.setInodes {l : Left} (h : s.GivenUp l) {n : Inodes} {left : List Left} (hnext : s.inodes.next ≤ n.next)
    (hy : ∀ i p, n.path i = some p → matching l.path p = true → l.inodes ≤ i) :
    GivenUp (Names.setInodes { s with left } n) l :=
  ⟨h.written, Nat.le_trans h.inodes hnext, hy, h.parts⟩

/-- The name that a rename or removal has just given up. -/
theorem NameInv.givenUp (h : s.NameInv) {n : Inodes} {left : List Left} {p : String} (hnext : n.next = s.inodes.next)
    (hy : ∀ i q, n.path i = some q → matching p q = false) :
    GivenUp (Names.setInodes { s with left } n) ⟨p, s.wb.written.length, s.inodes.next⟩ := by
  refine ⟨Nat.le_refl _, Nat.le_of_eq hnext.symm, fun i q hq hm => ?_, fun c hc hino => ?_⟩
  · have hno : matching p q = true := hm
    rw [hy i q hq] at hno
    cases hno
  · have hne := h.placed.inode_ne_none hc
    rw [h.synced] at hne
    exact absurd (s.inodes.fresh c.ino hino) hne

theorem NameInv.moveInodes (h : s.NameInv) (hw : s.WindowInv) {t : Nat} {src dst : String}
    (hop : s.ops t = some (.moveInodes src dst)) (hg : s.OpGuard t (.moveInodes src dst)) : ((s.leave src (some dst)).setInodes (s.inodes.rename src dst)).NameInv := by
  obtain ⟨hregister, hresolve, hcall⟩ := hg.1
  have hkeep : ∀ i q, s.inodes.path i = some q → matching dst q = false → matching src q = false →
      (s.inodes.rename src dst).path i = some q := fun i q => Inodes.rename_path_of_not
  refine h.setInodes (fun u hu hq => ?_) hregister hresolve (fun fh c hc => ?_) hcall fun l hl => ?_
  · -- The uploads under both names have been waited for.
    have hpath := h.placed.inflight u hu hq
    rw [h.synced] at hpath
    have hout := fun x hx => hw.waited t x ⟨_, hop, hx⟩ u hu hq
    rw [hkeep _ _ hpath (hout dst (.inr rfl)) (hout src (.inl rfl)), hpath]
  · -- What was buffered under the name that is overwritten has been taken out.
    have hne := h.placed.buffers fh c hc
    rw [h.synced] at hne
    obtain ⟨q, hq⟩ := Option.ne_none_iff_exists'.1 hne
    refine Inodes.rename_path_ne_none hq ?_
    rw [Bool.eq_false_iff]
    intro hm
    have htake := hw.cleared t dst ⟨_, hop, rfl⟩ fh c q hc hq hm
    rw [hw.idle t _ hop rfl] at htake
    cases htake
  obtain ⟨hl, hkept⟩ := List.mem_filter.1 hl
  simp only [Option.all_some, Bool.not_eq_true', Bool.or_eq_false_iff] at hkept
  -- What the rename has moved is under `dst`, and so not under a name still given up.
  have hmoved : ∀ p, matching dst p = true → matching l.path p = false := by
    intro p hd
    rw [Bool.eq_false_iff]
    intro hm
    rcases matching_total hm hd with hr | hr
    · rw [hkept.1] at hr
      cases hr
    · rw [hkept.2] at hr
      cases hr
  rcases List.mem_cons.1 hl with rfl | hl
  · refine h.givenUp rfl fun i q hq => ?_
    rcases Inodes.rename_path hq with ⟨hd, -⟩ | ⟨-, hsrc⟩
    · exact hmoved q hd
    · exact hsrc
  · have hold := h.left l hl
    refine hold.setInodes (Nat.le_refl _) fun i p hp hm => ?_
    rcases Inodes.rename_path hp with ⟨hd, -⟩ | ⟨hp, -⟩
    · rw [hmoved p hd] at hm
      cases hm
    · exact hold.younger i p hp hm

theorem NameInv.forgetInodes (h : s.NameInv) (hw : s.WindowInv) {t : Nat} {p : String}
    (hop : s.ops t = some (.forgetInodes p)) (hg : s.OpGuard t (.forgetInodes p)) : ((s.leave p none).setInodes (s.inodes.removeTree p)).NameInv := by
  obtain ⟨hregister, hresolve, hcall⟩ := hg
  refine h.setInodes (fun u hu hq => ?_) hregister hresolve (fun fh c hc => ?_) hcall fun l hl => ?_
  · have hpath := h.placed.inflight u hu hq
    rw [h.synced] at hpath
    rw [Inodes.removeTree_path.2 ⟨hpath, hw.waited t p ⟨_, hop, rfl⟩ u hu hq⟩, hpath]
  · have hne := h.placed.buffers fh c hc
    rw [h.synced] at hne
    obtain ⟨q, hq⟩ := Option.ne_none_iff_exists'.1 hne
    have hout : matching p q = false := by
      rw [Bool.eq_false_iff]
      intro hm
      have htake := hw.cleared t p ⟨_, hop, rfl⟩ fh c q hc hq hm
      rw [hw.idle t _ hop rfl] at htake
      cases htake
    simp [Inodes.removeTree_path.2 ⟨hq, hout⟩]
  rcases List.mem_cons.1 (List.mem_filter.1 hl).1 with rfl | hl
  · exact h.givenUp rfl fun i q hq => (Inodes.removeTree_path.1 hq).2
  · have hold := h.left l hl
    exact hold.setInodes (Nat.le_refl _) fun i q hq hm => hold.younger i q (Inodes.removeTree_path.1 hq).1 hm

/-- A new inode is younger than every name given up, and no data is for it yet. -/
theorem NameInv.ino (h : s.NameInv) (p : String) : (s.setInodes (s.inodes.ino p)).NameInv := by
  have hpath : ∀ i, s.inodes.path i ≠ none → (s.inodes.ino p).path i = s.inodes.path i := fun i => Inodes.ino_path
  have hnext : s.inodes.next ≤ (s.inodes.ino p).next := by
    unfold Inodes.ino
    split
    · exact Nat.le_refl _
    · exact Nat.le_succ _
  have hne : ∀ i, s.wb.inodes i ≠ none → (s.inodes.ino p).path i ≠ none := by
    intro i hi
    rw [h.synced] at hi
    rwa [hpath i hi]
  have hsome : ∀ i q, s.wb.inodes i = some q → (s.inodes.ino p).path i = s.inodes.path i := by
    intro i q hq
    rw [h.synced] at hq
    exact hpath i (by simp [hq])
  refine h.setInodes (fun u hu hq => hsome _ _ (h.placed.inflight u hu hq))
    (fun t fh c hm => hsome _ _ (h.placed.register t fh c hm)) (fun t fh c hm => hne _ (h.placed.resolve t fh c hm))
    (fun fh c hc => hne _ (h.placed.buffers fh c hc))
    (fun t fh i path offset data hm => hne _ (h.placed.call t fh i path offset data hm)) fun l hl => ?_
  have hold := h.left l hl
  refine hold.setInodes hnext fun i q hq hm => ?_
  -- An inode without a path until now is the new one.
  by_cases hi : s.inodes.path i = none
  · apply Nat.le_trans hold.inodes
    apply Nat.le_of_not_lt
    intro hlt
    unfold Inodes.ino at hq
    split at hq
    · rw [hi] at hq
      cases hq
    · simp only at hq
      rw [Function.update_of_ne (Nat.ne_of_lt hlt), hi] at hq
      cases hq
  · rw [hpath i hi] at hq
    exact hold.younger i q hq hm

theorem NameInv.runOp (h : s.NameInv) (hw : s.WindowInv) {t : Nat} {op : NameOp} (hop : s.ops t = some op)
    (hg : s.OpGuard t op) (hs : s.runOp t op = some s') : s'.NameInv := by
  cases op <;> simp only [Names.runOp] at hs
  case moveInodes src dst =>
    cases hs
    exact (h.moveInodes hw hop hg).flows (flows_refl _) rfl rfl
  case forgetInodes p =>
    cases hs
    exact (h.forgetInodes hw hop hg).flows (flows_refl _) rfl rfl
  case dropBuffers p =>
    cases hs
    exact h.flows (flows_dropBuffers s _) rfl rfl
  case waitUploads p =>
    split at hs
    · cases hs
    · cases hs
      exact h.flows (flows_refl _) rfl rfl
  all_goals cases hs

theorem NameInv.step (h : s.NameInv) (hw : s.WindowInv) (hg : s.FollowGuard a) (hs : s.step ignore a = some s') : s'.NameInv := by
  have hwb : ∀ b, (∀ n, b ≠ .setInodes n) → (s.wb.step ignore b).map (fun wb => { s with wb }) = some s' → s'.NameInv := by
    intro b hb he
    obtain ⟨wb, hstep, rfl⟩ := Option.map_eq_some_iff.1 he
    exact h.flows (WriteBack.flows_step hb hstep) rfl rfl
  -- Only `ino` and the last step of a rename or removal change the inodes.
  unfold Names.step at hs
  split at hs
  · cases hs
  · split at hs
    · exact hwb _ (by simp) hs
    · cases hs
  · obtain ⟨wb, he, rfl⟩ := Option.map_eq_some_iff.1 hs
    exact h.afterRun (WriteBack.flows_step (by simp) he)
  · rename_i hset _ _
    exact hwb _ (fun n hn => hset n (by rw [hn])) hs
  · cases hs
    exact h.ino _
  · split at hs
    · split at hs
      · cases hs
      · cases hs
        exact h.flows (flows_flushes s _ _) rfl rfl
    · cases hs
  · split at hs
    · split at hs
      · cases hs
      · cases hs
        exact h.flows (flows_refl _) rfl rfl
    · cases hs
  · split at hs
    · cases hs
      split
      · exact h.flows (flows_setRemote s _) rfl rfl
      · exact h.flows (flows_refl _) rfl rfl
    · cases hs
      split
      · exact h.flows (flows_setRemote s _) rfl rfl
      · exact h.flows (flows_refl _) rfl rfl
    · cases hs
  · obtain ⟨op, hop, hs⟩ := Option.bind_eq_some_iff.1 hs
    exact h.runOp hw hop (hg op hop) hs

def ByThread0 : NameAct → Prop
  | .vfs a => WriteBack.OnlyThread0 a
  | .ino _ => True
  | .rename t _ _ => t = 0
  | .remove t _ => t = 0
  | .mutated t _ _ => t = 0
  | .run t => t = 0

structure Alone (s : Names) : Prop where
  threads : ∀ t ≠ 0, s.wb.threads t = []
  ops : ∀ t ≠ 0, s.ops t = none

theorem flushes_byThread0 {p : String} (h : ∀ t ≠ 0, s.wb.threads t = []) :
    ∀ t ≠ 0, (s.flushes 0 p).wb.threads t = [] := by
  intro t ht
  simpa [flushes, WriteBack.goOn, Function.update_of_ne ht] using h t ht

theorem step_byThread0 (h : ∀ t ≠ 0, s.wb.threads t = []) (ha : ByThread0 a) (hs : s.step ignore a = some s') :
    ∀ t ≠ 0, s'.wb.threads t = [] := by
  unfold step at hs
  split at hs
  · cases hs
  · split at hs
    · obtain ⟨wb, he, rfl⟩ := Option.map_eq_some_iff.1 hs
      exact WriteBack.step_onlyThread0 (a := .call _ _) h ha he
    · cases hs
  · obtain ⟨wb, he, rfl⟩ := Option.map_eq_some_iff.1 hs
    have hwb := WriteBack.step_onlyThread0 (a := .run _) h ha he
    obtain rfl := ha
    unfold afterRun
    dsimp only
    split
    · split
      · exact flushes_byThread0 (s := { s with wb }) hwb
      · exact hwb
    · exact hwb
    · exact hwb
  · obtain ⟨wb, he, rfl⟩ := Option.map_eq_some_iff.1 hs
    exact WriteBack.step_onlyThread0 h ha he
  · cases hs
    exact h
  · split at hs
    · split at hs
      · cases hs
      · cases hs
        obtain rfl := ha
        exact flushes_byThread0 h
    · cases hs
  · split at hs
    · split at hs
      · cases hs
      · cases hs
        exact h
    · cases hs
  · split at hs
    all_goals
      cases hs
      try split
      all_goals exact h
  · obtain ⟨op, -, hs⟩ := Option.bind_eq_some_iff.1 hs
    unfold runOp at hs
    split at hs
    · cases hs
      exact h
    · cases hs
      exact h
    · cases hs
      exact h
    · split at hs
      · cases hs
      · cases hs
        exact h
    · cases hs

theorem ops_byThread0 (ha : ByThread0 a) (hs : s.step ignore a = some s') : ∀ t ≠ 0, s'.ops t = s.ops t := by
  intro t ht
  have hother : ∀ {s₀ : Names} {op : Option NameOp}, (s₀.goOn 0 op).ops t = s₀.ops t := Function.update_of_ne ht _ _
  unfold step at hs
  split at hs
  · cases hs
  · split at hs
    · obtain ⟨wb, -, rfl⟩ := Option.map_eq_some_iff.1 hs
      rfl
    · cases hs
  · obtain ⟨wb, -, rfl⟩ := Option.map_eq_some_iff.1 hs
    obtain rfl := ha
    unfold afterRun
    dsimp only
    split
    · split <;> exact hother
    · exact hother
    · rfl
  · obtain ⟨wb, -, rfl⟩ := Option.map_eq_some_iff.1 hs
    rfl
  · cases hs
    rfl
  · split at hs
    · split at hs
      · cases hs
      · cases hs
        obtain rfl := ha
        exact hother
    · cases hs
  · split at hs
    · split at hs
      · cases hs
      · cases hs
        obtain rfl := ha
        exact hother
    · cases hs
  · obtain rfl := ha
    split at hs
    all_goals
      cases hs
      try split
      all_goals exact hother
  · obtain ⟨op, -, hs⟩ := Option.bind_eq_some_iff.1 hs
    obtain rfl := ha
    cases op <;> simp only [runOp] at hs
    case waitUploads p =>
      split at hs
      · cases hs
      · cases hs
        exact hother
    all_goals cases hs
    all_goals exact hother

theorem Alone.step (h : s.Alone) (ha : ByThread0 a) (hs : s.step ignore a = some s') : s'.Alone :=
  ⟨step_byThread0 h.threads ha hs, fun t ht => (ops_byThread0 ha hs t ht).trans (h.ops t ht)⟩

theorem Alone.waited (h : s.Alone) {t : Nat} {x : String} (hx : s.Waited t x) :
    ∃ op, s.ops 0 = some op ∧ op.waited (s.wb.threads 0) x := by
  by_cases ht : t = 0
  · exact ht ▸ hx
  · obtain ⟨op, hop, -⟩ := hx
    rw [h.ops t ht] at hop
    cases hop

end Names

end Mobfs
