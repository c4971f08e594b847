import Mobfs.Vfs.Chunks
import Mobfs.Vfs.Renames
/-!
# What a rename or removal has waited for

`flush_matching` collects the buffers under a name, takes them out and waits for the uploads
under it; `remove` drops the buffers and waits for the uploads to the name itself. Nothing
keeps new ones from coming before the inodes change.

`FollowGuard` forbids just these: that an upload is registered under a name whose uploads
have been waited for, that a write buffers data for a file that is to go, and that a thread
has looked up a path, or has data in its hands, when the inodes change. `WindowInv` is what
the waiting has led to, and what the guard keeps so.
-/

namespace Mobfs

open Lib Std
open WriteBack (matching)

namespace NameOp

/-- The names whose uploads have been waited for, where `prog` is what is left of
`flush_matching`. -/
def waited (prog : List Instr) : NameOp → String → Prop
  | .flushFrom src _, x => x = src ∧ .collect src ∉ prog ∧ .waitMatching src ∉ prog
  | .flushTo src dst, x => x = src ∨ x = dst ∧ .collect dst ∉ prog ∧ .waitMatching dst ∉ prog
  | .rename src dst, x => x = src ∨ x = dst
  | .moveInodes src dst, x => x = src ∨ x = dst
  | .remove p, x => x = p
  | .forgetInodes p, x => x = p
  | _, _ => False

/-- The name whose inodes are to go, once the buffers there have been collected or
dropped. -/
def cleared (prog : List Instr) : NameOp → String → Prop
  | .flushTo _ dst, x => x = dst ∧ .collect dst ∉ prog
  | .rename _ dst, x => x = dst
  | .moveInodes _ dst, x => x = dst
  | .waitUploads p, x => x = p
  | .remove p, x => x = p
  | .forgetInodes p, x => x = p
  | _, _ => False

/-- A flush of a rename is under way. -/
def flushing : NameOp → Bool
  | .flushFrom .. => true
  | .flushTo .. => true
  | _ => false

end NameOp

namespace Names

def Waited (s : Names) (t : Nat) (x : String) : Prop := ∃ op, s.ops t = some op ∧ op.waited (s.wb.threads t) x

def Cleared (s : Names) (t : Nat) (x : String) : Prop := ∃ op, s.ops t = some op ∧ op.cleared (s.wb.threads t) x

/-- What is buffered for the files under the name was written to them there. -/
def Recorded (s : Names) (x : String) : Prop :=
  ∀ (fh : Nat) (c : Pending) q, s.wb.buffers[fh]? = some c → s.inodes.path c.ino = some q → matching x q = true →
    matching x c.path = true

/-- When the inodes become `n`: a chunk that a thread has looked up the path for keeps it,
and no inode goes for which a thread has a chunk, or a write has looked up the path. -/
def HandsFree (s : Names) (n : Inodes) : Prop :=
  (∀ t fh c, .register fh c ∈ s.wb.threads t → n.path c.ino = s.inodes.path c.ino) ∧
  (∀ t fh c, .resolve fh c ∈ s.wb.threads t → n.path c.ino ≠ none) ∧
  ∀ t fh ino path offset data, .buffer fh ino path offset data ∈ s.wb.threads t → n.path ino ≠ none

def InstrGuard (s : Names) (t : Nat) : Instr → Prop
  | .register _ c => ∀ t' x, s.Waited t' x → matching x c.path = false
  | .buffer _ ino _ _ _ => ∀ t' x q, s.Cleared t' x → s.inodes.path ino = some q → matching x q = false
  | .collect dst => (∃ src, s.ops t = some (.flushTo src dst)) → s.Recorded dst
  | _ => True

def OpGuard (s : Names) (t : Nat) : NameOp → Prop
  | .dropBuffers p => s.Recorded p
  -- `remove` waits for the uploads to the name itself only.
  | .waitUploads p => ∀ u ∈ s.wb.inflight, u.state = .queued → below p u.pending.path = false
  | .moveInodes src dst => s.HandsFree (s.inodes.rename src dst) ∧
      -- No file with buffered data comes under a name another operation has cleared.
      ∀ t' x, t' ≠ t → s.Cleared t' x → ∀ (fh : Nat) (c : Pending) q, s.wb.buffers[fh]? = some c →
        (s.inodes.rename src dst).path c.ino = some q → matching x q = true →
          ∃ q', s.inodes.path c.ino = some q' ∧ matching x q' = true
  | .forgetInodes p => s.HandsFree (s.inodes.removeTree p)
  | _ => True

/-- No upload is registered and no data buffered where an operation has waited for the
uploads or looked for the buffers, and no thread has a path or data in its hands that the
change of the inodes makes wrong. -/
def FollowGuard (s : Names) : NameAct → Prop
  | .vfs (.run t) => ∀ i rest, s.wb.threads t = i :: rest → s.InstrGuard t i
  | .run t => ∀ op, s.ops t = some op → s.OpGuard t op
  | _ => True

/-- No upload is queued under a name that has been waited for. Data for a file under a name
that has been cleared is buffered only where its thread is still to take it out. -/
structure WindowInv (s : Names) : Prop where
  waited : ∀ t x, s.Waited t x → ∀ u ∈ s.wb.inflight, u.state = .queued → matching x u.pending.path = false
  cleared : ∀ t x, s.Cleared t x → ∀ (fh : Nat) (c : Pending) q, s.wb.buffers[fh]? = some c →
    s.inodes.path c.ino = some q → matching x q = true → .take fh ∈ s.wb.threads t
  idle : ∀ t op, s.ops t = some op → op.flushing = false → s.wb.threads t = []

variable {s s' : Names} {ignore : List String} {a : NameAct}

/-! ## Steps that only take away -/

/-- No upload is queued and nothing buffered that was not before. -/
structure Fewer (wb wb' : WriteBack) : Prop where
  fly : ∀ w ∈ wb'.inflight, w.state = .queued → ∃ u ∈ wb.inflight, u.state = .queued ∧ u.pending = w.pending
  buf : ∀ (fh : Nat) (c : Pending), wb'.buffers[fh]? = some c → wb.buffers[fh]? = some c

/-- One thread goes on with operation `o`, the others stay: what `o` has waited for and
cleared is to be shown. -/
theorem WindowInv.switch (h : s.WindowInv) (hf : Fewer s.wb s'.wb) {t : Nat} {o : Option NameOp}
    (hinodes : ∀ t' x, t' ≠ t → s.Cleared t' x → ∀ (fh : Nat) (c : Pending) q, s'.wb.buffers[fh]? = some c →
      s'.inodes.path c.ino = some q → matching x q = true → ∃ q', s.inodes.path c.ino = some q' ∧ matching x q' = true)
    (hops : s'.ops = Function.update s.ops t o) (hthreads : ∀ t', t' ≠ t → s'.wb.threads t' = s.wb.threads t')
    (hwaited : ∀ op x, o = some op → op.waited (s'.wb.threads t) x →
      ∀ w ∈ s'.wb.inflight, w.state = .queued → matching x w.pending.path = false)
    (hcleared : ∀ op x, o = some op → op.cleared (s'.wb.threads t) x → ∀ (fh : Nat) (c : Pending) q,
      s'.wb.buffers[fh]? = some c → s'.inodes.path c.ino = some q → matching x q = true → .take fh ∈ s'.wb.threads t)
    (hidle : ∀ op, o = some op → op.flushing = false → s'.wb.threads t = []) : s'.WindowInv := by
  have hself : s'.ops t = o := by rw [hops, Function.update_self]
  have hother : ∀ t', t' ≠ t → s'.ops t' = s.ops t' := fun t' ht => by rw [hops, Function.update_of_ne ht]
  refine ⟨?_, ?_, ?_⟩
  · rintro t' x ⟨op, hop, hx⟩ w hw hq
    by_cases ht : t' = t
    · rw [ht] at hop hx
      exact hwaited op x (hself ▸ hop) hx w hw hq
    · rw [hother t' ht] at hop
      rw [hthreads t' ht] at hx
      obtain ⟨u, hu, huq, hpend⟩ := hf.fly w hw hq
      rw [← hpend]
      exact h.waited t' x ⟨op, hop, hx⟩ u hu huq
  · rintro t' x ⟨op, hop, hx⟩ fh c q hc hq hm
    by_cases ht : t' = t
    · rw [ht] at hop hx ⊢
      exact hcleared op x (hself ▸ hop) hx fh c q hc hq hm
    · rw [hother t' ht] at hop
      rw [hthreads t' ht] at hx ⊢
      obtain ⟨q', hq', hm'⟩ := hinodes t' x ht ⟨op, hop, hx⟩ fh c q hc hq hm
      exact h.cleared t' x ⟨op, hop, hx⟩ fh c q' (hf.buf fh c hc) hq' hm'
  · intro t' op hop hfl
    by_cases ht : t' = t
    · rw [ht] at hop ⊢
      exact hidle op (hself ▸ hop) hfl
    · rw [hthreads t' ht]
      exact h.idle t' op (hother t' ht ▸ hop) hfl

/-- The operation of a thread goes on, or ends: what it has waited for and cleared now,
it had already. -/
theorem WindowInv.goOn (h : s.WindowInv) {t : Nat} {op : Option NameOp}
    (hwaited : ∀ o x, op = some o → o.waited (s.wb.threads t) x → s.Waited t x)
    (hcleared : ∀ o x, op = some o → o.cleared (s.wb.threads t) x → s.Cleared t x)
    (hidle : ∀ o, op = some o → o.flushing = false → s.wb.threads t = []) : (s.goOn t op).WindowInv :=
  h.switch ⟨fun w hw hq => ⟨w, hw, hq, rfl⟩, fun _ _ hc => hc⟩ (fun _ _ _ _ _ _ q _ hq hm => ⟨q, hq, hm⟩) rfl
    (fun _ _ => rfl) (fun o x ho hx => h.waited t x (hwaited o x ho hx)) (fun o x ho hx => h.cleared t x (hcleared o x ho hx))
    hidle

theorem WindowInv.ends (h : s.WindowInv) (t : Nat) : (s.goOn t none).WindowInv :=
  h.goOn (fun _ _ ho => by cases ho) (fun _ _ ho => by cases ho) fun _ ho => by cases ho

/-- A step of the write-back that no operation of a name makes. -/
theorem WindowInv.frame (h : s.WindowInv) {wb : WriteBack} (hf : Fewer s.wb wb)
    (hthreads : ∀ t op, s.ops t = some op → wb.threads t = s.wb.threads t) : WindowInv { s with wb } := by
  refine ⟨?_, ?_, ?_⟩
  · rintro t x ⟨op, hop, hx⟩ w hw hq
    rw [hthreads t op hop] at hx
    obtain ⟨u, hu, huq, hpend⟩ := hf.fly w hw hq
    rw [← hpend]
    exact h.waited t x ⟨op, hop, hx⟩ u hu huq
  · rintro t x ⟨op, hop, hx⟩ fh c q hc hq hm
    rw [hthreads t op hop] at hx ⊢
    exact h.cleared t x ⟨op, hop, hx⟩ fh c q (hf.buf fh c hc) hq hm
  · intro t op hop hf
    rw [hthreads t op hop]
    exact h.idle t op hop hf

/-! ## The threads go on -/

theorem afterRun_of_ne {t : Nat} {wb : WriteBack} (h : wb.threads t ≠ []) : s.afterRun t wb = { s with wb } := by
  unfold afterRun
  dsimp only
  split
  · exact absurd ‹_› h
  · exact absurd ‹_› h
  · rfl

/-- What has been waited for after an instruction was so before, unless this was the
wait. -/
theorem waited_append {op : NameOp} {x : String} {i : Instr} {new rest : List Instr}
    (hcollect : ∀ p, i = .collect p → .waitMatching p ∈ new) (h : op.waited (new ++ rest) x) :
    op.waited (i :: rest) x ∨ i = .waitMatching x := by
  have hhead : ∀ p, .collect p ∉ new ++ rest → .waitMatching p ∉ new ++ rest →
      (.collect p ∉ i :: rest ∧ .waitMatching p ∉ i :: rest) ∨ i = .waitMatching p := by
    intro p hc hw
    simp only [List.mem_append, not_or] at hc hw
    by_cases hi : i = .waitMatching p
    · exact .inr hi
    · have hic : i ≠ .collect p := fun he => hw.1 (hcollect p he)
      simp only [List.mem_cons, not_or]
      exact .inl ⟨⟨Ne.symm hic, hc.2⟩, Ne.symm hi, hw.2⟩
  cases op with
  | flushFrom src dst =>
    obtain ⟨rfl, hc, hw⟩ := h
    exact (hhead _ hc hw).imp_left fun h => ⟨rfl, h⟩
  | flushTo src dst =>
    rcases h with rfl | ⟨rfl, hc, hw⟩
    · exact .inl (.inl rfl)
    · exact (hhead _ hc hw).imp_left fun h => .inr ⟨rfl, h⟩
  | _ => exact .inl h

/-- What is cleared after an instruction was so before, unless this has looked for the
buffers. -/
theorem cleared_append {op : NameOp} {x : String} {i : Instr} {new rest : List Instr} (h : op.cleared (new ++ rest) x) :
    op.cleared (i :: rest) x ∨ i = .collect x ∧ ∃ src, op = .flushTo src x := by
  cases op with
  | flushTo src dst =>
    obtain ⟨rfl, hc⟩ := h
    by_cases hi : i = .collect x
    · exact .inr ⟨hi, src, rfl⟩
    · refine .inl ⟨rfl, ?_⟩
      simp only [List.mem_append, not_or] at hc
      simp only [List.mem_cons, not_or]
      exact ⟨Ne.symm hi, hc.2⟩
  | _ => exact .inl h

theorem after_collect {wb : WriteBack} {rest : List Instr} {p : String} {new : List Instr}
    (h : wb.after rest (.collect p) = new ++ rest) : .waitMatching p ∈ new := by
  have hnew : new = (wb.matchingHandles p).map .take ++ .waitMatching p :: (wb.matchingHandles p).map .takeError :=
    (List.append_cancel_right h).symm
  rw [hnew]
  simp

/-- A thread executes an instruction and goes on with more. -/
theorem WindowInv.exec1 (h : s.WindowInv) {t : Nat} {i : Instr} {rest new : List Instr} {wb : WriteBack}
    (hprog : s.wb.threads t = i :: rest) (he : s.wb.exec1 t rest i = some wb) (hnew : s.wb.after rest i = new ++ rest)
    (hg : s.InstrGuard t i) : WindowInv { s with wb } := by
  have hthreads : wb.threads = Function.update s.wb.threads t (new ++ rest) := by
    rw [WriteBack.exec1_threads he, hnew]
  have hself : wb.threads t = new ++ rest := by rw [hthreads, Function.update_self]
  have hother : ∀ {t'}, t' ≠ t → wb.threads t' = s.wb.threads t' := fun ht => by rw [hthreads, Function.update_of_ne ht]
  refine ⟨?_, ?_, ?_⟩
  · rintro t' x ⟨op, hop, hx⟩ w hw hq
    have hwas : s.Waited t' x ∨ i = .waitMatching x := by
      by_cases ht : t' = t
      · subst ht
        rw [hself] at hx
        refine (waited_append (fun p hp => after_collect (hp ▸ hnew)) hx).imp_left fun hx => ⟨op, hop, ?_⟩
        rwa [hprog]
      · exact .inl ⟨op, hop, hother ht ▸ hx⟩
    rcases hwas with hwas | rfl
    · rcases WriteBack.exec1_uploads he with ⟨hfly, -⟩ | ⟨fh, c, rfl, hfly, -⟩
      · exact h.waited t' x hwas w (hfly ▸ hw) hq
      · rw [hfly] at hw
        rcases List.mem_append.1 hw with hw | hw
        · exact h.waited t' x hwas w hw hq
        · rw [List.mem_singleton.1 hw]
          exact hg t' x hwas
    · -- The wait is over: there is no upload under the name.
      obtain ⟨hfly, hnone⟩ := WriteBack.exec1_waitMatching he
      rw [hfly] at hw
      exact hnone w hw
  · rintro t' x ⟨op, hop, hx⟩ fh c q hc hq hm
    have hold : s.wb.buffers[fh]? = some c ∨
        ∃ path offset data, i = .buffer fh c.ino path offset data := by
      rcases WriteBack.exec1_buffers he hc with hc | ⟨ino, path, offset, data, hi, rfl, -⟩
      · exact .inl hc
      · exact .inr ⟨path, offset, data, hi⟩
    by_cases ht : t' = t
    · subst ht
      rw [hself] at hx ⊢
      rcases cleared_append (i := i) hx with hx | ⟨rfl, src, rfl⟩
      · have hwas : s.Cleared t' x := ⟨op, hop, hprog ▸ hx⟩
        rcases hold with hold | ⟨path, offset, data, rfl⟩
        · have htake := h.cleared t' x hwas fh c q hold hq hm
          rw [hprog] at htake
          rcases List.mem_cons.1 htake with rfl | htake
          · rw [WriteBack.take_buffers he] at hc
            cases hc
          · exact List.mem_append_right _ htake
        · have hno : matching x q = false := hg t' x q hwas hq
          rw [hm] at hno
          cases hno
      · rcases hold with hold | ⟨path, offset, data, hi⟩
        · refine List.mem_append_left _ ?_
          rw [List.append_cancel_right (hnew.symm.trans rfl)]
          simp only [List.mem_append, List.mem_map]
          refine .inl ⟨fh, ?_, rfl⟩
          exact WriteBack.mem_matchingHandles hold (hg ⟨src, hop⟩ fh c q hold hq hm)
        · cases hi
    · rw [hother ht] at hx ⊢
      have hwas : s.Cleared t' x := ⟨op, hop, hx⟩
      rcases hold with hold | ⟨path, offset, data, rfl⟩
      · exact h.cleared t' x hwas fh c q hold hq hm
      · have hno : matching x q = false := hg t' x q hwas hq
        rw [hm] at hno
        cases hno
  · intro t' op hop hf
    by_cases ht : t' = t
    · subst ht
      have hnil := h.idle t' op hop hf
      rw [hprog] at hnil
      cases hnil
    · exact (hother ht).trans (h.idle t' op hop hf)

/-- The thread calls `flush_matching` for its operation. -/
theorem WindowInv.flushes (h : s.WindowInv) {t : Nat} {p : String} {op : NameOp} (hflush : op.flushing = true)
    (hwaited : ∀ x, op.waited [.collect p, .matched p (s.wb.writtenTo p)] x → s.Waited t x)
    (hcleared : ∀ x, ¬ op.cleared [.collect p, .matched p (s.wb.writtenTo p)] x) :
    ((s.flushes t p).goOn t (some op)).WindowInv := by
  have hself : (s.flushes t p).wb.threads t = [.collect p, .matched p (s.wb.writtenTo p)] := Function.update_self _ _ _
  refine h.switch (t := t) ⟨fun w hw hq => ⟨w, hw, hq, rfl⟩, fun _ _ hc => hc⟩ (fun _ _ _ _ _ _ q _ hq hm => ⟨q, hq, hm⟩)
    rfl (fun t' ht => Function.update_of_ne ht _ _) ?_ ?_ ?_
  · rintro o x ⟨⟩ hx
    exact h.waited t x (hwaited x (hself ▸ hx))
  · rintro o x ⟨⟩ hx
    exact absurd (hself ▸ hx) (hcleared x)
  · rintro o ⟨⟩ hf
    rw [hflush] at hf
    cases hf

/-- The `flush_matching` of the thread is over. -/
theorem WindowInv.afterRun {t : Nat} {wb : WriteBack} (h : WindowInv { s with wb }) (hnil : wb.threads t = []) :
    (s.afterRun t wb).WindowInv := by
  unfold Names.afterRun
  dsimp only
  split
  · rename_i src dst hop _
    split
    · refine h.flushes rfl ?_ ?_
      · rintro x (rfl | ⟨-, hc, -⟩)
        · exact ⟨_, hop, rfl, by simp [hnil], by simp [hnil]⟩
        · exact absurd List.mem_cons_self hc
      · rintro x ⟨rfl, hc⟩
        exact hc List.mem_cons_self
    · exact h.ends t
  · rename_i src dst hop _
    refine h.goOn ?_ ?_ ?_
    · intro o x ho hx
      split at ho
      · cases ho
        refine ⟨_, hop, hx.imp_right fun hx => ⟨hx, ?_, ?_⟩⟩ <;> simp [hnil]
      · cases ho
    · intro o x ho hx
      split at ho
      · cases ho
        exact ⟨_, hop, hx, by simp [hnil]⟩
      · cases ho
    · exact fun _ _ _ => hnil
  · exact h

/-- The thread returns the error of an upload, and with it its operation. -/
theorem WindowInv.fails (h : s.WindowInv) {t fh : Nat} {rest : List Instr} {wb : WriteBack}
    (hprog : s.wb.threads t = .takeError fh :: rest) (herr : s.wb.errors fh ≠ none)
    (he : s.wb.exec1 t rest (.takeError fh) = some wb) : (s.afterRun t wb).WindowInv := by
  have hthreads : wb.threads = Function.update s.wb.threads t [] := by
    rw [WriteBack.exec1_threads he, WriteBack.after, if_neg herr]
  have hfewer : Fewer s.wb wb := by
    simp only [WriteBack.exec1] at he
    split at he <;> cases he <;> exact ⟨fun w hw hq => ⟨w, hw, hq, rfl⟩, fun _ _ hc => hc⟩
  have hother : ∀ t', t' ≠ t → wb.threads t' = s.wb.threads t' := fun t' ht => by
    rw [hthreads, Function.update_of_ne ht]
  have hnil : wb.threads t = [] := by rw [hthreads, Function.update_self]
  have hends : (({ s with wb } : Names).goOn t none).WindowInv := by
    refine h.switch (t := t) hfewer (fun _ _ _ _ _ _ q _ hq hm => ⟨q, hq, hm⟩) rfl hother ?_ ?_ ?_
    · rintro o x ⟨⟩
    · rintro o x ⟨⟩
    · rintro o ⟨⟩
  unfold Names.afterRun
  dsimp only
  rw [hprog]
  split
  · exact hends
  · exact hends
  · rename_i hfrom hto
    refine h.frame hfewer fun t' op hop => hother t' ?_
    rintro rfl
    have hidle := h.idle t' op hop
    rw [hprog] at hidle
    cases op with
    | flushFrom src dst => exact hfrom src dst hop hnil
    | flushTo src dst => exact hto src dst hop hnil
    | _ => cases hidle rfl

theorem WindowInv.run (h : s.WindowInv) {t : Nat} {i : Instr} {rest : List Instr} {wb : WriteBack}
    (hprog : s.wb.threads t = i :: rest) (he : s.wb.exec1 t rest i = some wb) (hg : s.InstrGuard t i) :
    (s.afterRun t wb).WindowInv := by
  rcases s.wb.after_append i rest with ⟨-, fh, rfl, herr⟩ | ⟨new, hnew, -⟩
  · exact h.fails hprog herr he
  · have hwb := h.exec1 hprog he hnew hg
    by_cases hnil : wb.threads t = []
    · exact hwb.afterRun hnil
    · rw [afterRun_of_ne hnil]
      exact hwb

/-! ## The operations go on -/

theorem WindowInv.dropBuffers (h : s.WindowInv) {t : Nat} {p : String} (hop : s.ops t = some (.dropBuffers p))
    (hg : s.Recorded p) : ((s.dropBuffers p).goOn t (some (.waitUploads p))).WindowInv := by
  have hold : ∀ (fh : Nat) (c : Pending), (s.dropBuffers p).wb.buffers[fh]? = some c →
      s.wb.buffers[fh]? = some c ∧ matching p c.path = false := by
    intro fh c hc
    simp only [Names.dropBuffers, get?_collect, Option.bind_eq_some_iff] at hc
    obtain ⟨c₀, hc₀, he⟩ := hc
    split at he
    · cases he
    · cases he
      exact ⟨hc₀, Bool.eq_false_iff.2 ‹_›⟩
  refine h.switch (t := t) ⟨fun w hw hq => ⟨w, hw, hq, rfl⟩, fun fh c hc => (hold fh c hc).1⟩
    (fun _ _ _ _ _ _ q _ hq hm => ⟨q, hq, hm⟩) rfl (fun _ _ => rfl) ?_ ?_ fun _ _ _ => h.idle t _ hop rfl
  · rintro o x ⟨⟩ ⟨⟩
  · rintro o x ⟨⟩ rfl fh c q hc hq hm
    -- What was buffered for the files under the name has been dropped.
    have hrec := hg fh c q (hold fh c hc).1 hq hm
    rw [(hold fh c hc).2] at hrec
    cases hrec

theorem WindowInv.waitUploads (h : s.WindowInv) {t : Nat} {p : String} (hop : s.ops t = some (.waitUploads p))
    (hg : s.OpGuard t (.waitUploads p)) (hnone : ∀ u ∈ s.wb.inflight, u.pending.path ≠ p) :
    (s.goOn t (some (.remove p))).WindowInv := by
  refine h.switch (t := t) ⟨fun w hw hq => ⟨w, hw, hq, rfl⟩, fun _ _ hc => hc⟩
    (fun _ _ _ _ _ _ q _ hq hm => ⟨q, hq, hm⟩) rfl (fun _ _ => rfl) ?_ ?_ fun _ _ _ => h.idle t _ hop rfl
  · rintro o x ⟨⟩ rfl u hu hq
    rw [Bool.eq_false_iff, Ne, matching_iff]
    rintro (he | hb)
    · exact hnone u hu he
    · have hno : below x u.pending.path = false := hg u hu hq
      rw [hno] at hb
      cases hb
  · rintro o x ⟨⟩ rfl
    exact h.cleared t x ⟨_, hop, rfl⟩

/-- The inodes change, and the operation is over. -/
theorem WindowInv.setInodes (h : s.WindowInv) {t : Nat} {n : Inodes} {left : List Left}
    (hinodes : ∀ t' x, t' ≠ t → s.Cleared t' x → ∀ (fh : Nat) (c : Pending) q, s.wb.buffers[fh]? = some c →
      n.path c.ino = some q → matching x q = true → ∃ q', s.inodes.path c.ino = some q' ∧ matching x q' = true) :
    ((Names.setInodes { s with left } n).goOn t none).WindowInv := by
  refine h.switch (t := t) ⟨fun w hw hq => ⟨w, hw, hq, rfl⟩, fun _ _ hc => hc⟩ hinodes rfl (fun _ _ => rfl) ?_ ?_ ?_
  · rintro o x ⟨⟩
  · rintro o x ⟨⟩
  · rintro o ⟨⟩

theorem WindowInv.runOp (h : s.WindowInv) {t : Nat} {op : NameOp} (hop : s.ops t = some op) (hg : s.OpGuard t op)
    (hs : s.runOp t op = some s') : s'.WindowInv := by
  cases op <;> simp only [Names.runOp] at hs
  case moveInodes src dst =>
    cases hs
    exact h.setInodes hg.2
  case forgetInodes p =>
    cases hs
    refine h.setInodes fun t' x _ _ fh c q _ hq hm => ⟨q, (Inodes.removeTree_path.1 hq).1, hm⟩
  case dropBuffers p =>
    cases hs
    exact h.dropBuffers hop hg
  case waitUploads p =>
    simp only [Option.ite_none_left_eq_some, Option.some.injEq] at hs
    obtain ⟨hnone, rfl⟩ := hs
    refine h.waitUploads hop hg fun u hu he => hnone (List.any_eq_true.2 ⟨u, hu, decide_eq_true he⟩)
  all_goals cases hs

theorem fewer_step {wb : WriteBack} {b : WriteBackAct} (hcall : ∀ t, b ≠ .run t) (hset : ∀ n, b ≠ .setInodes n)
    (hs : s.wb.step ignore b = some wb) :
    Fewer s.wb wb ∧ ∀ t, wb.threads t = s.wb.threads t ∨ ∃ c, b = .call t c := by
  have hstate : ∀ (n : Nat) state, state ≠ .queued → ∀ w ∈ (s.wb.setState n state).inflight, w.state = .queued →
      ∃ u ∈ s.wb.inflight, u.state = .queued ∧ u.pending = w.pending := by
    intro n state hst w hw hq
    obtain ⟨u, hu, rfl⟩ := List.mem_map.1 hw
    split at hq
    · exact absurd hq hst
    · exact ⟨u, hu, hq, by rw [if_neg ‹_›]⟩
  have htaken : ∀ n, ∀ w ∈ s.wb.inflight.filter (·.id ≠ n), w.state = .queued →
      ∃ u ∈ s.wb.inflight, u.state = .queued ∧ u.pending = w.pending :=
    fun n w hw hq => ⟨w, (List.mem_filter.1 hw).1, hq, rfl⟩
  cases WriteBack.step_cases hs with
  | @call t c prog hidle hprog =>
    refine ⟨⟨fun w hw hq => ⟨w, hw, hq, rfl⟩, fun _ _ hc => hc⟩, fun t' => ?_⟩
    by_cases ht : t' = t
    · exact .inr ⟨c, ht ▸ rfl⟩
    · exact .inl (Function.update_of_ne ht _ _)
  | @run t => exact absurd rfl (hcall t)
  | upload hu hq => exact ⟨⟨hstate _ _ (by simp), fun _ _ hc => hc⟩, fun _ => .inl rfl⟩
  | uploadFails hu hq => exact ⟨⟨hstate _ _ (by simp), fun _ _ hc => hc⟩, fun _ => .inl rfl⟩
  | completeWritten hu hw => exact ⟨⟨htaken _, fun _ _ hc => hc⟩, fun _ => .inl rfl⟩
  | completeFailed hu hf => exact ⟨⟨htaken _, fun _ _ hc => hc⟩, fun _ => .inl rfl⟩
  | setInodes => exact absurd rfl (hset _)

/-- A path gets its inode. Those with buffered data have theirs. -/
theorem WindowInv.ino (h : s.WindowInv) (p : String)
    (hpath : ∀ (fh : Nat) (c : Pending), s.wb.buffers[fh]? = some c → s.inodes.path c.ino ≠ none) :
    (s.setInodes (s.inodes.ino p)).WindowInv := by
  refine ⟨h.waited, fun t x hx fh c q hc hq hm => ?_, h.idle⟩
  rw [Names.setInodes, Inodes.ino_path (hpath fh c hc)] at hq
  exact h.cleared t x hx fh c q hc hq hm

theorem WindowInv.setRemote (h : s.WindowInv) (remote : String → Bytes) : (s.setRemote remote).WindowInv :=
  ⟨h.waited, h.cleared, h.idle⟩

/-- After `mutate` an operation has waited for what it had before, or it is over. -/
theorem WindowInv.next (h : s.WindowInv) {t : Nat} {op : NameOp} (op' : NameOp) (hop : s.ops t = some op)
    (hflush : op.flushing = false) (hwaited : ∀ prog x, op'.waited prog x → op.waited prog x)
    (hcleared : ∀ prog x, op'.cleared prog x → op.cleared prog x) (ok : Bool) :
    (s.goOn t (if ok then some op' else none)).WindowInv := by
  cases ok with
  | false => exact h.ends t
  | true =>
    refine h.goOn ?_ ?_ fun _ _ _ => h.idle t op hop hflush
    · rintro o x ⟨⟩ hx
      exact ⟨op, hop, hwaited _ x hx⟩
    · rintro o x ⟨⟩ hx
      exact ⟨op, hop, hcleared _ x hx⟩

theorem WindowInv.step (h : s.WindowInv) (hg : s.FollowGuard a)
    (hpath : ∀ (fh : Nat) (c : Pending), s.wb.buffers[fh]? = some c → s.inodes.path c.ino ≠ none)
    (hs : s.step ignore a = some s') : s'.WindowInv := by
  unfold Names.step at hs
  split at hs
  · cases hs
  · rename_i t c
    split at hs
    · rename_i hop
      obtain ⟨wb, hstep, rfl⟩ := Option.map_eq_some_iff.1 hs
      obtain ⟨hf, hthreads⟩ := fewer_step (by simp) (by simp) hstep
      refine h.frame hf fun t' op hop' => (hthreads t').resolve_right ?_
      rintro ⟨c', he⟩
      cases he
      rw [hop] at hop'
      cases hop'
    · cases hs
  · rename_i t
    obtain ⟨wb, he, rfl⟩ := Option.map_eq_some_iff.1 hs
    cases WriteBack.step_cases he with
    | @run _ i rest _ hprog hexec => exact h.run hprog hexec (hg i rest hprog)
  · rename_i b hset hcall hrun
    obtain ⟨wb, hstep, rfl⟩ := Option.map_eq_some_iff.1 hs
    obtain ⟨hf, hthreads⟩ := fewer_step (fun t ht => hrun t (by rw [ht])) (fun n hn => hset n (by rw [hn])) hstep
    exact h.frame hf fun t _ _ => (hthreads t).resolve_right fun ⟨c, hc⟩ => hcall t c (by rw [hc])
  · cases hs
    exact h.ino _ hpath
  · rename_i t src dst
    split at hs
    · split at hs
      · cases hs
      · cases hs
        refine h.flushes rfl ?_ ?_
        · rintro x ⟨rfl, hc, -⟩
          exact absurd List.mem_cons_self hc
        · rintro x ⟨⟩
    · cases hs
  · split at hs
    · rename_i hidle
      split at hs
      · cases hs
      · cases hs
        refine h.goOn ?_ ?_ fun _ _ _ => hidle
        · rintro o x ⟨⟩ ⟨⟩
        · rintro o x ⟨⟩ ⟨⟩
    · cases hs
  · rename_i t applied ok
    split at hs
    · rename_i src dst hop
      cases hs
      have hnext : (s.goOn t (if ok then some (.moveInodes src dst) else none)).WindowInv :=
        h.next (.moveInodes src dst) hop rfl (fun _ _ hx => hx) (fun _ _ hx => hx) ok
      cases applied with
      | true => exact hnext.setRemote (s.renameRemote src dst).wb.remote
      | false => exact hnext
    · rename_i p hop
      cases hs
      have hnext : (s.goOn t (if ok then some (.forgetInodes p) else none)).WindowInv :=
        h.next (.forgetInodes p) hop rfl (fun _ _ hx => hx) (fun _ _ hx => hx) ok
      cases applied with
      | true => exact hnext.setRemote (s.removeRemote p).wb.remote
      | false => exact hnext
    · cases hs
  · obtain ⟨op, hop, hs⟩ := Option.bind_eq_some_iff.1 hs
    exact h.runOp hop (hg op hop) hs

end Names

end Mobfs
