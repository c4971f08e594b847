import Mobfs.Daemon.Uploads
/-!
# Requests that are answered with an error

A handler stops at the first of its calls that fails, and what it has done so far stays done.
`rejected_spares_iff` says of every request that replaces, moves or makes an entry when what
was at its paths is still there after it was answered with `Error`. A `Symlink` whose last
call fails has removed what it was to replace (`symlink_removes`); a `Truncate`, `Rename` or
`Symlink` whose marker cannot be written has taken effect.
-/

namespace Mobfs

open Lib Std
open WriteBack (matching)

/-- What is relied on beyond `Walks.Real`. -/
structure Walks.Steady (w : Walks) : Prop extends w.Real where
  /-- The directories of what is there are there. -/
  ways : ∀ t mode p q, w.locate t p = some q → t.node q ≠ none →
    ∀ d ∈ ancestors p, createDir w.toLinks mode t d = some t
  /-- A path leads where it led after a directory has been made. -/
  stays : ∀ t t' mode d p q, createDir w.toLinks mode t d = some t' → w.locate t p = some q → w.locate t' p = some q
  /-- Entries with two names in a directory do not lie below each other. -/
  beside' : ∀ t p n n' q q', '/' ∉ n.toList → '/' ∉ n'.toList → n ≠ n' → w.locate t (withFileName p n) = some q →
    w.locate t (withFileName p n') = some q' → below q q' = false

/-- What was at the path, and below it, is there with the same kind and contents. A link
at the end of the path is not followed. -/
def Walks.Spared (w : Walks) (t t' : Tree) (p : String) : Prop :=
  ∀ q, w.locate t p = some q → t.node q ≠ none → w.locate t' p = some q ∧
    ∀ r n, matching q r = true → t.node r = some n → (t'.node r).map Node.bare = some n.bare

/-- The call with this number, counted from zero, is not let through. -/
def Handling.cuts (h : Handling) (n : Nat) : Bool := h.refused.any (· ≤ n)

/-- `once` looks for its marker before the other calls. -/
def markerCalls (opId : Option String) : Nat := if opId.isSome then 1 else 0

namespace Request

/-- The requests that replace, move or make entries. -/
def replaces : Request → Bool
  | .symlink _ _ _ _ | .writeFile _ _ _ _ | .writeFileFinish _ _ _ _ _ | .truncate _ _ _ _ | .rename _ _ _ _
  | .mkdir _ _ _ => true
  | _ => false

/-- If the request fails, it does so before it has destroyed something. -/
def Careful (w : Walks) (sha : Bytes → String) (pid : Nat) (h : Handling) (t : Tree) : Request → Prop
  | .symlink _ p target opId =>
    let first := markerCalls opId + (ancestors p).length
    ∀ q n, w.locate t p = some q → t.node q = some n → n.isDir = false →
      h.cuts first ∨ (h.cuts (first + 1) = false ∧ n.bare = .symlink target 0 0 ∧ w.locate (t.drop q) p = some q)
  | .truncate _ p size opId =>
    ∀ q data mode mtime, w.locate t p = some q → t.node q = some (.file data mode mtime) →
      resize data size = data ∨ h.cuts (markerCalls opId + (ancestors p).length + 1)
  | .rename _ src dst opId =>
    h.unseen = true ∨ h.cuts (markerCalls opId + (ancestors dst).length) ∨
      ∀ t1 q q', createDirs w.toLinks h.stamp.dirMode t (ancestors dst) = some t1 → w.locate t src = some q →
        t.node q ≠ none → w.locate t1 dst = some q' → q = q' ∨ t1.rename q q' = none
  | .writeFile _ p data _ =>
    ∀ q q0 old mode mtime, w.locate t p = some q → t.node q ≠ none → w.follow t (atomicTempPath pid p) = some q0 →
      t.node q0 = some (.file old mode mtime) → matching q q0 = true →
      h.cuts (ancestors p).length ∨ old = if h.cuts ((ancestors p).length + 1) then [] else data
  | .writeFileFinish _ p uploadId sum _ =>
    ∀ temp q qt, uploadTempPath p uploadId = some temp → w.locate t p = some q → t.node q ≠ none →
      w.locate t temp = some qt → t.isLink qt = true →
      (∀ data mode mtime, (w.follow t temp).bind t.node = some (.file data mode mtime) → sha data = sum) ∨
        h.cuts 0 ∨ w.locate (t.drop qt) p = some q
  | _ => True

end Request

/-! ## Running calls -/

section Calls
variable {h : Handling} {t : Tree} {n : Nat}

/-- Past `n` calls, the next is refused when the handling is cut off there. -/
theorem Handling.refused_sub_eq_zero : h.refused.map (· - n) = some 0 ↔ h.cuts n = true := by
  unfold Handling.cuts
  cases h.refused with
  | none => simp
  | some m => simp [Nat.sub_eq_zero_iff_le]

theorem Handling.refused_sub_succ : (h.refused.map (· - n)).map (· - 1) = h.refused.map (· - (n + 1)) := by
  rw [Option.map_map]
  rfl

theorem runCalls_at {c : Tree → Option Tree} {cs : List (Tree → Option Tree)} :
    runCalls (h.refused.map (· - n)) t (c :: cs) =
      if h.cuts n = true then (t, false)
      else
        match c t with
        | none => (t, false)
        | some t' => runCalls (h.refused.map (· - (n + 1))) t' cs := by
  rw [runCalls, Handling.refused_sub_succ]
  by_cases hcut : h.cuts n = true
  · rw [if_pos (Handling.refused_sub_eq_zero.2 hcut), if_pos hcut]
  · exact (if_neg fun h => hcut (Handling.refused_sub_eq_zero.1 h)).trans (if_neg hcut).symm

theorem Handling.cuts_mono {m : Nat} (hcut : h.cuts n = true) (hm : n ≤ m) : h.cuts m = true := by
  obtain ⟨x, hx, hle⟩ := (Option.any_eq_true _ _).1 hcut
  rw [decide_eq_true_eq] at hle
  exact (Option.any_eq_true _ _).2 ⟨x, hx, decide_eq_true (by omega)⟩

/-- Calls that change nothing: one of them is not let through, or the others follow. -/
theorem runCalls_skip {cs : List (Tree → Option Tree)} (ds : List (Tree → Option Tree)) (hskip : ∀ c ∈ cs, c t = some t) :
    (runCalls (h.refused.map (· - n)) t (cs ++ ds) = (t, false) ∧ h.cuts (n + cs.length) = true) ∨
      runCalls (h.refused.map (· - n)) t (cs ++ ds) = runCalls (h.refused.map (· - (n + cs.length))) t ds := by
  induction cs generalizing n with
  | nil => exact .inr rfl
  | cons c cs ih =>
    rw [List.cons_append, runCalls_at, hskip c List.mem_cons_self, List.length_cons]
    by_cases hcut : h.cuts n = true
    · rw [if_pos hcut]
      exact .inl ⟨rfl, Handling.cuts_mono hcut (by omega)⟩
    · rw [if_neg hcut, show n + (cs.length + 1) = n + 1 + cs.length by omega]
      exact ih fun d hd => hskip d (List.mem_cons_of_mem _ hd)

/-- The run stops in the first calls, or the others follow. -/
theorem runCalls_split (h : Handling) (n : Nat) (t : Tree) (cs ds : List (Tree → Option Tree)) :
    (runCalls (h.refused.map (· - n)) t (cs ++ ds) = ((runCalls (h.refused.map (· - n)) t cs).1, false) ∧
        (h.cuts (n + cs.length) = true ∨ cs.foldlM (fun t c => c t) t = none)) ∨
      ∃ t1, cs.foldlM (fun t c => c t) t = some t1 ∧
        runCalls (h.refused.map (· - n)) t (cs ++ ds) = runCalls (h.refused.map (· - (n + cs.length))) t1 ds := by
  induction cs generalizing n t with
  | nil => exact .inr ⟨t, rfl, rfl⟩
  | cons c cs ih =>
    rw [List.cons_append, runCalls_at, runCalls_at, List.length_cons, List.foldlM_cons]
    by_cases hcut : h.cuts n = true
    · rw [if_pos hcut, if_pos hcut]
      exact .inl ⟨rfl, .inl (Handling.cuts_mono hcut (by omega))⟩
    · rw [if_neg hcut, if_neg hcut]
      cases c t with
      | none => exact .inl ⟨rfl, .inr rfl⟩
      | some t1 =>
        rw [show n + (cs.length + 1) = n + 1 + cs.length by omega]
        exact ih (n + 1) t1

end Calls

/-! ## Trees in which something is spared -/

section Spared
variable {w : Walks} {t t' t1 : Tree} {p q q0 : String}

theorem spared_refl (p : String) : w.Spared t t p := fun q hq _ => ⟨hq, fun r n _ hr => by rw [hr, Option.map_some]⟩

/-- There was nothing. -/
theorem spared_of_none (h : ∀ q, w.locate t p = some q → t.node q = none) : w.Spared t t' p :=
  fun q hq hn => absurd (h q hq) hn

theorem spared_iff (hq : w.locate t p = some q) (hn : t.node q ≠ none) :
    w.Spared t t' p ↔ w.locate t' p = some q ∧
      ∀ r n, matching q r = true → t.node r = some n → (t'.node r).map Node.bare = some n.bare := by
  constructor
  · exact fun h => h q hq hn
  · intro h q' hq' _
    obtain rfl : q = q' := Option.some.inj (hq.symm.trans hq')
    exact h

/-- What has its old name and contents after the first part is spared by the whole if the
second part spares it. -/
theorem Walks.Spared.trans (h : w.Spared t t1 p) (h1 : w.Spared t1 t' p) : w.Spared t t' p := by
  intro q hq hn
  obtain ⟨hq1, hkept⟩ := h q hq hn
  have hsome : ∀ {r n}, (t1.node r).map Node.bare = some n → ∃ n1, t1.node r = some n1 ∧ n1.bare = n :=
    fun h => Option.map_eq_some_iff.1 h
  obtain ⟨n, hn⟩ := Option.ne_none_iff_exists'.1 hn
  obtain ⟨n1, hn1, -⟩ := hsome (hkept q n (matching_self q) hn)
  obtain ⟨hq', hkept'⟩ := h1 q hq1 (by simp [hn1])
  refine ⟨hq', fun r m hr hm => ?_⟩
  obtain ⟨m1, hm1, hbare⟩ := hsome (hkept r m hr hm)
  rw [hkept' r m1 hr hm1, hbare]

theorem spared_of_metaOnly (hm : t.MetaOnly t') : w.Spared t t' p := by
  intro q hq _
  rw [w.meta_locate t t' hm]
  exact ⟨hq, fun r n _ hr => by rw [hm r, hr, Option.map_some]⟩

/-- A directory is made, or any number of them. -/
theorem spared_of_createDir {mode : Nat} {d : String} (hw : w.Steady) (hc : createDir w.toLinks mode t d = some t') :
    w.Spared t t' p := by
  intro q hq _
  refine ⟨hw.stays t t' mode d p q hc hq, fun r n _ hr => ?_⟩
  rcases createDir_adds hc r with hsame | ⟨-, hnone, -⟩
  · rw [hsame, hr, Option.map_some]
  · rw [hr] at hnone
    cases hnone

/-- The entries but one are as they were, and no way is another. -/
structure Elsewhere (w : Walks) (q0 : String) (t t' : Tree) : Prop where
  locate : w.locate t' = w.locate t
  node : ∀ r, r ≠ q0 → (t'.node r).map Node.bare = (t.node r).map Node.bare

theorem Elsewhere.spared (h : Elsewhere w q0 t t') (hoff : ∀ q n, w.locate t p = some q → t.node q ≠ none →
    matching q q0 = true → t.node q0 = some n → (t'.node q0).map Node.bare = some n.bare) : w.Spared t t' p := by
  intro q hq hthere
  rw [h.locate]
  refine ⟨hq, fun r n hr hn => ?_⟩
  by_cases hr0 : r = q0
  · rw [hr0] at hr hn ⊢
    exact hoff q n hq hthere hr hn
  · rw [h.node r hr0, hn, Option.map_some]

/-- Something is spared by an edit of a file unless it is the file, or it lies above it. -/
theorem Elsewhere.spared_iff {data data' : Bytes} {mode mode' : Nat} {mtime mtime' : Int} (h : Elsewhere w q0 t t')
    (hold : t.node q0 = some (.file data mode mtime)) (hnew : t'.node q0 = some (.file data' mode' mtime')) :
    w.Spared t t' p ↔ ∀ q, w.locate t p = some q → t.node q ≠ none → matching q q0 = true → data = data' := by
  constructor
  · intro hs q hq hn hm
    have := (hs q hq hn).2 q0 _ hm hold
    rw [hnew, Option.map_some, Option.some_inj] at this
    exact (Node.file.inj this).1.symm
  · intro hsame
    refine h.spared fun q n hq hthere hm hn => ?_
    obtain rfl : Node.file data mode mtime = n := Option.some.inj (hold.symm.trans hn)
    rw [hnew, ← hsame q hq hthere hm]
    rfl

theorem Elsewhere.refl (q0 : String) (t : Tree) : Elsewhere w q0 t t := ⟨rfl, fun _ _ => rfl⟩

theorem Elsewhere.trans (h : Elsewhere w q0 t t1) (h1 : Elsewhere w q0 t1 t') : Elsewhere w q0 t t' :=
  ⟨h1.locate.trans h.locate, fun r hr => (h1.node r hr).trans (h.node r hr)⟩

theorem elsewhere_of_metaOnly (hm : t.MetaOnly t') : Elsewhere w q0 t t' := ⟨w.meta_locate t t' hm, fun r _ => hm r⟩

section Writes
variable {stamp : Stamp} {f : String}

theorem elsewhere_of_place {data : Bytes} {mode : Nat} {mtime : Int} (hw : w.Real) (hf : w.follow t f = some q0)
    (hlink : t.isLink q0 = false) (hp : t.place q0 (.file data mode mtime) = some t') :
    w.follow t' f = some q0 ∧ Elsewhere w q0 t t' := by
  refine ⟨w.follow_place t t' f q0 _ hf hlink rfl hp, (OffWay.of_place hlink hp).locate_eq hw, fun r hr => ?_⟩
  rw [(Tree.place_eq_some hp).2.2, if_neg hr]

theorem openCreate_elsewhere (hw : w.Real) (hf : w.follow t f = some q0) (ho : openCreate w stamp f t = some t') :
    w.follow t' f = some q0 ∧ Elsewhere w q0 t t' := by
  simp only [openCreate, hf] at ho
  split at ho
  · rename_i hn
    exact elsewhere_of_place hw hf (by rw [Tree.isLink, hn]; rfl) ho
  · cases ho
    exact ⟨hf, .refl q0 t⟩
  · cases ho

theorem editFile_elsewhere {g : Bytes → Bytes} (hw : w.Real) (hf : w.follow t f = some q0)
    (he : editFile w stamp f g t = some t') : w.follow t' f = some q0 ∧ Elsewhere w q0 t t' := by
  simp only [editFile, hf] at he
  split at he
  · rename_i hn
    exact elsewhere_of_place hw hf (by rw [Tree.isLink, hn]; rfl) he
  · cases he

theorem writeAll_elsewhere {offset : Nat} {data : Bytes} (hw : w.Real) (hf : w.follow t f = some q0)
    (he : writeAll w stamp f offset data t = some t') : w.follow t' f = some q0 ∧ Elsewhere w q0 t t' := by
  unfold writeAll at he
  split at he
  · cases he
    exact ⟨hf, .refl q0 t⟩
  · exact editFile_elsewhere hw hf he

theorem follow_of_openCreate (ho : openCreate w stamp f t = some t') : ∃ q0, w.follow t f = some q0 := by
  cases hf : w.follow t f with
  | none => simp [openCreate, hf] at ho
  | some q0 => exact ⟨q0, rfl⟩

/-- What is opened for writing is a file or is made. -/
theorem file_of_openCreate {n : Node} (hf : w.follow t f = some q0) (ho : openCreate w stamp f t = some t')
    (hn : t.node q0 = some n) : ∃ data mode mtime, n = .file data mode mtime := by
  simp only [openCreate, hf, hn] at ho
  cases n with
  | file data mode mtime => exact ⟨data, mode, mtime, rfl⟩
  | _ => cases ho

end Writes

end Spared

/-! ## Requests for what is there -/

/-- Whether the marker is looked for and written. -/
def marks (opId : Option String) : List (Tree → Option Tree) := if opId.isSome then [some] else []

section Handle
variable {w : Walks} {sha : Bytes → String} {pid : Nat} {h : Handling} {t : Tree} {p q : String} {n : Node}

theorem length_marks (opId : Option String) : (marks opId).length = markerCalls opId := by
  unfold marks markerCalls
  split <;> rfl

theorem marks_same {opId : Option String} {c : Tree → Option Tree} (hc : c ∈ marks opId) (t : Tree) : c t = some t := by
  unfold marks at hc
  split at hc
  · rw [List.mem_singleton.1 hc]
  · cases hc

theorem handle_rejected {r : Request} {marked : Bool} (hrejected : (r.handle w sha pid h marked [] t).ok = false) :
    (r.handle w sha pid h marked [] t).tree =
        (runCalls (h.refused.map (· - 0)) t (marks r.onceId ++ (r.calls w sha pid h [] t ++ marks r.onceId))).1 ∧
      (runCalls (h.refused.map (· - 0)) t (marks r.onceId ++ (r.calls w sha pid h [] t ++ marks r.onceId))).2 = false := by
  have hall : h.refused.map (· - 0) = h.refused := by cases h.refused <;> rfl
  rw [hall]
  unfold Request.handle at hrejected ⊢
  by_cases hm : (r.onceId.isSome && marked) = true
  · rw [if_pos hm] at hrejected
    cases hrejected
  · rw [if_neg hm] at hrejected ⊢
    cases hid : r.onceId.isSome <;>
      simp only [marks, hid, Bool.false_eq_true, if_true, if_false, List.nil_append, List.append_nil, List.cons_append] at hrejected ⊢ <;>
      exact ⟨trivial, hrejected⟩

theorem runCalls_keep {cs : List (Tree → Option Tree)} {refused : Option Nat} (hc : ∀ c ∈ cs, c t = some t) :
    (runCalls refused t cs).1 = t := by
  refine runCalls_inv (R := (· = t)) (fun c hmem t1 t2 h1 h2 => ?_) rfl
  rw [h1, hc c hmem] at h2
  exact (Option.some.inj h2).symm

theorem runCalls_fails (refused : Option Nat) : (runCalls refused t [fun _ => none]).1 = t := by
  unfold runCalls
  split <;> rfl

/-- Where something is, `create_dir_all` has nothing to do. -/
theorem run_there (hw : w.Steady) (hq : w.locate t p = some q) (hn : t.node q ≠ none) (opId : Option String)
    (ds : List (Tree → Option Tree)) :
    (runCalls (h.refused.map (· - 0)) t (marks opId ++ ((createDirAll w h.stamp (ancestors p) ++ ds) ++ marks opId)) = (t, false) ∧
        h.cuts (markerCalls opId + (ancestors p).length) = true) ∨
      runCalls (h.refused.map (· - 0)) t (marks opId ++ ((createDirAll w h.stamp (ancestors p) ++ ds) ++ marks opId)) =
        runCalls (h.refused.map (· - (markerCalls opId + (ancestors p).length))) t (ds ++ marks opId) := by
  have hskip : ∀ c ∈ marks opId ++ createDirAll w h.stamp (ancestors p), c t = some t := by
    intro c hc
    rcases List.mem_append.1 hc with hc | hc
    · exact marks_same hc t
    · obtain ⟨d, hd, rfl⟩ := createDirAll_mem hc
      exact hw.ways t _ p q hq hn d hd
  have hlen : 0 + (marks opId ++ createDirAll w h.stamp (ancestors p)).length = markerCalls opId + (ancestors p).length := by
    rw [List.length_append, length_marks, createDirAll, List.length_map, Nat.zero_add]
  rw [List.append_assoc, ← List.append_assoc, ← hlen]
  exact runCalls_skip _ hskip

/-! ## Links -/

theorem symlink_spared_iff {first : Nat} {target : String} {last : List (Tree → Option Tree)} (hq : w.locate t p = some q)
    (hn : t.node q = some n) (hlast : ∀ c ∈ last, ∀ t, c t = some t) :
    w.Spared t (runCalls (h.refused.map (· - first)) t ([removeFile w p, makeLink w h.stamp p target] ++ last)).1 p ↔
      (n.isDir = false →
        h.cuts first ∨ (h.cuts (first + 1) = false ∧ n.bare = .symlink target 0 0 ∧ w.locate (t.drop q) p = some q)) := by
  have hthere : t.node q ≠ none := by simp [hn]
  rw [List.cons_append, runCalls_at]
  by_cases hcut : h.cuts first = true
  · rw [if_pos hcut]
    exact iff_of_true (spared_refl p) fun _ => .inl hcut
  · rw [if_neg hcut]
    simp only [removeFile, hq]
    by_cases hdir : n.isDir = true
    · -- A directory is not removed, and no link is made in its place.
      have hisDir : t.isDir q = true := by rw [Tree.isDir, hn, Option.any_some, hdir]
      rw [if_pos hisDir]
      refine iff_of_true ?_ fun hfile => by rw [hdir] at hfile; cases hfile
      rw [List.singleton_append, runCalls_at, makeLink, hq]
      simp only [hthere, if_false]
      split <;> exact spared_refl p
    · have hfile : n.isDir = false := by simpa using hdir
      have hisDir : t.isDir q = false := by rw [Tree.isDir, hn, Option.any_some, hfile]
      rw [if_neg (by simp [hisDir]), List.singleton_append, runCalls_at]
      have hdrop := Tree.node_drop_of_not_isDir hisDir
      have hgone : ¬ w.Spared t (t.drop q) p := by
        intro hs
        have := ((spared_iff hq hthere).1 hs).2 q n (matching_self q) hn
        rw [hdrop, if_pos rfl] at this
        cases this
      by_cases hcut' : h.cuts (first + 1) = true
      · rw [if_pos hcut']
        exact iff_of_false hgone fun hc => by simpa [hcut, hcut'] using hc hfile
      · rw [if_neg hcut']
        have hcut' : h.cuts (first + 1) = false := by simpa using hcut'
        simp only [hfile, forall_const, hcut, hcut', Bool.false_eq_true, false_or, true_and]
        have hnone : (t.drop q).node q = none := by rw [hdrop, if_pos rfl]
        cases hmade : makeLink w h.stamp p target (t.drop q) with
        | none =>
          refine iff_of_false hgone fun hc => ?_
          obtain ⟨t3, h3⟩ := Tree.place_isSome (t := t.drop q) (.symlink target h.stamp.linkMode h.stamp.mtime)
            (fun d hd => by
              rw [Tree.isDir, hdrop, if_neg (ne_of_below hd)]
              exact Tree.isDir_of_below hd hthere)
            (by rw [Tree.isDir, hnone]; rfl)
          simp [makeLink, hc.2, hnone, h3] at hmade
        | some t3 =>
          rw [runCalls_keep fun c hc => hlast c hc t3]
          unfold makeLink at hmade
          split at hmade
          · cases hmade
          · rename_i q2 hq2
            split at hmade
            · rename_i hn2
              have hq3 := w.locate_place _ t3 p q2 _ hq2 (by rw [Tree.isLink, hn2]; rfl) hmade
              have hnode := (Tree.place_eq_some hmade).2.2
              rw [spared_iff hq hthere, hq2, hq3, Option.some_inj]
              constructor
              · rintro ⟨rfl, hkept⟩
                have := hkept q2 n (matching_self q2) hn
                rw [hnode, if_pos rfl, Option.map_some, Option.some_inj] at this
                exact ⟨this.symm, rfl⟩
              · rintro ⟨hbare, rfl⟩
                refine ⟨rfl, fun r m hr hm => ?_⟩
                rcases matching_iff.1 hr with rfl | hb
                · obtain rfl : n = m := Option.some.inj (hn.symm.trans hm)
                  rw [hnode, if_pos rfl, hbare]
                  rfl
                · rw [Tree.none_of_below hb hisDir] at hm
                  cases hm
            · cases hmade

/-! ## Files -/

theorem truncate_spared_iff (hw : w.Real) {first size : Nat} {last : List (Tree → Option Tree)} (hq : w.locate t p = some q)
    (hthere : t.node q ≠ none) (hlast : ∀ c ∈ last, ∀ t, c t = some t) :
    w.Spared t (runCalls (h.refused.map (· - first)) t
        ([openCreate w h.stamp p, editFile w h.stamp p (resize · size)] ++ last)).1 p ↔
      ∀ data mode mtime, t.node q = some (.file data mode mtime) → resize data size = data ∨ h.cuts (first + 1) = true := by
  rw [List.cons_append, runCalls_at]
  by_cases hcut : h.cuts first = true
  · rw [if_pos hcut]
    exact iff_of_true (spared_refl p) fun _ _ _ _ => .inr (Handling.cuts_mono hcut (by omega))
  · rw [if_neg hcut]
    by_cases hfile : ∃ data mode mtime, t.node q = some (.file data mode mtime)
    · obtain ⟨data, mode, mtime, hn⟩ := hfile
      have hf := w.follow_eq t p q hq (by rw [Tree.isLink, hn]; rfl)
      simp only [openCreate_of_file h.stamp hf hn, List.singleton_append]
      rw [runCalls_at]
      by_cases hcut' : h.cuts (first + 1) = true
      · rw [if_pos hcut']
        exact iff_of_true (spared_refl p) fun _ _ _ _ => .inr hcut'
      · rw [if_neg hcut']
        obtain ⟨t2, h2, -, hnode⟩ := editFile_of_file (f := (resize · size)) h.stamp hf hn
        simp only [h2]
        rw [runCalls_keep fun c hc => hlast c hc t2,
          (editFile_elsewhere hw hf h2).2.spared_iff hn (by rw [hnode, if_pos rfl])]
        constructor
        · intro hs data' mode' mtime' hn'
          obtain ⟨rfl, -, -⟩ := Node.file.inj (Option.some.inj (hn.symm.trans hn'))
          exact .inl (hs q hq hthere (matching_self q)).symm
        · intro hc _ _ _ _
          exact ((hc data mode mtime hn).resolve_right hcut').symm
    · -- It is no file, and what the path leads to is another entry.
      refine iff_of_true ?_ fun data mode mtime hn => absurd ⟨data, mode, mtime, hn⟩ hfile
      cases ho : openCreate w h.stamp p t with
      | none => exact spared_refl p
      | some t1 =>
        obtain ⟨q0, hf⟩ := follow_of_openCreate ho
        have hinv : w.follow (runCalls (h.refused.map (· - (first + 1))) t1 ([editFile w h.stamp p (resize · size)] ++ last)).1 p =
            some q0 ∧ Elsewhere w q0 t
              (runCalls (h.refused.map (· - (first + 1))) t1 ([editFile w h.stamp p (resize · size)] ++ last)).1 := by
          refine runCalls_inv (R := fun T => w.follow T p = some q0 ∧ Elsewhere w q0 t T) (fun c hc T T' hT hcT => ?_)
            (openCreate_elsewhere hw hf ho)
          rcases List.mem_append.1 hc with hc | hc
          · rw [List.mem_singleton.1 hc] at hcT
            obtain ⟨hf', helse⟩ := editFile_elsewhere hw hT.1 hcT
            exact ⟨hf', hT.2.trans helse⟩
          · rw [hlast c hc T] at hcT
            cases hcT
            exact hT
        refine hinv.2.spared fun q' n hq' _ hm hn => ?_
        obtain rfl : q = q' := Option.some.inj (hq.symm.trans hq')
        obtain ⟨data, mode, mtime, rfl⟩ := file_of_openCreate hf ho hn
        have hlead : t.isLink q = false → q = q0 := fun hlink =>
          Option.some.inj ((w.follow_eq t p q hq hlink).symm.trans hf)
        rcases matching_iff.1 hm with rfl | hb
        · exact absurd ⟨data, mode, mtime, hn⟩ hfile
        · have hdir : t.isDir q = true := Tree.isDir_of_below hb (by simp [hn])
          rw [hlead (Tree.isLink_of_isDir hdir), below_irrefl] at hb
          cases hb

/-- What the temporary leads to is still empty, or it has the data. -/
theorem written_of_rejected (hw : w.Real) {first mode mode0 : Nat} {mtime : Int} {temp q0 : String} {data : Bytes}
    (hf : w.follow t temp = some q0) (hn : t.node q0 = some (.file [] mode0 mtime))
    (hrejected : (runCalls (h.refused.map (· - first)) t
      ([writeAll w h.stamp temp 0 data] ++ (chmodCalls w temp mode ++ [moveEntry w temp p]))).2 = false) :
    ∃ mode1 mtime1,
      Elsewhere w q0 t (runCalls (h.refused.map (· - first)) t
        ([writeAll w h.stamp temp 0 data] ++ (chmodCalls w temp mode ++ [moveEntry w temp p]))).1 ∧
      (runCalls (h.refused.map (· - first)) t
        ([writeAll w h.stamp temp 0 data] ++ (chmodCalls w temp mode ++ [moveEntry w temp p]))).1.node q0 =
          some (.file (if h.cuts first then [] else data) mode1 mtime1) := by
  rw [List.singleton_append, runCalls_at] at hrejected ⊢
  by_cases hcut : h.cuts first = true
  · simp only [if_pos hcut]
    exact ⟨mode0, mtime, .refl q0 t, hn⟩
  · simp only [if_neg hcut] at hrejected ⊢
    obtain ⟨t1, mtime1, h1, hn1, helse⟩ : ∃ t1 mtime1, writeAll w h.stamp temp 0 data t = some t1 ∧
        t1.node q0 = some (.file data mode0 mtime1) ∧ Elsewhere w q0 t t1 := by
      by_cases hnil : data = []
      · exact ⟨t, mtime, by rw [writeAll, if_pos hnil], by rw [hn, hnil], .refl q0 t⟩
      · obtain ⟨t1, h1, -, hnode⟩ := editFile_of_file (f := (writeAt 0 · 0 data)) h.stamp hf hn
        refine ⟨t1, h.stamp.mtime, by rw [writeAll, if_neg hnil, h1], ?_, (editFile_elsewhere hw hf h1).2⟩
        rw [hnode, if_pos rfl]
        exact congrArg (fun d => some (Node.file d mode0 h.stamp.mtime)) (writeAt_end 0 [] data)
    simp only [h1] at hrejected ⊢
    have hm : t1.MetaOnly (runCalls (h.refused.map (· - (first + 1))) t1 (chmodCalls w temp mode ++ [moveEntry w temp p])).1 :=
      runCalls_cut (fun c hc T T' hT hcT => hT.trans (metaOnly_of_mem_chmodCalls hc hcT)) (Tree.MetaOnly.refl t1) hrejected
    obtain ⟨mode2, mtime2, hn2⟩ := hm.file hn1
    exact ⟨mode2, mtime2, helse.trans (elsewhere_of_metaOnly hm), hn2⟩

theorem writeFile_spared_iff (hw : w.Real) {first mode : Nat} {temp : String} {data : Bytes} (hq : w.locate t p = some q)
    (hthere : t.node q ≠ none)
    (hrejected : (runCalls (h.refused.map (· - first)) t
      ([createFile w h.stamp temp, writeAll w h.stamp temp 0 data] ++ (chmodCalls w temp mode ++ [moveEntry w temp p]))).2 = false) :
    w.Spared t (runCalls (h.refused.map (· - first)) t
        ([createFile w h.stamp temp, writeAll w h.stamp temp 0 data] ++ (chmodCalls w temp mode ++ [moveEntry w temp p]))).1 p ↔
      ∀ q0 old mode mtime, w.follow t temp = some q0 → t.node q0 = some (.file old mode mtime) → matching q q0 = true →
        h.cuts first = true ∨ old = if h.cuts (first + 1) then [] else data := by
  rw [List.cons_append, runCalls_at] at hrejected ⊢
  by_cases hcut : h.cuts first = true
  · rw [if_pos hcut]
    exact iff_of_true (spared_refl p) fun _ _ _ _ _ _ _ => .inl hcut
  · rw [if_neg hcut] at hrejected ⊢
    by_cases hfile : ∃ q0 old mode mtime, w.follow t temp = some q0 ∧ t.node q0 = some (.file old mode mtime)
    · obtain ⟨q0, old, mode0, mtime, hf, hn⟩ := hfile
      obtain ⟨t1, h1, hf1, hnode1⟩ := editFile_of_file (f := fun _ => []) h.stamp hf hn
      have hcreate : createFile w h.stamp temp t = some t1 := by rw [createFile, openCreate_of_file h.stamp hf hn]; exact h1
      simp only [hcreate] at hrejected ⊢
      obtain ⟨mode1, mtime1, helse, hnew⟩ := written_of_rejected hw hf1 (by rw [hnode1, if_pos rfl]) hrejected
      have helse := (editFile_elsewhere hw hf h1).2.trans helse
      rw [helse.spared_iff hn hnew]
      constructor
      · intro hs q0' old' mode' mtime' hf' hn' hm
        obtain rfl : q0 = q0' := Option.some.inj (hf.symm.trans hf')
        obtain ⟨rfl, -, -⟩ := Node.file.inj (Option.some.inj (hn.symm.trans hn'))
        exact .inr (hs q hq hthere hm)
      · intro hc q' hq' _ hm
        obtain rfl : q = q' := Option.some.inj (hq.symm.trans hq')
        exact (hc q0 old mode0 mtime hf hn hm).resolve_left hcut
    · -- A temporary is made where nothing was.
      refine iff_of_true ?_ fun q0 old mode mtime hf hn => absurd ⟨q0, old, mode, mtime, hf, hn⟩ hfile
      cases hcreate : createFile w h.stamp temp t with
      | none => exact spared_refl p
      | some t1 =>
        simp only [hcreate] at hrejected ⊢
        obtain ⟨t0, ho, hedit⟩ := Option.bind_eq_some_iff.1 hcreate
        obtain ⟨q0, hf⟩ := follow_of_openCreate ho
        obtain ⟨hf0, helse0⟩ := openCreate_elsewhere hw hf ho
        obtain ⟨hf1, helse1⟩ := editFile_elsewhere hw hf0 hedit
        rw [← List.append_assoc] at hrejected ⊢
        obtain ⟨-, helse⟩ := runCalls_cut (R := fun T => w.follow T temp = some q0 ∧ Elsewhere w q0 t T)
          (fun c hc T T' hT hcT => by
            rcases List.mem_append.1 hc with hc | hc
            · rw [List.mem_singleton.1 hc] at hcT
              obtain ⟨hf', helse'⟩ := writeAll_elsewhere hw hT.1 hcT
              exact ⟨hf', hT.2.trans helse'⟩
            · have hm := metaOnly_of_mem_chmodCalls hc hcT
              exact ⟨by rw [w.meta_follow T T' hm, hT.1], hT.2.trans (elsewhere_of_metaOnly hm)⟩)
          ⟨hf1, helse0.trans helse1⟩ hrejected
        refine helse.spared fun q' n _ _ _ hn => ?_
        obtain ⟨old, mode, mtime, rfl⟩ := file_of_openCreate hf ho hn
        exact absurd ⟨q0, old, mode, mtime, hf, hn⟩ hfile

theorem Sibling.off {temp qt : String} (hs : Sibling p temp) (hw : w.Steady) (hq : w.locate t p = some q)
    (hqt : w.locate t temp = some qt) : matching q qt = false := by
  have hne : qt ≠ q := fun he => hs.apart hw.toReal hqt (he ▸ hq)
  obtain ⟨n, rfl, hn, hname⟩ := hs
  have hbelow := hw.beside' t p (fileName p) n q qt (fileName_noSlash p) hn (Ne.symm hname)
    (by rw [withFileName_fileName]; exact hq) hqt
  rw [matching, hbelow, Bool.or_false, decide_eq_false hne]

theorem finish_spared_iff (hw : w.Steady) {temp sum : String} {mode : Nat} (hs : Sibling p temp) (hq : w.locate t p = some q)
    (hthere : t.node q ≠ none)
    (hrejected : (runCalls (h.refused.map (· - 0)) t (finishCalls w sha p temp sum mode t)).2 = false) :
    w.Spared t (runCalls (h.refused.map (· - 0)) t (finishCalls w sha p temp sum mode t)).1 p ↔
      ∀ qt, w.locate t temp = some qt → t.isLink qt = true →
        (∀ data mode mtime, (w.follow t temp).bind t.node = some (.file data mode mtime) → sha data = sum) ∨
          h.cuts 0 = true ∨ w.locate (t.drop qt) p = some q := by
  unfold finishCalls at hrejected ⊢
  split at hrejected
  · rename_i data old mtime hfile
    simp only [hfile] at hrejected ⊢
    by_cases hsum : sha data = sum
    · rw [if_pos hsum] at hrejected ⊢
      refine iff_of_true (spared_of_metaOnly ?_) fun qt _ _ => .inl fun data' mode' mtime' hdata' => ?_
      · refine runCalls_cut (fun c hc T T' hT hcT => hT.trans ?_) (Tree.MetaOnly.refl t) hrejected
        exact metaOnly_of_mem_chmodCalls hc hcT
      · obtain ⟨rfl, -, -⟩ := Node.file.inj (Option.some.inj hdata')
        exact hsum
    · rw [if_neg hsum] at hrejected ⊢
      rw [runCalls_at]
      by_cases hcut : h.cuts 0 = true
      · rw [if_pos hcut]
        exact iff_of_true (spared_refl p) fun _ _ _ => .inr (.inl hcut)
      · rw [if_neg hcut]
        have hmismatch : ¬ ∀ data' mode mtime', some (Node.file data old mtime) = some (Node.file data' mode mtime') → sha data' = sum :=
          fun hall => hsum (hall data old mtime rfl)
        cases hqt : w.locate t temp with
        | none =>
          simp only [removeFile, hqt, runCalls_fails]
          exact iff_of_true (spared_refl p) fun qt h => by cases h
        | some qt =>
          simp only [removeFile, hqt, runCalls_fails]
          by_cases hdir : t.isDir qt = true
          · rw [if_pos hdir]
            refine iff_of_true (spared_refl p) fun q' hq' hlink => ?_
            obtain rfl : qt = q' := Option.some.inj hq'
            rw [Tree.isLink_of_isDir hdir] at hlink
            cases hlink
          · rw [if_neg hdir, spared_iff hq hthere]
            have hdir : t.isDir qt = false := by simpa using hdir
            have hkept : ∀ r n, matching q r = true → t.node r = some n → ((t.drop qt).node r).map Node.bare = some n.bare := by
              intro r n hr hn
              have hne : r ≠ qt := by
                rintro rfl
                exact Bool.false_ne_true ((hs.off hw hq hqt).symm.trans hr)
              rw [Tree.node_drop_of_not_isDir hdir, if_neg hne, hn, Option.map_some]
            constructor
            · rintro ⟨hq', -⟩ q' hq'' -
              obtain rfl : qt = q' := Option.some.inj hq''
              exact .inr (.inr hq')
            · intro hc
              refine ⟨?_, hkept⟩
              cases hlink : t.isLink qt with
              | true => exact ((hc qt rfl hlink).resolve_left hmismatch).resolve_left hcut
              | false => rw [locate_drop_eq hw.toReal hlink hdir, hq]
  · rename_i hfile
    simp only [runCalls_fails]
    exact iff_of_true (spared_refl p) fun _ _ _ => .inl fun data mode mtime hdata => absurd hdata (hfile data mode mtime)

/-! ## Renames -/

theorem spared_of_createDirs {t1 : Tree} {mode : Nat} {dirs : List String} (hw : w.Steady)
    (hmk : createDirs w.toLinks mode t dirs = some t1) (p : String) : w.Spared t t1 p := by
  induction dirs generalizing t with
  | nil =>
    cases hmk
    exact spared_refl p
  | cons d dirs ih =>
    obtain ⟨t2, h2, hmk⟩ := createDirs_cons.1 hmk
    exact (spared_of_createDir hw h2).trans (ih hmk)

/-- A rename of what is there, after the directories of `dst` have been made. -/
theorem rename_spared_iff (hw : w.Steady) {src dst : String} {first : Nat} {t1 : Tree} {last : List (Tree → Option Tree)}
    (hlast : ∀ c ∈ last, ∀ t, c t = some t) (hq : w.locate t src = some q) (hthere : t.node q ≠ none)
    (hmk : createDirs w.toLinks h.stamp.dirMode t (ancestors dst) = some t1) :
    (∀ p ∈ [src, dst], w.Spared t (runCalls (h.refused.map (· - first)) t1 (renameSeen w h.unseen src dst :: last)).1 p) ↔
      h.unseen = true ∨ h.cuts first = true ∨ ∀ q', w.locate t1 dst = some q' → q = q' ∨ t1.rename q q' = none := by
  have hmade := spared_of_createDirs hw hmk
  obtain ⟨hq1, hkept⟩ := hmade src q hq hthere
  obtain ⟨n, hn⟩ := Option.ne_none_iff_exists'.1 hthere
  obtain ⟨n1, hn1, -⟩ := Option.map_eq_some_iff.1 (hkept q n (matching_self q) hn)
  have hseen : w.lookup t1 src = some n1 := by rw [Links.lookup, hq1, Option.bind_some, hn1]
  rw [runCalls_at]
  by_cases hcut : h.cuts first = true
  · rw [if_pos hcut]
    exact iff_of_true (fun p _ => hmade p) (.inr (.inl hcut))
  · rw [if_neg hcut]
    cases hun : h.unseen with
    | true =>
      simp only [renameSeen, if_true]
      rw [runCalls_keep fun c hc => hlast c hc t1]
      exact iff_of_true (fun p _ => hmade p) (.inl trivial)
    | false =>
      simp only [renameSeen, Bool.false_eq_true, if_false, hseen, hq1, Option.bind_some, hcut, false_or]
      cases hq' : w.locate t1 dst with
      | none => exact iff_of_true (fun p _ => hmade p) fun _ h => by cases h
      | some q' =>
        simp only [Option.bind_some, Option.some_inj, forall_eq']
        cases hmv : t1.rename q q' with
        | none => exact iff_of_true (fun p _ => hmade p) (.inr rfl)
        | some t2 =>
          simp only [reduceCtorEq, or_false]
          rw [runCalls_keep fun c hc => hlast c hc t2]
          constructor
          · intro hs
            by_contra hne
            have := (hs src List.mem_cons_self q hq hthere).2 q n (matching_self q) hn
            rw [(Tree.moved_of_rename hne hmv).node_src] at this
            cases this
          · rintro rfl
            rw [Tree.rename_self hmv]
            exact fun p _ => hmade p

/-! ## Whole requests -/

/-- There is nothing that could be lost. -/
theorem spared_iff_of_none {t' : Tree} {C : Prop} (hnone : ¬ ∃ q, w.locate t p = some q ∧ t.node q ≠ none) (hC : C) :
    w.Spared t t' p ↔ C := by
  refine iff_of_true (spared_of_none fun q hq => ?_) hC
  by_contra hn
  exact hnone ⟨q, hq, hn⟩

theorem symlink_careful_iff (hw : w.Steady) {target : String} {opId : Option String} :
    w.Spared t (runCalls (h.refused.map (· - 0)) t (marks opId ++ ((createDirAll w h.stamp (ancestors p) ++
        [removeFile w p, makeLink w h.stamp p target]) ++ marks opId))).1 p ↔
      ∀ q n, w.locate t p = some q → t.node q = some n → n.isDir = false →
        h.cuts (markerCalls opId + (ancestors p).length) = true ∨
          (h.cuts (markerCalls opId + (ancestors p).length + 1) = false ∧ n.bare = .symlink target 0 0 ∧
            w.locate (t.drop q) p = some q) := by
  by_cases hex : ∃ q, w.locate t p = some q ∧ t.node q ≠ none
  · obtain ⟨q, hq, hthere⟩ := hex
    obtain ⟨n, hn⟩ := Option.ne_none_iff_exists'.1 hthere
    rcases run_there hw hq hthere opId [removeFile w p, makeLink w h.stamp p target] with ⟨hres, hcut⟩ | hres
    · rw [hres]
      exact iff_of_true (spared_refl p) fun _ _ _ _ _ => .inl hcut
    · rw [hres, symlink_spared_iff hq hn fun c hc t => marks_same hc t]
      constructor
      · intro hc q' n' hq' hn'
        obtain rfl : q = q' := Option.some.inj (hq.symm.trans hq')
        obtain rfl : n = n' := Option.some.inj (hn.symm.trans hn')
        exact hc
      · exact fun hc => hc q n hq hn
  · exact spared_iff_of_none hex fun q n hq hn _ => absurd ⟨q, hq, by simp [hn]⟩ hex

theorem truncate_careful_iff (hw : w.Steady) {size : Nat} {opId : Option String} :
    w.Spared t (runCalls (h.refused.map (· - 0)) t (marks opId ++ ((createDirAll w h.stamp (ancestors p) ++
        [openCreate w h.stamp p, editFile w h.stamp p (resize · size)]) ++ marks opId))).1 p ↔
      ∀ q data mode mtime, w.locate t p = some q → t.node q = some (.file data mode mtime) →
        resize data size = data ∨ h.cuts (markerCalls opId + (ancestors p).length + 1) = true := by
  by_cases hex : ∃ q, w.locate t p = some q ∧ t.node q ≠ none
  · obtain ⟨q, hq, hthere⟩ := hex
    rcases run_there hw hq hthere opId [openCreate w h.stamp p, editFile w h.stamp p (resize · size)] with ⟨hres, hcut⟩ | hres
    · rw [hres]
      exact iff_of_true (spared_refl p) fun _ _ _ _ _ _ => .inr (Handling.cuts_mono hcut (by omega))
    · rw [hres, truncate_spared_iff hw.toReal hq hthere fun c hc t => marks_same hc t]
      constructor
      · intro hc q' data mode mtime hq' hn'
        obtain rfl : q = q' := Option.some.inj (hq.symm.trans hq')
        exact hc data mode mtime hn'
      · exact fun hc data mode mtime hn => hc q data mode mtime hq hn
  · exact spared_iff_of_none hex fun q data mode mtime hq hn => absurd ⟨q, hq, by simp [hn]⟩ hex

theorem writeFile_careful_iff (hw : w.Steady) {data : Bytes} {mode : Nat} {temp : String} {ds : List (Tree → Option Tree)}
    (hds : ds = [createFile w h.stamp temp, writeAll w h.stamp temp 0 data] ++ (chmodCalls w temp mode ++ [moveEntry w temp p]))
    (hrejected : (runCalls (h.refused.map (· - 0)) t (marks none ++ ((createDirAll w h.stamp (ancestors p) ++ ds) ++ marks none))).2 =
      false) :
    w.Spared t (runCalls (h.refused.map (· - 0)) t (marks none ++ ((createDirAll w h.stamp (ancestors p) ++ ds) ++ marks none))).1 p ↔
      ∀ q q0 old mode mtime, w.locate t p = some q → t.node q ≠ none → w.follow t temp = some q0 →
        t.node q0 = some (.file old mode mtime) → matching q q0 = true →
        h.cuts (ancestors p).length = true ∨ old = if h.cuts ((ancestors p).length + 1) then [] else data := by
  by_cases hex : ∃ q, w.locate t p = some q ∧ t.node q ≠ none
  · obtain ⟨q, hq, hthere⟩ := hex
    have hzero : markerCalls none + (ancestors p).length = (ancestors p).length := Nat.zero_add _
    rcases run_there hw hq hthere none ds with ⟨hres, hcut⟩ | hres
    · rw [hres]
      rw [hzero] at hcut
      exact iff_of_true (spared_refl p) fun _ _ _ _ _ _ _ _ _ _ => .inl hcut
    · rw [hres, show marks none = [] from rfl, List.append_nil, hzero, hds] at hrejected ⊢
      rw [writeFile_spared_iff hw.toReal hq hthere hrejected]
      constructor
      · intro hc q' q0 old mode mtime hq' _ hf hn hm
        obtain rfl : q = q' := Option.some.inj (hq.symm.trans hq')
        exact hc q0 old mode mtime hf hn hm
      · exact fun hc q0 old mode mtime hf hn hm => hc q q0 old mode mtime hq hthere hf hn hm
  · exact spared_iff_of_none hex fun q _ _ _ _ hq hn _ _ _ => absurd ⟨q, hq, hn⟩ hex

theorem finish_careful_iff (hw : w.Steady) {temp sum : String} {mode : Nat} (hs : Sibling p temp)
    (hrejected : (runCalls (h.refused.map (· - 0)) t (finishCalls w sha p temp sum mode t)).2 = false) :
    w.Spared t (runCalls (h.refused.map (· - 0)) t (finishCalls w sha p temp sum mode t)).1 p ↔
      ∀ q qt, w.locate t p = some q → t.node q ≠ none → w.locate t temp = some qt → t.isLink qt = true →
        (∀ data mode mtime, (w.follow t temp).bind t.node = some (.file data mode mtime) → sha data = sum) ∨
          h.cuts 0 = true ∨ w.locate (t.drop qt) p = some q := by
  by_cases hex : ∃ q, w.locate t p = some q ∧ t.node q ≠ none
  · obtain ⟨q, hq, hthere⟩ := hex
    rw [finish_spared_iff hw hs hq hthere hrejected]
    constructor
    · intro hc q' qt hq' _ hqt hlink
      obtain rfl : q = q' := Option.some.inj (hq.symm.trans hq')
      exact hc qt hqt hlink
    · exact fun hc qt hqt hlink => hc q qt hq hthere hqt hlink
  · exact spared_iff_of_none hex fun q _ hq hn _ _ => absurd ⟨q, hq, hn⟩ hex

/-- Making directories loses nothing. -/
theorem spared_of_marks_createDirAll (hw : w.Steady) {opId : Option String} {refused : Option Nat} {dirs : List String}
    {cs : List (Tree → Option Tree)} (hcs : ∀ c ∈ cs, c ∈ marks opId ∨ c ∈ createDirAll w h.stamp dirs) :
    w.Spared t (runCalls refused t cs).1 p := by
  refine runCalls_inv (R := fun T => w.Spared t T p) (fun c hc T T' hT hcT => ?_) (spared_refl p)
  rcases hcs c hc with hc | hc
  · rw [marks_same hc T] at hcT
    cases hcT
    exact hT
  · obtain ⟨d, -, rfl⟩ := createDirAll_mem hc
    exact hT.trans (spared_of_createDir hw hcT)

theorem rename_careful_iff (hw : w.Steady) {src dst : String} {opId : Option String} :
    (∀ p ∈ [src, dst], w.Spared t (runCalls (h.refused.map (· - 0)) t (marks opId ++
        ((createDirAll w h.stamp (ancestors dst) ++ [renameSeen w h.unseen src dst]) ++ marks opId))).1 p) ↔
      h.unseen = true ∨ h.cuts (markerCalls opId + (ancestors dst).length) = true ∨
        ∀ t1 q q', createDirs w.toLinks h.stamp.dirMode t (ancestors dst) = some t1 → w.locate t src = some q →
          t.node q ≠ none → w.locate t1 dst = some q' → q = q' ∨ t1.rename q q' = none := by
  by_cases hex : ∃ q, w.locate t src = some q ∧ t.node q ≠ none
  · obtain ⟨q, hq, hthere⟩ := hex
    have hlen : 0 + (marks opId ++ createDirAll w h.stamp (ancestors dst)).length = markerCalls opId + (ancestors dst).length := by
      rw [List.length_append, length_marks, createDirAll, List.length_map, Nat.zero_add]
    have hmarks : (marks opId).foldlM (fun t c => c t) t = some t := by
      unfold marks
      split <;> rfl
    rw [List.append_assoc, ← List.append_assoc]
    rcases runCalls_split h 0 t (marks opId ++ createDirAll w h.stamp (ancestors dst))
      ([renameSeen w h.unseen src dst] ++ marks opId) with ⟨hres, hstop⟩ | ⟨t1, hmk, hres⟩
    · rw [hres]
      refine iff_of_true (fun p _ => spared_of_marks_createDirAll hw fun c hc => List.mem_append.1 hc) ?_
      rw [hlen, List.foldlM_append, hmarks] at hstop
      rcases hstop with hcut | hnone
      · exact .inr (.inl hcut)
      · refine .inr (.inr fun t1 q q' hmk _ _ _ => ?_)
        have hstops : createDirs w.toLinks h.stamp.dirMode t (ancestors dst) = none := foldlM_createDirAll.symm.trans hnone
        rw [hstops] at hmk
        cases hmk
    · rw [hlen] at hres
      rw [List.foldlM_append, hmarks] at hmk
      have hmk : createDirs w.toLinks h.stamp.dirMode t (ancestors dst) = some t1 := foldlM_createDirAll.symm.trans hmk
      rw [hres, List.singleton_append, rename_spared_iff hw (fun c hc t => marks_same hc t) hq hthere hmk]
      refine or_congr_right (or_congr_right ⟨?_, fun hc q' hq' => hc t1 q q' hmk hq hthere hq'⟩)
      intro hc t2 q2 q' hmk2 hq2 _ hq'
      obtain rfl : t1 = t2 := Option.some.inj (hmk.symm.trans hmk2)
      obtain rfl : q = q2 := Option.some.inj (hq.symm.trans hq2)
      exact hc q' hq'
  · -- Nothing is moved where nothing is made, and else there is nothing at `dst`.
    refine iff_of_true (fun p hp => ?_) (.inr (.inr fun _ q _ _ hq hthere _ => absurd ⟨q, hq, hthere⟩ hex))
    have hnone : w.lookup t src = none := by
      rw [Links.lookup]
      by_contra hne
      obtain ⟨n, hn⟩ := Option.ne_none_iff_exists'.1 hne
      obtain ⟨q, hq, hnode⟩ := Option.bind_eq_some_iff.1 hn
      exact hex ⟨q, hq, by simp [hnode]⟩
    simp only [List.mem_cons, List.not_mem_nil, or_false] at hp
    rcases hp with rfl | rfl
    · exact spared_of_none fun q hq => by
        by_contra hn
        exact hex ⟨q, hq, hn⟩
    · by_cases hdst : ∃ q, w.locate t p = some q ∧ t.node q ≠ none
      · obtain ⟨q, hq, hthere⟩ := hdst
        rcases run_there hw hq hthere opId [renameSeen w h.unseen src p] with ⟨hres, -⟩ | hres
        · rw [hres]
          exact spared_refl p
        · rw [hres, runCalls_keep]
          · exact spared_refl p
          · intro c hc
            rcases List.mem_append.1 hc with hc | hc
            · rw [List.mem_singleton.1 hc, renameSeen, hnone]
              split <;> rfl
            · exact marks_same hc t
      · exact spared_of_none fun q hq => by
          by_contra hn
          exact hdst ⟨q, hq, hn⟩

/-- Nothing is lost by a request for the root. -/
theorem spared_at_root (hw : w.Steady) {r : Request} (hr : r.replaces = true) {c : Tree → Option Tree}
    (hc : c ∈ r.rootCalls w h) {T T' : Tree} (hcT : c T = some T') (p : String) : w.Spared T T' p := by
  have hfail : c ∈ [fun _ : Tree => (none : Option Tree)] → False := by
    intro hc
    rw [List.mem_singleton.1 hc] at hcT
    cases hcT
  cases r with
  | rename root src dst opId =>
    rcases List.mem_append.1 hc with hc | hc
    · obtain ⟨d, -, rfl⟩ := createDirAll_mem hc
      exact spared_of_createDir hw hcT
    · split at hc
      · cases hc
      · rw [List.mem_singleton.1 hc] at hcT
        dsimp only at hcT
        split at hcT
        · cases hcT
          exact spared_refl p
        · cases hcT
  | mkdir => cases hc
  | symlink | writeFile | writeFileFinish | truncate => exact (hfail hc).elim
  | _ => cases hr

/-- A request that is answered with an error has spared what was at its paths if and only
if it is for the root or it has failed before it has destroyed something. -/
theorem rejected_spares_iff (hw : w.Steady) {r : Request} (hr : r.replaces = true) {marked : Bool}
    (hrejected : (r.handle w sha pid h marked [] t).ok = false) :
    (∀ p ∈ r.paths, w.Spared t (r.handle w sha pid h marked [] t).tree p) ↔
      "" ∈ r.paths ∨ r.Careful w sha pid h t := by
  obtain ⟨htree, hrun⟩ := handle_rejected hrejected
  rw [htree]
  by_cases hroot : "" ∈ r.paths
  · refine iff_of_true (fun p _ => ?_) (.inl hroot)
    rw [Request.calls, if_pos hroot]
    refine runCalls_inv (R := fun T => w.Spared t T p) (fun c hc T T' hT hcT => ?_) (spared_refl p)
    simp only [List.mem_append] at hc
    rcases hc with hc | hc | hc
    · rw [marks_same hc T] at hcT
      cases hcT
      exact hT
    · exact hT.trans (spared_at_root hw hr hc hcT p)
    · rw [marks_same hc T] at hcT
      cases hcT
      exact hT
  · rw [or_iff_right hroot]
    simp only [Request.calls, if_neg hroot] at hrun ⊢
    cases r with
    | symlink root p target opId => exact List.forall_mem_singleton.trans (symlink_careful_iff hw)
    | truncate root p size opId => exact List.forall_mem_singleton.trans (truncate_careful_iff hw)
    | writeFile root p data mode =>
      exact List.forall_mem_singleton.trans (writeFile_careful_iff hw (List.append_assoc _ _ _) hrun)
    | writeFileFinish root p uploadId sum mode =>
      refine List.forall_mem_singleton.trans ?_
      simp only [Request.treeCalls, Request.onceId, marks, Option.isSome_none, Bool.false_eq_true, if_false, List.nil_append,
        List.append_nil, Request.Careful] at hrun ⊢
      cases htemp : uploadTempPath p uploadId with
      | none =>
        simp only [runCalls_fails]
        exact iff_of_true (spared_refl p) fun _ _ _ h => by cases h
      | some temp =>
        simp only [htemp] at hrun ⊢
        rw [finish_careful_iff hw (sibling_uploadTempPath htemp) hrun]
        constructor
        · intro hc temp' q qt h'
          obtain rfl : temp = temp' := Option.some.inj h'
          exact hc q qt
        · exact fun hc q qt => hc temp q qt rfl
    | rename root src dst opId => exact rename_careful_iff hw
    | mkdir root p opId =>
      have hcs : ∀ c ∈ marks opId ++ (createDirAll w h.stamp (ancestors p ++ [p]) ++ marks opId),
          c ∈ marks opId ∨ c ∈ createDirAll w h.stamp (ancestors p ++ [p]) := by
        intro c hc
        rcases List.mem_append.1 hc with hc | hc
        · exact .inl hc
        · exact (List.mem_append.1 hc).symm
      exact iff_of_true (fun q _ => spared_of_marks_createDirAll hw hcs) trivial
    | _ => cases hr

end Handle

/-! ## A link that cannot be made -/

theorem textWalks_steady : textWalks.Steady where
  toReal := textWalks_real
  ways t mode p q hq hn d hd := by
    obtain rfl : p = q := Option.some.inj hq
    obtain ⟨m, hnode, hm⟩ := Tree.isDir_iff.1 (Tree.isDir_of_below (mem_ancestors_iff.1 hd) hn)
    have hlocate : textWalks.locate t d = some d := rfl
    simp only [createDir, hlocate, hnode]
    cases m with
    | dir => rfl
    | _ => cases hm
  stays _ _ _ _ _ _ _ hq := hq
  beside' t p n n' q q' hn hn' _ hq hq' := by
    obtain rfl : withFileName p n = q := Option.some.inj hq
    obtain rfl : withFileName p n' = q' := Option.some.inj hq'
    rw [← Bool.not_eq_true]
    intro hbelow
    -- One name would be the start of the path to the last name of `p`.
    obtain ⟨r, hr⟩ := below_iff.1 (below_of_below_withFileName hn' hbelow)
    obtain ⟨pre, hpre⟩ := exists_withFileName p
    have hp : p.toList = pre ++ (fileName p).toList := by rw [← hpre, withFileName_fileName]
    rw [hp, hpre, List.append_assoc, List.append_cancel_left_eq] at hr
    exact fileName_noSlash p (hr ▸ by simp)

/-- The third call is not let through. -/
def cutAtTwo : Handling := ⟨letThrough.stamp, false, some 2⟩

/-- A file that is not cut because it cannot be opened is spared. -/
theorem truncate_spares_refused : ((Request.truncate "" "a" 0 none).handle textWalks (fun _ => "") 1 ⟨letThrough.stamp, false, some 0⟩
      false [] fileA).ok = false ∧
    ∀ p ∈ (Request.truncate "" "a" 0 none).paths, textWalks.Spared fileA
      ((Request.truncate "" "a" 0 none).handle textWalks (fun _ => "") 1 ⟨letThrough.stamp, false, some 0⟩ false [] fileA).tree p := by
  have hrejected : ((Request.truncate "" "a" 0 none).handle textWalks (fun _ => "") 1 ⟨letThrough.stamp, false, some 0⟩
      false [] fileA).ok = false := by decide
  exact ⟨hrejected, (rejected_spares_iff textWalks_steady rfl hrejected).2 (.inr fun _ _ _ _ _ _ => .inr rfl)⟩

/-- The marker is looked for and the file removed; the link is not made. -/
theorem symlink_removes : ((Request.symlink "" "a" "b" (some "op")).handle textWalks (fun _ => "") 1 cutAtTwo false [] fileA).ok = false ∧
    ((Request.symlink "" "a" "b" (some "op")).handle textWalks (fun _ => "") 1 cutAtTwo false [] fileA).tree.node "a" = none ∧
    ¬ ∀ p ∈ (Request.symlink "" "a" "b" (some "op")).paths, textWalks.Spared fileA
      ((Request.symlink "" "a" "b" (some "op")).handle textWalks (fun _ => "") 1 cutAtTwo false [] fileA).tree p := by
  have hgone : ((Request.symlink "" "a" "b" (some "op")).handle textWalks (fun _ => "") 1 cutAtTwo false [] fileA).tree.node "a" = none := by
    decide
  refine ⟨by decide, hgone, fun hall => ?_⟩
  obtain ⟨-, hkept⟩ := hall "a" List.mem_cons_self "a" rfl (by decide)
  have hfile := hkept "a" (.file [1] 420 5) (by decide) (by decide)
  rw [hgone] at hfile
  cases hfile

end Mobfs
