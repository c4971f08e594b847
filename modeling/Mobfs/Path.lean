import Mathlib.Data.String.Basic
/-!
# Workspace paths

A path inside the workspace is a string of names joined by `/`, relative to the
root; the root itself is the empty string. The order of paths is that of their
UTF-8 bytes, which is `String`'s own.
-/

namespace Mobfs

/-- `p` lies below directory `d`: it starts with `d` and a slash. -/
def below (d p : String) : Bool := (d.toList ++ ['/']).isPrefixOf p.toList

/-- The directories `p` lies in, the outermost first. -/
def ancestors (p : String) : List String :=
  ((List.range p.toList.length).filter fun i => p.toList[i]? = some '/').map fun i =>
    String.ofList (p.toList.take i)

/-- `rsplit_once('/')`: the directory of a path and its name in it. -/
def splitParent (path : String) : String × String :=
  match (ancestors path).getLast? with
  | some parent => (parent, String.ofList (path.toList.drop (parent.toList.length + 1)))
  | none => ("", path)

/-- A pattern of the ignore list names a part exactly, or all parts with a
prefix where it ends in `*`. -/
def shouldIgnorePart (part : List Char) (ignore : List String) : Bool :=
  ignore.any fun pattern =>
    pattern.toList == part ||
      (pattern.toList.getLast? == some '*' && pattern.toList.dropLast.isPrefixOf part)

/-- Some part of the path is ignored. -/
def shouldIgnoreRel (ignore : List String) (rel : String) : Bool :=
  (rel.toList.splitOn '/').any fun part => shouldIgnorePart part ignore

theorem below_iff {d p : String} : below d p = true ↔ ∃ r, p.toList = d.toList ++ '/' :: r := by
  rw [below, List.isPrefixOf_iff_prefix]
  constructor
  · rintro ⟨r, hr⟩
    exact ⟨r, by rw [← hr]; simp⟩
  · rintro ⟨r, hr⟩
    exact ⟨r, by rw [hr]; simp⟩

theorem mem_ancestors_iff {d p : String} : d ∈ ancestors p ↔ below d p = true := by
  rw [below_iff, ancestors]
  simp only [List.mem_map, List.mem_filter, List.mem_range, decide_eq_true_eq]
  constructor
  · rintro ⟨i, ⟨hi, hs⟩, rfl⟩
    refine ⟨p.toList.drop (i + 1), ?_⟩
    rw [String.toList_ofList]
    conv_lhs => rw [← List.take_append_drop i p.toList, List.drop_eq_getElem_cons hi]
    rw [List.getElem?_eq_getElem hi] at hs
    rw [Option.some.inj hs]
  · rintro ⟨r, hr⟩
    refine ⟨d.toList.length, ⟨by rw [hr]; simp, by rw [hr]; simp⟩, ?_⟩
    rw [hr]
    simp

/-- The directories of a path come in order, each below the one before, and the path
last. -/
theorem ancestors_ordered (p : String) : (ancestors p ++ [p]).Pairwise fun a b => below a b = true := by
  rw [List.pairwise_append]
  refine ⟨?_, List.pairwise_singleton _ _, ?_⟩
  · have hlt : ((List.range p.toList.length).filter fun i => p.toList[i]? = some '/').Pairwise (· < ·) :=
      List.Pairwise.filter _ List.pairwise_lt_range
    rw [ancestors, List.pairwise_map]
    refine hlt.imp_of_mem ?_
    intro i j hi hj hij
    simp only [List.mem_filter, List.mem_range, decide_eq_true_eq] at hi hj
    -- The slash at `i` is among the first `j` characters.
    have hslash : (p.toList.take j)[i]? = some '/' := by
      rw [List.getElem?_take_of_lt hij, hi.2]
    obtain ⟨hlen, hget⟩ := List.getElem?_eq_some_iff.1 hslash
    refine below_iff.2 ⟨(p.toList.take j).drop (i + 1), ?_⟩
    rw [String.toList_ofList, String.toList_ofList, ← hget, ← List.drop_eq_getElem_cons hlen]
    have htake : p.toList.take i = (p.toList.take j).take i := by rw [List.take_take, Nat.min_eq_left hij.le]
    rw [htake, List.take_append_drop]
  · intro d hd q hq
    rw [List.mem_singleton.1 hq]
    exact mem_ancestors_iff.1 hd

theorem below_irrefl (p : String) : below p p = false := by
  rw [Bool.eq_false_iff]
  intro h
  obtain ⟨r, hr⟩ := below_iff.1 h
  have := congrArg List.length hr
  simp at this

theorem below_trans {a b c : String} (h1 : below a b = true) (h2 : below b c = true) : below a c = true := by
  obtain ⟨r, hr⟩ := below_iff.1 h1
  obtain ⟨q, hq⟩ := below_iff.1 h2
  exact below_iff.2 ⟨r ++ '/' :: q, by rw [hq, hr]; simp⟩

/-- Two directories a path lies in, one lies in the other. -/
theorem below_total {a b p : String} (ha : below a p = true) (hb : below b p = true) :
    a = b ∨ below a b = true ∨ below b a = true := by
  obtain ⟨r, hr⟩ := below_iff.1 ha
  obtain ⟨q, hq⟩ := below_iff.1 hb
  have h : a.toList ++ '/' :: r = b.toList ++ '/' :: q := hr.symm.trans hq
  rw [List.append_eq_append_iff] at h
  rcases h with ⟨x, hx, hx'⟩ | ⟨x, hx, hx'⟩
  · cases x with
    | nil => exact .inl (String.toList_inj.1 (by simpa using hx.symm))
    | cons c x =>
      simp only [List.cons_append, List.cons.injEq] at hx'
      exact .inr (.inl (below_iff.2 ⟨x, by rw [hx, ← hx'.1]⟩))
  · cases x with
    | nil => exact .inl (String.toList_inj.1 (by simpa using hx))
    | cons c x =>
      simp only [List.cons_append, List.cons.injEq] at hx'
      exact .inr (.inr (below_iff.2 ⟨x, by rw [hx, ← hx'.1]⟩))

/-- What lies in an ignored directory is ignored. -/
theorem ignored_below {ignore : List String} {d p : String} (h : below d p = true)
    (hd : shouldIgnoreRel ignore d = true) : shouldIgnoreRel ignore p = true := by
  obtain ⟨r, hr⟩ := below_iff.1 h
  rw [shouldIgnoreRel, hr, List.splitOn_append_cons_self, List.any_append]
  simp only [shouldIgnoreRel] at hd
  simp [hd]

end Mobfs
