import Mathlib.Data.String.Basic
import Mobfs.Lib.Maps
/-!
# Snapshots and plans

The planners of `snapshot.rs`: `pushItems` and `pullItems` compare two
snapshots, `syncItems` compares both sides with the base snapshot saved by the
last command. `mem_syncItems` sums up `syncItems` path by path through
`syncItem`, and the other lemmas read the two-way planners the same way;
`syncItems_three_way` is what a plan from three snapshots is as a whole.
-/

namespace Mobfs

open Std Lib

inductive EntryKind where
  | file
  | dir
  | symlink
  deriving DecidableEq, Repr

structure EntryMeta where
  kind : EntryKind
  size : Nat
  modified : Int
  sha256 : Option String
  mode : Nat
  linkTarget : Option String
  deriving DecidableEq, Repr

abbrev Snapshot := ExtTreeMap String EntryMeta

inductive PlanItem where
  | put (rel : String)
  | get (rel : String)
  | deleteLocal (rel : String)
  | deleteRemote (rel : String)
  | conflict (rel : String)
  deriving DecidableEq, Repr

/-- Files and links are carried over; directories are not. -/
def EntryKind.carried : EntryKind → Bool
  | .file => true
  | .symlink => true
  | .dir => false

/-- The two-way plan that makes `dst` like `src`: carry what differs, then
delete what `src` lacks, the last path first. -/
def carryItems (carry remove : String → PlanItem) (src dst : Snapshot) (delete : Bool) : List PlanItem :=
  (src.toList.filterMap fun x =>
    if x.2.kind.carried && dst[x.1]? != some x.2 then some (carry x.1) else none) ++
  if delete then
    dst.keys.reverse.filterMap fun rel => if src.contains rel then none else some (remove rel)
  else []

def pushItems (loc rem : Snapshot) (delete : Bool) : List PlanItem :=
  carryItems .put .deleteRemote loc rem delete

def pullItems (loc rem : Snapshot) (delete : Bool) : List PlanItem :=
  carryItems .get .deleteLocal rem loc delete

/-- What `syncItems` plans for one path, from its entries in the base, the
local and the remote snapshot. -/
def syncItem (delete : Bool) (path : String) (base loc rem : Option EntryMeta) : Option PlanItem :=
  if loc = rem then none
  else
    match decide (loc ≠ base), decide (rem ≠ base), loc, rem with
    | true, false, some m, _ => if m.kind.carried then some (.put path) else none
    | true, false, none, _ => if delete then some (.deleteRemote path) else none
    | false, true, _, some m => if m.kind.carried then some (.get path) else none
    | false, true, _, none => if delete then some (.deleteLocal path) else none
    | true, true, _, _ => some (.conflict path)
    | false, false, _, _ => none

def syncItems (base loc rem : Snapshot) (delete : Bool) : List PlanItem :=
  (ExtTreeSet.ofList (base.keys ++ loc.keys ++ rem.keys)).toList.filterMap fun path =>
    syncItem delete path base[path]? loc[path]? rem[path]?

def PlanItem.path : PlanItem → String
  | .put rel => rel
  | .get rel => rel
  | .deleteLocal rel => rel
  | .deleteRemote rel => rel
  | .conflict rel => rel

def PlanItem.isConflict : PlanItem → Bool
  | .conflict _ => true
  | _ => false

/-! ## What the planners plan -/

theorem mem_carryItems {carry remove : String → PlanItem} {src dst : Snapshot} {delete : Bool}
    {item : PlanItem} :
    item ∈ carryItems carry remove src dst delete ↔
      (∃ p m, item = carry p ∧ src[p]? = some m ∧ m.kind.carried = true ∧ dst[p]? ≠ some m) ∨
      (∃ p, item = remove p ∧ delete = true ∧ dst[p]? ≠ none ∧ src[p]? = none) := by
  simp only [carryItems, List.mem_append, List.mem_filterMap]
  constructor
  · rintro (⟨⟨p, m⟩, hm, h⟩ | h)
    · simp only [Option.ite_none_right_eq_some, Bool.and_eq_true, bne_iff_ne, Option.some.injEq] at h
      exact .inl ⟨p, m, h.2.symm, ExtTreeMap.mem_toList_iff_getElem?_eq_some.1 hm, h.1.1, h.1.2⟩
    · cases delete with
      | false => simp at h
      | true =>
        simp only [if_true, List.mem_filterMap, List.mem_reverse, ExtTreeMap.mem_keys] at h
        obtain ⟨p, hp, h⟩ := h
        simp only [Option.ite_none_left_eq_some, Option.some.injEq] at h
        refine .inr ⟨p, h.2.symm, rfl, ?_, ?_⟩
        · rw [ExtTreeMap.mem_iff_isSome_getElem?] at hp
          exact Option.isSome_iff_ne_none.1 hp
        · exact ExtTreeMap.getElem?_eq_none fun hm => h.1 (ExtTreeMap.contains_iff_mem.2 hm)
  · rintro (⟨p, m, rfl, hs, hk, hd⟩ | ⟨p, rfl, rfl, hd, hs⟩)
    · exact .inl ⟨(p, m), ExtTreeMap.mem_toList_iff_getElem?_eq_some.2 hs, by simp [hk, hd]⟩
    · refine .inr ?_
      simp only [if_true, List.mem_filterMap, List.mem_reverse, ExtTreeMap.mem_keys]
      refine ⟨p, ?_, ?_⟩
      · rw [ExtTreeMap.mem_iff_isSome_getElem?]
        exact Option.isSome_iff_ne_none.2 hd
      · have : p ∉ src := fun hm => by
          rw [ExtTreeMap.mem_iff_isSome_getElem?, hs] at hm
          cases hm
        simp [this]

theorem mem_syncItems {base loc rem : Snapshot} {delete : Bool} {item : PlanItem} :
    item ∈ syncItems base loc rem delete ↔
      ∃ p, syncItem delete p base[p]? loc[p]? rem[p]? = some item := by
  simp only [syncItems, List.mem_filterMap]
  constructor
  · rintro ⟨p, -, h⟩
    exact ⟨p, h⟩
  · rintro ⟨p, h⟩
    refine ⟨p, ?_, h⟩
    by_contra hp
    simp only [ExtTreeSet.mem_toList, ExtTreeSet.mem_ofList, List.contains_iff_mem, List.mem_append,
      ExtTreeMap.mem_keys, not_or] at hp
    -- A path in no snapshot has the same entry on both sides: none.
    rw [ExtTreeMap.getElem?_eq_none hp.1.2, ExtTreeMap.getElem?_eq_none hp.2] at h
    simp [syncItem] at h

/-- Everything `syncItem` can plan for a path, with the entries it plans it for. -/
theorem syncItem_eq_some {delete : Bool} {p : String} {base loc rem : Option EntryMeta} {item : PlanItem} :
    syncItem delete p base loc rem = some item ↔
      (item = .put p ∧ loc ≠ base ∧ rem = base ∧ ∃ m, loc = some m ∧ m.kind.carried = true) ∨
      (item = .deleteRemote p ∧ delete = true ∧ loc = none ∧ rem = base ∧ rem ≠ none) ∨
      (item = .get p ∧ loc = base ∧ rem ≠ base ∧ ∃ m, rem = some m ∧ m.kind.carried = true) ∨
      (item = .deleteLocal p ∧ delete = true ∧ rem = none ∧ loc = base ∧ loc ≠ none) ∨
      (item = .conflict p ∧ loc ≠ base ∧ rem ≠ base ∧ loc ≠ rem) := by
  unfold syncItem
  by_cases he : loc = rem
  · subst he
    rw [if_pos rfl]
    constructor
    · intro h
      cases h
    · rintro (⟨-, h1, h2, -⟩ | ⟨-, -, h1, -, h2⟩ | ⟨-, h1, h2, -⟩ | ⟨-, -, h1, -, h2⟩ | ⟨-, -, -, h⟩)
      · exact absurd h2 h1
      · exact absurd h1 h2
      · exact absurd h1 h2
      · exact absurd h1 h2
      · exact absurd rfl h
  · rw [if_neg he]
    by_cases hl : loc = base <;> by_cases hr : rem = base
    · exact absurd (hl.trans hr.symm) he
    · subst hl
      cases rem with
      | none => cases delete <;> simp [hr, he, @eq_comm _ item]
      | some m => cases hk : m.kind.carried <;> simp [Ne.symm he, hk, @eq_comm _ item]
    · subst hr
      cases loc with
      | none => cases delete <;> simp [hl, Ne.symm he, @eq_comm _ item]
      | some m => cases hk : m.kind.carried <;> simp [he, hk, @eq_comm _ item]
    · simp [hl, hr, he, @eq_comm _ item]

/-! ## Three-way planning -/

/-- The item with the two sides exchanged. -/
def PlanItem.exchange : PlanItem → PlanItem
  | .put rel => .get rel
  | .get rel => .put rel
  | .deleteLocal rel => .deleteRemote rel
  | .deleteRemote rel => .deleteLocal rel
  | .conflict rel => .conflict rel

theorem path_of_syncItem {delete : Bool} {p : String} {base loc rem : Option EntryMeta} {item : PlanItem}
    (h : syncItem delete p base loc rem = some item) : item.path = p := by
  obtain ⟨rfl, -⟩ | ⟨rfl, -⟩ | ⟨rfl, -⟩ | ⟨rfl, -⟩ | ⟨rfl, -⟩ := syncItem_eq_some.1 h <;> rfl

theorem conflict_mem_syncItems {base loc rem : Snapshot} {delete : Bool} {p : String} :
    .conflict p ∈ syncItems base loc rem delete ↔
      loc[p]? ≠ base[p]? ∧ rem[p]? ≠ base[p]? ∧ loc[p]? ≠ rem[p]? := by
  rw [mem_syncItems]
  constructor
  · rintro ⟨q, h⟩
    cases path_of_syncItem h
    simpa [syncItem_eq_some, PlanItem.path] using h
  · intro h
    exact ⟨p, syncItem_eq_some.2 (.inr (.inr (.inr (.inr ⟨rfl, h⟩))))⟩

/-- A plan writes over the entry of one side only where that side is as in the base. -/
theorem overwrites_base {base loc rem : Snapshot} {delete : Bool} {p : String} :
    (.put p ∈ syncItems base loc rem delete ∨ .deleteRemote p ∈ syncItems base loc rem delete →
      rem[p]? = base[p]?) ∧
    (.get p ∈ syncItems base loc rem delete ∨ .deleteLocal p ∈ syncItems base loc rem delete →
      loc[p]? = base[p]?) := by
  simp only [mem_syncItems]
  refine ⟨?_, ?_⟩ <;> rintro (⟨q, h⟩ | ⟨q, h⟩) <;>
    · cases path_of_syncItem h
      simp only [syncItem_eq_some, PlanItem.path, reduceCtorEq, false_and, false_or, or_false, true_and] at h
      tauto

/-- What a plan that deletes passes over, though its sides differ: the side that
has changed has a directory there. -/
theorem passed_over {base loc rem : Option EntryMeta} {p : String}
    (hne : loc ≠ rem) (h : syncItem true p base loc rem = none) :
    (rem = base ∧ ∃ m, loc = some m ∧ m.kind = .dir) ∨ (loc = base ∧ ∃ m, rem = some m ∧ m.kind = .dir) := by
  have hcarried : ∀ m : EntryMeta, m.kind.carried = false → m.kind = .dir := fun m hm => by
    cases hk : m.kind <;> simp_all [EntryKind.carried]
  rw [Option.eq_none_iff_forall_ne_some] at h
  simp only [ne_eq, syncItem_eq_some] at h
  by_cases hl : loc = base
  · have hr : rem ≠ base := fun e => hne (hl.trans e.symm)
    refine .inr ⟨hl, ?_⟩
    cases rem with
    | none => exact absurd (.inr (.inr (.inr (.inl ⟨rfl, trivial, rfl, hl, hne⟩)))) (h (.deleteLocal p))
    | some m =>
      refine ⟨m, rfl, hcarried m ?_⟩
      by_contra hk
      exact h (.get p) (.inr (.inr (.inl ⟨rfl, hl, hr, m, rfl, by simpa using hk⟩)))
  · by_cases hr : rem = base
    · refine .inl ⟨hr, ?_⟩
      cases loc with
      | none => exact absurd (.inr (.inl ⟨rfl, trivial, rfl, hr, Ne.symm hne⟩)) (h (.deleteRemote p))
      | some m =>
        refine ⟨m, rfl, hcarried m ?_⟩
        by_contra hk
        exact h (.put p) (.inl ⟨rfl, hl, hr, m, rfl, by simpa using hk⟩)
    · exact absurd (.inr (.inr (.inr (.inr ⟨rfl, hl, hr, hne⟩)))) (h (.conflict p))

@[simp] theorem PlanItem.exchange_exchange (item : PlanItem) : item.exchange.exchange = item := by
  cases item <;> rfl

theorem syncItem_exchanged {delete : Bool} {p : String} {base loc rem : Option EntryMeta} {item : PlanItem}
    (h : syncItem delete p base loc rem = some item) : syncItem delete p base rem loc = some item.exchange := by
  rw [syncItem_eq_some]
  obtain ⟨rfl, h1, h2, h3⟩ | ⟨rfl, hd⟩ | ⟨rfl, h1, h2, h3⟩ | ⟨rfl, hd⟩ | ⟨rfl, h1, h2, h3⟩ := syncItem_eq_some.1 h
  · exact .inr (.inr (.inl ⟨rfl, h2, h1, h3⟩))
  · exact .inr (.inr (.inr (.inl ⟨rfl, hd⟩)))
  · exact .inl ⟨rfl, h2, h1, h3⟩
  · exact .inr (.inl ⟨rfl, hd⟩)
  · exact .inr (.inr (.inr (.inr ⟨rfl, h2, h1, Ne.symm h3⟩)))

theorem syncItem_exchange (delete : Bool) (p : String) (base loc rem : Option EntryMeta) :
    syncItem delete p base rem loc = (syncItem delete p base loc rem).map PlanItem.exchange := by
  apply Option.ext
  intro item
  rw [Option.map_eq_some_iff]
  constructor
  · intro h
    exact ⟨item.exchange, syncItem_exchanged h, item.exchange_exchange⟩
  · rintro ⟨i, h, rfl⟩
    exact syncItem_exchanged h

/-- The paths that a plan goes through do not depend on which side is which. -/
theorem syncItems_exchange (base loc rem : Snapshot) (delete : Bool) :
    syncItems base rem loc delete = (syncItems base loc rem delete).map PlanItem.exchange := by
  have hpaths : ExtTreeSet.ofList (base.keys ++ rem.keys ++ loc.keys) compare =
      ExtTreeSet.ofList (base.keys ++ loc.keys ++ rem.keys) compare := by
    apply ExtTreeSet.ext_mem
    intro p
    simp only [ExtTreeSet.mem_ofList, List.contains_iff_mem, List.mem_append]
    tauto
  unfold syncItems
  rw [List.map_filterMap, hpaths]
  congr 1
  funext p
  exact syncItem_exchange _ _ _ _ _

/-- The items come in the order of their paths, one for a path. -/
theorem syncItems_ascending (base loc rem : Snapshot) (delete : Bool) :
    ((syncItems base loc rem delete).map PlanItem.path).Pairwise (· < ·) := by
  rw [syncItems, List.pairwise_map, List.pairwise_filterMap]
  refine (ExtTreeSet.ordered_toList).imp ?_
  intro p q hpq i hi j hj
  rw [path_of_syncItem hi, path_of_syncItem hj]
  exact compare_lt_iff_lt.1 hpq

/-- What a plan from three snapshots is. -/
structure ThreeWay (base loc rem : Snapshot) (delete : Bool) (items : List PlanItem) : Prop where
  ascending : (items.map PlanItem.path).Pairwise (· < ·)
  single : ∀ i ∈ items, ∀ j ∈ items, i.path = j.path → i = j
  conflicts : ∀ p, .conflict p ∈ items ↔ loc[p]? ≠ base[p]? ∧ rem[p]? ≠ base[p]? ∧ loc[p]? ≠ rem[p]?
  sparesRemote : ∀ p, .put p ∈ items ∨ .deleteRemote p ∈ items → rem[p]? = base[p]?
  sparesLocal : ∀ p, .get p ∈ items ∨ .deleteLocal p ∈ items → loc[p]? = base[p]?
  complete : delete = true → ∀ p, loc[p]? ≠ rem[p]? → (∀ i ∈ items, i.path ≠ p) →
    (rem[p]? = base[p]? ∧ ∃ m, loc[p]? = some m ∧ m.kind = .dir) ∨
      (loc[p]? = base[p]? ∧ ∃ m, rem[p]? = some m ∧ m.kind = .dir)
  symmetric : syncItems base rem loc delete = items.map PlanItem.exchange

theorem syncItems_three_way (base loc rem : Snapshot) (delete : Bool) :
    ThreeWay base loc rem delete (syncItems base loc rem delete) where
  ascending := syncItems_ascending base loc rem delete
  single := by
    intro i hi j hj hpath
    obtain ⟨p, hp⟩ := mem_syncItems.1 hi
    obtain ⟨q, hq⟩ := mem_syncItems.1 hj
    rw [path_of_syncItem hp, path_of_syncItem hq] at hpath
    subst hpath
    exact Option.some.inj (hp.symm.trans hq)
  conflicts _ := conflict_mem_syncItems
  sparesRemote _ := overwrites_base.1
  sparesLocal _ := overwrites_base.2
  complete := by
    rintro rfl p hne hnone
    apply passed_over (p := p) hne
    rw [Option.eq_none_iff_forall_ne_some]
    intro item h
    exact hnone item (mem_syncItems.2 ⟨p, h⟩) (path_of_syncItem h)
  symmetric := syncItems_exchange base loc rem delete

end Mobfs
