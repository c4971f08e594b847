import Mathlib.Data.List.Basic
/-!
# Runs of a step function

A system is a step function `step : S → A → Option S`: the state after an
action, or `none` where the action is not enabled. `exec` runs a list of
actions. A property of every interleaving is a statement about every list of
actions; since every initial part of a run is a run, it covers every state on
the way.

`Guarded G` says that each action of a run meets `G` in the state it is taken
in. `exec_guarded_inv` is the induction every safety result here goes through.
-/

namespace Lib

variable {S A : Type}

/-- The state after the actions, if each is enabled in turn. -/
def exec (step : S → A → Option S) (s : S) : List A → Option S
  | [] => some s
  | a :: as => (step s a).bind fun s' => exec step s' as

/-- Each action meets `G` in the state it is taken in. -/
def Guarded (step : S → A → Option S) (G : S → A → Prop) (s : S) : List A → Prop
  | [] => True
  | a :: as => G s a ∧ ∀ s', step s a = some s' → Guarded step G s' as

variable {step : S → A → Option S} {G : S → A → Prop}

@[simp] theorem exec_nil (s : S) : exec step s [] = some s := rfl

theorem exec_cons {s s' : S} {a : A} {as : List A} :
    exec step s (a :: as) = some s' ↔ ∃ t, step s a = some t ∧ exec step t as = some s' := by
  simp [exec, Option.bind_eq_some_iff]

theorem exec_append {s s' : S} {as bs : List A} :
    exec step s (as ++ bs) = some s' ↔ ∃ t, exec step s as = some t ∧ exec step t bs = some s' := by
  induction as generalizing s with
  | nil => simp
  | cons a as ih =>
    simp only [List.cons_append, exec_cons, ih]
    constructor
    · rintro ⟨u, hu, t, ht, hs⟩
      exact ⟨t, ⟨u, hu, ht⟩, hs⟩
    · rintro ⟨t, ⟨u, hu, ht⟩, hs⟩
      exact ⟨u, hu, t, ht, hs⟩

/-- An invariant that every guarded step keeps holds after every guarded run. -/
theorem exec_guarded_inv (I : S → Prop)
    (hstep : ∀ s a s', I s → G s a → step s a = some s' → I s')
    {s s' : S} {as : List A} (h0 : I s) (hg : Guarded step G s as) (h : exec step s as = some s') :
    I s' := by
  induction as generalizing s with
  | nil => cases h; exact h0
  | cons a as ih =>
    obtain ⟨t, ht, h⟩ := exec_cons.1 h
    exact ih (hstep _ _ _ h0 hg.1 ht) (hg.2 t ht) h

/-- Tests `g` before each action of a run. -/
def checkRun (step : S → A → Option S) (g : S → A → Bool) (s : S) : List A → Bool
  | [] => true
  | a :: as => g s a && (step s a).all fun s' => checkRun step g s' as

/-- A run that passes a test is guarded, if the test is enough in the states
that satisfy `I` and the actions of the run keep `I`. -/
theorem guarded_of_checkRun (I : S → Prop) (P : A → Prop) (g : S → A → Bool)
    (hI : ∀ s a s', I s → P a → step s a = some s' → I s') (hG : ∀ s a, I s → P a → g s a = true → G s a)
    {s : S} {as : List A} (h0 : I s) (hP : ∀ a ∈ as, P a) (hc : checkRun step g s as = true) :
    Guarded step G s as := by
  induction as generalizing s with
  | nil => trivial
  | cons a as ih =>
    have ha := hP a List.mem_cons_self
    simp only [checkRun, Bool.and_eq_true] at hc
    refine ⟨hG s a h0 ha hc.1, ?_⟩
    intro s' hs
    rw [hs] at hc
    exact ih (hI s a s' h0 ha hs) (fun b hb => hP b (List.mem_cons_of_mem _ hb)) hc.2

/-- A condition on the actions alone. -/
theorem guarded_of_forall {P : A → Prop} {s : S} {as : List A} (hP : ∀ a ∈ as, P a) : Guarded step (fun _ => P) s as := by
  induction as generalizing s with
  | nil => trivial
  | cons a as ih => exact ⟨hP a List.mem_cons_self, fun s' _ => ih fun b hb => hP b (List.mem_cons_of_mem _ hb)⟩

theorem Guarded.append {s : S} {as bs : List A} (h : Guarded step G s (as ++ bs)) :
    Guarded step G s as ∧ ∀ t, exec step s as = some t → Guarded step G t bs := by
  induction as generalizing s with
  | nil =>
    refine ⟨trivial, ?_⟩
    rintro t ⟨⟩
    exact h
  | cons a as ih =>
    refine ⟨⟨h.1, fun u hu => (ih (h.2 u hu)).1⟩, fun t ht => ?_⟩
    obtain ⟨u, hu, ht⟩ := exec_cons.1 ht
    exact (ih (h.2 u hu)).2 t ht

theorem Guarded.and_mem {P : A → Prop} {s : S} {as : List A} (h : Guarded step G s as) (hP : ∀ a ∈ as, P a) :
    Guarded step (fun s a => G s a ∧ P a) s as := by
  induction as generalizing s with
  | nil => trivial
  | cons a as ih =>
    refine ⟨⟨h.1, hP a List.mem_cons_self⟩, ?_⟩
    intro s' hs
    exact ih (h.2 s' hs) fun b hb => hP b (List.mem_cons_of_mem _ hb)

theorem Guarded.and {H : S → A → Prop} {s : S} {as : List A} (hg : Guarded step G s as) (hh : Guarded step H s as) :
    Guarded step (fun s a => G s a ∧ H s a) s as := by
  induction as generalizing s with
  | nil => trivial
  | cons a as ih => exact ⟨⟨hg.1, hh.1⟩, fun s' hs => ih (hg.2 s' hs) (hh.2 s' hs)⟩

theorem Guarded.mono {H : S → A → Prop} (hH : ∀ s a, G s a → H s a) {s : S} {as : List A} (h : Guarded step G s as) :
    Guarded step H s as := by
  induction as generalizing s with
  | nil => trivial
  | cons a as ih => exact ⟨hH s a h.1, fun s' hs => ih (h.2 s' hs)⟩

/-- An invariant that every step keeps holds after every run. -/
theorem exec_inv (I : S → Prop) (hstep : ∀ s a s', I s → step s a = some s' → I s')
    {s s' : S} {as : List A} (h0 : I s) (h : exec step s as = some s') : I s' := by
  induction as generalizing s with
  | nil => cases h; exact h0
  | cons a as ih =>
    obtain ⟨t, ht, h⟩ := exec_cons.1 h
    exact ih (hstep _ _ _ h0 ht) h

/-- A guarded run leads there. -/
def Reaches (step : S → A → Option S) (G : S → A → Prop) (s s' : S) : Prop :=
  ∃ as, Guarded step G s as ∧ exec step s as = some s'

theorem Reaches.refl (s : S) : Reaches step G s s := ⟨[], trivial, rfl⟩

theorem Reaches.head {s t s' : S} {a : A} (ha : G s a) (hs : step s a = some t) (h : Reaches step G t s') :
    Reaches step G s s' := by
  obtain ⟨as, hg, h⟩ := h
  refine ⟨a :: as, ⟨ha, fun u hu => ?_⟩, exec_cons.2 ⟨t, hs, h⟩⟩
  rw [hs, Option.some.injEq] at hu
  exact hu ▸ hg

theorem Reaches.single {s s' : S} {a : A} (ha : G s a) (hs : step s a = some s') : Reaches step G s s' :=
  .head ha hs (.refl s')

theorem Reaches.trans {s t u : S} (h : Reaches step G s t) (h' : Reaches step G t u) : Reaches step G s u := by
  obtain ⟨as, hg, h⟩ := h
  induction as generalizing s with
  | nil =>
    cases h
    exact h'
  | cons a as ih =>
    obtain ⟨v, hv, h⟩ := exec_cons.1 h
    exact .head hg.1 hv (ih (hg.2 v hv) h)

theorem Reaches.inv (I : S → Prop) (hstep : ∀ s a s', I s → G s a → step s a = some s' → I s') {s s' : S} (h0 : I s)
    (h : Reaches step G s s') : I s' := by
  obtain ⟨as, hg, h⟩ := h
  exact exec_guarded_inv I hstep h0 hg h

end Lib
