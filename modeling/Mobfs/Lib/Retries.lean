import Mathlib.Data.List.Basic
/-!
# Requests that are sent again

A network may lose a request or the answer to it. The sender then connects again and sends
the request again, so many times at most; a request that is rejected is not sent again. The
peer serves every copy that arrives, so it may have served a request that the sender gives up.

`sendAgain_cases` is the rule for what holds afterwards: an invariant of the copies whose
answers are lost holds until the last copy is served.
-/

namespace Lib

/-- What becomes of a copy of a request: whether it is served, whether its answer comes
back, and whether the sender can connect again if it does not. -/
structure Attempt where
  arrives : Bool
  answered : Bool
  reconnects : Bool
  deriving DecidableEq, Repr

/-- What the sender has of a request in the end. -/
inductive Answer (ρ : Type) where
  | ok (r : ρ)
  | rejected
  | lost

/-- The peer, and how many copies of requests have been sent to it. -/
structure Peer (σ : Type) where
  state : σ
  attempts : Nat

section Send
variable {σ ρ : Type} (net : Nat → Attempt) (serve : Nat → σ → Option ρ × σ)

/-- One copy of a request. -/
def sendOnce (s : Peer σ) : Answer ρ × Peer σ :=
  if (net s.attempts).arrives then
    match serve s.attempts s.state with
    | (some r, state) => (if (net s.attempts).answered then .ok r else .lost, ⟨state, s.attempts + 1⟩)
    | (none, state) => (if (net s.attempts).answered then .rejected else .lost, ⟨state, s.attempts + 1⟩)
  else (.lost, ⟨s.state, s.attempts + 1⟩)

/-- A request with so many retries. -/
def sendAgain : Nat → Peer σ → Answer ρ × Peer σ
  | 0, s => sendOnce net serve s
  | retries + 1, s =>
    match sendOnce net serve s with
    | (.lost, s') => if (net s.attempts).reconnects then sendAgain retries s' else (.lost, s')
    | res => res

/-- How a request ends, where `P` holds as long as answers are lost. -/
def Ends (P : σ → Prop) : Answer ρ × Peer σ → Prop
  | (.ok r, s') => ∃ i s, P s ∧ (net i).answered = true ∧ serve i s = (some r, s'.state)
  | (.rejected, s') => ∃ i s, P s ∧ (net i).answered = true ∧ serve i s = (none, s'.state)
  | (.lost, s') => P s'.state

end Send

section Facts
variable {σ ρ : Type} {net : Nat → Attempt} {serve : Nat → σ → Option ρ × σ} {P : σ → Prop} {s : Peer σ}

theorem sendOnce_cases (hserve : ∀ i s, (net i).answered = false → P s → P (serve i s).2) (hs : P s.state) :
    Ends net serve P (sendOnce net serve s) := by
  have hlost := hserve s.attempts s.state
  unfold sendOnce
  split
  · split
    · rename_i hsv
      split
      · exact ⟨s.attempts, s.state, hs, ‹_›, hsv⟩
      · rename_i hans
        rw [hsv] at hlost
        exact hlost (by simpa using hans) hs
    · rename_i hsv
      split
      · exact ⟨s.attempts, s.state, hs, ‹_›, hsv⟩
      · rename_i hans
        rw [hsv] at hlost
        exact hlost (by simpa using hans) hs
  · exact hs

theorem sendAgain_cases (hserve : ∀ i s, (net i).answered = false → P s → P (serve i s).2) (retries : Nat)
    (hs : P s.state) : Ends net serve P (sendAgain net serve retries s) := by
  induction retries generalizing s with
  | zero => exact sendOnce_cases hserve hs
  | succ retries ih =>
    have honce := sendOnce_cases hserve hs
    unfold sendAgain
    split
    · rename_i s' hlost
      rw [hlost] at honce
      split
      · exact ih honce
      · exact honce
    · exact honce

/-- What every service keeps, a request keeps, however it ends. -/
theorem sendAgain_inv (hserve : ∀ i s, P s → P (serve i s).2) (retries : Nat) (hs : P s.state) :
    P (sendAgain net serve retries s).2.state := by
  have hends : Ends net serve P (sendAgain net serve retries s) := sendAgain_cases (fun i s _ h => hserve i s h) retries hs
  generalize sendAgain net serve retries s = res at hends
  obtain ⟨answer, s'⟩ := res
  cases answer with
  | lost => exact hends
  | ok r =>
    obtain ⟨i, s, hP, -, hsv⟩ := hends
    have := hserve i s hP
    rwa [hsv] at this
  | rejected =>
    obtain ⟨i, s, hP, -, hsv⟩ := hends
    have := hserve i s hP
    rwa [hsv] at this

end Facts

end Lib
