import Mathlib.Tactic.Common

/-!
# Waiting for a condition

A task waits in a loop: it marks itself as asleep, looks at the condition, leaves the loop if it
holds, and gives up the processor otherwise, which it gets back when somebody has woken it. A wakeup
between the mark and the last step takes the mark away, so it is not lost. `Alert` is the invariant:
a task that is blocked waits for something that does not hold. It needs a wakeup from everyone who
makes the condition true.
-/

namespace WaitLoop

/-- Where the loop stands. -/
inductive Pc
  | top
  | check
  | schedule
  | done
deriving DecidableEq

/-- A task in the loop; `asleep` is its mark. -/
structure Waiter where
  pc : Pc
  asleep : Bool
deriving DecidableEq

/-- In front of the loop. -/
def Waiter.start : Waiter := ⟨.top, false⟩

/-- The next step of the task, with the condition as it is. -/
def Waiter.step (cond : Bool) (w : Waiter) : Waiter :=
  match w.pc with
  | .top => ⟨.check, true⟩
  | .check => if cond then ⟨.done, false⟩ else { w with pc := .schedule }
  | .schedule => if w.asleep then w else { w with pc := .top }
  | .done => w

/-- Somebody wakes the task. -/
def Waiter.wake (w : Waiter) : Waiter := { w with asleep := false }

/-- The task has given up the processor and needs a wakeup. -/
def Waiter.Blocked (w : Waiter) : Prop := w.pc = .schedule ∧ w.asleep = true

/-- A blocked task waits for a condition that does not hold. -/
def Waiter.Alert (w : Waiter) (cond : Bool) : Prop := w.Blocked → cond = false

variable {w : Waiter} {cond cond' : Bool}

theorem alert_start : Waiter.start.Alert cond := fun h => absurd h.2 (by decide)

theorem alert_wake : w.wake.Alert cond := fun h => by simp [Waiter.Blocked, Waiter.wake] at h

theorem Waiter.Alert.step (h : w.Alert cond) : (w.step cond).Alert cond := by
  rintro ⟨hpc, hasleep⟩
  unfold Waiter.step at hpc hasleep
  split at hpc
  · simp at hpc
  · -- it goes to sleep because the condition did not hold
    split at hpc
    · simp at hpc
    · next hcond => simpa using hcond
  · next hsched =>
      split at hpc
      · next hmark => exact h ⟨hsched, hmark⟩
      · simp at hpc
  · next hdone => simp [hdone] at hpc

/-- A condition that nobody makes true needs no wakeup. -/
theorem Waiter.Alert.mono (h : w.Alert cond) (hcond : cond' = true → cond = true) :
    w.Alert cond' := by
  intro hblocked
  have := h hblocked
  cases cond' with
  | false => rfl
  | true => simp [hcond rfl] at this

/-- When the condition holds, three more steps lead out of the loop. -/
theorem Waiter.Alert.done (h : w.Alert true) :
    (((w.step true).step true).step true).pc = .done := by
  cases hpc : w.pc with
  | top | check | done => simp [Waiter.step, hpc]
  | schedule =>
      cases hmark : w.asleep with
      | true => exact absurd (h ⟨hpc, hmark⟩) (by decide)
      | false => simp [Waiter.step, hpc, hmark]

end WaitLoop
