import Mathlib.Data.List.Induction
import Luwu.Lib.Bytes

/-!
# Logging to a file

`FileLogAppender::log` opens its file again when an event comes 3 seconds or more after the one for
which it was opened last.  It opens the file in the default mode of `std::ofstream`, which truncates
it.
-/

namespace Luwu

structure LogEvent where
  /-- `m_time`, in seconds. -/
  time : UInt64
  /-- What `m_formatter->format` makes of the event. -/
  text : Bytes
deriving DecidableEq

structure FileLogAppender where
  reopenError : Bool := false
  /-- The content of the file, with what the stream has yet to write. -/
  file : Bytes
  lastTime : UInt64 := 0
deriving DecidableEq

namespace FileLogAppender

/-- `reopen ()`; `opens` tells whether the file can be opened. -/
def reopen (a : FileLogAppender) (opens : Bool) : FileLogAppender :=
  if opens then { a with file := [], reopenError := false } else { a with reopenError := true }

/-- `FileLogAppender (filename)`, for a file that has the content `disk`. -/
def new (disk : Bytes) (opens : Bool) : FileLogAppender := reopen { file := disk } opens

def log (a : FileLogAppender) (opens : Bool) (event : LogEvent) : FileLogAppender :=
  let now := event.time
  let a := if a.lastTime + 3 ≤ now then { a.reopen opens with lastTime := now } else a
  if a.reopenError then a
  else { a with file := a.file ++ event.text }

/-- An appender that has logged some events, and could open its file whenever it tried. -/
def run (disk : Bytes) (events : List LogEvent) : FileLogAppender :=
  events.foldl (fun a event => a.log true event) (new disk true)

/-- The time of the event for which the file was opened last, 0 before the first one. -/
def openedAt (events : List LogEvent) : UInt64 :=
  events.foldl (fun t event => if t + 3 ≤ event.time then event.time else t) 0

/-- The formatted events in their order. -/
def texts (events : List LogEvent) : Bytes := events.flatMap LogEvent.text

/-- Whenever the file is opened again, nothing has been written to it. -/
def OpensInTime (events : List LogEvent) : Prop :=
  ∀ before event after, events = before ++ event :: after →
    openedAt before + 3 ≤ event.time → ∀ e ∈ before, e.text = []

variable {disk : Bytes} {events : List LogEvent} {event : LogEvent}

theorem run_concat : run disk (events ++ [event]) = (run disk events).log true event := by
  unfold run
  rw [List.foldl_append]
  rfl

theorem openedAt_concat :
    openedAt (events ++ [event]) =
      if openedAt events + 3 ≤ event.time then event.time else openedAt events := by
  unfold openedAt
  rw [List.foldl_append]
  rfl

theorem log_eq {a : FileLogAppender} (h : a.reopenError = false) :
    a.log true event =
      if a.lastTime + 3 ≤ event.time then
        { reopenError := false, file := event.text, lastTime := event.time }
      else { a with file := a.file ++ event.text } := by
  unfold log
  dsimp only
  by_cases hopen : a.lastTime + 3 ≤ event.time
  · rw [if_pos hopen, if_pos hopen]
    rfl
  · rw [if_neg hopen, if_neg hopen, h]
    rfl

theorem run_state (disk : Bytes) (events : List LogEvent) :
    (run disk events).reopenError = false ∧ (run disk events).lastTime = openedAt events := by
  induction events using List.reverseRecOn with
  | nil => exact ⟨rfl, rfl⟩
  | append_singleton events event ih =>
    obtain ⟨herror, htime⟩ := ih
    rw [run_concat, openedAt_concat, log_eq herror, htime]
    split
    · exact ⟨rfl, rfl⟩
    · exact ⟨herror, rfl⟩

/-- One more event: the file is truncated first when it is opened again. -/
theorem file_concat :
    (run disk (events ++ [event])).file =
      if openedAt events + 3 ≤ event.time then event.text
      else (run disk events).file ++ event.text := by
  obtain ⟨herror, htime⟩ := run_state disk events
  rw [run_concat, log_eq herror, htime]
  split <;> rfl

theorem texts_concat : texts (events ++ [event]) = texts events ++ event.text := by
  unfold texts
  rw [List.flatMap_append, List.flatMap_singleton]

theorem texts_eq_nil : texts events = [] ↔ ∀ e ∈ events, e.text = [] := List.flatMap_eq_nil_iff

theorem opensInTime_concat :
    OpensInTime (events ++ [event]) ↔
      OpensInTime events ∧
        (openedAt events + 3 ≤ event.time → ∀ e ∈ events, e.text = []) := by
  constructor
  · intro h
    refine ⟨?_, h events event [] rfl⟩
    intro before e after hsplit
    exact h before e (after ++ [event]) (by rw [hsplit, List.append_assoc]; rfl)
  · intro h before e after hsplit
    rcases List.eq_nil_or_concat after with hnil | ⟨after', last, hconcat⟩
    · -- the last event is the one for which the file is opened
      rw [hnil] at hsplit
      obtain ⟨hbefore, he⟩ := List.append_inj' hsplit rfl
      rw [← hbefore, ← (List.cons.inj he).1]
      exact h.2
    · rw [hconcat, List.concat_eq_append, ← List.cons_append, ← List.append_assoc] at hsplit
      exact h.1 before e after' (List.append_inj' hsplit rfl).1

/-- **The content of a log file.**  After any events, with any times, the file holds all of them in
their order exactly when nothing had been written whenever it was opened again. -/
theorem file_eq_texts_iff (disk : Bytes) (events : List LogEvent) :
    (run disk events).file = texts events ↔ OpensInTime events := by
  induction events using List.reverseRecOn with
  | nil =>
    refine iff_of_true rfl ?_
    intro before e after hsplit
    exact absurd hsplit.symm (List.append_ne_nil_of_right_ne_nil _ (List.cons_ne_nil _ _))
  | append_singleton events event ih =>
    rw [file_concat, texts_concat, opensInTime_concat]
    by_cases hopen : openedAt events + 3 ≤ event.time
    · -- the file is truncated: nothing is lost only if there was nothing
      rw [if_pos hopen, List.self_eq_append_left, texts_eq_nil]
      constructor
      · intro hnil
        refine ⟨?_, fun _ => hnil⟩
        intro before e after hsplit _ e' he'
        exact hnil e' (by rw [hsplit]; exact List.mem_append_left _ he')
      · exact fun h => h.2 hopen
    · -- the event is appended
      rw [if_neg hopen, List.append_left_inj, ih]
      exact ⟨fun h => ⟨h, fun hc => absurd hc hopen⟩, fun h => h.1⟩

/-- Two events 3 seconds apart: the first one is lost. -/
theorem file_loses_event :
    ¬ ∀ (disk : Bytes) (events : List LogEvent), (run disk events).file = texts events := by
  intro h
  have hlost := h [] [⟨10, [65]⟩, ⟨13, [66]⟩]
  exact absurd hlost (by decide)

end FileLogAppender

end Luwu
