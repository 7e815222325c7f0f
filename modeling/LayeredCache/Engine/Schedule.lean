import LayeredCache.Duration

/-!
# Schedules

Deadlines and periodic ticks. Instants count nanoseconds; the clock shows whole milliseconds, so
whatever is due within a millisecond happens at its end.

A loop with period `p` that starts at `t` ticks at `t + p`, `t + 2 * p` and so on. A tick that runs
more than five milliseconds late starts the count again from the moment it ran. One that is less
late, but by a period or more, is followed by the ticks that are due by then, one at once after the
other; here it is one tick that stands for them all, since those after the first find nothing that
it has not found.

How late a tick runs is not for the schedule to say: a theorem about time says what it asks of the
ticks.

Results:
* `lt_next_advance`: after a tick has run at an instant, the next one lies later.
-/

namespace LayeredCache

/-- An instant that stands for all those too far away to be counted: thirty years on. -/
def farFuture (now : Nat) : Nat := now + 86400 * 365 * 30 * 1_000_000_000

/-- The instant `d` after `now`; beyond 2^63 seconds it becomes the far future. -/
def deadline (now : Nat) (d : Duration) : Nat :=
  if now + d.toNanos < 0x8000_0000_0000_0000 * 1_000_000_000 then now + d.toNanos else farFuture now

/-- The first whole millisecond that is not before an instant. -/
def milliOf (instant : Nat) : Nat := (instant + (nanosPerMilli - 1)) / nanosPerMilli

/-- A periodic loop: the instant its next tick is due, and the time between ticks. -/
structure Loop where
  next : Nat
  period : Duration
  period_pos : 0 < period.toNanos

namespace Loop

/-- A loop that starts at `now`. -/
def start (now : Nat) (period : Duration) (h : 0 < period.toNanos) : Loop :=
  ⟨deadline now period, period, h⟩

/-- The millisecond at which the next tick is due. -/
def due (l : Loop) : Nat := milliOf l.next

/-- How late a tick may be without moving the schedule. -/
def grace : Nat := 5 * nanosPerMilli

/-- The loop after a tick at `now`. Ticks that fall before `now` are taken to have run with it. -/
def advance (l : Loop) (now : Nat) : Loop :=
  if l.next + grace < now then { l with next := deadline now l.period }
  else if now < l.next then { l with next := deadline l.next l.period }
  else
    let last := l.next + (now - l.next) / l.period.toNanos * l.period.toNanos
    { l with next := deadline last l.period }

theorem lt_deadline {now : Nat} {d : Duration} (h : 0 < d.toNanos) : now < deadline now d := by
  unfold deadline farFuture
  split <;> omega

theorem period_advance (l : Loop) (now : Nat) : (l.advance now).period = l.period := by
  unfold advance
  split
  · rfl
  · split <;> rfl

theorem lt_next_advance (l : Loop) (now : Nat) : now < (l.advance now).next := by
  have hp := l.period_pos
  unfold advance
  split
  · exact lt_deadline hp
  · split
    · rename_i h
      exact Nat.lt_trans h (lt_deadline hp)
    · rename_i hl hn
      have hdiv := Nat.div_add_mod (now - l.next) l.period.toNanos
      have hmod := Nat.mod_lt (now - l.next) hp
      rw [Nat.mul_comm] at hdiv
      simp only [grace, nanosPerMilli] at hl
      simp only [deadline, farFuture]
      split <;> omega

end Loop
end LayeredCache
