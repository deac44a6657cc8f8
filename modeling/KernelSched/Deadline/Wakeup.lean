import KernelSched.Deadline.Isolation

/-!
# What a wakeup leaves to a task with a constrained deadline

`update_dl_entity` keeps runtime and deadline, gives a new period, or cuts the runtime to what the density allows in the
time left (the revised rule). Whichever it is, the runtime fits the time left, up to the units of 1024 ns in which they
are compared, just if the products of the comparison differ by no more than half of a word. With the largest
`sched_dl_period_max_us` a period can be too long for that.
-/

namespace KernelSched.Cbs

open Wrap Run Deadline

variable {p : Params} {s : Entity}

namespace Entity

def laxity (s : Entity) : ℤ := s.deadline - s.clock

/-- What `dl_entity_overflow` compares, without truncation: the left product is larger by this, in units of 1024 ns. -/
def excess (p : Params) (s : Entity) : ℤ :=
  (p.dlDeadline : ℤ) / 1024 * (s.runtime / 1024) - s.laxity / 1024 * ((p.dlRuntime : ℤ) / 1024)

/-- A task as a wakeup finds it: its period is no longer than the largest `sched_dl_period_max_us`, and its times are
those of its words. Only a deadline further away than the relative one has to leave the difference in its word. -/
structure Woken (p : Params) (s : Entity) : Prop where
  constrained : p.dlDeadline < p.dlPeriod
  period : p.dlPeriod < 2 ^ 42
  runtime : -2 ^ 63 ≤ s.runtime
  budget : s.runtime ≤ p.dlRuntime
  early : -2 ^ 63 ≤ s.laxity
  late : s.laxity < 2 ^ 63
  ahead : p.dlDeadline < s.laxity → -2 ^ 63 < s.excess p

end Entity

open Entity

def asleep : Entity := ⟨0, 0, 0, false, false, false, false, false⟩

end KernelSched.Cbs
