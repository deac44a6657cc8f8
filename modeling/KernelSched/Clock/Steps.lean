import KernelSched.Lib.Run
import KernelSched.Lib.Wrap

/-!
# The per-CPU clocks of an unstable machine: the reads and writes of each call

`sched_clock_local`, `sched_clock_remote` and `sched_clock_tick` on a 64-bit machine whose raw clock is not stable. A
call is cut at each of its accesses to memory that another CPU, or an interrupt on the same CPU, may write: `Pc` says
where a context is in the code and holds its local variables, `exec` does one access, so a list of operations is an
interleaving. What `sched_clock()` and `ktime_get_ns()` return is part of the operation: any word at all.

`History` is not of the code: it holds how far every clock has moved at every moment, and what was read when. It is
computed from the states alone (`History.note`).
-/

namespace KernelSched.Clock

open Wrap Run Function

def wrapMin (x y : U64) : U64 := if before x y then x else y

def wrapMax (x y : U64) : U64 := if ahead x y then x else y

/-- `delta` of `sched_clock_local`: backward motion of the raw clock counts as none. -/
def rawDelta (now tickRaw : U64) : U64 := if before now tickRaw then 0 else now - tickRaw

/-- The value `sched_clock_local` writes, from `gtod`, the old clock, `delta` and `TICK_NSEC`. -/
def localClock (tickNsec gtod oldClock delta : U64) : U64 :=
  let clock := gtod + delta
  let minClock := wrapMax gtod oldClock
  let maxClock := wrapMax oldClock (gtod + tickNsec)
  wrapMin (wrapMax clock minClock) maxClock

/-- What `sched_clock_local` was called for: `sched_clock_cpu` of this CPU, `sched_clock_tick`, or the first thing
`sched_clock_remote` does. -/
inductive Goal (C : Type)
  | own
  | tick
  | remote (cpu : C)
  deriving DecidableEq

/-- Where a context is in the code: the next access to shared memory, with the local variables that are still read. -/
inductive Pc (C : Type)
  | out
  -- `__scd_stamp`
  | stampGtod
  | stampRaw
  -- `sched_clock_local`
  | loadRaw (g : Goal C)
  | loadClock (g : Goal C) (delta : U64)
  | loadGtod (g : Goal C) (delta oldClock : U64)
  | swapLocal (g : Goal C) (oldClock clock : U64)
  -- `sched_clock_remote`
  | loadThis (cpu : C)
  | loadRemote (cpu : C) (thisClock : U64)
  | swapRemote (cpu : C) (thisClock remoteClock : U64)
  deriving DecidableEq

/-- The `sched_clock_data` of every CPU, and where every context is. -/
structure State (C T : Type) where
  clock : C → U64
  tickRaw : C → U64
  tickGtod : C → U64
  pc : T → Pc C

/-- What holds of the machine: the CPU a context runs on (a CPU has several: its task, its interrupts), the length of a
tick and `__gtod_offset`. -/
structure Machine (C T : Type) where
  cpuOf : T → C
  tickNsec : U64
  gtodOffset : U64

/-- One access to shared memory, or a call. -/
inductive Op (C T : Type)
  | schedClockCpu (t : T) (cpu : C)
  | schedClockTick (t : T)
  /-- The next access of `t`; `v` is what the raw clock or the timekeeper returns, where `t` asks it. -/
  | next (t : T) (v : U64)

variable {C T : Type} [DecidableEq C] [DecidableEq T]

/-- `t` goes on at `pc`. -/
def State.goto (s : State C T) (t : T) (pc : Pc C) : State C T := { s with pc := update s.pc t pc }

def State.put (s : State C T) (k : C) (v : U64) : State C T := { s with clock := update s.clock k v }

/-- Where `sched_clock_local` on CPU `k` returns to. -/
def Goal.back : Goal C → Pc C
  | .own => .out
  | .tick => .out
  | .remote cpu => .loadThis cpu

/-- What `sched_clock_cpu` returns when `sched_clock_local` returns `v`: for which CPU, and which word. -/
def Goal.answer (k : C) (v : U64) : Goal C → Option (C × U64)
  | .own => some (k, v)
  | .tick => none
  | .remote _ => none

/-- One operation: the state after it and, when it is the last of a `sched_clock_cpu` call, what that call returns. -/
def exec (M : Machine C T) : Op C T → State C T → Option (State C T × Option (C × U64))
  | .schedClockCpu t cpu, s =>
    match s.pc t with
    | .out => some (s.goto t (.loadRaw (if cpu = M.cpuOf t then .own else .remote cpu)), none)
    | _ => none
  | .schedClockTick t, s =>
    match s.pc t with
    | .out => some (s.goto t .stampGtod, none)
    | _ => none
  | .next t v, s =>
    match s.pc t with
    | .out => none
    | .stampGtod => some ({ s with tickGtod := update s.tickGtod (M.cpuOf t) v }.goto t .stampRaw, none)
    | .stampRaw => some ({ s with tickRaw := update s.tickRaw (M.cpuOf t) v }.goto t (.loadRaw .tick), none)
    | .loadRaw g => some (s.goto t (.loadClock g (rawDelta v (s.tickRaw (M.cpuOf t)))), none)
    | .loadClock g delta => some (s.goto t (.loadGtod g delta (s.clock (M.cpuOf t))), none)
    | .loadGtod g delta oldClock =>
      let gtod := s.tickGtod (M.cpuOf t) + M.gtodOffset
      some (s.goto t (.swapLocal g oldClock (localClock M.tickNsec gtod oldClock delta)), none)
    | .swapLocal g oldClock clock =>
      if s.clock (M.cpuOf t) = oldClock then
        some ((s.put (M.cpuOf t) clock).goto t g.back, g.answer (M.cpuOf t) clock)
      else some (s.goto t (.loadRaw g), none)
    | .loadThis cpu => some (s.goto t (.loadRemote cpu (s.clock (M.cpuOf t))), none)
    | .loadRemote cpu thisClock => some (s.goto t (.swapRemote cpu thisClock (s.clock cpu)), none)
    | .swapRemote cpu thisClock remoteClock =>
      if before remoteClock thisClock then
        if s.clock cpu = remoteClock then some ((s.put cpu thisClock).goto t .out, some (cpu, thisClock))
        else some (s.goto t (.loadThis cpu), none)
      else
        if s.clock (M.cpuOf t) = thisClock then
          some ((s.put (M.cpuOf t) remoteClock).goto t .out, some (cpu, remoteClock))
        else some (s.goto t (.loadThis cpu), none)

/-! ## The history of a run -/

/-- A `sched_clock_cpu` call that has returned: who asked for which CPU, the answer, and the moments just before the
call and just after its last access. -/
structure Read (C : Type) where
  reader : C
  target : C
  value : U64
  started : ℕ
  finished : ℕ

/-- The number of operations so far, how far every clock had moved at each moment up to now, the moment each context's
latest call began, and the calls that have returned. -/
structure History (C T : Type) where
  time : ℕ
  movedAt : ℕ → C → ℤ
  started : T → ℕ
  reads : List (Read C)

def Op.context : Op C T → T
  | .schedClockCpu t _ => t
  | .schedClockTick t => t
  | .next t _ => t

/-- The operation is a call, not an access of a call that is under way -/
def Op.isCall : Op C T → Bool
  | .schedClockCpu _ _ => true
  | .schedClockTick _ => true
  | .next _ _ => false

/-- An operation that takes `s` to `s'` and returns `answer` moves every clock by the signed difference of its words. -/
def History.note (M : Machine C T) (h : History C T) (op : Op C T) (s s' : State C T) (answer : Option (C × U64)) :
    History C T where
  time := h.time + 1
  movedAt := update h.movedAt (h.time + 1) fun i => h.movedAt h.time i + (s'.clock i - s.clock i).toInt
  started := if op.isCall then update h.started op.context h.time else h.started
  reads :=
    match answer with
    | some (cpu, v) => ⟨M.cpuOf op.context, cpu, v, h.started op.context, h.time + 1⟩ :: h.reads
    | none => h.reads

def step (M : Machine C T) (op : Op C T) (x : State C T × History C T) : Option (State C T × History C T) :=
  (exec M op x.1).map fun r => (r.1, x.2.note M op x.1 r.1 r.2)

def State.Idle (s : State C T) : Prop := ∀ t, s.pc t = .out

def History.empty : History C T := ⟨0, fun _ _ => 0, fun _ => 0, []⟩

end KernelSched.Clock
