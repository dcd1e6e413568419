import RainWebServer.Lib.Machine
import RainWebServer.Lib.SortedList
import Mathlib.Algebra.Group.Nat.Defs
import Mathlib.Logic.Function.Basic

/-!
# TimerQueue: Timers on One Timerfd

Embeds `src/util/TimerQueue.cc`, `src/util/Timer.cc` and the parts of `include/net/Timestamp.h`
that they use, on the thread of the loop.

The machine's actions are the calls that the rest of the program makes (`addTimer`, and
`handleRead` when the descriptor is readable), the expiration of the timerfd, and the iterations
of the two loops of `handleRead`. A callback is any sequence of `addTimer` calls between its own
call and the next iteration. Every reading of a clock is part of the action.

## Representation

- A `Timestamp` is its number of microseconds, an integer. The code adds in `int64_t`; times and
  intervals are taken to be small enough that no sum overflows.
- A `double` of seconds is what the code looks at: whether it is positive, and the whole number of
  microseconds that `addTime` truncates it to, which fits into an `int64_t`.
- A `Timer *` is its address, a natural number. `new` returns any address that is not in use and
  below `UINTPTR_MAX`.
- The `std::function` of the n-th call of `addTimer` is the number n.
- `timers_` is the list of its entries in the order of the set (`insertSorted`).
- `callingExpiredTimers_` is written only, and left out.

## Faults

An action faults when the code reads a `Timer` that has been deleted.
-/

namespace RainWebServer.Util

open RainWebServer.Lib

/-! ## §1 Timestamps and timers -/

/-- `Timestamp::kMicroSecondsPerSecond`. -/
def kMicroSecondsPerSecond : Int := 1000 * 1000

/-- A `double` that counts seconds. An interval below a microsecond is positive and truncated to no
    microsecond at all. -/
structure Seconds where
  /-- `seconds > 0.0`. -/
  positive : Bool
  /-- `static_cast<int64_t>(seconds * kMicroSecondsPerSecond)`. -/
  micros : Int
  deriving DecidableEq, Repr

/-- The constant `0.0`. -/
def Seconds.zero : Seconds := ⟨false, 0⟩

/-- `addTime`, as long as the sum is an `int64_t`. -/
def addTime (timestamp : Int) (seconds : Seconds) : Int := timestamp + seconds.micros

/-- `Timer`. -/
structure Timer where
  callback_ : Nat
  expiration_ : Int
  interval_ : Seconds
  repeat_ : Bool
  deriving DecidableEq, Repr

/-- The constructor of `Timer`. -/
def Timer.new (cb : Nat) (when_ : Int) (interval : Seconds) : Timer where
  callback_ := cb
  expiration_ := when_
  interval_ := interval
  repeat_ := interval.positive

/-- `Timer::restart`. -/
def Timer.restart (timer : Timer) (now : Int) : Timer :=
  { timer with expiration_ := if timer.repeat_ then addTime now timer.interval_ else 0 }

/-! ## §2 The set of entries -/

/-- `UINTPTR_MAX`. -/
def uintptrMax : Nat := 2 ^ 64 - 1

/-- `TimerQueue::Entry`. -/
abbrev Entry := Int × Nat

/-- `operator<` of `std::pair<Timestamp, Timer *>`. -/
def Entry.lt (a b : Entry) : Bool :=
  decide (a.1 < b.1) || (!decide (b.1 < a.1) && decide (a.2 < b.2))

/-- `timers_.insert(e)`: nothing happens when the set has the entry. -/
def insertEntry (e : Entry) (timers : List Entry) : List Entry := insertSorted Entry.lt e timers

/-- The entries before `timers_.lower_bound(sentry)`. -/
def expiredOf (timers : List Entry) (now : Int) : List Entry :=
  timers.takeWhile (fun e => e.lt (now, uintptrMax))

/-- The entries that `getExpired` leaves. -/
def unexpiredOf (timers : List Entry) (now : Int) : List Entry :=
  timers.dropWhile (fun e => e.lt (now, uintptrMax))

/-! ## §3 The timerfd -/

/-- `struct timespec`. -/
structure Timespec where
  tv_sec : Int
  tv_nsec : Int
  deriving DecidableEq, Repr

/-- The time that a `timespec` stands for, in nanoseconds. -/
def Timespec.nanos (ts : Timespec) : Int := ts.tv_sec * 1000000000 + ts.tv_nsec

/-- What `timerfd_settime` was given, and the reading from which it was computed. -/
structure Setting where
  it_value : Timespec
  now : Int
  deriving DecidableEq, Repr

/-- A one-shot timerfd. -/
inductive Timerfd where
  | disarmed
  /-- Set and not expired. -/
  | armed (setting : Setting)
  /-- Expired, and the expiration has not been read. -/
  | expired (setting : Setting)
  deriving DecidableEq, Repr

/-- The setting of a timerfd that is armed, or expired and unread. -/
def Timerfd.setting : Timerfd → Option Setting
  | .disarmed => none
  | .armed setting | .expired setting => some setting

/-- `ReadTimerFd`: the read disarms an expired timerfd, and fails on any other. -/
def Timerfd.read : Timerfd → Timerfd
  | .expired _ => .disarmed
  | timerfd => timerfd

/-- The conversion in `resetTimerfd`. -/
def timespecOf (microSecondDif : Int) : Timespec where
  tv_sec := microSecondDif.tdiv kMicroSecondsPerSecond
  tv_nsec := microSecondDif.tmod kMicroSecondsPerSecond * 1000

/-- The new state of the timerfd in `resetTimerfd`, which reads the clock at `now`. -/
def settime (expiration now : Int) : Timerfd :=
  let microSecondDif := expiration - now
  -- a time that is over would disarm the timerfd
  let microSecondDif := if microSecondDif < 100 then 100 else microSecondDif
  .armed ⟨timespecOf microSecondDif, now⟩

/-! ## §4 The queue -/

/-- Where the loop's thread is. -/
inductive Phase where
  /-- Outside `handleRead`. -/
  | outside
  /-- In the loop over `expired` that calls `run`: those called, and those left. -/
  | calling (now : Int) (called todo : List Entry)
  /-- In the loop of `reset`, with these left. -/
  | resetting (rest : List Entry)
  deriving DecidableEq, Repr

/-- `addTimer` may be called: outside `handleRead`, and by a callback that it runs. -/
def Phase.calls : Phase → Bool
  | .outside => true
  | .calling _ called _ => !called.isEmpty
  | .resetting _ => false

/-- The arguments of one call of `addTimer`. -/
structure Request where
  when_ : Int
  interval : Seconds
  deriving DecidableEq, Repr

/-- What happens to timers. -/
inductive Event where
  /-- `handleRead`, which read the clock at `now`, runs the timer of an entry. -/
  | ran (entry : Entry) (callback : Nat) (now : Int)
  /-- The timer is deleted. -/
  | deleted (callback : Nat)
  deriving DecidableEq, Repr

/-- `timers_`, the timers in memory, the timerfd, where the thread is, and two records: the calls
    of `addTimer` and the events so far. -/
structure TimerQueue where
  timers_ : List Entry
  heap : Nat → Option Timer
  timerfd : Timerfd
  phase : Phase
  requests : List Request
  log : List Event

namespace TimerQueue

/-- The constructor. -/
def new : TimerQueue where
  timers_ := []
  heap := fun _ => none
  timerfd := .disarmed
  phase := .outside
  requests := []
  log := []

/-- `resetTimerfd`. -/
def resetTimerfd (q : TimerQueue) (expiration now : Int) : TimerQueue :=
  { q with timerfd := settime expiration now }

/-- The test in `insert`: `when` comes before all entries. -/
def earliestChanged (timers : List Entry) (when_ : Int) : Bool :=
  match timers with
  | [] => true
  | first :: _ => decide (when_ < first.1)

/-- `insert`, and whether the earliest expiration has changed. -/
def insert (q : TimerQueue) (timer : Nat) : Option (TimerQueue × Bool) := do
  let t ← q.heap timer
  some ({ q with timers_ := insertEntry (t.expiration_, timer) q.timers_ },
    earliestChanged q.timers_ t.expiration_)

/-- `addTimerInLoop`. -/
def addTimerInLoop (q : TimerQueue) (timer : Nat) (now : Int) : Option TimerQueue := do
  let (q, changed) ← q.insert timer
  let t ← q.heap timer
  some (if changed then q.resetTimerfd t.expiration_ now else q)

/-- `new Timer(cb, when, interval)` at the address `p`. -/
def newTimer (q : TimerQueue) (p : Nat) (request : Request) : TimerQueue :=
  { q with
    heap := Function.update q.heap p
      (some (Timer.new q.requests.length request.when_ request.interval))
    requests := q.requests ++ [request] }

/-- `addTimer` on the thread of the loop, where `runInLoop` calls `addTimerInLoop` at once. -/
def addTimer (q : TimerQueue) (p : Nat) (request : Request) (now : Int) :
    Option TimerQueue :=
  (q.newTimer p request).addTimerInLoop p now

/-- `handleRead` up to its first loop. -/
def beginRead (q : TimerQueue) (now : Int) : TimerQueue :=
  { q with
    timerfd := q.timerfd.read
    timers_ := unexpiredOf q.timers_ now
    phase := .calling now [] (expiredOf q.timers_ now) }

/-- One iteration of the loop that calls `run`. -/
def runTimer (q : TimerQueue) (now : Int) (called : List Entry) (e : Entry)
    (todo : List Entry) : Option TimerQueue := do
  let t ← q.heap e.2
  some { q with
    log := q.log ++ [.ran e t.callback_ now]
    phase := .calling now (called ++ [e]) todo }

/-- The body of the loop of `reset` up to its last `if`: a repeating timer is restarted and
    inserted, any other is deleted. -/
def restartOrDelete (q : TimerQueue) (timer : Nat) (now : Int) : Option TimerQueue := do
  let t ← q.heap timer
  if t.repeat_ then
    let q : TimerQueue := { q with heap := Function.update q.heap timer (some (t.restart now)) }
    (q.insert timer).map (·.1)
  else
    some { q with
      heap := Function.update q.heap timer none
      log := q.log ++ [.deleted t.callback_] }

/-- The last `if` of that body. -/
def rearm (q : TimerQueue) (now : Int) : Option TimerQueue :=
  match q.timers_ with
  | [] => some q
  | first :: _ => (q.heap first.2).map (fun t => q.resetTimerfd t.expiration_ now)

/-- One iteration of the loop of `reset`, with its two readings of the clock. -/
def resetTimer (q : TimerQueue) (e : Entry) (rest : List Entry) (restartNow now : Int) :
    Option TimerQueue := do
  let q ← q.restartOrDelete e.2 restartNow
  let q ← q.rearm now
  some { q with phase := .resetting rest }

/-! ## §5 The machine -/

/-- What happens next. -/
inductive Act where
  /-- A call of `addTimer`, from outside `handleRead` or by the callback that is running. -/
  | addTimer (p : Nat) (request : Request) (now : Int)
  /-- The timerfd expires. -/
  | expire
  /-- `handleRead` is called and reads the clock. -/
  | handleRead (now : Int)
  /-- It runs the next timer. -/
  | runTimer
  /-- It calls `reset`. -/
  | beginReset
  /-- `reset` restarts or deletes the next timer. -/
  | resetTimer (restartNow now : Int)
  /-- It returns. -/
  | endRead
  deriving DecidableEq, Repr

/-- Can the action be taken? -/
def enabled (q : TimerQueue) : Act → Bool
  | .addTimer p _ _ => q.phase.calls && (q.heap p).isNone && decide (p < uintptrMax)
  | .expire => match q.timerfd with
    | .armed _ => true
    | _ => false
  | .handleRead _ => decide (q.phase = .outside)
  | .runTimer => match q.phase with
    | .calling _ _ (_ :: _) => true
    | _ => false
  | .beginReset => match q.phase with
    | .calling _ _ [] => true
    | _ => false
  | .resetTimer _ _ => match q.phase with
    | .resetting (_ :: _) => true
    | _ => false
  | .endRead => decide (q.phase = .resetting [])

/-- The effect of an action. -/
def step (q : TimerQueue) : Act → Option TimerQueue
  | .addTimer p request now => q.addTimer p request now
  | .expire => match q.timerfd with
    | .armed setting => some { q with timerfd := .expired setting }
    | _ => some q
  | .handleRead now => some (q.beginRead now)
  | .runTimer => match q.phase with
    | .calling now called (e :: todo) => q.runTimer now called e todo
    | _ => some q
  | .beginReset => match q.phase with
    | .calling _ called [] => some { q with phase := .resetting called }
    | _ => some q
  | .resetTimer restartNow now => match q.phase with
    | .resetting (e :: rest) => q.resetTimer e rest restartNow now
    | _ => some q
  | .endRead => some { q with phase := .outside }

/-- The timer queue as a machine. -/
def machine : Machine TimerQueue Act := ⟨enabled, step⟩

end TimerQueue

end RainWebServer.Util
