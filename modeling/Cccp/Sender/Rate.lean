import Cccp.Lib.Balance
import Cccp.Lib.Counting
import Cccp.Options.Command
import Cccp.Sender.Permits

/-!
# The send rate

`add_permits_at_rate` makes an interval of the rate it is given, and at every tick adds a
permit to the semaphore `send` unless 1000 are available.  Here it runs beside the tasks of
`Flow`, where a sender task takes a permit, waits for a job, attempts to send it and forgets
the permit.  A task that waits for a permit takes it in a step of its own.  The semaphore is
never closed and every sender task holds both ends of the job queue, so that a sender task
ends only after it has forgotten its permit.

* `send_rate_enforced`: where the permits are after every run, and how many attempts start in
  any part of it.
* `rate_total_iff`: the rates for which the interval can be made; with any other rate no
  attempt starts (`no_attempt_of_panicked`).
-/

namespace Cccp

/-! ## Rates -/

/-- UDP header, id, index and data. -/
def packetSize : Nat := 8 + idSize + indexSize + transferBufferSize

/-- `n / d` on `u64`, which panics if the divisor is zero. -/
def divU64 (n d : UInt64) : Option UInt64 := if d = 0 then none else some (n / d)

/-- `Options::pps`: the send rate in packets per second. -/
def Options.pps (o : Options) : Option UInt64 := divU64 o.rate (UInt64.ofNat packetSize)

namespace Flow

/-! ## The permits of the sender tasks -/

/-- The task holds a permit of the semaphore `send`. -/
def SenderTask.permitted (task : SenderTask) : Bool :=
  match task.pc with
  | .receiving | .sending _ | .caching _ => true
  | .acquiring | .exited => false

/-- The task holds a permit and waits for a job. -/
def SenderTask.waits (task : SenderTask) : Bool :=
  match task.pc with
  | .receiving => true
  | _ => false

/-- A sender task has a job and begins to send it. -/
def Action.attempts : Action → Bool
  | .receive _ => true
  | _ => false

/-- A sender task is done with an attempt and forgets its permit. -/
def Action.completes : Action → Bool
  | .sendFails _ | .cacheJob _ => true
  | _ => false

def permitted (s : State) : Nat := s.tasks.countP SenderTask.permitted

def waiting (s : State) : Nat := s.tasks.countP SenderTask.waits

variable {cfg : Config} {s s' : State} {action : Action}

/-- A task that begins a round holds no permit. -/
theorem permitted_again (retries retries' : Nat) :
    SenderTask.permitted ⟨TaskPc.again cfg retries, retries'⟩ = false := by
  unfold TaskPc.again
  split <;> rfl

theorem waits_again (retries retries' : Nat) :
    SenderTask.waits ⟨TaskPc.again cfg retries, retries'⟩ = false := by
  unfold TaskPc.again
  split <;> rfl

theorem available_of_acquireSend {t : Nat} (next : step cfg s (.acquireSend t) = some s') :
    0 < s.send := by
  obtain ⟨task, here, next⟩ := Option.bind_eq_some_iff.mp next
  simp only [taskStep] at next
  split at next
  next =>
    split at next
    next available => exact available
    next => cases next
  next => cases next

/-- What a step makes of the permits, if it adds none. -/
structure Passed (s : State) (action : Action) (s' : State) : Prop where
  tasks : s'.tasks.length = s.tasks.length
  send : s'.send ≤ s.send
  /-- a permit is available or held until it is forgotten -/
  permitted : s'.send + permitted s' + (if action.completes then 1 else 0) = s.send + permitted s
  /-- a permit is available or held by a task without a job until an attempt begins -/
  waiting : s'.send + waiting s' + (if action.attempts then 1 else 0) = s.send + waiting s

/-- A step of the readers or of the cache. -/
theorem Passed.same (tasks : s'.tasks = s.tasks) (send : s'.send = s.send)
    (completes : action.completes = false) (attempts : action.attempts = false) :
    Passed s action s' := by
  refine ⟨by rw [tasks], Nat.le_of_eq send, ?_, ?_⟩
  · rw [Flow.permitted, Flow.permitted, tasks, send, completes]
    rfl
  · rw [Flow.waiting, Flow.waiting, tasks, send, attempts]
    rfl

/-- A step of the sender task at `t`. -/
theorem Passed.task {t : Nat} {old new : SenderTask} (here : s.tasks[t]? = some old)
    (tasks : s'.tasks = s.tasks.set t new) (send : s'.send ≤ s.send)
    (held : s'.send + (if new.permitted then 1 else 0) + (if action.completes then 1 else 0) =
      s.send + if old.permitted then 1 else 0)
    (idle : s'.send + (if new.waits then 1 else 0) + (if action.attempts then 1 else 0) =
      s.send + if old.waits then 1 else 0) : Passed s action s' := by
  have permitted := @countP_set_add _ SenderTask.permitted _ _ _ here new
  have waiting := @countP_set_add _ SenderTask.waits _ _ _ here new
  refine ⟨by rw [tasks, List.length_set], send, ?_, ?_⟩
  · rw [Flow.permitted, Flow.permitted, tasks]
    omega
  · rw [Flow.waiting, Flow.waiting, tasks]
    omega

theorem passed_of_step (next : step cfg s action = some s') (other : action ≠ .addPermit) :
    Passed s action s' := by
  cases step_cases next with
  | started | restarted | opened | unseekable | unopened | acquired | produced | forgot
  | confirmed | lost | requeued | late | gone => exact .same rfl rfl rfl rfl
  | ended here pc stops =>
      rcases stops with rfl | ⟨rfl, -⟩
      · exact .same rfl rfl rfl rfl
      · exact .same rfl rfl rfl rfl
  | permitted => exact absurd rfl other
  | sendAcquired here pc =>
      have available := available_of_acquireSend next
      refine .task here rfl (Nat.sub_le _ _) ?_ ?_
      · simp [SenderTask.permitted, pc, Action.completes, State.setTask]
        omega
      · simp [SenderTask.waits, pc, Action.attempts, State.setTask]
        omega
  | received here pc _ | sent here pc =>
      refine .task here rfl (Nat.le_refl _) ?_ ?_
      · simp [SenderTask.permitted, pc, Action.completes, State.setTask]
      · simp [SenderTask.waits, pc, Action.attempts, State.setTask]
  | sendFailed here pc | cached here pc =>
      refine .task here rfl (Nat.le_refl _) ?_ ?_
      · rw [permitted_again]
        simp [SenderTask.permitted, pc, Action.completes, State.setTask]
      · rw [waits_again]
        simp [SenderTask.waits, pc, Action.attempts, State.setTask]

end Flow

namespace Rate

/-- The nanoseconds between two permits. -/
def period (rate : UInt64) : Option UInt64 := divU64 1000000000 rate

/-- The next operation of the task that adds permits. -/
inductive PermitPc where
  | starting
  | waiting (period : UInt64)
  | adding (period : UInt64)
  | panicked

/-- `add_permits_at_rate` up to its loop: `interval` panics if its period is zero. -/
def addPermitsAtRate (rate : UInt64) : PermitPc :=
  match period rate with
  | none => .panicked
  | some period => if period = 0 then .panicked else .waiting period

/-! ## Steps -/

structure State where
  flow : Flow.State
  permits : PermitPc

inductive Action where
  | start
  | tick
  | add
  | sender (action : Flow.Action)

/-- A tick and the check behind it are one step; other tasks may step before the permit is
added. -/
def step (cfg : Flow.Config) (rate : UInt64) (s : State) : Action → Option State
  | .start =>
      match s.permits with
      | .starting => some { s with permits := addPermitsAtRate rate }
      | _ => none
  | .tick =>
      match s.permits with
      | .waiting period =>
          -- don't want too many permits to build up
          some { s with permits := if s.flow.send < 1000 then .adding period else .waiting period }
      | _ => none
  | .add =>
      match s.permits with
      | .adding period =>
          some ⟨{ s.flow with send := s.flow.send + 1 }, .waiting period⟩
      | _ => none
  | .sender .addPermit => none
  | .sender action => (Flow.step cfg s.flow action).map fun flow => { s with flow := flow }

def initial (cfg : Flow.Config) : State := ⟨Flow.initial cfg, .starting⟩

def machine (cfg : Flow.Config) (rate : UInt64) : Machine State Action where
  init s := s = initial cfg
  step := step cfg rate

inductive Move (cfg : Flow.Config) (rate : UInt64) (s : State) : Action → State → Prop
  | started (pc : s.permits = .starting) :
      Move cfg rate s .start { s with permits := addPermitsAtRate rate }
  | ticked {period : UInt64} (pc : s.permits = .waiting period) (few : s.flow.send < 1000) :
      Move cfg rate s .tick { s with permits := .adding period }
  | skipped {period : UInt64} (pc : s.permits = .waiting period) :
      Move cfg rate s .tick s
  | added {period : UInt64} (pc : s.permits = .adding period) :
      Move cfg rate s .add ⟨{ s.flow with send := s.flow.send + 1 }, .waiting period⟩
  | stepped {action : Flow.Action} {flow : Flow.State} (other : action ≠ .addPermit)
      (next : Flow.step cfg s.flow action = some flow) :
      Move cfg rate s (.sender action) { s with flow := flow }

variable {cfg : Flow.Config} {rate : UInt64} {s s' : State} {action : Action}
  {actions : List Action}

theorem step_cases (next : step cfg rate s action = some s') : Move cfg rate s action s' := by
  cases action with
  | start =>
      simp only [step] at next
      split at next
      next pc =>
        cases next
        exact .started pc
      next => cases next
  | tick =>
      simp only [step] at next
      split at next
      next period pc =>
        cases next
        split
        next few => exact .ticked pc few
        next =>
          rw [← pc]
          exact .skipped pc
      next => cases next
  | add =>
      simp only [step] at next
      split at next
      next period pc =>
        cases next
        exact .added pc
      next => cases next
  | sender action =>
      have other : action ≠ .addPermit := by
        intro same
        rw [same] at next
        cases next
      have stepped : (Flow.step cfg s.flow action).map (fun flow => { s with flow := flow }) =
          some s' := by
        cases action with
        | addPermit => exact absurd rfl other
        | _ => exact next
      obtain ⟨flow, inner, rfl⟩ := Option.map_eq_some_iff.mp stepped
      exact .stepped other inner


/-! ## Permits over a run -/

namespace Action

def adds : Action → Bool
  | .add => true
  | _ => false

def ticks : Action → Bool
  | .tick => true
  | _ => false

def attempts : Action → Bool
  | .sender action => action.attempts
  | _ => false

def completes : Action → Bool
  | .sender action => action.completes
  | _ => false

end Action

/-- The permit that is added next. -/
def PermitPc.pending : PermitPc → Nat
  | .adding _ => 1
  | _ => 0

theorem pending_addPermitsAtRate (rate : UInt64) : (addPermitsAtRate rate).pending = 0 := by
  unfold addPermitsAtRate
  split
  next => rfl
  next => split <;> rfl

/-- The permits with which attempts can begin, one of which may be on its way. -/
def unspent (s : State) : Nat := s.flow.send + s.permits.pending + Flow.waiting s.flow

structure Capped (cfg : Flow.Config) (s : State) : Prop where
  cap : s.flow.send + s.permits.pending ≤ 1000
  tasks : s.flow.tasks.length = cfg.threads

theorem capped_init : Capped cfg (initial cfg) where
  cap := Nat.zero_le _
  tasks := List.length_replicate

theorem capped_step (capped : Capped cfg s) (next : step cfg rate s action = some s') :
    Capped cfg s' := by
  have cap := capped.cap
  cases step_cases next with
  | started pc =>
      refine ⟨?_, capped.tasks⟩
      rw [pending_addPermitsAtRate]
      exact Nat.le_trans (Nat.le_add_right _ _) cap
  | ticked pc few => exact ⟨few, capped.tasks⟩
  | skipped pc => exact capped
  | added pc =>
      refine ⟨?_, capped.tasks⟩
      rw [pc] at cap
      exact cap
  | stepped other inner =>
      have passed := Flow.passed_of_step inner other
      have send := passed.send
      refine ⟨?_, passed.tasks.trans capped.tasks⟩
      dsimp only
      omega

theorem capped_reached (reached : (machine cfg rate).Reachable s) : Capped cfg s := by
  refine reached.invariant ?_ ?_
  · rintro _ rfl
    exact capped_init
  · intro s a s' _ capped _ next
    exact capped_step capped next

theorem Capped.unspent_le (capped : Capped cfg s) : unspent s ≤ 1000 + cfg.threads := by
  have cap := capped.cap
  have few : Flow.waiting s.flow ≤ s.flow.tasks.length := List.countP_le_length
  rw [capped.tasks] at few
  rw [unspent]
  omega

/-- A permit that was added is available, held or forgotten. -/
theorem permitted_step (next : step cfg rate s action = some s') :
    s'.flow.send + Flow.permitted s'.flow + (if action.completes then 1 else 0) =
      s.flow.send + Flow.permitted s.flow + if action.adds then 1 else 0 := by
  cases step_cases next with
  | started pc => rfl
  | ticked pc few => rfl
  | skipped pc => rfl
  | added pc =>
      rw [Flow.permitted, Flow.permitted, if_neg (by exact Bool.false_ne_true), if_pos (by rfl)]
      dsimp only
      omega
  | stepped other inner => exact (Flow.passed_of_step inner other).permitted

/-- Only a tick adds to what attempts can begin with. -/
theorem unspent_step (next : step cfg rate s action = some s') :
    unspent s' + (if action.attempts then 1 else 0) ≤
      unspent s + if action.ticks then 1 else 0 := by
  cases step_cases next with
  | started pc => simp [unspent, pending_addPermitsAtRate, Action.attempts, Action.ticks]
  | ticked pc few =>
      simp [unspent, pc, PermitPc.pending, Action.attempts, Action.ticks]
      omega
  | skipped pc => exact Nat.add_le_add_left (Nat.zero_le _) _
  | added pc =>
      simp [unspent, pc, PermitPc.pending, Action.attempts, Action.ticks, Flow.waiting]
  | @stepped a flow other inner =>
      have waiting := (Flow.passed_of_step inner other).waiting
      have attempt : (if Action.attempts (.sender a) then 1 else 0) =
          if a.attempts then 1 else 0 := rfl
      rw [attempt]
      simp only [unspent]
      omega

theorem permitted_initial : Flow.permitted (Flow.initial cfg) = 0 := by
  apply List.countP_eq_zero.mpr
  intro task mem
  rw [(List.mem_replicate.mp mem).2, Flow.permitted_again]
  exact Bool.false_ne_true

/-- **The send rate is enforced** on every path: a permit that was added is available, held or
spent on a completed attempt, at most 1000 are available, and the attempts that start in any
part of a run are bounded by its ticks. -/
theorem send_rate_enforced (ran : (machine cfg rate).run (initial cfg) actions = some s) :
    actions.countP Action.adds =
        s.flow.send + Flow.permitted s.flow + actions.countP Action.completes ∧
      s.flow.send ≤ 1000 ∧
      ∀ before window after, actions = before ++ window ++ after →
        window.countP Action.attempts ≤ window.countP Action.ticks + 1000 + cfg.threads := by
  have keep : ∀ s a s', Capped cfg s → (machine cfg rate).step s a = some s' → Capped cfg s' := by
    intro s a s' capped next
    exact capped_step capped next
  refine ⟨?_, ?_, ?_⟩
  · have balance := Machine.run_balance (fun s : State => s.flow.send + Flow.permitted s.flow)
      Action.adds Action.completes keep (fun s a s' _ next => permitted_step next) capped_init ran
    have none_ := @permitted_initial cfg
    have empty : (initial cfg).flow.send = 0 := rfl
    dsimp only [initial] at balance empty
    omega
  · have cap := (Machine.run_keeps keep capped_init ran).cap
    omega
  · intro before window after parts
    rw [parts] at ran
    have bound := Machine.run_window unspent Action.ticks Action.attempts keep
      (fun s a s' _ next => unspent_step next) (fun s capped => capped.unspent_le) capped_init ran
    omega

/-- The only job of a file fails to be sent. -/
def failedAttempt : List Action :=
  [.start, .tick, .add, .sender (.start 0 Flow.oneByte 0 ⟨fun _ => 0, 0, none⟩), .sender (.open_ 0),
    .sender (.acquireRead 0), .sender (.readChunk 0), .sender (.acquireSend 0),
    .sender (.receive 0), .sender (.sendFails 0)]

/-- The failed attempt has cost a permit. -/
theorem send_rate_enforced_failedAttempt :
    ∃ s, (machine Flow.onePermit 1000).run (initial Flow.onePermit) failedAttempt = some s ∧
      1 = s.flow.send + Flow.permitted s.flow + 1 := by
  have some_ : ((machine Flow.onePermit 1000).run (initial Flow.onePermit)
      failedAttempt).isSome = true := by decide +kernel
  obtain ⟨s, ran⟩ := Option.isSome_iff_exists.mp some_
  exact ⟨s, ran, (send_rate_enforced ran).1⟩

/-- Beside the task that adds permits, the others step as in `Flow`. -/
theorem flow_reachable (reached : (machine cfg rate).Reachable s) :
    (Flow.machine cfg).Reachable s.flow := by
  apply Machine.ReachableVia.simulate State.flow ?_ ?_ reached
  · rintro _ rfl
    exact rfl
  · intro s a s' before _ next
    cases step_cases next with
    | started pc => exact .inl rfl
    | ticked pc few => exact .inl rfl
    | skipped pc => exact .inl rfl
    | added pc =>
        have cap := (capped_reached before).cap
        rw [pc] at cap
        exact .inr ⟨.addPermit, trivial, if_pos cap⟩
    | @stepped a flow other inner => exact .inr ⟨a, trivial, inner⟩

/-! ## Which rates can be kept -/

theorem divU64_eq_some_iff {n d q : UInt64} : divU64 n d = some q ↔ d ≠ 0 ∧ q = n / d := by
  unfold divU64
  split
  next zero => simp [zero]
  next nonzero => simp [nonzero, eq_comm]

theorem pps_eq (o : Options) : o.pps = some (o.rate / 1044) :=
  divU64_eq_some_iff.mpr ⟨by decide, rfl⟩

/-- The period is at least a nanosecond up to a billion packets per second. -/
theorem period_pos_iff {pps : UInt64} : (∃ nanos, period pps = some nanos ∧ 1 ≤ nanos.toNat) ↔
    1 ≤ pps.toNat ∧ pps.toNat ≤ 1000000000 := by
  have billion : (1000000000 : UInt64).toNat = 1000000000 := rfl
  have zero : pps = 0 ↔ pps.toNat = 0 := UInt64.toNat_inj.symm
  simp only [period, divU64_eq_some_iff]
  constructor
  · rintro ⟨_, ⟨nonzero, rfl⟩, positive⟩
    rw [UInt64.toNat_div, billion] at positive
    have divisor : 0 < pps.toNat := Nat.pos_of_ne_zero (mt zero.mpr nonzero)
    exact ⟨divisor, (Nat.one_le_div_iff divisor).mp positive⟩
  · rintro ⟨divisor, small⟩
    refine ⟨_, ⟨mt zero.mp (Nat.ne_of_gt divisor), rfl⟩, ?_⟩
    rw [UInt64.toNat_div, billion]
    exact (Nat.one_le_div_iff divisor).mpr small

theorem addPermitsAtRate_of_period {nanos : UInt64} (made : period rate = some nanos)
    (positive : 1 ≤ nanos.toNat) : addPermitsAtRate rate = .waiting nanos := by
  have nonzero : nanos ≠ 0 := by
    rintro rfl
    exact absurd positive (by decide)
  rw [addPermitsAtRate, made]
  exact if_neg nonzero

theorem not_panicked (lives : addPermitsAtRate rate ≠ .panicked)
    (reached : (machine cfg rate).Reachable s) : s.permits ≠ .panicked := by
  induction reached with
  | init start =>
      rw [start]
      exact PermitPc.noConfusion
  | step _ _ next before =>
      cases step_cases next with
      | started pc => exact lives
      | ticked pc few => exact PermitPc.noConfusion
      | skipped pc => exact before
      | added pc => exact PermitPc.noConfusion
      | stepped other inner => exact before

/-- The packet rate and the period are well defined, and the task that adds permits never
panics. -/
def Total (cfg : Flow.Config) (o : Options) : Prop :=
  ∃ pps nanos, o.pps = some pps ∧ period pps = some nanos ∧ 1 ≤ nanos.toNat ∧
    ∀ s, (machine cfg pps).Reachable s → s.permits ≠ .panicked

/-- **Which rates can be kept**: those of at least one packet and of at most a billion packets
per second. -/
theorem rate_total_iff (cfg : Flow.Config) (o : Options) :
    Total cfg o ↔
      packetSize ≤ o.rate.toNat ∧ o.rate.toNat < packetSize * (1000000000 + 1) := by
  have size : packetSize = 1044 := rfl
  have pps : (o.rate / 1044).toNat = o.rate.toNat / 1044 := UInt64.toNat_div ..
  have range : 1 ≤ (o.rate / 1044).toNat ∧ (o.rate / 1044).toNat ≤ 1000000000 ↔
      packetSize ≤ o.rate.toNat ∧ o.rate.toNat < packetSize * (1000000000 + 1) := by
    omega
  rw [← range, ← period_pos_iff, Total]
  constructor
  · rintro ⟨_, nanos, is, made, positive, -⟩
    rw [pps_eq] at is
    cases is
    exact ⟨nanos, made, positive⟩
  · rintro ⟨nanos, made, positive⟩
    refine ⟨_, nanos, pps_eq o, made, positive, ?_⟩
    intro s
    apply not_panicked
    rw [addPermitsAtRate_of_period made positive]
    exact PermitPc.noConfusion

/-- `-r 1kb` -/
def oneKilobyte : Options := { substitution with rate := 1000 }

/-- `-r 2tb` -/
def twoTerabytes : Options := { substitution with rate := 2000000000000 }

/-- Less than a packet per second divides by zero, and more than a billion packets leave no
nanosecond between two permits. -/
theorem rates_panic :
    ¬ Total Flow.onePermit oneKilobyte ∧ ¬ Total Flow.onePermit twoTerabytes := by
  constructor
  · rintro ⟨pps, nanos, is, made, -⟩
    cases (pps_eq _).symm.trans is
    have none_ : period (oneKilobyte.rate / 1044) = none := by decide
    cases none_.symm.trans made
  · rintro ⟨pps, nanos, is, made, positive, -⟩
    cases (pps_eq _).symm.trans is
    have zero : period (twoTerabytes.rate / 1044) = some 0 := by decide
    cases zero.symm.trans made
    exact absurd positive (by decide)

/-- No attempt is left to begin. -/
structure Stopped (s : State) : Prop where
  permits : s.permits = .starting ∨ s.permits = .panicked
  unspent : unspent s = 0

theorem stopped_step (panics : addPermitsAtRate rate = .panicked) (stopped : Stopped s)
    (next : step cfg rate s action = some s') : Stopped s' ∧ action.attempts = false := by
  have unspent := unspent_step next
  have ticks : action.ticks = false ∧ (s'.permits = .starting ∨ s'.permits = .panicked) := by
    have pc := stopped.permits
    cases step_cases next with
    | started here => exact ⟨rfl, .inr panics⟩
    | ticked here few => rcases pc with pc | pc <;> cases here.symm.trans pc
    | skipped here => rcases pc with pc | pc <;> cases here.symm.trans pc
    | added here => rcases pc with pc | pc <;> cases here.symm.trans pc
    | stepped other inner => exact ⟨rfl, pc⟩
  rw [stopped.unspent, ticks.1, if_neg Bool.false_ne_true] at unspent
  split at unspent
  next => exact absurd unspent (by omega)
  next none_ => exact ⟨⟨ticks.2, Nat.eq_zero_of_le_zero unspent⟩, eq_false_of_ne_true none_⟩

/-- **A sender that waits for ever.**  Once the task that adds permits panics, no attempt to
send anything begins in any run. -/
theorem no_attempt_of_panicked (panics : addPermitsAtRate rate = .panicked)
    (ran : (machine cfg rate).run (initial cfg) actions = some s) :
    actions.countP Action.attempts = 0 := by
  have start : Stopped (initial cfg) := by
    refine ⟨.inl rfl, ?_⟩
    apply Nat.add_eq_zero_iff.mpr ⟨rfl, List.countP_eq_zero.mpr ?_⟩
    intro task mem
    rw [(List.mem_replicate.mp mem).2, Flow.waits_again]
    exact Bool.false_ne_true
  have keep : ∀ s a s', Stopped s → (machine cfg rate).step s a = some s' → Stopped s' := by
    intro s a s' stopped next
    exact (stopped_step panics stopped next).1
  apply Machine.run_relates (R := fun _ actions _ => actions.countP Action.attempts = 0) ?_ ?_
    keep start ran
  · intro s _
    exact List.countP_nil
  · intro s a s' rest t stopped next none_
    rw [List.countP_cons_of_neg (ne_true_of_eq_false (stopped_step panics stopped next).2)]
    exact none_

end Rate

end Cccp
