import TsOs.Process
import TsOs.Theorems.Scheduler

/-!
# What becomes of a task that exits

`task_exit` leaves the queues as they are: a task that exits while it is still linked in one, which is so after a quantum at whose
end the scheduler stayed on it, is picked again. A task that exits outside the queues is never picked again.
-/

namespace TsOs

open MlfqAux SchedulerAux List Option

/-- The calls after which an exit is final: a task is added that is in no queue and has not exited, and the task that calls
`task_exit` is in no queue and is not the idle task. -/
def ProcOp.Allowed (k : Processes) : ProcOp → Prop
  | .add (some t) => k.sched.mlfq.Unqueued t ∧ (k.sched.mlfq.tasks t).state ≠ .zombie
  | .exit _ => ∀ cur, k.sched.current = some cur → k.sched.mlfq.Unqueued cur ∧ k.sched.idle ≠ some cur
  | _ => True

/-- A sequence of calls each of which is allowed in the state it is made in. -/
def ProcAllowedRun : Processes → List ProcOp → Prop
  | _, [] => True
  | k, op :: ops => op.Allowed k ∧ ∀ k', op.run k = some k' → ProcAllowedRun k' ops

/-- The state of a task that has exited, in a scheduler that can go on without it. -/
structure Exited (s : Scheduler) (t : TaskPtr) : Prop where
  state : (s.mlfq.tasks t).state = .zombie
  idle : s.idle ≠ some t

variable {k k' : Processes} {t : TaskPtr}

theorem Processes.modify_procs (p : Processes) (u t : TaskPtr) (f : Proc → Proc) :
    (p.modify u f).procs t = if t = u then f (p.procs t) else p.procs t := by
  by_cases he : t = u
  · subst he
    simp [Processes.modify]
  · simp [Processes.modify, he]

namespace TaskExitAux

variable {qs : Queues}

theorem queued_pickHighest {s : Mlfq} (h : Rep s qs) (hp : mlfqPickHighest s = some t) :
    Queued qs t := by
  unfold mlfqPickHighest at hp
  split at hp
  · nomatch hp
  · split at hp
    · rename_i hlt
      rw [(h.linked ⟨builtinCtz s.bitmap, hlt⟩).head_eq] at hp
      exact ⟨_, mem_of_head? hp⟩
    · nomatch hp

/-- A task that is neither ready nor running, and not the idle task. -/
structure Parked (s : Scheduler) (t : TaskPtr) : Prop where
  ready : (s.mlfq.tasks t).state ≠ .ready
  running : (s.mlfq.tasks t).state ≠ .running
  idle : s.idle ≠ some t

variable {s : Scheduler}

theorem Exited.parked (h : Exited s t) : Parked s t := by
  refine ⟨?_, ?_, h.idle⟩
  · rw [h.state]
    decide
  · rw [h.state]
    decide

variable {s' : Scheduler}

/-- Parking only depends on the state of the task and on the idle task. -/
theorem Parked.congr (h : Parked s t) (hst : (s'.mlfq.tasks t).state = (s.mlfq.tasks t).state)
    (hi : s'.idle = s.idle) : Parked s' t := by
  refine ⟨?_, ?_, ?_⟩
  · rw [hst]
    exact h.ready
  · rw [hst]
    exact h.running
  · rw [hi]
    exact h.idle

variable {added : TaskPtr → Prop}

theorem Parked.not_queued (ht : Parked s t) (h : SchedInv s added qs) : ¬ Queued qs t := by
  intro hq
  rcases h.queued t hq with hs | ⟨hs, _⟩
  · exact ht.ready hs
  · exact ht.running hs

/-! ## Ticks -/

/-- What becomes of the tasks in a tick: each keeps its state or is ready or runs afterwards, a parked one keeps it, and one that
becomes current was not parked and is ready or runs. Nothing is counted. -/
structure Ticked (s s' : Scheduler) : Prop where
  idle : s'.idle = s.idle
  count : s'.readyCount = s.readyCount
  states : ∀ t, ((s'.mlfq.tasks t).state = .ready ∨ (s'.mlfq.tasks t).state = .running) ∨
    (s'.mlfq.tasks t).state = (s.mlfq.tasks t).state
  current : ∀ t, s'.current = some t →
    s.current = some t ∨ ((s'.mlfq.tasks t).state = .ready ∨ (s'.mlfq.tasks t).state = .running)
  parked : ∀ t, Parked s t →
    (s'.mlfq.tasks t).state = (s.mlfq.tasks t).state ∧ (s'.current = some t → s.current = some t)

theorem Ticked.of_same {m : Mlfq} (hm : ∀ t, (m.tasks t).state = (s.mlfq.tasks t).state) : Ticked s { s with mlfq := m } :=
  ⟨rfl, rfl, fun t => .inr (hm t), fun _ => .inl, fun t _ => ⟨hm t, id⟩⟩

theorem Ticked.trans {s1 : Scheduler} (h : Ticked s s1) (h' : Ticked s1 s') : Ticked s s' where
  idle := h'.idle.trans h.idle
  count := h'.count.trans h.count
  states t := by
    rcases h'.states t with hup | heq
    · exact .inl hup
    · rw [heq]
      exact h.states t
  current t ht := by
    rcases h'.current t ht with ht | hup
    · refine (h.current t ht).imp_right fun hup => ?_
      rcases h'.states t with hup' | heq
      · exact hup'
      · rwa [heq]
    · exact .inr hup
  parked t ht := by
    obtain ⟨hst, hcur⟩ := h.parked t ht
    obtain ⟨hst', hcur'⟩ := h'.parked t (ht.congr hst h.idle)
    exact ⟨hst'.trans hst, fun hc => hcur (hcur' hc)⟩

/-- The choice of the next task: the one that is chosen runs. -/
theorem ticked_switchFrom (h : SchedInv s added qs) {prev : TaskPtr} (hs : switchFrom s prev = some s') : Ticked s s' := by
  have hset : ∀ (m : Mlfq) (u : TaskPtr), (∀ t, (m.tasks t).state = (s.mlfq.tasks t).state) → ∀ t,
      (((m.setState u .running).tasks t).state = .ready ∨ ((m.setState u .running).tasks t).state = .running) ∨
        ((m.setState u .running).tasks t).state = (s.mlfq.tasks t).state := by
    intro m u hm t
    by_cases he : t = u
    · subst he
      exact .inl (.inr (setState_self _ _ _))
    · rw [setState_of_ne _ _ he, hm t]
      exact .inr rfl
  have hnext : ∀ t next, Parked s t → (mlfqPickHighest s.mlfq).or s.idle = some next → t ≠ next := by
    rintro t next ht hn rfl
    rcases or_eq_some_iff.mp hn with hp | ⟨_, hi⟩
    · exact ht.not_queued h (queued_pickHighest h.rep hp)
    · exact ht.idle hi
  unfold switchFrom at hs
  split at hs
  · cases hs
    exact .of_same fun _ => rfl
  · rename_i next hn
    split at hs
    · rename_i hprev
      cases hs
      refine ⟨rfl, rfl, hset s.mlfq prev fun _ => rfl, fun _ => .inl, fun t ht => ⟨?_, id⟩⟩
      rw [setState_of_ne _ _ (hprev ▸ hnext t next ht hn)]
    · obtain ⟨m, hm, rfl⟩ := map_eq_some_iff.mp hs
      obtain ⟨m', hd, _, hf⟩ := h.rep.dequeue next
      obtain rfl : m' = m := some.inj (hd.symm.trans hm)
      refine ⟨rfl, rfl, hset m' next fun t => (unlinked_fields (hf t)).1, fun t hcur => .inr ?_, fun t ht => ⟨?_, ?_⟩⟩
      · cases hcur
        exact .inr (setState_self _ _ _)
      · rw [setState_of_ne _ _ (hnext t next ht hn), (unlinked_fields (hf t)).1]
      · exact fun hc => absurd (some.inj hc).symm (hnext t next ht hn)

theorem ticked_decay (h : SchedInv s added qs) {prev : TaskPtr} (hrun : (s.mlfq.tasks prev).state = .running) {m : Mlfq}
    (hd : mlfqDecay s.mlfq (some prev) = some m) : Ticked s { s with mlfq := m } := by
  obtain ⟨m', hd', hin, hout, hst⟩ := h.rep.decay prev
  obtain rfl : m' = m := some.inj (hd'.symm.trans hd)
  refine ⟨rfl, rfl, fun t => ?_, fun _ => .inl, fun t ht => ⟨hst t ?_, id⟩⟩
  · by_cases he : t = prev
    · subst he
      left
      cases hl : levelIdx (decayLevel (s.mlfq.tasks t).mlfqLevel) with
      | none => exact .inr ((hout hl).2.trans hrun)
      | some l => exact .inl (hin l hl).2
    · exact .inr (hst t he)
  · rintro rfl
    exact ht.running hrun

theorem ticked_tick (h : SchedInv s added qs) (hs : schedulerTick s = some s') : Ticked s s' := by
  unfold schedulerTick at hs
  rw [h.initialized] at hs
  cases hc : s.current with
  | none =>
    rw [hc] at hs
    cases hs
    exact .of_same fun _ => rfl
  | some prev =>
    obtain ⟨m, qs1, htick, hstate, hi⟩ := h.tickQueues prev
    simp only [hc, Bool.not_true, Bool.false_eq_true, if_false, htick, bind_some] at hs
    generalize m.modify prev _ = m1 at hi hs hstate
    have hticked := Ticked.of_same hstate
    rw [hc, h.initialized] at hi hticked
    split at hs
    · cases hs
      exact hticked
    · split at hs
      · rename_i hrun
        obtain ⟨m2, qs2, hd, hi2, _⟩ := hi.decay rfl hrun
        rw [hd] at hs
        exact (hticked.trans (ticked_decay hi hrun hd)).trans (ticked_switchFrom hi2 hs)
      · exact hticked.trans (ticked_switchFrom hi hs)

theorem tick_exited (h : SchedInv s added qs) (ht : Exited s t) (hs : schedulerTick s = some s') :
    Exited s' t ∧ (s'.current = some t → s.current = some t) := by
  have hticked := ticked_tick h hs
  obtain ⟨hst, hcur⟩ := hticked.parked t (Exited.parked ht)
  refine ⟨⟨hst.trans ht.state, ?_⟩, hcur⟩
  rw [hticked.idle]
  exact ht.idle

/-! ## The other calls -/

theorem enqueue_exited {u : TaskPtr} (hne : t ≠ u) (ht : Exited s t) (m : Mlfq)
    (hm : (m.tasks t).state = (s.mlfq.tasks t).state) (n : Nat) :
    Exited { s with mlfq := mlfqEnqueue m (some u) 0, readyCount := n } t :=
  ⟨(mlfqEnqueue_state m 0 hne).trans (hm.trans ht.state), ht.idle⟩

theorem wake_state (s : Scheduler) (task : Option TaskPtr) (ht : (s.mlfq.tasks t).state ≠ .blocked) :
    ((schedulerWakeTask s task).mlfq.tasks t).state = (s.mlfq.tasks t).state := by
  unfold schedulerWakeTask
  cases task with
  | none => rfl
  | some u =>
    dsimp only
    split
    · rfl
    · rename_i hb
      rw [not_not] at hb
      have hne : t ≠ u := by
        rintro rfl
        exact ht hb
      exact (mlfqEnqueue_state _ 0 hne).trans
        (congrArg Task.state (setState_of_ne s.mlfq .ready hne))

theorem wake_current (s : Scheduler) (task : Option TaskPtr) :
    (schedulerWakeTask s task).current = s.current ∧ (schedulerWakeTask s task).idle = s.idle := by
  unfold schedulerWakeTask
  cases task with
  | none => exact ⟨rfl, rfl⟩
  | some u =>
    dsimp only
    split <;> exact ⟨rfl, rfl⟩

theorem wake_exited (ht : Exited s t) (task : Option TaskPtr) :
    Exited (schedulerWakeTask s task) t := by
  refine ⟨?_, ?_⟩
  · rw [wake_state s task (by rw [ht.state]; decide)]
    exact ht.state
  · rw [(wake_current s task).2]
    exact ht.idle

theorem block_frame (h : SchedInv s added qs) (hs : blockCurrent s = some s') :
    s'.current = s.current ∧ s'.idle = s.idle ∧
      ∀ t, s.current ≠ some t → (s'.mlfq.tasks t).state = (s.mlfq.tasks t).state := by
  unfold blockCurrent at hs
  cases hc : s.current with
  | none =>
    rw [hc] at hs
    cases hs
    exact ⟨hc, rfl, fun _ _ => rfl⟩
  | some cur =>
    rw [hc] at hs
    obtain ⟨s1, hs1, rfl⟩ := map_eq_some_iff.mp hs
    have hframe : s1.current = s.current ∧ s1.idle = s.idle ∧
        ∀ t, (s1.mlfq.tasks t).state = (s.mlfq.tasks t).state := by
      unfold schedulerUnqueueTask at hs1
      dsimp only at hs1
      split at hs1
      · cases hs1
        exact ⟨rfl, rfl, fun _ => rfl⟩
      · obtain ⟨m, hm, rfl⟩ := map_eq_some_iff.mp hs1
        obtain ⟨m', hd, _, hf⟩ := h.rep.dequeue cur
        obtain rfl : m' = m := some.inj (hd.symm.trans hm)
        refine ⟨dropReady_current _ _, dropReady_idle _ _, fun t => ?_⟩
        rw [dropReady_mlfq]
        exact (unlinked_fields (hf t)).1
    refine ⟨hframe.1.trans hc, hframe.2.1, fun t ht => ?_⟩
    have hne : t ≠ cur := by
      rintro rfl
      exact ht rfl
    exact (congrArg Task.state (setState_of_ne _ _ hne)).trans (hframe.2.2 t)

theorem taskWake_sched (k : Processes) (task : Option TaskPtr) :
    (taskWake k task).sched = k.sched ∨ (taskWake k task).sched = schedulerWakeTask k.sched task := by
  unfold taskWake
  cases task with
  | none => exact .inl rfl
  | some t =>
    dsimp only
    split
    · exact .inl rfl
    · exact .inr rfl

/-- What `task_reparent_children` leaves alone: all but the links of the tasks. -/
def SameRest (k k' : Processes) : Prop :=
  k'.sched = k.sched ∧ k'.initTask = k.initTask ∧ ∀ t, (k'.procs t).pid = (k.procs t).pid ∧
    (k'.procs t).exitCode = (k.procs t).exitCode ∧ (k'.procs t).isWaitingForChildren = (k.procs t).isWaitingForChildren

theorem SameRest.modify {k0 : Processes} (h : SameRest k0 k) (u : TaskPtr) {f : Proc → Proc}
    (hf : ∀ q, (f q).pid = q.pid ∧ (f q).exitCode = q.exitCode ∧ (f q).isWaitingForChildren = q.isWaitingForChildren) :
    SameRest k0 (k.modify u f) := by
  refine ⟨h.1, h.2.1, fun t => ?_⟩
  rw [Processes.modify_procs]
  split
  · rw [(hf _).1, (hf _).2.1, (hf _).2.2]
    exact h.2.2 t
  · exact h.2.2 t

theorem taskReparentChildren_rest {task : TaskPtr} (h : taskReparentChildren k task = some k') : SameRest k k' := by
  have hk : SameRest k k := ⟨rfl, rfl, fun _ => ⟨rfl, rfl, rfl⟩⟩
  have horphan : ∀ n p p' child, orphanLoop n p child = some p' → SameRest k p → SameRest k p' := by
    intro n
    induction n with
    | zero => exact fun _ _ _ h => nomatch h
    | succ n ih =>
      intro p p' child h hp
      cases child with
      | none => exact some.inj h ▸ hp
      | some c => exact ih _ _ _ h (hp.modify c fun _ => ⟨rfl, rfl, rfl⟩)
  have hadopt : ∀ init n p p' child, adoptLoop init n p child = some p' → SameRest k p → SameRest k p' := by
    intro init n
    induction n with
    | zero => exact fun _ _ _ h => nomatch h
    | succ n ih =>
      intro p p' child h hp
      cases child with
      | none => exact some.inj h ▸ hp
      | some c =>
        refine ih _ _ _ h (((hp.modify c ?_).modify c ?_).modify init ?_)
        · exact fun _ => ⟨rfl, rfl, rfl⟩
        · exact fun _ => ⟨rfl, rfl, rfl⟩
        · exact fun _ => ⟨rfl, rfl, rfl⟩
  unfold taskReparentChildren at h
  split at h
  · exact some.inj h ▸ hk
  · obtain ⟨k1, hk1, rfl⟩ := map_eq_some_iff.mp h
    refine SameRest.modify ?_ task fun _ => ⟨rfl, rfl, rfl⟩
    cases hinit : k.initTask with
    | none =>
      rw [hinit] at hk1
      exact horphan _ k k1 _ hk1 hk
    | some init =>
      rw [hinit] at hk1
      exact hadopt init _ k k1 _ hk1 hk

/-- What `task_exit` does to the scheduler: the current task becomes a zombie, and a task may be woken. -/
theorem taskExit_sched {code : Int} {cur : TaskPtr} (hc : k.sched.current = some cur) (h : taskExit k code = some k') :
    k'.sched = { k.sched with mlfq := k.sched.mlfq.setState cur .zombie } ∨
    ∃ parent, k'.sched = schedulerWakeTask { k.sched with mlfq := k.sched.mlfq.setState cur .zombie } (some parent) := by
  unfold taskExit at h
  rw [hc] at h
  obtain ⟨k1, hk1, h⟩ := bind_eq_some_iff.mp h
  have hsched : k1.sched = k.sched := (taskReparentChildren_rest hk1).1
  rw [hsched] at h
  -- the init task does not return
  have hreturn : ∀ {c : Prop} [Decidable c] {a : Processes}, (if c then none else some a) = some k' → a = k' := by
    intro c _ a ha
    split at ha
    · nomatch ha
    · exact some.inj ha
  cases hp : (k1.procs cur).parent with
  | none =>
    simp only [hp] at h
    rw [← hreturn h]
    exact .inl rfl
  | some parent =>
    simp only [hp] at h
    rw [← hreturn h]
    split
    · exact (taskWake_sched _ (some parent)).imp id (fun h => ⟨parent, h⟩)
    · exact .inl rfl

theorem unlinkChild_sched (k : Processes) (cur : TaskPtr) (pp : LinkedList.Link TaskPtr) (child : TaskPtr) :
    (k.unlinkChild cur pp child).sched = k.sched := by
  cases pp with
  | head => rfl
  | after t => rfl

/-! ## Runs -/

/-- The invariant of the scheduler for some tasks and lists. -/
def Sound (s : Scheduler) : Prop := ∃ added qs, SchedInv s added qs

theorem Sound.wake (h : Sound s) (task : Option TaskPtr) : Sound (schedulerWakeTask s task) := by
  obtain ⟨added, qs, hi⟩ := h
  cases task with
  | none => exact ⟨added, qs, hi⟩
  | some t => exact ⟨added, hi.wakeTask t⟩

/-- An allowed call keeps the invariant and leaves a task that has exited as it is. -/
theorem step (h : Sound k.sched) {op : ProcOp} (ha : op.Allowed k) (hrun : op.run k = some k') :
    Sound k'.sched ∧ ∀ t, Exited k.sched t → Exited k'.sched t := by
  obtain ⟨added, qs, hi⟩ := h
  cases op with
  | add task =>
    cases hrun
    cases task with
    | none => exact ⟨⟨added, qs, hi⟩, fun _ ht => ht⟩
    | some u =>
      refine ⟨⟨_, _, hi.addTask (fun hq => hq.elim (hi.rep.unqueued_iff.1 ha.1))⟩, fun t ht => ?_⟩
      have hne : t ≠ u := by
        rintro rfl
        exact ha.2 ht.state
      exact enqueue_exited hne ht _ rfl _
  | tick =>
    obtain ⟨s', hs, rfl⟩ := map_eq_some_iff.mp hrun
    obtain ⟨s1, qs1, hs1, hi1⟩ := hi.tick
    obtain rfl : s1 = s' := some.inj (hs1.symm.trans hs)
    exact ⟨⟨added, qs1, hi1⟩, fun t ht => (tick_exited hi ht hs).1⟩
  | wake task =>
    cases hrun
    rcases taskWake_sched k task with heq | heq
    · rw [heq]
      exact ⟨⟨added, qs, hi⟩, fun _ ht => ht⟩
    · rw [heq]
      exact ⟨Sound.wake ⟨added, qs, hi⟩ task, fun t ht => wake_exited ht task⟩
  | exit code =>
    cases hc : k.sched.current with
    | none =>
      have hk : taskExit k code = some k := by
        unfold taskExit
        rw [hc]
      obtain rfl := some.inj (hk.symm.trans hrun)
      exact ⟨⟨added, qs, hi⟩, fun _ ht => ht⟩
    | some cur =>
      have hout : ¬ Queued qs cur := fun hq => hq.elim (hi.rep.unqueued_iff.1 (ha cur hc).1)
      have hz : SchedInv { k.sched with mlfq := k.sched.mlfq.setState cur .zombie } added qs := hi.setState hout (by decide)
      have hexited : ∀ t, Exited k.sched t → Exited { k.sched with mlfq := k.sched.mlfq.setState cur .zombie } t := by
        intro t ht
        refine ⟨?_, ht.idle⟩
        by_cases he : t = cur
        · subst he
          exact setState_self _ _ _
        · rw [setState_of_ne _ _ he]
          exact ht.state
      rcases taskExit_sched hc hrun with heq | ⟨parent, heq⟩
      · rw [heq]
        exact ⟨⟨added, qs, hz⟩, hexited⟩
      · rw [heq]
        exact ⟨Sound.wake ⟨added, qs, hz⟩ _, fun t ht => wake_exited (hexited t ht) _⟩

theorem exit_exited {code : Int} {cur : TaskPtr} (hc : k.sched.current = some cur)
    (hidle : k.sched.idle ≠ some cur) (h : taskExit k code = some k') : Exited k'.sched cur := by
  have hz : Exited { k.sched with mlfq := k.sched.mlfq.setState cur .zombie } cur := ⟨setState_self _ _ _, hidle⟩
  rcases taskExit_sched hc h with heq | ⟨parent, heq⟩
  · rw [heq]
    exact hz
  · rw [heq]
    exact wake_exited hz _

/-- An allowed run keeps the invariant and leaves the tasks that have exited as they are. -/
theorem run (h : Sound k.sched) {ops rest : List ProcOp} (ha : ProcAllowedRun k (ops ++ rest))
    (hrun : runProcs k ops = some k') :
    Sound k'.sched ∧ ProcAllowedRun k' rest ∧ ∀ t, Exited k.sched t → Exited k'.sched t := by
  induction ops generalizing k with
  | nil =>
    cases hrun
    exact ⟨h, ha, fun _ ht => ht⟩
  | cons op ops ih =>
    obtain ⟨k1, hk1, hrest⟩ := bind_eq_some_iff.mp hrun
    obtain ⟨h1, hex1⟩ := step h ha.1 hk1
    obtain ⟨h', ha', hex'⟩ := ih h1 (ha.2 k1 hk1) hrest
    exact ⟨h', ha', fun t ht => hex' t (hex1 t ht)⟩

theorem runProcs_append (k : Processes) (ops ops' : List ProcOp) :
    runProcs k (ops ++ ops') = (runProcs k ops).bind (fun k' => runProcs k' ops') := by
  induction ops generalizing k with
  | nil => rfl
  | cons op ops ih =>
    rw [cons_append, runProcs, runProcs, bind_assoc]
    exact congrArg _ (funext ih)

end TaskExitAux

open TaskExitAux

/-- In a run from `scheduler_init` whose calls are allowed, after `task_exit` of the current task `t` every later tick returns with
`t` still a zombie, and does not switch to it. -/
theorem task_exit_final {tasks : TaskPtr → Task} {idle : Option TaskPtr} {s₀ : Scheduler} (h₀ : schedulerInit tasks idle = some s₀)
    (procs : TaskPtr → Proc) (initTask : Option TaskPtr) (pre mid post : List ProcOp) (code : Int)
    (ha : ProcAllowedRun ⟨s₀, procs, initTask⟩ (pre ++ .exit code :: (mid ++ .tick :: post)))
    {k : Processes} (hpre : runProcs ⟨s₀, procs, initTask⟩ pre = some k) {t : TaskPtr} (ht : k.sched.current = some t)
    {k₁ : Processes} (hmid : runProcs ⟨s₀, procs, initTask⟩ (pre ++ .exit code :: mid) = some k₁) :
    ∃ s, schedulerTick k₁.sched = some s ∧ (s.mlfq.tasks t).state = .zombie ∧
      (s.current = some t → k₁.sched.current = some t) := by
  obtain ⟨qs0, hi0⟩ := schedInv_init h₀
  obtain ⟨hsound, hallowed, _⟩ := run ⟨_, qs0, hi0⟩ ha hpre
  rw [runProcs_append, hpre, bind_some] at hmid
  obtain ⟨k2, hexit, hrest⟩ := bind_eq_some_iff.mp hmid
  obtain ⟨hsound2, _⟩ := step hsound hallowed.1 hexit
  have hexited := exit_exited ht (hallowed.1 t ht).2 hexit
  obtain ⟨⟨added, qs, hi⟩, _, hkeep⟩ := run hsound2 (hallowed.2 k2 hexit) hrest
  obtain ⟨s, _, hs, _⟩ := hi.tick
  obtain ⟨hend, hcur⟩ := tick_exited hi (hkeep t hexited) hs
  exact ⟨s, hs, hend.state, hcur⟩

/-- The state after `scheduler_init` with idle task 1 and no init task. -/
def bootProcs : Processes where
  sched := { mlfq := (mlfqEnqueue (mlfqInit (fun _ => ⟨.created, 0, 0, 0, none⟩)) (some 1) 3).setState 1 .running
             current := some 1, idle := some 1, readyCount := 0, initialized := true }
  procs := fun t => ⟨t.val + 1, 0, none, none, none, false⟩
  initTask := none

theorem procAllowedRun_ticks {n : Nat} {ops : List ProcOp} (hrun : runProcs k (List.replicate n .tick) = some k')
    (h : ProcAllowedRun k' ops) : ProcAllowedRun k (List.replicate n .tick ++ ops) := by
  induction n generalizing k with
  | zero =>
    cases hrun
    exact h
  | succ n ih =>
    obtain ⟨k1, hk1, hrest⟩ := bind_eq_some_iff.mp hrun
    refine ⟨trivial, fun k2 hk2 => ?_⟩
    obtain rfl : k1 = k2 := some.inj (hk1.symm.trans hk2)
    exact ih hrest

/-- When only task `i` is queued, at level 3, every other task is in no queue. -/
theorem unqueued_of_only {s : Mlfq} {i : TaskPtr} (hne : t ≠ i) (hnext : s.next i = none)
    (hheads : ∀ l, (s.queues l).head = if l = 3 then some i else none) : s.Unqueued t := by
  intro l xs hx
  rw [hheads l] at hx
  cases xs with
  | nil => exact not_mem_nil
  | cons x xs =>
    rw [LinkedList.linked_cons] at hx
    obtain rfl : i = x := (ite_none_right_eq_some.mp hx.1).2 |> some.inj
    rw [hnext] at hx
    cases xs with
    | nil => simpa using hne
    | cons y ys => nomatch hx.2.1

/-- A task that is added, runs when the quantum of the idle task is over, and exits in its first quantum. -/
theorem task_exit_final_first_quantum :
    ∃ k₁ s, runProcs bootProcs (.add (some 5) :: List.replicate 16 .tick ++ .exit 0 :: [.tick, .tick]) = some k₁ ∧
      schedulerTick k₁.sched = some s ∧ (s.mlfq.tasks 5).state = .zombie := by
  have hrun : (runProcs bootProcs (.add (some 5) :: replicate 16 .tick)).map (fun k =>
      (k.sched.current, k.sched.idle, decide (∀ l, (k.sched.mlfq.queues l).head = if l = 3 then some 1 else none),
        k.sched.mlfq.next 1)) = some (some 5, some 1, true, none) := by
    decide +kernel
  obtain ⟨k, hk, hview⟩ := map_eq_some_iff.mp hrun
  simp only [Prod.mk.injEq] at hview
  obtain ⟨hcur, hidle, hheads, hnext⟩ := hview
  have hout : k.sched.mlfq.Unqueued 5 := unqueued_of_only (by decide) hnext (of_decide_eq_true hheads)
  obtain ⟨k₁, hk1⟩ := isSome_iff_exists.mp
    (show (runProcs bootProcs (.add (some 5) :: replicate 16 .tick ++ .exit 0 :: [.tick, .tick])).isSome = true by decide +kernel)
  have hadd : bootProcs.sched.mlfq.Unqueued 5 := unqueued_of_only (i := 1) (by decide) (by decide +kernel) (by decide +kernel)
  have hinit : schedulerInit (fun _ => ⟨.created, 0, 0, 0, none⟩) (some 1) = some bootProcs.sched := rfl
  have hallowed : ProcAllowedRun bootProcs (.add (some 5) :: replicate 16 .tick ++ .exit 0 :: ([.tick, .tick] ++ .tick :: [])) := by
    refine ⟨⟨hadd, by decide⟩, fun k2 hk2 => ?_⟩
    have hticks : runProcs k2 (replicate 16 .tick) = some k := by
      rw [runProcs, hk2] at hk
      exact hk
    refine procAllowedRun_ticks hticks ⟨?_, fun _ _ => ⟨trivial, fun _ _ => ⟨trivial, fun _ _ => ⟨trivial, fun _ _ => trivial⟩⟩⟩⟩
    intro cur hc
    obtain rfl : (5 : TaskPtr) = cur := some.inj (hcur.symm.trans hc)
    exact ⟨hout, by rw [hidle]; decide⟩
  obtain ⟨s, hs, hz, _⟩ := task_exit_final hinit bootProcs.procs none _ _ _ 0 hallowed hk hcur hk1
  exact ⟨k₁, s, hk1, hs, hz⟩

/-- After its first quantum the task stays current and is queued; when it exits then, the end of the next quantum picks it from the
queue and makes it run again. -/
theorem task_exit_resurrected :
    (runProcs bootProcs (.add (some 5) :: List.replicate 18 .tick ++ [.exit 0])).map
      (fun k => (k.sched.current, (k.sched.mlfq.tasks 5).state)) = some (some 5, .zombie) ∧
    (runProcs bootProcs (.add (some 5) :: List.replicate 18 .tick ++ .exit 0 :: List.replicate 4 .tick)).map
      (fun k => (k.sched.current, (k.sched.mlfq.tasks 5).state)) = some (some 5, .running) := by
  constructor <;> decide +kernel

end TsOs
