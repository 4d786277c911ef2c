import TsOs.Scheduler
import TsOs.Theorems.Mlfq

/-!
# No runnable task is lost

The invariant of the scheduler over whole runs: a queued task is ready, or it is the current task and runs; and every task the
scheduler was given that is ready is queued. The current task is in a queue or not, depending on the branch the last tick
took: `mlfq_decay` queues the task it takes from, and only a switch takes the next task out of its queue.
-/

namespace TsOs

open MlfqAux Function List

/-- A task is in some list. -/
def Queued (qs : Queues) (t : TaskPtr) : Prop := ∃ l, t ∈ qs l

/-- The invariant of the scheduler, for the tasks `added` it was given so far. -/
structure SchedInv (s : Scheduler) (added : TaskPtr → Prop) (qs : Queues) : Prop where
  rep : Rep s.mlfq qs
  initialized : s.initialized = true
  queued : ∀ t, Queued qs t →
    (s.mlfq.tasks t).state = .ready ∨ (s.mlfq.tasks t).state = .running ∧ s.current = some t
  ready : ∀ t, added t → (s.mlfq.tasks t).state = .ready → Queued qs t

variable {qs : Queues} {t : TaskPtr}

namespace SchedulerAux

variable {s : Mlfq}

/-- A write to a task that keeps its link and its level keeps the queues well formed. -/
theorem rep_modify (h : Rep s qs) (t : TaskPtr) {f : Task → Task}
    (hn : ∀ k, (f k).next = k.next) (hl : ∀ k, (f k).mlfqLevel = k.mlfqLevel) : Rep (s.modify t f) qs where
  toChains := h.toChains.congr rfl (fun _ u _ => by
    by_cases e : u = t
    · subst e; rw [Mlfq.next, modify_tasks_self, hn]; rfl
    · rw [Mlfq.next, modify_tasks_of_ne s f e]; rfl)
  level l u hu := by rw [modify_level s t u hl]; exact h.level l u hu
  bit := h.bit
  bitHigh := h.bitHigh

theorem rep_setState (h : Rep s qs) (t : TaskPtr) (v : TaskState) : Rep (s.setState t v) qs :=
  rep_modify h t (fun _ => rfl) (fun _ => rfl)

@[simp] theorem setState_self (s : Mlfq) (t : TaskPtr) (v : TaskState) : ((s.setState t v).tasks t).state = v := by
  rw [Mlfq.setState, modify_tasks_self]

variable {u : TaskPtr}

theorem setState_of_ne (s : Mlfq) (v : TaskState) (h : u ≠ t) :
    (s.setState t v).tasks u = s.tasks u := modify_tasks_of_ne s _ h

@[simp] theorem dropReady_mlfq (s : Scheduler) (t : TaskPtr) : (dropReady s t).mlfq = s.mlfq := by
  unfold dropReady
  split <;> rfl

@[simp] theorem dropReady_current (s : Scheduler) (t : TaskPtr) : (dropReady s t).current = s.current := by
  unfold dropReady
  split <;> rfl

@[simp] theorem dropReady_initialized (s : Scheduler) (t : TaskPtr) : (dropReady s t).initialized = s.initialized := by
  unfold dropReady
  split <;> rfl

@[simp] theorem dropReady_idle (s : Scheduler) (t : TaskPtr) : (dropReady s t).idle = s.idle := by
  unfold dropReady
  split <;> rfl

theorem queued_without (h : Rep s qs) :
    Queued (without qs t) u ↔ u ≠ t ∧ Queued qs u := by
  constructor
  · rintro ⟨l, hl⟩
    rw [without, (h.linked l).nodup.mem_erase_iff] at hl
    exact ⟨hl.1, l, hl.2⟩
  · rintro ⟨hu, l, hl⟩
    exact ⟨l, by rw [without, (h.linked l).nodup.mem_erase_iff]; exact ⟨hu, hl⟩⟩

theorem queued_append {l : Level} :
    Queued (update qs l (qs l ++ [t])) u ↔ u = t ∨ Queued qs u := by
  constructor
  · rintro ⟨k, hk⟩
    by_cases e : k = l
    · subst e
      rw [update_self, mem_append, mem_singleton] at hk
      exact hk.symm.imp_right (fun hk => ⟨k, hk⟩)
    · rw [update_of_ne e] at hk
      exact Or.inr ⟨k, hk⟩
  · rintro (rfl | ⟨k, hk⟩)
    · exact ⟨l, by simp⟩
    · by_cases e : k = l
      · subst e
        exact ⟨k, by simp [hk]⟩
      · exact ⟨k, by rwa [update_of_ne e]⟩

end SchedulerAux

open SchedulerAux

variable {added : TaskPtr → Prop} {s : Scheduler}

section

variable (h : SchedInv s added qs)
include h

/-- The invariant only reads the queues and the current task. -/
theorem SchedInv.congr {s' : Scheduler}
    (hm : s'.mlfq = s.mlfq) (hc : s'.current = s.current) (hi : s'.initialized = s.initialized) : SchedInv s' added qs where
  rep := by rw [hm]; exact h.rep
  initialized := by rw [hi]; exact h.initialized
  queued t ht := by rw [hm, hc]; exact h.queued t ht
  ready t ha := by rw [hm]; exact h.ready t ha

theorem SchedInv.mono {added' : TaskPtr → Prop}
    (ha : ∀ t, added' t → added t) : SchedInv s added' qs :=
  ⟨h.rep, h.initialized, h.queued, fun t ht => h.ready t (ha t ht)⟩

/-- `mlfq_enqueue` of a task in no queue, in a state that differs from `s` in the state of that task only. -/
theorem SchedInv.enqueue
    (ht : ¬Queued qs t) {m : Mlfq} (hm : Rep m qs) (hst : ∀ u, u ≠ t → (m.tasks u).state = (s.mlfq.tasks u).state) :
    SchedInv { s with mlfq := mlfqEnqueue m (some t) 0 } (fun u => u = t ∨ added u)
      (update qs 0 (qs 0 ++ [t])) := by
  have hself := (mlfqEnqueue_self m (t := t) (levelIdx_val 0)).1
  have hother : ∀ u, u ≠ t → ((mlfqEnqueue m (some t) 0).tasks u).state = (s.mlfq.tasks u).state :=
    fun u hu => (mlfqEnqueue_state m _ hu).trans (hst u hu)
  refine ⟨hm.enqueue (levelIdx_val 0) (fun k hk => ht ⟨k, hk⟩), h.initialized, fun u hu => ?_, fun u ha hu => ?_⟩
  · by_cases e : u = t
    · subst e; exact Or.inl hself
    · rw [hother u e]
      exact h.queued u ((queued_append.1 hu).resolve_left e)
  · rw [queued_append]
    by_cases e : u = t
    · exact Or.inl e
    · rw [hother u e] at hu
      exact Or.inr (h.ready u (ha.resolve_left e) hu)

theorem SchedInv.retire (t : TaskPtr)
    {v : TaskState} (hv : v ≠ .ready) : ∃ m, mlfqDequeue s.mlfq (some t) = some m ∧
      (∀ u, (m.tasks u).state = (s.mlfq.tasks u).state) ∧
      SchedInv { s with mlfq := m.setState t v } added (without qs t) := by
  obtain ⟨m, hd, hr, hf⟩ := h.rep.dequeue t
  have hst : ∀ u, (m.tasks u).state = (s.mlfq.tasks u).state :=
    fun u => (unlinked_fields (hf u)).1
  refine ⟨m, hd, hst, rep_setState hr t v, h.initialized, fun u hu => ?_, fun u ha hu => ?_⟩
  · rw [queued_without h.rep] at hu
    rw [setState_of_ne m v hu.1, hst]
    exact h.queued u hu.2
  · have hne : u ≠ t := by
      rintro rfl
      rw [setState_self] at hu
      exact hv hu
    rw [setState_of_ne m v hne, hst] at hu
    exact (queued_without h.rep).2 ⟨hne, h.ready u ha hu⟩

theorem SchedInv.setState
    (ht : ¬Queued qs t) {v : TaskState} (hv : v ≠ .ready) : SchedInv { s with mlfq := s.mlfq.setState t v } added qs := by
  refine ⟨rep_setState h.rep t v, h.initialized, fun u hu => ?_, fun u ha hu => ?_⟩
  · have hne : u ≠ t := fun e => ht (e ▸ hu)
    rw [setState_of_ne s.mlfq v hne]
    exact h.queued u hu
  · have hne : u ≠ t := by
      rintro rfl
      rw [setState_self] at hu
      exact hv hu
    rw [setState_of_ne s.mlfq v hne] at hu
    exact h.ready u ha hu

theorem SchedInv.replace
    (ht : ¬Queued qs t) (f : Task → Task) : SchedInv { s with mlfq := s.mlfq.modify t f } (fun u => u ≠ t ∧ added u) qs := by
  have hne : ∀ l, ∀ u ∈ qs l, u ≠ t := fun l u hu he => ht ⟨l, he ▸ hu⟩
  have hsame : ∀ u, u ≠ t → (s.mlfq.modify t f).tasks u = s.mlfq.tasks u := fun u hu => modify_tasks_of_ne _ _ hu
  refine ⟨⟨h.rep.toChains.congr rfl fun l u hu => congrArg Task.next (hsame u (hne l u hu)), fun l u hu => ?_, h.rep.bit,
    h.rep.bitHigh⟩, h.initialized, fun u hu => ?_, fun u ha hu => ?_⟩
  · rw [hsame u (hne l u hu)]
    exact h.rep.level l u hu
  · obtain ⟨l, hl⟩ := hu
    rw [hsame u (hne l u hl)]
    exact h.queued u ⟨l, hl⟩
  · rw [hsame u ha.1] at hu
    exact h.ready u ha.2 hu

/-! ## The calls one by one -/

theorem SchedInv.dropReady (t : TaskPtr) :
    SchedInv (TsOs.dropReady s t) added qs := h.congr (by simp) (by simp) (by simp)

theorem SchedInv.addTask
    (ht : ¬Queued qs t) : SchedInv (schedulerAddTask s (some t)) (fun u => u = t ∨ added u)
      (update qs 0 (qs 0 ++ [t])) :=
  (h.enqueue ht h.rep (fun _ _ => rfl)).congr rfl rfl rfl

theorem SchedInv.removeTask (t : TaskPtr) :
    ∃ s', schedulerRemoveTask s (some t) = some s' ∧ SchedInv s' added (without qs t) := by
  obtain ⟨m, hd, _, hi⟩ := h.retire t (v := .zombie) (by decide)
  exact ⟨_, by simp only [schedulerRemoveTask, hd, Option.map_some], hi.dropReady t⟩

/-- `scheduler_wake_task`. A blocked task is in no queue, so it can be queued. -/
theorem SchedInv.wakeTask (t : TaskPtr) :
    ∃ qs', SchedInv (schedulerWakeTask s (some t)) added qs' := by
  simp only [schedulerWakeTask]
  split
  · exact ⟨qs, h⟩
  · rename_i hb
    rw [not_not] at hb
    have ht : ¬Queued qs t := by
      intro hq
      rcases h.queued t hq with hs | ⟨hs, _⟩ <;> rw [hb] at hs <;> cases hs
    have hi := h.enqueue ht (rep_setState h.rep t .ready)
      (fun u hu => congrArg Task.state (setState_of_ne s.mlfq .ready hu))
    exact ⟨_, { rep := hi.rep, initialized := hi.initialized, queued := hi.queued, ready := fun u ha => hi.ready u (Or.inr ha) }⟩

/-- The blocking of the current task. A task that is neither running nor ready is in no queue, so it need not be taken out. -/
theorem SchedInv.blockCurrent :
    ∃ s' qs', blockCurrent s = some s' ∧ SchedInv s' added qs' := by
  unfold TsOs.blockCurrent
  cases hc : s.current with
  | none => exact ⟨s, qs, rfl, h⟩
  | some cur =>
    simp only [schedulerUnqueueTask]
    split
    · rename_i hs
      have ht : ¬Queued qs cur := by
        intro hq
        rcases h.queued cur hq with he | ⟨he, _⟩
        · exact hs.2 he
        · exact hs.1 he
      exact ⟨_, qs, rfl, h.setState ht (by decide)⟩
    · obtain ⟨m, hd, _, hi⟩ := h.retire cur (v := .blocked) (by decide)
      exact ⟨_, without qs cur, by rw [hd]; rfl, hi.congr (by simp) (by simp) (by simp)⟩

theorem SchedInv.switchFrom
    {prev : TaskPtr} (hc : s.current = some prev) (hr : ∀ t, Queued qs t → (s.mlfq.tasks t).state = .ready) :
    ∃ s' qs', switchFrom s prev = some s' ∧ SchedInv s' added qs' := by
  unfold TsOs.switchFrom
  cases (mlfqPickHighest s.mlfq).or s.idle with
  | none => exact ⟨s, qs, rfl, h⟩
  | some next =>
    simp only
    by_cases e : next = prev
    · rw [if_pos e]
      refine ⟨_, qs, rfl, rep_setState h.rep prev _, h.initialized, fun u hu => ?_, fun u ha hu => ?_⟩
      · by_cases eu : u = prev
        · subst eu; exact Or.inr ⟨setState_self _ _ _, hc⟩
        · rw [setState_of_ne _ _ eu]; exact Or.inl (hr u hu)
      · by_cases eu : u = prev
        · subst eu
          rw [setState_self] at hu
          cases hu
        · rw [setState_of_ne _ _ eu] at hu
          exact h.ready u ha hu
    · rw [if_neg e]
      obtain ⟨m, hd, hst, hi⟩ := h.retire next (v := .running) (by decide)
      rw [hd]
      refine ⟨{ s with mlfq := m.setState next .running, current := some next }, without qs next, rfl, hi.rep,
        hi.initialized, fun u hu => ?_, hi.ready⟩
      have hu' := (queued_without h.rep).1 hu
      rw [setState_of_ne _ _ hu'.1, hst u]
      exact Or.inl (hr u hu'.2)

/-- The decay of the running task: afterwards every queued task is ready. -/
theorem SchedInv.decay {prev : TaskPtr}
    (hc : s.current = some prev) (hrun : (s.mlfq.tasks prev).state = .running) :
    ∃ m qs', mlfqDecay s.mlfq (some prev) = some m ∧ SchedInv { s with mlfq := m } added qs' ∧
      ∀ t, Queued qs' t → (m.tasks t).state = .ready := by
  obtain ⟨m, hd, hin, hout, hst⟩ := h.rep.decay prev
  have hother : ∀ u, u ≠ prev → Queued qs u → (m.tasks u).state = .ready := by
    intro u hu hq
    rw [hst u hu]
    refine (h.queued u hq).resolve_right (fun hcu => hu ?_)
    rw [hc] at hcu
    exact (Option.some.inj hcu.2).symm
  cases hl : levelIdx (decayLevel (s.mlfq.tasks prev).mlfqLevel) with
  | none =>
    obtain ⟨hr, hs⟩ := hout hl
    have hq : ∀ t, Queued (without qs prev) t → (m.tasks t).state = .ready := fun t ht =>
      hother t ((queued_without h.rep).1 ht).1 ((queued_without h.rep).1 ht).2
    refine ⟨m, _, hd, ⟨hr, h.initialized, fun t ht => Or.inl (hq t ht), fun t ha ht => ?_⟩, hq⟩
    have hne : t ≠ prev := by
      rintro rfl
      rw [hs, hrun] at ht
      cases ht
    rw [hst t hne] at ht
    exact (queued_without h.rep).2 ⟨hne, h.ready t ha ht⟩
  | some l =>
    obtain ⟨hr, hs⟩ := hin l hl
    have hmem : ∀ t, Queued (update (without qs prev) l (without qs prev l ++ [prev])) t ↔
        t = prev ∨ t ≠ prev ∧ Queued qs t := fun t => by rw [queued_append, queued_without h.rep]
    have hq : ∀ t, Queued (update (without qs prev) l (without qs prev l ++ [prev])) t →
        (m.tasks t).state = .ready := by
      intro t ht
      rcases (hmem t).1 ht with rfl | ⟨hne, ht⟩
      · exact hs
      · exact hother t hne ht
    refine ⟨m, _, hd, ⟨hr, h.initialized, fun t ht => Or.inl (hq t ht), fun t ha ht => (hmem t).2 ?_⟩, hq⟩
    by_cases e : t = prev
    · exact Or.inl e
    · rw [hst t e] at ht
      exact Or.inr ⟨e, h.ready t ha ht⟩

/-- The work of a tick on the queues and the quantum keeps the invariant: it queues the same tasks and writes no state. -/
theorem SchedInv.tickQueues
    (prev : TaskPtr) : ∃ m qs', mlfqTick s.mlfq = some m ∧
      (∀ t, ((m.modify prev (fun k => { k with remainingTicks := k.remainingTicks - 1 })).tasks t).state =
        (s.mlfq.tasks t).state) ∧
      SchedInv { s with mlfq := m.modify prev (fun k => { k with remainingTicks := k.remainingTicks - 1 }) } added qs' := by
  obtain ⟨m, qs', ht, hr, hq, hst⟩ := h.rep.tick
  have hmem : ∀ u, Queued qs' u ↔ Queued qs u := by
    rcases hq with rfl | rfl
    · exact fun _ => Iff.rfl
    · exact fun _ => mem_boosted
  have hst' : ∀ u, ((m.modify prev (fun k => { k with remainingTicks := k.remainingTicks - 1 })).tasks u).state =
      (s.mlfq.tasks u).state := by
    intro u
    by_cases e : u = prev
    · subst e; rw [modify_tasks_self]; exact hst u
    · rw [modify_tasks_of_ne _ _ e]; exact hst u
  have hrep := rep_modify hr prev (f := fun k => { k with remainingTicks := k.remainingTicks - 1 }) (fun _ => rfl)
    (fun _ => rfl)
  refine ⟨m, qs', ht, hst', hrep, h.initialized, fun u hu => ?_, fun u ha hu => ?_⟩
  · rw [hst' u]
    exact h.queued u ((hmem u).1 hu)
  · rw [hst' u] at hu
    exact (hmem u).2 (h.ready u ha hu)

theorem SchedInv.tick :
    ∃ s' qs', schedulerTick s = some s' ∧ SchedInv s' added qs' := by
  unfold schedulerTick
  rw [h.initialized]
  cases hc : s.current with
  | none => exact ⟨s, qs, rfl, h⟩
  | some prev =>
    obtain ⟨m, qs1, ht, _, hi⟩ := h.tickQueues prev
    simp only [Bool.not_true, Bool.false_eq_true, if_false, ht, Option.bind_some]
    generalize m.modify prev _ = m1 at hi ⊢
    rw [hc, h.initialized] at hi
    split
    · exact ⟨_, qs1, rfl, hi⟩
    · split
      · rename_i hrun
        obtain ⟨m2, qs2, hd, hi2, hr⟩ := hi.decay rfl hrun
        rw [hd]
        exact hi2.switchFrom rfl hr
      · rename_i hrun
        refine hi.switchFrom rfl (fun t ht => (hi.queued t ht).resolve_right (fun hcu => hrun ?_))
        obtain rfl := Option.some.inj hcu.2
        exact hcu.1

end

/-! ## Whole runs -/

/-- The calls the scheduler is made for: `scheduler_add_task` of a task in no queue, and any other call. -/
def SchedOp.Allowed (s : Scheduler) : SchedOp → Prop
  | .add (some t) => s.mlfq.Unqueued t
  | _ => True

/-- A sequence of calls each of which is allowed in the state it is made in. -/
def SchedAllowedRun : Scheduler → List SchedOp → Prop
  | _, [] => True
  | s, op :: ops => op.Allowed s ∧ ∀ s', op.run s = some s' → SchedAllowedRun s' ops

/-- One allowed call returns and keeps the invariant; a task it adds counts from then on. -/
theorem SchedInv.step (h : SchedInv s added qs) {op : SchedOp}
    (ha : op.Allowed s) : ∃ s' qs', op.run s = some s' ∧ SchedInv s' (fun t => op = .add (some t) ∨ added t) qs' := by
  -- a call that adds no task
  have hsame : ∀ {s' qs'}, SchedInv s' added qs' → (∀ t, op ≠ .add (some t)) →
      SchedInv s' (fun t => op = .add (some t) ∨ added t) qs' := fun hi hop =>
    { rep := hi.rep, initialized := hi.initialized, queued := hi.queued,
      ready := fun t ht => hi.ready t (ht.resolve_left (hop t)) }
  cases op with
  | add task =>
    cases task with
    | none => exact ⟨s, qs, rfl, hsame h (by simp)⟩
    | some t =>
      have hi := h.addTask (t := t) (fun hq => hq.elim (h.rep.unqueued_iff.1 ha))
      refine ⟨_, _, rfl, hi.rep, hi.initialized, hi.queued, fun u hu => hi.ready u (hu.imp_left ?_)⟩
      intro he
      cases he
      rfl
  | tick =>
    obtain ⟨s', qs', hs, hi⟩ := h.tick
    exact ⟨s', qs', hs, hsame hi (by simp)⟩
  | block =>
    obtain ⟨s', qs', hs, hi⟩ := h.blockCurrent
    exact ⟨s', qs', hs, hsame hi (by simp)⟩
  | wake task =>
    cases task with
    | none => exact ⟨s, qs, rfl, hsame h (by simp)⟩
    | some t =>
      obtain ⟨qs', hi⟩ := h.wakeTask t
      exact ⟨_, qs', rfl, hsame hi (by simp)⟩
  | remove task =>
    cases task with
    | none => exact ⟨s, qs, rfl, hsame h (by simp)⟩
    | some t =>
      obtain ⟨s', hs, hi⟩ := h.removeTask t
      exact ⟨s', _, hs, hsame hi (by simp)⟩

theorem SchedInv.run {ops : List SchedOp} : ∀ {s : Scheduler} {added : TaskPtr → Prop} {qs : Queues}, SchedInv s added qs →
    SchedAllowedRun s ops →
    ∃ s' qs', runScheduler s ops = some s' ∧ SchedInv s' (fun t => .add (some t) ∈ ops ∨ added t) qs' := by
  induction ops with
  | nil =>
    intro s added qs h _
    exact ⟨s, qs, rfl, h.rep, h.initialized, h.queued, fun t ht => h.ready t (ht.resolve_left (by simp))⟩
  | cons op ops ih =>
    intro s added qs h ha
    obtain ⟨s1, qs1, hs, hi⟩ := h.step ha.1
    obtain ⟨s', qs', hrun, hi'⟩ := ih hi (ha.2 s1 hs)
    refine ⟨s', qs', by rw [runScheduler, hs]; exact hrun, hi'.rep, hi'.initialized, hi'.queued, fun t ht => hi'.ready t ?_⟩
    rcases ht with ht | ht
    · rcases mem_cons.1 ht with he | ht
      · exact Or.inr (Or.inl he.symm)
      · exact Or.inl ht
    · exact Or.inr (Or.inr ht)

/-- `scheduler_init`: only the idle task is queued, and it runs. -/
theorem schedInv_init {tasks : TaskPtr → Task} {idle : Option TaskPtr}
    (h : schedulerInit tasks idle = some s) : ∃ qs, SchedInv s (fun t => idle = some t) qs := by
  cases idle with
  | none => cases h
  | some i =>
    cases h
    have hr := (Rep.init tasks).enqueue (t := i) (levelIdx_val 3) (by simp)
    refine ⟨_, rep_setState hr i .running, rfl, fun t ht => ?_, fun t ht hst => ?_⟩
    · rcases queued_append.1 ht with rfl | ⟨_, hm⟩
      · exact Or.inr ⟨setState_self _ _ _, rfl⟩
      · cases hm
    · cases ht
      simp at hst

/-- After `scheduler_init` and any allowed sequence of calls, every task the scheduler was given that is ready and not the
current one is in exactly one queue, once, and no blocked task is in any queue. -/
theorem scheduler_no_task_lost {tasks : TaskPtr → Task} {idle : Option TaskPtr} {s₀ : Scheduler}
    (h₀ : schedulerInit tasks idle = some s₀) (ops : List SchedOp) (ha : SchedAllowedRun s₀ ops) :
    ∃ s qs, runScheduler s₀ ops = some s ∧ Rep s.mlfq qs ∧ (∀ l, (qs l).Nodup) ∧
      (∀ t, (.add (some t) ∈ ops ∨ idle = some t) → (s.mlfq.tasks t).state = .ready → s.current ≠ some t →
        ∃! l, t ∈ qs l) ∧
      ∀ t, (s.mlfq.tasks t).state = .blocked → ∀ l, t ∉ qs l := by
  obtain ⟨qs0, hi0⟩ := schedInv_init h₀
  obtain ⟨s, qs, hrun, hi⟩ := hi0.run ha
  refine ⟨s, qs, hrun, hi.rep, fun l => (hi.rep.linked l).nodup, fun t ht hst _ => ?_, fun t hst l hl => ?_⟩
  · obtain ⟨l, hl⟩ := hi.ready t ht hst
    exact ⟨l, hl, fun k hk => hi.rep.disjoint k l t hk hl⟩
  · rcases hi.queued t ⟨l, hl⟩ with he | ⟨he, _⟩ <;> rw [hst] at he <;> cases he

/-- A task is added, and the idle task blocks and is woken: the added one is ready and not current. -/
theorem scheduler_no_task_lost_one_task :
    ∃ s₀, schedulerInit (fun _ => ⟨.created, 0, 0, 0, none⟩) (some 1) = some s₀ ∧
    ∃ s qs, runScheduler s₀ [.add (some 5), .tick, .block, .wake (some 1)] = some s ∧ Rep s.mlfq qs ∧
      (∀ l, (qs l).Nodup) ∧
      (∀ t, (.add (some t) ∈ [SchedOp.add (some 5), .tick, .block, .wake (some 1)] ∨ some 1 = some t) →
        (s.mlfq.tasks t).state = .ready → s.current ≠ some t → ∃! l, t ∈ qs l) ∧
      ∀ t, (s.mlfq.tasks t).state = .blocked → ∀ l, t ∉ qs l := by
  refine ⟨_, rfl, scheduler_no_task_lost rfl _ ⟨?_, fun _ _ => ⟨trivial, fun _ _ => ⟨trivial, fun _ _ => ⟨trivial,
    fun _ _ => trivial⟩⟩⟩⟩⟩
  have hr := (Rep.init (fun _ => ⟨.created, 0, 0, 0, none⟩)).enqueue (t := 1) (levelIdx_val 3) (by simp)
  refine (rep_setState hr 1 .running).unqueued_iff.2 (fun l => ?_)
  fin_cases l <;> decide

end TsOs
