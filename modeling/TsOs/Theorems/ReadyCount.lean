import TsOs.Lib.Runs
import TsOs.Theorems.TaskExit

/-!
# The count of ready tasks

`g_ready_count` is meant to be the number of tasks, the idle task apart, that are ready or run. It is changed where a task is added,
removed, blocked or woken. `task_exit` takes a task out of the runnable ones without a change of the count, and
`scheduler_remove_task` counts a task down whether it was runnable or not.
-/

namespace TsOs

open MlfqAux SchedulerAux TaskExitAux Runs List Option

/-- The task is ready or runs. -/
def Scheduler.Up (s : Scheduler) (t : TaskPtr) : Prop := (s.mlfq.tasks t).state = .ready ∨ (s.mlfq.tasks t).state = .running

/-- The tasks that `g_ready_count` is meant to count. -/
def Scheduler.runnable (s : Scheduler) : Set TaskPtr := {t | s.idle ≠ some t ∧ s.Up t}

/-- The count is exact. -/
def Scheduler.Counted (s : Scheduler) : Prop := s.readyCount = s.runnable.ncard

/-- The calls that keep the count exact: a task that is removed is the idle task, ready or running; the task that calls `task_exit`
is neither ready nor running; the task that calls `task_wait` is not the idle task. -/
def CountOp.KeepsCount (k : Processes) : CountOp → Prop
  | .remove task => ∀ t, task = some t → k.sched.idle = some t ∨ k.sched.Up t
  | .exit _ => ∀ cur, k.sched.current = some cur → ¬ k.sched.Up cur
  | .wait => ∀ cur, k.sched.current = some cur → k.sched.idle ≠ some cur
  | _ => True

/-- The tasks that the calls add, in order. -/
def addedTasks (ops : List CountOp) : List TaskPtr :=
  ops.filterMap fun op =>
    match op with
    | .add task => task
    | _ => none

variable {s : Scheduler} {t : TaskPtr}

namespace ReadyCountAux

theorem ncard_le (xs : Set TaskPtr) : xs.ncard ≤ 2 ^ 31 := by
  have hle : xs.ncard ≤ (Set.univ : Set TaskPtr).ncard := Set.ncard_le_ncard (Set.subset_univ xs) (Set.toFinite _)
  rwa [Set.ncard_univ, Nat.card_eq_fintype_card, Fintype.card_fin] at hle

variable {s' : Scheduler}

theorem counted_congr (h : s.Counted) (hn : s'.readyCount = s.readyCount) (hi : s'.idle = s.idle)
    (hup : ∀ t, s.idle ≠ some t → (s'.Up t ↔ s.Up t)) : s'.Counted := by
  have hset : s'.runnable = s.runnable := by
    ext t
    simp only [Scheduler.runnable, Set.mem_ofPred_eq, hi]
    exact and_congr_right (hup t)
  unfold Scheduler.Counted
  rw [hn, hset]
  exact h

/-- One task becomes runnable, and is counted. -/
theorem counted_insert (h : s.Counted) (hidle : s.idle ≠ some t) (hnot : ¬ s.Up t)
    (hup : s'.Up t) (hn : s'.readyCount = (s.readyCount + 1) % 2 ^ 64) (hi : s'.idle = s.idle)
    (hother : ∀ u, u ≠ t → (s'.Up u ↔ s.Up u)) : s'.Counted := by
  have hset : s'.runnable = insert t s.runnable := by
    ext u
    simp only [Scheduler.runnable, Set.mem_ofPred_eq, Set.mem_insert_iff, hi]
    by_cases he : u = t
    · subst he
      simp [hidle, hup]
    · simp [he, hother u he]
  have hmem : t ∉ s.runnable := fun hm => hnot hm.2
  have hle := ncard_le s.runnable
  unfold Scheduler.Counted at h ⊢
  rw [hset, Set.ncard_insert_of_notMem hmem (Set.toFinite _), hn, h, Nat.mod_eq_of_lt (by omega)]

/-- One task stops being runnable, and is counted down. -/
theorem counted_erase (h : s.Counted) (hidle : s.idle ≠ some t) (hup : s.Up t)
    (hnot : ¬ s'.Up t) (hn : s'.readyCount = (s.readyCount + (2 ^ 64 - 1)) % 2 ^ 64) (hi : s'.idle = s.idle)
    (hother : ∀ u, u ≠ t → (s'.Up u ↔ s.Up u)) : s'.Counted := by
  have hset : s'.runnable = s.runnable \ {t} := by
    ext u
    simp only [Scheduler.runnable, Set.mem_ofPred_eq, Set.mem_sdiff, Set.mem_singleton_iff, hi]
    by_cases he : u = t
    · subst he
      simp [hnot]
    · simp [he, hother u he]
  have hmem : t ∈ s.runnable := ⟨hidle, hup⟩
  have hle := ncard_le s.runnable
  have hcard := Set.ncard_sdiff_singleton_add_one hmem (Set.toFinite _)
  unfold Scheduler.Counted at h ⊢
  rw [hset, hn]
  omega

theorem parked_of_not_up (hidle : s.idle ≠ some t) (h : ¬ s.Up t) : Parked s t :=
  ⟨fun hs => h (.inl hs), fun hs => h (.inr hs), hidle⟩

theorem not_queued_of_not_up {added : TaskPtr → Prop} {qs : Queues} (h : SchedInv s added qs)
    (hup : ¬ s.Up t) : ¬ Queued qs t := by
  intro hq
  rcases h.queued t hq with hs | ⟨hs, _⟩
  · exact hup (.inl hs)
  · exact hup (.inr hs)

theorem up_congr (h : (s'.mlfq.tasks t).state = (s.mlfq.tasks t).state) :
    s'.Up t ↔ s.Up t := by
  unfold Scheduler.Up
  rw [h]

/-! ## The invariant -/

/-- The count is exact, and the current task and the idle task are none that is still to be added. -/
structure CountInv (s : Scheduler) : Prop where
  sched : ∃ qs, SchedInv s (fun _ => True) qs
  counted : s.Counted
  current : ∀ t, s.current = some t → (s.mlfq.tasks t).state ≠ .created
  idle : ∀ t, s.idle = some t → (s.mlfq.tasks t).state ≠ .created ∧ (s.mlfq.tasks t).state ≠ .blocked

/-- The tasks still to be added stay so, except `t`. -/
def KeepsCreated (except : Option TaskPtr) (s s' : Scheduler) : Prop :=
  ∀ t, except ≠ some t → (s.mlfq.tasks t).state = .created → (s'.mlfq.tasks t).state = .created

variable {v : TaskState}

theorem not_up_of_eq (h : (s.mlfq.tasks t).state = v) (hr : v ≠ .ready) (hu : v ≠ .running) : ¬ s.Up t := by
  rintro (hs | hs)
  · exact hr (h.symm.trans hs)
  · exact hu (h.symm.trans hs)

section

variable (h : CountInv s)
include h

/-- One task changes its state, and is not left as one that is still to be added, nor the idle task as blocked. -/
theorem CountInv.change {s' : Scheduler} (hsched : ∃ qs, SchedInv s' (fun _ => True) qs) (hcount : s'.Counted)
    (hcur : s'.current = s.current) (hidle : s'.idle = s.idle) (hself : (s'.mlfq.tasks t).state = v) (hc : v ≠ .created)
    (hb : s.idle = some t → v ≠ .blocked) (hother : ∀ u, u ≠ t → (s'.mlfq.tasks u).state = (s.mlfq.tasks u).state) :
    CountInv s' := by
  refine ⟨hsched, hcount, fun u hu => ?_, fun u hu => ?_⟩
  · rw [hcur] at hu
    by_cases he : u = t
    · rwa [he, hself]
    · rw [hother u he]
      exact h.current u hu
  · rw [hidle] at hu
    by_cases he : u = t
    · rw [he] at hu ⊢
      rw [hself]
      exact ⟨hc, hb hu⟩
    · rw [hother u he]
      exact h.idle u hu

theorem CountInv.park (hnot : ¬ s.Up t) (hr : v ≠ .ready)
    (hu : v ≠ .running) (hc : v ≠ .created) (hb : s.idle = some t → v ≠ .blocked) :
    CountInv { s with mlfq := s.mlfq.setState t v } := by
  obtain ⟨qs, hi⟩ := h.sched
  have hother : ∀ u, u ≠ t → ((s.mlfq.setState t v).tasks u).state = (s.mlfq.tasks u).state :=
    fun u hne => congrArg Task.state (setState_of_ne _ _ hne)
  refine h.change ⟨qs, hi.setState (not_queued_of_not_up hi hnot) hr⟩ ?_ rfl rfl (setState_self _ _ _) hc hb hother
  refine counted_congr h.counted rfl rfl (fun u _ => ?_)
  by_cases he : u = t
  · subst he
    exact iff_of_false (not_up_of_eq (setState_self _ _ _) hr hu) hnot
  · exact up_congr (hother u he)

omit h in
theorem keepsCreated_setState (hnot : (s.mlfq.tasks t).state ≠ .created) (v : TaskState) :
    KeepsCreated none s { s with mlfq := s.mlfq.setState t v } := by
  intro u _ hu
  have hne : u ≠ t := by
    rintro rfl
    exact hnot hu
  rw [setState_of_ne _ _ hne]
  exact hu

/-! ## The calls -/

/-- A task that is neither ready nor running, and not the idle task, is queued and counted; `m` differs from the queues of `s` in the
state of that task only. -/
theorem CountInv.enqueue (hidle : s.idle ≠ some t) (hnot : ¬ s.Up t) {m : Mlfq}
    (hm : ∀ qs, Rep s.mlfq qs → Rep m qs) (hst : ∀ u, u ≠ t → (m.tasks u).state = (s.mlfq.tasks u).state) :
    CountInv { s with mlfq := mlfqEnqueue m (some t) 0, readyCount := (s.readyCount + 1) % 2 ^ 64 } ∧
    KeepsCreated (some t) s { s with mlfq := mlfqEnqueue m (some t) 0, readyCount := (s.readyCount + 1) % 2 ^ 64 } := by
  obtain ⟨qs, hi⟩ := h.sched
  have hself := (mlfqEnqueue_self m (t := t) (levelIdx_val 0)).1
  have hother : ∀ u, u ≠ t → ((mlfqEnqueue m (some t) 0).tasks u).state = (s.mlfq.tasks u).state :=
    fun u hu => (mlfqEnqueue_state m _ hu).trans (hst u hu)
  have hq := hi.enqueue (not_queued_of_not_up hi hnot) (hm qs hi.rep) hst
  refine ⟨h.change ⟨_, (hq.mono (fun _ _ => Or.inr trivial)).congr rfl rfl rfl⟩ ?_ rfl rfl hself (by decide)
    (fun hi => absurd hi hidle) hother, fun u hne hu => ?_⟩
  · exact counted_insert h.counted hidle hnot (.inl hself) rfl rfl (fun u hu => up_congr (hother u hu))
  · exact (hother u (fun he => hne (congrArg some he.symm))).trans hu

theorem CountInv.wake (task : Option TaskPtr) :
    CountInv (schedulerWakeTask s task) ∧ KeepsCreated none s (schedulerWakeTask s task) := by
  unfold schedulerWakeTask
  cases task with
  | none => exact ⟨h, fun _ _ => id⟩
  | some t =>
    dsimp only
    split
    · exact ⟨h, fun _ _ => id⟩
    · rename_i hb
      rw [not_not] at hb
      have hidle : s.idle ≠ some t := fun hi => (h.idle t hi).2 hb
      obtain ⟨h', hkeep⟩ := h.enqueue hidle (not_up_of_eq hb (by decide) (by decide)) (m := s.mlfq.setState t .ready)
        (fun qs hr => rep_setState hr t .ready) (fun u hu => congrArg Task.state (setState_of_ne _ _ hu))
      refine ⟨h', fun u _ hu => hkeep u ?_ hu⟩
      intro he
      cases he
      cases hb.symm.trans hu

theorem CountInv.tick (hs : schedulerTick s = some s') :
    CountInv s' ∧ KeepsCreated none s s' := by
  obtain ⟨qs, hi⟩ := h.sched
  obtain ⟨s1, qs1, hs1, hi1⟩ := hi.tick
  obtain rfl : s1 = s' := some.inj (hs1.symm.trans hs)
  obtain ⟨hidle, hn, hstates, hcur, hparked⟩ := ticked_tick hi hs
  -- a task that is up is not in one of the other states
  have hup : ∀ t v, s1.Up t → v ≠ .ready → v ≠ .running → (s1.mlfq.tasks t).state ≠ v :=
    fun t v hup hr hu hv => not_up_of_eq hv hr hu hup
  refine ⟨⟨⟨qs1, hi1⟩, counted_congr h.counted hn hidle (fun t ht => ⟨fun hup' => ?_, fun hold => ?_⟩), fun t ht => ?_,
    fun t ht => ?_⟩, fun t _ ht => ?_⟩
  · by_contra hnot
    exact hnot ((up_congr (hparked t (parked_of_not_up ht hnot)).1).1 hup')
  · exact (hstates t).elim id (fun heq => (up_congr heq).2 hold)
  · rcases hcur t ht with hold | hnew
    · rcases hstates t with hnew | heq
      · exact hup t _ hnew (by decide) (by decide)
      · rw [heq]
        exact h.current t hold
    · exact hup t _ hnew (by decide) (by decide)
  · rw [hidle] at ht
    rcases hstates t with hnew | heq
    · exact ⟨hup t _ hnew (by decide) (by decide), hup t _ hnew (by decide) (by decide)⟩
    · rw [heq]
      exact h.idle t ht
  · have hne : s.idle ≠ some t := fun hi => (h.idle t hi).1 ht
    exact (hparked t (parked_of_not_up hne (not_up_of_eq ht (by decide) (by decide)))).1.trans ht

/-- A task that is ready or runs is taken out of the queues and counted down, unless it is the idle task. -/
theorem CountInv.retire (hup : s.idle = some t ∨ s.Up t)
    (hr : v ≠ .ready) (hu : v ≠ .running) (hc : v ≠ .created) (hb : s.idle = some t → v ≠ .blocked) :
    ∃ m, mlfqDequeue s.mlfq (some t) = some m ∧
      CountInv { dropReady { s with mlfq := m } t with mlfq := m.setState t v } ∧
      KeepsCreated none s { dropReady { s with mlfq := m } t with mlfq := m.setState t v } := by
  obtain ⟨qs, hi⟩ := h.sched
  obtain ⟨m, hd, hst, hi'⟩ := hi.retire t hr
  have hother : ∀ u, u ≠ t → ((m.setState t v).tasks u).state = (s.mlfq.tasks u).state := by
    intro u hne
    rw [setState_of_ne _ _ hne, hst]
  have hself : ((m.setState t v).tasks t).state = v := setState_self _ _ _
  have hcreated : (s.mlfq.tasks t).state ≠ .created := by
    rcases hup with hidle | hup
    · exact (h.idle t hidle).1
    · exact fun hs => not_up_of_eq hs (by decide) (by decide) hup
  refine ⟨m, hd, h.change ⟨_, hi'.congr rfl (by simp) (by simp)⟩ ?_ (by simp) (by simp) hself hc hb hother, fun u _ hs => ?_⟩
  · by_cases hidle : s.idle = some t
    · refine counted_congr h.counted ?_ (by simp) (fun u hne => ?_)
      · simp [dropReady, hidle]
      · exact up_congr (hother u (fun he => hne (he ▸ hidle)))
    · refine counted_erase h.counted hidle (hup.resolve_left hidle) (not_up_of_eq hself hr hu) ?_ (by simp)
        (fun u hne => up_congr (hother u hne))
      simp [dropReady, Ne.symm hidle]
  · have hne : u ≠ t := by
      rintro rfl
      exact hcreated hs
    exact (hother u hne).trans hs

theorem CountInv.remove (hup : s.idle = some t ∨ s.Up t)
    (hs : schedulerRemoveTask s (some t) = some s') : CountInv s' ∧ KeepsCreated none s s' := by
  obtain ⟨m, hd, h', hkeep⟩ := h.retire hup (v := .zombie) (by decide) (by decide) (by decide) (fun _ => by decide)
  simp only [schedulerRemoveTask, hd, map_some, some.injEq] at hs
  have heq : { dropReady { s with mlfq := m } t with mlfq := m.setState t .zombie } = s' := by
    rw [← hs]
    unfold dropReady
    split <;> rfl
  rw [← heq]
  exact ⟨h', hkeep⟩

theorem CountInv.block (hidle : ∀ cur, s.current = some cur → s.idle ≠ some cur)
    (hs : blockCurrent s = some s') : CountInv s' ∧ KeepsCreated none s s' := by
  unfold blockCurrent at hs
  cases hc : s.current with
  | none =>
    rw [hc] at hs
    cases hs
    exact ⟨h, fun _ _ => id⟩
  | some cur =>
    simp only [hc, schedulerUnqueueTask] at hs
    split at hs
    · rename_i hnot
      cases hs
      have hcur := h.current cur hc
      refine ⟨?_, ?_⟩
      · exact h.park (t := cur) (fun hup => hup.elim hnot.2 hnot.1) (by decide) (by decide) (by decide)
          (fun hi => absurd hi (hidle cur hc))
      · exact keepsCreated_setState hcur .blocked
    · rename_i hnot
      have hup : s.Up cur := by
        unfold Scheduler.Up
        by_contra hno
        rw [not_or] at hno
        exact hnot ⟨hno.2, hno.1⟩
      obtain ⟨m, hd, h', hkeep⟩ := h.retire (.inr hup) (v := .blocked) (by decide) (by decide) (by decide)
        (fun hi => absurd hi (hidle cur hc))
      rw [hd] at hs
      rw [hc] at h' hkeep
      cases hs
      simp only [dropReady_mlfq]
      exact ⟨h', hkeep⟩

end

/-! ## Runs -/

variable {k k' : Processes}

theorem CountInv.exit (h : CountInv k.sched) {code : Int}
    (hup : ∀ cur, k.sched.current = some cur → ¬ k.sched.Up cur) (hrun : taskExit k code = some k') :
    CountInv k'.sched ∧ KeepsCreated none k.sched k'.sched := by
  cases hc : k.sched.current with
  | none =>
    have hk : taskExit k code = some k := by
      unfold taskExit
      rw [hc]
    obtain rfl := some.inj (hk.symm.trans hrun)
    exact ⟨h, fun _ _ => id⟩
  | some cur =>
    have hz := h.park (hup cur hc) (v := .zombie) (by decide) (by decide) (by decide) (fun _ => by decide)
    have hkeep := keepsCreated_setState (h.current cur hc) .zombie
    rcases taskExit_sched hc hrun with heq | ⟨parent, heq⟩
    · rw [heq]
      exact ⟨hz, hkeep⟩
    · rw [heq]
      obtain ⟨hw, hkeep'⟩ := hz.wake (some parent)
      exact ⟨hw, fun t hne ht => hkeep' t hne (hkeep t hne ht)⟩

theorem CountInv.wait (h : CountInv k.sched) {r : Int × Option Int}
    (hidle : ∀ cur, k.sched.current = some cur → k.sched.idle ≠ some cur) (hrun : k.taskWait = some (k', r)) :
    CountInv k'.sched ∧ KeepsCreated none k.sched k'.sched := by
  unfold Processes.taskWait at hrun
  cases hc : k.sched.current with
  | none =>
    rw [hc] at hrun
    cases hrun
    exact ⟨h, fun _ _ => id⟩
  | some cur =>
    rw [hc] at hrun
    dsimp only at hrun
    cases hz : zombieChild k cur with
    | none =>
      rw [hz] at hrun
      cases hrun
    | some found =>
      rw [hz] at hrun
      cases found with
      | none =>
        obtain ⟨k1, hk1, heq⟩ := map_eq_some_iff.mp hrun
        cases heq
        unfold waitForChildren at hk1
        split at hk1
        · obtain ⟨s, hs, rfl⟩ := map_eq_some_iff.mp hk1
          exact h.block hidle hs
        · cases hk1
          exact ⟨h, fun _ _ => id⟩
      | some found =>
        obtain ⟨pp, child⟩ := found
        cases hrun
        have hzombie : (k.sched.mlfq.tasks child).state = .zombie := by
          simpa using LinkedList.findLink_holds hz
        rw [unlinkChild_sched]
        refine ⟨?_, ?_⟩
        · exact h.park (not_up_of_eq hzombie (by decide) (by decide)) (by decide) (by decide) (by decide) (fun _ => by decide)
        · refine keepsCreated_setState ?_ .dead
          rw [hzombie]
          decide

/-- One call that keeps the count, where a task that is added has not been added before. -/
theorem CountInv.step (h : CountInv k.sched) {op : CountOp} (hop : op.KeepsCount k)
    (hfresh : ∀ t, op = .add (some t) → (k.sched.mlfq.tasks t).state = .created) (hrun : op.run k = some k') :
    CountInv k'.sched ∧ ∀ t, op ≠ .add (some t) → (k.sched.mlfq.tasks t).state = .created →
      (k'.sched.mlfq.tasks t).state = .created := by
  have hall : ∀ {s' : Scheduler}, CountInv s' ∧ KeepsCreated none k.sched s' → CountInv s' ∧
      ∀ t, op ≠ .add (some t) → (k.sched.mlfq.tasks t).state = .created → (s'.mlfq.tasks t).state = .created :=
    fun h' => ⟨h'.1, fun t _ => h'.2 t (fun he => nomatch he)⟩
  cases op with
  | add task =>
    cases hrun
    cases task with
    | none => exact ⟨h, fun _ _ => id⟩
    | some t =>
      have hcreated := hfresh t rfl
      have hidle : k.sched.idle ≠ some t := fun hi => (h.idle t hi).1 hcreated
      obtain ⟨h', hkeep⟩ := h.enqueue hidle (not_up_of_eq hcreated (by decide) (by decide)) (m := k.sched.mlfq)
        (fun _ hr => hr) (fun _ _ => rfl)
      exact ⟨h', fun u hne => hkeep u (fun he => hne (congrArg CountOp.add he))⟩
  | remove task =>
    obtain ⟨s, hs, rfl⟩ := map_eq_some_iff.mp hrun
    cases task with
    | none =>
      cases hs
      exact ⟨h, fun _ _ => id⟩
    | some t => exact hall (h.remove (hop t rfl) hs)
  | tick =>
    obtain ⟨s, hs, rfl⟩ := map_eq_some_iff.mp hrun
    exact hall (h.tick hs)
  | exit code => exact hall (h.exit hop hrun)
  | wait =>
    obtain ⟨⟨k1, r⟩, hw, rfl⟩ := map_eq_some_iff.mp hrun
    exact hall (h.wait hop hw)
  | wake task =>
    cases hrun
    rcases taskWake_sched k task with heq | heq
    · rw [heq]
      exact ⟨h, fun _ _ => id⟩
    · rw [heq]
      exact hall (h.wake task)

theorem CountInv.run {ops : List CountOp} : ∀ {k : Processes}, CountInv k.sched → (addedTasks ops).Nodup →
    (∀ t ∈ addedTasks ops, (k.sched.mlfq.tasks t).state = .created) →
    Each CountOp.run (fun k op _ => op.KeepsCount k) k ops → Each CountOp.run (fun _ _ k' => CountInv k'.sched) k ops := by
  induction ops with
  | nil => exact fun _ _ _ _ => trivial
  | cons op ops ih =>
    intro k h hnodup hcreated hE
    have hadded : addedTasks (op :: ops) = (addedTasks [op]) ++ addedTasks ops := by
      rw [addedTasks, addedTasks, addedTasks, ← filterMap_append, singleton_append]
    have hmem : ∀ t, op = .add (some t) → t ∈ addedTasks [op] := by
      rintro t rfl
      exact mem_singleton.2 rfl
    rw [hadded, nodup_append] at hnodup
    rw [hadded] at hcreated
    cases hs : op.run k with
    | none => exact each_cons_none hs
    | some k' =>
      rw [each_cons_some hs] at hE ⊢
      obtain ⟨h', hkeep⟩ := h.step hE.1 (fun t ht => hcreated t (mem_append_left _ (hmem t ht))) hs
      refine ⟨h', ih h' hnodup.2.1 (fun t ht => hkeep t (fun hop => ?_) (hcreated t (mem_append_right _ ht))) hE.2⟩
      exact hnodup.2.2 t (hmem t hop) t ht rfl

theorem init_state (tasks : TaskPtr → Task) {i : TaskPtr} (hne : t ≠ i) :
    (((mlfqEnqueue (mlfqInit tasks) (some i) 3).setState i .running).tasks t).state = (tasks t).state := by
  rw [setState_of_ne _ _ hne, mlfqEnqueue_state _ _ hne]
  rfl

theorem countInv_init {tasks : TaskPtr → Task} {i : TaskPtr} (hcreated : ∀ t, t ≠ i → (tasks t).state = .created)
    (h : schedulerInit tasks (some i) = some s) : CountInv s := by
  obtain ⟨qs, hi⟩ := schedInv_init h
  cases h
  have hother : ∀ t, t ≠ i → (((mlfqEnqueue (mlfqInit tasks) (some i) 3).setState i .running).tasks t).state = .created :=
    fun t he => (init_state tasks he).trans (hcreated t he)
  have hself : (((mlfqEnqueue (mlfqInit tasks) (some i) 3).setState i .running).tasks i).state = .running :=
    setState_self _ _ _
  refine ⟨⟨qs, hi.rep, hi.initialized, hi.queued, fun t _ hst => ?_⟩, ?_, fun t ht => ?_, fun t ht => ?_⟩
  · by_cases he : t = i
    · subst he
      cases hself.symm.trans hst
    · cases (hother t he).symm.trans hst
  · unfold Scheduler.Counted
    symm
    rw [Set.ncard_eq_zero (Set.toFinite _), Set.eq_empty_iff_forall_notMem]
    rintro t ⟨hidle, hup⟩
    exact not_up_of_eq (hother t (fun he => hidle (congrArg some he.symm))) (by decide) (by decide) hup
  · cases ht
    exact fun hs => nomatch hself.symm.trans hs
  · cases ht
    exact ⟨fun hs => (nomatch hself.symm.trans hs), fun hs => (nomatch hself.symm.trans hs)⟩

end ReadyCountAux

open ReadyCountAux

/-- In a run from `scheduler_init`, which adds the idle task, in which each task is added once and every call keeps the count,
`g_ready_count` is the number of tasks, the idle task apart, that are ready or run; so it never wraps. -/
theorem ready_count_exact {tasks : TaskPtr → Task} {i : TaskPtr} (hcreated : ∀ t, t ≠ i → (tasks t).state = .created)
    {s₀ : Scheduler} (h₀ : schedulerInit tasks (some i) = some s₀) (procs : TaskPtr → Proc) (initTask : Option TaskPtr)
    (ops : List CountOp) (honce : (i :: addedTasks ops).Nodup)
    (ha : Each CountOp.run (fun k op _ => op.KeepsCount k) ⟨s₀, procs, initTask⟩ ops) :
    s₀.Counted ∧ Each CountOp.run (fun _ _ k => k.sched.Counted ∧ k.sched.readyCount ≤ 2 ^ 31) ⟨s₀, procs, initTask⟩ ops := by
  have hinit := countInv_init hcreated h₀
  rw [nodup_cons] at honce
  have hnew : ∀ t ∈ addedTasks ops, (s₀.mlfq.tasks t).state = .created := by
    intro t ht
    have hne : t ≠ i := by
      rintro rfl
      exact honce.1 ht
    cases h₀
    exact (init_state tasks hne).trans (hcreated t hne)
  refine ⟨hinit.counted, (CountInv.run hinit honce.2 hnew ha).mono (fun _ _ k h => ⟨h.counted, ?_⟩)⟩
  rw [h.counted]
  exact ncard_le _

namespace ReadyCountAux

/-- One task fewer is runnable when one that is ready or runs becomes a zombie. -/
theorem ncard_zombie_lt (hidle : s.idle ≠ some t) (hup : s.Up t) :
    ({ s with mlfq := s.mlfq.setState t .zombie } : Scheduler).runnable.ncard < s.runnable.ncard := by
  have hnot : ¬ ({ s with mlfq := s.mlfq.setState t .zombie } : Scheduler).Up t :=
    not_up_of_eq (setState_self _ _ _) (by decide) (by decide)
  refine Set.ncard_lt_ncard (ssubset_of_subset_of_ne (fun u hu => ?_) (fun heq => ?_)) (Set.toFinite _)
  · have hne : u ≠ t := by
      rintro rfl
      exact hnot hu.2
    exact ⟨hu.1, (up_congr (congrArg Task.state (setState_of_ne _ _ hne))).1 hu.2⟩
  · have hmem : t ∈ s.runnable := ⟨hidle, hup⟩
    rw [← heq] at hmem
    exact hnot hmem.2

/-- A task is added, and becomes current when the quantum of the idle task is over. -/
def firstQuantum : List CountOp := .add (some 5) :: List.replicate 16 .tick

theorem firstQuantum_keepsCount (k : Processes) : Each CountOp.run (fun k op _ => op.KeepsCount k) k firstQuantum := by
  refine Each.of_mem (fun op hop k _ => ?_)
  rcases mem_cons.1 hop with rfl | hop
  · trivial
  · rw [eq_of_mem_replicate hop]
    trivial

end ReadyCountAux

/-- A task is added, becomes current when the quantum of the idle task is over, and is removed. -/
theorem ready_count_exact_one_task :
    schedulerInit (fun _ => ⟨.created, 0, 0, 0, none⟩) (some 1) = some bootProcs.sched ∧
      Each CountOp.run (fun _ _ k => k.sched.Counted ∧ k.sched.readyCount ≤ 2 ^ 31) bootProcs
        (firstQuantum ++ [.remove (some 5)]) := by
  refine ⟨rfl, (ready_count_exact (fun _ _ => rfl) rfl bootProcs.procs none _ (by decide) ?_).2⟩
  refine (firstQuantum_keepsCount _).append (fun k hrun => ?_)
  have hview : (run CountOp.run bootProcs firstQuantum).map (fun k => (k.sched.mlfq.tasks 5).state) = some .running := by
    decide +kernel
  have hup : (k.sched.mlfq.tasks 5).state = .running := by
    change run CountOp.run bootProcs firstQuantum = some k at hrun
    rw [hrun] at hview
    exact some.inj hview
  cases hs : CountOp.run k (.remove (some 5)) with
  | none => exact each_cons_none hs
  | some k' =>
    rw [each_cons_some hs]
    refine ⟨fun t ht => ?_, trivial⟩
    cases ht
    exact .inr (.inr hup)

/-- The current task exits and is still counted, though no task is ready or runs. -/
theorem exit_keeps_counting :
    schedulerInit (fun _ => ⟨.created, 0, 0, 0, none⟩) (some 1) = some bootProcs.sched ∧
      (1 :: addedTasks (firstQuantum ++ [.exit 0])).Nodup ∧
      ¬ Each CountOp.run (fun _ _ k => k.sched.Counted) bootProcs (firstQuantum ++ [.exit 0]) := by
  have hview : (run CountOp.run bootProcs firstQuantum).bind (fun k => (taskExit k 0).map (fun k' =>
      (k.sched.current, k.sched.idle, (k.sched.mlfq.tasks 5).state, k.sched.readyCount, k'.sched.readyCount))) =
      some (some 5, some 1, .running, 1, 1) := by
    decide +kernel
  obtain ⟨k, hk, hview⟩ := bind_eq_some_iff.mp hview
  obtain ⟨k', hk', hview⟩ := map_eq_some_iff.mp hview
  simp only [Prod.mk.injEq] at hview
  obtain ⟨hcur, hidle, hrunning, hcount, hcount'⟩ := hview
  refine ⟨rfl, by decide, fun hE => ?_⟩
  have hboot : schedulerInit (fun _ => ⟨.created, 0, 0, 0, none⟩) (some 1) = some bootProcs.sched := rfl
  have hinit : CountInv bootProcs.sched := countInv_init (fun _ _ => rfl) hboot
  have hfresh : ∀ t ∈ addedTasks firstQuantum, (bootProcs.sched.mlfq.tasks t).state = .created := by
    intro t ht
    obtain rfl : t = 5 := mem_singleton.1 ht
    rfl
  have hold : CountInv k.sched :=
    Each.last (Q := fun k => CountInv k.sched) (CountInv.run hinit (by decide) hfresh (firstQuantum_keepsCount _)) hinit hk
  have hnew : k'.sched.Counted := hE.of_snoc hk hk'
  have hfewer := ncard_zombie_lt (s := k.sched) (t := 5) (by rw [hidle]; decide) (.inr hrunning)
  rw [← hold.counted, hcount] at hfewer
  have heq : k'.sched = { k.sched with mlfq := k.sched.mlfq.setState 5 .zombie } := by
    rcases taskExit_sched hcur hk' with heq | ⟨parent, heq⟩
    · exact heq
    · -- a parent that was woken would have been counted
      unfold schedulerWakeTask at heq
      dsimp only at heq
      split at heq
      · exact heq
      · rw [heq] at hcount'
        dsimp only at hcount'
        omega
  rw [heq] at hnew hcount'
  exact absurd (hfewer.trans_eq (hcount'.symm.trans hnew)) (lt_irrefl _)

end TsOs
