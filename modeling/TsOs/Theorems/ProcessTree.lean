import TsOs.Lemmas.ProcessTree
import TsOs.Theorems.TaskSpaces

/-!
# The process tree over whole runs

The sibling lists and the parent pointers agree as long as no `sys_fork` fails in `vmm_clone_address_space`: there the child is
destroyed and stays the first child of its parent. A wake-up is lost when a task with a zombie among its children exits while the init
task is blocked: the zombie becomes a child of the init task, which is not woken.
-/

namespace TsOs

open Runs LinkedList MlfqAux SchedulerAux TaskExitAux ReadyCountAux Function List Option TaskTable Processes TreeOp Kernel

/-- The two views of the tree agree: the nodes of the list of children of a task exist and have it as their parent, and a task that was
forked, so that it is not one of the tasks `boot` of the start, is on the list of exactly one task. -/
def TaskTable.TreeOk (boot : List TaskPtr) (k : TaskTable) : Prop :=
  ∃ kids : TaskPtr → List TaskPtr,
    (∀ t ∈ k.tasks, Linked k.sibling (k.procs.procs t).children (kids t) ∧
      ∀ c ∈ kids t, c ∈ k.taskList ∧ (k.procs.procs c).parent = some t) ∧
    ∀ c ∈ k.taskList, c ∉ boot → ∃! t, t ∈ k.tasks ∧ c ∈ kids t

/-- The steps that keep the tree: a fork does not fail in the clone of the address space, and its process number is not that of the
init task; a task that exits is in no queue, and when it has children there is an init task. -/
def TreeOp.KeepsTree (k : TaskTable) : TreeOp → Prop
  | .fork pcb ending => pcb ≠ none → ending ≠ .cloneFails ∧ k.nextPid ≠ 1
  | .exit _ => ∀ cur, k.procs.sched.current = some cur → k.procs.sched.mlfq.Unqueued cur ∧
      ((k.procs.procs cur).children = none ∨ k.procs.initTask ≠ none)
  | _ => True

/-- A zombie that is among the children of `cur`. -/
def TaskTable.ZombieOf (k : TaskTable) (cur c : TaskPtr) : Prop :=
  c ∈ k.taskList ∧ (k.procs.procs c).parent = some cur ∧ k.state c = .zombie

/-- The steps that lose no wake-up: those that keep the tree, where a process number fits in an `int` and a task with a zombie among
its children exits only when the init task is not blocked or is its parent. -/
def TreeOp.KeepsWakeups (k : TaskTable) : TreeOp → Prop
  | .fork pcb ending => pcb ≠ none → ending ≠ .cloneFails ∧ k.nextPid ≠ 1 ∧ k.nextPid < 2 ^ 31
  | .exit _ => ∀ cur, k.procs.sched.current = some cur → k.procs.sched.mlfq.Unqueued cur ∧
      ((k.procs.procs cur).children = none ∨ k.procs.initTask ≠ none) ∧
      ∀ c i, k.ZombieOf cur c → k.procs.initTask = some i → k.state i ≠ .blocked ∨ (k.procs.procs cur).parent = some i
  | _ => True

/-- No task that is blocked in `task_wait` has a zombie among its children. -/
def TaskTable.Quiet (k : TaskTable) : Prop := ∀ t ∈ k.tasks, k.state t = .blocked → ∀ c, ¬ k.ZombieOf t c

/-- A zombie stays what it is, or this is the `sys_wait` that destroys it and it alone, and returns its process number and stores its
exit code. -/
def TreeOp.Reaps (k : TaskTable) (op : TreeOp) (k' : TaskTable) : Prop :=
  ∀ t ∈ k.taskList, k.state t = .zombie →
    (t ∈ k'.taskList ∧ k'.state t = .zombie ∧ (k'.procs.procs t).pid = (k.procs.procs t).pid ∧
      (k'.procs.procs t).exitCode = (k.procs.procs t).exitCode) ∨
    k'.taskList = k.taskList.erase t ∧ ∃ ok, op = .wait ok ∧
      k.sysWait ok = some (k', ((k.procs.procs t).pid : Int), some (k.procs.procs t).exitCode)

/-- `sys_wait` returns to the current task, and returns -1 only if that has no children, exactly when it has none or the pointer is good
and one of them is a zombie. -/
def TaskTable.Answers (k : TaskTable) : Prop :=
  ∀ cur ok, k.Calls cur → ∃ k' ret status, k.sysWait ok = some (k', ret, status) ∧
    ((ret = -1 → (k.procs.procs cur).children = none) ↔
      (k.procs.procs cur).children = none ∨ ok = true ∧ ∃ c, k.ZombieOf cur c)

variable {cur : TaskPtr} {op : TreeOp}

namespace ProcessTreeAux

variable {boot : List TaskPtr} {k k' : TaskTable} {kids : TaskPtr → List TaskPtr}

theorem treeOk (hf : Family boot k kids) : k.TreeOk boot := by
  refine ⟨kids, fun t ht => ⟨hf.linked t ht, fun c hc => ⟨hf.live t ht c hc, hf.parent t ht c hc⟩⟩, fun c hc hb => ?_⟩
  obtain ⟨t, ht, hct⟩ := hf.placed c hc hb
  exact ⟨t, ⟨ht, hct⟩, fun u hu => hf.unique hu.1 ht hu.2 hct⟩

/-- What the wait protocol rests on: a blocked task waits for its children, none of which is a zombie. -/
structure Waits (boot : List TaskPtr) (k : TaskTable) (kids : TaskPtr → List TaskPtr) : Prop where
  waiting : ∀ t ∈ k.tasks, k.state t = .blocked → (k.procs.procs t).isWaitingForChildren = true
  quiet : ∀ t ∈ k.tasks, k.state t = .blocked → ∀ c ∈ kids t, k.state c ≠ .zombie
  pids : ∀ c ∈ k.taskList, c ∉ boot → (k.procs.procs c).pid < 2 ^ 31

/-- A zombie that stays what it is. -/
def Kept (k k' : TaskTable) : Prop := ∀ t ∈ k.taskList, k.state t = .zombie →
  t ∈ k'.taskList ∧ k'.state t = .zombie ∧ (k'.procs.procs t).pid = (k.procs.procs t).pid ∧
    (k'.procs.procs t).exitCode = (k.procs.procs t).exitCode

/-! ## Ticks -/

theorem tick_tree (hr : Roster k) (hf : Family boot k kids) (hs : TreeOp.byTask k .tick = some k') :
    Roster k' ∧ Family boot k' kids ∧ (Waits boot k kids → Waits boot k' kids) ∧ Kept k k' := by
  obtain ⟨s, htick, rfl⟩ := map_eq_some_iff.mp hs
  obtain ⟨added, qs, hi⟩ := hr.sched
  obtain ⟨s1, qs1, htick1, hi1⟩ := hi.tick
  obtain rfl : s1 = s := some.inj (htick1.symm.trans htick)
  obtain ⟨hidle, -, hstates, hcur, hpark⟩ := ticked_tick hi htick
  -- a task that the tick does not make ready or running keeps its state
  have hsame : ∀ t v, v ≠ .ready → v ≠ .running → (s1.mlfq.tasks t).state = v → k.state t = v := by
    intro t v hr hu hv
    rcases hstates t with hup | heq
    · exact absurd hup (not_up_of_eq hv hr hu)
    · exact heq.symm.trans hv
  have hstranger : ∀ t, t ∉ k.tasks → Parked k.procs.sched t := fun t ht =>
    parked_of_not_up (fun hi => ht (mem_tasks.mpr (.inl hi))) (hr.stranger_not_up ht).1
  have htasks := tasks_eq (k := k) (p := { k.procs with sched := s1 }) hidle
  have hzombie : ∀ t, state { k with procs := { k.procs with sched := s1 } } t = .zombie → k.state t = .zombie :=
    fun t ht => hsame t _ (by decide) (by decide) ht
  have hblocked : ∀ t, state { k with procs := { k.procs with sched := s1 } } t = .blocked → k.state t = .blocked :=
    fun t ht => hsame t _ (by decide) (by decide) ht
  refine ⟨⟨⟨added, qs1, hi1⟩, ?_, ?_, hr.nodup, ?_, fun t ht => hr.zombies t (hzombie t ht)⟩, ?_, fun hw => ?_, fun t ht hz => ?_⟩
  · rw [htasks]
    intro t ht
    by_contra hout
    exact hout (hr.current t ((hpark t (hstranger t hout)).2 ht))
  · rw [htasks]
    intro t ht
    have heq : state { k with procs := { k.procs with sched := s1 } } t = k.state t := (hpark t (hstranger t ht)).1
    rw [heq]
    exact hr.strangers t ht
  · intro t ht
    exact hr.idle t (hidle ▸ ht)
  · exact hf.congr htasks rfl rfl (fun _ => .refl _) (fun t _ hz => .inl (hzombie t hz))
  · refine ⟨fun t ht hb => ?_, fun t ht hb c hc hz => ?_, hw.pids⟩
    · exact hw.waiting t (htasks ▸ ht) (hblocked t hb)
    · exact hw.quiet t (htasks ▸ ht) (hblocked t hb) c hc (hzombie c hz)
  · have hparked : Parked k.procs.sched t :=
      parked_of_not_up (hr.zombie_not_idle hz) (not_up_of_eq hz (by decide) (by decide))
    exact ⟨ht, (hpark t hparked).1.trans hz, rfl, rfl⟩

/-! ## Exit -/

variable {p : Processes}

/-- What `task_wake` does to the tasks: a blocked one is ready and waits no longer, and nothing else changes. -/
theorem taskWake_spec (p : Processes) (q : TaskPtr) :
    (∀ t, ((taskWake p (some q)).sched.mlfq.tasks t).state = .blocked → t ≠ q ∧ (p.sched.mlfq.tasks t).state = .blocked) ∧
    (∀ t, (p.sched.mlfq.tasks t).state ≠ .blocked →
      ((taskWake p (some q)).sched.mlfq.tasks t).state = (p.sched.mlfq.tasks t).state) ∧
    (∀ t, ((taskWake p (some q)).sched.mlfq.tasks t).state = .zombie → (p.sched.mlfq.tasks t).state = .zombie) ∧
    (∀ t, t ≠ q → (taskWake p (some q)).procs t = p.procs t) ∧ (taskWake p (some q)).initTask = p.initTask ∧
    ∀ t, SameLinks (p.procs t) ((taskWake p (some q)).procs t) ∧
      ((taskWake p (some q)).procs t).exitCode = (p.procs t).exitCode := by
  by_cases hb : (p.sched.mlfq.tasks q).state = .blocked
  · have hwake : taskWake p (some q) = { p.modify q (fun r => { r with isWaitingForChildren := false }) with
        sched := schedulerWakeTask p.sched (some q) } := by
      unfold taskWake
      dsimp only
      rw [if_neg (not_not.mpr hb)]
      rfl
    have hsched : schedulerWakeTask p.sched (some q) = { p.sched with
        mlfq := mlfqEnqueue (p.sched.mlfq.setState q .ready) (some q) 0, readyCount := (p.sched.readyCount + 1) % 2 ^ 64 } := by
      unfold schedulerWakeTask
      dsimp only
      rw [if_neg (not_not.mpr hb)]
    have hself : ((taskWake p (some q)).sched.mlfq.tasks q).state = .ready := by
      rw [hwake, hsched]
      exact (mlfqEnqueue_self _ (levelIdx_val 0)).1
    have hother : ∀ t, t ≠ q → ((taskWake p (some q)).sched.mlfq.tasks t).state = (p.sched.mlfq.tasks t).state := by
      intro t ht
      rw [hwake, hsched]
      change ((mlfqEnqueue (p.sched.mlfq.setState q .ready) (some q) 0).tasks t).state = _
      exact (mlfqEnqueue_state _ _ ht).trans
        (congrArg Task.state (setState_of_ne _ _ ht))
    have hback : ∀ t v, v ≠ .ready → ((taskWake p (some q)).sched.mlfq.tasks t).state = v →
        t ≠ q ∧ (p.sched.mlfq.tasks t).state = v := by
      intro t v hv ht
      have hne : t ≠ q := by
        rintro rfl
        exact hv (ht.symm.trans hself)
      exact ⟨hne, (hother t hne).symm.trans ht⟩
    refine ⟨fun t => hback t _ (by decide), fun t ht => ?_, fun t ht => (hback t _ (by decide) ht).2, fun t ht => ?_, ?_, fun t => ?_⟩
    · exact hother t fun he => ht (he ▸ hb)
    · rw [hwake]
      simp [Processes.modify, ht]
    · rw [hwake]
      rfl
    · rw [hwake, modify_procs]
      split <;> exact ⟨⟨rfl, rfl, rfl, rfl⟩, rfl⟩
  · have hwake : taskWake p (some q) = p := by
      unfold taskWake
      dsimp only
      rw [if_pos hb]
    rw [hwake]
    refine ⟨fun t ht => ⟨?_, ht⟩, fun _ _ => rfl, fun _ => id, fun _ _ => rfl, rfl, fun _ => ⟨.refl _, rfl⟩⟩
    rintro rfl
    exact hb ht

theorem taskExit_cases {p' : Processes} {code : Int} (hc : p.sched.current = some cur) (h : taskExit p code = some p') :
    ∃ p1, taskReparentChildren (p.modify cur fun q => { q with exitCode := code }) cur = some p1 ∧ (p.procs cur).pid ≠ 1 ∧
      ((p' = { p1 with sched := { p1.sched with mlfq := p1.sched.mlfq.setState cur .zombie } } ∧
          ∀ q, (p1.procs cur).parent = some q → (p1.procs q).isWaitingForChildren = false) ∨
        ∃ q, (p1.procs cur).parent = some q ∧
          p' = taskWake { p1 with sched := { p1.sched with mlfq := p1.sched.mlfq.setState cur .zombie } } (some q)) := by
  unfold taskExit at h
  rw [hc] at h
  obtain ⟨p1, hp1, h⟩ := bind_eq_some_iff.mp h
  have hpid1 : (p1.procs cur).pid = (p.procs cur).pid := by
    rw [((taskReparentChildren_rest hp1).2.2 cur).1]
    simp [Processes.modify]
  refine ⟨p1, hp1, ?_⟩
  dsimp only at h
  cases hpar : (p1.procs cur).parent with
  | none =>
    simp only [hpar] at h
    split at h
    · cases h
    · rename_i hpid
      cases h
      exact ⟨fun he => hpid (hpid1.trans he), .inl ⟨rfl, by simp⟩⟩
  | some q =>
    simp only [hpar] at h
    cases hw : (p1.procs q).isWaitingForChildren with
    | false =>
      simp only [hw, Bool.false_eq_true, if_false] at h
      split at h
      · cases h
      · rename_i hpid
        cases h
        refine ⟨fun he => hpid (hpid1.trans he), .inl ⟨rfl, fun r hr => ?_⟩⟩
        cases hr
        exact hw
    | true =>
      simp only [hw, if_true] at h
      split at h
      · cases h
      · rename_i hpid
        cases h
        refine ⟨fun he => hpid ?_, .inr ⟨q, rfl, rfl⟩⟩
        rw [((taskWake_spec _ q).2.2.2.2.2 cur).1.pid]
        exact hpid1.trans he

/-- The end of `task_exit`: the task is a zombie, and its parent is not blocked any more if it was waiting. -/
theorem exitEnd_spec {p1 : Processes}
    (h : (p = { p1 with sched := { p1.sched with mlfq := p1.sched.mlfq.setState cur .zombie } } ∧
        ∀ q, (p1.procs cur).parent = some q → (p1.procs q).isWaitingForChildren = false) ∨
      ∃ q, (p1.procs cur).parent = some q ∧
        p = taskWake { p1 with sched := { p1.sched with mlfq := p1.sched.mlfq.setState cur .zombie } } (some q)) :
    (∀ t, (p.sched.mlfq.tasks t).state = .blocked → (p1.sched.mlfq.tasks t).state = .blocked ∧
      ((p1.procs cur).parent = some t → (p1.procs t).isWaitingForChildren = false) ∧
      (p.procs t).isWaitingForChildren = (p1.procs t).isWaitingForChildren) ∧
    (∀ t, (p.sched.mlfq.tasks t).state = .zombie → t = cur ∨ (p1.sched.mlfq.tasks t).state = .zombie) ∧
    (∀ t, t ≠ cur → (p1.sched.mlfq.tasks t).state = .zombie → (p.sched.mlfq.tasks t).state = .zombie) ∧
    p.initTask = p1.initTask ∧
    ∀ t, SameLinks (p1.procs t) (p.procs t) ∧ (p.procs t).exitCode = (p1.procs t).exitCode := by
  have hself : ((p1.sched.mlfq.setState cur .zombie).tasks cur).state = .zombie := setState_self _ _ _
  have hother : ∀ t, t ≠ cur → ((p1.sched.mlfq.setState cur .zombie).tasks t).state = (p1.sched.mlfq.tasks t).state :=
    fun t ht => congrArg Task.state (setState_of_ne _ _ ht)
  have hblocked : ∀ t, ((p1.sched.mlfq.setState cur .zombie).tasks t).state = .blocked →
      (p1.sched.mlfq.tasks t).state = .blocked := by
    intro t ht
    have hne : t ≠ cur := by
      rintro rfl
      cases hself.symm.trans ht
    exact (hother t hne).symm.trans ht
  have hzombie : ∀ t, ((p1.sched.mlfq.setState cur .zombie).tasks t).state = .zombie →
      t = cur ∨ (p1.sched.mlfq.tasks t).state = .zombie := by
    intro t ht
    by_cases he : t = cur
    · exact .inl he
    · exact .inr ((hother t he).symm.trans ht)
  rcases h with ⟨rfl, hnot⟩ | ⟨q, hq, rfl⟩
  · refine ⟨fun t ht => ⟨hblocked t ht, hnot t, rfl⟩, hzombie, fun t ht hz => (hother t ht).trans hz, rfl, fun _ => ?_⟩
    exact ⟨.refl _, rfl⟩
  · obtain ⟨hb, hsame, hz, hprocs, hinit, hfields⟩ :=
      taskWake_spec { p1 with sched := { p1.sched with mlfq := p1.sched.mlfq.setState cur .zombie } } q
    refine ⟨fun t ht => ?_, fun t ht => hzombie t (hz t ht), fun t ht hzt => ?_, hinit, hfields⟩
    · obtain ⟨hne, hbt⟩ := hb t ht
      refine ⟨hblocked t hbt, fun hp => ?_, congrArg Proc.isWaitingForChildren (hprocs t hne)⟩
      exact absurd (some.inj (hp.symm.trans hq)) hne
    · have hzt' := (hother t ht).trans hzt
      refine (hsame t ?_).trans hzt'
      intro hbt
      cases hbt.symm.trans hzt'

variable (hr : Roster k) (hf : Family boot k kids)
include hr hf

theorem exit_tree (hc : k.procs.sched.current = some cur)
    (hu : k.isKernel cur = false) (hz : k.state cur ≠ .zombie) (hout : k.procs.sched.mlfq.Unqueued cur)
    (hinit : (k.procs.procs cur).children = none ∨ k.procs.initTask ≠ none) {code : Int}
    (hexit : taskExit k.procs code = some p) :
    Roster { k with procs := p } ∧ ∃ kids', Family boot { k with procs := p } kids' ∧
      (Waits boot k kids → (∀ c i, k.ZombieOf cur c → k.procs.initTask = some i →
        k.state i ≠ .blocked ∨ (k.procs.procs cur).parent = some i) → Waits boot { k with procs := p } kids') ∧
      Kept k { k with procs := p } := by
  have hcur : cur ∈ k.tasks := hr.current cur hc
  have hidle : k.procs.sched.idle ≠ some cur := by
    intro hi
    have := hr.idle cur hi
    rw [hu] at this
    cases this
  obtain ⟨p1, hrep, hpid, hcases⟩ := taskExit_cases hc hexit
  have hne : k.procs.initTask ≠ some cur := fun hi => hpid (hf.init cur hi).2.1
  -- the exit code is stored first
  have hmod : ∀ t, SameLinks (k.procs.procs t) ((k.procs.modify cur fun q => { q with exitCode := code }).procs t) ∧
      ((k.procs.modify cur fun q => { q with exitCode := code }).procs t).isWaitingForChildren =
        (k.procs.procs t).isWaitingForChildren := by
    intro t
    rw [modify_procs]
    split <;> exact ⟨⟨rfl, rfl, rfl, rfl⟩, rfl⟩
  have hf0 : Family boot { k with procs := k.procs.modify cur fun q => { q with exitCode := code } } kids :=
    hf.congr rfl rfl rfl (fun t => (hmod t).1) (fun _ _ => .inl)
  have hinit0 : ((k.procs.modify cur fun q => { q with exitCode := code }).procs cur).children = none ∨
      k.procs.initTask ≠ none := by
    rw [(hmod cur).1.children]
    exact hinit
  obtain ⟨p1', kids', hrep', hsched, hit1, hf1, hnil, hkids, hparent, hrest⟩ := hf0.reparent hcur hne hinit0
  obtain rfl : p1' = p1 := some.inj (hrep'.symm.trans hrep)
  have hsched1 : p1'.sched = k.procs.sched := hsched
  obtain ⟨hblocked, hzombie, hstays, hit, hfields⟩ := exitEnd_spec hcases
  rw [hsched1] at hblocked hzombie hstays
  -- the scheduler
  have hallowed : (ProcOp.exit code).Allowed k.procs := by
    intro t ht
    obtain rfl := some.inj (hc.symm.trans ht)
    exact ⟨hout, hidle⟩
  have hsound := (step hr.sched hallowed hexit).1
  have hframe : p.sched.current = k.procs.sched.current ∧ p.sched.idle = k.procs.sched.idle ∧
      ∀ t, t ∉ k.tasks → (p.sched.mlfq.tasks t).state = k.state t := by
    have hother : ∀ t, t ∉ k.tasks → ((k.procs.sched.mlfq.setState cur .zombie).tasks t).state = k.state t := by
      intro t ht
      refine congrArg Task.state (setState_of_ne _ _ ?_)
      rintro rfl
      exact ht hcur
    rcases taskExit_sched hc hexit with heq | ⟨parent, heq⟩
    · rw [heq]
      exact ⟨rfl, rfl, hother⟩
    · rw [heq]
      refine ⟨(wake_current _ _).1, (wake_current _ _).2, fun t ht => ?_⟩
      rw [wake_state]
      · exact hother t ht
      · rw [hother t ht]
        exact (hr.stranger_not_up ht).2.1
  have htasks := tasks_eq hframe.2.1
  have htasks1 := tasks_eq (congrArg Scheduler.idle hsched1)
  refine ⟨?_, kids', ?_, fun hw hcond => ⟨fun t ht hb => ?_, fun t ht hb c hc' hzc => ?_, fun c hc' hb => ?_⟩,
    fun t ht hzt => ?_⟩
  · refine hr.reschedule hsound hframe.2.1 hframe.1 hframe.2.2 (fun t ht => ?_)
    rcases hzombie t ht with rfl | hold
    · exact .inr hu
    · exact .inl hold
  · refine hf1.congr (htasks.trans htasks1.symm) rfl hit (fun t => (hfields t).1) (fun t ht hzt => ?_)
    · rcases hzombie t hzt with rfl | hold
      · refine .inr ⟨hnil, ?_⟩
        change p1'.initTask ≠ some t
        rw [hit1]
        exact hne
      · left
        change (p1'.sched.mlfq.tasks t).state = .zombie
        rw [hsched1]
        exact hold
  · rw [htasks] at ht
    obtain ⟨hold, -, hsame⟩ := hblocked t hb
    change (p.procs t).isWaitingForChildren = true
    rw [hsame, (hrest t).2.2, (hmod t).2]
    exact hw.waiting t ht hold
  · rw [htasks] at ht
    obtain ⟨hold, hparentT, -⟩ := hblocked t hb
    -- a blocked parent of the task that exits would have been woken
    have hnotparent : (p1'.procs cur).parent ≠ some t := by
      intro hp
      have hno := hparentT hp
      rw [(hrest t).2.2, (hmod t).2, hw.waiting t ht hold] at hno
      cases hno
    rcases hzombie c hzc with rfl | hzold
    · exact hnotparent (hf1.parent t (htasks1 ▸ ht) c hc')
    · rcases hkids t ht c hc' with hin | ⟨hinitT, hin⟩
      · exact hw.quiet t ht hold c hin hzold
      · have hzo : k.ZombieOf cur c := ⟨hf.live cur hcur c hin, hf.parent cur hcur c hin, hzold⟩
        rcases hcond c t hzo hinitT with hnb | hpt
        · exact hnb hold
        · refine hnotparent ?_
          rcases hparent with heq | heq
          · rw [heq, (hmod cur).1.parent]
            exact hpt
          · rw [heq]
            exact hinitT
  · change (p.procs c).pid < _
    rw [(hfields c).1.pid, (hrest c).1, (hmod c).1.pid]
    exact hw.pids c hc' hb
  · have hne' : t ≠ cur := by
      rintro rfl
      exact hz hzt
    refine ⟨ht, hstays t hne' hzt, ?_, ?_⟩
    · change (p.procs t).pid = _
      rw [(hfields t).1.pid, (hrest t).1, (hmod t).1.pid]
    · change (p.procs t).exitCode = _
      rw [(hfields t).2, (hrest t).2.1]
      simp [Processes.modify, hne']

/-! ## Fork -/

variable {child : TaskPtr}

theorem fillTask_tree (hfree : child ∉ k.tasks) (hpid : k.nextPid ≠ 1) :
    Roster (k.fillTask child) ∧ Family boot (k.fillTask child) kids ∧ (Waits boot k kids → Waits boot (k.fillTask child) kids) ∧
      Kept k (k.fillTask child) := by
  have hne : ∀ u ∈ k.tasks, u ≠ child := by
    rintro u hu rfl
    exact hfree hu
  have hlist : ∀ u ∈ k.taskList, u ≠ child := fun u hu => hne u (mem_tasks.mpr (.inr hu))
  have hprocs : ∀ u, u ≠ child → (k.fillTask child).procs.procs u = k.procs.procs u := fun u hu => update_of_ne hu _ _
  refine ⟨hr.fillTask hfree, hf.fillTask hfree hpid, fun hw => ⟨fun t ht hb => ?_, fun t ht hb c hc hz => ?_, fun c hc hb => ?_⟩,
    fun t ht hz => ?_⟩
  · have hnt := hne t ht
    rw [k.fillTask_state_of_ne hnt] at hb
    rw [hprocs t hnt]
    exact hw.waiting t ht hb
  · rw [k.fillTask_state_of_ne (hne t ht)] at hb
    rw [k.fillTask_state_of_ne (hlist c (hf.live t ht c hc))] at hz
    exact hw.quiet t ht hb c hc hz
  · rw [hprocs c (hlist c hc)]
    exact hw.pids c hc hb
  · have hnt := hlist t ht
    rw [k.fillTask_state_of_ne hnt, hprocs t hnt]
    exact ⟨ht, hz, rfl, rfl⟩

/-- A child that is complete becomes the first child of its parent. -/
theorem adopt_tree {parent : TaskPtr} (hp : parent ∈ k.tasks)
    (hz : k.state parent ≠ .zombie) (hfree : child ∉ k.tasks) (hnone : (k.procs.procs child).children = none) :
    ∃ kids', Roster (k.adopt parent child) ∧ Family boot (k.adopt parent child) kids' ∧
      (Waits boot k kids → (k.procs.procs child).pid < 2 ^ 31 → Waits boot (k.adopt parent child) kids') ∧
      Kept k (k.adopt parent child) := by
  have hpc : parent ≠ child := by
    rintro rfl
    exact hfree hp
  have hroster : Roster (k.adopt parent child) := (hr.join hfree).tree rfl
  have hstate : ∀ t, (k.adopt parent child).state t = k.state t := fun _ => rfl
  have hfields : ∀ t, ((k.adopt parent child).procs.procs t).pid = (k.procs.procs t).pid ∧
      ((k.adopt parent child).procs.procs t).exitCode = (k.procs.procs t).exitCode ∧
      ((k.adopt parent child).procs.procs t).isWaitingForChildren = (k.procs.procs t).isWaitingForChildren := by
    intro t
    simp only [adopt, linkChild, modify_procs]
    split <;> split <;> exact ⟨rfl, rfl, rfl⟩
  have hmem : ∀ t, t ∈ (k.adopt parent child).tasks → t = child ∨ t ∈ k.tasks := by
    intro t ht
    rcases mem_tasks.mp ht with hi | hl
    · exact .inr (mem_tasks.mpr (.inl hi))
    · exact (mem_cons.mp hl).imp_right fun hl => mem_tasks.mpr (.inr hl)
  have hnew := hr.stranger_not_up hfree
  refine ⟨_, hroster, hf.adopt hp hfree hz hnone, fun hw hpid => ⟨fun t ht hb => ?_, fun t ht hb c hc hzc => ?_, fun c hc hb => ?_⟩,
    fun t ht hzt => ⟨mem_cons_of_mem _ ht, hzt, (hfields t).1, (hfields t).2.1⟩⟩
  · rw [(hfields t).2.2]
    rcases hmem t ht with rfl | ht
    · exact absurd hb hnew.2.1
    · exact hw.waiting t ht hb
  · rw [hstate] at hb hzc
    rcases hmem t ht with rfl | hin
    · exact hnew.2.1 hb
    · by_cases he : t = parent
      · subst he
        rw [update_self] at hc
        rcases mem_cons.mp hc with rfl | hc
        · exact hnew.2.2 hzc
        · exact hw.quiet t hin hb c hc hzc
      · have hne : t ≠ child := by
          rintro rfl
          exact hfree hin
        rw [update_of_ne he, update_of_ne hne] at hc
        exact hw.quiet t hin hb c hc hzc
  · rw [(hfields c).1]
    rcases mem_cons.mp hc with rfl | hc
    · exact hpid
    · exact hw.pids c hc hb

/-- A task that is neither ready nor running, blocked or a zombie is added to the scheduler. -/
theorem addTask_tree (hin : child ∈ k.tasks)
    (hcreated : k.state child = .created) :
    Roster (k.addTask child) ∧ Family boot (k.addTask child) kids ∧ (Waits boot k kids → Waits boot (k.addTask child) kids) ∧
      Kept k (k.addTask child) := by
  have hself : (k.addTask child).state child = .ready := (mlfqEnqueue_self k.procs.sched.mlfq (levelIdx_val 0)).1
  have hother : ∀ t, t ≠ child → (k.addTask child).state t = k.state t := fun t ht =>
    mlfqEnqueue_state k.procs.sched.mlfq 0 ht
  -- no state but that of the child changes
  have hback : ∀ t v, v ≠ .ready → (k.addTask child).state t = v → k.state t = v := by
    intro t v hv ht
    by_cases he : t = child
    · subst he
      exact absurd (ht.symm.trans hself) hv
    · exact (hother t he).symm.trans ht
  refine ⟨?_, ?_, fun hw => ⟨fun t ht hb => ?_, fun t ht hb c hc hz => ?_, hw.pids⟩, fun t ht hz => ?_⟩
  · refine hr.reschedule ?_ rfl rfl (fun t ht => ?_) (fun t ht => .inl (hback t _ (by decide) ht))
    · obtain ⟨added, qs, hi⟩ := hr.sched
      exact ⟨_, _, hi.addTask (not_queued_of_not_up hi (not_up_of_eq hcreated (by decide) (by decide)))⟩
    · refine hother t ?_
      rintro rfl
      exact ht hin
  · exact hf.congr rfl rfl rfl (fun _ => .refl _) (fun t _ hz => .inl (hback t _ (by decide) hz))
  · exact hw.waiting t ht (hback t _ (by decide) hb)
  · exact hw.quiet t ht (hback t _ (by decide) hb) c hc (hback c _ (by decide) hz)
  · have hne : t ≠ child := by
      rintro rfl
      cases hcreated.symm.trans hz
    exact ⟨ht, (hother t hne).trans hz, rfl, rfl⟩

theorem fork_tree {parent : TaskPtr} (hc : k.procs.sched.current = some parent)
    (hz : k.state parent ≠ .zombie) {pcb : Option TaskPtr} (hfree : ∀ t, pcb = some t → t ∉ k.tasks) {ending : ForkEnd}
    (hok : pcb ≠ none → ending ≠ .cloneFails ∧ k.nextPid ≠ 1) :
    ∃ kids', Roster (k.sysFork pcb ending).1 ∧ Family boot (k.sysFork pcb ending).1 kids' ∧
      (Waits boot k kids → (pcb ≠ none → k.nextPid < 2 ^ 31) → Waits boot (k.sysFork pcb ending).1 kids') ∧
      Kept k (k.sysFork pcb ending).1 := by
  unfold TaskTable.sysFork
  rw [hc]
  cases pcb with
  | none => exact ⟨kids, hr, hf, fun hw _ => hw, fun t ht hzt => ⟨ht, hzt, rfl, rfl⟩⟩
  | some child =>
    have hnew := hfree child rfl
    obtain ⟨hend, hpid⟩ := hok (by simp)
    obtain ⟨hr1, hf1, hw1, hkept1⟩ := fillTask_tree hr hf hnew hpid
    cases ending with
    | incomplete => exact ⟨kids, hr1, hf1, fun hw _ => hw1 hw, hkept1⟩
    | cloneFails => exact absurd rfl hend
    | done =>
      have hp : parent ∈ (k.fillTask child).tasks := hr.current parent hc
      have hpc : parent ≠ child := by
        rintro rfl
        exact hnew hp
      have hz1 : (k.fillTask child).state parent ≠ .zombie := by
        rw [k.fillTask_state_of_ne hpc]
        exact hz
      have hfilled : ((k.fillTask child).procs.procs child).children = none ∧
          ((k.fillTask child).procs.procs child).pid = k.nextPid := by
        simp [TaskTable.fillTask, Processes.newTask]
      obtain ⟨kids', hr2, hf2, hw2, hkept2⟩ := adopt_tree hr1 hf1 hp hz1 hnew hfilled.1
      obtain ⟨hr3, hf3, hw3, hkept3⟩ := addTask_tree hr2 hf2
        (mem_tasks.mpr (.inr mem_cons_self)) (k.fillTask_state_self child)
      refine ⟨kids', hr3, hf3, fun hw hlt => hw3 (hw2 (hw1 hw) ?_), fun t ht hzt => ?_⟩
      · rw [hfilled.2]
        exact hlt (by simp)
      · obtain ⟨ht1, hz1, hp1, he1⟩ := hkept1 t ht hzt
        obtain ⟨ht2, hz2, hp2, he2⟩ := hkept2 t ht1 hz1
        obtain ⟨ht3, hz3, hp3, he3⟩ := hkept3 t ht2 hz2
        exact ⟨ht3, hz3, hp3.trans (hp2.trans hp1), he3.trans (he2.trans he1)⟩

/-! ## Wait -/

omit hr in
/-- What `task_wait` finds: no zombie among the children, or the first one. -/
theorem zombieChild_spec (hcur : cur ∈ k.tasks) :
    (zombieChild k.procs cur = some none ∧ ∀ c ∈ kids cur, k.state c ≠ .zombie) ∨
    ∃ xs child ys, kids cur = xs ++ child :: ys ∧ k.state child = .zombie ∧
      zombieChild k.procs cur = some (some (linkOf .head xs, child)) := by
  have hl := hf.linked cur hcur
  have hn := (TaskPtr.length_lt hl.nodup).1
  cases hfind : (kids cur).find? fun t => (k.procs.sched.mlfq.tasks t).state == .zombie with
  | none =>
    rw [find?_eq_none] at hfind
    refine .inl ⟨findLink_none hl (fun t ht => ?_) hn _, fun c hc hz => ?_⟩
    · exact Bool.eq_false_iff.mpr (hfind t ht)
    · exact hfind c hc (beq_iff_eq.mpr hz)
  | some child =>
    rw [find?_eq_some_iff_append] at hfind
    obtain ⟨hz, xs, ys, hsplit, hbefore⟩ := hfind
    rw [hsplit] at hl hn
    refine .inr ⟨xs, child, ys, hsplit, beq_iff_eq.mp hz, findLink_some hl hz (fun t ht => ?_) ?_ _⟩
    · simpa using hbefore t ht
    · rw [length_append] at hn
      omega

omit hr hf in
theorem blockCurrent_state {s s' : Scheduler} (hc : s.current = some cur) (hs : blockCurrent s = some s') :
    (s'.mlfq.tasks cur).state = .blocked := by
  unfold blockCurrent at hs
  rw [hc] at hs
  obtain ⟨s1, -, rfl⟩ := map_eq_some_iff.mp hs
  exact setState_self _ _ _

/-- A task that finds no zombie among its children is blocked when it has any. -/
theorem waitForChildren_tree (hc : k.procs.sched.current = some cur)
    (hquiet : ∀ c ∈ kids cur, k.state c ≠ .zombie) (hz : k.state cur ≠ .zombie) :
    ∃ p, waitForChildren k.procs cur = some p ∧ Roster { k with procs := p } ∧ Family boot { k with procs := p } kids ∧
      (Waits boot k kids → Waits boot { k with procs := p } kids) ∧ Kept k { k with procs := p } := by
  unfold waitForChildren
  split
  · obtain ⟨added, qs, hi⟩ := hr.sched
    obtain ⟨s, qs', hs, hi'⟩ := hi.blockCurrent
    obtain ⟨hcur, hidle, hother⟩ := block_frame hi hs
    have hself : (s.mlfq.tasks cur).state = .blocked := blockCurrent_state hc hs
    set p := k.procs.modify cur fun q => { q with isWaitingForChildren := true } with hp
    have hfields : ∀ t, SameLinks (k.procs.procs t) (p.procs t) ∧ (p.procs t).exitCode = (k.procs.procs t).exitCode := by
      intro t
      rw [hp, modify_procs]
      split <;> exact ⟨⟨rfl, rfl, rfl, rfl⟩, rfl⟩
    -- no task but the current one changes its state
    have hback : ∀ t, t ≠ cur → (s.mlfq.tasks t).state = k.state t := fun t ht =>
      hother t fun he => ht (some.inj (he.symm.trans hc))
    have hzombie : ∀ t, (s.mlfq.tasks t).state = .zombie → t ≠ cur ∧ k.state t = .zombie := by
      intro t ht
      have hne : t ≠ cur := by
        rintro rfl
        cases hself.symm.trans ht
      exact ⟨hne, (hback t hne).symm.trans ht⟩
    have hsched : blockCurrent p.sched = some s := hs
    dsimp only
    rw [hsched, map_some]
    refine ⟨_, rfl, ?_, ?_, fun hw => ⟨fun t ht hb => ?_, fun t ht hb c hc' hzc => ?_, fun c hc' hb => ?_⟩, fun t ht hzt => ?_⟩
    · refine hr.reschedule ⟨added, qs', hi'⟩ hidle hcur (fun t ht => ?_) (fun t ht => .inl (hzombie t ht).2)
      exact hother t fun he => ht (hr.current t he)
    · exact hf.congr (tasks_eq hidle) rfl rfl (fun t => (hfields t).1) (fun t _ ht => .inl (hzombie t ht).2)
    · by_cases he : t = cur
      · subst he
        simp [hp, Processes.modify]
      · have hin : t ∈ k.tasks := by rwa [tasks_eq (by exact hidle)] at ht
        have hb' : k.state t = .blocked := (hback t he).symm.trans hb
        simpa [hp, Processes.modify, he] using hw.waiting t hin hb'
    · obtain ⟨-, hzold⟩ := hzombie c hzc
      by_cases he : t = cur
      · subst he
        exact hquiet c hc' hzold
      · have hin : t ∈ k.tasks := by rwa [tasks_eq (by exact hidle)] at ht
        exact hw.quiet t hin ((hback t he).symm.trans hb) c hc' hzold
    · change (p.procs c).pid < _
      rw [(hfields c).1.pid]
      exact hw.pids c hc' hb
    · have hne : t ≠ cur := by
        rintro rfl
        exact hz hzt
      exact ⟨ht, (hback t hne).trans hzt, (hfields t).1.pid, (hfields t).2⟩
  · exact ⟨k.procs, rfl, hr, hf, id, fun t ht hzt => ⟨ht, hzt, rfl, rfl⟩⟩

omit hr hf in
/-- A process number that fits in an `int` is what `task_wait` returns. -/
theorem toInt_pid {pid : Nat} (h : pid < 2 ^ 31) : (BitVec.ofNat 32 pid).toInt = pid := by
  rw [BitVec.toInt_eq_toNat_of_lt]
  · rw [BitVec.toNat_ofNat, Nat.mod_eq_of_lt (by omega)]
  · rw [BitVec.toNat_ofNat]
    omega

theorem reap_tree (hc : k.procs.sched.current = some cur)
    (hz : k.state cur ≠ .zombie) {xs ys : List TaskPtr} (hsplit : kids cur = xs ++ child :: ys)
    (hzc : k.state child = .zombie) {p : Processes} (hp : k.procs.unlinkChild cur (linkOf .head xs) child = p) :
    ∃ kids', Roster ({ k with procs := p }.taskDestroy child) ∧
      Family boot ({ k with procs := p }.taskDestroy child) kids' ∧
      (Waits boot k kids → Waits boot ({ k with procs := p }.taskDestroy child) kids') ∧
      ∀ t ∈ k.taskList, t ≠ child → k.state t = .zombie →
        t ∈ ({ k with procs := p }.taskDestroy child).taskList ∧
        ({ k with procs := p }.taskDestroy child).state t = .zombie ∧
        (p.procs t).pid = (k.procs.procs t).pid ∧ (p.procs t).exitCode = (k.procs.procs t).exitCode := by
  have hcur := hr.current cur hc
  obtain ⟨-, hfields⟩ := hf.unlink hcur hsplit rfl
  have hsched := unlinkChild_sched k.procs cur (linkOf .head xs) child
  have hf' := hf.reap hr hcur hsplit rfl hzc
  rw [hp] at hfields hsched hf'
  have hne : cur ≠ child := by
    rintro rfl
    exact hz hzc
  have hroster : Roster ({ k with procs := p }.taskDestroy child) := by
    refine (hr.tree hsched).taskDestroy ?_ ?_
    · change ¬ p.sched.Up child
      rw [hsched]
      exact not_up_of_eq hzc (by decide) (by decide)
    · change p.sched.current ≠ some child
      rw [hsched, hc]
      exact fun he => hne (some.inj he)
  generalize hk' : ({ k with procs := p } : TaskTable).taskDestroy child = k' at hf' hroster ⊢
  have hself : k'.state child = .dead := by
    rw [← hk']
    exact setState_self _ _ _
  have hother : ∀ t, t ≠ child → k'.state t = k.state t := by
    intro t ht
    rw [← hk']
    unfold TaskTable.state TaskTable.taskDestroy
    dsimp only
    rw [setState_of_ne _ _ ht, hsched]
  have hback : ∀ t v, v ≠ .dead → k'.state t = v → k.state t = v := by
    intro t v hv ht
    by_cases he : t = child
    · subst he
      exact absurd (ht.symm.trans hself) hv
    · exact (hother t he).symm.trans ht
  have hprocs : k'.procs.procs = p.procs := by
    rw [← hk']
    rfl
  have hlist : k'.taskList = k.taskList.erase child := by
    rw [← hk']
    rfl
  have hsub : ∀ t, t ∈ k'.tasks → t ∈ k.tasks := by
    intro t ht
    rw [← hk'] at ht
    rw [TaskTable.mem_tasks] at ht ⊢
    exact ht.imp (fun hi => hsched ▸ hi) mem_of_mem_erase
  clear hk'
  refine ⟨_, hroster, hf', fun hw => ⟨fun t ht hb => ?_, fun t ht hb c hc' hzt => ?_, fun c hc' hb => ?_⟩, fun t ht htc hzt => ?_⟩
  · rw [hprocs, (hfields t).2.2.2]
    exact hw.waiting t (hsub t ht) (hback t _ (by decide) hb)
  · have hin : c ∈ kids t := by
      by_cases he : t = cur
      · subst he
        rw [update_self] at hc'
        rw [hsplit]
        rcases mem_append.mp hc' with hc' | hc'
        · exact mem_append_left _ hc'
        · exact mem_append_right _ (mem_cons_of_mem _ hc')
      · rwa [update_of_ne he] at hc'
    exact hw.quiet t (hsub t ht) (hback t _ (by decide) hb) c hin (hback c _ (by decide) hzt)
  · rw [hprocs, (hfields c).2.1]
    rw [hlist] at hc'
    exact hw.pids c (mem_of_mem_erase hc') hb
  · refine ⟨?_, (hother t htc).trans hzt, (hfields t).2.1, (hfields t).2.2.1⟩
    rw [hlist]
    exact (mem_erase_of_ne htc).mpr ht

/-- `sys_wait` returns; what it leaves behind, and what it answers. -/
theorem wait_tree (hc : k.procs.sched.current = some cur)
    (hz : k.state cur ≠ .zombie) (ok : Bool) :
    ∃ k' ret status kids', k.sysWait ok = some (k', ret, status) ∧ Roster k' ∧ Family boot k' kids' ∧
      (Waits boot k kids → Waits boot k' kids' ∧ TreeOp.Reaps k (.wait ok) k' ∧
        ((ret = -1 → (k.procs.procs cur).children = none) ↔
          (k.procs.procs cur).children = none ∨ ok = true ∧ ∃ c, k.ZombieOf cur c)) := by
  have hcur := hr.current cur hc
  unfold TaskTable.sysWait TreeOp.Reaps TaskTable.sysWait
  cases ok with
  | false =>
    refine ⟨k, -1, none, kids, rfl, hr, hf, fun hw => ⟨hw, fun t ht hzt => .inl ⟨ht, hzt, rfl, rfl⟩, ?_⟩⟩
    simp
  | true =>
    simp only [if_true]
    unfold TaskTable.taskWait
    rw [hc]
    dsimp only
    rcases zombieChild_spec hf hcur with ⟨hfind, hquiet⟩ | ⟨xs, child, ys, hsplit, hzc, hfind⟩
    · rw [hfind]
      obtain ⟨p, hp, hr', hf', hw', hkept⟩ := waitForChildren_tree hr hf hc hquiet hz
      rw [hp]
      refine ⟨_, -1, none, kids, rfl, hr', hf', fun hw => ⟨hw' hw, fun t ht hzt => .inl (hkept t ht hzt), ?_⟩⟩
      refine ⟨fun h => .inl (h rfl), fun h _ => h.elim id ?_⟩
      rintro ⟨-, c, hlive, hparent, hzc⟩
      exact absurd hzc (hquiet c (hf.mem_kids hlive hparent))
    · rw [hfind]
      have hin : child ∈ kids cur := by
        rw [hsplit]
        simp
      obtain ⟨kids', hr', hf', hw', hkept⟩ := reap_tree hr hf hc hz hsplit hzc rfl
      refine ⟨_, _, _, kids', rfl, hr', hf', fun hw => ⟨hw' hw, fun t ht hzt => ?_, ?_⟩⟩
      · by_cases he : t = child
        · subst he
          refine .inr ⟨rfl, true, rfl, ?_⟩
          have hpid := hw.pids t ht (hf.not_boot hcur hin)
          simp only [if_true, toInt_pid hpid]
        · exact .inl (hkept t ht he hzt)
      · have hpid := hw.pids child (hf.live cur hcur child hin) (hf.not_boot hcur hin)
        rw [toInt_pid hpid]
        refine ⟨fun _ => .inr ⟨trivial, child, hf.live cur hcur child hin, hf.parent cur hcur child hin, hzc⟩, fun _ he => ?_⟩
        omega

/-! ## Runs -/

omit hr hf in
/-- A step other than a tick is made by the current task, a user task that has not exited. -/
theorem step_iff (hop : op ≠ .tick) : op.step k = some k' ↔ ∃ cur, k.Calls cur ∧ op.byTask k = some k' := by
  unfold TreeOp.step TaskTable.Calls
  cases k.procs.sched.current with
  | none | some cur =>
    cases op with
    | tick => exact absurd rfl hop
    | _ => simp

omit hr hf in
theorem keepsTree_of_keepsWakeups (h : op.KeepsWakeups k) : op.KeepsTree k := by
  cases op with
  | fork pcb ending => exact fun hne => ⟨(h hne).1, (h hne).2.1⟩
  | exit code => exact fun cur hc => ⟨(h cur hc).1, (h cur hc).2.1⟩
  | tick | wait ok => trivial

/-- A step that keeps the tree; when it loses no wake-up, it keeps what the wait protocol rests on. -/
theorem tree_step (hop : op.KeepsTree k) (hs : op.step k = some k') :
    Roster k' ∧ ∃ kids', Family boot k' kids' ∧
      (Waits boot k kids → op.KeepsWakeups k → Waits boot k' kids' ∧ op.Reaps k k') := by
  cases op with
  | tick =>
    obtain ⟨hr', hf', hw', hkept⟩ := tick_tree hr hf hs
    exact ⟨hr', kids, hf', fun hw _ => ⟨hw' hw, fun t ht hz => .inl (hkept t ht hz)⟩⟩
  | fork pcb ending =>
    obtain ⟨cur, ⟨hc, hu, hz⟩, hrun⟩ := (step_iff (by simp)).mp hs
    unfold byTask at hrun
    dsimp only at hrun
    split at hrun
    · rename_i hfree
      cases hrun
      obtain ⟨kids', hr', hf', hw', hkept⟩ := fork_tree hr hf hc hz (fun t ht => by rw [ht] at hfree; simpa using hfree) hop
      refine ⟨hr', kids', hf', fun hw hwake => ⟨hw' hw fun hne => (hwake hne).2.2, fun t ht hzt => .inl (hkept t ht hzt)⟩⟩
    · cases hrun
  | wait ok =>
    obtain ⟨cur, ⟨hc, hu, hz⟩, hrun⟩ := (step_iff (by simp)).mp hs
    obtain ⟨k1, ret, status, kids', hwait, hr', hf', hall⟩ := wait_tree hr hf hc hz ok
    obtain ⟨res, hres, rfl⟩ := map_eq_some_iff.mp hrun
    obtain rfl := some.inj (hwait.symm.trans hres)
    exact ⟨hr', kids', hf', fun hw _ => ⟨(hall hw).1, (hall hw).2.1⟩⟩
  | exit code =>
    obtain ⟨cur, ⟨hc, hu, hz⟩, hrun⟩ := (step_iff (by simp)).mp hs
    obtain ⟨p, hexit, rfl⟩ := map_eq_some_iff.mp hrun
    obtain ⟨hout, hinit⟩ := hop cur hc
    obtain ⟨hr', kids', hf', hw', hkept⟩ := exit_tree hr hf hc hu hz hout hinit hexit
    exact ⟨hr', kids', hf', fun hw hwake => ⟨hw' hw (hwake cur hc).2.2, fun t ht hzt => .inl (hkept t ht hzt)⟩⟩

omit hr in
theorem quiet_of_waits (hw : Waits boot k kids) : k.Quiet := by
  rintro t ht hb c ⟨hlive, hparent, hz⟩
  exact hw.quiet t ht hb c (hf.mem_kids hlive hparent) hz

theorem answers_of_waits (hw : Waits boot k kids) : k.Answers := by
  rintro cur ok ⟨hc, hu, hz⟩
  obtain ⟨k', ret, status, kids', hwait, _, _, hall⟩ := wait_tree hr hf hc hz ok
  exact ⟨k', ret, status, hwait, (hall hw).2.2⟩

end ProcessTreeAux

open ProcessTreeAux

/-- The tasks at the start: none has children or a parent, and none is blocked. -/
structure Booted (k : TaskTable) : Prop where
  roster : Roster k
  childless : ∀ t ∈ k.tasks, (k.procs.procs t).children = none
  orphans : ∀ t ∈ k.taskList, (k.procs.procs t).parent = none
  init : ∀ i, k.procs.initTask = some i → i ∈ k.taskList ∧ (k.procs.procs i).pid = 1 ∧ k.state i ≠ .zombie
  awake : ∀ t ∈ k.tasks, k.state t ≠ .blocked

theorem Booted.family {k : TaskTable} (h : Booted k) : Family k.taskList k (fun _ => []) where
  linked t ht := h.childless t ht
  live _ _ _ hc := nomatch hc
  parent _ _ _ hc := nomatch hc
  placed _ hc hb := absurd hc hb
  oldest c hc := ⟨hc, h.orphans c hc⟩
  init := h.init
  childless _ _ _ := rfl

theorem Booted.waits {k : TaskTable} (h : Booted k) : Waits k.taskList k (fun _ => []) where
  waiting t ht hb := absurd hb (h.awake t ht)
  quiet _ _ _ _ hc := nomatch hc
  pids _ hc hb := absurd hc hb

/-! ## The kernel -/

namespace ProcessTreeAux

theorem taskDestroy_table (k : Kernel) (t : TaskPtr) : (k.taskDestroy t).table = k.table.taskDestroy t := by
  unfold Kernel.taskDestroy
  split <;> rfl

/-- `task_create` of the kernel: the child is complete and on the list, or its block has been filled in at most. -/
theorem taskCreate_table (k : Kernel) (b : TaskBlocks) :
    (∃ k1 child, k.taskCreate b = (k1, some child) ∧ b.pcb = some child ∧
      k1.table = { k.table.fillTask child with taskList := child :: k.taskList }) ∨
    ∃ k1, k.taskCreate b = (k1, none) ∧ k1.table = (match b.pcb with | none => k.table | some child => k.table.fillTask child) := by
  unfold Kernel.taskCreate
  cases hb : b.pcb with
  | none => exact .inr ⟨k, rfl, rfl⟩
  | some child =>
    dsimp only
    split
    · exact .inr ⟨_, rfl, rfl⟩
    · split
      · exact .inr ⟨_, rfl, rfl⟩
      · split
        · exact .inr ⟨_, rfl, rfl⟩
        · exact .inl ⟨_, child, rfl, rfl, rfl⟩

theorem sysFork_table {k : Kernel} {parent : TaskPtr} (hc : k.procs.sched.current = some parent) (b : TaskBlocks) :
    (k.sysFork b).1.table = (k.table.sysFork b.pcb (k.forkEnd b)).1 := by
  have hct : k.table.procs.sched.current = some parent := hc
  unfold Kernel.sysFork Kernel.forkEnd TaskTable.sysFork
  rw [hc, hct]
  rcases taskCreate_table k b with ⟨k1, child, hcreate, hpcb, htable⟩ | ⟨k1, hcreate, htable⟩
  · rw [hcreate, hpcb]
    have hspace : ∀ t, spaceOf { k1 with procs := k1.procs.linkChild parent child } t = k1.spaceOf t := fun _ => rfl
    have hadopt : table { k1 with procs := k1.procs.linkChild parent child } =
        (k.table.fillTask child).adopt parent child := by
      change ({ k1.table with procs := k1.table.procs.linkChild parent child } : TaskTable) = _
      rw [htable]
      rfl
    simp only [hspace]
    rcases (vmmCloneAddressSpace (k1.spaceOf parent) (k1.spaceOf child)).run k1.vmm with ⟨st, m⟩
    dsimp only
    by_cases hst : st = .ok
    · simp only [hst, ne_eq, not_true_eq_false, if_false]
      rw [← hadopt]
      rfl
    · simp only [hst, ne_eq, not_false_eq_true, if_true]
      rw [taskDestroy_table, ← hadopt]
      rfl
  · rw [hcreate]
    dsimp only
    rw [htable]
    cases b.pcb with
    | none => rfl
    | some child => rfl

theorem taskWait_table {k : Kernel} : k.taskWait.map (fun r => r.1.table) = k.table.taskWait.map Prod.fst := by
  unfold Kernel.taskWait TaskTable.taskWait
  rw [show k.table.procs = k.procs from rfl]
  cases k.procs.sched.current with
  | none => rfl
  | some cur =>
    dsimp only
    rcases zombieChild k.procs cur with _ | _ | ⟨pp, child⟩
    · rfl
    · dsimp only
      rw [Option.map_map, Option.map_map]
      rfl
    · simp only [map_some, taskDestroy_table]
      rfl

theorem sysWait_table {k : Kernel} (hc : k.procs.sched.current = some cur) (statusPtr : BitVec 64) :
    (k.sysWait cur statusPtr).map (fun r => r.1.table) = (k.table.sysWait (k.statusOk statusPtr)).map Prod.fst := by
  unfold Kernel.sysWait TaskTable.sysWait Kernel.statusOk
  rw [hc]
  dsimp only
  by_cases hp : statusPtr = 0#64
  · simp only [hp, ne_eq, not_true_eq_false, false_and, if_false, BEq.rfl, Bool.true_or, if_true]
    exact taskWait_table
  · by_cases hv : validateUserPointer k.vmm (k.spaceOf cur) statusPtr 4#64 = true
    · simp only [hv, Bool.true_eq_false, and_false, if_false, Bool.or_true, if_true]
      exact taskWait_table
    · simp [hp, hv]

theorem sysExecve_table {k : Kernel} (hc : k.procs.sched.current = some cur) (elfAddr elfSize : BitVec 64)
    (block : Option SpacePtr) : (k.sysExecve elfAddr elfSize block).1.table = k.table := by
  unfold sysExecve
  rw [hc]
  dsimp only
  split
  · rfl
  · cases block with
    | none => rfl
    | some p =>
      dsimp only
      split
      · rfl
      · split
        split
        · rfl
        · generalize mapUserStack _ _ _ = stack
          cases k.addressSpace cur with
          | none => rfl
          | some old => rfl

theorem tick_table {k k' : Kernel} (hs : k.tick = some k') : TreeOp.step k.table .tick = some k'.table := by
  unfold Kernel.tick at hs
  obtain ⟨s, htick, rfl⟩ := map_eq_some_iff.mp hs
  have htable : step k.table .tick = some { k.table with procs := { k.procs with sched := s } } := by
    unfold TreeOp.step TreeOp.byTask
    dsimp only
    change Option.map _ (schedulerTick k.procs.sched) = _
    rw [htick]
    rfl
  rw [htable]
  have hswitch : ∀ (k1 : Kernel) (as : AddressSpace), (k1.vmmSwitchAddressSpace as).table = k1.table := by
    intro k1 as
    unfold vmmSwitchAddressSpace
    split <;> rfl
  dsimp only
  split
  · split
    · rfl
    · split
      · rw [hswitch]
        rfl
      · rfl
  · rfl

end ProcessTreeAux

/-- A step of the kernel is a step of its task table, or leaves that as it is. -/
def KernelOp.StepsTable (k : Kernel) (op : KernelOp) (k' : Kernel) : Prop :=
  match op.treeOp k with
  | some top => top.step k.table = some k'.table
  | none => k'.table = k.table

theorem stepsTable_of_step {k k' : Kernel} {op : KernelOp} (hs : KernelOp.step k op = some k') : op.StepsTable k k' := by
  unfold KernelOp.StepsTable
  by_cases htick : op = .tick
  · subst htick
    exact tick_table hs
  obtain ⟨cur, hc, hu, hz, hrun⟩ := TaskSpacesAux.step_byTask hs htick
  cases op with
  | tick => exact absurd rfl htick
  | fork b =>
    obtain ⟨hfree, hrun⟩ := ite_none_right_eq_some.mp hrun
    cases hrun
    refine (step_iff (by simp)).mpr ⟨cur, ⟨hc, hu, hz⟩, ?_⟩
    unfold byTask
    dsimp only
    rw [if_pos, sysFork_table hc]
    exact hfree.1
  | execve elfAddr elfSize block =>
    obtain ⟨hfree, hrun⟩ := ite_none_right_eq_some.mp hrun
    cases hrun
    exact sysExecve_table hc elfAddr elfSize block
  | wait statusPtr =>
    obtain ⟨res, hres, rfl⟩ := map_eq_some_iff.mp hrun
    refine (step_iff (by simp)).mpr ⟨cur, ⟨hc, hu, hz⟩, ?_⟩
    unfold byTask
    dsimp only
    rw [← sysWait_table hc, hres]
    rfl
  | exit code =>
    obtain ⟨p, hp, rfl⟩ := map_eq_some_iff.mp hrun
    refine (step_iff (by simp)).mpr ⟨cur, ⟨hc, hu, hz⟩, ?_⟩
    unfold byTask
    change Option.map _ (taskExit k.procs code) = _
    rw [hp]
    rfl
  | write v b =>
    unfold KernelOp.byTask at hrun
    dsimp only at hrun
    split at hrun
    · cases hrun
      rfl
    · cases hrun

/-- In a run of the kernel whose steps keep the tree, each is a step of the task table, and the sibling lists and the parent pointers
agree in every state. -/
theorem kernel_tree_consistent {k0 : Kernel} (h0 : Booted k0.table) (ops : List KernelOp)
    (ha : Each KernelOp.step (fun k op _ => ∀ top, op.treeOp k = some top → top.KeepsTree k.table) k0 ops) :
    Each KernelOp.step (fun k op k' => op.StepsTable k k' ∧ k'.table.TreeOk k0.taskList) k0 ops := by
  refine Each.of_inv (I := fun k => Roster k.table ∧ ∃ kids, Family k0.table.taskList k.table kids)
    (fun k op k' hI hs hop => ?_) ⟨h0.roster, fun _ => [], h0.family⟩ ha
  obtain ⟨hr, kids, hf⟩ := hI
  have htable := stepsTable_of_step hs
  refine and_left_comm.mp ⟨htable, ?_⟩
  unfold KernelOp.StepsTable at htable
  cases htop : op.treeOp k with
  | none =>
    rw [htop] at htable
    dsimp only at htable
    rw [htable]
    exact ⟨⟨hr, kids, hf⟩, treeOk hf⟩
  | some top =>
    rw [htop] at htable
    obtain ⟨hr', kids', hf', -⟩ := tree_step hr hf (hop top htop) htable
    exact ⟨⟨hr', kids', hf'⟩, treeOk hf'⟩

/-- The idle task 1 and the init task 2, which has been added to the scheduler. -/
def bootTable : TaskTable where
  procs := { bootProcs with
    sched := schedulerAddTask bootProcs.sched (some 2)
    procs := fun t => ⟨if t = 2 then 1 else 0, 0, none, none, none, false⟩
    initTask := some 2 }
  nextPid := 2
  taskList := [2]
  isKernel := fun t => t == 1

theorem bootTable_booted : Booted bootTable := by
  have hself : bootTable.state 2 = .ready := (mlfqEnqueue_self _ (levelIdx_val 0)).1
  have hidle : bootTable.state 1 = .running := by decide +kernel
  have hstate : ∀ t, t ≠ 1 → t ≠ 2 → bootTable.state t = .created := by
    intro t h1 h2
    refine (mlfqEnqueue_state _ 0 h2).trans ?_
    exact init_state (fun _ => ⟨.created, 0, 0, 0, none⟩) h1
  have hmem : ∀ t, t ∈ bootTable.tasks ↔ t = 1 ∨ t = 2 := by
    intro t
    rw [TaskTable.mem_tasks]
    change some (1 : TaskPtr) = some t ∨ t ∈ [2] ↔ _
    simp [eq_comm]
  refine ⟨⟨?_, fun t ht => ?_, fun t ht => ?_, by decide, fun t ht => ?_, fun t ht => ?_⟩, fun _ _ => rfl, fun _ _ => rfl,
    fun i hi => ?_, fun t ht => ?_⟩
  · have hboot : schedulerInit (fun _ => ⟨.created, 0, 0, 0, none⟩) (some 1) = some bootProcs.sched := rfl
    obtain ⟨qs, hi⟩ := schedInv_init hboot
    have hout : bootProcs.sched.mlfq.Unqueued 2 := unqueued_of_only (i := 1) (by decide) (by decide +kernel) (by decide +kernel)
    exact ⟨_, _, hi.addTask (fun hq => hq.elim (hi.rep.unqueued_iff.1 hout))⟩
  · obtain rfl := some.inj (show some 1 = some t from ht)
    exact (hmem 1).mpr (.inl rfl)
  · rw [hmem, not_or] at ht
    exact .inl (hstate t ht.1 ht.2)
  · obtain rfl := some.inj (show some 1 = some t from ht)
    rfl
  · -- there is no zombie
    by_cases h1 : t = 1
    · subst h1
      cases hidle.symm.trans ht
    · by_cases h2 : t = 2
      · subst h2
        cases hself.symm.trans ht
      · cases (hstate t h1 h2).symm.trans ht
  · obtain rfl := some.inj (show some 2 = some i from hi)
    exact ⟨mem_singleton.mpr rfl, rfl, by rw [hself]; decide⟩
  · rcases (hmem t).mp ht with rfl | rfl
    · rw [hidle]
      decide
    · rw [hself]
      decide

/-- The idle task and the init task, whose address space is empty. -/
def bootKernel : Kernel :=
  { TaskSpacesAux.sampleKernel with
    procs := bootTable.procs, nextPid := 2, taskList := [2], isKernel := bootTable.isKernel
    vmm := emptyVmm.alloc 2 (newPml4 emptyVmm)
    addressSpace := fun t => if t = 2 then some 0x20#64 else some 0x10#64 }

/-- The init task becomes current, forks task 3 and waits. -/
theorem kernel_tree_consistent_boot : Booted bootKernel.table ∧
    Each KernelOp.step (fun k op k' => op.StepsTable k k' ∧ k'.table.TreeOk [2]) bootKernel
      (replicate 16 .tick ++ [.fork ⟨some 3, true, some 0x30#64⟩, .wait 0#64]) := by
  have h : Booted bootKernel.table := bootTable_booted
  have hview : (run KernelOp.step bootKernel (replicate 16 .tick)).map (fun k =>
      (k.forkEnd ⟨some 3, true, some 0x30#64⟩, k.nextPid)) = some (.done, 2) := by
    decide +kernel
  refine ⟨h, kernel_tree_consistent h _ ((Each.of_mem fun op hop k k' top htop => ?_).append fun k hk => ?_)⟩
  · rw [eq_of_mem_replicate hop] at htop
    cases htop
    trivial
  · rw [hk] at hview
    obtain ⟨hend, hpid⟩ := Prod.mk.inj (some.inj hview)
    cases hs : KernelOp.step k (.fork ⟨some 3, true, some 0x30#64⟩) with
    | none => exact each_cons_none hs
    | some k' =>
      rw [each_cons_some hs]
      refine ⟨fun top htop => ?_, Each.of_mem fun op hop k k' top htop => ?_⟩
      · cases htop
        exact fun _ => ⟨by rw [hend]; decide, by rw [show k.table.nextPid = 2 from hpid]; decide⟩
      · rw [mem_singleton.mp hop] at htop
        cases htop
        trivial

/-- The init task becomes current when the quantum of the idle task is over. -/
def initRuns : List TreeOp := List.replicate 16 .tick

/-- The init task, once it is current, forks a task and waits. -/
theorem initRuns_fork_wait {P : TaskTable → TreeOp → TaskTable → Prop} (htick : ∀ k k', P k .tick k')
    (hfork : ∀ k k', k.nextPid = 2 → P k (.fork (some 3) .done) k') (hwait : ∀ k k', P k (.wait true) k') :
    Each TreeOp.step P bootTable (initRuns ++ [.fork (some 3) .done, .wait true]) := by
  have hview : (run TreeOp.step bootTable initRuns).map TaskTable.nextPid = some 2 := by decide +kernel
  refine (Each.of_mem fun op hop k k' => ?_).append fun k hk => ?_
  · rw [eq_of_mem_replicate hop]
    exact htick k k'
  · rw [hk] at hview
    cases hs : step k (.fork (some 3) .done) with
    | none => exact each_cons_none hs
    | some k1 =>
      rw [each_cons_some hs]
      refine ⟨hfork k k1 (some.inj hview), Each.of_mem fun op hop k k' => ?_⟩
      rw [mem_singleton.mp hop]
      exact hwait k k'

/-- In a run whose steps keep the tree, the sibling lists and the parent pointers agree in every state. -/
theorem process_tree_consistent {k₀ : TaskTable} (h₀ : Booted k₀) (ops : List TreeOp)
    (ha : Each TreeOp.step (fun k op _ => op.KeepsTree k) k₀ ops) :
    k₀.TreeOk k₀.taskList ∧ Each TreeOp.step (fun _ _ k => k.TreeOk k₀.taskList) k₀ ops := by
  refine ⟨treeOk h₀.family, ?_⟩
  refine Each.of_inv (I := fun k => Roster k ∧ ∃ kids, Family k₀.taskList k kids) (fun k op k' hI hs hop => ?_)
    ⟨h₀.roster, _, h₀.family⟩ ha
  obtain ⟨hr, kids, hf⟩ := hI
  obtain ⟨hr', kids', hf', -⟩ := tree_step hr hf hop hs
  exact ⟨⟨hr', kids', hf'⟩, treeOk hf'⟩

/-- The init task forks a task and waits for it. -/
theorem process_tree_consistent_fork :
    Booted bootTable ∧ Each TreeOp.step (fun _ _ k => k.TreeOk [2]) bootTable (initRuns ++ [.fork (some 3) .done, .wait true]) := by
  refine ⟨bootTable_booted, (process_tree_consistent bootTable_booted _ (initRuns_fork_wait ?_ ?_ ?_)).2⟩
  · exact fun _ _ => trivial
  · exact fun k _ hpid _ => ⟨by decide, by rw [hpid]; decide⟩
  · exact fun _ _ => trivial

/-- The clone of the address space fails: the child has been destroyed and is still the first child of its parent. -/
theorem failed_fork_dangling_child :
    Booted bootTable ∧ ¬ Each TreeOp.step (fun _ _ k => k.TreeOk [2]) bootTable (initRuns ++ [.fork (some 3) .cloneFails]) := by
  have hview : (run step bootTable (initRuns ++ [.fork (some 3) .cloneFails])).map (fun k =>
      ((k.procs.procs 2).children, k.taskList)) = some (some 3, [2]) := by
    decide +kernel
  refine ⟨bootTable_booted, not_each_of_run (fun _ _ _ h => h) (treeOk bootTable_booted.family) hview ?_⟩
  rintro k hk ⟨kids, hkids, -⟩
  rw [Prod.mk.injEq] at hk
  obtain ⟨hlinked, hlive⟩ := hkids 2 (mem_tasks.mpr (.inr (by rw [hk.2]; decide)))
  rw [hk.1] at hlinked
  cases hkids2 : kids 2 with
  | nil =>
    rw [hkids2] at hlinked
    cases hlinked
  | cons c cs =>
    rw [hkids2] at hlinked hlive
    obtain rfl : (3 : TaskPtr) = c := some.inj hlinked.1
    have hmem := (hlive 3 mem_cons_self).1
    rw [hk.2] at hmem
    exact absurd hmem (by decide)

/-- In a run whose steps lose no wake-up, no blocked task has a zombie among its children, every zombie stays one until the `sys_wait`
that reaps it, and it is known when `sys_wait` returns -1. -/
theorem wait_protocol {k₀ : TaskTable} (h₀ : Booted k₀) (ops : List TreeOp)
    (ha : Each TreeOp.step (fun k op _ => op.KeepsWakeups k) k₀ ops) :
    (k₀.Quiet ∧ k₀.Answers) ∧ Each TreeOp.step (fun k op k' => (k'.Quiet ∧ k'.Answers) ∧ op.Reaps k k') k₀ ops := by
  refine ⟨⟨quiet_of_waits h₀.family h₀.waits, answers_of_waits h₀.roster h₀.family h₀.waits⟩, ?_⟩
  refine Each.of_inv (I := fun k => Roster k ∧ ∃ kids, Family k₀.taskList k kids ∧ Waits k₀.taskList k kids)
    (fun k op k' hI hs hop => ?_) ⟨h₀.roster, _, h₀.family, h₀.waits⟩ ha
  obtain ⟨hr, kids, hf, hw⟩ := hI
  obtain ⟨hr', kids', hf', hwake⟩ := tree_step hr hf (keepsTree_of_keepsWakeups hop) hs
  obtain ⟨hw', hreaps⟩ := hwake hw hop
  exact ⟨⟨hr', kids', hf', hw'⟩, ⟨quiet_of_waits hf' hw', answers_of_waits hr' hf' hw'⟩, hreaps⟩

/-- The init task forks a task and waits for it. The task exits, and the init task, which is woken, reaps it. -/
theorem wait_protocol_fork :
    Booted bootTable ∧ Each TreeOp.step (fun k op k' => (k'.Quiet ∧ k'.Answers) ∧ op.Reaps k k') bootTable
      (initRuns ++ [.fork (some 3) .done, .wait true] ++ [.tick, .tick] ++ [.exit 7, .tick, .tick, .wait true]) := by
  have hview : (run step bootTable (initRuns ++ [.fork (some 3) .done, .wait true] ++ [.tick, .tick])).map (fun k =>
      (k.procs.sched.current, decide (∀ l, (k.procs.sched.mlfq.queues l).head = if l = 3 then some 1 else none),
        k.procs.sched.mlfq.next 1, (k.procs.procs 3).children, k.taskList.map fun c => (k.procs.procs c).parent)) =
      some (some 3, true, none, none, [some 2, none]) := by
    decide +kernel
  refine ⟨bootTable_booted, (wait_protocol bootTable_booted _ (((initRuns_fork_wait ?_ ?_ ?_).append fun k _ => ?_).append
    fun k hk => ?_)).2⟩
  · exact fun _ _ => trivial
  · exact fun k _ hpid _ => ⟨by decide, by rw [hpid]; decide, by rw [hpid]; decide⟩
  · exact fun _ _ => trivial
  · refine Each.of_mem fun op hop k k' => ?_
    rw [eq_of_mem_replicate (n := 2) hop]
    trivial
  · -- task 3 runs, only the idle task is queued, and no task is a child of task 3
    rw [hk, Option.map_some, Option.some.injEq] at hview
    simp only [Prod.mk.injEq] at hview
    obtain ⟨hcur, hheads, hnext, hchildren, hparents⟩ := hview
    have hexit : (TreeOp.exit 7).KeepsWakeups k := by
      intro cur hc
      obtain rfl : 3 = cur := some.inj (hcur.symm.trans hc)
      refine ⟨unqueued_of_only (by decide) hnext (of_decide_eq_true hheads), .inl hchildren, fun c i hz => ?_⟩
      have hmem := mem_map_of_mem (f := fun c => (k.procs.procs c).parent) hz.1
      rw [hparents, hz.2.1] at hmem
      exact absurd hmem (by decide)
    cases hs : step k (.exit 7) with
    | none => exact each_cons_none hs
    | some k' =>
      rw [each_cons_some hs]
      refine ⟨hexit, Each.of_mem fun op hop k k' => ?_⟩
      fin_cases hop <;> trivial

namespace ProcessTreeAux

/-- The init task 2 forks 3, which forks 4, which forks 5. Task 5 exits, the init task waits, and task 4 exits. -/
def lostWakeup : List TreeOp :=
  initRuns ++ .fork (some 3) .done :: List.replicate 2 .tick ++ .fork (some 4) .done :: List.replicate 2 .tick ++
    .fork (some 5) .done :: List.replicate 2 .tick ++ .exit 7 :: List.replicate 2 .tick ++ .wait true :: List.replicate 8 .tick ++
    [.exit 0]

end ProcessTreeAux

/-- A zombie becomes a child of the init task while that is blocked, and nothing wakes it; and `sys_wait` returns -1 to a task that has
a child. -/
theorem wakeup_lost :
    Booted bootTable ∧ ¬ Each TreeOp.step (fun _ _ k => k.Quiet) bootTable lostWakeup ∧
    (run TreeOp.step bootTable (initRuns ++ [.fork (some 3) .done])).bind (fun k => (k.sysWait true).map (fun res =>
      (k.procs.sched.current, (k.procs.procs 2).children, res.2.1))) = some (some 2, some 3, -1) := by
  have hview : (run step bootTable lostWakeup).map (fun k => (k.taskList, k.state 2, (k.procs.procs 5).parent, k.state 5)) =
      some ([5, 4, 3, 2], .blocked, some 2, .zombie) := by
    decide +kernel
  refine ⟨bootTable_booted, not_each_of_run (fun _ _ _ h => h) ?_ hview ?_, by decide +kernel⟩
  · exact quiet_of_waits bootTable_booted.family bootTable_booted.waits
  · intro k hk hquiet
    simp only [Prod.mk.injEq] at hk
    obtain ⟨hlist, hblocked, hparent, hzombie⟩ := hk
    refine hquiet 2 (mem_tasks.mpr (.inr (by rw [hlist]; decide))) hblocked 5 ⟨?_, hparent, hzombie⟩
    rw [hlist]
    decide

end TsOs
