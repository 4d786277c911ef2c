import TsOs.Lib.Runs
import TsOs.Theorems.TaskExit

/-!
# When the idle task runs

`scheduler_init` queues the idle task at level 3, "lowest priority", so that it "runs only when nothing else is ready". It is the
lowest only while it is alone there. A task that has used up its quantum at level 2 goes behind it in the list of level 3, and a
boost puts it in the list of level 0, ahead of every task that is queued later.
-/

namespace TsOs

open MlfqAux SchedulerAux TaskExitAux Runs Function List Option

/-- The quantum of the current task ends with the tick that comes: one tick is left of it once `mlfq_tick` has been called. -/
def Scheduler.quantumEnds (s : Scheduler) : Bool :=
  match s.current, mlfqTick s.mlfq with
  | some cur, some m => (m.tasks cur).remainingTicks ≤ 1
  | _, _ => false

/-- A call that makes the idle task current, or keeps it current at the end of its quantum, is a tick that leaves no other task
ready. -/
def IdleAlone (i : TaskPtr) (s : Scheduler) (op : SchedOp) (s' : Scheduler) : Prop :=
  op = .tick → s'.current = some i → (s.current ≠ some i ∨ s.quantumEnds = true) →
    ∀ t, t ≠ i → (s'.mlfq.tasks t).state ≠ .ready

/-- The calls that leave the idle task behind all others: a task that is added is in no queue and is not the idle task; the idle
task is not woken up; at a tick, the idle task is in no queue when a boost is due, and no other task ends its quantum below level
1. No task is removed. -/
def SchedOp.KeepsIdleLast (i : TaskPtr) (s : Scheduler) : SchedOp → Prop
  | .add task => ∀ t, task = some t → t ≠ i ∧ s.mlfq.Unqueued t
  | .tick => (s.mlfq.BoostDue → s.mlfq.Unqueued i) ∧ ∀ cur, s.current = some cur → cur ≠ i →
      (s.mlfq.tasks cur).state ≠ .running ∨ 1 < (s.mlfq.tasks cur).remainingTicks ∨ (s.mlfq.tasks cur).mlfqLevel ≤ 1
  | .block => True
  | .wake task => task ≠ some i
  | .remove _ => False

/-- The idle task is alone at level 3, and in no other list. -/
structure IdleLast (i : TaskPtr) (s : Scheduler) (qs : Queues) : Prop where
  sched : SchedInv s (fun _ => True) qs
  idle : s.idle = some i
  low : ∀ l, i ∈ qs l → l = 3
  only : ∀ t ∈ qs 3, t = i
  level : (s.mlfq.tasks i).mlfqLevel = 3

variable {i t : TaskPtr} {qs : Queues}

namespace IdleTaskAux

theorem lists_append {l : Level} (hlow : ∀ k, i ∈ qs k → k = 3) (honly : ∀ u ∈ qs 3, u = i) (hne : t ≠ i) (hl : l ≠ 3) :
    (∀ k, i ∈ update qs l (qs l ++ [t]) k → k = 3) ∧ ∀ u ∈ update qs l (qs l ++ [t]) 3, u = i := by
  constructor
  · intro k hk
    by_cases he : k = l
    · subst he
      rw [update_self, mem_append, mem_singleton] at hk
      exact hlow k (hk.resolve_right (Ne.symm hne))
    · rw [update_of_ne he] at hk
      exact hlow k hk
  · intro u hu
    rw [update_of_ne (Ne.symm hl)] at hu
    exact honly u hu

theorem lists_without (hlow : ∀ k, i ∈ qs k → k = 3) (honly : ∀ u ∈ qs 3, u = i) (t : TaskPtr) :
    (∀ k, i ∈ without qs t k → k = 3) ∧ ∀ u ∈ without qs t 3, u = i :=
  ⟨fun k hk => hlow k (mem_of_mem_erase hk), fun u hu => honly u (mem_of_mem_erase hu)⟩

theorem setState_level (s : Mlfq) (t u : TaskPtr) (v : TaskState) :
    ((s.setState t v).tasks u).mlfqLevel = (s.tasks u).mlfqLevel := modify_level s t u (fun _ => rfl)

end IdleTaskAux

open IdleTaskAux

/-! ## The calls that queue or block a task -/

variable {s : Scheduler}

section

variable (h : IdleLast i s qs)
include h

theorem IdleLast.enqueue (hne : t ≠ i)
    (ht : ¬ Queued qs t) {m : Mlfq} (hm : Rep m qs) (hst : ∀ u, u ≠ t → (m.tasks u).state = (s.mlfq.tasks u).state)
    (hlv : (m.tasks i).mlfqLevel = 3) (n : Nat) :
    IdleLast i { s with mlfq := mlfqEnqueue m (some t) 0, readyCount := n } (update qs 0 (qs 0 ++ [t])) := by
  obtain ⟨hlow, honly⟩ := lists_append h.low h.only hne (show (0 : Level) ≠ 3 by decide)
  refine ⟨?_, h.idle, hlow, honly, ?_⟩
  · exact ((h.sched.enqueue ht hm hst).mono (fun _ _ => Or.inr trivial)).congr rfl rfl rfl
  · exact ((unlinked_fields (mlfqEnqueue_unlinked m 0 (Ne.symm hne))).2.1).trans hlv

theorem IdleLast.addTask (hne : t ≠ i)
    (ht : ¬ Queued qs t) : ∃ qs', IdleLast i (schedulerAddTask s (some t)) qs' :=
  ⟨_, h.enqueue hne ht h.sched.rep (fun _ _ => rfl) h.level _⟩

theorem IdleLast.wakeTask (hne : t ≠ i) :
    ∃ qs', IdleLast i (schedulerWakeTask s (some t)) qs' := by
  simp only [schedulerWakeTask]
  split
  · exact ⟨qs, h⟩
  · rename_i hb
    rw [not_not] at hb
    have ht : ¬ Queued qs t := by
      intro hq
      rcases h.sched.queued t hq with hs | ⟨hs, _⟩ <;> cases hb.symm.trans hs
    refine ⟨_, h.enqueue hne ht (rep_setState h.sched.rep t .ready) (fun u hu => ?_) ?_ _⟩
    · rw [setState_of_ne _ _ hu]
    · rw [setState_of_ne _ _ (Ne.symm hne)]
      exact h.level

theorem IdleLast.retire (t : TaskPtr) {v : TaskState}
    (hv : v ≠ .ready) : ∃ m, mlfqDequeue s.mlfq (some t) = some m ∧ (∀ u, (m.tasks u).state = (s.mlfq.tasks u).state) ∧
      IdleLast i { s with mlfq := m.setState t v } (without qs t) := by
  obtain ⟨m, hd, hst, hi⟩ := h.sched.retire t hv
  obtain ⟨m', hd', _, hf⟩ := h.sched.rep.dequeue t
  obtain rfl : m' = m := some.inj (hd'.symm.trans hd)
  obtain ⟨hlow, honly⟩ := lists_without h.low h.only t
  refine ⟨m', hd, hst, hi, h.idle, hlow, honly, ?_⟩
  rw [setState_level, (unlinked_fields (hf i)).2.1]
  exact h.level

theorem IdleLast.blockCurrent :
    ∃ s' qs', blockCurrent s = some s' ∧ IdleLast i s' qs' := by
  unfold TsOs.blockCurrent
  cases hc : s.current with
  | none => exact ⟨s, qs, rfl, h⟩
  | some cur =>
    simp only [schedulerUnqueueTask]
    split
    · rename_i hs
      have ht : ¬ Queued qs cur := by
        intro hq
        rcases h.sched.queued cur hq with he | ⟨he, _⟩
        · exact hs.2 he
        · exact hs.1 he
      refine ⟨_, qs, rfl, h.sched.setState ht (by decide), h.idle, h.low, h.only, ?_⟩
      rw [setState_level]
      exact h.level
    · obtain ⟨m, hd, _, hi⟩ := h.retire cur (v := .blocked) (by decide)
      rw [hd]
      refine ⟨_, without qs cur, rfl, ?_, ?_, hi.low, hi.only, ?_⟩
      · exact hi.sched.congr (by simp) (by simp) (by simp)
      · simpa using hi.idle
      · simpa using hi.level

/-! ## Ticks -/

/-- When the idle task is chosen, no other task is queued. -/
theorem IdleLast.pick
    (hp : (mlfqPickHighest s.mlfq).or s.idle = some i) : ∀ t, t ≠ i → ¬ Queued qs t := by
  rintro t hne ⟨l, hl⟩
  -- the first list that is not empty lies above level 3, and its head is chosen
  obtain ⟨k, hk, hmin⟩ := WellFounded.has_min (wellFounded_lt (α := Level)) {k | qs k ≠ []} ⟨l, ne_nil_of_mem hl⟩
  have hlow : ∀ j, j < k → qs j = [] := by
    intro j hj
    by_contra hne
    exact hmin j hne hj
  have hl3 : l ≠ 3 := by
    rintro rfl
    exact hne (h.only t hl)
  have hk3 : k ≠ 3 := by
    rintro rfl
    have hlt : l < 3 := by
      have hv : l.val ≠ 3 := fun e => hl3 (Fin.ext e)
      exact Fin.lt_def.2 (show l.val < 3 by omega)
    exact hmin l (ne_nil_of_mem hl) hlt
  obtain ⟨x, xs, hx⟩ := exists_cons_of_ne_nil hk
  rw [h.sched.rep.pickHighest_some hk hlow, hx] at hp
  obtain rfl : x = i := some.inj hp
  exact hk3 (h.low k (by rw [hx]; exact mem_cons_self))

/-- The choice of the next task, when every queued task is ready. -/
theorem IdleLast.switchFrom {prev : TaskPtr}
    (hc : s.current = some prev) (hr : ∀ t, Queued qs t → (s.mlfq.tasks t).state = .ready) :
    ∃ s' qs', switchFrom s prev = some s' ∧ IdleLast i s' qs' ∧
      (s'.current = some i → ∀ t, t ≠ i → (s'.mlfq.tasks t).state ≠ .ready) := by
  obtain ⟨s', qs', hs, hi⟩ := h.sched.switchFrom hc hr
  refine ⟨s', ?_⟩
  unfold TsOs.switchFrom at hs ⊢
  -- the idle task is there when no task is queued
  cases hn : (mlfqPickHighest s.mlfq).or s.idle with
  | none =>
    rw [h.idle] at hn
    simp at hn
  | some next =>
    rw [hn] at hs
    simp only at hs ⊢
    have hother : next = i → ∀ t, t ≠ i → (s.mlfq.tasks t).state ≠ .ready := by
      intro he t ht hst
      exact h.pick (hn.trans (congrArg some he)) t ht (h.sched.ready t trivial hst)
    by_cases e : next = prev
    · rw [if_pos e] at hs ⊢
      cases hs
      have hq := (rep_setState h.sched.rep prev .running).unique hi.rep
      refine ⟨qs, rfl, ⟨hq ▸ hi, h.idle, h.low, h.only, (setState_level _ _ _ _).trans h.level⟩, fun hcur t ht => ?_⟩
      have hprev : prev = i := some.inj (hc.symm.trans hcur)
      subst hprev
      rw [setState_of_ne _ _ ht]
      exact hother e t ht
    · rw [if_neg e] at hs ⊢
      obtain ⟨m, hd, hst, hl⟩ := h.retire next (v := .running) (by decide)
      rw [hd, map_some] at hs ⊢
      cases hs
      have hq := hl.sched.rep.unique hi.rep
      refine ⟨without qs next, rfl, ⟨hq ▸ hi, h.idle, hl.low, hl.only, hl.level⟩, fun hcur t ht => ?_⟩
      have hnext : next = i := some.inj hcur
      subst hnext
      rw [setState_of_ne _ _ ht, hst]
      exact hother rfl t ht

/-- The decay of the running task: the idle task stays at level 3, and another one goes to a level above. -/
theorem IdleLast.decay {prev : TaskPtr}
    (hc : s.current = some prev) (hrun : (s.mlfq.tasks prev).state = .running)
    (hlv : prev ≠ i → (s.mlfq.tasks prev).mlfqLevel ≤ 1) :
    ∃ m qs', mlfqDecay s.mlfq (some prev) = some m ∧ IdleLast i { s with mlfq := m } qs' ∧
      ∀ t, Queued qs' t → (m.tasks t).state = .ready := by
  obtain ⟨m, qs', hd, hi, hr⟩ := h.sched.decay hc hrun
  obtain ⟨m1, hd1, hr1, hf1⟩ := h.sched.rep.dequeue prev
  obtain ⟨m', hd', hin, hout, _⟩ := h.sched.rep.decay prev
  obtain rfl : m' = m := some.inj (hd'.symm.trans hd)
  have hm : m' = mlfqEnqueue m1 (some prev) (decayLevel (s.mlfq.tasks prev).mlfqLevel) := by
    rw [mlfqDecay_eq, hd1] at hd
    exact (some.inj hd).symm
  obtain ⟨hlow, honly⟩ := lists_without h.low h.only prev
  refine ⟨m', qs', hd, ?_, hr⟩
  by_cases he : prev = i
  · subst he
    have hlevel : decayLevel (s.mlfq.tasks prev).mlfqLevel = 3 := by
      rw [h.level]
      decide
    rw [hlevel] at hin hm
    have hq := (hin 3 (levelIdx_val 3)).1.unique hi.rep
    subst hq
    refine ⟨hi, h.idle, fun k hk => ?_, fun u hu => ?_, ?_⟩
    · by_contra hk3
      rw [update_of_ne hk3] at hk
      exact h.sched.rep.notMem_without prev k hk
    · rw [update_self, mem_append, mem_singleton] at hu
      exact hu.elim (honly u) id
    · rw [hm]
      exact (mlfqEnqueue_self m1 (levelIdx_val 3)).2
  · have hlevel : (m'.tasks i).mlfqLevel = 3 := by
      rw [hm, (unlinked_fields (mlfqEnqueue_unlinked m1 _ (Ne.symm he))).2.1,
        (unlinked_fields (hf1 i)).2.1]
      exact h.level
    cases hl : levelIdx (decayLevel (s.mlfq.tasks prev).mlfqLevel) with
    | none =>
      have hq := (hout hl).1.unique hi.rep
      subst hq
      exact ⟨hi, h.idle, hlow, honly, hlevel⟩
    | some l =>
      have hq := (hin l hl).1.unique hi.rep
      subst hq
      have hl3 : l ≠ 3 := by
        rintro rfl
        have hv := levelIdx_eq_some hl
        have := hlv he
        unfold decayLevel at hv
        omega
      obtain ⟨hlow', honly'⟩ := lists_append hlow honly he hl3
      exact ⟨hi, h.idle, hlow', honly', hlevel⟩

/-- The work of a tick on the queues: no boost moves the idle task. -/
theorem IdleLast.tickQueues (prev : TaskPtr)
    (hboost : s.mlfq.BoostDue → ¬ Queued qs i) : ∃ m qs', mlfqTick s.mlfq = some m ∧
      (∀ t, ((m.modify prev (fun k => { k with remainingTicks := k.remainingTicks - 1 })).tasks t).state =
        (s.mlfq.tasks t).state) ∧
      (∀ t, BoostedFrom qs s.mlfq m t) ∧
      IdleLast i { s with mlfq := m.modify prev (fun k => { k with remainingTicks := k.remainingTicks - 1 }) } qs' := by
  obtain ⟨m, qs', hm, hst, hi⟩ := h.sched.tickQueues prev
  obtain ⟨m', hm', hr, _, hf⟩ := h.sched.rep.tick_lists
  obtain rfl : m' = m := some.inj (hm'.symm.trans hm)
  have hq := (rep_modify hr prev (f := fun k => { k with remainingTicks := k.remainingTicks - 1 }) (fun _ => rfl)
    (fun _ => rfl)).unique hi.rep
  have hlevel : (m'.tasks i).mlfqLevel = 3 := by
    rcases hf i with ⟨hlv, _⟩ | ⟨hmem, hlv, _⟩
    · exact hlv.trans h.level
    · -- a task that a boost moves was queued, at the level it had
      have hdue : ¬ s.mlfq.BoostDue := fun hdue => hboost hdue hmem
      unfold mlfqTick at hm
      rw [if_neg (show ¬ _ ≥ _ from hdue)] at hm
      rw [← some.inj hm]
      exact h.level
  refine ⟨m', qs', hm, hst, hf, hi, h.idle, ?_, ?_, ?_⟩
  · intro l hl
    rw [← hq] at hl
    split at hl
    · rename_i hdue
      exact absurd (mem_boosted.1 ⟨l, hl⟩) (hboost hdue)
    · exact h.low l hl
  · intro t ht
    rw [← hq] at ht
    split at ht
    · cases ht
    · exact h.only t ht
  · rw [modify_level]
    · exact hlevel
    · exact fun _ => rfl

theorem IdleLast.tick
    (hboost : s.mlfq.BoostDue → ¬ Queued qs i) (hlv : ∀ cur, s.current = some cur → cur ≠ i →
      (s.mlfq.tasks cur).state ≠ .running ∨ 1 < (s.mlfq.tasks cur).remainingTicks ∨ (s.mlfq.tasks cur).mlfqLevel ≤ 1) :
    ∃ s' qs', schedulerTick s = some s' ∧ IdleLast i s' qs' ∧ IdleAlone i s .tick s' := by
  unfold schedulerTick IdleAlone
  rw [h.sched.initialized]
  cases hc : s.current with
  | none =>
    refine ⟨s, qs, rfl, h, fun _ hcur => ?_⟩
    cases hc.symm.trans hcur
  | some prev =>
    obtain ⟨m, qs1, hm, hstate, hf, hi⟩ := h.tickQueues prev hboost
    have hends : s.quantumEnds = decide ((m.tasks prev).remainingTicks ≤ 1) := by
      simp only [Scheduler.quantumEnds, hc, hm]
    have hticks : ((m.modify prev (fun k => { k with remainingTicks := k.remainingTicks - 1 })).tasks prev).remainingTicks =
        (m.tasks prev).remainingTicks - 1 := by
      rw [modify_tasks_self]
    have hlevel : ((m.modify prev (fun k => { k with remainingTicks := k.remainingTicks - 1 })).tasks prev).mlfqLevel =
        (m.tasks prev).mlfqLevel := by
      rw [modify_tasks_self]
    simp only [Bool.not_true, Bool.false_eq_true, if_false, hm, bind_some]
    generalize m.modify prev _ = m1 at hi hstate hticks hlevel ⊢
    rw [hc, h.sched.initialized] at hi
    split
    · -- the quantum goes on
      rename_i hleft
      refine ⟨_, qs1, rfl, hi, fun _ hcur hmade => ?_⟩
      rcases hmade with hne | hend
      · exact absurd hcur hne
      · rw [hends, decide_eq_true_eq] at hend
        omega
    · rename_i hover
      split
      · rename_i hrun
        have hbelow : prev ≠ i → (m1.tasks prev).mlfqLevel ≤ 1 := by
          intro hne
          rcases hlv prev hc hne with hno | hleft | hle
          · exact absurd ((hstate prev).symm.trans hrun) hno
          · rcases hf prev with ⟨_, hsame⟩ | ⟨_, hzero, _⟩ <;> omega
          · rcases hf prev with ⟨hsame, _⟩ | ⟨_, hzero, _⟩ <;> omega
        obtain ⟨m2, qs2, hd, hi2, hr⟩ := hi.decay rfl hrun hbelow
        rw [hd]
        obtain ⟨s', qs', hs, hi', hready⟩ := hi2.switchFrom rfl hr
        exact ⟨s', qs', hs, hi', fun _ hcur _ => hready hcur⟩
      · rename_i hrun
        have hr : ∀ t, Queued qs1 t → (m1.tasks t).state = .ready := by
          intro t ht
          refine (hi.sched.queued t ht).resolve_right (fun hcu => hrun ?_)
          obtain rfl := some.inj hcu.2
          exact hcu.1
        obtain ⟨s', qs', hs, hi', hready⟩ := hi.switchFrom rfl hr
        exact ⟨s', qs', hs, hi', fun _ hcur _ => hready hcur⟩

/-! ## Runs -/

theorem IdleLast.step {op : SchedOp}
    (ha : op.KeepsIdleLast i s) : ∃ s' qs', op.run s = some s' ∧ IdleLast i s' qs' ∧ IdleAlone i s op s' := by
  cases op with
  | add task =>
    cases task with
    | none => exact ⟨s, qs, rfl, h, fun hop => nomatch hop⟩
    | some t =>
      obtain ⟨hne, hun⟩ := ha t rfl
      obtain ⟨qs', h'⟩ := h.addTask hne (fun hq => hq.elim (h.sched.rep.unqueued_iff.1 hun))
      exact ⟨_, qs', rfl, h', fun hop => nomatch hop⟩
  | tick =>
    obtain ⟨hboost, hlv⟩ := ha
    exact h.tick (fun hdue hq => hq.elim (h.sched.rep.unqueued_iff.1 (hboost hdue))) hlv
  | block =>
    obtain ⟨s', qs', hs, h'⟩ := h.blockCurrent
    exact ⟨s', qs', hs, h', fun hop => nomatch hop⟩
  | wake task =>
    cases task with
    | none => exact ⟨s, qs, rfl, h, fun hop => nomatch hop⟩
    | some t =>
      obtain ⟨qs', h'⟩ := h.wakeTask (t := t) (fun he => ha (congrArg some he))
      exact ⟨_, qs', rfl, h', fun hop => nomatch hop⟩
  | remove task => exact ha.elim

end

theorem idleLast_init {tasks : TaskPtr → Task} (hfresh : ∀ t, t ≠ i → (tasks t).state ≠ .ready)
    (h : schedulerInit tasks (some i) = some s) : ∃ qs, IdleLast i s qs := by
  obtain ⟨qs, hi⟩ := schedInv_init h
  cases h
  have hr := (Rep.init tasks).enqueue (t := i) (levelIdx_val 3) (by simp)
  have hq := (rep_setState hr i .running).unique hi.rep
  subst hq
  refine ⟨_, ⟨hi.rep, hi.initialized, hi.queued, fun t _ hst => ?_⟩, rfl, fun l hl => ?_, fun t ht => ?_, ?_⟩
  · by_cases he : t = i
    · subst he
      simp at hst
    · rw [setState_of_ne _ _ he, mlfqEnqueue_state _ _ he] at hst
      exact absurd hst (hfresh t he)
  · by_contra hl3
    rw [update_of_ne hl3] at hl
    cases hl
  · simpa using ht
  · rw [setState_level]
    exact (mlfqEnqueue_self _ (levelIdx_val 3)).2

/-- In a run from `scheduler_init` whose calls leave the idle task behind all others, every tick that makes the idle task current,
or keeps it current at the end of its quantum, leaves no other task ready. -/
theorem idle_runs_alone {tasks : TaskPtr → Task} {i : TaskPtr} (hfresh : ∀ t, t ≠ i → (tasks t).state ≠ .ready) {s₀ : Scheduler}
    (h₀ : schedulerInit tasks (some i) = some s₀) (ops : List SchedOp)
    (ha : Each SchedOp.run (fun s op _ => op.KeepsIdleLast i s) s₀ ops) : Each SchedOp.run (IdleAlone i) s₀ ops := by
  refine Each.of_inv (I := fun s => ∃ qs, IdleLast i s qs) (fun s op s' hI hs hop => ?_) (idleLast_init hfresh h₀) ha
  obtain ⟨qs, h⟩ := hI
  obtain ⟨s1, qs1, hs1, h1, halone⟩ := h.step hop
  obtain rfl : s1 = s' := some.inj (hs1.symm.trans hs)
  exact ⟨⟨qs1, h1⟩, halone⟩

/-- The quantum of the idle task; then the task that runs blocks, and its quantum of two ticks ends. -/
def untilIdle : List SchedOp := replicate 16 .tick ++ [.block, .tick, .tick]

/-- A task is added, runs, and blocks; the idle task becomes current again. -/
theorem idle_runs_alone_first_tick :
    schedulerInit (fun _ => ⟨.created, 0, 0, 0, none⟩) (some 1) = some bootProcs.sched ∧
      Each SchedOp.run (IdleAlone 1) bootProcs.sched (.add (some 5) :: untilIdle) ∧
      (run SchedOp.run bootProcs.sched (.add (some 5) :: untilIdle.take 18)).map (·.current) = some (some 5) ∧
      (run SchedOp.run bootProcs.sched (.add (some 5) :: untilIdle)).map (·.current) = some (some 1) := by
  have hadd : bootProcs.sched.mlfq.Unqueued 5 := unqueued_of_only (i := 1) (by decide) (by decide +kernel) (by decide +kernel)
  refine ⟨rfl, idle_runs_alone (fun _ _ => by decide) rfl (.add (some 5) :: untilIdle) ⟨fun t ht => ?_, ?_⟩, by decide +kernel,
    by decide +kernel⟩
  · cases ht
    exact ⟨by decide, hadd⟩
  -- no boost is due, and task 5 is current at a tick only when it is blocked
  have hops : ∀ k < 19, (run SchedOp.run (schedulerAddTask bootProcs.sched (some 5))
      (untilIdle.take k)).all (fun s =>
        s.mlfq.ticksSinceBoost < 100 && (s.current == some 1 || s.current == some 5 && (k == 16 || (s.mlfq.tasks 5).state != .running))) =
      true := by
    decide +kernel
  show Each SchedOp.run _ (schedulerAddTask bootProcs.sched (some 5)) untilIdle
  refine Each.of_take fun k hk s1 s2 hrun _ => ?_
  have hop := hops k hk
  rw [hrun, Option.all_some] at hop
  simp only [Bool.and_eq_true, Bool.or_eq_true, beq_iff_eq, bne_iff_ne, decide_eq_true_eq] at hop
  obtain ⟨hboost, hcur⟩ := hop
  have hdue : ¬ s1.mlfq.BoostDue := by
    unfold Mlfq.BoostDue mlfqBoostInterval
    omega
  have htick : k ≠ 16 → SchedOp.KeepsIdleLast 1 s1 .tick := by
    refine fun hne => ⟨fun h => absurd h hdue, fun cur hc hne1 => ?_⟩
    rcases hcur with h1 | ⟨h5, h16 | hst⟩
    · exact absurd (some.inj (hc.symm.trans h1)) hne1
    · exact absurd h16 hne
    · rw [some.inj (hc.symm.trans h5)]
      exact .inl hst
  have hget : untilIdle[k] = if k = 16 then .block else .tick := by
    have hall : ∀ k < 19, untilIdle[k]? = some (if k = 16 then .block else .tick) := by decide
    exact some.inj ((getElem?_eq_getElem hk).symm.trans (hall k hk))
  rw [hget]
  split
  · trivial
  · exact htick ‹_›

/-- A task that has used its quanta at the levels 0, 1 and 2, 2 + 4 + 8 ticks after the 16 of the idle task, goes behind the idle
task: the tick switches to the idle task, and the other one is ready. -/
theorem idle_runs_before_ready_task :
    schedulerInit (fun _ => ⟨.created, 0, 0, 0, none⟩) (some 1) = some bootProcs.sched ∧
      ¬ Each SchedOp.run (IdleAlone 1) bootProcs.sched (.add (some 5) :: List.replicate 29 .tick ++ [.tick]) := by
  have hview : (run SchedOp.run bootProcs.sched (.add (some 5) :: replicate 29 .tick)).bind (fun s =>
      (schedulerTick s).map (fun s' => (s.current, s'.current, (s'.mlfq.tasks 5).state))) =
      some (some 5, some 1, .ready) := by
    decide +kernel
  refine ⟨rfl, fun h => ?_⟩
  obtain ⟨s, hrun, hview⟩ := bind_eq_some_iff.mp hview
  obtain ⟨s', htick, hview⟩ := map_eq_some_iff.mp hview
  simp only [Prod.mk.injEq] at hview
  obtain ⟨hcur, hcur', hready⟩ := hview
  refine h.of_snoc hrun htick rfl hcur' (.inl ?_) 5 (by decide) hready
  rw [hcur]
  decide

end TsOs
