import TsOs.ProcessTree
import TsOs.Theorems.ReadyCount

/-!
# Parents and their children

`Roster` says which tasks the scheduler may know, and `Family` that the sibling lists and the parent pointers are two views of one tree.
The lemmas say which updates keep them: the calls of the tasks are made of these.
-/

namespace TsOs

open LinkedList MlfqAux SchedulerAux TaskExitAux ReadyCountAux Function List TaskTable Processes

/-- The tasks of the scheduler. A block in which there is no task was never one or was destroyed, and only a user task exits. -/
structure Roster (k : TaskTable) : Prop where
  sched : Sound k.procs.sched
  current : ∀ t, k.procs.sched.current = some t → t ∈ k.tasks
  strangers : ∀ t, t ∉ k.tasks → k.state t = .created ∨ k.state t = .dead
  nodup : k.taskList.Nodup
  idle : ∀ t, k.procs.sched.idle = some t → k.isKernel t = true
  zombies : ∀ t, k.state t = .zombie → k.isKernel t = false

/-- The tasks with their lists of children: the children of a task exist and have it as their parent, a task that does not stem from
the start, where the tasks were `boot`, is on a list, and a zombie has no children. The init task is one of those of the start. -/
structure Family (boot : List TaskPtr) (k : TaskTable) (kids : TaskPtr → List TaskPtr) : Prop where
  linked : ∀ t ∈ k.tasks, Linked k.sibling (k.procs.procs t).children (kids t)
  live : ∀ t ∈ k.tasks, ∀ c ∈ kids t, c ∈ k.taskList
  parent : ∀ t ∈ k.tasks, ∀ c ∈ kids t, (k.procs.procs c).parent = some t
  placed : ∀ c ∈ k.taskList, c ∉ boot → ∃ t ∈ k.tasks, c ∈ kids t
  oldest : ∀ c ∈ boot, c ∈ k.taskList ∧ (k.procs.procs c).parent = none
  init : ∀ i, k.procs.initTask = some i → i ∈ boot ∧ (k.procs.procs i).pid = 1 ∧ k.state i ≠ .zombie
  childless : ∀ t ∈ k.tasks, k.state t = .zombie → kids t = []

variable {boot : List TaskPtr} {k k' : TaskTable} {kids : TaskPtr → List TaskPtr}

variable {t : TaskPtr}

/-- The links of a task and its process number are the same. -/
structure SameLinks (q q' : Proc) : Prop where
  parent : q'.parent = q.parent
  children : q'.children = q.children
  siblingNext : q'.siblingNext = q.siblingNext
  pid : q'.pid = q.pid

theorem SameLinks.refl (q : Proc) : SameLinks q q := ⟨rfl, rfl, rfl, rfl⟩

theorem TaskTable.mem_tasks : t ∈ k.tasks ↔ k.procs.sched.idle = some t ∨ t ∈ k.taskList := by
  unfold tasks
  simp [Option.mem_toList]

/-- Filling a block in writes no other one. -/
theorem TaskTable.tasks_eq {p : Processes} (h : p.sched.idle = k.procs.sched.idle) :
    TaskTable.tasks { k with procs := p } = k.tasks := by
  unfold tasks
  rw [h]

theorem TaskTable.fillTask_state_of_ne (k : TaskTable) {u : TaskPtr} (hu : u ≠ t) : (k.fillTask t).state u = k.state u := by
  have hmlfq : (k.fillTask t).procs.sched.mlfq = k.procs.sched.mlfq.modify t (fun _ =>
      { state := .created, timeSlice := 5, remainingTicks := 5, mlfqLevel := 0, next := none }) := rfl
  unfold state
  rw [hmlfq, modify_tasks_of_ne _ _ hu]

theorem TaskTable.fillTask_state_self (k : TaskTable) (t : TaskPtr) : (k.fillTask t).state t = .created := by
  have hmlfq : (k.fillTask t).procs.sched.mlfq = k.procs.sched.mlfq.modify t (fun _ =>
      { state := .created, timeSlice := 5, remainingTicks := 5, mlfqLevel := 0, next := none }) := rfl
  unfold state
  rw [hmlfq, modify_tasks_self]

/-! ## The roster -/

namespace Roster

variable (h : Roster k)
include h

theorem zombie_not_idle (ht : k.state t = .zombie) : k.procs.sched.idle ≠ some t := by
  intro hi
  have := h.idle t hi
  rw [h.zombies t ht] at this
  cases this

/-- A task that exists no longer is neither ready, running nor blocked. -/
theorem stranger_not_up (ht : t ∉ k.tasks) :
    ¬ k.procs.sched.Up t ∧ k.state t ≠ .blocked ∧ k.state t ≠ .zombie := by
  have hst := h.strangers t ht
  refine ⟨?_, ?_, ?_⟩
  · rcases hst with he | he <;> exact not_up_of_eq he (by decide) (by decide)
  · rcases hst with he | he <;> rw [he] <;> decide
  · rcases hst with he | he <;> rw [he] <;> decide

theorem reschedule {p : Processes} (hs : Sound p.sched) (hi : p.sched.idle = k.procs.sched.idle)
    (hc : p.sched.current = k.procs.sched.current) (hst : ∀ t, t ∉ k.tasks → (p.sched.mlfq.tasks t).state = k.state t)
    (hz : ∀ t, (p.sched.mlfq.tasks t).state = .zombie → k.state t = .zombie ∨ k.isKernel t = false) :
    Roster { k with procs := p } := by
  have htasks := tasks_eq hi
  refine ⟨hs, ?_, ?_, h.nodup, ?_, fun t ht => ?_⟩
  · rw [htasks, hc]
    exact h.current
  · rw [htasks]
    intro t ht
    have hsame : state { k with procs := p } t = k.state t := hst t ht
    rw [hsame]
    exact h.strangers t ht
  · rw [hi]
    exact h.idle
  · exact (hz t ht).elim (h.zombies t) id

theorem tree {p : Processes} (hp : p.sched = k.procs.sched) : Roster { k with procs := p } := by
  refine h.reschedule (by rw [hp]; exact h.sched) (by rw [hp]) (by rw [hp]) (fun t _ => ?_) (fun t ht => .inl ?_)
  · rw [hp]
    rfl
  · rw [hp] at ht
    exact ht

theorem fillTask (ht : t ∉ k.tasks) : Roster (k.fillTask t) := by
  have hself := k.fillTask_state_self t
  have hother : ∀ u, u ≠ t → (k.fillTask t).state u = k.state u := fun u hu => k.fillTask_state_of_ne hu
  refine ⟨?_, h.current, fun u hu => ?_, h.nodup, fun u hu => ?_, fun u hu => ?_⟩
  · obtain ⟨added, qs, hi⟩ := h.sched
    exact ⟨fun u => u ≠ t ∧ added u, qs, hi.replace (not_queued_of_not_up hi (h.stranger_not_up ht).1) _⟩
  · by_cases he : u = t
    · subst he
      exact .inl hself
    · rw [hother u he]
      exact h.strangers u hu
  · have hne : u ≠ t := by
      rintro rfl
      exact ht (mem_tasks.mpr (.inl hu))
    exact (update_of_ne hne _ _).trans (h.idle u hu)
  · have hne : u ≠ t := by
      rintro rfl
      cases hself.symm.trans hu
    rw [hother u hne] at hu
    exact (update_of_ne hne _ _).trans (h.zombies u hu)

theorem join (ht : t ∉ k.tasks) : Roster { k with taskList := t :: k.taskList } := by
  have hmem : ∀ u, u ∈ tasks { k with taskList := t :: k.taskList } ↔ u = t ∨ u ∈ k.tasks := by
    intro u
    rw [mem_tasks, mem_tasks, mem_cons]
    tauto
  refine ⟨h.sched, fun u hu => (hmem u).mpr (.inr (h.current u hu)), fun u hu => ?_, ?_, h.idle, h.zombies⟩
  · rw [hmem, not_or] at hu
    exact h.strangers u hu.2
  · exact nodup_cons.mpr ⟨fun hin => ht (mem_tasks.mpr (.inr hin)), h.nodup⟩

theorem taskDestroy (hup : ¬ k.procs.sched.Up t) (hcur : k.procs.sched.current ≠ some t) :
    Roster (k.taskDestroy t) := by
  have hself : (k.taskDestroy t).state t = .dead := setState_self _ _ _
  have hother : ∀ u, u ≠ t → (k.taskDestroy t).state u = k.state u :=
    fun u hu => congrArg Task.state (setState_of_ne _ _ hu)
  have hkeep : ∀ u, u ≠ t → u ∈ k.tasks → u ∈ (k.taskDestroy t).tasks := by
    intro u hne hu
    rcases mem_tasks.mp hu with hi | hl
    · exact mem_tasks.mpr (.inl hi)
    · exact mem_tasks.mpr (.inr ((mem_erase_of_ne hne).mpr hl))
  refine ⟨?_, fun u hu => ?_, fun u hu => ?_, h.nodup.erase t, h.idle, fun u hu => ?_⟩
  · obtain ⟨added, qs, hi⟩ := h.sched
    exact ⟨added, qs, hi.setState (not_queued_of_not_up hi hup) (by decide)⟩
  · have hne : u ≠ t := by
      rintro rfl
      exact hcur hu
    exact hkeep u hne (h.current u hu)
  · by_cases he : u = t
    · subst he
      exact .inr hself
    · rw [hother u he]
      exact h.strangers u fun hin => hu (hkeep u he hin)
  · have hne : u ≠ t := by
      rintro rfl
      cases hself.symm.trans hu
    rw [hother u hne] at hu
    exact h.zombies u hu

end Roster

/-! ## The tree -/

/-- What the loop over the children of a task that exits does: the children are in front of those of `init`, in the opposite order. -/
theorem adoptLoop_spec {init : TaskPtr} {xs : List TaskPtr} : ∀ {n : Nat} {p : Processes} {h : Option TaskPtr} {zs : List TaskPtr},
    Linked (fun t => (p.procs t).siblingNext) h xs → Linked (fun t => (p.procs t).siblingNext) (p.procs init).children zs →
    (∀ c ∈ xs, c ∉ zs) → init ∉ xs → xs.length < n →
    ∃ p', adoptLoop init n p h = some p' ∧
      Linked (fun t => (p'.procs t).siblingNext) (p'.procs init).children (xs.reverse ++ zs) ∧
      (∀ c ∈ xs, (p'.procs c).parent = some init) ∧
      (∀ t, t ∉ xs → (p'.procs t).parent = (p.procs t).parent ∧ (p'.procs t).siblingNext = (p.procs t).siblingNext) ∧
      ∀ t, t ≠ init → (p'.procs t).children = (p.procs t).children := by
  induction xs with
  | nil =>
    intro n p h zs hl hz _ _ hn
    obtain ⟨m, rfl⟩ := Nat.exists_eq_succ_of_ne_zero (Nat.ne_of_gt hn)
    subst hl
    exact ⟨p, rfl, hz, by simp, fun _ _ => ⟨rfl, rfl⟩, fun _ _ => rfl⟩
  | cons c xs ih =>
    intro n p h zs hl hz hd hi hn
    obtain ⟨m, rfl⟩ := Nat.exists_eq_succ_of_ne_zero (Nat.ne_zero_of_lt hn)
    have hnd := nodup_cons.1 hl.nodup
    obtain ⟨rfl, hl⟩ := hl
    have hci : init ≠ c := fun he => hi (he ▸ mem_cons_self)
    rw [adoptLoop]
    generalize hp1 : (((p.modify c fun q => { q with parent := some init }).modify c fun q =>
      { q with siblingNext := ((p.modify c fun q => { q with parent := some init }).procs init).children }).modify init
        fun q => { q with children := some c }) = p1
    -- one round writes the block of the child and the head pointer
    have hself : (p1.procs c).parent = some init ∧ (p1.procs c).siblingNext = (p.procs init).children := by
      rw [← hp1]
      simp [Processes.modify, hci, hci.symm]
    have hother : ∀ t, t ≠ c → (p1.procs t).parent = (p.procs t).parent ∧ (p1.procs t).siblingNext = (p.procs t).siblingNext := by
      intro t ht
      simp only [← hp1, modify_procs, if_neg ht]
      split <;> exact ⟨rfl, rfl⟩
    have hhead : (p1.procs init).children = some c := by
      rw [← hp1]
      simp [Processes.modify]
    have hkeep : ∀ t, t ≠ init → (p1.procs t).children = (p.procs t).children := by
      intro t ht
      simp only [← hp1, modify_procs, if_neg ht]
      split <;> rfl
    have hl1 : Linked (fun t => (p1.procs t).siblingNext) (p.procs c).siblingNext xs :=
      hl.congr fun t ht => (hother t (fun he => hnd.1 (he ▸ ht))).2
    have hz1 : Linked (fun t => (p1.procs t).siblingNext) (p1.procs init).children (c :: zs) := by
      rw [hhead, linked_cons]
      refine ⟨rfl, ?_⟩
      rw [hself.2]
      exact hz.congr fun t ht => (hother t (fun he => hd c mem_cons_self (he ▸ ht))).2
    have hd1 : ∀ t ∈ xs, t ∉ c :: zs := by
      intro t ht hin
      rcases mem_cons.mp hin with rfl | hin
      · exact hnd.1 ht
      · exact hd t (mem_cons_of_mem _ ht) hin
    obtain ⟨p', hrun, hl', hin', hout', hch'⟩ := ih (n := m) hl1 hz1 hd1 (fun hin => hi (mem_cons_of_mem _ hin))
      (by simpa using hn)
    refine ⟨p', hrun, ?_, fun t ht => ?_, fun t ht => ?_, fun t ht => ?_⟩
    · simpa using hl'
    · rcases mem_cons.mp ht with rfl | ht
      · rw [(hout' t hnd.1).1]
        exact hself.1
      · exact hin' t ht
    · rw [mem_cons, not_or] at ht
      rw [(hout' t ht.2).1, (hout' t ht.2).2, (hother t ht.1).1, (hother t ht.1).2]
      exact ⟨rfl, rfl⟩
    · exact (hch' t ht).trans (hkeep t ht)

namespace Family

variable (h : Family boot k kids)
include h

theorem mem_kids {c : TaskPtr} (hc : c ∈ k.taskList) (hp : (k.procs.procs c).parent = some t) :
    c ∈ kids t := by
  have hb : c ∉ boot := by
    intro hb
    cases (h.oldest c hb).2.symm.trans hp
  obtain ⟨u, hu, hcu⟩ := h.placed c hc hb
  obtain rfl : t = u := Option.some.inj (hp.symm.trans (h.parent u hu c hcu))
  exact hcu

/-- The tasks of the start are on no list. -/
theorem not_boot {c : TaskPtr} (ht : t ∈ k.tasks) (hc : c ∈ kids t) : c ∉ boot := by
  intro hb
  cases (h.oldest c hb).2.symm.trans (h.parent t ht c hc)

theorem unique {u c : TaskPtr} (ht : t ∈ k.tasks) (hu : u ∈ k.tasks) (hct : c ∈ kids t)
    (hcu : c ∈ kids u) : t = u := Option.some.inj ((h.parent t ht c hct).symm.trans (h.parent u hu c hcu))

/-- The tree is read from the links, and from the states which tasks are zombies. -/
theorem congr (htasks : k'.tasks = k.tasks) (hlist : k'.taskList = k.taskList)
    (hinit : k'.procs.initTask = k.procs.initTask)
    (hprocs : ∀ t, SameLinks (k.procs.procs t) (k'.procs.procs t))
    (hz : ∀ t ∈ k.tasks, k'.state t = .zombie → k.state t = .zombie ∨ kids t = [] ∧ k.procs.initTask ≠ some t) :
    Family boot k' kids := by
  have hsib : k'.sibling = k.sibling := funext fun t => (hprocs t).siblingNext
  refine ⟨?_, ?_, ?_, ?_, ?_, ?_, ?_⟩
  · rw [htasks, hsib]
    intro t ht
    rw [(hprocs t).children]
    exact h.linked t ht
  · rw [htasks, hlist]
    exact h.live
  · rw [htasks]
    intro t ht c hc
    rw [(hprocs c).parent]
    exact h.parent t ht c hc
  · rw [htasks, hlist]
    exact h.placed
  · rw [hlist]
    intro c hc
    rw [(hprocs c).parent]
    exact h.oldest c hc
  · intro i hi
    rw [hinit] at hi
    obtain ⟨hboot, hpid, hst⟩ := h.init i hi
    refine ⟨hboot, (hprocs i).pid.trans hpid, fun he => ?_⟩
    rcases hz i (mem_tasks.mpr (.inr (h.oldest i hboot).1)) he with hold | hne
    · exact hst hold
    · exact hne.2 hi
  · rw [htasks]
    intro t ht he
    rcases hz t ht he with hold | hnil
    · exact h.childless t ht hold
    · exact hnil.1

theorem fillTask (ht : t ∉ k.tasks) (hpid : k.nextPid ≠ 1) :
    Family boot (k.fillTask t) kids := by
  have hother : ∀ u, u ≠ t → (k.fillTask t).procs.procs u = k.procs.procs u := fun u hu => update_of_ne hu _ _
  have hstate : ∀ u, u ≠ t → (k.fillTask t).state u = k.state u := fun u hu => k.fillTask_state_of_ne hu
  have hne : ∀ u ∈ k.tasks, u ≠ t := by
    rintro u hu rfl
    exact ht hu
  have hchild : ∀ u ∈ k.tasks, ∀ c ∈ kids u, c ≠ t := fun u hu c hc =>
    hne c (mem_tasks.mpr (.inr (h.live u hu c hc)))
  have hinit : (k.fillTask t).procs.initTask = k.procs.initTask := if_neg hpid
  refine ⟨fun u hu => ?_, h.live, fun u hu c hc => ?_, h.placed, fun c hc => ?_, fun i hi => ?_, fun u hu hz => ?_⟩
  · rw [hother u (hne u hu)]
    exact (h.linked u hu).congr fun c hc => congrArg Proc.siblingNext (hother c (hchild u hu c hc))
  · rw [hother c (hchild u hu c hc)]
    exact h.parent u hu c hc
  · rw [hother c (hne c (mem_tasks.mpr (.inr (h.oldest c hc).1)))]
    exact h.oldest c hc
  · rw [hinit] at hi
    obtain ⟨hboot, hpid', hst⟩ := h.init i hi
    have hi' := hne i (mem_tasks.mpr (.inr (h.oldest i hboot).1))
    rw [hother i hi', hstate i hi']
    exact ⟨hboot, hpid', hst⟩
  · rw [hstate u (hne u hu)] at hz
    exact h.childless u hu hz

theorem adopt {parent child : TaskPtr} (hp : parent ∈ k.tasks) (hnew : child ∉ k.tasks)
    (hz : k.state parent ≠ .zombie) (hnone : (k.procs.procs child).children = none) :
    Family boot (k.adopt parent child) (update (update kids child []) parent (child :: kids parent)) := by
  set k' := k.adopt parent child
  set kids' := update (update kids child []) parent (child :: kids parent) with hkids'
  have hpc : parent ≠ child := by
    rintro rfl
    exact hnew hp
  have hmem : ∀ u, u ∈ k'.tasks ↔ u = child ∨ u ∈ k.tasks := by
    intro u
    rw [mem_tasks, mem_tasks]
    simp only [k', TaskTable.adopt, Processes.linkChild, Processes.modify, mem_cons]
    tauto
  have hold : ∀ u ∈ k.tasks, u ≠ child := by
    rintro u hu rfl
    exact hnew hu
  have hchild : ∀ u ∈ k.tasks, ∀ c ∈ kids u, c ≠ child := fun u hu c hc =>
    hold c (mem_tasks.mpr (.inr (h.live u hu c hc)))
  -- the links after the call
  have hother : ∀ u, u ≠ child → (k'.procs.procs u).siblingNext = (k.procs.procs u).siblingNext ∧
      (k'.procs.procs u).parent = (k.procs.procs u).parent ∧
      (k'.procs.procs u).pid = (k.procs.procs u).pid := by
    intro u hu
    simp only [k', TaskTable.adopt, Processes.linkChild, Processes.modify_procs, if_neg hu]
    split <;> exact ⟨rfl, rfl, rfl⟩
  have hlist : ∀ u, u ≠ parent → (k'.procs.procs u).children = (k.procs.procs u).children := by
    intro u hu
    simp only [k', TaskTable.adopt, Processes.linkChild, Processes.modify_procs, if_neg hu]
    split <;> rfl
  have hhead : (k'.procs.procs parent).children = some child := by
    simp [k', TaskTable.adopt, Processes.linkChild, Processes.modify]
  have hself : (k'.procs.procs child).siblingNext = (k.procs.procs parent).children ∧
      (k'.procs.procs child).parent = some parent := by
    simp [k', TaskTable.adopt, Processes.linkChild, Processes.modify, hpc, hpc.symm]
  have hlinked : ∀ u ∈ k.tasks, Linked k'.sibling (k.procs.procs u).children (kids u) := fun u hu =>
    (h.linked u hu).congr fun c hc => (hother c (hchild u hu c hc)).1
  -- the lists after the call
  have hkids : ∀ u ∈ k.tasks, u ≠ parent → kids' u = kids u := by
    intro u hu hne
    rw [hkids', update_of_ne hne, update_of_ne (hold u hu)]
  have hkidsP : kids' parent = child :: kids parent := update_self _ _ _
  have hkidsC : kids' child = [] := by rw [hkids', update_of_ne hpc.symm, update_self]
  have hcases : ∀ u ∈ k'.tasks, ∀ c ∈ kids' u, u = parent ∧ c = child ∨ u ∈ k.tasks ∧ c ∈ kids u := by
    intro u hu c hc
    by_cases he : u = parent
    · subst he
      rw [hkidsP] at hc
      exact (mem_cons.mp hc).imp (fun hc => ⟨rfl, hc⟩) (fun hc => ⟨hp, hc⟩)
    · rcases (hmem u).mp hu with rfl | hu
      · rw [hkidsC] at hc
        cases hc
      · rw [hkids u hu he] at hc
        exact .inr ⟨hu, hc⟩
  refine ⟨fun u hu => ?_, fun u hu c hc => ?_, fun u hu c hc => ?_, fun c hc hb => ?_, fun c hc => ?_, fun i hi => ?_,
    fun u hu hzu => ?_⟩
  · by_cases he : u = parent
    · subst he
      rw [hkidsP, hhead]
      refine ⟨rfl, ?_⟩
      change Linked _ (k'.procs.procs child).siblingNext _
      rw [hself.1]
      exact hlinked u hp
    · rw [hlist u he]
      rcases (hmem u).mp hu with rfl | hu
      · rw [hkidsC, hnone]
        rfl
      · rw [hkids u hu he]
        exact hlinked u hu
  · rcases hcases u hu c hc with ⟨-, rfl⟩ | ⟨hu, hc⟩
    · exact mem_cons_self
    · exact mem_cons_of_mem _ (h.live u hu c hc)
  · rcases hcases u hu c hc with ⟨rfl, rfl⟩ | ⟨hu, hc⟩
    · exact hself.2
    · rw [(hother c (hchild u hu c hc)).2.1]
      exact h.parent u hu c hc
  · rcases mem_cons.mp hc with rfl | hc
    · exact ⟨parent, (hmem parent).mpr (.inr hp), hkidsP ▸ mem_cons_self⟩
    · obtain ⟨u, hu, hcu⟩ := h.placed c hc hb
      refine ⟨u, (hmem u).mpr (.inr hu), ?_⟩
      by_cases he : u = parent
      · subst he
        rw [hkidsP]
        exact mem_cons_of_mem _ hcu
      · rw [hkids u hu he]
        exact hcu
  · obtain ⟨hlive, hnone'⟩ := h.oldest c hc
    refine ⟨mem_cons_of_mem _ hlive, ?_⟩
    rw [(hother c (hold c (mem_tasks.mpr (.inr hlive)))).2.1]
    exact hnone'
  · obtain ⟨hboot, hpid, hst⟩ := h.init i hi
    have hne := hold i (mem_tasks.mpr (.inr (h.oldest i hboot).1))
    exact ⟨hboot, (hother i hne).2.2.trans hpid, hst⟩
  · rcases (hmem u).mp hu with rfl | hu
    · exact hkidsC
    · have hne : u ≠ parent := by
        rintro rfl
        exact hz hzu
      rw [hkids u hu hne]
      exact h.childless u hu hzu

/-! ### Reaping -/

/-- A child is taken off the list of `cur`, whatever the link that leads to it. -/
theorem unlink {cur child : TaskPtr} {pp : Link TaskPtr} (hcur : cur ∈ k.tasks)
    {xs ys : List TaskPtr} (hsplit : kids cur = xs ++ child :: ys) (hpp : pp = linkOf .head xs) :
    (∀ t ∈ k.tasks, Linked (fun u => ((k.procs.unlinkChild cur pp child).procs u).siblingNext)
      ((k.procs.unlinkChild cur pp child).procs t).children (update kids cur (xs ++ ys) t)) ∧
    ∀ t, ((k.procs.unlinkChild cur pp child).procs t).parent = (k.procs.procs t).parent ∧
      ((k.procs.unlinkChild cur pp child).procs t).pid = (k.procs.procs t).pid ∧
      ((k.procs.unlinkChild cur pp child).procs t).exitCode = (k.procs.procs t).exitCode ∧
      ((k.procs.unlinkChild cur pp child).procs t).isWaitingForChildren = (k.procs.procs t).isWaitingForChildren := by
  have hlist := h.linked cur hcur
  rw [hsplit] at hlist
  have hapart : ∀ t ∈ k.tasks, t ≠ cur → ∀ c ∈ kids t, c ∉ kids cur := fun t ht hne c hc hin => hne (h.unique ht hcur hc hin)
  rcases eq_nil_or_concat xs with rfl | ⟨zs, p, rfl⟩
  · -- the child is the first one: the head pointer is moved
    obtain rfl : pp = .head := hpp
    have hnext : Linked k.sibling (k.procs.procs child).siblingNext ys := hlist.2
    refine ⟨fun t ht => ?_, fun t => ?_⟩
    · have hsib : (fun u => ((k.procs.unlinkChild cur .head child).procs u).siblingNext) = k.sibling := by
        funext u
        simp only [unlinkChild, modify_procs]
        split <;> rfl
      rw [hsib]
      by_cases he : t = cur
      · subst he
        simpa [Processes.unlinkChild, Processes.modify] using hnext
      · simpa [Processes.unlinkChild, Processes.modify, he] using h.linked t ht
    · simp only [unlinkChild, modify_procs]
      split <;> exact ⟨rfl, rfl, rfl, rfl⟩
  · -- the link of the child before it is moved
    obtain rfl : pp = .after p := by
      rw [hpp, linkOf]
      simp
    have hchild : p ∈ kids cur := by
      rw [hsplit]
      simp
    have hsib : (fun u => ((k.procs.unlinkChild cur (.after p) child).procs u).siblingNext) =
        update k.sibling p (k.sibling child) := by
      funext u
      by_cases he : u = p
      · subst he
        simp [Processes.unlinkChild, Processes.modify, TaskTable.sibling]
      · simp [Processes.unlinkChild, Processes.modify, he, TaskTable.sibling]
    have hheads : ∀ t, ((k.procs.unlinkChild cur (.after p) child).procs t).children = (k.procs.procs t).children := by
      intro t
      simp only [unlinkChild, modify_procs]
      split <;> rfl
    refine ⟨fun t ht => ?_, fun t => ?_⟩
    · rw [hsib, hheads]
      by_cases he : t = cur
      · subst he
        simpa using Linked.unlink (by simpa using hlist)
      · rw [update_of_ne he]
        exact (h.linked t ht).update (fun hin => hapart t ht he p hin hchild) _
    · simp only [unlinkChild, modify_procs]
      split <;> exact ⟨rfl, rfl, rfl, rfl⟩

theorem reap (hroster : Roster k) {cur child : TaskPtr} {pp : Link TaskPtr} (hcur : cur ∈ k.tasks)
    {xs ys : List TaskPtr} (hsplit : kids cur = xs ++ child :: ys) (hpp : pp = linkOf .head xs)
    (hz : k.state child = .zombie) :
    Family boot ({ k with procs := k.procs.unlinkChild cur pp child }.taskDestroy child)
      (update kids cur (xs ++ ys)) := by
  obtain ⟨hlinked, hfields⟩ := h.unlink hcur hsplit hpp
  have hsched := unlinkChild_sched k.procs cur pp child
  have hchild : child ∈ kids cur := by
    rw [hsplit]
    simp
  have hnodup : (xs ++ child :: ys).Nodup := by
    have := (h.linked cur hcur).nodup
    rwa [hsplit] at this
  have hout : child ∉ xs ++ ys := by
    rw [nodup_append] at hnodup
    rw [mem_append, not_or]
    refine ⟨fun hin => hnodup.2.2 child hin child mem_cons_self rfl, (nodup_cons.mp hnodup.2.1).1⟩
  have hinit : (k.procs.unlinkChild cur pp child).initTask = k.procs.initTask := by
    cases pp <;> rfl
  -- the state after the call
  generalize hk' : ({ k with procs := k.procs.unlinkChild cur pp child } : TaskTable).taskDestroy child = k'
  have hprocs : k'.procs.procs = (k.procs.unlinkChild cur pp child).procs := by rw [← hk']; rfl
  have hlist : k'.taskList = k.taskList.erase child := by rw [← hk']; rfl
  have hidle : k'.procs.sched.idle = k.procs.sched.idle := by
    rw [← hk', ← hsched]
    rfl
  have hinit' : k'.procs.initTask = k.procs.initTask := by
    rw [← hk', ← hinit]
    rfl
  have hstate : ∀ t, k'.state t = .zombie → k.state t = .zombie ∧ t ≠ child := by
    intro t ht
    rw [← hk'] at ht
    by_cases he : t = child
    · subst he
      cases (setState_self _ t .dead).symm.trans ht
    · refine ⟨?_, he⟩
      have hsame : (({ k with procs := k.procs.unlinkChild cur pp child } : TaskTable).taskDestroy child).state t = k.state t := by
        unfold state TaskTable.taskDestroy
        rw [setState_of_ne _ _ he, hsched]
      rwa [hsame] at ht
  have hsub : ∀ t, t ∈ k'.tasks → t ∈ k.tasks := by
    intro t ht
    rw [mem_tasks, hidle, hlist] at ht
    exact mem_tasks.mpr (ht.imp_right mem_of_mem_erase)
  have hkids : ∀ t ∈ k.tasks, ∀ c ∈ update kids cur (xs ++ ys) t, c ∈ kids t ∧ c ≠ child := by
    intro t ht c hc
    by_cases he : t = cur
    · subst he
      rw [update_self] at hc
      refine ⟨?_, fun hcc => hout (hcc ▸ hc)⟩
      rw [hsplit]
      rcases mem_append.mp hc with hc | hc
      · exact mem_append_left _ hc
      · exact mem_append_right _ (mem_cons_of_mem _ hc)
    · rw [update_of_ne he] at hc
      refine ⟨hc, ?_⟩
      rintro rfl
      exact he (h.unique ht hcur hc hchild)
  refine ⟨fun t ht => ?_, fun t ht c hc => ?_, fun t ht c hc => ?_, fun c hc hb => ?_, fun c hc => ?_, fun i hi => ?_,
    fun t ht hzt => ?_⟩
  · unfold sibling
    rw [hprocs]
    exact hlinked t (hsub t ht)
  · obtain ⟨hin, hne⟩ := hkids t (hsub t ht) c hc
    rw [hlist]
    exact (mem_erase_of_ne hne).mpr (h.live t (hsub t ht) c hin)
  · rw [hprocs, (hfields c).1]
    exact h.parent t (hsub t ht) c (hkids t (hsub t ht) c hc).1
  · rw [hlist] at hc
    have hne : c ≠ child := by
      rintro rfl
      exact hroster.nodup.not_mem_erase hc
    obtain ⟨t, ht, hct⟩ := h.placed c (mem_of_mem_erase hc) hb
    -- the child that is destroyed is no parent
    have htc : t ≠ child := by
      rintro rfl
      rw [h.childless t ht hz] at hct
      cases hct
    refine ⟨t, ?_, ?_⟩
    · rw [mem_tasks, hidle, hlist]
      exact (mem_tasks.mp ht).imp_right (mem_erase_of_ne htc).mpr
    · by_cases he : t = cur
      · subst he
        rw [hsplit] at hct
        rw [update_self, mem_append]
        rcases mem_append.mp hct with hct | hct
        · exact .inl hct
        · exact .inr ((mem_cons.mp hct).resolve_left hne)
      · rw [update_of_ne he]
        exact hct
  · have hne : c ≠ child := by
      rintro rfl
      exact h.not_boot hcur hchild hc
    rw [hlist, hprocs, (hfields c).1]
    exact ⟨(mem_erase_of_ne hne).mpr (h.oldest c hc).1, (h.oldest c hc).2⟩
  · rw [hinit'] at hi
    obtain ⟨hboot, hpid, hst⟩ := h.init i hi
    refine ⟨hboot, ?_, fun he => hst (hstate i he).1⟩
    rw [hprocs, (hfields i).2.1]
    exact hpid
  · obtain ⟨hzold, hne⟩ := hstate t hzt
    have hnil := h.childless t (hsub t ht) hzold
    by_cases he : t = cur
    · subst he
      rw [hsplit] at hnil
      exact absurd hnil (by simp)
    · rw [update_of_ne he]
      exact hnil

/-! ### Exit -/

/-- A task that exits gives its children to the init task. -/
theorem reparent {cur : TaskPtr} (hcur : cur ∈ k.tasks) (hne : k.procs.initTask ≠ some cur)
    (hinit : (k.procs.procs cur).children = none ∨ k.procs.initTask ≠ none) :
    ∃ p kids', taskReparentChildren k.procs cur = some p ∧ p.sched = k.procs.sched ∧ p.initTask = k.procs.initTask ∧
      Family boot { k with procs := p } kids' ∧ kids' cur = [] ∧
      (∀ t ∈ k.tasks, ∀ c ∈ kids' t, c ∈ kids t ∨ k.procs.initTask = some t ∧ c ∈ kids cur) ∧
      ((p.procs cur).parent = (k.procs.procs cur).parent ∨ (p.procs cur).parent = k.procs.initTask) ∧
      ∀ t, (p.procs t).pid = (k.procs.procs t).pid ∧ (p.procs t).exitCode = (k.procs.procs t).exitCode ∧
        (p.procs t).isWaitingForChildren = (k.procs.procs t).isWaitingForChildren := by
  have hrest : ∀ p, taskReparentChildren k.procs cur = some p → _ := fun p => taskReparentChildren_rest
  unfold taskReparentChildren at hrest ⊢
  cases hch : (k.procs.procs cur).children with
  | none =>
    have hnil : kids cur = [] := by
      have hl := h.linked cur hcur
      rw [hch] at hl
      exact hl.unique rfl
    exact ⟨k.procs, kids, rfl, rfl, rfl, h, hnil, fun t _ c hc => .inl hc, .inl rfl, fun _ => ⟨rfl, rfl, rfl⟩⟩
  | some first =>
    obtain ⟨init, hi⟩ := Option.ne_none_iff_exists'.mp (hinit.resolve_left (by rw [hch]; exact fun he => nomatch he))
    obtain ⟨hboot, hpid, hzi⟩ := h.init init hi
    obtain ⟨hilist, -⟩ := h.oldest init hboot
    have himem : init ∈ k.tasks := mem_tasks.mpr (.inr hilist)
    have hic : init ≠ cur := by
      rintro rfl
      exact hne hi
    have hlcur := h.linked cur hcur
    obtain ⟨p, hrun, hlinked, hmoved, hstay, hheads⟩ := adoptLoop_spec (n := loopFuel) hlcur (h.linked init himem)
      (fun c hc hin => hic (h.unique himem hcur hin hc)) (fun hin => h.not_boot hcur hin hboot) (TaskPtr.length_lt hlcur.nodup).1
    rw [hch] at hrun
    rw [hi]
    simp only [hch, hi, hrun, Option.map_some] at hrest ⊢
    obtain ⟨hsched, hit, hrest⟩ := hrest _ rfl
    -- the head pointer of the task that exits is cleared
    generalize hp' : p.modify cur (fun q => { q with children := none }) = p' at hsched hit hrest ⊢
    have hfields : ∀ t, (p'.procs t).parent = (p.procs t).parent ∧ (p'.procs t).siblingNext = (p.procs t).siblingNext := by
      intro t
      rw [← hp', modify_procs]
      split <;> exact ⟨rfl, rfl⟩
    have hchild : ∀ t, t ≠ cur → (p'.procs t).children = (p.procs t).children := by
      intro t ht
      rw [← hp']
      simp [Processes.modify, ht]
    have hnone : (p'.procs cur).children = none := by
      rw [← hp']
      simp [Processes.modify]
    have hsib : (fun t => (p'.procs t).siblingNext) = fun t => (p.procs t).siblingNext := funext fun t => (hfields t).2
    obtain ⟨kids', hkidsC, hkidsI, hkids⟩ : ∃ kids' : TaskPtr → List TaskPtr, kids' cur = [] ∧
        kids' init = (kids cur).reverse ++ kids init ∧ ∀ t, t ≠ cur → t ≠ init → kids' t = kids t := by
      refine ⟨update (update kids cur []) init ((kids cur).reverse ++ kids init), ?_, update_self _ _ _, fun t ht hti => ?_⟩
      · rw [update_of_ne hic.symm, update_self]
      · rw [update_of_ne hti, update_of_ne ht]
    have htasks := tasks_eq (k := k) (congrArg Scheduler.idle hsched)
    have hcases : ∀ t, ∀ c ∈ kids' t, t = init ∧ c ∈ kids cur ∨ t ≠ cur ∧ c ∈ kids t := by
      intro t c hc
      by_cases he : t = cur
      · subst he
        rw [hkidsC] at hc
        cases hc
      · by_cases hti : t = init
        · subst hti
          rw [hkidsI, mem_append, mem_reverse] at hc
          exact hc.imp (fun hc => ⟨rfl, hc⟩) (fun hc => ⟨he, hc⟩)
        · rw [hkids t he hti] at hc
          exact .inr ⟨he, hc⟩
    have hcases' : ∀ t ∈ k.tasks, ∀ c ∈ kids t, ∃ u ∈ k.tasks, c ∈ kids' u := by
      intro t ht c hc
      by_cases he : t = cur
      · subst he
        exact ⟨init, himem, by rw [hkidsI, mem_append, mem_reverse]; exact .inl hc⟩
      · by_cases hti : t = init
        · subst hti
          exact ⟨t, ht, by rw [hkidsI, mem_append]; exact .inr hc⟩
        · exact ⟨t, ht, by rw [hkids t he hti]; exact hc⟩
    have hother : ∀ t ∈ k.tasks, t ≠ cur → ∀ c ∈ kids t, c ∉ kids cur := fun t ht he c hc hin => he (h.unique ht hcur hc hin)
    have hstate : ∀ t, state { k with procs := p' } t = k.state t := by
      intro t
      unfold state
      rw [hsched]
    refine ⟨p', kids', rfl, hsched, hit.trans hi, ⟨?_, ?_, ?_, ?_, ?_, ?_, ?_⟩, hkidsC, fun t _ c hc => ?_, ?_, hrest⟩
    · rw [htasks]
      intro t ht
      change Linked (fun t => (p'.procs t).siblingNext) (p'.procs t).children (kids' t)
      rw [hsib]
      by_cases he : t = cur
      · subst he
        rw [hnone, hkidsC]
        rfl
      · rw [hchild t he]
        by_cases hti : t = init
        · subst hti
          rw [hkidsI]
          exact hlinked
        · rw [hkids t he hti, hheads t hti]
          exact (h.linked t ht).congr fun c hc => (hstay c (hother t ht he c hc)).2
    · rw [htasks]
      intro t ht c hc
      rcases hcases t c hc with ⟨-, hc⟩ | ⟨-, hc⟩
      · exact h.live cur hcur c hc
      · exact h.live t ht c hc
    · rw [htasks]
      intro t ht c hc
      rw [(hfields c).1]
      rcases hcases t c hc with ⟨rfl, hc⟩ | ⟨he, hc⟩
      · exact hmoved c hc
      · rw [(hstay c (hother t ht he c hc)).1]
        exact h.parent t ht c hc
    · rw [htasks]
      intro c hc hb
      obtain ⟨t, ht, hct⟩ := h.placed c hc hb
      exact hcases' t ht c hct
    · intro c hc
      refine ⟨(h.oldest c hc).1, ?_⟩
      rw [(hfields c).1, (hstay c fun hin => h.not_boot hcur hin hc).1]
      exact (h.oldest c hc).2
    · intro i hi'
      rw [hit] at hi'
      obtain ⟨hb, hp1, hst⟩ := h.init i hi'
      rw [hstate]
      exact ⟨hb, (hrest i).1.trans hp1, hst⟩
    · rw [htasks]
      intro t ht hz
      rw [hstate] at hz
      by_cases he : t = cur
      · subst he
        exact hkidsC
      · have hti : t ≠ init := by
          rintro rfl
          exact hzi hz
        rw [hkids t he hti]
        exact h.childless t ht hz
    · rcases hcases t c hc with ⟨rfl, hc⟩ | ⟨-, hc⟩
      · exact .inr ⟨rfl, hc⟩
      · exact .inl hc
    · by_cases hin : cur ∈ kids cur
      · right
        rw [(hfields cur).1]
        exact hmoved cur hin
      · left
        rw [(hfields cur).1]
        exact (hstay cur hin).1

end Family

end TsOs
