import TsOs.Lemmas.TaskSpaces
import TsOs.Theorems.SpaceSet

/-!
# The active address space

CR3 is loaded by the scheduler only. `sys_execve` replaces the address space of the current task and destroys the old one, whose
PML4 stays in CR3. In runs in which no task replaces its image, no task exits while it is queued and no zombie shares a page when
it is reaped, CR3 always holds the PML4 of the current task, and its frame is in use.
-/

namespace TsOs

open Runs StateProg PteAux TableAux VmmRun MlfqAux SchedulerAux TaskExitAux RangeAux SpaceSetAux SpaceLifeAux Function List Option Kernel KernelOp

/-- CR3 holds the PML4 of the current task, and its frame is not marked free. -/
def Kernel.Active (k : Kernel) : Prop :=
  ∀ t, k.procs.sched.current = some t → (k.spaceOf t).pml4 = some k.cr3 ∧ k.vmm.pmm.isUsed k.cr3 = true

/-- Whether `sys_execve` by `cur` finds an image at the address that the loader accepts. -/
def Kernel.loadable (k : Kernel) (cur : TaskPtr) (elfAddr elfSize : BitVec 64) : Bool :=
  validateUserPointer k.vmm (k.spaceOf cur) elfAddr elfSize &&
    match vmmCreateAddressSpace.run k.vmm with
    | ((_, none), _) => false
    | ((_, some as), m) => decide (((elfLoad (k.imageAt elfAddr) elfSize as).run m).1.1 = .ok)

/-- The steps that keep the active address space: no image is replaced, no zombie that may be reaped shares a page, and a task that
exits is in no queue. -/
def KernelOp.Harmless (k : Kernel) : KernelOp → Prop
  | .execve elfAddr elfSize block =>
    block = none ∨ ∀ cur, k.procs.sched.current = some cur → k.loadable cur elfAddr elfSize = false
  | .wait _ => ∀ t ∈ k.taskList, k.state t = .zombie → k.isKernel t = false → ∀ r, (k.spaceOf t).pml4 = some r →
      MapsAlone k.roots r k.vmm
  | .exit _ => ∀ cur, k.procs.sched.current = some cur → k.procs.sched.mlfq.Unqueued cur
  | _ => True

namespace TaskSpacesAux

variable {p₀ : Pmm} {k k' : Kernel}

/-! ## Ticks, exits and waits -/

variable (h : Hosted p₀ k)
include h

theorem hosted_tick (hs : k.tick = some k') : Hosted p₀ k' := by
  obtain ⟨s, htick, hk'⟩ := map_eq_some_iff.mp hs
  obtain ⟨added, qs, hi⟩ := h.sched
  obtain ⟨s1, qs1, htick1, hi1⟩ := hi.tick
  obtain rfl : s1 = s := some.inj (htick1.symm.trans htick)
  obtain ⟨hidle, -, -, -, hpark⟩ := ticked_tick hi htick
  have hstranger : ∀ t, t ∉ k.tasks → Parked k.procs.sched t := by
    intro t ht
    have hst := h.strangers t ht
    unfold state at hst
    refine ⟨?_, ?_, fun hi => ht (mem_tasks.mpr (.inl hi))⟩
    · rcases hst with he | he <;> rw [he] <;> decide
    · rcases hst with he | he <;> rw [he] <;> decide
  have hcur : ∀ t, s1.current = some t → t ∈ k.tasks := by
    intro t ht
    by_contra hout
    exact hout (h.current t ((hpark t (hstranger t hout)).2 ht))
  -- the state after the tick, with whatever CR3 holds
  have hnext : ∀ r, (∀ t, s1.current = some t → (k.spaceOf t).pml4 = some r) →
      Hosted p₀ { k with procs := { k.procs with sched := s1 }, cr3 := r } := by
    intro r hr
    have htasks : tasks { k with procs := { k.procs with sched := s1 }, cr3 := r } = k.tasks := by
      unfold tasks
      rw [hidle]
    refine ⟨⟨added, qs1, hi1⟩, ?_, ?_, h.nodup, ?_, ?_, h.kernelRoot, ?_, ?_, h.spaces, hr⟩
    · rw [htasks]
      exact hcur
    · rw [htasks]
      intro t ht
      have hsame : state { k with procs := { k.procs with sched := s1 }, cr3 := r } t = k.state t :=
        (hpark t (hstranger t ht)).1
      rw [hsame]
      exact h.strangers t ht
    · rw [hidle]
      exact h.idle
    · rw [htasks]
      exact h.kernel
    · rw [htasks]
      exact h.user
    · rw [htasks]
      exact h.apart
  -- every task has a PML4, so that a switch loads it
  have hroot : ∀ t ∈ k.tasks, ∃ r, (k.spaceOf t).pml4 = some r := by
    intro t ht
    cases hk : k.isKernel t with
    | true =>
      obtain ⟨r, hr, -⟩ := h.kernelRoot
      refine ⟨r, ?_⟩
      rw [spaceOf_of_eq (h.kernel t ht hk)]
      exact hr
    | false =>
      obtain ⟨p, r, -, -, -, hs, -⟩ := h.root ht hk
      refine ⟨r, ?_⟩
      rw [hs]
      rfl
  cases hc : k.procs.sched.current with
  | none =>
    rw [hc] at hk'
    obtain rfl := hk'
    refine hnext k.cr3 fun t ht => ?_
    have : k.procs.sched = s1 := by
      unfold schedulerTick at htick
      rw [hc] at htick
      split at htick <;> exact some.inj htick
    rw [this, ht] at hc
    cases hc
  | some prev =>
    cases hn : s1.current with
    | none =>
      rw [hc, hn] at hk'
      obtain rfl := hk'
      refine hnext k.cr3 fun t ht => ?_
      rw [hn] at ht
      cases ht
    | some next =>
      rw [hc, hn] at hk'
      dsimp only at hk'
      split at hk'
      · rename_i heq
        obtain rfl := hk'
        refine hnext k.cr3 fun t ht => ?_
        rw [hn] at ht
        cases ht
        rw [heq]
        exact h.cr3 prev hc
      · split at hk'
        · obtain ⟨r, hr⟩ := hroot next (hcur next hn)
          unfold vmmSwitchAddressSpace at hk'
          rw [hr] at hk'
          obtain rfl := hk'
          refine hnext r fun t ht => ?_
          rw [hn] at ht
          cases ht
          exact hr
        · rename_i hsame
          rw [not_not] at hsame
          obtain rfl := hk'
          refine hnext k.cr3 fun t ht => ?_
          rw [hn] at ht
          cases ht
          have : k.spaceOf next = k.spaceOf prev := by
            unfold spaceOf
            rw [hsame]
          rw [this]
          exact h.cr3 prev hc

variable {cur : TaskPtr} (hc : k.procs.sched.current = some cur)
include hc

theorem hosted_exit (hu : k.isKernel cur = false)
    {code : Int} (hout : k.procs.sched.mlfq.Unqueued cur) {p : Processes} (hexit : taskExit k.procs code = some p) :
    Hosted p₀ { k with procs := p } := by
  have hidle : k.procs.sched.idle ≠ some cur := by
    intro hi
    have := h.idle cur hi
    rw [hu] at this
    cases this
  have hallowed : (ProcOp.exit code).Allowed k.procs := by
    intro t ht
    obtain rfl := some.inj (hc.symm.trans ht)
    exact ⟨hout, hidle⟩
  have hsound := (step h.sched hallowed hexit).1
  have hstate : ∀ t, t ∉ k.tasks → t ≠ cur ∧ k.state t ≠ .blocked := by
    intro t ht
    refine ⟨?_, ?_⟩
    · rintro rfl
      exact ht (h.current t hc)
    · rcases h.strangers t ht with he | he <;> rw [he] <;> decide
  rcases taskExit_sched hc hexit with heq | ⟨parent, heq⟩
  · refine h.reschedule hsound (by rw [heq]) (by rw [heq]) fun t ht => ?_
    rw [heq]
    exact congrArg Task.state (setState_of_ne _ _ (hstate t ht).1)
  · have hother : ∀ t, t ∉ k.tasks → ((k.procs.sched.mlfq.setState cur .zombie).tasks t).state = k.state t := fun t ht =>
      congrArg Task.state (setState_of_ne _ _ (hstate t ht).1)
    refine h.reschedule hsound (by rw [heq, (wake_current _ _).2]) (by rw [heq, (wake_current _ _).1]) fun t ht => ?_
    rw [heq, wake_state]
    · exact hother t ht
    · rw [hother t ht]
      exact (hstate t ht).2

omit hc in
/-- A change of the process tree alone. -/
theorem hosted_tree {p : Processes} (hp : p.sched = k.procs.sched) : Hosted p₀ { k with procs := p } := by
  refine h.reschedule (by rw [hp]; exact h.sched) (by rw [hp]) (by rw [hp]) fun t _ => ?_
  rw [hp]
  rfl

theorem hosted_wait (hz : k.state cur ≠ .zombie)
    (halone : ∀ t ∈ k.taskList, k.state t = .zombie → k.isKernel t = false → ∀ r, (k.spaceOf t).pml4 = some r →
      MapsAlone k.roots r k.vmm) {res : Kernel × Int} (hw : k.taskWait = some res) : Hosted p₀ res.1 := by
  unfold Kernel.taskWait at hw
  rw [hc] at hw
  dsimp only at hw
  split at hw
  · cases hw
  · rename_i pp child hfound
    cases hw
    have hzombie : k.state child = .zombie := by
      have := LinkedList.findLink_holds hfound
      rwa [beq_iff_eq] at this
    have hne : k.procs.sched.current ≠ some child := by
      rw [hc]
      intro he
      cases he
      exact hz hzombie
    have htask : child ∈ k.tasks := by
      by_contra hout
      rcases h.strangers child hout with he | he <;> rw [hzombie] at he <;> cases he
    have hsched := unlinkChild_sched k.procs cur pp child
    have h1 := hosted_tree h hsched
    have hstate : state { k with procs := k.procs.unlinkChild cur pp child } child = .zombie := by
      unfold state
      rw [hsched]
      exact hzombie
    refine h1.taskDestroy ?_ ?_ ?_ ?_ ?_
    · rw [hstate]
      decide
    · rw [hstate]
      decide
    · rw [hsched]
      exact hne
    · unfold tasks
      rw [hsched]
      exact htask
    · intro hu
      exact halone child (h.listed htask hu) hzombie hu
  · obtain ⟨p, hp, rfl⟩ := map_eq_some_iff.mp hw
    unfold waitForChildren at hp
    split at hp
    · obtain ⟨s, hs, rfl⟩ := map_eq_some_iff.mp hp
      obtain ⟨added, qs, hi⟩ := h.sched
      obtain ⟨s1, qs1, hs1, hi1⟩ := hi.blockCurrent
      have hblock : blockCurrent k.procs.sched = some s := hs
      obtain rfl : s1 = s := some.inj (hs1.symm.trans hblock)
      obtain ⟨hcur, hidle, hother⟩ := block_frame hi hblock
      refine h.reschedule ⟨added, qs1, hi1⟩ hidle hcur fun t ht => hother t fun he => ht (h.current t he)
    · cases hp
      exact h

/-- A write of the current user task through CR3. -/
theorem hosted_write (hu : k.isKernel cur = false)
    (v : UserVa) (b : BitVec 8) (task : Option UserRegions) :
    Hosted p₀ { k with vmm := ((userWrite k.cr3 v.addr b task).run k.vmm).2 } := by
  have hroot : k.cr3 ∈ k.roots := by
    obtain ⟨p, r, -, -, -, hs, hr⟩ := h.root (h.current cur hc) hu
    have := h.cr3 cur hc
    rw [hs] at this
    cases this
    exact hr
  refine h.remap ?_
  rcases userWrite_cases h.spaces hroot v b task with ⟨f, w, hm, -, hrun⟩ | ⟨errorCode, hrun⟩
  · rw [hrun]
    exact (h.spaces.storeData ⟨k.cr3, hroot, _, _, hm⟩ _ w).1
  · rw [hrun]
    exact (handlerPf_keeps h.spaces hroot v errorCode task).spaces

/-! ## The creation of address spaces -/

omit h hc in
/-- The demand pages of a stack map nothing. -/
theorem mapUserStack_effect {live : List Nat} {m : Vmm} {c : Nat} (h : Spaces p₀ live m) (hc : c ∈ live)
    (hempty : ∀ p i f, ¬ Maps m.mem c p i f) (n : Nat) (va : BitVec 64) :
    ∃ m', (mapUserStack (.ofRoot c) n va).run m = ((), m') ∧ Spaces p₀ live m' ∧ ∀ p i f, ¬ Maps m'.mem c p i f := by
  induction n generalizing va m with
  | zero => exact ⟨m, rfl, h, hempty⟩
  | succ n ih =>
    rw [mapUserStack]
    by_cases hva : va.ult (taskUserStackBase + taskUserStackSize) = true
    · rw [if_pos hva]
      have hlt : va.toNat < 2 ^ 47 := by
        have hstop : (taskUserStackBase + taskUserStackSize).toNat ≤ 2 ^ 47 := by decide
        rw [BitVec.ult, decide_eq_true_eq] at hva
        omega
      obtain ⟨v, rfl⟩ : ∃ v : UserVa, v.addr = va := ⟨⟨va, hlt⟩, rfl⟩
      obtain ⟨st, m1, hrun, h1, hcases⟩ := vmmMapDemandPage_effect h hc v heapMapFlags
      rw [show heapFlags = heapMapFlags.bits from rfl, bind_run hrun]
      refine ih h1 (fun p i f hm => ?_) _
      unfold Maps at hm
      rcases hcases with ⟨-, hsame, -⟩ | ⟨-, honly, -, hleaf⟩
      · rw [hsame c hc p i hm.1] at hm
        exact hempty p i f hm
      · by_cases hpage : p = vaPath v.addr ∧ i = ptIndex v.addr
        · obtain ⟨rfl, rfl⟩ := hpage
          have hpres : hasFlag (leafAt m1.mem c v.addr) ptePresent = true := hm.2.1
          rw [hleaf] at hpres
          exact absurd hpres (by decide)
        · rw [honly c hc p i hm.1 fun he => hpage he.2] at hm
          exact hempty p i f hm
    · rw [if_neg hva]
      exact ⟨m, rfl, h, hempty⟩

/-- A new task as `task_create` returns it: it has not run, and its address space maps nothing. -/
structure NewTask (k k' : Kernel) (t : TaskPtr) (c : Nat) : Prop where
  fresh : t ∉ k.tasks
  task : t ∈ k'.tasks
  created : k'.state t = .created
  user : k'.isKernel t = false
  space : k'.spaceOf t = .ofRoot c
  empty : ∀ p i f, ¬ Maps k'.vmm.mem c p i f
  current : k'.procs.sched.current = k.procs.sched.current
  kinds : ∀ u ∈ k.tasks, k'.isKernel u = k.isKernel u

omit hc in
theorem taskCreate_cases {b : TaskBlocks} (hpcb : b.pcb.all k.pcbFree = true)
    (hspace : b.space.all k.spaceFree = true) :
    (∃ k', k.taskCreate b = (k', none) ∧ Hosted p₀ k') ∨
    ∃ k' t c, k.taskCreate b = (k', some t) ∧ Hosted p₀ k' ∧ NewTask k k' t c := by
  obtain ⟨pcb, rest, space⟩ := b
  cases pcb with
  | none => exact .inl ⟨k, rfl, h⟩
  | some t =>
    have ht : t ∉ k.tasks := by
      simpa [pcbFree] using hpcb
    have h1 := h.fillTask ht
    unfold Kernel.taskCreate
    dsimp only
    cases rest with
    | false => exact .inl ⟨_, rfl, h1⟩
    | true =>
      cases space with
      | none => exact .inl ⟨_, rfl, h1⟩
      | some p =>
        have hp : k.spaceFree p = true := hspace
        have ht1 : t ∉ (k.fillTask t).tasks := ht
        have hp1 : (k.fillTask t).spaceFree p = true := by
          obtain ⟨hpk, hfree⟩ := Hosted.spaceFree_iff.mp hp
          refine Hosted.spaceFree_iff.mpr ⟨hpk, fun u hu => ?_⟩
          have hne : u ≠ t := by
            rintro rfl
            exact ht hu
          have ha : (k.fillTask t).addressSpace u = k.addressSpace u := update_of_ne hne _ _
          rw [ha]
          exact hfree u hu
        have huser : (k.fillTask t).isKernel t = false := update_self _ _ _
        rcases createSpace_run h1.spaces.init h1.spaces.kernel_not_free with ⟨-, hrun⟩ | ⟨c, hc, hrun⟩
        · rw [hrun]
          exact .inl ⟨_, rfl, h1⟩
        · rw [hrun]
          dsimp only
          obtain ⟨m, hstack, hm, hempty⟩ := mapUserStack_effect (h1.spaces.create hc) mem_cons_self
            (fun p i f => LifeAux.created_empty p i f) 16 taskUserStackBase
          rw [hstack]
          have hnew : c ∉ (k.fillTask t).roots := fun hin =>
            h1.spaces.not_table_of_free hc ⟨c, hin, [], .nil 256, rfl⟩
          refine .inr ⟨_, t, c, rfl, h1.adopt ht1 huser hp1 hm hnew _, ht, ?_, ?_, huser, ?_, hempty, rfl, fun u hu => ?_⟩
          · exact mem_tasks.mpr (.inr mem_cons_self)
          · have hst : (k.fillTask t).state t = .created := by
              unfold state
              rw [fillTask_mlfq, modify_tasks_self]
            exact hst
          · refine (spaceOf_of_eq (p := p) (update_self _ _ _)).trans ?_
            exact update_self _ _ _
          · have hne : u ≠ t := by
              rintro rfl
              exact ht hu
            exact update_of_ne hne _ _

theorem hosted_fork (hu : k.isKernel cur = false)
    {b : TaskBlocks} (hpcb : b.pcb.all k.pcbFree = true) (hspace : b.space.all k.spaceFree = true) :
    Hosted p₀ (k.sysFork b).1 := by
  unfold Kernel.sysFork
  rw [hc]
  rcases taskCreate_cases h hpcb hspace with ⟨k1, heq, h1⟩ | ⟨k1, child, c, heq, h1, hnew⟩
  · rw [heq]
    exact h1
  · rw [heq]
    dsimp only
    have hc1 : k1.procs.sched.current = some cur := hnew.current.trans hc
    have hu1 : k1.isKernel cur = false := (hnew.kinds cur (h.current cur hc)).trans hu
    have hne : cur ≠ child := by
      rintro rfl
      exact hnew.fresh (h.current cur hc)
    obtain ⟨p, r, hp, hpk, hr, hsr, hrin⟩ := h1.root (h1.current cur hc1) hu1
    obtain ⟨q, c', hq, hqk, hc', hsc, hcin⟩ := h1.root hnew.task hnew.user
    obtain rfl : c' = c := by
      have := hsc.symm.trans hnew.space
      exact some.inj (congrArg AddressSpace.pml4 this)
    have hrc : r ≠ c' := by
      intro hrc
      refine h1.apart cur (h1.current cur hc1) child hnew.task hu1 hnew.user hne ?_
      rw [hsr, hsc, hrc]
    have h2 := hosted_tree (p := k1.procs.linkChild cur child) h1 rfl
    obtain ⟨st, m, hrun, hcloned⟩ := cloneSpace_spaces h1.spaces hrin hcin hrc hnew.empty
    have hspaces : spaceOf { k1 with procs := k1.procs.linkChild cur child } cur = .ofRoot r ∧
        spaceOf { k1 with procs := k1.procs.linkChild cur child } child = .ofRoot c' := ⟨hsr, hsc⟩
    rw [hspaces.1, hspaces.2, hrun]
    dsimp only
    have h3 := h2.remap hcloned.spaces
    have hcreated : state { k1 with procs := k1.procs.linkChild cur child, vmm := m } child = .created := hnew.created
    split
    · rename_i hst
      refine h3.taskDestroy ?_ ?_ ?_ hnew.task ?_
      · rw [hcreated]
        decide
      · rw [hcreated]
        decide
      · intro he
        exact hne (some.inj (hc1.symm.trans he))
      · intro _ r' hr' f hf
        have hroot : (k1.spaceOf child).pml4 = some r' := hr'
        rw [hsc] at hroot
        cases hroot
        obtain ⟨p', i', hf⟩ := hf
        exact absurd hf (hcloned.empty hst p' i' f)
    · obtain ⟨added, qs, hi⟩ := h3.sched
      have hq : ¬ Queued qs child := by
        intro hq
        have := hi.queued child hq
        change state { k1 with procs := k1.procs.linkChild cur child, vmm := m } child = .ready ∨ _ ∧ _ at this
        rw [hcreated] at this
        rcases this with he | ⟨he, -⟩
        · cases he
        · change k1.state child = .running at he
          rw [hnew.created] at he
          cases he
      refine h3.reschedule ⟨_, _, hi.addTask hq⟩ rfl rfl fun t ht => ?_
      have hne' : t ≠ child := by
        rintro rfl
        exact ht hnew.task
      exact mlfqEnqueue_state _ 0 hne'

variable {elfAddr elfSize : BitVec 64}

/-- `sys_execve` that loads no image. -/
theorem hosted_execve
    {block : Option SpacePtr} (hblock : block.all k.spaceFree = true)
    (hload : block = none ∨ k.loadable cur elfAddr elfSize = false) : Hosted p₀ (k.sysExecve elfAddr elfSize block).1 := by
  unfold sysExecve
  rw [hc]
  dsimp only
  cases hv : validateUserPointer k.vmm (k.spaceOf cur) elfAddr elfSize with
  | false => exact h
  | true =>
    cases block with
    | none => exact h
    | some p =>
      have hp : k.spaceFree p = true := hblock
      unfold loadable at hload
      rw [hv] at hload
      rcases createSpace_run h.spaces.init h.spaces.kernel_not_free with ⟨-, hrun⟩ | ⟨c, hcfree, hrun⟩
      · rw [hrun]
        exact h
      · rw [hrun] at hload ⊢
        dsimp only at hload ⊢
        obtain ⟨⟨st, result⟩, m, helf, hl⟩ := elfLoad_loading (k.imageAt elfAddr) elfSize (Loading.created h.spaces hcfree)
        rw [helf] at hload ⊢
        have hst : st ≠ .ok := by
          rcases hload with hnone | hfalse
          · cases hnone
          · exact of_decide_eq_false hfalse
        dsimp only
        rw [if_pos hst]
        unfold destroySpace
        dsimp only
        obtain ⟨m', hdestroy, hm', -⟩ := destroySpace_spaces hl.spaces hl.root hl.alone
        rw [update_self, hdestroy]
        dsimp only
        rw [update_idem]
        refine (h.remap (hm'.sub fun r hr => ?_)).setFree (p := p) hp _
        rw [mem_filter, decide_eq_true_eq]
        refine ⟨mem_cons_of_mem _ hr, ?_⟩
        rintro rfl
        exact h.spaces.not_table_of_free hcfree ⟨r, hr, [], .nil 256, rfl⟩

/-! ## Runs -/

omit h hc in
/-- A step that a task makes is made by the current task, a user task that has not exited. -/
theorem step_byTask {op : KernelOp} (hs : op.step k = some k') (hop : op ≠ .tick) :
    ∃ cur, k.procs.sched.current = some cur ∧ k.isKernel cur = false ∧ k.state cur ≠ .zombie ∧ op.byTask k cur = some k' := by
  unfold KernelOp.step at hs
  cases hc : k.procs.sched.current with
  | none =>
    rw [hc] at hs
    cases op with
    | tick => exact absurd rfl hop
    | _ => cases hs
  | some cur =>
    rw [hc] at hs
    cases op with
    | tick => exact absurd rfl hop
    | _ =>
      obtain ⟨hg, hrun⟩ := ite_none_right_eq_some.mp hs
      exact ⟨cur, rfl, hg.1, hg.2, hrun⟩

omit hc in
theorem hosted_step {op : KernelOp} (hop : op.Harmless k) (hs : op.step k = some k') : Hosted p₀ k' := by
  by_cases htick : op = .tick
  · subst htick
    exact hosted_tick h hs
  obtain ⟨cur, hc, hu, hz, hrun⟩ := step_byTask hs htick
  cases op with
  | tick => exact absurd rfl htick
  | fork b =>
    unfold byTask at hrun
    dsimp only at hrun
    split at hrun
    · rename_i hb
      cases hrun
      exact hosted_fork h hc hu hb.1 hb.2
    · cases hrun
  | execve elfAddr elfSize block =>
    unfold byTask at hrun
    dsimp only at hrun
    split at hrun
    · rename_i hb
      cases hrun
      exact hosted_execve h hc hb (hop.imp id fun hl => hl cur hc)
    · cases hrun
  | wait statusPtr =>
    obtain ⟨res, hres, rfl⟩ := map_eq_some_iff.mp hrun
    unfold sysWait at hres
    split at hres
    · cases hres
      exact h
    · exact hosted_wait h hc hz hop hres
  | exit code =>
    obtain ⟨p, hp, rfl⟩ := map_eq_some_iff.mp hrun
    exact hosted_exit h hc hu (hop cur hc) hp
  | write v b =>
    have hw := hosted_write h hc hu v b (some (k.regions cur))
    unfold byTask at hrun
    dsimp only at hrun
    split at hrun
    · rename_i m heq
      cases hrun
      rw [heq] at hw
      exact hw
    · cases hrun

omit h hc in
theorem setSpace_spaceOf (k : Kernel) (t : TaskPtr) (p : SpacePtr) (regions : UserRegions) :
    (k.setSpace t (some p) regions).spaceOf t = k.spaces p :=
  spaceOf_of_eq (update_self _ _ _)

variable {p : SpacePtr}

/-- What `sys_execve` leaves when it loads an image: the new address space in the task, and CR3 as it was. -/
theorem execve_loaded (hp : k.addressSpace cur ≠ some p)
    (hload : k.loadable cur elfAddr elfSize = true) :
    (k.sysExecve elfAddr elfSize (some p)).2 = 0 ∧ ∃ (c : Nat) (k1 : Kernel) (m : Vmm) (regions : UserRegions), k.vmm.pmm.Free c ∧
      (k.sysExecve elfAddr elfSize (some p)).1 = Kernel.setSpace { k1 with vmm := m } cur (some p) regions ∧
      k1.spaces p = .ofRoot c ∧ k1.cr3 = k.cr3 ∧ k1.procs = k.procs := by
  unfold loadable at hload
  rw [Bool.and_eq_true] at hload
  obtain ⟨hv, hload⟩ := hload
  rcases createSpace_run h.spaces.init h.spaces.kernel_not_free with ⟨-, hrun⟩ | ⟨c, hcfree, hrun⟩
  · rw [hrun] at hload
    cases hload
  rw [hrun] at hload
  dsimp only at hload
  obtain ⟨⟨st, result⟩, m, helf, -⟩ := elfLoad_loading (k.imageAt elfAddr) elfSize (Loading.created h.spaces hcfree)
  rw [helf, decide_eq_true_eq] at hload
  subst hload
  unfold sysExecve
  rw [hc]
  dsimp only
  rw [hv, hrun]
  dsimp only
  rw [helf]
  cases ha : k.addressSpace cur with
  | none => exact ⟨rfl, c, _, _, _, hcfree, rfl, update_self _ _ _, rfl, rfl⟩
  | some old =>
    rw [ha] at hp
    have hne : p ≠ old := fun he => hp (congrArg some he.symm)
    refine ⟨rfl, c, _, _, _, hcfree, rfl, ?_, rfl, rfl⟩
    exact (update_of_ne hne _ _).trans (update_self _ _ _)

/-- The PML4 of the new address space was free before, so it is not the one in CR3. -/
theorem execve_inactive (hp : k.spaceFree p = true)
    (hload : k.loadable cur elfAddr elfSize = true) :
    ¬ (k.sysExecve elfAddr elfSize (some p)).1.Active := by
  have hold : k.addressSpace cur ≠ some p := (Hosted.spaceFree_iff.mp hp).2 cur (h.current cur hc)
  obtain ⟨-, c, k1, m, regions, hfree, heq, hspace, hcr3, hprocs⟩ := execve_loaded h hc hold hload
  rw [heq]
  intro hactive
  have hcur : (setSpace { k1 with vmm := m } cur (some p) regions).procs.sched.current = some cur := by
    rw [hprocs]
    exact hc
  have hroot := (hactive cur hcur).1
  rw [setSpace_spaceOf] at hroot
  rw [hspace, hcr3] at hroot
  cases hroot
  exact Spaces.not_free_of_used (h.cr3_used hc) hfree

omit h in
theorem step_execve (hu : k.isKernel cur = false)
    (hz : k.state cur ≠ .zombie) (elfAddr elfSize : BitVec 64) (hp : k.spaceFree p = true) :
    KernelOp.step k (.execve elfAddr elfSize (some p)) = some (k.sysExecve elfAddr elfSize (some p)).1 := by
  unfold KernelOp.step
  rw [hc]
  dsimp only
  rw [if_pos ⟨hu, hz⟩]
  exact if_pos hp

end TaskSpacesAux

open TaskSpacesAux

/-- In a run whose steps all are harmless, CR3 holds the PML4 of the current task after every step, and its frame is in use. After
`sys_execve` of an image that the loader accepts, it does not. -/
theorem active_root_live {p₀ : Pmm} {k : Kernel} (h : Hosted p₀ k) :
    (∀ ops, Each KernelOp.step (fun s op _ => op.Harmless s) k ops → Each KernelOp.step (fun _ _ s => s.Active) k ops) ∧
    ∀ cur elfAddr elfSize p k', k.procs.sched.current = some cur → k.loadable cur elfAddr elfSize = true →
      KernelOp.step k (.execve elfAddr elfSize (some p)) = some k' → ¬ k'.Active := by
  refine ⟨fun ops hops => ?_, fun cur elfAddr elfSize p k' hc hload hs => ?_⟩
  · refine Each.of_inv (I := Hosted p₀) (fun s op s' hs hstep hop => ?_) h hops
    have h' := hosted_step hs hop hstep
    exact ⟨h', fun t ht => ⟨h'.cr3 t ht, h'.cr3_used ht⟩⟩
  · obtain ⟨cur', hc', -, -, hrun⟩ := step_byTask hs (by simp)
    obtain rfl := some.inj (hc.symm.trans hc')
    unfold byTask at hrun
    dsimp only at hrun
    split at hrun
    · rename_i hb
      cases hrun
      exact execve_inactive h hc hb hload
    · cases hrun

/-! ## A task with an image in its memory -/

namespace TaskSpacesAux

/-- The idle task 1 is ready and task 5 runs. -/
def sampleSched : Scheduler where
  mlfq := (mlfqEnqueue (mlfqInit (fun _ => ⟨.created, 0, 0, 0, none⟩)) (some 1) 3).setState 5 .running
  current := some 5
  idle := some 1
  readyCount := 1
  initialized := true

theorem sampleSched_sound : Sound sampleSched := by
  have hr := (Rep.init (fun _ => ⟨.created, 0, 0, 0, none⟩)).enqueue (t := 1) (levelIdx_val 3) (by simp)
  have hready := (mlfqEnqueue_self (mlfqInit (fun _ => ⟨.created, 0, 0, 0, none⟩)) (t := 1) (levelIdx_val 3)).1
  refine ⟨fun _ => False, _, rep_setState hr 5 .running, rfl, fun t ht => ?_, fun t ht => ht.elim⟩
  rcases queued_append.1 ht with rfl | ⟨_, hm⟩
  · left
    unfold sampleSched
    exact hready
  · cases hm

/-- All other blocks are as they were before there were tasks. -/
theorem sampleSched_state {t : TaskPtr} (h1 : t ≠ 1) (h5 : t ≠ 5) : (sampleSched.mlfq.tasks t).state = .created := by
  unfold sampleSched
  rw [setState_of_ne _ _ h5]
  exact mlfqEnqueue_state _ 3 h1

/-- The words of a page with an image of one empty segment. -/
def imageWords : List (BitVec 64) :=
  [0x00010102464C457F#64, 0#64, 0x00000001003E0002#64, 0x400000#64, 64#64, 0#64, 0x0038004000000000#64, 1#64,
   0x0000000600000001#64, 0#64, 0x400000#64, 0#64, 0#64, 0x1000#64, 0x1000#64]

def userFlags : MapFlags := ⟨pteWritable ||| pteUser, by decide, by decide, by decide⟩

/-- The address space at frame 2 with the image in the page at 0x1000. -/
def imageVmm : Vmm :=
  (((mapFresh (.ofRoot 2) samplePage.addr userFlags.bits).run (emptyVmm.alloc 2 (newPml4 emptyVmm))).2).setPage 3
    fun i => imageWords.getD i.val 0#64

/-- Task 5 with its address space, and the idle task. -/
def sampleKernel : Kernel where
  procs := { sched := sampleSched, procs := fun t => ⟨t.val, 0, none, none, none, false⟩, initTask := none }
  nextPid := 6
  taskList := [5]
  vmm := imageVmm
  isKernel := fun t => decide (t ≠ 5)
  addressSpace := fun t => if t = 5 then some 0x20#64 else some 0x10#64
  regions := fun _ => noRegions
  spaces := fun p => if p = 0x20#64 then .ofRoot 2 else { pml4 := some 1, isKernel := true }
  kernelSpace := 0x10#64
  cr3 := 2

theorem imageVmm_spaces : Spaces emptyVmm.pmm [2] imageVmm := by
  have hpage := (mapFresh_keeps ((spaces_nil emptyVmm_ground).create first_create.1) (mem_singleton_self 2) samplePage
    userFlags).spaces
  have hmaps : Maps ((mapFresh (.ofRoot 2) samplePage.addr userFlags.bits).run (emptyVmm.alloc 2 (newPml4 emptyVmm))).2.mem 2
      (vaPath samplePage.addr) (ptIndex samplePage.addr) 3 := by
    refine ⟨samplePage.leafPath, ?_⟩
    decide +kernel
  obtain ⟨hfree, -, hnt⟩ := hpage.mapped 3 ⟨2, mem_singleton_self 2, _, _, hmaps⟩
  exact (hpage.setPage hfree hnt _).1

theorem sampleKernel_roots : sampleKernel.roots = [2] := by decide +kernel

theorem sampleKernel_tasks {t : TaskPtr} : t ∈ sampleKernel.tasks ↔ t = 1 ∨ t = 5 := by
  rw [mem_tasks]
  unfold sampleKernel sampleSched
  simp [eq_comm]

theorem sampleKernel_hosted : Hosted emptyVmm.pmm sampleKernel where
  sched := sampleSched_sound
  current t ht := by
    cases ht
    exact sampleKernel_tasks.mpr (.inr rfl)
  strangers t ht := by
    rw [sampleKernel_tasks, not_or] at ht
    exact .inl (sampleSched_state ht.1 ht.2)
  nodup := by decide
  idle t ht := by
    cases ht
    rfl
  kernel t ht hk := by
    rcases sampleKernel_tasks.mp ht with rfl | rfl
    · rfl
    · exact absurd hk (by decide)
  kernelRoot := ⟨1, rfl, by decide⟩
  user t ht hk := by
    rcases sampleKernel_tasks.mp ht with rfl | rfl
    · exact absurd hk (by decide)
    · exact ⟨0x20#64, 2, rfl, by decide, rfl⟩
  apart t ht u hu hkt hku hne := by
    rcases sampleKernel_tasks.mp ht with rfl | rfl
    · exact absurd hkt (by decide)
    · rcases sampleKernel_tasks.mp hu with rfl | rfl
      · exact absurd hku (by decide)
      · exact absurd rfl hne
  spaces := by
    exact imageVmm_spaces
  cr3 t ht := by
    cases ht
    rfl

theorem sampleKernel_loadable : sampleKernel.loadable 5 0x1000#64 120#64 = true := by decide +kernel

/-- Forks and ticks are harmless. -/
theorem harmless_forks_ticks (b : TaskBlocks) (k : Kernel) :
    Each KernelOp.step (fun s op _ => op.Harmless s) k [.fork b, .tick, .tick, .tick] := by
  simp only [Each, KernelOp.Harmless, true_and]
  repeat' split
  all_goals trivial

end TaskSpacesAux

/-- Task 5 forks task 6, and the scheduler ticks. -/
theorem active_root_live_fork : Hosted emptyVmm.pmm sampleKernel ∧
    Each KernelOp.step (fun _ _ s => s.Active) sampleKernel [.fork ⟨some 6, true, some 0x30#64⟩, .tick, .tick, .tick] := by
  have h := sampleKernel_hosted
  generalize sampleKernel = k at h
  exact ⟨h, (active_root_live h).1 _ (harmless_forks_ticks _ k)⟩

/-- Task 5 executes the image in its memory: before the call CR3 holds the PML4 of its address space, after it the call has
succeeded and CR3 does not. -/
theorem execve_stale_root : sampleKernel.Active ∧ (sampleKernel.sysExecve 0x1000#64 120#64 (some 0x30#64)).2 = 0 ∧
    ∃ k, KernelOp.step sampleKernel (.execve 0x1000#64 120#64 (some 0x30#64)) = some k ∧ ¬ k.Active := by
  have h := sampleKernel_hosted
  have hload := sampleKernel_loadable
  have hfree : sampleKernel.spaceFree 0x30#64 = true := by decide
  have hcur : sampleKernel.procs.sched.current = some 5 := rfl
  have huser : sampleKernel.isKernel 5 = false := rfl
  have hrun : sampleKernel.state 5 ≠ .zombie := by decide
  generalize sampleKernel = k at h hload hfree hcur huser hrun
  have hold : k.addressSpace 5 ≠ some 0x30#64 := (Hosted.spaceFree_iff.mp hfree).2 5 (h.current 5 hcur)
  exact ⟨fun t ht => ⟨h.cr3 t ht, h.cr3_used ht⟩, (execve_loaded h hcur hold hload).1, _, step_execve hcur huser hrun _ _ hfree,
    execve_inactive h hcur hfree hload⟩

end TsOs
