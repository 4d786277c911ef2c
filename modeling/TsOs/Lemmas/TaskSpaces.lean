import TsOs.TaskSpaces
import TsOs.Lemmas.Elf
import TsOs.Lemmas.UserMemory
import TsOs.Theorems.TaskExit

/-!
# Tasks and their address spaces

`Hosted` says that every task that exists has an address space of its own, or is a kernel task, and that CR3 holds the PML4 of the
current one. The lemmas say which updates of the state keep it: they are the parts of which the system calls are made.
-/

namespace TsOs

open StateProg PteAux TableAux VmmRun MlfqAux SchedulerAux TaskExitAux RangeAux Function List Kernel

/-- The PML4s of the user tasks. -/
def Kernel.roots (k : Kernel) : List Nat :=
  (k.taskList.filter fun t => !k.isKernel t).filterMap fun t => (k.spaceOf t).pml4

/-- The tasks and their address spaces. The frames of the address spaces were free in `p0`, in which the PML4 of the kernel was
in use. A block in which there is no task was never one or was destroyed. -/
structure Hosted (p0 : Pmm) (k : Kernel) : Prop where
  sched : Sound k.procs.sched
  current : ∀ t, k.procs.sched.current = some t → t ∈ k.tasks
  strangers : ∀ t, t ∉ k.tasks → k.state t = .created ∨ k.state t = .dead
  nodup : k.taskList.Nodup
  idle : ∀ t, k.procs.sched.idle = some t → k.isKernel t = true
  kernel : ∀ t ∈ k.tasks, k.isKernel t = true → k.addressSpace t = some k.kernelSpace
  kernelRoot : ∃ r, (k.spaces k.kernelSpace).pml4 = some r ∧ p0.isUsed r = true
  user : ∀ t ∈ k.tasks, k.isKernel t = false → ∃ p r, k.addressSpace t = some p ∧ p ≠ k.kernelSpace ∧ k.spaces p = .ofRoot r
  apart : ∀ t ∈ k.tasks, ∀ u ∈ k.tasks, k.isKernel t = false → k.isKernel u = false → t ≠ u →
    (k.spaceOf t).pml4 ≠ (k.spaceOf u).pml4
  spaces : Spaces p0 k.roots k.vmm
  cr3 : ∀ t, k.procs.sched.current = some t → (k.spaceOf t).pml4 = some k.cr3

variable {p0 : Pmm} {k : Kernel}

theorem Kernel.mem_roots {r : Nat} :
    r ∈ k.roots ↔ ∃ t ∈ k.taskList, k.isKernel t = false ∧ (k.spaceOf t).pml4 = some r := by
  unfold roots
  simp [mem_filterMap, and_assoc]

variable {t : TaskPtr}

theorem Kernel.mem_tasks : t ∈ k.tasks ↔ k.procs.sched.idle = some t ∨ t ∈ k.taskList := by
  unfold tasks
  simp [Option.mem_toList]

variable {p : SpacePtr}

theorem Kernel.spaceOf_of_eq (h : k.addressSpace t = some p) : k.spaceOf t = k.spaces p := by
  unfold spaceOf
  rw [h]

theorem Kernel.fillTask_mlfq (k : Kernel) (t : TaskPtr) : (k.fillTask t).procs.sched.mlfq = k.procs.sched.mlfq.modify t (fun _ =>
    { state := .created, timeSlice := 5, remainingTicks := 5, mlfqLevel := 0, next := none }) := rfl

namespace Hosted

/-- A user task is on the task list. -/
theorem listed (h : Hosted p0 k) (ht : t ∈ k.tasks) (hu : k.isKernel t = false) : t ∈ k.taskList := by
  rcases mem_tasks.mp ht with hi | hl
  · rw [h.idle t hi] at hu
    cases hu
  · exact hl

/-- The address space of a user task. -/
theorem root (h : Hosted p0 k) (ht : t ∈ k.tasks) (hu : k.isKernel t = false) :
    ∃ p r, k.addressSpace t = some p ∧ p ≠ k.kernelSpace ∧ k.spaces p = .ofRoot r ∧ k.spaceOf t = .ofRoot r ∧ r ∈ k.roots := by
  obtain ⟨p, r, hp, hne, hr⟩ := h.user t ht hu
  have hs : k.spaceOf t = .ofRoot r := (spaceOf_of_eq hp).trans hr
  refine ⟨p, r, hp, hne, hr, hs, mem_roots.mpr ⟨t, h.listed ht hu, hu, ?_⟩⟩
  rw [hs]
  rfl

/-- The frame in CR3 is in use. -/
theorem cr3_used (h : Hosted p0 k) (ht : k.procs.sched.current = some t) : k.vmm.pmm.isUsed k.cr3 = true := by
  have hcr3 := h.cr3 t ht
  cases hk : k.isKernel t with
  | true =>
    obtain ⟨r, hr, hused⟩ := h.kernelRoot
    rw [spaceOf_of_eq (h.kernel t (h.current t ht) hk), hr] at hcr3
    cases hcr3
    exact h.spaces.base _ hused
  | false =>
    obtain ⟨p, r, -, -, -, hs, hr⟩ := h.root (h.current t ht) hk
    rw [hs] at hcr3
    cases hcr3
    exact (h.spaces.owned _ ⟨_, hr, [], .nil 256, rfl⟩).2

/-- A block that holds the address space of no task. -/
theorem spaceFree_iff :
    k.spaceFree p = true ↔ p ≠ k.kernelSpace ∧ ∀ t ∈ k.tasks, k.addressSpace t ≠ some p := by
  unfold spaceFree
  simp

/-! ## Updates -/

variable (h : Hosted p0 k)
include h

/-- The memory manager goes on, with the address spaces of the tasks. -/
theorem remap {m : Vmm} (hm : Spaces p0 k.roots m) : Hosted p0 { k with vmm := m } :=
  ⟨h.sched, h.current, h.strangers, h.nodup, h.idle, h.kernel, h.kernelRoot, h.user, h.apart, hm, h.cr3⟩

/-- A write to an `address_space_t` that belongs to no task. -/
theorem setFree (hp : k.spaceFree p = true) (as : AddressSpace) :
    Hosted p0 { k with spaces := update k.spaces p as } := by
  obtain ⟨hne, hfree⟩ := spaceFree_iff.mp hp
  have hspace : ∀ t ∈ k.tasks, spaceOf { k with spaces := update k.spaces p as } t = k.spaceOf t := by
    intro t ht
    have := hfree t ht
    unfold spaceOf
    cases ha : k.addressSpace t with
    | none => rfl
    | some q =>
      rw [ha] at this
      exact update_of_ne (fun hq => this (congrArg some hq)) _ _
  have hroots : roots { k with spaces := update k.spaces p as } = k.roots := by
    refine filterMap_congr fun t ht => ?_
    rw [hspace t (mem_tasks.mpr (.inr (mem_of_mem_filter ht)))]
  refine ⟨h.sched, h.current, h.strangers, h.nodup, h.idle, h.kernel, ?_, ?_, ?_, ?_, ?_⟩
  · obtain ⟨r, hr, hused⟩ := h.kernelRoot
    refine ⟨r, ?_, hused⟩
    rw [← hr]
    exact congrArg AddressSpace.pml4 (update_of_ne hne.symm _ _)
  · intro t ht hu
    obtain ⟨q, r, hq, hqk, hr⟩ := h.user t ht hu
    refine ⟨q, r, hq, hqk, ?_⟩
    rw [← hr]
    exact update_of_ne (fun he : q = p => hfree t ht (he ▸ hq)) _ _
  · intro t ht u hu
    rw [hspace t ht, hspace u hu]
    exact h.apart t ht u hu
  · rw [hroots]
    exact h.spaces
  · intro t ht
    rw [hspace t (h.current t ht)]
    exact h.cr3 t ht

/-- The scheduler and the process tree go on, with the same current task. -/
theorem reschedule {p : Processes} (hs : Sound p.sched) (hi : p.sched.idle = k.procs.sched.idle)
    (hc : p.sched.current = k.procs.sched.current)
    (hst : ∀ t, t ∉ k.tasks → (p.sched.mlfq.tasks t).state = k.state t) : Hosted p0 { k with procs := p } := by
  have htasks : tasks { k with procs := p } = k.tasks := by
    unfold tasks
    rw [hi]
  refine ⟨hs, ?_, ?_, h.nodup, ?_, ?_, h.kernelRoot, ?_, ?_, h.spaces, ?_⟩
  · rw [htasks, hc]
    exact h.current
  · rw [htasks]
    intro t ht
    have hsame : state { k with procs := p } t = k.state t := hst t ht
    rw [hsame]
    exact h.strangers t ht
  · rw [hi]
    exact h.idle
  · rw [htasks]
    exact h.kernel
  · rw [htasks]
    exact h.user
  · rw [htasks]
    exact h.apart
  · rw [hc]
    exact h.cr3

/-- The block of a new task, which no task is in, is filled in. -/
theorem fillTask (ht : t ∉ k.tasks) : Hosted p0 (k.fillTask t) := by
  have hstate : k.state t = .created ∨ k.state t = .dead := h.strangers t ht
  have hne : ∀ u ∈ k.tasks, u ≠ t := by
    rintro u hu rfl
    exact ht hu
  have hother : ∀ u, u ≠ t → (k.fillTask t).state u = k.state u := by
    intro u hu
    unfold state
    rw [fillTask_mlfq, modify_tasks_of_ne _ _ hu]
  have hspace : ∀ u ∈ k.tasks, (k.fillTask t).addressSpace u = k.addressSpace u ∧ (k.fillTask t).isKernel u = k.isKernel u ∧
      (k.fillTask t).spaceOf u = k.spaceOf u := by
    intro u hu
    have ha : (k.fillTask t).addressSpace u = k.addressSpace u := update_of_ne (hne u hu) _ _
    refine ⟨ha, update_of_ne (hne u hu) _ _, ?_⟩
    unfold spaceOf
    rw [ha]
    rfl
  have hroots : (k.fillTask t).roots = k.roots := by
    have hlist : ∀ u ∈ k.taskList, u ∈ k.tasks := fun u hu => mem_tasks.mpr (.inr hu)
    have hfilter : (k.taskList.filter fun u => !(k.fillTask t).isKernel u) = k.taskList.filter fun u => !k.isKernel u := by
      refine filter_congr fun u hu => ?_
      rw [(hspace u (hlist u hu)).2.1]
    change ((k.taskList.filter fun u => !(k.fillTask t).isKernel u).filterMap fun u => ((k.fillTask t).spaceOf u).pml4) = _
    rw [hfilter]
    refine filterMap_congr fun u hu => ?_
    rw [(hspace u (hlist u (mem_of_mem_filter hu))).2.2]
  refine ⟨?_, h.current, ?_, h.nodup, ?_, ?_, h.kernelRoot, ?_, ?_, ?_, ?_⟩
  · obtain ⟨added, qs, hi⟩ := h.sched
    have hq : ¬ Queued qs t := by
      intro hq
      have hst := hi.queued t hq
      change k.state t = .ready ∨ k.state t = .running ∧ _ at hst
      rcases hstate with he | he <;> rw [he] at hst <;> simp at hst
    exact ⟨fun u => u ≠ t ∧ added u, qs, hi.replace hq _⟩
  · intro u hu
    by_cases e : u = t
    · subst e
      left
      unfold state
      rw [fillTask_mlfq, modify_tasks_self]
    · rw [hother u e]
      exact h.strangers u hu
  · intro u hu
    rw [(hspace u (mem_tasks.mpr (.inl hu))).2.1]
    exact h.idle u hu
  · intro u hu
    rw [(hspace u hu).1, (hspace u hu).2.1]
    exact h.kernel u hu
  · intro u hu
    rw [(hspace u hu).1, (hspace u hu).2.1]
    exact h.user u hu
  · intro u hu v hv
    rw [(hspace u hu).2.1, (hspace u hu).2.2, (hspace v hv).2.1, (hspace v hv).2.2]
    exact h.apart u hu v hv
  · rw [hroots]
    exact h.spaces
  · intro u hu
    rw [(hspace u (h.current u hu)).2.2]
    exact h.cr3 u hu

/-- A new task gets the address space in a block that is not in use. -/
theorem adopt (ht : t ∉ k.tasks) (hu : k.isKernel t = false)
    (hp : k.spaceFree p = true) {c : Nat} {m : Vmm} (hm : Spaces p0 (c :: k.roots) m) (hc : c ∉ k.roots) (regions : UserRegions) :
    Hosted p0 (Kernel.setSpace
      { k with vmm := m, spaces := update k.spaces p (.ofRoot c), taskList := t :: k.taskList } t (some p) regions) := by
  obtain ⟨hpk, hfree⟩ := spaceFree_iff.mp hp
  set k' := setSpace
      { k with vmm := m, spaces := update k.spaces p (.ofRoot c), taskList := t :: k.taskList } t (some p) regions
  have hmem : ∀ u, u ∈ k'.tasks ↔ u = t ∨ u ∈ k.tasks := by
    intro u
    rw [mem_tasks, mem_tasks, show k'.taskList = t :: k.taskList from rfl, mem_cons]
    exact or_left_comm
  have hnew : k'.addressSpace t = some p ∧ k'.spaces p = .ofRoot c ∧ k'.spaceOf t = .ofRoot c := by
    have ha : k'.addressSpace t = some p := update_self _ _ _
    have hs : k'.spaces p = .ofRoot c := update_self _ _ _
    exact ⟨ha, hs, (spaceOf_of_eq ha).trans hs⟩
  have hold : ∀ u ∈ k.tasks, k'.addressSpace u = k.addressSpace u ∧ k'.spaceOf u = k.spaceOf u := by
    intro u hin
    have hne : u ≠ t := by
      rintro rfl
      exact ht hin
    have ha : k'.addressSpace u = k.addressSpace u := update_of_ne hne _ _
    refine ⟨ha, ?_⟩
    unfold spaceOf
    rw [ha]
    cases hq : k.addressSpace u with
    | none => rfl
    | some q => exact update_of_ne (fun he : q = p => hfree u hin (he ▸ hq)) _ _
  have hroot : ∀ u ∈ k.tasks, k.isKernel u = false → (k.spaceOf u).pml4 ≠ some c := by
    intro u hu huser he
    exact hc (mem_roots.mpr ⟨u, h.listed hu huser, huser, he⟩)
  refine ⟨h.sched, ?_, ?_, ?_, ?_, ?_, ?_, ?_, ?_, ?_, ?_⟩
  · intro u hcur
    exact (hmem u).mpr (.inr (h.current u hcur))
  · intro u hout
    rw [hmem, not_or] at hout
    exact h.strangers u hout.2
  · exact nodup_cons.mpr ⟨fun hin => ht (mem_tasks.mpr (.inr hin)), h.nodup⟩
  · exact h.idle
  · intro u hin hk
    rcases (hmem u).mp hin with rfl | hin
    · exact absurd (hk.symm.trans hu) Bool.noConfusion
    · rw [(hold u hin).1]
      exact h.kernel u hin hk
  · obtain ⟨r, hr, hused⟩ := h.kernelRoot
    have hkept : k'.spaces k'.kernelSpace = k.spaces k.kernelSpace := update_of_ne hpk.symm _ _
    exact ⟨r, hkept ▸ hr, hused⟩
  · intro u hin hk
    rcases (hmem u).mp hin with rfl | hin
    · exact ⟨p, c, hnew.1, hpk, hnew.2.1⟩
    · obtain ⟨q, r, hq, hqk, hr⟩ := h.user u hin hk
      have hne : q ≠ p := fun he => hfree u hin (he ▸ hq)
      exact ⟨q, r, (hold u hin).1.trans hq, hqk, (update_of_ne hne _ _).trans hr⟩
  · intro u hinu v hinv hku hkv hne
    rcases (hmem u).mp hinu with rfl | hin
    · rcases (hmem v).mp hinv with rfl | hinv
      · exact absurd rfl hne
      · rw [hnew.2.2, (hold v hinv).2]
        exact (hroot v hinv hkv).symm
    · rw [(hold u hin).2]
      rcases (hmem v).mp hinv with rfl | hinv
      · rw [hnew.2.2]
        exact hroot u hin hku
      · rw [(hold v hinv).2]
        exact h.apart u hin v hinv hku hkv hne
  · refine hm.sub fun r hr => ?_
    obtain ⟨u, hin, hk, hpml4⟩ := mem_roots.mp hr
    rcases mem_cons.mp hin with rfl | hin
    · rw [hnew.2.2] at hpml4
      cases hpml4
      exact mem_cons_self
    · rw [(hold u (mem_tasks.mpr (.inr hin))).2] at hpml4
      exact mem_cons_of_mem _ (mem_roots.mpr ⟨u, hin, hk, hpml4⟩)
  · intro u hcur
    rw [(hold u (h.current u hcur)).2]
    exact h.cr3 u hcur

variable (hready : k.state t ≠ .ready) (hrun : k.state t ≠ .running) (hcur : k.procs.sched.current ≠ some t)
include hready hrun hcur

/-- A task that neither is ready nor runs is taken off the list. -/
theorem dropTask : Hosted p0 (k.dropTask t) := by
  have hmem : ∀ u, u ∈ (k.dropTask t).tasks → u ∈ k.tasks := by
    intro u hu
    rw [mem_tasks] at hu ⊢
    exact hu.imp id mem_of_mem_erase
  refine ⟨?_, ?_, ?_, h.nodup.erase t, h.idle, fun u hu => h.kernel u (hmem u hu), h.kernelRoot, fun u hu => h.user u (hmem u hu),
    fun u hu v hv => h.apart u (hmem u hu) v (hmem v hv), ?_, h.cr3⟩
  · obtain ⟨added, qs, hi⟩ := h.sched
    have hq : ¬ Queued qs t := by
      intro hq
      rcases hi.queued t hq with he | ⟨he, -⟩
      · exact hready he
      · exact hrun he
    exact ⟨added, qs, hi.setState hq (by decide)⟩
  · intro u hu
    have hne : u ≠ t := by
      rintro rfl
      exact hcur hu
    rcases mem_tasks.mp (h.current u hu) with hi | hl
    · exact mem_tasks.mpr (.inl hi)
    · exact mem_tasks.mpr (.inr ((mem_erase_of_ne hne).mpr hl))
  · intro u hu
    by_cases e : u = t
    · subst e
      exact .inr (setState_self _ _ _)
    · have hst : (k.dropTask t).state u = k.state u := congrArg Task.state (setState_of_ne _ _ e)
      rw [hst]
      refine h.strangers u fun hin => hu ?_
      rcases mem_tasks.mp hin with hi | hl
      · exact mem_tasks.mpr (.inl hi)
      · exact mem_tasks.mpr (.inr ((mem_erase_of_ne e).mpr hl))
  · refine h.spaces.sub fun r hr => ?_
    obtain ⟨u, hin, hk, hpml4⟩ := mem_roots.mp hr
    exact mem_roots.mpr ⟨u, mem_of_mem_erase hin, hk, hpml4⟩

/-- `task_destroy` of a task that neither is ready nor runs, whose address space shares no frame. -/
theorem taskDestroy (ht : t ∈ k.tasks)
    (halone : k.isKernel t = false → ∀ r, (k.spaceOf t).pml4 = some r → MapsAlone k.roots r k.vmm) :
    Hosted p0 (k.taskDestroy t) := by
  have hdrop := h.dropTask hready hrun hcur
  unfold Kernel.taskDestroy
  cases hk : k.isKernel t with
  | true => exact hdrop
  | false =>
    obtain ⟨p, r, hp, hpk, hr, hs, hroot⟩ := h.root ht hk
    have halone' : MapsAlone k.roots r k.vmm := halone hk r (by rw [hs]; rfl)
    obtain ⟨m', hrunD, hm', -⟩ := destroySpace_spaces h.spaces hroot halone'
    rw [hp]
    dsimp only
    unfold destroySpace
    rw [hr, hrunD]
    -- in the state without the task nothing refers to the address space
    have hout : t ∉ k.taskList.erase t := h.nodup.not_mem_erase
    have hfree : (k.dropTask t).spaceFree p = true := by
      refine spaceFree_iff.mpr ⟨hpk, fun u hu hup => ?_⟩
      have hne : u ≠ t := by
        rintro rfl
        rcases mem_tasks.mp hu with hi | hl
        · have := h.idle u hi
          rw [hk] at this
          cases this
        · exact hout hl
      have hin : u ∈ k.tasks := by
        rw [mem_tasks] at hu ⊢
        exact hu.imp id mem_of_mem_erase
      have hup' : k.addressSpace u = some p := hup
      cases hku : k.isKernel u with
      | true =>
        rw [h.kernel u hin hku] at hup'
        exact hpk (Option.some.inj hup').symm
      | false =>
        refine h.apart u hin t ht hku hk hne ?_
        rw [spaceOf_of_eq hup', spaceOf_of_eq hp]
    have hsub : Spaces p0 (k.dropTask t).roots m' := by
      refine hm'.sub fun r' hr' => ?_
      obtain ⟨u, hin, hku, hpml4⟩ := mem_roots.mp hr'
      have hin' : u ∈ k.taskList := mem_of_mem_erase hin
      have hne : u ≠ t := by
        rintro rfl
        exact hout hin
      rw [mem_filter, decide_eq_true_eq]
      refine ⟨mem_roots.mpr ⟨u, hin', hku, hpml4⟩, ?_⟩
      rintro rfl
      refine h.apart u (mem_tasks.mpr (.inr hin')) t ht hku hk hne ?_
      rw [hs]
      exact hpml4
    exact (hdrop.remap hsub).setFree (p := p) hfree { pml4 := none, isKernel := false }

end Hosted

end TsOs
