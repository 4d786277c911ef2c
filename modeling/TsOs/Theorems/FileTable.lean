import TsOs.FileTable
import TsOs.Lib.Runs
import TsOs.Theorems.Kheap

/-!
# Which descriptors may be closed

`sys_close` and `task_close_all_fds` give the open file back whatever the count of references says. A call is good when it closes
no descriptor whose file another descriptor refers to, and only then.
-/

namespace TsOs

open LinkedList Runs Buddy KheapAux Function List OpenFiles Option

/-- The descriptor `fd` of the task `t` is open and refers to the file at `p`. -/
def OpenFiles.Refers (s : OpenFiles) (t : TaskPtr) (fd : Fin taskMaxFds) (p : BitVec 64) : Prop :=
  (s.fdTable t fd).ops.isSome = true ∧ (s.fdTable t fd).data = p

/-- Some descriptor refers to the file at `p`. -/
def OpenFiles.Referred (s : OpenFiles) (p : BitVec 64) : Prop := ∃ t fd, s.Refers t fd p

/-- Every open descriptor refers to a file that has not been given back. -/
def RefsLive (s : OpenFiles) : Prop := ∀ t fd p, s.Refers t fd p → p ≠ 0 ∧ s.allocated p = true

/-- The contract of the allocators: `kmalloc` returns an address that is not in use, `slab_alloc` a block that is no task with open
files. -/
def FileOp.Fits (s : OpenFiles) : FileOp → Prop
  | .openFile _ _ file => s.allocated file = false
  | .fork (some t) _ _ => ∀ fd, (s.fdTable t fd).ops = none
  | _ => True

/-- The descriptors that a call is asked to close: the one that `sys_close` names, and all those of the child that `task_wait`
reaps. -/
def FileOp.Closes (s : OpenFiles) (op : FileOp) (t : TaskPtr) (fd : Fin taskMaxFds) : Prop :=
  match op with
  | .close i => s.procs.sched.current = some t ∧ i = fd.val
  | .wait => ∃ cur pp, s.procs.sched.current = some cur ∧ zombieChild s.procs cur = some (some (pp, t))
  | _ => False

/-- Every descriptor that the call closes is the only one for its file. -/
def FileOp.ClosesLast (s : OpenFiles) (op : FileOp) : Prop :=
  ∀ t fd p, op.Closes s t fd → s.Refers t fd p → ∀ t' fd', s.Refers t' fd' p → t' = t ∧ fd' = fd

/-- What a call should do: the descriptors that are open afterwards refer to live files, the files that it gives back are those
whose last descriptor it closed, each once, and a descriptor that it does not close keeps its file with the same contents. -/
structure FileStepGood (s : OpenFiles) (op : FileOp) (s' : OpenFiles) : Prop where
  live : RefsLive s'
  released : ∃ frees, s'.released = frees ++ s.released ∧ frees.Nodup ∧ ∀ p, p ∈ frees ↔ s.Referred p ∧ ¬ s'.Referred p
  kept : ∀ t fd p, s.Refers t fd p → ¬ op.Closes s t fd → s'.Refers t fd p ∧ s'.files p = s.files p

namespace FileTableAux

/-! ## Calls that close nothing -/

variable {op : FileOp} {s s' : OpenFiles}

/-- A call that gives nothing back is good when it leaves every file in use where it is. -/
theorem good_of_kept (hlive : RefsLive s') (hr : s'.released = s.released)
    (hk : ∀ t fd p, s.Refers t fd p → s'.Refers t fd p ∧ s'.files p = s.files p) : FileStepGood s op s' where
  live := hlive
  released := by
    refine ⟨[], hr, nodup_nil, fun p => ⟨fun h => absurd h not_mem_nil, ?_⟩⟩
    rintro ⟨⟨t, fd, hp⟩, hn⟩
    exact absurd ⟨t, fd, (hk t fd p hp).1⟩ hn
  kept t fd p hp _ := hk t fd p hp

/-- A call that changes neither the tables nor the files is good. -/
theorem good_of_same (h : RefsLive s) (ht : s'.fdTable = s.fdTable) (hf : s'.files = s.files)
    (ha : s'.allocated = s.allocated) (hr : s'.released = s.released) : FileStepGood s op s' := by
  have hrefs : ∀ t fd p, s'.Refers t fd p ↔ s.Refers t fd p := by
    intro t fd p
    unfold OpenFiles.Refers
    rw [ht]
  refine good_of_kept (fun t fd p hp => ?_) hr (fun t fd p hp => ⟨(hrefs t fd p).2 hp, by rw [hf]⟩)
  rw [ha]
  exact h t fd p ((hrefs t fd p).1 hp)

variable {fd : Fin taskMaxFds} {p : BitVec 64} {t : TaskPtr}

theorem setEntry_fdTable (s : OpenFiles) (t : TaskPtr) (fd : Fin taskMaxFds) (f : FileEntry) (t' : TaskPtr)
    (fd' : Fin taskMaxFds) : (s.setEntry t fd f).fdTable t' fd' = if t' = t ∧ fd' = fd then f else s.fdTable t' fd' := by
  unfold OpenFiles.setEntry
  by_cases ht : t' = t
  · subst ht
    by_cases hfd : fd' = fd <;> simp [hfd]
  · simp [ht]

/-- What a write to one entry does to the references. -/
theorem refers_setEntry {f : FileEntry} {t' : TaskPtr} {fd' : Fin taskMaxFds} :
    (s.setEntry t fd f).Refers t' fd' p ↔
      if t' = t ∧ fd' = fd then f.ops.isSome = true ∧ f.data = p else s.Refers t' fd' p := by
  unfold Refers
  rw [setEntry_fdTable]
  split <;> rfl

/-- An open call installs a new file in an entry that was not open. -/
theorem open_good (h : RefsLive s) {ino : Option (BitVec 32)} {flags : BitVec 32} {file : BitVec 64}
    (hfit : s.allocated file = false) : FileStepGood s (.openFile ino flags file) (vfsOpen s ino flags file).1 := by
  have hsame : FileStepGood s (.openFile ino flags file) s := good_of_same h rfl rfl rfl rfl
  unfold vfsOpen ext2VfsOpen
  cases ino with
  | none => exact hsame
  | some ino =>
    dsimp only
    by_cases hz : file = 0
    · rw [if_pos hz]
      exact hsame
    rw [if_neg hz]
    dsimp only
    -- the file is in memory, and no descriptor refers to it yet
    have hfile : ∀ t fd p, s.Refers t fd p → p ≠ file := by
      rintro t fd p hp rfl
      rw [(h t fd p hp).2] at hfit
      cases hfit
    have hkept : ∀ t fd p, s.Refers t fd p →
        update s.files file { ino := ino, offset := 0, flags := flags } p = s.files p :=
      fun t fd p hp => update_of_ne (hfile t fd p hp) _ _
    have hlive : ∀ t fd p, s.Refers t fd p → p ≠ 0 ∧ update s.allocated file true p = true := by
      intro t fd p hp
      rw [update_of_ne (hfile t fd p hp)]
      exact h t fd p hp
    cases hc : s.procs.sched.current with
    | none => exact good_of_kept hlive rfl (fun t fd p hp => ⟨hp, hkept t fd p hp⟩)
    | some cur =>
      dsimp only
      cases hfd : (finRange taskMaxFds).find? (fun fd => (s.fdTable cur fd).ops == none) with
      | none => exact good_of_kept hlive rfl (fun t fd p hp => ⟨hp, hkept t fd p hp⟩)
      | some fd =>
        have hfree : (s.fdTable cur fd).ops = none := by
          have := find?_some hfd
          simpa using this
        refine good_of_kept ?_ rfl ?_
        · intro t fd' p hp
          rw [refers_setEntry] at hp
          split at hp
          · rw [← hp.2]
            exact ⟨hz, update_self _ _ _⟩
          · exact hlive t fd' p hp
        · intro t fd' p hp
          refine ⟨?_, hkept t fd' p hp⟩
          rw [refers_setEntry, if_neg]
          · exact hp
          · rintro ⟨rfl, rfl⟩
            rw [OpenFiles.Refers, hfree] at hp
            cases hp.1

/-! ## Calls that close descriptors -/

/-- The files that the open entries among `fds` refer to. -/
def openData (s : OpenFiles) (t : TaskPtr) (fds : List (Fin taskMaxFds)) : List (BitVec 64) :=
  (fds.filter (fun fd => (s.fdTable t fd).ops.isSome)).map (fun fd => (s.fdTable t fd).data)

/-- `s'` is `s` with the entries `fds` of the task `t` closed. -/
structure Closed (s : OpenFiles) (t : TaskPtr) (fds : List (Fin taskMaxFds)) (s' : OpenFiles) : Prop where
  table : ∀ t' fd, s'.fdTable t' fd = if t' = t ∧ fd ∈ fds then .zero else s.fdTable t' fd
  files : s'.files = s.files
  released : s'.released = (openData s t fds).reverse ++ s.released
  allocated : ∀ p, s'.allocated p = true ↔ s.allocated p = true ∧ p ∉ openData s t fds

theorem closed_closeEntry
    (hz : (s.fdTable t fd).ops.isSome = true → (s.fdTable t fd).data ≠ 0) : Closed s t [fd] (closeEntry t s fd) := by
  by_cases ho : (s.fdTable t fd).ops.isSome = true
  · have hdata : openData s t [fd] = [(s.fdTable t fd).data] := by simp [openData, ho]
    have heq : closeEntry t s fd = OpenFiles.setEntry
        { s with allocated := update s.allocated (s.fdTable t fd).data false
                 released := (s.fdTable t fd).data :: s.released } t fd .zero := by
      unfold closeEntry ext2FdClose
      dsimp only
      rw [if_pos ho, if_neg (hz ho)]
    rw [heq]
    refine ⟨fun t' fd' => ?_, rfl, ?_, fun p => ?_⟩
    · simp [setEntry_fdTable]
    · rw [hdata]
      rfl
    · rw [hdata]
      by_cases hp : p = (s.fdTable t fd).data <;> simp [OpenFiles.setEntry, hp]
  · have hdata : openData s t [fd] = [] := by simp [openData, ho]
    have heq : closeEntry t s fd = s.setEntry t fd .zero := by
      unfold closeEntry
      dsimp only
      rw [if_neg ho]
    rw [heq]
    refine ⟨fun t' fd' => ?_, rfl, ?_, fun p => ?_⟩
    · simp [setEntry_fdTable]
    · rw [hdata]
      rfl
    · rw [hdata]
      exact ⟨fun h => ⟨h, not_mem_nil⟩, fun h => h.1⟩

variable {fds : List (Fin taskMaxFds)}

theorem Closed.trans {s1 s2 : OpenFiles}
    (h1 : Closed s t [fd] s1) (h2 : Closed s1 t fds s2) (hfd : fd ∉ fds) : Closed s t (fd :: fds) s2 := by
  have htab : ∀ i ∈ fds, s1.fdTable t i = s.fdTable t i := by
    intro i hi
    rw [h1.table, if_neg]
    rintro ⟨-, hmem⟩
    rw [mem_singleton] at hmem
    exact hfd (hmem ▸ hi)
  have hdata : openData s1 t fds = openData s t fds := by
    unfold openData
    rw [filter_congr (fun i hi => by rw [htab i hi])]
    exact map_congr_left (fun i hi => by rw [htab i (mem_filter.1 hi).1])
  have happ : openData s t (fd :: fds) = openData s t [fd] ++ openData s t fds := by
    simp [openData, ← map_append, ← filter_append]
  refine ⟨fun t' i => ?_, h2.files.trans h1.files, ?_, fun p => ?_⟩
  · rw [h2.table, h1.table]
    by_cases ht : t' = t
    · by_cases hi : i ∈ fds <;> simp [ht, hi]
    · simp [ht]
  · rw [h2.released, h1.released, hdata, happ, reverse_append, append_assoc]
  · rw [h2.allocated, h1.allocated, hdata, happ, mem_append, not_or, and_assoc]

theorem closed_foldl : ∀ {s : OpenFiles}, fds.Nodup →
    (∀ fd, (s.fdTable t fd).ops.isSome = true → (s.fdTable t fd).data ≠ 0) → Closed s t fds (fds.foldl (closeEntry t) s) := by
  induction fds with
  | nil =>
    intro s _ _
    exact ⟨fun t' fd => by simp, rfl, rfl, fun p => by simp [openData]⟩
  | cons fd fds ih =>
    intro s hnd hz
    obtain ⟨hfd, hnd⟩ := nodup_cons.1 hnd
    have h1 := closed_closeEntry (hz fd)
    refine h1.trans (ih hnd (fun i hi => ?_)) hfd
    rw [h1.table] at hi ⊢
    split at hi
    · cases hi
    · rename_i hne
      rw [if_neg hne]
      exact hz i hi

theorem Closed.refers (h : Closed s t fds s') {t' : TaskPtr}
    : s'.Refers t' fd p ↔ s.Refers t' fd p ∧ ¬ (t' = t ∧ fd ∈ fds) := by
  unfold OpenFiles.Refers
  rw [h.table]
  split
  · rename_i hc
    exact ⟨fun hp => (nomatch hp.1), fun hp => absurd hc hp.2⟩
  · rename_i hc
    exact ⟨fun hp => ⟨hp, hc⟩, fun hp => hp.1⟩

theorem mem_openData :
    p ∈ openData s t fds ↔ ∃ fd ∈ fds, s.Refers t fd p := by
  unfold openData OpenFiles.Refers
  simp [and_assoc]

/-- When the entries are the only ones for their files, no file is listed twice. -/
theorem nodup_openData (hnd : fds.Nodup)
    (hu : ∀ fd ∈ fds, ∀ p, s.Refers t fd p → ∀ fd', s.Refers t fd' p → fd' = fd) : (openData s t fds).Nodup := by
  refine List.Nodup.map_on ?_ (hnd.filter _)
  intro i hi j hj hij
  obtain ⟨hi, hio⟩ := mem_filter.1 hi
  obtain ⟨-, hjo⟩ := mem_filter.1 hj
  exact (hu i hi _ ⟨hio, rfl⟩ j ⟨hjo, hij.symm⟩).symm

/-- Two entries for one file are listed as often. -/
theorem eq_of_nodup_openData (hnd : (openData s t fds).Nodup)
    {i j : Fin taskMaxFds} (hi : i ∈ fds) (hj : j ∈ fds) (hip : s.Refers t i p) (hjp : s.Refers t j p) :
    j = i :=
  inj_on_of_nodup_map hnd (mem_filter.2 ⟨hj, hjp.1⟩) (mem_filter.2 ⟨hi, hip.1⟩) (hjp.2.trans hip.2.symm)

/-- A call that closes the entries `fds` of a task is good exactly when each is the only one for its file. -/
theorem Closed.good_iff (h : RefsLive s)
    (hs : Closed s t fds s') (hnd : fds.Nodup) (hop : ∀ t' fd, op.Closes s t' fd ↔ t' = t ∧ fd ∈ fds) :
    FileStepGood s op s' ↔ op.ClosesLast s := by
  constructor
  · intro hg t1 fd p hc hp t' fd' hp'
    obtain ⟨rfl, hfd⟩ := (hop t1 fd).1 hc
    have hmem : p ∈ openData s t1 fds := mem_openData.2 ⟨fd, hfd, hp⟩
    by_cases hc' : t' = t1 ∧ fd' ∈ fds
    · -- both are closed by the call: the file would be given back twice
      obtain ⟨frees, hr, hn, -⟩ := hg.released
      obtain rfl : frees = (openData s t1 fds).reverse := append_cancel_right (hr.symm.trans hs.released)
      obtain ⟨rfl, hfd'⟩ := hc'
      exact ⟨rfl, eq_of_nodup_openData (nodup_reverse.1 hn) hfd hfd' hp hp'⟩
    · have := (hg.live t' fd' p (hs.refers.2 ⟨hp', hc'⟩)).2
      exact absurd hmem ((hs.allocated p).1 this).2
  · intro hl
    have hout : ∀ t' fd' p, s'.Refers t' fd' p → p ∉ openData s t fds := by
      intro t' fd' p hp hmem
      obtain ⟨hp, hn⟩ := hs.refers.1 hp
      obtain ⟨fd, hfd, hpf⟩ := mem_openData.1 hmem
      obtain ⟨rfl, rfl⟩ := hl t fd p ((hop t fd).2 ⟨rfl, hfd⟩) hpf t' fd' hp
      exact hn ⟨rfl, hfd⟩
    refine ⟨fun t' fd' p hp => ?_, ⟨(openData s t fds).reverse, hs.released, ?_, fun p => ?_⟩, fun t' fd' p hp hc => ?_⟩
    · have hlive := h t' fd' p (hs.refers.1 hp).1
      exact ⟨hlive.1, (hs.allocated p).2 ⟨hlive.2, hout t' fd' p hp⟩⟩
    · refine nodup_reverse.2 (nodup_openData hnd (fun fd hfd p hp fd' hp' => ?_))
      exact (hl t fd p ((hop t fd).2 ⟨rfl, hfd⟩) hp t fd' hp').2
    · rw [mem_reverse]
      constructor
      · intro hp
        obtain ⟨fd, hfd, hpf⟩ := mem_openData.1 hp
        exact ⟨⟨t, fd, hpf⟩, fun ⟨t', fd', hp'⟩ => hout t' fd' p hp' hp⟩
      · rintro ⟨⟨t', fd', hp⟩, hn⟩
        by_contra hmem
        refine hn ⟨t', fd', hs.refers.2 ⟨hp, ?_⟩⟩
        rintro ⟨rfl, hfd⟩
        exact hmem (mem_openData.2 ⟨fd', hfd, hp⟩)
    · rw [hop] at hc
      exact ⟨hs.refers.2 ⟨hp, hc⟩, by rw [hs.files]⟩

theorem close_good_iff (h : RefsLive s) (i : Int) :
    FileStepGood s (.close i) (sysClose s i).1 ↔ (FileOp.close i).ClosesLast s := by
  unfold sysClose
  cases hc : s.procs.sched.current with
  | none =>
    refine ⟨fun _ t fd p hcl => ?_, fun _ => good_of_same h rfl rfl rfl rfl⟩
    rw [FileOp.Closes, hc] at hcl
    cases hcl.1
  | some cur =>
    dsimp only
    by_cases hi : 0 ≤ i ∧ i.toNat < taskMaxFds
    · rw [dif_pos hi]
      have hcl : ∀ t fd, (FileOp.close i).Closes s t fd ↔ t = cur ∧ fd ∈ [(⟨i.toNat, hi.2⟩ : Fin taskMaxFds)] := by
        intro t fd
        rw [FileOp.Closes, hc, some.injEq, mem_singleton, Fin.ext_iff (a := fd), eq_comm]
        refine and_congr_right (fun _ => ?_)
        dsimp only
        omega
      by_cases ho : (s.fdTable cur ⟨i.toNat, hi.2⟩).ops = none
      · rw [if_pos ho]
        refine ⟨fun _ t fd p hcls hp => ?_, fun _ => good_of_same h rfl rfl rfl rfl⟩
        obtain ⟨rfl, hfd⟩ := (hcl t fd).1 hcls
        rw [mem_singleton] at hfd
        rw [OpenFiles.Refers, hfd, ho] at hp
        cases hp.1
      · rw [if_neg ho]
        exact (closed_closeEntry (fun hs => (h _ _ _ ⟨hs, rfl⟩).1)).good_iff h (nodup_singleton _) hcl
    · rw [dif_neg hi]
      refine ⟨fun _ t fd p hcl => ?_, fun _ => good_of_same h rfl rfl rfl rfl⟩
      obtain ⟨-, rfl⟩ := hcl
      exact absurd ⟨Int.natCast_nonneg _, by simp⟩ hi

theorem closed_taskDestroy (h : RefsLive s) (t : TaskPtr) :
    Closed s t (List.finRange taskMaxFds) (taskDestroy s t) := by
  obtain ⟨htab, hf, hr, ha⟩ := closed_foldl (nodup_finRange taskMaxFds) (fun fd hs => (h t fd _ ⟨hs, rfl⟩).1)
  exact ⟨htab, hf, hr, ha⟩

theorem wait_good_iff (h : RefsLive s) (hs : (taskWait s).map Prod.fst = some s') :
    FileStepGood s .wait s' ↔ FileOp.wait.ClosesLast s := by
  unfold taskWait at hs
  have hnone : (∀ t fd, ¬ FileOp.wait.Closes s t fd) → FileOp.wait.ClosesLast s :=
    fun hn t fd p hc => absurd hc (hn t fd)
  cases hc : s.procs.sched.current with
  | none =>
    rw [hc] at hs
    cases hs
    refine ⟨fun _ => hnone ?_, fun _ => good_of_same h rfl rfl rfl rfl⟩
    rintro t fd ⟨cur, pp, hcur, -⟩
    rw [hc] at hcur
    cases hcur
  | some cur =>
    rw [hc] at hs
    dsimp only at hs
    cases hz : zombieChild s.procs cur with
    | none =>
      rw [hz] at hs
      cases hs
    | some found =>
      rw [hz] at hs
      have hcl : ∀ t fd, FileOp.wait.Closes s t fd ↔ ∃ pp, found = some (pp, t) := by
        intro t fd
        constructor
        · rintro ⟨cur', pp, hcur, hz'⟩
          obtain rfl : cur = cur' := some.inj (hc.symm.trans hcur)
          exact ⟨pp, some.inj (hz.symm.trans hz')⟩
        · rintro ⟨pp, rfl⟩
          exact ⟨cur, pp, hc, hz⟩
      cases found with
      | none =>
        rw [Option.map_map] at hs
        obtain ⟨k, -, rfl⟩ := map_eq_some_iff.1 hs
        refine ⟨fun _ => hnone (fun t fd hcls => ?_), fun _ => good_of_same h rfl rfl rfl rfl⟩
        obtain ⟨pp, hpp⟩ := (hcl t fd).1 hcls
        cases hpp
      | some found =>
        obtain ⟨pp, child⟩ := found
        cases hs
        have hd := closed_taskDestroy (s := { s with procs := s.procs.unlinkChild cur pp child }) h child
        refine Closed.good_iff h ⟨hd.table, hd.files, hd.released, hd.allocated⟩ (nodup_finRange _) (fun t fd => ?_)
        rw [hcl]
        constructor
        · rintro ⟨pp', hpp⟩
          cases hpp
          exact ⟨rfl, mem_finRange fd⟩
        · rintro ⟨rfl, -⟩
          exact ⟨pp, rfl⟩

/-- Clearing the table of a block without open files changes no reference. -/
theorem refers_clear {child : TaskPtr} (hchild : ∀ fd, (s.fdTable child fd).ops = none)
    (hs : s'.fdTable = update s.fdTable child (fun _ => .zero)) :
    s'.Refers t fd p ↔ s.Refers t fd p := by
  unfold OpenFiles.Refers
  rw [hs]
  by_cases ht : t = child
  · subst ht
    rw [update_self, hchild]
    exact ⟨fun h => (nomatch h.1), fun h => (nomatch h.1)⟩
  · rw [update_of_ne ht]

/-- After the copy of the table of `parent` to a child without open files, the child refers to what the parent refers to. -/
theorem refers_dupTable {parent child : TaskPtr} (hchild : ∀ fd, (s.fdTable child fd).ops = none) :
    (dupTable s parent child).Refers t fd p ↔ s.Refers t fd p ∨ t = child ∧ s.Refers parent fd p := by
  unfold OpenFiles.Refers dupTable
  by_cases ht : t = child
  · subst ht
    dsimp only
    rw [hchild]
    by_cases ho : (s.fdTable parent fd).ops.isSome = true
    · simp [ho]
    · simp [ho, hchild]
  · simp [ht]

/-- A fork gives nothing back, and the child refers to the files of the parent. -/
theorem fork_good (h : RefsLive s) {pcb : Option TaskPtr} {built cloned : Bool}
    (hfit : (FileOp.fork pcb built cloned).Fits s) :
    FileStepGood s (.fork pcb built cloned) (sysFork s pcb built cloned).1 := by
  have hsame : FileStepGood s (.fork pcb built cloned) s := good_of_same h rfl rfl rfl rfl
  unfold sysFork
  cases hc : s.procs.sched.current with
  | none => exact hsame
  | some parent =>
    cases pcb with
    | none => exact hsame
    | some child =>
      have hrefs : ∀ {s' : OpenFiles}, s'.fdTable = update s.fdTable child (fun _ => .zero) → ∀ {t fd p},
          s'.Refers t fd p ↔ s.Refers t fd p := fun hs' => refers_clear hfit hs'
      dsimp only [taskCreate]
      cases built with
      | false => exact good_of_kept (fun t fd p hp => h t fd p ((hrefs rfl).1 hp)) rfl (fun t fd p hp => ⟨(hrefs rfl).2 hp, rfl⟩)
      | true =>
        rw [if_pos rfl]
        dsimp only
        generalize hs1 : mk _ _ _ _ _ _ = s1
        have htab : s1.fdTable = update s.fdTable child (fun _ => .zero) := by rw [← hs1]
        have hlive : RefsLive s1 := by
          intro t fd p hp
          rw [← hs1]
          exact h t fd p ((hrefs htab).1 hp)
        have hchild : ∀ fd, (s1.fdTable child fd).ops = none := by
          intro fd
          rw [htab, update_self]
          rfl
        have hrel : s1.released = s.released := by rw [← hs1]
        have hfiles : s1.files = s.files := by rw [← hs1]
        cases cloned with
        | false =>
          have hd := closed_taskDestroy hlive child
          have hempty : openData s1 child (finRange taskMaxFds) = [] := by simp [openData, hchild]
          refine good_of_kept (fun t fd p hp => ?_) ?_ (fun t fd p hp => ⟨?_, ?_⟩)
          · have := hlive t fd p (hd.refers.1 hp).1
            exact ⟨this.1, (hd.allocated p).2 ⟨this.2, by rw [hempty]; exact not_mem_nil⟩⟩
          · exact hd.released.trans (by rw [hempty, reverse_nil, nil_append, hrel])
          · refine hd.refers.2 ⟨(hrefs htab).2 hp, ?_⟩
            rintro ⟨rfl, -⟩
            rw [OpenFiles.Refers, hfit fd] at hp
            cases hp.1
          · exact congrFun (hd.files.trans hfiles) p
        | true =>
          refine good_of_kept (fun t fd p hp => ?_) hrel (fun t fd p hp => ⟨?_, congrFun hfiles p⟩)
          · rcases (refers_dupTable hchild).1 hp with hp | ⟨-, hp⟩
            · exact hlive t fd p hp
            · exact hlive parent fd p hp
          · exact (refers_dupTable hchild).2 (.inl ((hrefs htab).2 hp))

/-- One call is good exactly when it closes no descriptor whose file another one refers to. -/
theorem run_good_iff (h : RefsLive s) (hfit : op.Fits s) (hs : op.run s = some s') :
    FileStepGood s op s' ↔ op.ClosesLast s := by
  cases op with
  | openFile ino flags file =>
    cases hs
    exact ⟨fun _ _ _ _ hc => hc.elim, fun _ => open_good h hfit⟩
  | fork pcb built cloned =>
    cases hs
    exact ⟨fun _ _ _ _ hc => hc.elim, fun _ => fork_good h hfit⟩
  | close fd =>
    cases hs
    exact close_good_iff h fd
  | wait => exact wait_good_iff h hs
  | exit | tick =>
    obtain ⟨k, -, rfl⟩ := map_eq_some_iff.1 hs
    exact ⟨fun _ _ _ _ hc => hc.elim, fun _ => good_of_same h rfl rfl rfl rfl⟩

end FileTableAux

open FileTableAux

/-- From any state in which the open descriptors refer to live files, whatever the tasks do: all calls are good exactly when each
closes only descriptors that are the last ones for their files. -/
theorem open_files_good_iff (s : OpenFiles) (h : RefsLive s) (ops : List FileOp)
    (hfit : Each FileOp.run (fun s op _ => op.Fits s) s ops) :
    Each FileOp.run FileStepGood s ops ↔ Each FileOp.run (fun s op _ => op.ClosesLast s) s ops := by
  constructor
  · intro hg
    refine (hfit.and hg).of_inv (I := RefsLive) (fun s op s' hI hs hc => ?_) h
    exact ⟨hc.2.live, (run_good_iff hI hc.1 hs).1 hc.2⟩
  · intro hl
    refine (hfit.and hl).of_inv (I := RefsLive) (fun s op s' hI hs hc => ?_) h
    have hg := (run_good_iff hI hc.1 hs).2 hc.2
    exact ⟨hg.live, hg⟩

/-- One task without open files, and no other. -/
def soleTask : OpenFiles where
  procs :=
    { sched :=
        { mlfq := mlfqInit (fun _ => { state := .running, timeSlice := 5, remainingTicks := 5, mlfqLevel := 0, next := none })
          current := some 1, idle := none, readyCount := 0, initialized := true }
      procs := fun _ =>
        { pid := 0, exitCode := 0, parent := none, children := none, siblingNext := none, isWaitingForChildren := false }
      initTask := none }
  nextPid := 2
  fdTable := fun _ _ => .zero
  files := fun _ => { ino := 0, offset := 0, flags := 0 }
  allocated := fun _ => false
  released := []

theorem refsLive_soleTask : RefsLive soleTask := by
  rintro t fd p ⟨hs, -⟩
  cases hs

/-- The run in which the task forks, opens a file and closes it again. -/
theorem open_files_good_close : RefsLive soleTask ∧
    Each FileOp.run FileStepGood soleTask [.fork (some 2) true true, .openFile (some 12) 0 0xFFFFFFFFC0001000, .close 0] := by
  have hfit : Each FileOp.run (fun s op _ => op.Fits s) soleTask
      [.fork (some 2) true true, .openFile (some 12) 0 0xFFFFFFFFC0001000, .close 0] :=
    ⟨fun _ => rfl, rfl, trivial, trivial⟩
  refine ⟨refsLive_soleTask, (open_files_good_iff soleTask refsLive_soleTask _ hfit).2 ⟨?_, ?_, ?_, trivial⟩⟩
  · exact fun _ _ _ hc => hc.elim
  · exact fun _ _ _ hc => hc.elim
  · rintro t fd p ⟨ht, hfd⟩ - t' fd' hp'
    have hopened := refers_setEntry.1 hp'
    split at hopened
    · rename_i hc
      refine ⟨hc.1.trans (some.inj ht), hc.2.trans (Fin.ext ?_)⟩
      show 0 = fd.val
      omega
    · -- the fork has allocated nothing
      cases ((fork_good refsLive_soleTask hfit.1).live t' fd' p hopened).2

/-- A file is opened, the task forks, and one of the two closes its descriptor: the file is given back while the descriptor of the
other still refers to it. -/
theorem open_files_shared_close :
    Each FileOp.run (fun s op _ => op.Fits s) soleTask
        [.openFile (some 12) 0 0xFFFFFFFFC0001000, .fork (some 2) true true, .close 0] ∧
      ¬ Each FileOp.run FileStepGood soleTask
        [.openFile (some 12) 0 0xFFFFFFFFC0001000, .fork (some 2) true true, .close 0] := by
  refine ⟨⟨rfl, fun fd => rfl, trivial, trivial⟩, ?_⟩
  rintro ⟨-, -, hclose, -⟩
  have hlive := (hclose.live 2 ⟨0, by decide⟩ 0xFFFFFFFFC0001000 ⟨rfl, rfl⟩).2
  cases hlive

end TsOs
