import TsOs.Lemmas.ElfImage
import TsOs.Theorems.TaskSpaces

/-!
# Copy-on-write isolates address spaces

A write through one address space is not seen through any other, in every run of creations, mappings, clones and writes. The
reason is that a frame that is mapped writable is mapped only once. A write of a task of the kernel changes the one byte it is for.
-/

namespace TsOs

open StateProg PteAux TableAux VmmRun WalkAux Runs SpaceSetAux SpaceLifeAux

/-- A frame that is mapped writable is mapped nowhere else. -/
def WritableAlone (s : LiveSpaces) : Prop :=
  ∀ r ∈ s.live, ∀ r' ∈ s.live, ∀ p i p' i' f, Maps s.vmm.mem r p i f → Maps s.vmm.mem r' p' i' f →
    hasFlag (entryAt s.vmm.mem r p i) pteWritable = true → r = r' ∧ p = p' ∧ i = i'

/-- What a step must respect: a write through `r` changes no byte that another address space reads. -/
def CowOp.Isolated (s : LiveSpaces) (op : CowOp) (s' : LiveSpaces) : Prop :=
  ∀ r v b task, op = .write r v b task → ∀ r' ∈ s.live, r' ≠ r → ∀ va : UserVa,
    readByte s'.vmm.mem r' va.addr = readByte s.vmm.mem r' va.addr

namespace CowAux

variable {p₀ : Pmm} {s s' : LiveSpaces}

theorem writableAlone_of_spaces (h : Spaces p₀ s.live s.vmm) : WritableAlone s := by
  intro r hr r' hr' p i p' i' f hm hm' hw
  obtain rfl := h.unshared r hr r' hr' p i p' i' f hm hm' hw
  exact ⟨rfl, h.inj r hr p i p' i' f hm hm'⟩

theorem clone_spaces {r : Nat} (h : Spaces p₀ s.live s.vmm) (hs : CowOp.step s (.clone r) = some s') :
    Spaces p₀ s'.live s'.vmm := by
  rw [CowOp.step, Option.ite_none_right_eq_some] at hs
  obtain ⟨hr, hs⟩ := hs
  rcases createSpace_run h.init h.kernel_not_free with ⟨-, hrun⟩ | ⟨d, hd, hrun⟩
  · rw [hrun] at hs
    cases hs
    exact h
  · rw [hrun] at hs
    cases hs
    have hne : r ≠ d := by
      rintro rfl
      exact h.not_table_of_free hd ⟨r, hr, [], .nil 256, rfl⟩
    obtain ⟨st, m', hclone, hcloned⟩ := cloneSpace_spaces (h.create hd) (List.mem_cons_of_mem d hr) List.mem_cons_self hne
      LifeAux.created_empty
    rw [hclone]
    exact hcloned.spaces

/-- A write keeps the invariant and is not seen through another address space. -/
theorem write_isolated {r : Nat} {v : UserVa} {b : BitVec 8} {task : Option UserRegions} (h : Spaces p₀ s.live s.vmm)
    (hs : CowOp.step s (.write r v b task) = some s') :
    Spaces p₀ s'.live s'.vmm ∧ ∀ r' ∈ s.live, r' ≠ r → ∀ va : UserVa,
      readByte s'.vmm.mem r' va.addr = readByte s.vmm.mem r' va.addr := by
  rw [CowOp.step, Option.ite_none_right_eq_some] at hs
  obtain ⟨hr, hs⟩ := hs
  rcases userWrite_cases h hr v b task with ⟨f, w, hm, hw, hrun⟩ | ⟨errorCode, hrun⟩
  · -- the frame of the page is mapped by no other address space
    rw [hrun] at hs
    cases hs
    obtain ⟨h', htab⟩ := h.storeData ⟨r, hr, _, _, hm⟩ (wordIndex v.addr) w
    refine ⟨h', fun r' hr' hne va => readByte_congr h hr' h' hr' va ?_ fun f' hm' => ?_⟩
    · exact (Spaces.same_view htab hr' va.leafPath.1).2 _
    · funext j
      refine setEntry_of_ne ?_
      rintro ⟨rfl, -⟩
      exact hne (h.unshared r hr r' hr' _ _ _ _ f' hm hm' hw).symm
  · rw [hrun] at hs
    rcases handlerPf_run h hr v.addr v.page.index_lt errorCode task with hpf | ⟨m', hpf, hend⟩
    · rw [hpf] at hs
      cases hs
    · rw [hpf] at hs
      cases hs
      have h' := (FaultEnd.keeps (v := v.page) h hr hend).spaces
      obtain ⟨honly, hdata⟩ := FaultEnd.only (v := v.page) h hr hend
      refine ⟨h', fun r' hr' hne va => readByte_congr h hr' h' hr' va ?_ fun f' hm' => ?_⟩
      · exact honly r' hr' _ _ va.leafPath fun hc => hne hc.1
      · obtain ⟨-, hu, hnt⟩ := h.mapped f' ⟨r', hr', _, _, hm'⟩
        exact hdata f' (Spaces.not_free_of_used hu) hnt

end CowAux

open CowAux

/-- Copy-on-write isolation: in every run of creations, mappings of new frames, clones into new address spaces and writes, no write
through one address space changes a byte that another one reads, and a frame that is mapped writable is mapped nowhere else. -/
theorem cow_isolation (m : Vmm) (hground : Ground m.pmm m) (ops : List CowOp) :
    Each CowOp.step (fun s op s' => op.Isolated s s' ∧ WritableAlone s') ⟨m, []⟩ ops := by
  refine Each.of_step (I := fun s => Spaces m.pmm s.live s.vmm) (fun s op s' h hs => ?_) (spaces_nil hground)
  have key : Spaces m.pmm s'.live s'.vmm ∧ op.Isolated s s' := by
    cases op with
    | create =>
      cases hs
      exact ⟨create_spaces h, nofun⟩
    | map r v flags =>
      have hmap : SpacesOp.step s (.map r v flags) = some s' := hs
      exact ⟨step_spaces h hmap trivial, nofun⟩
    | clone r => exact ⟨clone_spaces h hs, nofun⟩
    | write r v b task =>
      obtain ⟨h', hread⟩ := write_isolated h hs
      refine ⟨h', ?_⟩
      intro r1 v1 b1 task1 heq
      cases heq
      exact hread
  exact ⟨key.1, key.2, writableAlone_of_spaces key.1⟩

theorem cow_isolation_sample :
    Each CowOp.step (fun s op s' => op.Isolated s s' ∧ WritableAlone s') ⟨emptyVmm, []⟩
      [.create, .map 2 samplePage sampleFlags, .clone 2, .write 7 samplePage 1#8 none, .write 7 samplePage 1#8 none] :=
  cow_isolation emptyVmm emptyVmm_ground _

/-! ## Tasks -/

/-- What a write of `b` at `v` may make of the byte `x` at `va`: it stays, it is the one written, or it is a zero of a new page. -/
def ByteAfter (v : UserVa) (b : BitVec 8) (va : UserVa) (x y : Option (BitVec 8)) : Prop :=
  y = x ∨ va.addr = v.addr ∧ y = some b ∨ x = none ∧ y = some 0#8

/-- What a step must respect: of all the bytes that user tasks read, a write changes the one it is for, in the current task only. -/
def KernelOp.Private (s : Kernel) (op : KernelOp) (s' : Kernel) : Prop :=
  ∀ v b, op = .write v b → ∀ r ∈ s.roots, ∀ va : UserVa,
    if r = s.cr3 then ByteAfter v b va (readByte s.vmm.mem r va.addr) (readByte s'.vmm.mem r va.addr)
    else readByte s'.vmm.mem r va.addr = readByte s.vmm.mem r va.addr

namespace CowAux

open ElfAux VaAux LeafAux Function

variable {p₀ : Pmm} {s s' : LiveSpaces}

section Own

variable {live : List Nat} {m m' : Vmm} {r f : Nat} (h : Spaces p₀ live m) (hr : r ∈ live) {v va : UserVa}
include h hr

theorem readByte_of_maps (hm : Maps m.mem r (vaPath va.addr) (ptIndex va.addr) f) :
    readByte m.mem r va.addr = some (pageByte (m.mem f) va.addr) := by
  obtain ⟨-, hp, rfl⟩ := hm
  rw [readByte_eq h hr va, leafAt, if_pos hp]
  rfl

theorem userWrite_stores (b : BitVec 8) (task : Option UserRegions) (hm : Maps m.mem r (vaPath v.addr) (ptIndex v.addr) f)
    (hw : hasFlag (leafAt m.mem r v.addr) pteWritable = true) :
    (userWrite r v.addr b task).run m = (true, m.setPage f (setByte (m.mem f) v.addr b)) := by
  obtain ⟨-, hp, rfl⟩ := hm
  rw [userWrite, bind_run (get_run m), (userLeaf_present_iff h hr v hp).mpr rfl]
  dsimp only
  rw [leafAt] at hw
  rw [hp, hw]
  rfl

/-- A write to a page that is writable. -/
theorem store_own (b : BitVec 8) (hm : Maps m.mem r (vaPath v.addr) (ptIndex v.addr) f) :
    ByteAfter v b va (readByte m.mem r va.addr) (readByte (m.setPage f (setByte (m.mem f) v.addr b)).mem r va.addr) := by
  obtain ⟨hfree, -, hnt⟩ := h.mapped f ⟨r, hr, _, _, hm⟩
  obtain ⟨h', htab⟩ := h.setPage hfree hnt (setByte (m.mem f) v.addr b)
  have hleaf := (Spaces.same_view htab hr va.leafPath.1).2 (ptIndex va.addr)
  by_cases hpage : vaPath va.addr = vaPath v.addr ∧ ptIndex va.addr = ptIndex v.addr
  · rw [← hpage.1, ← hpage.2] at hm
    have hnew : (m.setPage f (setByte (m.mem f) v.addr b)).mem f = setByte (m.mem f) v.addr b := update_self _ _ _
    rw [readByte_of_maps h hr hm, readByte_of_maps h' hr (f := f) (by rw [Maps, hleaf]; exact hm), hnew, pageByte_setByte]
    by_cases hoff : va.addr.toNat % 4096 = v.addr.toNat % 4096
    · refine .inr (.inl ⟨BitVec.eq_of_toNat_eq ?_, by rw [if_pos hoff]⟩)
      have hnum := (pageNumber_eq_iff va.addr v.addr).mpr hpage
      have hva := va.user
      have hv := v.user
      rw [pageNumber, pageNumber] at hnum
      omega
    · exact .inl (by rw [if_neg hoff])
  · refine .inl (readByte_congr h hr h' hr va hleaf fun f' hm' => update_of_ne ?_ _ _)
    rintro rfl
    exact hpage (h.inj r hr _ _ _ _ f' hm' hm)

/-- A frame is filled and mapped. -/
theorem allocStore_reads {t g : Nat} {page : Fin 512 → BitVec 64} {e : BitVec 64} (ht : tableAt m.mem r (vaPath va.addr) = some t)
    (hg : m.pmm.Free g) (h' : Spaces p₀ live ((m.alloc g page).store t (ptIndex va.addr) e))
    (he : hasFlag e ptePresent = true ∧ pteFrame e = g) :
    readByte ((m.alloc g page).store t (ptIndex va.addr) e).mem r va.addr = some (pageByte page va.addr) := by
  obtain ⟨-, -, hself⟩ := allocStore_only h hr va.leafPath ht hg page (ptIndex va.addr) e
  have hgt : g ≠ t := fun hc => h.not_table_of_free hg ⟨r, hr, _, va.leafPath.1, hc ▸ ht⟩
  have hpage : ((m.alloc g page).store t (ptIndex va.addr) e).mem g = page := by
    funext i
    refine (setEntry_of_ne fun hc => hgt hc.1).trans ?_
    exact congrFun (update_self g _ m.mem) i
  rw [readByte_of_maps h' hr (f := g) (by rw [Maps, hself]; exact ⟨va.leafPath, he⟩), hpage]

/-- A page fault that is resolved. -/
theorem fault_own (b : BitVec 8) (hf : FaultEnd r v.page.addr m .resolved m') :
    ByteAfter v b va (readByte m.mem r va.addr) (readByte m'.mem r va.addr) := by
  have h' := (FaultEnd.keeps (v := v.page) h hr hf).spaces
  by_cases hpage : vaPath va.addr = vaPath v.page.addr ∧ ptIndex va.addr = ptIndex v.page.addr
  · have hok := h.leaf r hr _ (ptIndex va.addr) va.leafPath
    cases hf with
    | same hne => exact absurd rfl hne
    | demand ht hd hg =>
      rw [← hpage.1] at ht
      rw [← hpage.2] at hd h' ⊢
      rw [entryAt_eq ht] at hok
      refine .inr (.inr ⟨?_, ?_⟩)
      · rw [readByte_eq h hr va, leafAt, entryAt_eq ht, hok.demand hd]
        rfl
      · obtain ⟨hp, hfr, -⟩ := demandLeaf_ok (lt_of_free hg) hok hd
        rw [allocStore_reads h hr ht hg h' ⟨hp, hfr⟩]
        simp [pageByte]
    | cow ht hc hg =>
      -- the copy holds what the shared frame held
      rw [← hpage.1] at ht
      rw [← hpage.2] at hc h' ⊢
      rw [entryAt_eq ht] at hok
      obtain ⟨hp, hfr, -⟩ := copyLeaf_ok (lt_of_free hg) hok hc
      refine .inl ?_
      rw [allocStore_reads h hr ht hg h' ⟨hp, hfr⟩, readByte_of_maps h hr ⟨va.leafPath, by rw [entryAt_eq ht]; exact (hok.cow hc).1, rfl⟩,
        entryAt_eq ht]
  · obtain ⟨honly, hdata⟩ := FaultEnd.only (v := v.page) h hr hf
    refine .inl (readByte_congr h hr h' hr va (honly r hr _ _ va.leafPath fun hc => hpage hc.2) fun f' hm' => ?_)
    obtain ⟨-, hu, hnt⟩ := h.mapped f' ⟨r, hr, _, _, hm'⟩
    exact hdata f' (Spaces.not_free_of_used hu) hnt

end Own

/-- What a write does to its own address space. -/
theorem write_own {r : Nat} {v : UserVa} {b : BitVec 8} {task : Option UserRegions} (h : Spaces p₀ s.live s.vmm)
    (hs : CowOp.step s (.write r v b task) = some s') (va : UserVa) :
    ByteAfter v b va (readByte s.vmm.mem r va.addr) (readByte s'.vmm.mem r va.addr) := by
  rw [CowOp.step, Option.ite_none_right_eq_some] at hs
  obtain ⟨hr, hs⟩ := hs
  rcases userWrite_cases h hr v b task with ⟨f, w, hm, hw, -⟩ | ⟨errorCode, hrun⟩
  · rw [userWrite_stores h hr b task hm hw] at hs
    cases hs
    exact store_own h hr b hm
  · rw [hrun] at hs
    rcases handlerPf_run h hr v.addr v.page.index_lt errorCode task with hpf | ⟨m', hpf, hend⟩
    · rw [hpf] at hs
      cases hs
    · rw [hpf] at hs
      cases hs
      exact fault_own h hr b hend

end CowAux

open TaskSpacesAux Kernel

/-- The memory of a user task is its own in every run whose steps are harmless. -/
theorem task_writes_private {p₀ : Pmm} {k : Kernel} (h : Hosted p₀ k) (ops : List KernelOp)
    (hops : Each KernelOp.step (fun s op _ => op.Harmless s) k ops) :
    Each KernelOp.step (fun s op s' => op.Private s s') k ops := by
  refine Each.of_inv (I := Hosted p₀) (fun s op s' hs hstep hop => ?_) h hops
  refine ⟨hosted_step hs hop hstep, ?_⟩
  rintro v b rfl r hroot va
  obtain ⟨cur, hc, hu, -, hrun⟩ := step_byTask hstep (by simp)
  have hr : s.cr3 ∈ s.roots := mem_roots.mpr ⟨cur, hs.listed (hs.current cur hc) hu, hu, hs.cr3 cur hc⟩
  have hwrite : CowOp.step ⟨s.vmm, s.roots⟩ (.write s.cr3 v b (some (s.regions cur))) = some ⟨s'.vmm, s.roots⟩ := by
    unfold KernelOp.byTask at hrun
    rw [CowOp.step, if_pos hr]
    rcases hw : (userWrite s.cr3 v.addr b (some (s.regions cur))).run s.vmm with ⟨_ | _, m⟩
    · simp only [hw] at hrun
      cases hrun
    · simp only [hw] at hrun ⊢
      cases hrun
      rfl
  split
  · next he =>
    rw [he]
    exact write_own hs.spaces hwrite va
  · next hne => exact (write_isolated hs.spaces hwrite).2 r hroot hne va

/-- Task 5 forks task 6 and writes. -/
theorem task_writes_private_fork : Hosted emptyVmm.pmm sampleKernel ∧
    Each KernelOp.step (fun s op s' => op.Private s s') sampleKernel
      [.fork ⟨some 6, true, some 0x30#64⟩, .write samplePage 1#8] := by
  have h := sampleKernel_hosted
  generalize sampleKernel = k at h
  refine ⟨h, task_writes_private h _ (Each.of_mem fun op hop s s' => ?_)⟩
  rcases List.mem_pair.mp hop with rfl | rfl
  · trivial
  · trivial

end TsOs
