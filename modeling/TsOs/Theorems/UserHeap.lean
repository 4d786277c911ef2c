import TsOs.Lemmas.UserHeapCalls
import TsOs.Lib.Runs

/-!
# Programs that use the heap

Whatever a program does with the heap, as long as it gives back only what it holds and writes only to what it holds: the block list
tiles the heap, the program's blocks are disjoint, large enough and keep their bytes. The one case that is left out is a request so
large that the break wraps around: `grow_heap` then shrinks the heap.
-/

namespace TsOs

open Bytes HeapBlocks UserHeapAux Runs Function List BitVec Option Bool Nat HeapOp

/-- The heap of a program that has just been started, with the break at `brk`. -/
def HeapUse.start (mem : Nat → BitVec 8) (brk : Nat) : HeapUse :=
  { heap := { mem := mem, head := 0, brk := 0, base := 0, kernelBrk := brk }, live := [], ret := 0 }

/-- The size in the header of a live block. -/
def HeapUse.usable (s : HeapUse) (l : LiveBlock) : Nat := s.heap.size (UserHeap.headerOf l.ptr)

/-- The calls a program may make: requests whose size with header and rounding is a word, live pointers, writes to live blocks. -/
def HeapOp.Allowed (s : HeapUse) : HeapOp → Prop
  | .malloc _ size => RequestFits size
  | .calloc _ nmemb size => nmemb * size < 2 ^ 64 → RequestFits (nmemb * size)
  | .realloc _ ptr size => RequestFits size ∧ (ptr = 0 ∨ ∃ l ∈ s.live, l.ptr = ptr)
  | .free ptr => ptr = 0 ∨ ∃ l ∈ s.live, l.ptr = ptr
  | .write addr _ => ∃ l ∈ s.live, l.ptr ≤ addr ∧ addr < l.ptr + s.usable l

/-- The break does not wrap around if the heap is grown for the call. -/
def HeapOp.RoomFor (s : HeapUse) : HeapOp → Prop
  | .malloc _ size => s.heap.RoomFor size
  | .calloc _ nmemb size => nmemb * size < 2 ^ 64 → s.heap.RoomFor (nmemb * size)
  | .realloc _ _ size => s.heap.RoomFor size
  | _ => True

instance decidableRequestFits (size : Nat) : Decidable (RequestFits size) := inferInstanceAs (Decidable (_ ∧ _))

instance UserHeap.decidableRoomFor (h : UserHeap) (size : Nat) : Decidable (h.RoomFor size) := inferInstanceAs (Decidable (_ < _))

instance HeapOp.decidableAllowed (s : HeapUse) : (op : HeapOp) → Decidable (op.Allowed s)
  | .malloc _ size => decidableRequestFits size
  | .calloc _ _ _ => inferInstanceAs (Decidable (_ → RequestFits _))
  | .realloc _ _ _ => inferInstanceAs (Decidable (RequestFits _ ∧ (_ ∨ ∃ l ∈ s.live, _)))
  | .free _ => inferInstanceAs (Decidable (_ ∨ ∃ l ∈ s.live, _))
  | .write _ _ => inferInstanceAs (Decidable (∃ l ∈ s.live, _ ∧ _))

instance HeapOp.decidableRoomFor (s : HeapUse) : (op : HeapOp) → Decidable (op.RoomFor s)
  | .malloc _ size => s.heap.decidableRoomFor size
  | .calloc _ _ _ => inferInstanceAs (Decidable (_ → s.heap.RoomFor _))
  | .realloc _ _ size => s.heap.decidableRoomFor size
  | .free _ => .isTrue trivial
  | .write _ _ => .isTrue trivial

/-- The blocks tile the heap, and the live blocks are among those in use, disjoint and as large as requested. -/
structure HeapUse.Sound (s : HeapUse) (bs : List Blk) : Prop where
  tiled : s.heap.Tiled bs
  inUse : ∀ l ∈ s.live, 24 ≤ l.ptr ∧ At 24 s.heap.base bs (l.ptr - 24) ⟨s.usable l, false⟩
  large : ∀ l ∈ s.live, l.size ≤ s.usable l
  disjoint : s.live.Pairwise fun l l' => l.ptr + s.usable l ≤ l'.ptr ∨ l'.ptr + s.usable l' ≤ l.ptr

/-- The pointer that the call gives back. -/
def HeapOp.released (s' : HeapUse) : HeapOp → Option Nat
  | .free ptr => some ptr
  | .realloc _ ptr size => if s'.ret = 0 ∧ size ≠ 0 then none else some ptr
  | _ => none

/-- The byte that the program writes. -/
def HeapOp.Writes : HeapOp → Nat → Prop
  | .write addr _, a => a = addr
  | _, _ => False

/-- Live blocks that are not given back stay live, with their size and their bytes. -/
def HeapOp.KeepsOthers (s : HeapUse) (op : HeapOp) (s' : HeapUse) : Prop :=
  ∀ l ∈ s.live, op.released s' ≠ some l.ptr → l ∈ s'.live ∧ s'.usable l = s.usable l ∧
    ∀ i < s.usable l, ¬ op.Writes (l.ptr + i) → s'.heap.mem (l.ptr + i) = s.heap.mem (l.ptr + i)

/-- What a call leaves in memory: zeros for `calloc`, the first bytes of the old block for `realloc`. -/
def HeapOp.Leaves (s : HeapUse) (s' : HeapUse) : HeapOp → Prop
  | .calloc _ nmemb size => s'.ret ≠ 0 → ∀ i < nmemb * size, s'.heap.mem (s'.ret + i) = 0#8
  | .realloc _ ptr size => s'.ret ≠ 0 → ∀ l ∈ s.live, l.ptr = ptr →
    ∀ i < min (s.usable l) size, s'.heap.mem (s'.ret + i) = s.heap.mem (ptr + i)
  | .write addr byte => s'.heap.mem addr = byte
  | _ => True

namespace UserHeapAux

/-- The live blocks are blocks of the map, each with as many bytes as requested. -/
structure LiveIn (used : Nat → Option Nat) (live : List LiveBlock) : Prop where
  inUse : ∀ l ∈ live, ∃ x t, l.ptr = x + 24 ∧ used x = some t ∧ l.size ≤ t
  distinct : live.Pairwise fun l l' => l.ptr ≠ l'.ptr

variable {used used' : Nat → Option Nat} {live : List LiveBlock} {x y t size : Nat}

theorem LiveIn.record (h : LiveIn used live) (hx : used x = none) (hle : size ≤ t) :
    LiveIn (update used x (some t)) (recordLive live (x + 24) size) := by
  have hne : ∀ l ∈ live, ∃ z v, l.ptr = z + 24 ∧ z ≠ x ∧ used z = some v ∧ l.size ≤ v := by
    intro l hl
    obtain ⟨z, v, hptr, hz, hv⟩ := h.inUse l hl
    refine ⟨z, v, hptr, fun he => ?_, hz, hv⟩
    simp [he, hx] at hz
  refine ⟨fun l hl => ?_, pairwise_cons.2 ⟨fun l hl => ?_, h.distinct⟩⟩
  · rcases mem_cons.1 hl with rfl | hl
    · exact ⟨x, t, rfl, update_self x _ _, hle⟩
    · obtain ⟨z, v, hptr, hzx, hz, hv⟩ := hne l hl
      exact ⟨z, v, hptr, by rw [update_of_ne hzx, hz], hv⟩
  · obtain ⟨z, v, hptr, hzx, -, -⟩ := hne l hl
    dsimp only
    omega

theorem LiveIn.drop (h : LiveIn used live) (x : Nat) : LiveIn (update used x none) (dropLive live (x + 24)) := by
  refine ⟨fun l hl => ?_, h.distinct.filter _⟩
  obtain ⟨hl, hne⟩ := mem_filter.1 hl
  obtain ⟨z, v, hptr, hz, hv⟩ := h.inUse l hl
  have hzx : z ≠ x := fun he => by simp [hptr, he] at hne
  exact ⟨z, v, hptr, by rw [update_of_ne hzx, hz], hv⟩

variable {s s' : HeapUse}

theorem usable_eq {l : LiveBlock} (hh : s.heap.Holds used) (hptr : l.ptr = x + 24) (hx : used x = some t) : s.usable l = t := by
  obtain ⟨-, hlow, hsize⟩ := hh.bounds hx
  rw [HeapUse.usable, hptr, UserHeap.headerOf_eq (by omega), hsize]

theorem sound_of_holds (hh : s.heap.Holds used) (hl : LiveIn used s.live) : ∃ bs, s.Sound bs := by
  obtain ⟨bs, ht, hu⟩ := id hh
  refine ⟨bs, ht, fun l hmem => ?_, fun l hmem => ?_, ?_⟩
  · obtain ⟨x, t, hptr, hx, -⟩ := hl.inUse l hmem
    rw [usable_eq hh hptr hx, hptr]
    exact ⟨by omega, (hu x t).1 hx⟩
  · obtain ⟨x, t, hptr, hx, hle⟩ := hl.inUse l hmem
    rwa [usable_eq hh hptr hx]
  · refine hl.distinct.imp_of_mem fun {l l'} hmem hmem' hne => ?_
    obtain ⟨x, t, hptr, hx, -⟩ := hl.inUse l hmem
    obtain ⟨y, v, hptr', hy, -⟩ := hl.inUse l' hmem'
    rw [usable_eq hh hptr hx, usable_eq hh hptr' hy]
    have := hh.apart hx hy (by omega)
    omega

theorem keepsOthers_of_holds {op : HeapOp} (hh : s.heap.Holds used) (hh' : s'.heap.Holds used') (hl : LiveIn used s.live)
    (hlive : ∀ l ∈ s.live, op.released s' ≠ some l.ptr → l ∈ s'.live)
    (hkept : ∀ x t, used x = some t → op.released s' ≠ some (x + 24) → used' x = some t ∧
      ∀ i < t, ¬ op.Writes (x + 24 + i) → s'.heap.mem (x + 24 + i) = s.heap.mem (x + 24 + i)) : op.KeepsOthers s s' := by
  intro l hmem hrel
  obtain ⟨x, t, hptr, hx, -⟩ := hl.inUse l hmem
  obtain ⟨hx', hdata⟩ := hkept x t hx (by rwa [← hptr])
  rw [usable_eq hh hptr hx, usable_eq hh' hptr hx', hptr]
  exact ⟨hlive l hmem hrel, rfl, hdata⟩

/-- The heap of the program and the map of its blocks in use. -/
def HeapInv (s : HeapUse) : Prop := ∃ used, s.heap.Holds used ∧ LiveIn used s.live

variable {h' : UserHeap}

section Steps

variable (hh : s.heap.Holds used) (hl : LiveIn used s.live)
include hh hl

theorem step_none (op : HeapOp) {r : Nat} (hh' : h'.Holds used)
    (hkept : KeptData used s.heap.mem h'.mem) : HeapInv ⟨h', s.live, r⟩ ∧ op.KeepsOthers s ⟨h', s.live, r⟩ :=
  ⟨⟨used, hh', hl⟩, keepsOthers_of_holds hh hh' hl (fun _ hmem _ => hmem) fun x t hx _ => ⟨hx, fun i hi _ => hkept x t hx i hi⟩⟩

theorem step_hands (op : HeapOp) {r : Nat} (hhands : s.heap.Hands used size h' r) :
    HeapInv ⟨h', recordLive s.live r size, r⟩ ∧ op.KeepsOthers s ⟨h', recordLive s.live r size, r⟩ := by
  obtain ⟨x, t, rfl, hle, hx, hh', hkept⟩ := hhands
  refine ⟨⟨_, hh', hl.record hx hle⟩, keepsOthers_of_holds hh hh' hl (fun l hmem _ => ?_) fun y v hy _ => ?_⟩
  · simp [recordLive, hmem]
  · have hne : y ≠ x := fun he => by simp [he, hx] at hy
    exact ⟨by rw [update_of_ne hne, hy], fun i hi _ => hkept y v hy i hi⟩

theorem step_drop {op : HeapOp} {r : Nat} (hh' : h'.Holds (update used x none))
    (hkept : KeptData (update used x none) s.heap.mem h'.mem)
    (hrel : op.released ⟨h', dropLive s.live (x + 24), r⟩ = some (x + 24)) :
    HeapInv ⟨h', dropLive s.live (x + 24), r⟩ ∧ op.KeepsOthers s ⟨h', dropLive s.live (x + 24), r⟩ := by
  refine ⟨⟨_, hh', hl.drop x⟩, keepsOthers_of_holds hh hh' hl (fun l hmem hne => ?_) fun y t hy hne => ?_⟩
  · rw [hrel, ne_eq] at hne
    exact mem_filter.2 ⟨hmem, by simpa using Ne.symm hne⟩
  · rw [hrel, ne_eq, Option.some.injEq, Nat.add_right_cancel_iff] at hne
    have hy' : update used x none y = some t := by rw [update_of_ne (Ne.symm hne), hy]
    exact ⟨hy', fun i hi _ => hkept y t hy' i hi⟩

omit hh hl in
theorem LiveIn.dropLive_zero (h : LiveIn used live) : dropLive live 0 = live := by
  refine filter_eq_self.2 fun l hl => ?_
  obtain ⟨x, t, hptr, -, -⟩ := h.inUse l hl
  simp [hptr]

theorem step_malloc (op : HeapOp) (grant : Bool) (hsize : RequestFits size) (hroom : s.heap.RoomFor size) :
    ∃ h' r, s.heap.malloc grant size = some (h', r) ∧ HeapInv ⟨h', recordLive s.live r size, r⟩ ∧
      op.KeepsOthers s ⟨h', recordLive s.live r size, r⟩ := by
  obtain ⟨h', r, hrun, hres⟩ := UserHeap.malloc_spec hh grant hsize hroom
  refine ⟨h', r, hrun, ?_⟩
  rcases hres with ⟨rfl, hh', hkept⟩ | hhands
  · exact step_none hh hl op hh' hkept
  · exact step_hands hh hl op hhands

theorem step_free (op : HeapOp) {ptr : Nat} (hptr : ptr = 0 ∨ ∃ l ∈ s.live, l.ptr = ptr)
    (hrel : ∀ s', s'.ret = 0 → op.released s' = some ptr) :
    ∃ h', s.heap.free ptr = some h' ∧ HeapInv ⟨h', dropLive s.live ptr, 0⟩ ∧ op.KeepsOthers s ⟨h', dropLive s.live ptr, 0⟩ := by
  rcases hptr with rfl | ⟨l, hmem, rfl⟩
  · refine ⟨s.heap, by rw [UserHeap.free, if_pos rfl], ?_⟩
    rw [hl.dropLive_zero]
    exact step_none hh hl op hh fun _ _ _ _ _ => rfl
  · obtain ⟨x, t, hptr, hx, -⟩ := hl.inUse l hmem
    obtain ⟨h', hrun, hh', hkept⟩ := UserHeap.free_spec hh hx
    rw [hptr] at hrel ⊢
    exact ⟨h', hrun, step_drop hh hl hh' hkept (hrel _ rfl)⟩

theorem step_realloc {l : LiveBlock} (grant : Bool) (hmem : l ∈ s.live) (hz : size ≠ 0) (hsize : RequestFits size)
    (hroom : s.heap.RoomFor size) :
    ∃ s', (HeapOp.realloc grant l.ptr size).step s = some s' ∧ HeapInv s' ∧ (HeapOp.realloc grant l.ptr size).KeepsOthers s s' ∧
      (HeapOp.realloc grant l.ptr size).Leaves s s' := by
  obtain ⟨x, t, hptr, hx, -⟩ := hl.inUse l hmem
  have husable : ∀ l' ∈ s.live, l'.ptr = l.ptr → s.usable l' = t := fun l' _ he => usable_eq hh (he.trans hptr) hx
  obtain ⟨h', r, hrun, hres⟩ := UserHeap.realloc_spec hh hx grant hz hsize hroom
  rw [← hptr] at hrun
  refine ⟨_, by rw [step, hrun, map_some], ?_⟩
  dsimp only
  rcases hres with ⟨rfl, hh', hkept⟩ | ⟨y, v, rfl, hle, hy, hh', hkept, hfirst⟩
  · rw [if_pos ⟨rfl, hz⟩]
    obtain ⟨hinv, hkeeps⟩ := step_none hh hl (.realloc grant l.ptr size) (r := 0) hh' hkept
    exact ⟨hinv, hkeeps, fun hne => absurd rfl hne⟩
  · have hret : ¬ (y + 24 = 0 ∧ size ≠ 0) := fun h => by omega
    have hyn : update used x none y = none := by
      rcases hy with rfl | hy
      · exact update_self y _ _
      · by_cases hyx : y = x
        · rw [hyx, update_self]
        · rw [update_of_ne hyx, hy]
    have hlive := (hl.drop x).record hyn hle
    have hrel : ∀ s' : HeapUse, s'.ret = y + 24 → (realloc grant l.ptr size).released s' = some (x + 24) := by
      intro s' hs
      rw [released, hs, if_neg hret, hptr]
    rw [hptr]
    rw [hptr] at hrel
    refine ⟨⟨_, hh', hlive⟩, keepsOthers_of_holds hh hh' hl (fun l' hmem' hne => ?_) (fun z w hw hne => ?_), fun _ l' hmem' he i hi => ?_⟩
    · rw [hrel _ rfl] at hne
      have hdrop : l' ∈ dropLive s.live (x + 24) := mem_filter.2 ⟨hmem', by simpa using Ne.symm hne⟩
      simp [recordLive, hdrop]
    · rw [hrel _ rfl, ne_eq, Option.some.injEq, Nat.add_right_cancel_iff] at hne
      have hz' : update used x none z = some w := by rw [update_of_ne (Ne.symm hne), hw]
      have hzy : z ≠ y := fun he => by simp [he, hyn] at hz'
      exact ⟨by rw [update_of_ne hzy, hz'], fun i hi _ => hkept z w hz' i hi⟩
    · rw [husable l' hmem' (he.trans hptr.symm)] at hi
      exact hfirst i hi

end Steps

/-- Every call that is allowed returns, and keeps the invariant. -/
theorem step_spec (op : HeapOp) (hinv : HeapInv s) (hop : op.Allowed s ∧ op.RoomFor s) :
    ∃ s', op.step s = some s' ∧ HeapInv s' ∧ op.KeepsOthers s s' ∧ op.Leaves s s' := by
  obtain ⟨used, hh, hl⟩ := hinv
  obtain ⟨hallowed, hroom⟩ := hop
  cases op with
  | malloc grant size =>
    obtain ⟨h', r, hrun, hinv, hkeeps⟩ := step_malloc hh hl (.malloc grant size) grant hallowed hroom
    exact ⟨_, by rw [step, hrun, map_some], hinv, hkeeps, trivial⟩
  | calloc grant nmemb size =>
    obtain ⟨h', r, hrun, hres⟩ := UserHeap.calloc_spec hh grant hallowed hroom
    refine ⟨_, by rw [step, hrun, map_some], ?_⟩
    rcases hres with ⟨rfl, hh', hkept⟩ | ⟨hhands, hzero⟩
    · obtain ⟨hinv, hkeeps⟩ := step_none hh hl (.calloc grant nmemb size) (r := 0) hh' hkept
      exact ⟨hinv, hkeeps, fun hne => absurd rfl hne⟩
    · obtain ⟨hinv, hkeeps⟩ := step_hands hh hl (.calloc grant nmemb size) hhands
      exact ⟨hinv, hkeeps, fun _ => hzero⟩
  | realloc grant ptr size =>
    obtain ⟨hsize, hptr⟩ := hallowed
    by_cases hp : ptr = 0
    · -- `malloc`
      subst hp
      obtain ⟨h', r, hrun, hinv, hkeeps⟩ := step_malloc hh hl (.realloc grant 0 size) grant hsize hroom
      have hlive : (if r = 0 ∧ size ≠ 0 then s.live else recordLive (dropLive s.live 0) r size) = recordLive s.live r size := by
        rw [hl.dropLive_zero]
        split
        · next hr => rw [recordLive, if_pos hr.1]
        · rfl
      refine ⟨_, by rw [step, UserHeap.realloc, if_pos rfl, hrun, map_some], ?_⟩
      dsimp only
      rw [hlive]
      refine ⟨hinv, hkeeps, fun _ l hmem he => ?_⟩
      obtain ⟨x, t, hx, -, -⟩ := hl.inUse l hmem
      omega
    · by_cases hz : size = 0
      · -- `free`
        subst hz
        obtain ⟨h', hrun, hinv, hkeeps⟩ := step_free hh hl (.realloc grant ptr 0) hptr fun s' _ => if_neg fun h => h.2 rfl
        refine ⟨_, ?_, hinv, hkeeps, fun hne => absurd rfl hne⟩
        rw [step, UserHeap.realloc, if_neg hp, hrun]
        simp [recordLive]
      · obtain ⟨l, hmem, rfl⟩ := hptr.resolve_left hp
        exact step_realloc hh hl grant hmem hz hsize hroom
  | free ptr =>
    obtain ⟨h', hrun, hinv, hkeeps⟩ := step_free hh hl (.free ptr) hallowed fun _ _ => rfl
    exact ⟨_, by rw [step, hrun, map_some], hinv, hkeeps, trivial⟩
  | write addr byte =>
    obtain ⟨l, hmem, hlo, hhi⟩ := hallowed
    obtain ⟨x, t, hptr, hx, -⟩ := hl.inUse l hmem
    rw [usable_eq hh hptr hx] at hhi
    have hh' : UserHeap.Holds { s.heap with mem := update s.heap.mem addr byte } used :=
      hh.write hx fun i hi => update_of_ne (by omega) _ _
    refine ⟨_, rfl, ⟨used, hh', hl⟩, keepsOthers_of_holds hh hh' hl (fun _ hmem _ => hmem) fun y v hy _ => ⟨hy, fun i _ hne => ?_⟩,
      update_self _ _ _⟩
    exact update_of_ne hne _ _

variable {mem : Nat → BitVec 8} {brk : Nat} {ops : List HeapOp}

/-- What follows for a call that leaves a sound heap and keeps its promises holds of every call of a run. -/
theorem returned_of_sound {P : HeapUse → HeapOp → HeapUse → Prop}
    (hP : ∀ s op s', op.step s = some s' → (∃ bs, s'.Sound bs) → op.KeepsOthers s s' ∧ op.Leaves s s' → P s op s')
    (hpos : 0 < brk) (hword : brk < 2 ^ 64)
    (hmade : Made step (fun s op => op.Allowed s ∧ op.RoomFor s) (HeapUse.start mem brk) ops) :
    Returned step P (HeapUse.start mem brk) ops := by
  refine Returned.of_inv (I := HeapInv) (fun s op hinv hop => ?_) ?_ hmade
  · obtain ⟨s', hrun, hinv', hkept⟩ := step_spec op hinv hop
    obtain ⟨used, hh, hl⟩ := id hinv'
    exact ⟨s', hrun, hinv', hP s op s' hrun (sound_of_holds hh hl) hkept⟩
  · refine ⟨fun _ => none, ⟨[], ?_, fun x s => iff_of_false nofun at_nil⟩, ⟨nofun, List.Pairwise.nil⟩⟩
    exact ⟨rfl, laid_nil _ _ _, le_rfl, isChain_nil, Nat.two_pow_pos 63, Nat.zero_le _, hword, hpos, fun _ => rfl⟩

end UserHeapAux

/-- In every run of calls that the program may make and for which the break does not wrap around, every call returns and leaves a sound
heap, the blocks that are not given back as they were, zeros for `calloc`, and the first bytes for `realloc`. -/
theorem user_heap_sound (mem : Nat → BitVec 8) {brk : Nat} (hpos : 0 < brk) (hword : brk < 2 ^ 64) (ops : List HeapOp)
    (hmade : Made HeapOp.step (fun s op => op.Allowed s ∧ op.RoomFor s) (HeapUse.start mem brk) ops) :
    Returned HeapOp.step (fun s op s' => (∃ bs, s'.Sound bs) ∧ op.KeepsOthers s s' ∧ op.Leaves s s') (HeapUse.start mem brk) ops :=
  returned_of_sound (fun _ _ _ _ hsound hkept => ⟨hsound, hkept⟩) hpos hword hmade

/-- Requests, a write, a block that is moved and one that grows in place. -/
theorem user_heap_sample :
    Made HeapOp.step (fun s op => op.Allowed s ∧ op.RoomFor s) (HeapUse.start (fun _ => 0xA5#8) 0x80000000)
      [.malloc true 100, .calloc true 3 8, .write 0x8000001A 7#8, .realloc true 0x80000018 200, .free 0x80000098,
        .realloc false 0x800000C8 5000, .malloc true 10] ∧
    Returned HeapOp.step (fun s op s' => (∃ bs, s'.Sound bs) ∧ op.KeepsOthers s s' ∧ op.Leaves s s')
      (HeapUse.start (fun _ => 0xA5#8) 0x80000000)
      [.malloc true 100, .calloc true 3 8, .write 0x8000001A 7#8, .realloc true 0x80000018 200, .free 0x80000098,
        .realloc false 0x800000C8 5000, .malloc true 10] := by
  refine ⟨?made, user_heap_sound _ (by decide) (by decide) _ ?made⟩
  decide +kernel

/-- A request for almost the whole address space moves the break back to the base of the heap, and gets a block. -/
theorem user_heap_break_wraps :
    Made HeapOp.step (fun s op => op.Allowed s) (HeapUse.start (fun _ => 0#8) 0x80000000)
      [.malloc true 16, .malloc true (2 ^ 64 - 4120)] ∧
    ¬ Returned HeapOp.step (fun _ _ s' => ∃ bs, s'.Sound bs) (HeapUse.start (fun _ => 0#8) 0x80000000)
      [.malloc true 16, .malloc true (2 ^ 64 - 4120)] := by
  have hrun : (run step (HeapUse.start (fun _ => 0#8) 0x80000000) [.malloc true 16, .malloc true (2 ^ 64 - 4120)]).map
      (fun s => (s.heap.head, s.heap.base, s.heap.brk)) = some (0x80000000, 0x80000000, 0x80000000) := by decide +kernel
  refine ⟨by decide +kernel, ?_⟩
  rintro ⟨s1, h1, -, s2, h2, ⟨bs, hs⟩, -⟩
  rw [run_cons_of_some h1, run_cons_of_some h2, run, map_some, some.injEq, Prod.mk.injEq, Prod.mk.injEq] at hrun
  obtain ⟨hhead, hbase, hbrk⟩ := hrun
  have hfits := hs.tiled.fits
  cases bs with
  | nil =>
    have hnil : s2.heap.head = 0 := hs.tiled.head
    omega
  | cons b bs =>
    rw [extent_cons] at hfits
    omega

/-! ## Requests that are too large -/

/-- The bytes that a call asks for. -/
def HeapOp.request : HeapOp → Nat
  | .malloc _ size => size
  | .calloc _ nmemb size => nmemb * size
  | .realloc _ _ size => size
  | _ => 0

/-- The block at a pointer that is not null has the bytes that were asked for, and they lie below the break. -/
def HeapUse.Granted (s : HeapUse) (size : Nat) : Prop :=
  s.ret ≠ 0 → size ≤ s.usable ⟨s.ret, size⟩ ∧ s.ret + size ≤ s.heap.brk

/-- A pointer that a call returns is live, with the size that was asked for. -/
theorem UserHeapAux.live_of_step {s s' : HeapUse} {op : HeapOp} (hs : op.step s = some s') (hr : s'.ret ≠ 0) :
    ⟨s'.ret, op.request⟩ ∈ s'.live := by
  cases op with
  | malloc | calloc | realloc =>
    obtain ⟨⟨h, r⟩, -, rfl⟩ := map_eq_some_iff.1 hs
    simp [recordLive, show r ≠ 0 from hr, request]
  | free =>
    obtain ⟨h, -, rfl⟩ := map_eq_some_iff.1 hs
    exact absurd rfl hr
  | write =>
    cases hs
    exact absurd rfl hr

/-- In every run of calls that the program may make and for which the break does not wrap around, a pointer that is not null has the
bytes that were asked for behind it. -/
theorem user_heap_granted (mem : Nat → BitVec 8) {brk : Nat} (hpos : 0 < brk) (hword : brk < 2 ^ 64) (ops : List HeapOp)
    (hmade : Made HeapOp.step (fun s op => op.Allowed s ∧ op.RoomFor s) (HeapUse.start mem brk) ops) :
    Returned HeapOp.step (fun _ op s' => s'.Granted op.request) (HeapUse.start mem brk) ops := by
  refine returned_of_sound (fun s op s' hs ⟨bs, hsound⟩ _ hr => ?_) hpos hword hmade
  have hlive := live_of_step hs hr
  obtain ⟨hhdr, hat⟩ := hsound.inUse _ hlive
  have hlarge := hsound.large _ hlive
  have hend := hat.bounds.2
  have hfits := hsound.tiled.fits
  dsimp only at hhdr hlarge hend
  exact ⟨hlarge, by omega⟩

theorem user_heap_granted_two :
    Made HeapOp.step (fun s op => op.Allowed s ∧ op.RoomFor s) (HeapUse.start (fun _ => 0#8) 0x80000000)
      [.malloc true 100, .realloc true 0x80000018 5000] ∧
    Returned HeapOp.step (fun _ op s' => s'.Granted op.request) (HeapUse.start (fun _ => 0#8) 0x80000000)
      [.malloc true 100, .realloc true 0x80000018 5000] := by
  refine ⟨?made, user_heap_granted _ (by decide) (by decide) _ ?made⟩
  decide +kernel

/-- A size that wraps around when it is rounded up gets a block of 16 bytes. -/
theorem user_heap_granted_less : ¬ Returned HeapOp.step (fun _ op s' => s'.Granted op.request)
    (HeapUse.start (fun _ => 0#8) 0x80000000) [.malloc true (2 ^ 64 - 1)] := by
  rintro ⟨s, hs, hgranted, -⟩
  have hrun : (step (HeapUse.start (fun _ => 0#8) 0x80000000) (.malloc true (2 ^ 64 - 1))).map
      (fun s => (s.ret, s.usable ⟨s.ret, 2 ^ 64 - 1⟩)) = some (0x80000018, 16) := by decide +kernel
  rw [hs, map_some, some.injEq, Prod.mk.injEq] at hrun
  have hlarge := (hgranted (by omega)).1
  dsimp only [request] at hlarge
  omega

end TsOs
