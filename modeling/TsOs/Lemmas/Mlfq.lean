import TsOs.Mlfq
import TsOs.Lib.Chains

/-!
# The queues as lists of tasks

What the linked queues of `mlfq.c` stand for: a list of tasks for each level. `Chains s qs` says that the descriptors and the
`next` fields of `s` thread exactly the lists `qs`; `Rep s qs` adds the tags of the tasks and the bitmap, which `mlfq_boost_all`
sets only after it has moved the lists. Each operation is shown to act on the lists as its abstract counterpart does.
-/

namespace TsOs

open LinkedList Function List

/-- One list of tasks for each level. -/
abbrev Queues : Type := Level → List TaskPtr

/-- The descriptors and the `next` fields thread the lists `qs`, which share no task. -/
structure Chains (s : Mlfq) (qs : Queues) : Prop where
  linked : ∀ l, Linked s.next (s.queues l).head (qs l)
  tail : ∀ l, (s.queues l).tail = (qs l).getLast?
  count : ∀ l, (s.queues l).count = (qs l).length
  disjoint : ∀ l l' t, t ∈ qs l → t ∈ qs l' → l = l'

/-- The invariant of the queues: they thread the lists `qs`, every queued task carries the level of its queue, and the bitmap
holds exactly the levels that are not empty. -/
structure Rep (s : Mlfq) (qs : Queues) : Prop extends Chains s qs where
  level : ∀ l, ∀ t ∈ qs l, (s.tasks t).mlfqLevel = (l.val : Int)
  bit : ∀ l : Level, s.bitmap.getLsbD l.val = true ↔ qs l ≠ []
  bitHigh : ∀ i, 4 ≤ i → s.bitmap.getLsbD i = false

variable {t : TaskPtr}

namespace MlfqAux

/-! ## The updates of the state -/

section

variable (s : Mlfq) (t : TaskPtr) (f : Task → Task) (l : Level) (q : MlfqQueue)

@[simp] theorem modify_queues : (s.modify t f).queues = s.queues := rfl

@[simp] theorem modify_bitmap : (s.modify t f).bitmap = s.bitmap := rfl

@[simp] theorem setQueue_tasks : (s.setQueue l q).tasks = s.tasks := rfl

@[simp] theorem setQueue_bitmap : (s.setQueue l q).bitmap = s.bitmap := rfl

@[simp] theorem setQueue_next : (s.setQueue l q).next = s.next := rfl

@[simp] theorem setQueue_queues : (s.setQueue l q).queues = update s.queues l q := rfl

/-- A write to the fields of a task is a write to its link. -/
theorem modify_next : (s.modify t f).next = update s.next t (f (s.tasks t)).next := by
  funext u
  by_cases h : u = t
  · subst h; simp [Mlfq.modify, Mlfq.next]
  · simp [Mlfq.modify, Mlfq.next, update_of_ne h]

theorem modify_tasks_self : (s.modify t f).tasks t = f (s.tasks t) := by
  simp [Mlfq.modify]

end

theorem modify_tasks_of_ne (s : Mlfq) {u : TaskPtr} (f : Task → Task) (h : u ≠ t) :
    (s.modify t f).tasks u = s.tasks u := by
  simp [Mlfq.modify, update_of_ne h]

/-- The tag of a task only changes when the write changes it. -/
theorem modify_level (s : Mlfq) (t u : TaskPtr) {f : Task → Task} (hf : ∀ k, (f k).mlfqLevel = k.mlfqLevel) :
    ((s.modify t f).tasks u).mlfqLevel = (s.tasks u).mlfqLevel := by
  by_cases h : u = t
  · subst h; rw [modify_tasks_self, hf]
  · rw [modify_tasks_of_ne s f h]

end MlfqAux

open MlfqAux

/-! ## The chains of a changed state -/

variable {qs : Queues} {s : Mlfq}

/-- The chains only depend on the links of the queued tasks and on the descriptors. -/
theorem Chains.congr {s' : Mlfq} (h : Chains s qs) (hq : s'.queues = s.queues)
    (hn : ∀ l, ∀ t ∈ qs l, s'.next t = s.next t) : Chains s' qs where
  linked l := by rw [hq]; exact (h.linked l).congr (hn l)
  tail l := by rw [hq]; exact h.tail l
  count l := by rw [hq]; exact h.count l
  disjoint := h.disjoint

/-- A state that differs from `s` in one queue only, which now threads `ys`. -/
theorem Chains.set {s' : Mlfq} (h : Chains s qs) (l : Level) (ys : List TaskPtr)
    (hl : Linked s'.next (s'.queues l).head ys) (ht : (s'.queues l).tail = ys.getLast?)
    (hc : (s'.queues l).count = ys.length) (hq : ∀ l', l' ≠ l → s'.queues l' = s.queues l')
    (hn : ∀ l', l' ≠ l → ∀ t ∈ qs l', s'.next t = s.next t) (hd : ∀ t ∈ ys, ∀ l', l' ≠ l → t ∉ qs l') :
    Chains s' (update qs l ys) where
  linked := (forall_update_iff qs fun k xs => Linked s'.next (s'.queues k).head xs).2
    ⟨hl, fun k hk => by rw [hq k hk]; exact (h.linked k).congr (hn k hk)⟩
  tail := (forall_update_iff qs fun k xs => (s'.queues k).tail = xs.getLast?).2
    ⟨ht, fun k hk => by rw [hq k hk]; exact h.tail k⟩
  count := (forall_update_iff qs fun k xs => (s'.queues k).count = xs.length).2
    ⟨hc, fun k hk => by rw [hq k hk]; exact h.count k⟩
  disjoint := (Family.set ⟨h.linked, h.disjoint⟩ hl hn hd).disjoint

/-- A queued task is shorter in line than the fuel of a walk. -/
theorem Chains.length_lt (h : Chains s qs) (l : Level) :
    (qs l).length < loopFuel ∧ (qs l).length < 2 ^ 32 :=
  TaskPtr.length_lt (h.linked l).nodup

/-- The last of a list that ends in a given task. -/
theorem Chains.tail_cases (h : Chains s qs) (l : Level) :
    ((s.queues l).tail = none ∧ qs l = []) ∨ ∃ xs t, (s.queues l).tail = some t ∧ qs l = xs ++ [t] := by
  rcases eq_nil_or_concat (qs l) with e | ⟨xs, t, e⟩
  · exact Or.inl ⟨by rw [h.tail l, e]; rfl, e⟩
  · rw [concat_eq_append] at e
    exact Or.inr ⟨xs, t, by rw [h.tail l, e]; simp, e⟩

/-- The append at the tail appends to the list. -/
theorem Chains.pushTail (h : Chains s qs) (l : Level) (ht : ∀ k, t ∉ qs k)
    (hn : s.next t = none) : Chains (pushTail s l t) (update qs l (qs l ++ [t])) := by
  have hlen : ((qs l).length + 1) % 2 ^ 32 = (qs l).length + 1 := by
    have hnd : (t :: qs l).Nodup := nodup_cons.2 ⟨ht l, (h.linked l).nodup⟩
    have := (TaskPtr.length_lt hnd).2
    rw [length_cons] at this
    exact Nat.mod_eq_of_lt this
  have hd : ∀ u ∈ qs l ++ [t], ∀ k, k ≠ l → u ∉ qs k := by
    intro u hu k hk huk
    rcases mem_append.1 hu with hu | hu
    · exact hk (h.disjoint k l u huk hu)
    · rw [mem_singleton] at hu
      exact ht k (hu ▸ huk)
  rcases h.tail_cases l with ⟨htl, hq⟩ | ⟨xs, tl, htl, hq⟩
  · refine h.set l (qs l ++ [t]) ?_ ?_ ?_ ?_ ?_ hd
    · simp [TsOs.pushTail, htl, hq, hn]
    · simp [TsOs.pushTail, htl]
    · simp only [TsOs.pushTail, htl, setQueue_queues, update_self, h.count l, hlen, length_append,
        length_singleton]
    · intro k hk; simp [TsOs.pushTail, htl, update_of_ne hk]
    · intro k _ u _; simp [TsOs.pushTail, htl]
  · have hnext : (TsOs.pushTail s l t).next = update s.next tl (some t) := by
      simp only [TsOs.pushTail, htl, setQueue_next, modify_next]
    refine h.set l (qs l ++ [t]) ?_ ?_ ?_ ?_ ?_ hd
    · rw [hnext, hq]
      have hl := h.linked l
      rw [hq] at hl
      have htq : t ∉ xs ++ [tl] := hq ▸ ht l
      simpa [TsOs.pushTail, htl] using hl.snoc htq hn
    · simp [TsOs.pushTail, htl]
    · simp only [TsOs.pushTail, htl, modify_queues, setQueue_queues, update_self, h.count l, hlen, length_append,
        length_singleton]
    · intro k hk; simp [TsOs.pushTail, htl, update_of_ne hk]
    · intro k hk u hu
      rw [hnext, update_of_ne]
      rintro rfl
      exact hk (h.disjoint k l u hu (by rw [hq]; simp))

/-! ## Fields other than the link -/

variable {l : Level}

namespace MlfqAux

/-- A task up to its link. -/
abbrev unlinked (k : Task) : Task := { k with next := none }

theorem unlinked_fields {k k' : Task} (h : unlinked k = unlinked k') :
    k.state = k'.state ∧ k.mlfqLevel = k'.mlfqLevel ∧ k.remainingTicks = k'.remainingTicks := by
  injection h with hs _ hr hl
  exact ⟨hs, hl, hr⟩

/-- A write to the link of a task leaves the other fields of every task as they were. -/
theorem modify_unlinked (s : Mlfq) (t u : TaskPtr) (v : Option TaskPtr) :
    unlinked ((s.modify t (fun k => { k with next := v })).tasks u) = unlinked (s.tasks u) := by
  by_cases h : u = t
  · subst h; rw [modify_tasks_self]
  · rw [modify_tasks_of_ne s _ h]

/-- The append at the tail writes no field of a task but links. -/
theorem pushTail_unlinked (s : Mlfq) (l : Level) (t u : TaskPtr) :
    unlinked ((pushTail s l t).tasks u) = unlinked (s.tasks u) := by
  unfold pushTail
  cases h : (s.queues l).tail with
  | none => rfl
  | some tl => exact modify_unlinked s tl u _

/-- Unlinking writes no field of a task but links. -/
theorem setLink_unlinked (s : Mlfq) (l : Level) (pp : Link TaskPtr) (v : Option TaskPtr) (u : TaskPtr) :
    unlinked ((setLink s l pp v).tasks u) = unlinked (s.tasks u) := by
  cases pp with
  | head => rfl
  | after p => exact modify_unlinked s p u _

theorem pushTail_bitmap (s : Mlfq) (l : Level) (t : TaskPtr) : (pushTail s l t).bitmap = s.bitmap := by
  unfold pushTail
  cases h : (s.queues l).tail <;> rfl

/-- The mask of a level has that one bit. -/
theorem levelBit_getLsbD (l : Level) (i : Nat) : (levelBit l).getLsbD i = decide (i = l.val) := by
  simp only [levelBit, BitVec.getLsbD_shiftLeft, BitVec.getLsbD_one]
  by_cases h : i = l.val
  · subst h; simp; omega
  · simp only [h, decide_false]
    by_cases h1 : i < l.val
    · simp [h1]
    · have : i - l.val ≠ 0 := by omega
      simp [this]

theorem levelIdx_eq_some {level : Int} (h : levelIdx level = some l) : level = (l.val : Int) := by
  unfold levelIdx at h
  split at h
  · rename_i hl
    cases h
    simp only
    omega
  · cases h

theorem levelIdx_val (l : Level) : levelIdx (l.val : Int) = some l := by
  unfold levelIdx
  rw [dif_pos (by omega)]
  simp

end MlfqAux

/-! ## `mlfq_enqueue` -/

/-- A call that is no enqueue: a null task, or a level there is none of. -/
theorem mlfqEnqueue_none {task : Option TaskPtr} {level : Int} (h : task = none ∨ levelIdx level = none) :
    mlfqEnqueue s task level = s := by
  unfold mlfqEnqueue
  rcases h with h | h
  · rw [h]
  · cases task with
    | none => rfl
    | some t => rw [h]

/-- `mlfq_enqueue` of a task in no queue appends it to the list of its level. -/
theorem Rep.enqueue (h : Rep s qs) {level : Int}
    (hl : levelIdx level = some l) (ht : ∀ k, t ∉ qs k) :
    Rep (mlfqEnqueue s (some t) level) (update qs l (qs l ++ [t])) := by
  unfold mlfqEnqueue
  rw [hl]
  simp only
  generalize hs : s.modify t _ = s1
  have hq : s1.queues = s.queues := by rw [← hs]; rfl
  have hb : s1.bitmap = s.bitmap := by rw [← hs]; rfl
  have hne : ∀ k, ∀ u ∈ qs k, s1.tasks u = s.tasks u := by
    intro k u hu
    rw [← hs, modify_tasks_of_ne]
    rintro rfl
    exact ht k hu
  have hc : Chains s1 qs := h.toChains.congr hq (fun k u hu => congrArg Task.next (hne k u hu))
  have hnt : s1.next t = none := by rw [← hs, modify_next, update_self]
  have hlt : (s1.tasks t).mlfqLevel = level := by rw [← hs, modify_tasks_self]
  refine { toChains := (hc.pushTail l ht hnt).congr rfl (fun _ _ _ => rfl), level := ?_, bit := ?_, bitHigh := ?_ }
  · intro k u hu
    refine (unlinked_fields (pushTail_unlinked s1 l t u)).2.1.trans ?_
    by_cases e : k = l
    · subst e
      rw [update_self, mem_append, mem_singleton] at hu
      rcases hu with hu | rfl
      · rw [hne k u hu]; exact h.level k u hu
      · rw [hlt]; exact levelIdx_eq_some hl
    · rw [update_of_ne e] at hu
      rw [hne k u hu]
      exact h.level k u hu
  · intro k
    simp only [pushTail_bitmap, hb, BitVec.getLsbD_or, levelBit_getLsbD, Bool.or_eq_true, decide_eq_true_eq]
    by_cases e : k = l
    · subst e; simp
    · rw [update_of_ne e, h.bit k]
      have : k.val ≠ l.val := fun he => e (Fin.ext he)
      simp [this]
  · intro i hi
    have : i ≠ l.val := by have := l.isLt; omega
    simp [pushTail_bitmap, hb, levelBit_getLsbD, this, h.bitHigh i hi]

/-- `mlfq_enqueue` writes the fields of the task it appends, and only links elsewhere. -/
theorem mlfqEnqueue_unlinked (s : Mlfq) {u : TaskPtr} (level : Int) (hu : u ≠ t) :
    unlinked ((mlfqEnqueue s (some t) level).tasks u) = unlinked (s.tasks u) := by
  unfold mlfqEnqueue
  cases hl : levelIdx level with
  | none => rfl
  | some l =>
    refine (pushTail_unlinked _ l t u).trans ?_
    rw [modify_tasks_of_ne s _ hu]

theorem mlfqEnqueue_state (s : Mlfq) {u : TaskPtr} (level : Int) (hu : u ≠ t) :
    ((mlfqEnqueue s (some t) level).tasks u).state = (s.tasks u).state :=
  (unlinked_fields (mlfqEnqueue_unlinked s level hu)).1

/-- `mlfq_enqueue` at a level makes the task ready, with that level's quantum. -/
theorem mlfqEnqueue_self (s : Mlfq) {level : Int} (hl : levelIdx level = some l) :
    ((mlfqEnqueue s (some t) level).tasks t).state = .ready ∧
      ((mlfqEnqueue s (some t) level).tasks t).mlfqLevel = level := by
  unfold mlfqEnqueue
  rw [hl]
  constructor
  · refine (unlinked_fields (pushTail_unlinked _ l t t)).1.trans ?_
    rw [modify_tasks_self]
  · refine (unlinked_fields (pushTail_unlinked _ l t t)).2.1.trans ?_
    rw [modify_tasks_self]

/-! ## `mlfq_dequeue` -/

namespace MlfqAux

/-- The write `*pp = v`, to the links and to the descriptors. -/
theorem setLink_next (s : Mlfq) (l : Level) (pp : Link TaskPtr) (v : Option TaskPtr) :
    (setLink s l pp v).next = pp.writeNext s.next v ∧
      (setLink s l pp v).queues = update s.queues l { s.queues l with head := pp.writeHead (s.queues l).head v } ∧
      (setLink s l pp v).bitmap = s.bitmap := by
  cases pp with
  | head => exact ⟨rfl, rfl, rfl⟩
  | after p => exact ⟨modify_next s p (fun k => { k with next := v }), (update_eq_self l s.queues).symm, rfl⟩

/-- The tail pointer after the unlinking is the last of the list that is left. -/
theorem fixTail_spec {zs : List TaskPtr}
    (h : Linked s.next (s.queues l).head zs)
    (ht : zs ≠ [] → (s.queues l).tail = some t ∨ (s.queues l).tail = zs.getLast?) :
    ∃ s', fixTail s l t = some s' ∧ s'.tasks = s.tasks ∧ (∀ k, k ≠ l → s'.queues k = s.queues k) ∧
      s'.queues l = { s.queues l with tail := zs.getLast? } ∧
      s'.bitmap = (if zs = [] then s.bitmap &&& ~~~levelBit l else s.bitmap) := by
  have hh := h.head_eq
  cases zs with
  | nil =>
    rw [linked_nil] at h
    refine ⟨{ s.setQueue l { s.queues l with tail := none } with bitmap := s.bitmap &&& ~~~levelBit l },
      by simp only [fixTail, h], rfl, fun k hk => ?_, ?_, ?_⟩
    · simp [update_of_ne hk]
    · simp [h]
    · simp
  | cons z zs =>
    rw [head?_cons] at hh
    by_cases hc : (s.queues l).tail = some t
    · have hlast : lastFrom s.next loopFuel z = (z :: zs).getLast? := by
        have hlen := (TaskPtr.length_lt h.nodup).1
        rw [hh] at h
        exact lastFrom_eq h (Nat.le_of_lt hlen)
      obtain ⟨tl, htl⟩ : ∃ tl, (z :: zs).getLast? = some tl := ⟨_, getLast?_eq_some_getLast (by simp)⟩
      refine ⟨s.setQueue l { s.queues l with tail := some tl },
        by simp only [fixTail, hh, if_pos hc, hlast, htl, Option.map_some], rfl, fun k hk => ?_, ?_, ?_⟩
      · simp [update_of_ne hk]
      · simp [htl]
      · simp
    · refine ⟨s, by simp only [fixTail, hh, if_neg hc], rfl, fun k _ => rfl, ?_, by simp⟩
      have := (ht (by simp)).resolve_left hc
      rw [← this]

/-- The queues without a task. -/
def without (qs : Queues) (t : TaskPtr) : Queues := fun l => (qs l).erase t

theorem without_of_notMem (h : ∀ l, t ∉ qs l) : without qs t = qs :=
  funext (fun l => erase_of_not_mem (h l))

end MlfqAux

/-- `mlfq_dequeue` of a task in no queue changes nothing. -/
theorem Rep.dequeue_notMem (h : Rep s qs) (ht : ∀ k, t ∉ qs k) :
    mlfqDequeue s (some t) = some s := by
  cases hl : levelIdx (s.tasks t).mlfqLevel with
  | none => simp only [mlfqDequeue, hl]
  | some l =>
    have hf : findLink s.next (fun u => u == t) loopFuel .head (s.queues l).head = some none := by
      refine findLink_none (h.linked l) (fun u hu => ?_) (h.toChains.length_lt l).1 .head
      simp only [beq_eq_false_iff_ne]
      rintro rfl
      exact ht l hu
    simp only [mlfqDequeue, hl, hf]

/-- `mlfq_dequeue` takes the task out of its list, and writes no field of a task but links. -/
theorem Rep.dequeue_mem (h : Rep s qs) (ht : t ∈ qs l) :
    ∃ s', mlfqDequeue s (some t) = some s' ∧ Rep s' (without qs t) ∧
      ∀ u, unlinked (s'.tasks u) = unlinked (s.tasks u) := by
  obtain ⟨xs, ys, hq⟩ := append_of_mem ht
  have hlink := h.linked l
  rw [hq] at hlink
  have hnd := hlink.nodup
  have htn : t ∉ xs ++ ys := (nodup_cons.1 (nodup_middle.1 hnd)).1
  have hxs : t ∉ xs := fun hm => htn (mem_append_left ys hm)
  have hmem : ∀ u ∈ xs ++ ys, u ∈ qs l := by
    intro u hu
    rw [hq]
    rcases mem_append.1 hu with hu | hu <;> simp [hu]
  have hfind : findLink s.next (fun u => u == t) loopFuel .head (s.queues l).head = some (some (linkOf .head xs, t)) := by
    have hlen := (TaskPtr.length_lt hnd).1
    rw [length_append] at hlen
    refine findLink_some hlink (by simp) (fun u hu => ?_) (by omega) .head
    simp only [beq_eq_false_iff_ne]
    rintro rfl
    exact hxs hu
  -- the state once the task is unlinked, then the one whose tail is right again
  obtain ⟨hl1, hn1⟩ := hlink.unlink_at
  obtain ⟨hnx, hqs, hb1⟩ := setLink_next s l (linkOf .head xs) (s.next t)
  have hf1 := setLink_unlinked s l (linkOf .head xs) (s.next t)
  generalize hs1 : setLink s l (linkOf .head xs) (s.next t) = s1 at hnx hqs hb1 hf1
  have hql : s1.queues l = { s.queues l with head := (linkOf .head xs).writeHead (s.queues l).head (s.next t) } := by
    rw [hqs, update_self]
  rw [← hnx] at hl1 hn1
  have htail : xs ++ ys ≠ [] → (s1.queues l).tail = some t ∨ (s1.queues l).tail = (xs ++ ys).getLast? := by
    intro _
    rw [hql, h.tail l, hq]
    rcases eq_nil_or_concat ys with e | ⟨zs, z, e⟩
    · subst e; simp
    · subst e; simp [getLast?_append, getLast?_cons]
  obtain ⟨s2, hf2, htk2, hk2, hq2, hb2⟩ := fixTail_spec (by rw [hql]; exact hl1) htail
  have hlevel : levelIdx (s.tasks t).mlfqLevel = some l := by rw [h.level l t ht, levelIdx_val]
  have hfields : ∀ q u, unlinked (((s2.setQueue l q).modify t (fun k => { k with next := none })).tasks u) =
      unlinked (s.tasks u) := by
    intro q u
    rw [modify_unlinked, setQueue_tasks, htk2, hf1]
  refine ⟨_, by simp only [mlfqDequeue, hlevel, hfind, hs1, hf2, Option.map_some]; rfl, ?_, hfields _⟩
  have hwith : without qs t = update qs l (xs ++ ys) := by
    refine eq_update_iff.2 ⟨?_, fun k hk => erase_of_not_mem fun hm => hk (h.disjoint k l t hm ht)⟩
    rw [without, hq, erase_append_right _ hxs, erase_cons_head]
  rw [hwith]
  have hnext2 : s2.next = s1.next := by funext u; simp only [Mlfq.next, htk2]
  have hcount : ((xs ++ t :: ys).length + (2 ^ 32 - 1)) % 2 ^ 32 = (xs ++ ys).length := by
    have hlen := (TaskPtr.length_lt hnd).2
    simp only [length_append, length_cons] at hlen ⊢
    omega
  refine { toChains := ?_, level := ?_, bit := ?_, bitHigh := ?_ }
  · refine h.toChains.set l (xs ++ ys) ?_ ?_ ?_ ?_ ?_ ?_
    · rw [modify_next]
      simp only [modify_queues, setQueue_queues, setQueue_next, update_self, hnext2, hq2]
      rw [hql]
      exact hl1.update htn _
    · simp [hq2]
    · simp only [modify_queues, setQueue_queues, update_self, hq2, hql, h.count l]
      rw [hq]
      exact hcount
    · intro k hk
      simp only [modify_queues, setQueue_queues, update_of_ne hk]
      rw [hk2 k hk, hqs, update_of_ne hk]
    · intro k hk u hu
      have hul : u ∉ qs l := fun hm => hk (h.disjoint k l u hu hm)
      have hut : u ≠ t := fun e => hul (e ▸ ht)
      rw [modify_next, update_of_ne hut, setQueue_next, hnext2]
      exact hn1 u (fun hm => hul (hmem u (by simp [hm])))
    · intro u hu k hk hm
      exact hk (h.disjoint k l u hm (hmem u hu))
  · intro k u hu
    have hu' : u ∈ qs k := by
      by_cases e : k = l
      · subst e; rw [update_self] at hu; exact hmem u hu
      · rwa [update_of_ne e] at hu
    exact (unlinked_fields (hfields _ u)).2.1.trans (h.level k u hu')
  · intro k
    simp only [modify_bitmap, setQueue_bitmap, hb2, hb1]
    by_cases e : k = l
    · subst e
      rw [update_self]
      split
      · rename_i hz; simp [hz, levelBit_getLsbD]
      · rename_i hz
        have : qs k ≠ [] := by rw [hq]; simp
        simp only [hz, ne_eq, not_false_eq_true, iff_true]
        exact (h.bit k).2 this
    · rw [update_of_ne e, ← h.bit k]
      have hkl : k.val ≠ l.val := fun he => e (Fin.ext he)
      split
      · have h32 : k.val < 32 := by have := k.isLt; omega
        rw [BitVec.getLsbD_and, BitVec.getLsbD_not, levelBit_getLsbD]
        simp [hkl, h32]
      · rfl
  · intro i hi
    simp only [modify_bitmap, setQueue_bitmap, hb2, hb1]
    split
    · simp [h.bitHigh i hi]
    · exact h.bitHigh i hi

/-- `mlfq_dequeue` takes the task out of the lists, whichever it is in. -/
theorem Rep.dequeue (h : Rep s qs) (t : TaskPtr) :
    ∃ s', mlfqDequeue s (some t) = some s' ∧ Rep s' (without qs t) ∧
      ∀ u, unlinked (s'.tasks u) = unlinked (s.tasks u) := by
  by_cases hm : ∃ l, t ∈ qs l
  · obtain ⟨l, hl⟩ := hm
    exact h.dequeue_mem hl
  · have hn : ∀ l, t ∉ qs l := fun l hl => hm ⟨l, hl⟩
    exact ⟨s, h.dequeue_notMem hn, by rwa [without_of_notMem hn], fun _ => rfl⟩

/-- The task taken out is in no list. -/
theorem Rep.notMem_without (h : Rep s qs) (t : TaskPtr) : ∀ l, t ∉ without qs t l :=
  fun l hm => (List.Nodup.mem_erase_iff (h.linked l).nodup).1 hm |>.1 rfl

/-! ## `mlfq_decay` -/

/-- The level `mlfq_decay` enqueues a task at. -/
def decayLevel (level : Int) : Int := if level ≥ 3 then level else level + 1

/-- `mlfq_decay` is a dequeue followed by an enqueue at the level below, or at the same one when there is none below. -/
theorem mlfqDecay_eq (s : Mlfq) (t : TaskPtr) : mlfqDecay s (some t) =
    (mlfqDequeue s (some t)).map (fun s' => mlfqEnqueue s' (some t) (decayLevel (s.tasks t).mlfqLevel)) := by
  simp only [mlfqDecay, decayLevel]
  split <;> rfl

/-- `mlfq_decay` takes the task out of the lists and, when the level it goes to is one, appends it there. -/
theorem Rep.decay (h : Rep s qs) (t : TaskPtr) :
    ∃ s', mlfqDecay s (some t) = some s' ∧
      (∀ l, levelIdx (decayLevel (s.tasks t).mlfqLevel) = some l →
        Rep s' (update (without qs t) l (without qs t l ++ [t])) ∧ (s'.tasks t).state = .ready) ∧
      (levelIdx (decayLevel (s.tasks t).mlfqLevel) = none → Rep s' (without qs t) ∧ (s'.tasks t).state = (s.tasks t).state) ∧
      ∀ u, u ≠ t → (s'.tasks u).state = (s.tasks u).state := by
  obtain ⟨s1, hd, hr, hf⟩ := h.dequeue t
  refine ⟨_, by rw [mlfqDecay_eq, hd, Option.map_some], fun l hl => ⟨?_, ?_⟩, fun hl => ?_, fun u hu => ?_⟩
  · exact hr.enqueue hl (h.notMem_without t)
  · exact (mlfqEnqueue_self s1 hl).1
  · rw [mlfqEnqueue_none (Or.inr hl)]
    exact ⟨hr, (unlinked_fields (hf t)).1⟩
  · rw [mlfqEnqueue_state s1 _ hu]
    exact (unlinked_fields (hf u)).1

/-! ## `mlfq_boost_all` -/

/-- The state of the first loop of `mlfq_boost_all`: the queues still thread `qs`, and the collected list is `xs`. -/
structure Collected (c : Collect) (qs : Queues) (xs : List TaskPtr) : Prop where
  chains : Chains c.mlfq qs
  linked : Linked c.mlfq.next c.head xs
  tail : c.tail = xs.getLast?
  disjoint : ∀ l, ∀ t ∈ xs, t ∉ qs l

/-- One iteration moves the list of a level to the end of the collected one. -/
theorem Collected.level {c : Collect} {xs : List TaskPtr} (h : Collected c qs xs) (l : Level) :
    Collected (collectLevel c l) (update qs l []) (xs ++ qs l) := by
  have hql := h.chains.linked l
  unfold collectLevel
  by_cases hh : (c.mlfq.queues l).head = none
  · have he : qs l = [] := by
      rw [hh] at hql
      exact hql.unique rfl
    rw [if_pos hh, he, append_nil, update_eq_self_iff.2 he.symm]
    exact h
  · rw [if_neg hh]
    have hne : qs l ≠ [] := by
      intro he
      rw [he] at hql
      exact hh hql
    have hdis : ∀ k, ∀ t ∈ xs ++ qs l, t ∉ update qs l [] k := by
      intro k t ht
      by_cases e : k = l
      · subst e; simp
      · rw [update_of_ne e]
        rcases mem_append.1 ht with ht | ht
        · exact h.disjoint k t ht
        · exact fun hm => e (h.chains.disjoint k l t hm ht)
    have hlast : (xs ++ qs l).getLast? = (c.mlfq.queues l).tail := by
      rw [h.chains.tail l, getLast?_append_of_ne_nil _ hne]
    -- the list of the level, cleared in a state whose links differ from those of `c` only at the collected tail
    have hclear : ∀ s : Mlfq, s.queues = c.mlfq.queues → (∀ k, ∀ t ∈ qs k, s.next t = c.mlfq.next t) →
        Chains (s.setQueue l { head := none, tail := none, count := 0 }) (update qs l []) := by
      intro s hs hn
      refine (h.chains.congr hs hn).set l [] ?_ ?_ ?_ ?_ (fun _ _ _ _ => rfl) (by simp)
      · simp
      · simp
      · simp
      · intro k hk; simp [update_of_ne hk]
    rcases eq_nil_or_concat xs with e | ⟨ys, ct, e⟩
    · subst e
      have htl : c.tail = none := h.tail
      rw [htl]
      exact ⟨hclear c.mlfq rfl (fun _ _ _ => rfl), hql, hlast.symm, hdis⟩
    · rw [concat_eq_append] at e
      subst e
      have htl : c.tail = some ct := by rw [h.tail]; simp
      rw [htl]
      have hnext : (c.mlfq.modify ct (fun k => { k with next := (c.mlfq.queues l).head })).next =
          update c.mlfq.next ct (c.mlfq.queues l).head := modify_next _ _ _
      refine ⟨hclear _ rfl (fun k t ht => ?_), ?_, hlast.symm, hdis⟩
      · rw [hnext, update_of_ne]
        rintro rfl
        exact h.disjoint k t (by simp) ht
      · rw [setQueue_next, hnext]
        exact h.linked.append hql (fun z hz => h.disjoint l z hz)

/-- Collecting writes no field of a task but links, and not the bitmap. -/
theorem collectLevel_unlinked (c : Collect) (l : Level) (u : TaskPtr) :
    unlinked ((collectLevel c l).mlfq.tasks u) = unlinked (c.mlfq.tasks u) ∧
      (collectLevel c l).mlfq.bitmap = c.mlfq.bitmap := by
  unfold collectLevel
  simp only
  split
  · exact ⟨rfl, rfl⟩
  · cases c.tail with
    | none => exact ⟨rfl, rfl⟩
    | some ct => exact ⟨modify_unlinked c.mlfq ct u _, rfl⟩

/-- An append at a queue leaves the link of every task outside that queue as it is. -/
theorem Chains.pushTail_next_of_notMem (h : Chains s qs) (l : Level) (t : TaskPtr) {u : TaskPtr}
    (hu : u ∉ qs l) : (TsOs.pushTail s l t).next u = s.next u := by
  rcases h.tail_cases l with ⟨htl, _⟩ | ⟨xs, tl, htl, hq⟩
  · simp [TsOs.pushTail, htl]
  · simp only [TsOs.pushTail, htl, setQueue_next, modify_next]
    refine update_of_ne ?_ _ _
    rintro rfl
    exact hu (by rw [hq]; simp)

/-- What `boostLoop` does to a task: the collected ones go to level 0 with its quantum. -/
theorem boostLoop_spec {xs : List TaskPtr} : ∀ {n : Nat} {s : Mlfq} {h : Option TaskPtr} {qs : Queues}, Chains s qs →
    Linked s.next h xs → (∀ l, ∀ t ∈ xs, t ∉ qs l) → xs.length < n →
    ∃ s', boostLoop n s h = some s' ∧ Chains s' (update qs 0 (qs 0 ++ xs)) ∧ s'.bitmap = s.bitmap ∧
      (∀ t ∈ xs, (s'.tasks t).state = (s.tasks t).state ∧ (s'.tasks t).mlfqLevel = 0 ∧
        (s'.tasks t).remainingTicks = mlfqQuanta 0) ∧
      ∀ t ∉ xs, unlinked (s'.tasks t) = unlinked (s.tasks t) := by
  induction xs with
  | nil =>
    intro n s h qs hc hl _ hn
    obtain ⟨m, rfl⟩ : ∃ m, n = m + 1 := ⟨n - 1, by simp at hn; omega⟩
    subst hl
    refine ⟨s, rfl, ?_, rfl, by simp, fun _ _ => rfl⟩
    rwa [append_nil, update_eq_self]
  | cons t xs ih =>
    intro n s h qs hc hl hd hn
    obtain ⟨m, rfl⟩ : ∃ m, n = m + 1 := ⟨n - 1, by simp at hn; omega⟩
    have hnd := nodup_cons.1 hl.nodup
    obtain ⟨rfl, hl⟩ := hl
    have ht : ∀ k, t ∉ qs k := fun k => hd k t (by simp)
    generalize hs : s.modify t (fun k =>
      { k with mlfqLevel := 0, remainingTicks := mlfqQuanta 0, timeSlice := mlfqQuanta 0, next := none }) = s1
    have hne : ∀ u, u ≠ t → s1.tasks u = s.tasks u := fun u hu => by rw [← hs, modify_tasks_of_ne _ _ hu]
    have hself : s1.tasks t = { s.tasks t with
        mlfqLevel := 0, remainingTicks := mlfqQuanta 0, timeSlice := mlfqQuanta 0, next := none } := by
      rw [← hs, modify_tasks_self]
    have hc1 : Chains s1 qs := hc.congr (by rw [← hs]; rfl)
      (fun k u hu => congrArg Task.next (hne u (fun e => ht k (e ▸ hu))))
    -- the append moves `t` to the queue; the rest of the collected list keeps its links
    have hc2 : Chains (pushTail s1 0 t) (update qs 0 (qs 0 ++ [t])) := by
      refine hc1.pushTail 0 ht ?_
      rw [Mlfq.next, hself]
    have hl2 : Linked (pushTail s1 0 t).next (s.next t) xs := by
      refine Linked.congr hl (fun u hu => ?_)
      rw [hc1.pushTail_next_of_notMem 0 t (hd 0 u (mem_cons_of_mem _ hu))]
      exact congrArg Task.next (hne u (fun e => hnd.1 (e ▸ hu)))
    have hd2 : ∀ l, ∀ u ∈ xs, u ∉ update qs 0 (qs 0 ++ [t]) l := by
      intro l u hu
      have hut : u ≠ t := fun e => hnd.1 (e ▸ hu)
      by_cases e : l = 0
      · subst e
        simp [hd 0 u (mem_cons_of_mem _ hu), hut]
      · rw [update_of_ne e]
        exact hd l u (mem_cons_of_mem _ hu)
    obtain ⟨s', hb, hc', hbit, hin, hout⟩ := ih hc2 hl2 hd2 (n := m) (by simp at hn; omega)
    have hpush := pushTail_unlinked s1 0 t
    refine ⟨s', ?_, ?_, ?_, fun u hu => ?_, fun u hu => ?_⟩
    · simp only [boostLoop, hs]; exact hb
    · simpa using hc'
    · rw [hbit, pushTail_bitmap, ← hs]; rfl
    · rcases mem_cons.1 hu with rfl | hu
      · have hu := (hout u hnd.1).trans (hpush u)
        rw [hself] at hu
        exact unlinked_fields hu
      · refine ⟨?_, (hin u hu).2⟩
        rw [(hin u hu).1, (unlinked_fields (hpush u)).1, hne u (fun e => hnd.1 (e ▸ hu))]
    · rw [mem_cons, not_or] at hu
      rw [hout u hu.2, hpush u, hne u hu.1]

/-- The lists after a boost: level 0 is the concatenation of all levels, in order, and the others are empty. -/
def boosted (qs : Queues) : Queues := fun l => if l = 0 then qs 0 ++ qs 1 ++ qs 2 ++ qs 3 else []

/-- The first loop of `mlfq_boost_all`, whole: the lists of levels 1 to 3 are collected in this order. -/
theorem collect_spec (h : Chains s qs) :
    Collected ([1, 2, 3].foldl collectLevel { mlfq := s, head := none, tail := none })
      (fun l => if l = 0 then qs 0 else []) (qs 1 ++ qs 2 ++ qs 3) := by
  have h0 : Collected { mlfq := s, head := none, tail := none } qs [] := ⟨h, rfl, rfl, by simp⟩
  have h3 := ((h0.level 1).level 2).level 3
  have hq : update (update (update qs 1 []) 2 []) 3 [] = fun l => if l = 0 then qs 0 else [] := by
    funext l
    fin_cases l <;> rfl
  simpa only [foldl_cons, foldl_nil, hq, nil_append, update_of_ne, ne_eq, Fin.reduceEq, not_false_eq_true] using h3

/-- The first loop writes no field of a task but links, and not the bitmap. -/
theorem collect_unlinked (ls : List Level) (c : Collect) (u : TaskPtr) :
    unlinked ((ls.foldl collectLevel c).mlfq.tasks u) = unlinked (c.mlfq.tasks u) ∧
      (ls.foldl collectLevel c).mlfq.bitmap = c.mlfq.bitmap := by
  induction ls generalizing c with
  | nil => exact ⟨rfl, rfl⟩
  | cons l ls ih =>
    have hstep := collectLevel_unlinked c l u
    exact ⟨(ih _).1.trans hstep.1, (ih _).2.trans hstep.2⟩

/-- What a boost may do to the level and the quantum of a task: leave both, or, for one it moves, give it those of level 0. -/
def BoostedFrom (qs : Queues) (s s' : Mlfq) (t : TaskPtr) : Prop :=
  ((s'.tasks t).mlfqLevel = (s.tasks t).mlfqLevel ∧ (s'.tasks t).remainingTicks = (s.tasks t).remainingTicks) ∨
    ((∃ l, t ∈ qs l) ∧ (s'.tasks t).mlfqLevel = 0 ∧ (s'.tasks t).remainingTicks = mlfqQuanta 0)

/-- `mlfq_boost_all` moves every list to level 0. -/
theorem Rep.boostAll (h : Rep s qs) :
    ∃ s', mlfqBoostAll s = some s' ∧ Rep s' (boosted qs) ∧ (∀ t, (s'.tasks t).state = (s.tasks t).state) ∧
      ∀ t, BoostedFrom qs s s' t := by
  unfold mlfqBoostAll
  have hc := collect_spec h.toChains
  have hfield := fun u => (collect_unlinked [1, 2, 3] { mlfq := s, head := none, tail := none } u).1
  have hbm := (collect_unlinked [1, 2, 3] { mlfq := s, head := none, tail := none } 0).2
  generalize [1, 2, 3].foldl collectLevel { mlfq := s, head := none, tail := none } = c at hc hfield hbm ⊢
  have hlow : ∀ l : Level, (c.mlfq.bitmap &&& 1#32).getLsbD l.val = true ↔ l = 0 ∧ qs 0 ≠ [] := by
    intro l
    rw [hbm]
    by_cases e : l = 0
    · subst e; simpa using h.bit 0
    · have : l.val ≠ 0 := fun he => e (Fin.ext he)
      simp [e, this]
  have hhigh : ∀ i, 4 ≤ i → (c.mlfq.bitmap &&& 1#32).getLsbD i = false := by
    intro i hi
    rw [BitVec.getLsbD_and, hbm, h.bitHigh i hi, Bool.false_and]
  generalize hxs : qs 1 ++ qs 2 ++ qs 3 = xs at hc
  have hb0 : boosted qs 0 = qs 0 ++ xs := by simp [boosted, ← hxs]
  have hbk : ∀ l, l ≠ 0 → boosted qs l = [] := fun l hl => if_neg hl
  have hc0 : Chains { c.mlfq with bitmap := c.mlfq.bitmap &&& 1#32 } (fun l => if l = 0 then qs 0 else []) :=
    hc.chains.congr rfl (fun _ _ _ => rfl)
  obtain ⟨s', hb, hc', hbit, hin, hout⟩ := boostLoop_spec hc0 (h := c.head) hc.linked hc.disjoint (n := loopFuel)
    (TaskPtr.length_lt hc.linked.nodup).1
  have hbq : update (fun l => if l = 0 then qs 0 else []) 0 (qs 0 ++ xs) = boosted qs := by
    funext l
    by_cases e : l = 0
    · subst e; rw [update_self, hb0]
    · rw [update_of_ne e, hbk l e, if_neg e]
  rw [if_pos rfl, hbq] at hc'
  -- with nothing collected the loop stops at once, and the bit of level 0 stays as it is
  have hfields : ∀ t ∉ xs, unlinked (s'.tasks t) = unlinked (s.tasks t) := fun t hm => (hout t hm).trans (hfield t)
  refine ⟨{ s' with bitmap := if xs = [] then s'.bitmap else s'.bitmap ||| 1#32, ticksSinceBoost := 0 }, ?_, ?_, fun t => ?_,
    fun t => ?_⟩
  · have hlinked := hc.linked
    dsimp only at hb ⊢
    cases hh : c.head with
    | none =>
      rw [hh] at hb hlinked
      rw [if_pos (show xs = [] from hlinked.unique rfl)]
      exact congrArg (Option.map fun s => { s with ticksSinceBoost := 0 }) hb
    | some hd =>
      have hx : xs ≠ [] := by
        rintro rfl
        rw [hh] at hlinked
        cases hlinked
      rw [hh] at hb
      dsimp only
      rw [if_neg hx, hb]
      rfl
  · refine ⟨hc'.congr rfl (fun _ _ _ => rfl), fun l t ht => ?_, fun l => ?_, fun i hi => ?_⟩
    · by_cases e : l = 0
      · subst e
        rw [hb0] at ht
        by_cases hm : t ∈ xs
        · exact (hin t hm).2.1
        · exact (unlinked_fields (hfields t hm)).2.1.trans (h.level 0 t ((mem_append.1 ht).resolve_right hm))
      · rw [hbk l e] at ht
        cases ht
    · have hbl := hlow l
      by_cases e : l = 0
      · subst e
        rw [hb0]
        by_cases hx : xs = []
        · simpa [hx, hbit] using hbl
        · simp [hx]
      · have hl : l.val ≠ 0 := fun he => e (Fin.ext he)
        rw [hbk l e]
        split <;> simp [hbit, hl]
    · have hi0 : i ≠ 0 := by omega
      split <;> simp [hbit, hhigh i hi, hi0]
  · by_cases hm : t ∈ xs
    · exact (hin t hm).1.trans (unlinked_fields (hfield t)).1
    · exact (unlinked_fields (hfields t hm)).1
  · by_cases hm : t ∈ xs
    · have hq : ∃ l, t ∈ qs l := by
        rw [← hxs, mem_append, mem_append] at hm
        rcases hm with (hm | hm) | hm
        exacts [⟨1, hm⟩, ⟨2, hm⟩, ⟨3, hm⟩]
      exact .inr ⟨hq, (hin t hm).2⟩
    · exact .inl (unlinked_fields (hfields t hm)).2

/-! ## `mlfq_tick`, `mlfq_init` and `mlfq_pick_highest` -/

/-- The invariant does not read the ticks since the last boost. -/
theorem Rep.setTicks (h : Rep s qs) (n : Nat) : Rep { s with ticksSinceBoost := n } qs where
  toChains := h.toChains.congr rfl (fun _ _ _ => rfl)
  level := h.level
  bit := h.bit
  bitHigh := h.bitHigh

/-- The tick that comes is one of a boost. -/
def Mlfq.BoostDue (s : Mlfq) : Prop := (s.ticksSinceBoost + 1) % 2 ^ 64 ≥ mlfqBoostInterval

instance (s : Mlfq) : Decidable s.BoostDue := inferInstanceAs (Decidable (_ ≥ _))

/-- `mlfq_tick` boosts when that is due, and changes no list otherwise. -/
theorem Rep.tick_lists (h : Rep s qs) :
    ∃ s', mlfqTick s = some s' ∧ Rep s' (if s.BoostDue then boosted qs else qs) ∧
      (∀ t, (s'.tasks t).state = (s.tasks t).state) ∧ ∀ t, BoostedFrom qs s s' t := by
  simp only [mlfqTick]
  by_cases hdue : s.BoostDue
  · rw [if_pos hdue, if_pos (show _ ≥ _ from hdue)]
    obtain ⟨s', hb, hr, hst, hf⟩ := (h.setTicks ((s.ticksSinceBoost + 1) % 2 ^ 64)).boostAll
    exact ⟨s', hb, hr, hst, hf⟩
  · rw [if_neg hdue, if_neg (show ¬ _ ≥ _ from hdue)]
    exact ⟨_, rfl, h.setTicks _, fun _ => rfl, fun _ => .inl ⟨rfl, rfl⟩⟩

/-- `mlfq_tick` is a boost or changes no list. -/
theorem Rep.tick (h : Rep s qs) :
    ∃ s' qs', mlfqTick s = some s' ∧ Rep s' qs' ∧ (qs' = qs ∨ qs' = boosted qs) ∧
      ∀ t, (s'.tasks t).state = (s.tasks t).state := by
  obtain ⟨s', hs, hr, hst, _⟩ := h.tick_lists
  refine ⟨s', _, hs, hr, ?_, hst⟩
  split
  · exact .inr rfl
  · exact .inl rfl

/-- A boost queues the same tasks as before. -/
theorem mem_boosted : (∃ l, t ∈ boosted qs l) ↔ ∃ l, t ∈ qs l := by
  constructor
  · rintro ⟨l, hl⟩
    by_cases e : l = 0
    · subst e
      simp only [boosted, if_true, mem_append] at hl
      rcases hl with ((hl | hl) | hl) | hl
      exacts [⟨0, hl⟩, ⟨1, hl⟩, ⟨2, hl⟩, ⟨3, hl⟩]
    · simp [boosted, e] at hl
  · rintro ⟨l, hl⟩
    refine ⟨0, ?_⟩
    simp only [boosted, if_true, mem_append]
    fin_cases l
    exacts [Or.inl (Or.inl (Or.inl hl)), Or.inl (Or.inl (Or.inr hl)), Or.inl (Or.inr hl), Or.inr hl]

/-- After `mlfq_init` every list is empty. -/
theorem Rep.init (tasks : TaskPtr → Task) : Rep (mlfqInit tasks) (fun _ => []) where
  linked _ := rfl
  tail _ := rfl
  count _ := rfl
  disjoint _ _ _ h := by cases h
  level _ _ h := by cases h
  bit _ := by simp [mlfqInit]
  bitHigh _ _ := by simp [mlfqInit]

/-- The lists a state threads are determined by it. -/
theorem Rep.unique {qs' : Queues} (h : Rep s qs) (h' : Rep s qs') : qs = qs' :=
  funext fun l => (h.linked l).unique (h'.linked l)

/-- `mlfq_pick_highest` returns nothing when every list is empty. -/
theorem Rep.pickHighest_none (h : Rep s qs) (he : ∀ l, qs l = []) : mlfqPickHighest s = none := by
  have hb : s.bitmap = 0#32 := by
    refine BitVec.eq_of_getLsbD_eq (fun i _ => ?_)
    rw [BitVec.getLsbD_zero]
    by_cases hi : i < 4
    · rw [← Bool.not_eq_true]
      exact fun hb => (h.bit ⟨i, hi⟩).1 hb (he _)
    · exact h.bitHigh i (by omega)
  simp [mlfqPickHighest, hb]

/-- `mlfq_pick_highest` returns the head of the first list that is not empty. -/
theorem Rep.pickHighest_some (h : Rep s qs) (hl : qs l ≠ [])
    (hlow : ∀ k, k < l → qs k = []) : mlfqPickHighest s = (qs l).head? := by
  have hbl : s.bitmap.getLsbD l.val = true := (h.bit l).2 hl
  have hb : s.bitmap ≠ 0#32 := by
    intro hz
    rw [hz, BitVec.getLsbD_zero] at hbl
    cases hbl
  have hctz : builtinCtz s.bitmap = l.val := by
    have hset : s.bitmap.getLsbD s.bitmap.ctz.toNat = true := BitVec.getLsbD_true_ctz_of_ne_zero hb
    rcases Nat.lt_trichotomy s.bitmap.ctz.toNat l.val with hlt | heq | hgt
    · have hk := (h.bit ⟨s.bitmap.ctz.toNat, by have := l.isLt; omega⟩).1 hset
      exact absurd (hlow _ hlt) hk
    · exact heq
    · rw [BitVec.getLsbD_false_of_lt_ctz hgt] at hbl
      cases hbl
  have hlt : builtinCtz s.bitmap < 4 := by have := l.isLt; omega
  have hidx : (⟨builtinCtz s.bitmap, hlt⟩ : Level) = l := Fin.ext hctz
  rw [mlfqPickHighest, if_neg hb, dif_pos hlt, hidx]
  exact (h.linked l).head_eq

end TsOs
