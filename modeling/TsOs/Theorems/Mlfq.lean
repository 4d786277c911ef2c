import TsOs.Lemmas.Mlfq

/-!
# The structure of the queues over whole runs

Any sequence of calls into `mlfq.c` that enqueues only tasks in no queue keeps the queues well formed.
-/

namespace TsOs

open LinkedList

/-- A task is in no queue: no list threaded from the head of a queue holds it. -/
def Mlfq.Unqueued (s : Mlfq) (t : TaskPtr) : Prop :=
  ∀ l xs, Linked s.next (s.queues l).head xs → t ∉ xs

/-- The calls the queues are made for: `mlfq_enqueue` of a task in no queue, and any other call. -/
def MlfqOp.Allowed (s : Mlfq) : MlfqOp → Prop
  | .enqueue (some t) _ => s.Unqueued t
  | _ => True

/-- A sequence of calls each of which is allowed in the state it is made in. -/
def AllowedRun : Mlfq → List MlfqOp → Prop
  | _, [] => True
  | s, op :: ops => op.Allowed s ∧ ∀ s', op.run s = some s' → AllowedRun s' ops

/-- In a well-formed state, a task is in no queue when it is in none of the lists. -/
theorem Rep.unqueued_iff {s : Mlfq} {qs : Queues} (h : Rep s qs) {t : TaskPtr} : s.Unqueued t ↔ ∀ l, t ∉ qs l := by
  constructor
  · exact fun hu l => hu l (qs l) (h.linked l)
  · intro hn l xs hx
    rw [hx.unique (h.linked l)]
    exact hn l

/-- One allowed call returns and keeps the queues well formed. -/
theorem Rep.step {s : Mlfq} {qs : Queues} (h : Rep s qs) {op : MlfqOp} (ha : op.Allowed s) :
    ∃ s' qs', op.run s = some s' ∧ Rep s' qs' := by
  cases op with
  | enqueue task level =>
    refine ⟨mlfqEnqueue s task level, ?_⟩
    cases task with
    | none => exact ⟨qs, rfl, by rwa [mlfqEnqueue_none (Or.inl rfl)]⟩
    | some t =>
      cases hl : levelIdx level with
      | none => exact ⟨qs, rfl, by rwa [mlfqEnqueue_none (Or.inr hl)]⟩
      | some l => exact ⟨_, rfl, h.enqueue hl (h.unqueued_iff.1 ha)⟩
  | dequeue task =>
    cases task with
    | none => exact ⟨s, qs, rfl, h⟩
    | some t =>
      obtain ⟨s', hd, hr, _⟩ := h.dequeue t
      exact ⟨s', _, hd, hr⟩
  | decay task =>
    cases task with
    | none => exact ⟨s, qs, rfl, h⟩
    | some t =>
      obtain ⟨s', hd, hin, hout, _⟩ := h.decay t
      cases hl : levelIdx (decayLevel (s.tasks t).mlfqLevel) with
      | none => exact ⟨s', _, hd, (hout hl).1⟩
      | some l => exact ⟨s', _, hd, (hin l hl).1⟩
  | boostAll =>
    obtain ⟨s', hb, hr, _⟩ := h.boostAll
    exact ⟨s', _, hb, hr⟩
  | tick =>
    obtain ⟨s', qs', ht, hr, _⟩ := h.tick
    exact ⟨s', qs', ht, hr⟩

/-- An allowed run from a well-formed state returns a well-formed state. -/
theorem Rep.run {ops : List MlfqOp} : ∀ {s : Mlfq} {qs : Queues}, Rep s qs → AllowedRun s ops →
    ∃ s' qs', runMlfq s ops = some s' ∧ Rep s' qs' := by
  induction ops with
  | nil => exact fun {s qs} h _ => ⟨s, qs, rfl, h⟩
  | cons op ops ih =>
    intro s qs h ha
    obtain ⟨s1, qs1, hs, hr⟩ := h.step ha.1
    obtain ⟨s', qs', hrun, hr'⟩ := ih hr (ha.2 s1 hs)
    exact ⟨s', qs', by rw [runMlfq, hs]; exact hrun, hr'⟩

/-- After any allowed run from `mlfq_init` the queues thread lists without repetition that share no task, with the tail
pointers, counts, tags and bitmap those lists have; `mlfq_pick_highest` returns the head of the first of them that is not
empty, and `mlfq_boost_all` makes level 0 their concatenation, in order. -/
theorem mlfq_structure (tasks : TaskPtr → Task) (ops : List MlfqOp) (ha : AllowedRun (mlfqInit tasks) ops) :
    ∃ s qs, runMlfq (mlfqInit tasks) ops = some s ∧ Rep s qs ∧ (∀ l, (qs l).Nodup) ∧
      ((∀ l, qs l = []) → mlfqPickHighest s = none) ∧
      (∀ l, qs l ≠ [] → (∀ k, k < l → qs k = []) → mlfqPickHighest s = (qs l).head?) ∧
      ∃ s', mlfqBoostAll s = some s' ∧ Rep s' (boosted qs) := by
  obtain ⟨s, qs, hrun, hr⟩ := (Rep.init tasks).run ha
  obtain ⟨s', hb, hr', _⟩ := hr.boostAll
  exact ⟨s, qs, hrun, hr, fun l => (hr.linked l).nodup, hr.pickHighest_none, fun l => hr.pickHighest_some, s', hb, hr'⟩

/-- A run with two tasks, the first of which decays, and a boost. -/
theorem mlfq_structure_two_tasks :
    ∃ s qs, runMlfq (mlfqInit (fun _ => ⟨.created, 0, 0, 0, none⟩))
        [.enqueue (some 5) 0, .enqueue (some 7) 1, .decay (some 5), .boostAll] = some s ∧ Rep s qs ∧ (∀ l, (qs l).Nodup) ∧
      ((∀ l, qs l = []) → mlfqPickHighest s = none) ∧
      (∀ l, qs l ≠ [] → (∀ k, k < l → qs k = []) → mlfqPickHighest s = (qs l).head?) ∧
      ∃ s', mlfqBoostAll s = some s' ∧ Rep s' (boosted qs) := by
  refine mlfq_structure _ _ ⟨?_, fun s1 h1 => ⟨?_, fun s2 _ => ⟨trivial, fun s3 _ => ⟨trivial, fun s4 _ => trivial⟩⟩⟩⟩
  · exact (Rep.init _).unqueued_iff.2 (by simp)
  · have hr := (Rep.init (fun _ => ⟨.created, 0, 0, 0, none⟩)).enqueue (t := 5) (MlfqAux.levelIdx_val 0) (by simp)
    cases h1
    refine hr.unqueued_iff.2 (fun l => ?_)
    fin_cases l <;> decide

end TsOs
