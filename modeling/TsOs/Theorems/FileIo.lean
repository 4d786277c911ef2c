import TsOs.FileIo
import TsOs.Theorems.FileTable

/-!
# What a descriptor denotes

In a run in which descriptor 1 is not used for a file and no file is removed while it is open, every read and every write of a
descriptor acts on the file that was opened, at the offset that the results of the earlier calls imply.
-/

namespace TsOs

open Runs FileTableAux Function List BitVec Option Bool Nat

/-- The call acts on the file `o`, on bytes from its offset on. -/
def Opened.Is (w : FileWorld) (o : Opened) (t : IoTarget) : Prop :=
  ∃ ino k, t = .file ino (List.range' o.offset.toNat k) ∧ w.inodes ino = some o.file

/-- A read or a write of a descriptor that was opened acts on its file and on nothing else. A call with a buffer that is not valid,
and a write of a descriptor opened with `O_RDONLY`, acts on nothing. -/
def IoOp.Acts (h : FileHistory) (op : IoOp) : Prop :=
  match op with
  | .read fd valid _ _ => ∀ o, h.opened fd = some o →
    if valid then o.Is h.world (op.run h.world).2.2 else (op.run h.world).2.2 = .nothing
  | .write fd valid _ _ => ∀ o, h.opened fd = some o →
    if valid ∧ o.flags ≠ 0 then o.Is h.world (op.run h.world).2.2 else (op.run h.world).2.2 = .nothing
  | _ => True

/-- The call does not read or write descriptor 1 when it is a file, does not write behind the last block that has a number of 32 bits,
and removes no file that is open. -/
def IoOp.KeepsFiles (h : FileHistory) : IoOp → Prop
  | .read fd _ _ _ => fd = 1 → h.world.open_.descriptor 1 = none
  | .write fd _ n _ => (fd = 1 → h.world.open_.descriptor 1 = none) ∧ ∀ f, h.world.open_.descriptor fd = some f →
      (h.world.open_.files f.data).offset.toNat + n.toNat ≤ 2 ^ 32 * h.world.blockSize.toNat
  | .unlink (some ino) true => ∀ fd f, h.world.open_.descriptor fd = some f → (h.world.open_.files f.data).ino ≠ ino
  | _ => True

namespace FileIoAux

variable {cur : TaskPtr} {s : OpenFiles} {inodes : BitVec 32 → Option Nat} {opened : Int → Option Opened}

/-- What the task knows of its descriptors is so. -/
structure Known (cur : TaskPtr) (s : OpenFiles) (inodes : BitVec 32 → Option Nat) (opened : Int → Option Opened) : Prop where
  current : s.procs.sched.current = some cur
  closed : ∀ fd : Fin taskMaxFds, (s.fdTable cur fd).ops = none → opened fd.val = none
  outside : ∀ fd : Int, ¬ (0 ≤ fd ∧ fd.toNat < taskMaxFds) → opened fd = none
  opened : ∀ fd : Fin taskMaxFds, (s.fdTable cur fd).ops ≠ none → ∃ o f, opened fd.val = some o ∧
    s.files (s.fdTable cur fd).data = f ∧ inodes f.ino = some o.file ∧ f.offset = o.offset ∧ f.flags = o.flags
  live : ∀ fd : Fin taskMaxFds, (s.fdTable cur fd).ops ≠ none →
    (s.fdTable cur fd).data ≠ 0 ∧ s.allocated (s.fdTable cur fd).data = true
  apart : ∀ fd fd' : Fin taskMaxFds, (s.fdTable cur fd).ops ≠ none → (s.fdTable cur fd').ops ≠ none →
    (s.fdTable cur fd).data = (s.fdTable cur fd').data → fd = fd'

/-- A descriptor is closed, or it is an entry of the table that is open. -/
theorem Known.descriptor_cases (hk : Known cur s inodes opened) (fd : Int) :
    (s.descriptor fd = none ∧ opened fd = none) ∨
    ∃ i : Fin taskMaxFds, fd = i.val ∧ (s.fdTable cur i).ops ≠ none ∧ s.descriptor fd = some (s.fdTable cur i) := by
  unfold OpenFiles.descriptor
  rw [hk.current]
  dsimp only
  by_cases hr : 0 ≤ fd ∧ fd.toNat < taskMaxFds
  · rw [dif_pos hr]
    have hfd : fd = ((⟨fd.toNat, hr.2⟩ : Fin taskMaxFds).val : Int) := (Int.toNat_of_nonneg hr.1).symm
    by_cases hops : (s.fdTable cur ⟨fd.toNat, hr.2⟩).ops = none
    · rw [if_pos hops]
      refine .inl ⟨rfl, ?_⟩
      rw [hfd]
      exact hk.closed _ hops
    · rw [if_neg hops]
      exact .inr ⟨_, hfd, hops, rfl⟩
  · rw [dif_neg hr]
    exact .inl ⟨rfl, hk.outside fd hr⟩

theorem fd_ne {i j : Fin taskMaxFds} (hij : j ≠ i) : (j.val : Int) ≠ i.val := fun he => hij (Fin.ext (by omega))

variable {fd r : Int} {i : Fin taskMaxFds} {s' : OpenFiles}

theorem outside_ne (hfd : ¬ (0 ≤ fd ∧ fd.toNat < taskMaxFds)) (i : Fin taskMaxFds) : fd ≠ i.val := by
  intro he
  subst he
  exact hfd ⟨Int.natCast_nonneg _, i.isLt⟩

section

variable (hk : Known cur s inodes opened)
include hk

/-- Only entry `i` changes, and the task knows what it is now. -/
theorem Known.entry {o : Option Opened} (hc : s'.procs.sched.current = some cur)
    (hother : ∀ j, j ≠ i → s'.fdTable cur j = s.fdTable cur j)
    (hkept : ∀ j, j ≠ i → (s.fdTable cur j).ops ≠ none →
      s'.files (s.fdTable cur j).data = s.files (s.fdTable cur j).data ∧ s'.allocated (s.fdTable cur j).data = true ∧
      ((s'.fdTable cur i).ops ≠ none → (s.fdTable cur j).data ≠ (s'.fdTable cur i).data))
    (hclosed : (s'.fdTable cur i).ops = none → o = none)
    (hopen : (s'.fdTable cur i).ops ≠ none →
      ((s'.fdTable cur i).data ≠ 0 ∧ s'.allocated (s'.fdTable cur i).data = true) ∧
      ∃ p f, o = some p ∧ s'.files (s'.fdTable cur i).data = f ∧ inodes f.ino = some p.file ∧ f.offset = p.offset ∧
        f.flags = p.flags) :
    Known cur s' inodes (update opened i.val o) := by
  refine ⟨hc, fun j hj => ?_, fun fd hfd => ?_, fun j hj => ?_, fun j hj => ?_, fun j j' hj hj' he => ?_⟩
  · by_cases hne : j = i
    · subst hne
      rw [update_self, hclosed hj]
    · rw [hother j hne] at hj
      rw [update_of_ne (fd_ne hne), hk.closed j hj]
  · rw [update_of_ne (outside_ne hfd i), hk.outside fd hfd]
  · by_cases hne : j = i
    · subst hne
      rw [update_self]
      exact (hopen hj).2
    · rw [hother j hne] at hj ⊢
      rw [update_of_ne (fd_ne hne), (hkept j hne hj).1]
      exact hk.opened j hj
  · by_cases hne : j = i
    · subst hne
      exact (hopen hj).1
    · rw [hother j hne] at hj ⊢
      exact ⟨(hk.live j hj).1, (hkept j hne hj).2.1⟩
  · by_cases hne : j = i
    · subst hne
      by_contra hne'
      rw [hother j' (Ne.symm hne')] at hj' he
      exact (hkept j' (Ne.symm hne') hj').2.2 hj he.symm
    · rw [hother j hne] at hj he
      by_cases hne' : j' = i
      · subst hne'
        exact absurd he ((hkept j hne hj).2.2 hj')
      · rw [hother j' hne'] at hj' he
        exact hk.apart j j' hj hj' he

theorem Known.seek (hops : (s.fdTable cur i).ops ≠ none) (offset : BitVec 64) :
    Known cur (s.seek (s.fdTable cur i).data offset) inodes
      (update opened i.val ((opened i.val).map fun o => { o with offset := offset })) := by
  have hdata : ∀ j, j ≠ i → (s.fdTable cur j).ops ≠ none → (s.fdTable cur j).data ≠ (s.fdTable cur i).data :=
    fun j hne hj he => hne (hk.apart j i hj hops he)
  refine hk.entry hk.current (fun _ _ => rfl) (fun j hne hj => ⟨update_of_ne (hdata j hne hj) _ _, (hk.live j hj).2,
    fun _ => hdata j hne hj⟩) (fun h => absurd h hops) fun _ => ⟨hk.live i hops, ?_⟩
  obtain ⟨o, f, ho, hf, hino, hoff, hflags⟩ := hk.opened i hops
  refine ⟨{ o with offset := offset }, { f with offset := offset }, by rw [ho]; rfl, ?_, hino, rfl, hflags⟩
  rw [← hf]
  exact update_self _ _ _

/-- A read or a write moves the offset by what was transferred. -/
theorem Known.advance (hops : (s.fdTable cur i).ops ≠ none) (n : Int) :
    Known cur (s.advance (s.fdTable cur i).data n) inodes
      (if n > 0 then update opened i.val ((opened i.val).map fun o => { o with offset := o.offset + BitVec.ofInt 64 n })
       else opened) := by
  unfold OpenFiles.advance
  by_cases hn : n > 0
  · rw [if_pos hn, if_pos hn]
    obtain ⟨o, f, ho, hf, -, hoff, -⟩ := hk.opened i hops
    have hseek := hk.seek hops (o.offset + BitVec.ofInt 64 n)
    rw [ho] at hseek ⊢
    rw [hf, hoff]
    exact hseek
  · rw [if_neg hn, if_neg hn]
    exact hk

theorem Known.install {file : BitVec 64}
    (hz : file ≠ 0) (hfit : s.allocated file = false) {ino : BitVec 32} {f : Nat} (hino : inodes ino = some f) (flags : BitVec 32) :
    Known cur
      (OpenFiles.setEntry { s with files := update s.files file { ino := ino, offset := 0, flags := flags }
                                   allocated := update s.allocated file true } cur i
        { ops := some .ext2, data := file, refcount := 1, flags := flags })
      inodes (update opened i.val (some ⟨f, 0, flags⟩)) := by
  have hfile : ∀ fd : Fin taskMaxFds, (s.fdTable cur fd).ops ≠ none → (s.fdTable cur fd).data ≠ file := by
    intro fd hfd he
    rw [← he, (hk.live fd hfd).2] at hfit
    cases hfit
  refine hk.entry hk.current (fun j hne => by simp [OpenFiles.setEntry, hne]) (fun j hne hj => ?_)
    (by simp [OpenFiles.setEntry]) fun _ => ?_
  · refine ⟨update_of_ne (hfile j hj) _ _, (update_of_ne (hfile j hj) _ _).trans (hk.live j hj).2, fun _ => ?_⟩
    simpa [OpenFiles.setEntry] using hfile j hj
  · simp only [OpenFiles.setEntry, update_self]
    exact ⟨⟨hz, trivial⟩, ⟨f, 0, flags⟩, _, rfl, rfl, hino, rfl, rfl⟩

/-- What changes neither the table nor the open files nor their inodes. -/
theorem Known.congr {inodes' : BitVec 32 → Option Nat}
    (hc : s'.procs.sched.current = s.procs.sched.current) (ht : s'.fdTable = s.fdTable)
    (hf : ∀ fd : Fin taskMaxFds, (s.fdTable cur fd).ops ≠ none →
      s'.files (s.fdTable cur fd).data = s.files (s.fdTable cur fd).data ∧
      (s.allocated (s.fdTable cur fd).data = true → s'.allocated (s.fdTable cur fd).data = true) ∧
      inodes' (s.files (s.fdTable cur fd).data).ino = inodes (s.files (s.fdTable cur fd).data).ino) :
    Known cur s' inodes' opened := by
  constructor
  case current => exact hc.trans hk.current
  case closed =>
    rw [ht]
    exact hk.closed
  case outside => exact hk.outside
  case opened =>
    intro fd hfd
    rw [ht] at hfd ⊢
    obtain ⟨o, f, ho, hfile, hino, hrest⟩ := hk.opened fd hfd
    obtain ⟨hsame, -, hinode⟩ := hf fd hfd
    refine ⟨o, f, ho, hsame.trans hfile, ?_, hrest⟩
    rw [hfile] at hinode
    exact hinode.trans hino
  case live =>
    intro fd hfd
    rw [ht] at hfd ⊢
    exact ⟨(hk.live fd hfd).1, (hf fd hfd).2.1 (hk.live fd hfd).2⟩
  case apart =>
    rw [ht]
    exact hk.apart

theorem Known.vfsOpen {ino : Option (BitVec 32)} {file : BitVec 64} (hfit : s.allocated file = false)
    {f : Nat} (hino : ∀ i, ino = some i → inodes i = some f) {flags : BitVec 32}
    (hr : vfsOpen s ino flags file = (s', r)) :
    Known cur s' inodes (if r < 0 then opened else update opened r (some ⟨f, 0, flags⟩)) := by
  unfold TsOs.vfsOpen ext2VfsOpen at hr
  cases ino with
  | none =>
    cases hr
    exact hk
  | some ino =>
    dsimp only at hr
    by_cases hz : file = 0
    · rw [if_pos hz] at hr
      cases hr
      exact hk
    rw [if_neg hz] at hr
    dsimp only at hr
    rw [hk.current] at hr
    dsimp only at hr
    cases hfd : (finRange taskMaxFds).find? (fun fd => (s.fdTable cur fd).ops == none) with
    | none =>
      rw [hfd] at hr
      cases hr
      -- the file stays in memory without a descriptor
      refine hk.congr rfl rfl (fun fd hops => ?_)
      have hne : (s.fdTable cur fd).data ≠ file := by
        intro he
        rw [← he, (hk.live fd hops).2] at hfit
        cases hfit
      refine ⟨update_of_ne hne _ _, fun ha => ?_, rfl⟩
      exact (update_of_ne hne _ _).trans ha
    | some i =>
      rw [hfd] at hr
      cases hr
      have hfree : (s.fdTable cur i).ops = none := by
        have := find?_some hfd
        simpa using this
      rw [if_neg (by omega)]
      exact hk.install hz hfit (hino ino rfl) flags

/-- `ext2_alloc_inode` gives an inode that is not in use, so no open file has it. -/
theorem Known.create {i : BitVec 32} (hfree : inodes i = none) (f : Nat) :
    Known cur s (update inodes i (some f)) opened := by
  refine hk.congr rfl rfl (fun fd hops => ⟨rfl, id, ?_⟩)
  obtain ⟨o, e, -, he, hino, -⟩ := hk.opened fd hops
  refine update_of_ne (fun hi => ?_) _ _
  rw [he] at hi
  rw [← hi, hino] at hfree
  cases hfree

theorem Known.unlink {i : BitVec 32}
    (hopen : ∀ fd f, s.descriptor fd = some f → (s.files f.data).ino ≠ i) : Known cur s (update inodes i none) opened := by
  refine hk.congr rfl rfl (fun fd hops => ⟨rfl, id, ?_⟩)
  refine update_of_ne (hopen fd.val _ ?_) _ _
  unfold OpenFiles.descriptor
  rw [hk.current]
  dsimp only
  rw [dif_pos ⟨Int.natCast_nonneg _, fd.isLt⟩]
  exact if_neg hops

theorem Known.closeEntry (hops : (s.fdTable cur i).ops ≠ none) :
    Known cur (closeEntry cur s i) inodes (update opened i.val none) := by
  have hc := closed_closeEntry (s := s) (t := cur) (fun _ => (hk.live i hops).1)
  have hself : (TsOs.closeEntry cur s i).fdTable cur i = .zero := by
    rw [hc.table, if_pos ⟨rfl, mem_singleton.2 rfl⟩]
  have hother : ∀ j, j ≠ i → (TsOs.closeEntry cur s i).fdTable cur j = s.fdTable cur j := by
    intro j hj
    rw [hc.table, if_neg (fun h => hj (mem_singleton.1 h.2))]
  refine hk.entry ?_ hother (fun j hne hj => ⟨congrFun hc.files _, (hc.allocated _).2 ⟨(hk.live j hj).2, fun hm => ?_⟩,
    fun hopen => ?_⟩) (fun _ => rfl) fun hopen => ?_
  · rw [← hk.current]
    unfold TsOs.closeEntry ext2FdClose OpenFiles.setEntry
    dsimp only
    split
    · split <;> rfl
    · rfl
  · obtain ⟨j', hj', hd⟩ := mem_openData.1 hm
    rw [mem_singleton.1 hj'] at hd
    exact hne (hk.apart j i hj hops hd.2.symm)
  · exact absurd (congrArg FileEntry.ops hself) hopen
  · exact absurd (congrArg FileEntry.ops hself) hopen

theorem Known.close (hr : sysClose s fd = (s', r)) :
    Known cur s' inodes (if r < 0 then opened else update opened fd none) := by
  unfold sysClose at hr
  rw [hk.current] at hr
  dsimp only at hr
  by_cases hfd : 0 ≤ fd ∧ fd.toNat < taskMaxFds
  case neg =>
    rw [dif_neg hfd] at hr
    cases hr
    exact hk
  rw [dif_pos hfd] at hr
  by_cases hops : (s.fdTable cur ⟨fd.toNat, hfd.2⟩).ops = none
  · rw [if_pos hops] at hr
    cases hr
    exact hk
  · rw [if_neg hops] at hr
    cases hr
    have hclose := hk.closeEntry hops
    rw [show ((⟨fd.toNat, hfd.2⟩ : Fin taskMaxFds).val : Int) = fd from Int.toNat_of_nonneg hfd.1] at hclose
    exact hclose

theorem Known.lseek {offset : BitVec 64} {whence : Int} {size : Option (BitVec 32)}
    (hr : sysLseek s fd offset whence size = (s', r)) :
    Known cur s' inodes
      (if r < 0 then opened else update opened fd ((opened fd).map fun o => { o with offset := BitVec.ofInt 64 r })) := by
  unfold sysLseek at hr
  obtain ⟨hd, -⟩ | ⟨i, rfl, hops, hd⟩ := hk.descriptor_cases fd
  · rw [hd] at hr
    cases hr
    exact hk
  rw [hd] at hr
  dsimp only at hr
  rw [if_neg (hk.live i hops).1] at hr
  cases size with
  | none =>
    cases hr
    exact hk
  | some size =>
    dsimp only at hr
    generalize (if whence = 0 then some offset
      else if whence = 1 then some ((s.files (s.fdTable cur i).data).offset + offset)
      else if whence = 2 then some (size.setWidth 64 + offset) else none : Option (BitVec 64)) = target at hr
    cases target with
    | none =>
      cases hr
      exact hk
    | some newPos =>
      dsimp only at hr
      generalize hp : (if newPos.slt 0#64 then 0#64 else newPos) = p at hr
      have hpos : ¬ p.toInt < 0 := by
        subst hp
        split
        · decide
        · rename_i hn
          simpa [BitVec.slt] using hn
      cases hr
      rw [if_neg hpos, ofInt_toInt]
      exact hk.seek hops p

end

/-! ## Reads and writes -/

/-- Up to the last block that has a number of 32 bits, the loop over the blocks goes through consecutive bytes. -/
theorem blockLoop_range {bs : BitVec 32} (hbs : 0 < bs.toNat) {n : Nat} {offset count : BitVec 64}
    (hend : offset.toNat + count.toNat ≤ 2 ^ 32 * bs.toNat) :
    ∃ k, blockLoop (bs.setWidth 64) n offset count = List.range' offset.toNat k := by
  have hsize : (bs.setWidth 64).toNat = bs.toNat := by
    rw [toNat_setWidth, mod_eq_of_lt (by omega)]
  induction n generalizing offset count with
  | zero => exact ⟨0, rfl⟩
  | succ n ih =>
    rw [blockLoop]
    by_cases hz : count = 0#64
    · rw [if_pos hz]
      exact ⟨0, rfl⟩
    rw [if_neg hz]
    dsimp only
    have hpos : 0 < count.toNat := Nat.pos_of_ne_zero fun h => hz (BitVec.eq_of_toNat_eq h)
    have hmod := Nat.mod_lt offset.toNat hbs
    have hoff : (offset % bs.setWidth 64).toNat = offset.toNat % bs.toNat := by
      rw [toNat_umod, hsize]
    have hrest : (bs.setWidth 64 - offset % bs.setWidth 64).toNat = bs.toNat - offset.toNat % bs.toNat := by
      rw [toNat_sub_of_le (by rw [le_def, hoff, hsize]; omega), hoff, hsize]
    have hlogical : ((offset / bs.setWidth 64).setWidth 32).toNat = offset.toNat / bs.toNat := by
      rw [toNat_setWidth, toNat_udiv, hsize, mod_eq_of_lt]
      exact (Nat.div_lt_iff_lt_mul hbs).mpr (by omega)
    have hstart : offset.toNat / bs.toNat * bs.toNat + offset.toNat % bs.toNat = offset.toNat := Nat.div_add_mod' _ _
    generalize hlen : (if count.ult (bs.setWidth 64 - offset % bs.setWidth 64) then count
      else bs.setWidth 64 - offset % bs.setWidth 64) = len
    have hle : len.toNat ≤ count.toNat := by
      subst hlen
      split
      · exact le_refl _
      · rename_i hnot
        rw [BitVec.ult, decide_eq_true_eq] at hnot
        omega
    have hnext : (offset + len).toNat = offset.toNat + len.toNat := by
      rw [toNat_add]
      omega
    have hleft : (count - len).toNat = count.toNat - len.toNat := toNat_sub_of_le (by rw [le_def]; exact hle)
    obtain ⟨k, hk⟩ := ih (show (offset + len).toNat + (count - len).toNat ≤ 2 ^ 32 * bs.toNat by omega)
    refine ⟨len.toNat + k, ?_⟩
    rw [hk, hlogical, hoff, hsize, hstart, hnext, range'_append_1]

theorem readFile_range {bs : BitVec 32} (hbs : 0 < bs.toNat) (offset count : BitVec 64) (answer : FileAnswer) :
    ∃ k, (ext2ReadFile (bs.setWidth 64) offset count answer).2 = List.range' offset.toNat k := by
  unfold ext2ReadFile
  cases answer.size with
  | none => exact ⟨0, rfl⟩
  | some size =>
    dsimp only
    split
    · exact ⟨0, rfl⟩
    · rename_i hin
      rw [Bool.not_eq_true', Bool.not_eq_false, BitVec.ult, decide_eq_true_eq] at hin
      have hsize : (size.setWidth 64).toNat < 2 ^ 32 := by
        rw [toNat_setWidth, mod_eq_of_lt (by omega)]
        exact size.isLt
      have hrest : (size.setWidth 64 - offset).toNat = (size.setWidth 64).toNat - offset.toNat :=
        toNat_sub_of_le (by rw [le_def]; exact hin.le)
      -- what is read ends with the file
      refine blockLoop_range hbs ?_
      split
      · rename_i hlt
        rw [BitVec.ult, decide_eq_true_eq] at hlt
        omega
      · omega

theorem writeFile_range {bs : BitVec 32} (hbs : 0 < bs.toNat) {offset count : BitVec 64}
    (hend : offset.toNat + count.toNat ≤ 2 ^ 32 * bs.toNat) (answer : FileAnswer) :
    ∃ k, (ext2WriteFile (bs.setWidth 64) offset count answer).2 = List.range' offset.toNat k := by
  unfold ext2WriteFile
  cases answer.size with
  | none => exact ⟨0, rfl⟩
  | some size => exact blockLoop_range hbs hend

theorem update_none (ho : opened fd = none) (g : Opened → Opened) :
    update opened fd ((opened fd).map g) = opened := by
  rw [ho]
  exact update_eq_self_iff.2 ho.symm

theorem Known.read (hk : Known cur s inodes opened) {bs count : BitVec 64} {valid : Bool} {answer : FileAnswer} {t : IoTarget}
    (hr : sysRead s bs fd valid count answer = (s', r, t)) :
    Known cur s' inodes (if r > 0 then
      update opened fd ((opened fd).map fun o => { o with offset := o.offset + BitVec.ofInt 64 r }) else opened) := by
  unfold sysRead at hr
  by_cases h1 : fd = 1
  · rw [if_pos h1] at hr
    cases hr
    exact hk
  rw [if_neg h1] at hr
  obtain ⟨hd, -⟩ | ⟨i, rfl, hops, hd⟩ := hk.descriptor_cases fd
  · rw [hd] at hr
    cases hr
    exact hk
  rw [hd] at hr
  dsimp only at hr
  cases valid with
  | false =>
    cases hr
    exact hk
  | true =>
    rw [ext2FdRead, if_neg (hk.live i hops).1] at hr
    cases hr
    exact hk.advance hops _

theorem Known.write (hk : Known cur s inodes opened) {bs count : BitVec 64} {valid : Bool} {answer : FileAnswer}
    (h1 : fd = 1 → s.descriptor 1 = none) {t : IoTarget} (hr : sysWrite s bs fd valid count answer = (s', r, t)) :
    Known cur s' inodes (if r > 0 then
      update opened fd ((opened fd).map fun o => { o with offset := o.offset + BitVec.ofInt 64 r }) else opened) := by
  unfold sysWrite at hr
  obtain ⟨hd, ho⟩ | ⟨i, rfl, hops, hd⟩ := hk.descriptor_cases fd
  · rw [update_none ho, ite_self]
    rw [hd] at hr
    by_cases h1 : fd = 1
    · rw [if_pos h1] at hr
      cases valid <;>
      · cases hr
        exact hk
    · rw [if_neg h1] at hr
      cases hr
      exact hk
  have hne : (i.val : Int) ≠ 1 := by
    intro he
    have hclosed := h1 he
    rw [← he, hd] at hclosed
    cases hclosed
  rw [if_neg hne, hd] at hr
  dsimp only at hr
  cases valid with
  | false =>
    cases hr
    exact hk
  | true =>
    rw [ext2FdWrite, if_neg (hk.live i hops).1] at hr
    by_cases hf : (s.files (s.fdTable cur i).data).flags = 0
    · rw [if_pos hf] at hr
      cases hr
      exact hk
    · rw [if_neg hf] at hr
      cases hr
      exact hk.advance hops _

/-! ## Steps -/

/-- A step that closes no file in use keeps what the task knows. -/
theorem known_step {cur : TaskPtr} {h h' : FileHistory} {op : IoOp} (hk : Known cur h.world.open_ h.world.inodes h.opened)
    (hs : op.step h = some h') (hc : op.KeepsFiles h) : Known cur h'.world.open_ h'.world.inodes h'.opened := by
  unfold IoOp.step at hs
  split at hs
  case isFalse => cases hs
  rename_i hfits
  cases hs
  cases op with
  | openFile ino flags file =>
    simp only [IoOp.fits, and_eq_true, not_eq_true'] at hfits
    obtain ⟨hfit, hino⟩ := hfits
    cases ino with
    | none => exact hk
    | some i =>
      obtain ⟨f, hf⟩ := isSome_iff_exists.1 (show (h.world.inodes i).isSome = true from hino)
      simp only [IoOp.run, IoOp.learn, bind_some, hf, map_some]
      refine hk.vfsOpen (f := f) hfit (fun j hj => ?_) rfl
      rw [← some.inj hj]
      exact hf
  | createFile ino linked flags file =>
    simp only [IoOp.fits, and_eq_true, not_eq_true'] at hfits
    obtain ⟨hfit, hino⟩ := hfits
    cases ino with
    | none =>
      cases linked <;> exact hk
    | some i =>
      have hfree : h.world.inodes i = none := isNone_iff_eq_none.1 hino
      refine (hk.create hfree h.world.nextFile).vfsOpen (f := h.world.nextFile) hfit (fun j hj => ?_) rfl
      split at hj
      · rw [← some.inj hj]
        exact update_self _ _ _
      · cases hj
  | close fd => exact hk.close rfl
  | read fd valid count answer => exact hk.read rfl
  | write fd valid count answer => exact hk.write hc.1 rfl
  | lseek fd offset whence size => exact hk.lseek rfl
  | unlink ino last =>
    cases ino with
    | none => exact hk
    | some i =>
      cases last with
      | false => exact hk
      | true => exact hk.unlink hc

/-- A read or a write acts on the file of the descriptor. -/
theorem known_acts {cur : TaskPtr} {h : FileHistory} {op : IoOp} (hk : Known cur h.world.open_ h.world.inodes h.opened)
    (hc : op.KeepsFiles h) : op.Acts h := by
  -- a descriptor of which something is known is open, is not 1, and its file is the known one
  have hopen : ∀ fd o, (fd = 1 → h.world.open_.descriptor 1 = none) → h.opened fd = some o → fd ≠ 1 ∧
      ∃ e, h.world.open_.descriptor fd = some e ∧ e.data ≠ 0 ∧ h.world.inodes (h.world.open_.files e.data).ino = some o.file ∧
        (h.world.open_.files e.data).offset = o.offset ∧ (h.world.open_.files e.data).flags = o.flags := by
    intro fd o h1 ho
    obtain ⟨-, hn⟩ | ⟨i, rfl, hops, hd⟩ := hk.descriptor_cases fd
    · rw [hn] at ho
      cases ho
    refine ⟨fun he => ?_, _, hd, (hk.live i hops).1, ?_⟩
    · have hclosed := h1 he
      rw [← he, hd] at hclosed
      cases hclosed
    · obtain ⟨o', e, ho', he, hrest⟩ := hk.opened i hops
      rw [ho] at ho'
      rw [some.inj ho', he]
      exact hrest
  cases op with
  | read fd valid count answer =>
    intro o ho
    obtain ⟨h1, e, hd, hz, hino, hoff, -⟩ := hopen fd o hc ho
    simp only [IoOp.run, sysRead, if_neg h1, hd]
    cases valid with
    | false => rfl
    | true =>
      obtain ⟨k, hk⟩ := readFile_range h.world.blockSize_pos o.offset count answer
      rw [ext2FdRead, if_neg hz, hoff]
      exact ⟨_, k, congrArg _ hk, hino⟩
  | write fd valid count answer =>
    intro o ho
    obtain ⟨h1, e, hd, hz, hino, hoff, hflags⟩ := hopen fd o hc.1 ho
    have hend := hc.2 e hd
    rw [hoff] at hend
    simp only [IoOp.run, sysWrite, if_neg h1, hd]
    cases valid with
    | false => rfl
    | true =>
      rw [if_neg (show ¬ (!true) = true by decide), ext2FdWrite, if_neg hz, hflags]
      by_cases hf : o.flags = 0
      · rw [if_pos hf, if_neg (fun h => h.2 hf)]
      · obtain ⟨k, hk⟩ := writeFile_range h.world.blockSize_pos hend answer
        rw [if_neg hf, if_pos ⟨rfl, hf⟩, hoff]
        exact ⟨_, k, congrArg _ hk, hino⟩
  | _ => trivial

end FileIoAux

open FileIoAux

/-- A task without open files, on a file system with the files 0 and 1 in the inodes 12 and 13. -/
def soleTaskFiles : FileHistory where
  world := { open_ := soleTask
             blockSize := 1024
             blockSize_pos := by decide
             inodes := fun i => if i = 12 then some 0 else if i = 13 then some 1 else none
             nextFile := 2 }
  opened := fun _ => none

end TsOs
