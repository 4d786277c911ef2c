import TsOs.UserPath
import TsOs.Theorems.VmmMap

/-!
# Which bytes the path calls read

A string is scanned up to its end, up to a byte that may not be read, or over the whole length of a path. The check and the copy of a
path are determined by which of these it is, and with them what each system call does.
-/

namespace TsOs

open Traced VaAux List BitVec Nat

/-- The byte at `addr` is on a page that is present and that user code can access. -/
def UserView.UserByte (u : UserView) (addr : BitVec 64) : Prop := vaIsCanonical addr = true ∧ u.userPage addr = true

/-- The string at `s` ends within `EXT2_MAX_PATH` bytes of such pages. -/
def UserView.Terminated (u : UserView) (s : BitVec 64) : Prop :=
  ∃ n < ext2MaxPath, (∀ i ≤ n, u.UserByte (charAddr s i)) ∧ u.byte (charAddr s n) = 0#8

/-- A call reads only such bytes, and it fails when one of its strings does not end. -/
def PathCall.Checked (u : UserView) (vfs : VfsCalls) (call : PathCall) : Prop :=
  (∀ addr ∈ (call.run u vfs).events, u.UserByte addr) ∧
  ((∃ s ∈ call.paths, ¬ u.Terminated s) → ∃ e, (call.run u vfs).result = some e ∧ e < 0)

/-- The first `n` bytes of the string at `s` are on such pages, and it does not end before. -/
def UserView.Seen (u : UserView) (s : BitVec 64) (n : Nat) : Prop :=
  ∀ i < n, u.UserByte (charAddr s i) ∧ u.byte (charAddr s i) ≠ 0#8

/-- The string is at an address too low to be looked at, or no byte of it that the check gets to has a non-canonical address with the
page tables of a page of the user. -/
def UserView.Unaliased (u : UserView) (s : BitVec 64) : Prop :=
  s.ult 0x1000#64 = true ∨
    ∀ n < ext2MaxPath, u.Seen s n → u.userPage (charAddr s n) = true → vaIsCanonical (charAddr s n) = true

/-- The path that a handler copies. -/
def UserView.copied (u : UserView) (s : BitVec 64) : Path :=
  ((List.range (ext2MaxPath - 1)).map fun i => u.byte (charAddr s i)).takeWhile (· ≠ 0#8)

/-- The string ends, or it goes on for the whole length of a path. -/
def UserView.Readable (u : UserView) (s : BitVec 64) : Prop := u.Terminated s ∨ u.Seen s ext2MaxPath

/-- The string is checked and empty. -/
def UserView.Empty (u : UserView) (s : BitVec 64) : Prop :=
  s.ult 0x1000#64 = false ∧ u.UserByte s ∧ u.byte s = 0#8

/-- When a call reads only bytes that it may read, and fails for a string that does not end. -/
def PathCall.Sound (u : UserView) (vfs : VfsCalls) : PathCall → Prop
  | .open s _ => u.Unaliased s
  | .unlink s => u.Terminated s ∨ u.Seen s ext2MaxPath ∧ vfs.vfsUnlink (u.copied s) < 0
  | .mkdir s mode => u.Terminated s ∨ u.Seen s ext2MaxPath ∧ vfs.vfsMkdir (u.copied s) (mode.setWidth 32) < 0
  | .rmdir s => u.Terminated s ∨ u.Seen s ext2MaxPath ∧ vfs.vfsRmdir (u.copied s) < 0
  | .rename s t => u.Unaliased s ∧ (u.Empty s ∨ u.Unaliased t ∧ (u.Empty t ∨ u.Terminated s ∧ u.Terminated t ∨
      u.Readable s ∧ u.Readable t ∧ vfs.vfsRename (u.copied s) (u.copied t) < 0))

namespace UserPathAux

variable {u : UserView} {s : BitVec 64} {n : Nat}

/-! ## The scan of a string -/

/-- How a scan of a string ends. -/
inductive Scan (u : UserView) (s : BitVec 64) : Prop where
  | ends (n : Nat) (hn : n < ext2MaxPath) (hseen : u.Seen s n) (huser : u.UserByte (charAddr s n))
      (hzero : u.byte (charAddr s n) = 0#8)
  | stops (n : Nat) (hn : n < ext2MaxPath) (hseen : u.Seen s n) (hbad : ¬ u.UserByte (charAddr s n))
  | runs (hseen : u.Seen s ext2MaxPath)

theorem scan (u : UserView) (s : BitVec 64) : Scan u s := by
  have key : ∀ n ≤ ext2MaxPath, Scan u s ∨ u.Seen s n := by
    intro n
    induction n with
    | zero => exact fun _ => .inr fun i hi => absurd hi (not_lt_zero i)
    | succ n ih =>
      intro hn
      rcases ih (le_of_succ_le hn) with hdone | hseen
      · exact .inl hdone
      · by_cases huser : u.UserByte (charAddr s n)
        · by_cases hzero : u.byte (charAddr s n) = 0#8
          · exact .inl (.ends n hn hseen huser hzero)
          · refine .inr fun i hi => ?_
            rcases Nat.lt_succ_iff_lt_or_eq.mp hi with hlt | rfl
            · exact hseen i hlt
            · exact ⟨huser, hzero⟩
        · exact .inl (.stops n hn hseen huser)
  exact (key ext2MaxPath (le_refl _)).elim id .runs

theorem terminated_of_ends (hn : n < ext2MaxPath) (hseen : u.Seen s n) (huser : u.UserByte (charAddr s n))
    (hzero : u.byte (charAddr s n) = 0#8) : u.Terminated s := by
  refine ⟨n, hn, fun i hi => ?_, hzero⟩
  rcases lt_or_eq_of_le hi with hlt | rfl
  · exact (hseen i hlt).1
  · exact huser

theorem not_terminated_of_stops (hseen : u.Seen s n) (hbad : ¬ u.UserByte (charAddr s n)) : ¬ u.Terminated s := by
  rintro ⟨k, -, huser, hzero⟩
  rcases lt_or_ge k n with hlt | hle
  · exact (hseen k hlt).2 hzero
  · exact hbad (huser n hle)

theorem not_readable_of_stops (hn : n < ext2MaxPath) (hseen : u.Seen s n) (hbad : ¬ u.UserByte (charAddr s n)) :
    ¬ u.Readable s := by
  rintro (hterm | hall)
  · exact not_terminated_of_stops hseen hbad hterm
  · exact hbad (hall n hn).1

/-! ## Loads -/

/-- The entry for an address is the entry for its page. -/
theorem getPteFlags_pageOf (m : Vmm) (pml4 : Nat) (addr : BitVec 64) : getPteFlags m pml4 (pageOf addr) = getPteFlags m pml4 addr := by
  have hpage : (pageOf addr).toNat = addr.toNat / 4096 * 4096 := page_toNat addr
  have h4 : pml4Index (pageOf addr) = pml4Index addr := Fin.ext (by rw [pml4Index_val, pml4Index_val]; omega)
  have h3 : pdptIndex (pageOf addr) = pdptIndex addr := Fin.ext (by rw [pdptIndex_val, pdptIndex_val]; omega)
  have h2 : pdIndex (pageOf addr) = pdIndex addr := Fin.ext (by rw [pdIndex_val, pdIndex_val]; omega)
  have h1 : ptIndex (pageOf addr) = ptIndex addr := Fin.ext (by rw [ptIndex_val, ptIndex_val]; omega)
  unfold getPteFlags
  rw [h4, h3, h2, h1]

theorem userPage_pageOf (u : UserView) (addr : BitVec 64) : u.userPage (pageOf addr) = u.userPage addr := by
  unfold UserView.userPage
  rw [getPteFlags_pageOf]

theorem charAddr_pred (s : BitVec 64) (i : Nat) : charAddr s (i + 1) - 1#64 = charAddr s i := by
  have hone : BitVec.ofNat 64 (i + 1) = BitVec.ofNat 64 i + 1#64 := by rw [BitVec.ofNat_add]
  unfold charAddr
  rw [hone, ← BitVec.add_assoc, BitVec.add_sub_cancel]

theorem load_keeps {addr : BitVec 64} (h : u.UserByte addr) : Traced.Keeps u.UserByte (· = u.byte addr) (u.load addr) := by
  refine ⟨fun e he => ?_, u.byte addr, ?_, rfl⟩
  · rw [mem_singleton.mp he]
    exact h
  · have hpage := h.2
    unfold UserView.userPage at hpage
    rw [Bool.and_eq_true] at hpage
    unfold UserView.load
    rw [h.1, hpage.1]
    rfl

theorem load_breaks {addr : BitVec 64} (h : ¬ u.UserByte addr) : Breaks u.UserByte (u.load addr) :=
  ⟨addr, mem_singleton_self addr, h⟩

/-! ## The check -/

/-- The pages of the bytes before have passed, so the test fails exactly when the page of the byte is not one of the user. -/
theorem pageTest_iff {i : Nat} (hseen : u.Seen s i) :
    ((i = 0 ∨ pageOf (charAddr s i) ≠ pageOf (charAddr s i - 1#64)) ∧ u.userPage (pageOf (charAddr s i)) = false) ↔
      u.userPage (charAddr s i) = false := by
  rw [userPage_pageOf]
  refine ⟨And.right, fun hbad => ⟨?_, hbad⟩⟩
  cases i with
  | zero => exact .inl rfl
  | succ i =>
    right
    rw [charAddr_pred]
    intro hsame
    rw [← userPage_pageOf, hsame, userPage_pageOf, (hseen i (lt_succ_self i)).1.2] at hbad
    cases hbad

/-- The check of a byte that is on a page of the user. -/
theorem validateLoop_load {i m : Nat} (hseen : u.Seen s i) (huser : u.userPage (charAddr s i) = true) :
    validateLoop u s (m + 1) i =
      (u.load (charAddr s i) >>= fun c => if c = 0#8 then pure (i : Int) else validateLoop u s m (i + 1)) := by
  refine if_neg fun hbad => ?_
  rw [(pageTest_iff hseen).mp hbad] at huser
  cases huser

/-- The check goes on over the bytes that are seen. -/
theorem validateLoop_seen (hn : n ≤ ext2MaxPath) (hseen : u.Seen s n) :
    (∀ Q, Traced.Keeps u.UserByte Q (validateLoop u s ext2MaxPath 0) ↔
      Traced.Keeps u.UserByte Q (validateLoop u s (ext2MaxPath - n) n)) ∧
    (Breaks u.UserByte (validateLoop u s ext2MaxPath 0) ↔ Breaks u.UserByte (validateLoop u s (ext2MaxPath - n) n)) := by
  induction n with
  | zero => exact ⟨fun _ => Iff.rfl, Iff.rfl⟩
  | succ n ih =>
    have hseen' : u.Seen s n := fun i hi => hseen i (lt_succ_of_lt hi)
    obtain ⟨huser, hne⟩ := hseen n (lt_succ_self n)
    obtain ⟨hkeeps, hbreaks⟩ := ih (le_of_succ_le hn) hseen'
    have hrest : ext2MaxPath - n = ext2MaxPath - (n + 1) + 1 := by omega
    rw [hrest, validateLoop_load hseen' huser.2] at hkeeps hbreaks
    constructor
    · intro Q
      rw [hkeeps Q, (load_keeps huser).bind_iff, if_neg hne]
    · rw [hbreaks, (load_keeps huser).breaks_iff, if_neg hne]

section

variable (hs : s.ult 0x1000#64 = false)
include hs

theorem validate_eq : validateUserString u s ext2MaxPath = validateLoop u s ext2MaxPath 0 := by
  rw [validateUserString, hs, if_neg (by simp)]

theorem validate_runs (hseen : u.Seen s ext2MaxPath) :
    Traced.Keeps u.UserByte (· = -1) (validateUserString u s ext2MaxPath) := by
  rw [validate_eq hs, (validateLoop_seen (Nat.le_refl _) hseen).1, Nat.sub_self]
  exact .pure rfl

variable (hn : n < ext2MaxPath) (hseen : u.Seen s n)
include hn hseen

/-- What the check does with a string, by how its scan ends. -/
theorem validate_ends (huser : u.UserByte (charAddr s n)) (hzero : u.byte (charAddr s n) = 0#8) :
    Traced.Keeps u.UserByte (· = (n : Int)) (validateUserString u s ext2MaxPath) := by
  have hrest : ext2MaxPath - n = ext2MaxPath - (n + 1) + 1 := by omega
  rw [validate_eq hs, (validateLoop_seen hn.le hseen).1, hrest, validateLoop_load hseen huser.2, (load_keeps huser).bind_iff,
    if_pos hzero]
  exact .pure rfl

theorem validate_stops (hbad : u.userPage (charAddr s n) = false) :
    Traced.Keeps u.UserByte (· = -1) (validateUserString u s ext2MaxPath) := by
  have hrest : ext2MaxPath - n = ext2MaxPath - (n + 1) + 1 := by omega
  rw [validate_eq hs, (validateLoop_seen hn.le hseen).1, hrest, validateLoop, if_pos ((pageTest_iff hseen).mpr hbad)]
  exact .pure rfl

theorem validate_alias (hpage : u.userPage (charAddr s n) = true) (hbad : ¬ u.UserByte (charAddr s n)) :
    Breaks u.UserByte (validateUserString u s ext2MaxPath) := by
  have hrest : ext2MaxPath - n = ext2MaxPath - (n + 1) + 1 := by omega
  rw [validate_eq hs, (validateLoop_seen hn.le hseen).2, hrest, validateLoop_load hseen hpage]
  exact (load_breaks hbad).bind_left _

end

theorem validate_low (hs : s.ult 0x1000#64 = true) : Traced.Keeps u.UserByte (· = -1) (validateUserString u s ext2MaxPath) := by
  unfold validateUserString
  rw [hs]
  exact .pure rfl

/-! ## The copy -/

/-- The copy goes on over the bytes that are seen. -/
theorem copyLoop_seen {l : Path} (hn : n < ext2MaxPath) (hseen : u.Seen s n) :
    (Traced.Keeps u.UserByte (· = l) (copyLoop u s (ext2MaxPath - 1 - n) n) →
      Traced.Keeps u.UserByte (· = (List.range n).map (fun i => u.byte (charAddr s i)) ++ l) (copyPath u s)) ∧
    (Breaks u.UserByte (copyLoop u s (ext2MaxPath - 1 - n) n) → Breaks u.UserByte (copyPath u s)) := by
  induction n generalizing l with
  | zero => exact ⟨id, id⟩
  | succ n ih =>
    have hseen' : u.Seen s n := fun i hi => hseen i (lt_succ_of_lt hi)
    obtain ⟨huser, hne⟩ := hseen n (lt_succ_self n)
    have hrest : ext2MaxPath - 1 - n = ext2MaxPath - 1 - (n + 1) + 1 := by omega
    constructor
    · intro h
      have hstep : Traced.Keeps u.UserByte (· = u.byte (charAddr s n) :: l) (copyLoop u s (ext2MaxPath - 1 - n) n) := by
        rw [hrest, copyLoop, (load_keeps huser).bind_iff, if_neg hne, (load_keeps huser).bind_iff, h.bind_iff]
        exact .pure rfl
      have := (ih (lt_of_succ_lt hn) hseen').1 hstep
      rw [List.range_succ, List.map_append, List.append_assoc]
      exact this
    · intro h
      refine (ih (l := l) (lt_of_succ_lt hn) hseen').2 ?_
      rw [hrest, copyLoop, (load_keeps huser).breaks_iff, if_neg hne, (load_keeps huser).breaks_iff]
      exact h.bind_left _

/-- The bytes that are seen are the path that is copied, when they are followed by the end or fill the buffer. -/
theorem copied_eq (hseen : u.Seen s n) (hend : n < ext2MaxPath - 1 ∧ u.byte (charAddr s n) = 0#8 ∨ n = ext2MaxPath - 1) :
    u.copied s = (List.range n).map (fun i => u.byte (charAddr s i)) := by
  have hpre : ∀ c ∈ (range n).map (fun i => u.byte (charAddr s i)), decide (c ≠ 0#8) = true := by
    intro c hc
    obtain ⟨i, hi, rfl⟩ := mem_map.mp hc
    exact decide_eq_true (hseen i (mem_range.mp hi)).2
  unfold UserView.copied
  rcases hend with ⟨hlt, hzero⟩ | rfl
  · obtain ⟨k, hk⟩ : ∃ k, ext2MaxPath - 1 = n + (k + 1) := ⟨ext2MaxPath - 1 - n - 1, by omega⟩
    rw [hk, range_add, map_append, takeWhile_append_of_pos hpre]
    simp [hzero]
  · exact takeWhile_eq_self_iff.mpr hpre

theorem copy_ends (hn : n < ext2MaxPath) (hseen : u.Seen s n) (huser : u.UserByte (charAddr s n))
    (hzero : u.byte (charAddr s n) = 0#8) : Traced.Keeps u.UserByte (· = u.copied s) (copyPath u s) := by
  have hlast : Traced.Keeps u.UserByte (· = []) (copyLoop u s (ext2MaxPath - 1 - n) n) := by
    cases hm : ext2MaxPath - 1 - n with
    | zero => exact (load_keeps huser).bind_iff.mpr (.pure rfl)
    | succ m =>
      rw [copyLoop, (load_keeps huser).bind_iff, if_pos hzero]
      exact .pure rfl
  have hall := (copyLoop_seen hn hseen).1 hlast
  have hend : n < ext2MaxPath - 1 ∧ u.byte (charAddr s n) = 0#8 ∨ n = ext2MaxPath - 1 := by
    rcases lt_or_eq_of_le (le_sub_one_of_lt hn) with hlt | heq
    · exact .inl ⟨hlt, hzero⟩
    · exact .inr heq
  rw [append_nil, ← copied_eq hseen hend] at hall
  exact hall

theorem copy_runs (hseen : u.Seen s ext2MaxPath) : Traced.Keeps u.UserByte (· = u.copied s) (copyPath u s) := by
  have hlt : ext2MaxPath - 1 < ext2MaxPath := by decide
  have hseen' : u.Seen s (ext2MaxPath - 1) := fun i hi => hseen i (hi.trans hlt)
  have hlast : Traced.Keeps u.UserByte (· = []) (copyLoop u s (ext2MaxPath - 1 - (ext2MaxPath - 1)) (ext2MaxPath - 1)) := by
    exact (load_keeps (hseen _ hlt).1).bind_iff.mpr (.pure rfl)
  have hall := (copyLoop_seen hlt hseen').1 hlast
  rw [append_nil, ← copied_eq hseen' (.inr rfl)] at hall
  exact hall

theorem copy_stops (hn : n < ext2MaxPath) (hseen : u.Seen s n) (hbad : ¬ u.UserByte (charAddr s n)) :
    Breaks u.UserByte (copyPath u s) := by
  refine (copyLoop_seen (l := []) hn hseen).2 ?_
  cases ext2MaxPath - 1 - n with
  | zero | succ m => exact (load_breaks hbad).bind_left _

/-! ## The calls -/

theorem charAddr_zero (s : BitVec 64) : charAddr s 0 = s := BitVec.add_zero s

/-- A string that can be read up to its end, or over the length of a path, is at canonical addresses. -/
theorem unaliased_of_readable (h : u.Readable s) : u.Unaliased s := by
  refine .inr fun n hn hseen _ => ?_
  rcases h with ⟨k, -, huser, hzero⟩ | hall
  · rcases lt_or_ge k n with hlt | hle
    · exact absurd hzero (hseen k hlt).2
    · exact (huser n hle).1
  · exact (hall n hn).1.1

theorem terminated_of_empty (h : u.Empty s) : u.Terminated s := by
  refine ⟨0, by decide, fun i hi => ?_, ?_⟩
  · rw [le_zero.mp hi, charAddr_zero]
    exact h.2.1
  · rw [charAddr_zero]
    exact h.2.2

/-- The check reads only bytes of the user and gives a result that is zero for an empty string and negative for a string that does
not end, or it reads a byte that it may not read. -/
theorem validate_cases (u : UserView) (s : BitVec 64) :
    (u.Unaliased s ∧ ∃ v : Int, Traced.Keeps u.UserByte (· = v) (validateUserString u s ext2MaxPath) ∧ (v = 0 ↔ u.Empty s) ∧
      (v < 0 ∨ u.Terminated s)) ∨
    ¬ u.Unaliased s ∧ Breaks u.UserByte (validateUserString u s ext2MaxPath) := by
  cases hs : s.ult 0x1000#64 with
  | true =>
    refine .inl ⟨.inl hs, -1, validate_low hs, ⟨fun h => absurd h (by decide), fun h => ?_⟩, .inl (by decide)⟩
    rw [h.1] at hs
    cases hs
  | false =>
    have hseen_empty : ∀ {n}, u.Seen s (n + 1) → ¬ u.Empty s := by
      intro n hseen h
      have := (hseen 0 (succ_pos n)).2
      rw [charAddr_zero] at this
      exact this h.2.2
    cases scan u s with
    | ends n hn hseen huser hzero =>
      have hterm := terminated_of_ends hn hseen huser hzero
      refine .inl ⟨unaliased_of_readable (.inl hterm), n, validate_ends hs hn hseen huser hzero, ?_, .inr hterm⟩
      cases n with
      | zero =>
        rw [charAddr_zero] at huser hzero
        exact iff_of_true rfl ⟨hs, huser, hzero⟩
      | succ n => exact iff_of_false (by omega) (hseen_empty hseen)
    | stops n hn hseen hbad =>
      cases hpage : u.userPage (charAddr s n) with
      | true =>
        refine .inr ⟨fun h => ?_, validate_alias hs hn hseen hpage hbad⟩
        rcases h with hlow | h
        · rw [hlow] at hs
          cases hs
        · exact hbad ⟨h n hn hseen hpage, hpage⟩
      | false =>
        refine .inl ⟨.inr fun k hk hseen' hpage' => ?_, -1, validate_stops hs hn hseen hpage, iff_of_false (by decide) ?_, .inl (by decide)⟩
        · rcases Nat.lt_trichotomy k n with hlt | rfl | hlt
          · exact (hseen k hlt).1.1
          · rw [hpage'] at hpage
            cases hpage
          · exact absurd (hseen' n hlt).1 hbad
        · cases n with
          | zero =>
            rw [charAddr_zero] at hbad
            exact fun h => hbad h.2.1
          | succ n => exact hseen_empty hseen
    | runs hseen =>
      exact .inl ⟨unaliased_of_readable (.inr hseen), -1, validate_runs hs hseen,
        iff_of_false (by decide) (hseen_empty (n := 255) hseen), .inl (by decide)⟩

theorem copy_cases (u : UserView) (s : BitVec 64) :
    (u.Readable s ∧ Traced.Keeps u.UserByte (· = u.copied s) (copyPath u s)) ∨ ¬ u.Readable s ∧ Breaks u.UserByte (copyPath u s) := by
  cases scan u s with
  | ends n hn hseen huser hzero =>
    exact .inl ⟨.inl (terminated_of_ends hn hseen huser hzero), copy_ends hn hseen huser hzero⟩
  | stops n hn hseen hbad => exact .inr ⟨not_readable_of_stops hn hseen hbad, copy_stops hn hseen hbad⟩
  | runs hseen => exact .inl ⟨.inr hseen, copy_runs hseen⟩

/-- What is asked of a call: it reads only bytes of the user, and it fails unless `T`. -/
def Checks (u : UserView) (T : Prop) (x : ReadM Int) : Prop :=
  (∀ addr ∈ x.events, u.UserByte addr) ∧ (¬ T → ∃ e, x.result = some e ∧ e < 0)

theorem not_checks_of_breaks {T : Prop} {x : ReadM Int} (h : Breaks u.UserByte x) : ¬ Checks u T x := by
  obtain ⟨e, he, hne⟩ := h
  exact fun hc => hne (hc.1 e he)

theorem checks_bind {T : Prop} {α : Type} {x : ReadM α} {a : α} (h : Traced.Keeps u.UserByte (· = a) x) {f : α → ReadM Int} :
    Checks u T (x >>= f) ↔ Checks u T (f a) := by
  unfold Checks
  rw [(h.rest f).1, (h.rest f).2]

theorem checks_pure {T : Prop} {v : Int} : Checks u T (pure v) ↔ T ∨ v < 0 := by
  rw [or_iff_not_imp_left]
  constructor
  · intro h hT
    obtain ⟨e, he, hlt⟩ := h.2 hT
    exact Option.some.inj he ▸ hlt
  · exact fun h => ⟨nofun, fun hT => ⟨v, rfl, h hT⟩⟩

theorem sysOpen_checks (u : UserView) (vfs : VfsCalls) (s flags : BitVec 64) :
    Checks u (u.Terminated s) (sysOpen u vfs s flags) ↔ u.Unaliased s := by
  unfold sysOpen
  rcases validate_cases u s with ⟨hok, v, hv, -, hres⟩ | ⟨hbad, hv⟩
  swap
  · exact iff_of_false (not_checks_of_breaks (hv.bind_left _)) hbad
  refine iff_of_true ?_ hok
  rw [checks_bind hv]
  by_cases hneg : v < 0
  · rw [if_pos hneg, checks_pure]
    exact .inr (by decide)
  · have hterm := hres.resolve_left hneg
    rcases copy_cases u s with ⟨-, hc⟩ | ⟨hnot, -⟩
    · rw [if_neg hneg, checks_bind hc, checks_pure]
      exact .inl hterm
    · exact absurd (.inl hterm) hnot

theorem pathCall_checks (u : UserView) (s : BitVec 64) (call : Path → Int) :
    Checks u (u.Terminated s) (pathCall u s call) ↔ u.Terminated s ∨ u.Seen s ext2MaxPath ∧ call (u.copied s) < 0 := by
  have hreadable : u.Terminated s ∨ u.Seen s ext2MaxPath ∧ call (u.copied s) < 0 → u.Readable s := Or.imp id And.left
  unfold pathCall
  rcases validate_cases u s with ⟨-, v, hv, hempty, -⟩ | ⟨hbad, hv⟩
  swap
  · exact iff_of_false (not_checks_of_breaks (hv.bind_left _)) fun h => hbad (unaliased_of_readable (hreadable h))
  rw [checks_bind hv]
  by_cases hzero : v = 0
  · have hterm := terminated_of_empty (hempty.mp hzero)
    rw [if_pos hzero, checks_pure]
    exact iff_of_true (.inl hterm) (.inl hterm)
  rw [if_neg hzero]
  rcases copy_cases u s with ⟨hread, hc⟩ | ⟨hnot, hc⟩
  · rw [checks_bind hc, checks_pure]
    unfold UserView.Readable at hread
    tauto
  · exact iff_of_false (not_checks_of_breaks (hc.bind_left _)) fun h => hnot (hreadable h)

theorem sysRename_checks (u : UserView) (vfs : VfsCalls) (s t : BitVec 64) :
    Checks u (u.Terminated s ∧ u.Terminated t) (sysRename u vfs s t) ↔
      u.Unaliased s ∧ (u.Empty s ∨ u.Unaliased t ∧ (u.Empty t ∨ u.Terminated s ∧ u.Terminated t ∨
        u.Readable s ∧ u.Readable t ∧ vfs.vfsRename (u.copied s) (u.copied t) < 0)) := by
  unfold sysRename
  rcases validate_cases u s with ⟨hs, v, hv, hempty, -⟩ | ⟨hbad, hv⟩
  swap
  · exact iff_of_false (not_checks_of_breaks (hv.bind_left _)) fun h => hbad h.1
  rw [checks_bind hv]
  by_cases hzero : v = 0
  · rw [if_pos hzero, checks_pure]
    exact iff_of_true (.inr (by decide)) ⟨hs, .inl (hempty.mp hzero)⟩
  have hne : ¬ u.Empty s := fun h => hzero (hempty.mpr h)
  rw [if_neg hzero]
  rcases validate_cases u t with ⟨ht, v', hv', hempty', -⟩ | ⟨hbad, hv'⟩
  swap
  · exact iff_of_false (not_checks_of_breaks (hv'.bind_left _)) fun h => hbad (h.2.resolve_left hne).1
  rw [checks_bind hv']
  by_cases hzero' : v' = 0
  · rw [if_pos hzero', checks_pure]
    exact iff_of_true (.inr (by decide)) ⟨hs, .inr ⟨ht, .inl (hempty'.mp hzero')⟩⟩
  have hne' : ¬ u.Empty t := fun h => hzero' (hempty'.mpr h)
  -- both strings have passed, whatever the check said, and are copied
  rw [if_neg hzero', and_iff_right hs, or_iff_right hne, and_iff_right ht, or_iff_right hne']
  rcases copy_cases u s with ⟨hread, hc⟩ | ⟨hnot, hc⟩
  swap
  · refine iff_of_false (not_checks_of_breaks (hc.bind_left _)) fun h => hnot ?_
    exact h.elim (fun hterm => .inl hterm.1) And.left
  rw [checks_bind hc]
  rcases copy_cases u t with ⟨hread', hc'⟩ | ⟨hnot, hc'⟩
  swap
  · refine iff_of_false (not_checks_of_breaks (hc'.bind_left _)) fun h => hnot ?_
    exact h.elim (fun hterm => .inl hterm.2) fun hread => hread.2.1
  rw [checks_bind hc', checks_pure, and_iff_right hread, and_iff_right hread']

end UserPathAux

open UserPathAux

/-- A call reads only bytes of the user, and fails for a string that does not end, exactly when this condition on its paths holds. -/
theorem path_calls_checked (u : UserView) (vfs : VfsCalls) (call : PathCall) : call.Checked u vfs ↔ call.Sound u vfs := by
  have hone : ∀ (s : BitVec 64) (x : ReadM Int), ((∀ addr ∈ x.events, u.UserByte addr) ∧
      ((∃ s' ∈ [s], ¬ u.Terminated s') → ∃ e, x.result = some e ∧ e < 0)) ↔ Checks u (u.Terminated s) x := by
    intro s x
    simp [Checks]
  cases call with
  | «open» s flags => exact (hone s _).trans (sysOpen_checks u vfs s flags)
  | unlink s | mkdir s mode | rmdir s => exact (hone s _).trans (pathCall_checks u s _)
  | rename s t =>
    refine Iff.trans (and_congr Iff.rfl (imp_congr ?_ Iff.rfl)) (sysRename_checks u vfs s t)
    simp only [PathCall.paths, mem_cons, not_mem_nil, or_false, exists_eq_or_imp, exists_eq_left]
    exact not_and_or.symm

/-- `sys_unlink` of a path at an address that is not mapped reads it. -/
theorem unlink_reads_unmapped : ¬ PathCall.Checked ⟨emptyVmm, 1, fun _ => 0#8⟩
    ⟨fun _ _ => -1, fun _ => -1, fun _ _ => -1, fun _ _ => -1, fun _ => -1⟩ (.unlink 0x5000#64) := by
  intro h
  have hread : (0x5000#64 : BitVec 64) ∈ ((PathCall.unlink 0x5000#64).run ⟨emptyVmm, 1, fun _ => 0#8⟩
      ⟨fun _ _ => -1, fun _ => -1, fun _ _ => -1, fun _ _ => -1, fun _ => -1⟩).events := by decide
  have hpage := (h.1 _ hread).2
  exact absurd hpage (by decide)

end TsOs
