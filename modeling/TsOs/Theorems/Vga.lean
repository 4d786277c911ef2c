import TsOs.Vga

/-!
# The shadow buffer and VGA memory

A cell whose dirty flag is clear should show what the shadow buffer holds, so that `vga_flush` brings the whole screen up to date.
`vga_scroll` moves the flags with the contents, and the overlay of `vga_tick` sets no flags.
-/

namespace TsOs

open Runs

namespace Vga

/-- Every cell whose dirty flag is clear is the same in the shadow buffer and in VGA memory. -/
def Synced (v : Vga) : Prop := ∀ i, v.dirty i = false → v.shadow i = v.mem i

/-- A flush writes every cell, or there is none that it would leave out of date. -/
def FlushSyncs (v : Vga) : Prop := 1500 ≤ v.dirtyCount ∨ v.Synced

/-- What a scroll by `k` lines moves to a cell is marked dirty or shown there already. -/
def Moves (v : Vga) (k : Nat) : Prop := ∀ i j : Cell, j.val = i.val + k * 80 → v.dirty j = false → v.shadow j = v.mem i

/-- How often the screen is scrolled for a text that starts at column `cx` of row `cy`; `none` if the text leaves the buffers. -/
def scrolls : Int → Int → List (BitVec 8) → Option Nat
  | _, _, [] => some 0
  | cx, cy, c :: s =>
    if vgaWidth ≤ cx ∧ cy = 2 ^ 31 - 1 then none
    else
      let row := if vgaWidth ≤ cx then cy + 1 else cy
      let cx := if vgaWidth ≤ cx then 0 else cx
      let cy := if vgaHeight ≤ row then (vgaHeight : Int) - 1 else row
      let rest :=
        if c = 0x0A#8 then scrolls 0 (cy + 1) s
        else if c = 0x0D#8 then scrolls 0 cy s
        else if c = 0x09#8 then scrolls ((cx + 8) / 8 * 8) cy s
        else (cell (cy * vgaWidth + cx)).bind fun _ => scrolls (cx + 1) cy s
      rest.map fun n => if vgaHeight ≤ row then n + 1 else n

/-- The VGA memory is mapped and no batch is open. -/
structure Ready (v : Vga) : Prop where
  mapped : v.mapped = true
  batch : v.batchMode = false

end Vga

/-- When a call keeps the cells in step: what a scroll moves to a cell without a flag is what the cell shows already, also for the
scrolls that the text of `vga_put_str` asks for, and the overlay of a tick changes no cell that the flush after it leaves out. -/
def VgaOp.Keeps (v : Vga) : VgaOp → Prop
  | .scroll lines => lines ≤ 0 ∨ 25 ≤ lines ∨ v.Moves lines.toNat
  | .putStr x y (some s) _ => ∃ n, Vga.scrolls x y s = some n ∧ ∀ k ≤ n, v.Moves k
  | .tick => v.scanlineEnabled = true ∧ (v.tickCount + 1#32) % 3#32 = 0#32 → 1500 ≤ v.dirtyCount ∨
    ∀ i : Cell, i.val / 80 % 2 = 0 → v.dirty i = false → Vga.scanCell (v.shadow i) = v.shadow i
  | _ => True

/-- A text that is written without a scroll. -/
def VgaOp.Unscrolled : VgaOp → Prop
  | .putStr x y (some s) _ => Vga.scrolls x y s = some 0
  | _ => True

namespace Vga

variable {v : Vga}

theorem Ready.flush_eq (h : v.Ready) : v.flush =
    { v with
      mem := if 1500 ≤ v.dirtyCount then v.shadow else fun i => if v.dirty i then v.shadow i else v.mem i
      dirty := fun _ => false } := by
  rw [flush, h.mapped, h.batch]
  rfl

theorem Ready.synced_flush (h : v.Ready) : v.flush.Synced ↔ v.FlushSyncs := by
  rw [h.flush_eq, FlushSyncs]
  by_cases hbulk : 1500 ≤ v.dirtyCount
  · simp [Synced, hbulk]
  · simp only [Synced, hbulk, if_false, false_or, forall_const]
    refine forall_congr' fun i => ?_
    cases v.dirty i <;> simp

/-- After a flush that can bring it up to date, VGA memory equals the shadow buffer. -/
theorem Ready.flush_mem (h : v.Ready) (hs : v.Synced) : v.flush.mem = v.flush.shadow := by
  have hsync := h.synced_flush.mpr (.inr hs)
  rw [h.flush_eq] at hsync ⊢
  exact funext fun i => (hsync i rfl).symm

theorem Ready.flush (h : v.Ready) : v.flush.Ready := by
  rw [h.flush_eq]
  exact ⟨h.mapped, h.batch⟩

theorem Ready.clear (h : v.Ready) : v.clear.Ready ∧ v.clear.Synced := by
  have hfull : Ready { v with shadow := fun _ => v.blank, dirty := fun _ => true, cursorX := 0, cursorY := 0 } := ⟨h.mapped, h.batch⟩
  exact ⟨hfull.flush, hfull.synced_flush.mpr (.inr fun i hi => nomatch hi)⟩

/-- A clear screen looks the same on every line. -/
theorem Ready.clear_moves (h : v.Ready) (k : Nat) : v.clear.Moves k := by
  have hfull : Ready { v with shadow := fun _ => v.blank, dirty := fun _ => true, cursorX := 0, cursorY := 0 } := ⟨h.mapped, h.batch⟩
  rw [Vga.clear, hfull.flush_eq]
  intro i j _ _
  dsimp only
  split <;> rfl

theorem setCell_ready (i : Cell) (e : BitVec 16) (h : v.Ready) : (v.setCell i e).Ready := by
  unfold setCell
  split
  · exact ⟨h.mapped, h.batch⟩
  · exact h

theorem setCell_synced (i : Cell) (e : BitVec 16) (h : v.Synced) : (v.setCell i e).Synced := by
  unfold setCell
  split
  · intro j hj
    by_cases hji : j = i
    · subst hji
      simp at hj
    · simp only [Function.update_of_ne hji] at hj ⊢
      exact h j hj
  · exact h

theorem Ready.scroll (h : v.Ready) (lines : Int) : (v.scroll lines).Ready := by
  unfold Vga.scroll
  split
  · exact h
  · split
    · exact h.clear.1
    · exact ⟨h.mapped, h.batch⟩

theorem scroll_synced (h : v.Ready) (hs : v.Synced) (lines : Int) : (v.scroll lines).Synced ↔ VgaOp.Keeps v (.scroll lines) := by
  unfold Vga.scroll VgaOp.Keeps Moves
  by_cases hneg : lines ≤ 0
  · simp [hneg, hs]
  by_cases hall : 25 ≤ lines
  · simp [hneg, hall, h.clear.2]
  simp only [hneg, (show ¬ (vgaHeight : Int) ≤ lines from hall), hall, if_false, false_or]
  constructor
  · intro hsync i j hij hj
    have hlt : i + lines.toNat * 80 < 2000 := hij ▸ j.isLt
    obtain rfl : j = ⟨i + lines.toNat * 80, hlt⟩ := Fin.ext hij
    have := hsync i (by simpa only [hlt, dif_pos] using hj)
    simpa only [hlt, dif_pos] using this
  · intro hkeep i hi
    by_cases hlt : i + lines.toNat * 80 < 2000
    · simp only [hlt, dif_pos] at hi ⊢
      exact hkeep i _ rfl hi
    · simp [hlt] at hi

variable {color : BitVec 8} {s : List (BitVec 8)}

/-- The text is written in the same mode. -/
theorem putStrLoop_ready : ∀ {v : Vga} {cx cy : Int} {r : Vga × Int × Int}, v.Ready →
    putStrLoop color v cx cy s = some r → r.1.Ready := by
  induction s with
  | nil =>
    intro v cx cy r h hrun
    cases hrun
    exact h
  | cons c s ih =>
    intro v cx cy r h hrun
    rw [putStrLoop] at hrun
    split at hrun
    · cases hrun
    · dsimp only at hrun
      generalize (if (vgaHeight : Int) ≤ if (vgaWidth : Int) ≤ cx then cy + 1 else cy then _ else _ : Int) = row at hrun
      have hv : Ready (if (vgaHeight : Int) ≤ if (vgaWidth : Int) ≤ cx then cy + 1 else cy then v.scroll 1 else v) := by
        generalize (if (vgaWidth : Int) ≤ cx then cy + 1 else cy) = row
        split
        · exact h.scroll 1
        · exact h
      split at hrun
      · exact ih hv hrun
      · split at hrun
        · exact ih hv hrun
        · split at hrun
          · exact ih hv hrun
          · split at hrun
            · cases hrun
            · exact ih (setCell_ready _ _ hv) hrun

/-- The cursor that `vga_put_str` leaves is no part of the mode. -/
theorem putStrLoop_end {cx cy : Int} {r : Vga × Int × Int} (h : v.Ready)
    (hr : putStrLoop color v cx cy s = some r) : Ready { r.1 with cursorX := r.2.1, cursorY := r.2.2 } := by
  obtain ⟨hm, hb⟩ := putStrLoop_ready h hr
  exact ⟨hm, hb⟩

theorem moves_setCell {k : Nat} (h : v.Moves k) (i : Cell) (e : BitVec 16) : (v.setCell i e).Moves k := by
  unfold setCell
  split
  · intro i' j hij hj
    by_cases hji : j = i
    · subst hji
      simp at hj
    · simp only [Function.update_of_ne hji] at hj ⊢
      exact h i' j hij hj
  · exact h

theorem moves_scroll {n : Nat} (h : ∀ k ≤ n + 1, v.Moves k) : ∀ k ≤ n, (v.scroll 1).Moves k := by
  intro k hk i j hij hj
  unfold Vga.scroll at hj ⊢
  simp only [show ¬ (1 : Int) ≤ 0 by decide, show ¬ (vgaHeight : Int) ≤ 1 by decide, if_false] at hj ⊢
  split at hj
  · rename_i hlt
    rw [dif_pos hlt]
    refine h (k + 1) (by omega) i _ ?_ hj
    change j.val + 80 = i.val + (k + 1) * 80
    omega
  · cases hj

/-- The text is written, and leaves the cells in step, where its scrolls do. -/
theorem putStrLoop_synced : ∀ {v : Vga} {cx cy : Int} {n : Nat}, scrolls cx cy s = some n → (∀ k ≤ n, v.Moves k) →
    ∃ r, putStrLoop color v cx cy s = some r ∧ r.1.Moves 0 := by
  induction s with
  | nil =>
    intro v cx cy n _ hmoves
    exact ⟨_, rfl, hmoves 0 (Nat.zero_le n)⟩
  | cons c s ih =>
    intro v cx cy n hn hmoves
    rw [scrolls] at hn
    rw [putStrLoop]
    split at hn
    · cases hn
    rename_i hover
    rw [if_neg hover]
    dsimp only at hn ⊢
    obtain ⟨n', hrest, rfl⟩ := Option.map_eq_some_iff.mp hn
    generalize (if (vgaWidth : Int) ≤ cx then cy + 1 else cy) = row at hmoves hrest ⊢
    -- the cells after the scroll, if there is one
    have hv : ∀ k ≤ n', Moves (if (vgaHeight : Int) ≤ row then v.scroll 1 else v) k := by
      split at hmoves
      · rename_i hrow
        rw [if_pos hrow]
        exact moves_scroll hmoves
      · rename_i hrow
        rw [if_neg hrow]
        exact hmoves
    generalize (if (vgaHeight : Int) ≤ row then v.scroll 1 else v) = v' at hv ⊢
    split at hrest
    · rename_i hc
      rw [if_pos hc]
      exact ih hrest hv
    · rename_i hc
      rw [if_neg hc]
      split at hrest
      · rename_i hc
        rw [if_pos hc]
        exact ih hrest hv
      · rename_i hc
        rw [if_neg hc]
        split at hrest
        · rename_i hc
          rw [if_pos hc]
          exact ih hrest hv
        · rename_i hc
          rw [if_neg hc]
          obtain ⟨i, hi, hrest⟩ := Option.bind_eq_some_iff.mp hrest
          rw [hi]
          exact ih hrest fun k hk => moves_setCell (hv k hk) _ _

theorem synced_of_moves (h : v.Moves 0) : v.Synced := fun i hi => h i i (by omega) hi

theorem moves_of_synced (h : v.Synced) : ∀ k ≤ 0, v.Moves k := by
  intro k hk i j hij hj
  obtain rfl : j = i := Fin.ext (by omega)
  exact h j hj

theorem putStr_synced (h : v.Ready) {x y : Int} {s : List (BitVec 8)} {color : BitVec 8}
    (hkeep : VgaOp.Keeps v (.putStr x y (some s) color)) : ∃ v', v.putStr x y (some s) color = some v' ∧ v'.Synced := by
  obtain ⟨n, hn, hmoves⟩ := hkeep
  obtain ⟨r, hr, hsync⟩ := putStrLoop_synced hn hmoves
  refine ⟨_, Option.map_eq_some_iff.mpr ⟨r, hr, rfl⟩, (putStrLoop_end h hr).synced_flush.mpr (.inr ?_)⟩
  exact synced_of_moves hsync

theorem Ready.tick (h : v.Ready) : v.tick.Ready := by
  simp only [Vga.tick]
  split
  · exact Ready.flush ⟨h.mapped, h.batch⟩
  · exact ⟨h.mapped, h.batch⟩

theorem tick_synced (h : v.Ready) (hs : v.Synced) : v.tick.Synced ↔ VgaOp.Keeps v .tick := by
  simp only [Vga.tick, VgaOp.Keeps, Bool.and_eq_true, beq_iff_eq]
  split
  · rename_i hredraw
    refine (Ready.synced_flush ?_).trans ?_
    · exact ⟨h.mapped, h.batch⟩
    simp only [hredraw, and_self, true_imp_iff]
    refine or_congr Iff.rfl (forall_congr' fun i => ?_)
    by_cases heven : i.val / 80 % 2 = 0
    · simp only [overlay, heven, if_true, true_imp_iff]
      refine imp_congr_right fun hi => ?_
      rw [hs i hi]
    · simp only [overlay, heven, if_false, false_imp_iff, iff_true]
      exact hs i
  · rename_i hno
    exact iff_of_true hs fun hredraw => absurd hredraw hno

theorem Ready.flushCell (h : v.Ready) (x y : Int) : (v.flushCell x y).Ready := by
  unfold Vga.flushCell
  repeat' split
  all_goals exact ⟨h.mapped, h.batch⟩

theorem flushCell_synced (hs : v.Synced) (x y : Int) : (v.flushCell x y).Synced := by
  unfold Vga.flushCell
  split
  · exact hs
  · split
    · exact hs
    · split
      · exact hs
      · rename_i i _
        intro j hj
        by_cases hji : j = i
        · subst hji
          simp
        · simp only [Function.update_of_ne hji] at hj ⊢
          exact hs j hj

theorem putChar_cases (x y : Int) (c color : BitVec 8) :
    (v.putChar x y c color).2 = v ∨ ∃ i, (v.putChar x y c color).2 = v.setCell i (vgaEntry c color) := by
  unfold putChar
  split
  · exact .inl rfl
  · split
    · exact .inl rfl
    · exact .inr ⟨_, rfl⟩

/-- No call unmaps the screen or opens a batch. -/
theorem step_ready {v' : Vga} {op : VgaOp} (h : v.Ready) (hstep : VgaOp.step v op = some v') : v'.Ready := by
  cases op with
  | putStr x y s color =>
    cases s with
    | none =>
      cases hstep
      exact h
    | some s =>
      obtain ⟨r, hr, rfl⟩ := Option.map_eq_some_iff.mp hstep
      exact (putStrLoop_end h hr).flush
  | putChar x y c color =>
    cases hstep
    rcases putChar_cases (v := v) x y c color with heq | ⟨i, heq⟩
    · rw [heq]
      exact h
    · rw [heq]
      exact setCell_ready _ _ h
  | clear =>
    cases hstep
    exact h.clear.1
  | scroll lines =>
    cases hstep
    exact h.scroll lines
  | tick =>
    cases hstep
    exact h.tick
  | flushCell x y =>
    cases hstep
    exact h.flushCell x y
  | flush =>
    cases hstep
    exact h.flush
  | setColor fg bg | setScanline on =>
    cases hstep
    exact ⟨h.mapped, h.batch⟩

/-- A call keeps the cells in step under its condition, and only then unless it writes a text that is scrolled. -/
theorem step_synced (h : v.Ready) (hs : v.Synced) (op : VgaOp) :
    (op.Keeps v → ∃ v', VgaOp.step v op = some v' ∧ v'.Synced) ∧
      (op.Unscrolled → (∃ v', VgaOp.step v op = some v' ∧ v'.Synced) → op.Keeps v) := by
  cases op with
  | clear => exact ⟨fun _ => ⟨_, rfl, h.clear.2⟩, fun _ _ => trivial⟩
  | putChar x y c color =>
    refine ⟨fun _ => ⟨_, rfl, ?_⟩, fun _ _ => trivial⟩
    rcases putChar_cases (v := v) x y c color with heq | ⟨i, heq⟩
    · rw [heq]
      exact hs
    · rw [heq]
      exact setCell_synced _ _ hs
  | putStr x y s color =>
    cases s with
    | none => exact ⟨fun _ => ⟨v, rfl, hs⟩, fun _ _ => trivial⟩
    | some s => exact ⟨putStr_synced h, fun hfit _ => ⟨0, hfit, moves_of_synced hs⟩⟩
  | scroll lines =>
    have hiff := scroll_synced h hs lines
    exact ⟨fun hk => ⟨_, rfl, hiff.mpr hk⟩, fun _ ⟨_, hstep, hsync⟩ => hiff.mp (Option.some.inj hstep ▸ hsync)⟩
  | tick =>
    have hiff := tick_synced h hs
    exact ⟨fun hk => ⟨_, rfl, hiff.mpr hk⟩, fun _ ⟨_, hstep, hsync⟩ => hiff.mp (Option.some.inj hstep ▸ hsync)⟩
  | flushCell x y => exact ⟨fun _ => ⟨_, rfl, flushCell_synced hs x y⟩, fun _ _ => trivial⟩
  | flush => exact ⟨fun _ => ⟨_, rfl, h.synced_flush.mpr (.inr hs)⟩, fun _ _ => trivial⟩
  | setColor fg bg | setScanline on => exact ⟨fun _ => ⟨_, rfl, hs⟩, fun _ _ => trivial⟩

/-- In a run without scrolled texts that keeps the cells in step, every call meets its condition. -/
theorem made_of_returned {ops : List VgaOp} : ∀ {v : Vga}, v.Ready → v.Synced → (∀ op ∈ ops, op.Unscrolled) →
    Returned VgaOp.step (fun _ _ v => v.Synced ∧ v.flush.mem = v.flush.shadow) v ops →
    Made VgaOp.step (fun v op => op.Keeps v) v ops := by
  induction ops with
  | nil => exact fun _ _ _ _ => trivial
  | cons op ops ih =>
    intro v h hs hfit hret
    obtain ⟨v', hstep, hsync, hrest⟩ := hret
    rw [List.forall_mem_cons] at hfit
    refine ⟨(step_synced h hs op).2 hfit.1 ⟨v', hstep, hsync.1⟩, fun v'' hstep' => ?_⟩
    obtain rfl : v' = v'' := Option.some.inj (hstep.symm.trans hstep')
    exact ih (step_ready h hstep) hsync.1 hfit.2 hrest

end Vga

open Vga

/-- After `vga_init` the cells are in step, and the calls of a run all return and keep them so, with VGA memory equal to the shadow
buffer after a flush, if each call meets its condition. In a run in which no text is scrolled this is the only way. -/
theorem vga_shadow_synced (v₀ : Vga) (hb : v₀.batchMode = false) (ops : List VgaOp) :
    v₀.init.Synced ∧
    (Made VgaOp.step (fun v op => op.Keeps v) v₀.init ops →
      Returned VgaOp.step (fun _ _ v => v.Synced ∧ v.flush.mem = v.flush.shadow) v₀.init ops) ∧
    ((∀ op ∈ ops, op.Unscrolled) →
      Returned VgaOp.step (fun _ _ v => v.Synced ∧ v.flush.mem = v.flush.shadow) v₀.init ops →
      Made VgaOp.step (fun v op => op.Keeps v) v₀.init ops) := by
  have hstart : v₀.init.Ready ∧ v₀.init.Synced := Ready.clear ⟨rfl, hb⟩
  refine ⟨hstart.2, fun hmade => ?_, fun hfit hret => made_of_returned hstart.1 hstart.2 hfit hret⟩
  refine Returned.of_inv (I := fun v => v.Ready ∧ v.Synced) (fun v op hI hkeep => ?_) hstart hmade
  obtain ⟨v', hstep, hsync⟩ := (step_synced hI.1 hI.2 op).1 hkeep
  have hready := step_ready hI.1 hstep
  exact ⟨v', hstep, ⟨hready, hsync⟩, hsync, hready.flush_mem hsync⟩

/-- The driver before `vga_init`. -/
def vgaBoot : Vga where
  shadow := fun _ => 0#16
  dirty := fun _ => false
  mem := fun _ => 0#16
  mapped := false
  fg := 15#8
  bg := 0#8
  cursorX := 0
  cursorY := 0
  blinkEnabled := true
  blinkVisible := true
  scanlineEnabled := false
  batchMode := false
  tickCount := 0#32

/-- A text on the second row, a flush of its cell and a text on the last row that is scrolled after the screen was cleared. -/
theorem vga_text_in_step :
    Returned VgaOp.step (fun _ _ v => v.Synced ∧ v.flush.mem = v.flush.shadow) vgaBoot.init
      [.putStr 0 1 (some [0x41#8]) 0x0F#8, .flushCell 0 1, .clear, .putStr 0 24 (some [0x0A#8, 0x42#8]) 0x0F#8] := by
  have hstart : vgaBoot.init.Ready ∧ vgaBoot.init.Synced := Ready.clear ⟨rfl, rfl⟩
  have hshort : scrolls 0 1 [0x41#8] = some 0 := by decide
  have hlong : scrolls 0 24 [0x0A#8, 0x42#8] = some 1 := by decide
  refine (vga_shadow_synced vgaBoot rfl _).2.1 ⟨⟨0, hshort, moves_of_synced hstart.2⟩, fun v₁ h₁ => ⟨trivial, fun v₂ h₂ => ?_⟩⟩
  have hready := step_ready (step_ready hstart.1 h₁) h₂
  refine ⟨trivial, fun v₃ h₃ => ⟨⟨1, hlong, fun k _ => ?_⟩, fun _ _ => trivial⟩⟩
  cases h₃
  exact hready.clear_moves k

/-- An `A` written to the second row and scrolled to the first is never shown there: the cell's flag is clear, and the flush leaves
the blank. -/
theorem vga_scroll_out_of_step :
    (run VgaOp.step vgaBoot.init [.putStr 0 1 (some [0x41#8]) 0x0F#8, .scroll 1]).map
      (fun v => (v.dirty 0, v.shadow 0, v.mem 0, v.flush.mem 0)) = some (false, 0x0F41#16, 0x0F20#16, 0x0F20#16) := by
  decide +kernel

end TsOs
