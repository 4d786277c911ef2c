import TsOs.Stdio

/-!
# The order of the output of a stream

What the descriptor of a stream has received, followed by what is in the buffer, is the output of the calls. `fprintf` goes around the
buffer, and `fputs` takes the character 0xFF for the end of the file.
-/

namespace TsOs

open Runs List

namespace Stdio

/-- Every write is of at least one byte and at most what it is given. -/
def Accepts (answer : Nat → Nat → Int) : Prop := ∀ i n, 0 < n → 0 < answer i n ∧ answer i n ≤ n

/-- The bytes in the buffer. -/
def File.pending (f : File) : List Byte := f.buf.getD []

/-- The output so far. -/
def File.output (f : File) : List Byte := f.dev.received ++ f.pending

/-- The modes `w` and `a`, and those with a `+`. -/
def Writable (m₀ m₁ : Byte) : Prop := m₀ = 0x77#8 ∨ m₀ = 0x61#8 ∨ m₁ = 0x2B#8

/-- When the bytes of a call come after those of the calls before it: `fputs` has no 0xFF but at the end, and the text of `fprintf` fits
its buffer and comes out the same on either side of what is still in the buffer of the stream. -/
def Call.InOrder (f : File) : Call → Prop
  | .fputs s => 0xFF#8 ∉ s.dropLast
  | .fprintf out => out.length ≤ 4096 ∧ (formatBuf out).take out.length ++ f.pending = f.pending ++ out
  | _ => True

/-- A stream of `fopen` for writing: fully buffered, or without a buffer. -/
structure Opened (f : File) : Prop where
  mode : f.bufMode = .full
  flags : f.modeFlags &&& (1#32 ||| 2#32 ||| 0x400#32) ≠ 0#32

variable {answer : Nat → Nat → Int} {f f' : File}

/-- The call leaves a stream of the same kind, with the bytes `bs` more in its output. -/
structure Appends (f : File) (bs : List Byte) (f' : File) : Prop where
  output : f'.output = f.output ++ bs
  mode : f'.bufMode = f.bufMode
  flags : f'.modeFlags = f.modeFlags
  buf : f'.buf.isSome = f.buf.isSome

theorem Appends.refl (f : File) : Appends f [] f := ⟨by simp, rfl, rfl, rfl⟩

theorem Appends.trans {f'' : File} {bs bs' : List Byte} (h : Appends f bs f') (h' : Appends f' bs' f'') :
    Appends f (bs ++ bs') f'' where
  output := by rw [h'.output, h.output, append_assoc]
  mode := h'.mode.trans h.mode
  flags := h'.flags.trans h.flags
  buf := h'.buf.trans h.buf

theorem Appends.opened {bs : List Byte} (h : Appends f bs f') (ho : Opened f) : Opened f' := ⟨h.mode.trans ho.mode, h.flags ▸ ho.flags⟩

/-! ## The writes -/

section

variable (ha : Accepts answer)
include ha

/-- One write of a loop leaves less to write. -/
theorem Accepts.sysWrite (d : Device) (b : Byte) (data : List Byte) :
    0 < (sysWrite answer d (b :: data)).1 ∧
    ((b :: data).drop (sysWrite answer d (b :: data)).1.toNat).length ≤ data.length ∧
    (sysWrite answer d (b :: data)).2.received ++ (b :: data).drop (sysWrite answer d (b :: data)).1.toNat =
      d.received ++ (b :: data) := by
  have hn := ha d.calls (b :: data).length (by simp)
  refine ⟨hn.1, ?_, ?_⟩
  · simp only [Stdio.sysWrite, length_drop, length_cons] at hn ⊢
    omega
  · simp [Stdio.sysWrite, append_assoc, take_append_drop]

/-- Both loops write everything. -/
theorem Accepts.loops : ∀ {k : Nat} {d : Device} {data : List Byte}, data.length ≤ k →
    ∃ d', flushLoop answer k d data = (true, d') ∧ writeLoop answer k d data = some (false, 0, d') ∧
      d'.received = d.received ++ data := by
  intro k
  induction k with
  | zero =>
    intro d data hk
    obtain rfl := length_eq_zero_iff.mp (Nat.le_zero.mp hk)
    exact ⟨d, rfl, rfl, by simp⟩
  | succ k ih =>
    intro d data hk
    cases data with
    | nil => exact ⟨d, rfl, rfl, by simp⟩
    | cons b data =>
      obtain ⟨hpos, hlen, hrec⟩ := ha.sysWrite d b data
      rw [flushLoop, writeLoop]
      simp only [if_neg (Int.not_le.mpr hpos), if_neg (Int.not_lt.mpr (Int.le_of_lt hpos))]
      rw [← hrec]
      exact ih (Nat.le_trans hlen (Nat.le_of_succ_le_succ hk))

/-! ## The calls -/

theorem Accepts.bufFlush (f : File) :
    (bufFlush answer f).1 = true ∧ Appends f [] (bufFlush answer f).2 ∧ (bufFlush answer f).2.dev.received = f.output := by
  unfold Stdio.bufFlush
  split
  · rename_i hbuf
    exact ⟨rfl, .refl f, by simp [File.output, File.pending, hbuf]⟩
  · rename_i hbuf
    exact ⟨rfl, .refl f, by simp [File.output, File.pending, hbuf]⟩
  · rename_i data _ hbuf
    obtain ⟨d, hrun, -, hrec⟩ := ha.loops (d := f.dev) (Nat.le_refl data.length)
    simp only [hrun, if_true, true_and]
    refine ⟨⟨?_, rfl, rfl, by rw [hbuf]; rfl⟩, ?_⟩
    · simp [File.output, File.pending, hrec, hbuf]
    · rw [hrec, File.output, File.pending, hbuf, Option.getD_some]

theorem Accepts.putByte (b : Byte) (hbuf : f.buf.isSome = true) :
    (putByte answer f b).1 = true ∧ Appends f [b] (putByte answer f b).2 := by
  have hpush : ∀ g : File, g.buf.isSome = true → Appends g [b] { g with buf := g.buf.map (· ++ [b]) } := by
    intro g hg
    obtain ⟨data, hdata⟩ := Option.isSome_iff_exists.mp hg
    exact ⟨by simp [File.output, File.pending, hdata], rfl, rfl, by simp [hdata]⟩
  unfold Stdio.putByte
  split
  · obtain ⟨hok, happ, -⟩ := ha.bufFlush f
    simp only [hok, if_true, true_and]
    exact happ.trans (hpush _ (happ.buf.trans hbuf))
  · exact ⟨rfl, hpush f hbuf⟩

theorem Accepts.fillLoop : ∀ {src : List Byte} {f : File}, f.buf.isSome = true →
    Appends f src (fillLoop answer f src).2 := by
  intro src
  induction src with
  | nil => exact fun {f} _ => .refl f
  | cons b src ih =>
    intro f hbuf
    obtain ⟨hok, happ⟩ := ha.putByte b hbuf
    simp only [Stdio.fillLoop, hok, if_true]
    exact happ.trans (ih (happ.buf.trans hbuf))

end

/-- What a write past an empty buffer adds. -/
theorem appends_direct {d : Device} {e : Bool} {bs : List Byte} (hbuf : f.buf = none) (hd : d.received = f.dev.received ++ bs) :
    Appends f bs { f with dev := d, errorFlag := e } := by
  refine ⟨?_, rfl, rfl, rfl⟩
  simp [File.output, File.pending, hbuf, hd]

theorem Accepts.fwrite (ha : Accepts answer) (ho : Opened f) (size : Nat) {fuel : Nat} {src : List Byte} (hfuel : src.length ≤ fuel) :
    ∃ r, fwrite answer fuel f src size = some r ∧ Appends f src r.2 := by
  unfold Stdio.fwrite
  split
  · rename_i hnil
    subst hnil
    exact ⟨_, rfl, .refl f⟩
  · by_cases hbuf : f.buf = none
    · obtain ⟨d, -, hrun, hrec⟩ := ha.loops (d := f.dev) hfuel
      rw [if_pos (.inr hbuf), hrun]
      exact ⟨_, rfl, appends_direct hbuf hrec⟩
    · rw [if_neg (by simp [ho.mode, hbuf])]
      exact ⟨_, rfl, ha.fillLoop (Option.isSome_iff_ne_none.mpr hbuf)⟩

theorem Accepts.fputc (ha : Accepts answer) (ho : Opened f) (c : Int) :
    (fputc answer f c).1 = c ∧ Appends f [.ofInt 8 c] (fputc answer f c).2 := by
  unfold Stdio.fputc
  by_cases hbuf : f.buf = none
  · have hone : answer f.dev.calls 1 = 1 := by
      have := ha f.dev.calls 1 Nat.one_pos
      omega
    simp only [hbuf, or_true, if_true, Stdio.sysWrite, length_singleton, hone, true_and]
    exact ⟨by simp [File.output, File.pending, hbuf], rfl, rfl, by rw [hbuf]⟩
  · obtain ⟨hok, happ⟩ := ha.putByte (.ofInt 8 c) (Option.isSome_iff_ne_none.mpr hbuf)
    simp only [ho.mode, hbuf, hok, reduceCtorEq, or_self, false_and, if_false, if_true, true_and]
    exact happ

/-- The characters that `fputs` writes: those up to the first 0xFF. -/
def upToEof : List Byte → List Byte
  | [] => []
  | b :: s => if b = 0xFF#8 then [b] else b :: upToEof s

theorem upToEof_eq_iff (s : List Byte) : upToEof s = s ↔ 0xFF#8 ∉ s.dropLast := by
  induction s with
  | nil => simp [upToEof]
  | cons b s ih =>
    cases s with
    | nil => simp [upToEof]
    | cons b' s =>
      rw [upToEof, dropLast_cons_cons, mem_cons, not_or, ← ih]
      by_cases hb : b = 0xFF#8
      · simp [hb]
      · simp [hb, Ne.symm hb]

theorem Accepts.fputs (ha : Accepts answer) : ∀ {s : List Byte} {f : File}, Opened f → Appends f (upToEof s) (fputs answer f s).2 := by
  intro s
  induction s with
  | nil => exact fun {f} _ => .refl f
  | cons b s ih =>
    intro f ho
    obtain ⟨hc, happ⟩ := ha.fputc ho b.toInt
    rw [BitVec.ofInt_toInt] at happ
    simp only [Stdio.fputs, upToEof, hc]
    -- of the signed characters only 0xFF is `EOF`
    have heof : b.toInt = -1 ↔ b = 0xFF#8 := ⟨fun h => BitVec.eq_of_toInt_eq h, fun h => by subst h; rfl⟩
    by_cases hb : b = 0xFF#8
    · rw [if_pos (heof.mpr hb), if_pos hb]
      exact happ
    · rw [if_neg (mt heof.mp hb), if_neg hb]
      exact happ.trans (ih (happ.opened ho))

theorem Accepts.fclose (ha : Accepts answer) (ho : Opened f) : (fclose answer f).2.received = f.output := by
  rw [Stdio.fclose, if_pos ho.flags]
  exact (ha.bufFlush f).2.2

theorem openFlags_writable {m0 m1 : Byte} {flags : BitVec 32} (hw : Writable m0 m1) (h : openFlags m0 m1 = some flags) :
    flags &&& (1#32 ||| 2#32 ||| 0x400#32) ≠ 0#32 := by
  simp only [openFlags] at h
  rcases hw with rfl | rfl | rfl
  · split at h <;> cases h <;> decide
  · split at h <;> cases h <;> decide
  · obtain ⟨low, hlow, rfl⟩ := Option.map_eq_some_iff.mp h
    repeat' split at hlow
    all_goals cases hlow
    all_goals decide

theorem opened_fopen {m0 m1 : Byte} {hasBuf : Bool} {d : Device} (hw : Writable m0 m1) (hopen : fopen m0 m1 hasBuf d = some f) :
    Opened f ∧ f.output = d.received := by
  obtain ⟨flags, hflags, rfl⟩ := Option.map_eq_some_iff.mp hopen
  refine ⟨⟨rfl, openFlags_writable hw hflags⟩, ?_⟩
  cases hasBuf <;> simp [File.output, File.pending]

/-- What a call leaves: a stream of the same kind, to whose output `fprintf` may add out of turn. -/
theorem Accepts.step (ha : Accepts answer) (ho : Opened f) {fuel : Nat} {c : Call} (hfuel : c.bytes.length ≤ fuel) :
    (∃ f', c.step answer fuel f = some f' ∧ Opened f' ∧ (f'.output = f.output ++ c.bytes ↔ c.InOrder f)) ∨
    c.step answer fuel f = none ∧ ¬ c.InOrder f := by
  have hsome : ∀ {g : File}, Appends f c.bytes g → Opened g ∧ (g.output = f.output ++ c.bytes ↔ True) :=
    fun {g} happ => ⟨happ.opened ho, iff_of_true happ.output trivial⟩
  cases c with
  | fwrite src size =>
    obtain ⟨r, hrun, happ⟩ := ha.fwrite ho size hfuel
    exact .inl ⟨r.2, congrArg (Option.map Prod.snd) hrun, hsome happ⟩
  | fputc c => exact .inl ⟨_, rfl, hsome (ha.fputc ho c).2⟩
  | fflush => exact .inl ⟨_, rfl, hsome (ha.bufFlush f).2.1⟩
  | fputs s =>
    have happ := ha.fputs (s := s) ho
    refine .inl ⟨_, rfl, happ.opened ho, ?_⟩
    rw [Call.InOrder, ← upToEof_eq_iff, happ.output, append_right_inj, Call.bytes]
  | fprintf out =>
    rw [Call.step, Call.InOrder, vfprintf]
    by_cases hlen : 4096 < out.length
    · exact .inr ⟨by simp [hlen], fun h => absurd h.1 (Nat.not_le.mpr hlen)⟩
    · have hw : ((formatBuf out).take out.length).length ≤ fuel := Nat.le_trans (length_take_le _ _) hfuel
      obtain ⟨d, -, hrun, hrec⟩ := ha.loops (d := f.dev) hw
      refine .inl ⟨{ f with dev := d, errorFlag := f.errorFlag || false }, by rw [if_neg hlen, hrun]; rfl, ⟨ho.mode, ho.flags⟩, ?_⟩
      simp [File.output, File.pending, hrec, Call.bytes, append_assoc, Nat.not_lt.mp hlen, true_and]

end Stdio

open Stdio

/-- On a stream that `fopen` opened for writing, over a descriptor that takes at least a byte of every write, closing the stream after
any of the calls leaves the bytes of the calls in their order in the descriptor, exactly when every call meets its condition. -/
theorem stream_order_iff (answer : Nat → Nat → Int) (ha : Accepts answer) (fuel : Call → Nat)
    (hfuel : ∀ c, c.bytes.length ≤ fuel c) (m₀ m₁ : Byte) (hw : Writable m₀ m₁) (hasBuf : Bool) (d₀ : Device) (f₀ : File)
    (hopen : fopen m₀ m₁ hasBuf d₀ = some f₀) (calls : List Call) :
    (fclose answer f₀).2.received = d₀.received ∧
    (Returned (Call.record answer fuel) (fun _ _ s => (fclose answer s.1).2.received = d₀.received ++ s.2) (f₀, []) calls ↔
      Made (Call.record answer fuel) (fun s c => c.InOrder s.1) (f₀, []) calls) := by
  obtain ⟨ho, hout⟩ := opened_fopen hw hopen
  refine ⟨(ha.fclose ho).trans hout, ?_⟩
  refine Returned.iff_made (I := fun s => Stdio.Opened s.1 ∧ s.1.output = d₀.received ++ s.2) ?_ ?_ ⟨ho, by simp [hout]⟩
  · intro s c s' hI hrun hclose
    obtain ⟨f', hstep, rfl⟩ := Option.map_eq_some_iff.mp hrun
    rcases ha.step hI.1 (hfuel c) with ⟨f'', hstep', ho', -⟩ | ⟨hnone, -⟩
    · cases hstep.symm.trans hstep'
      exact ⟨ho', (ha.fclose ho').symm.trans hclose⟩
    · cases hstep.symm.trans hnone
  · intro s c hI
    rcases ha.step hI.1 (hfuel c) with ⟨f', hstep, ho', hiff⟩ | ⟨hnone, hno⟩
    · rw [← hiff, hI.2, ← ha.fclose ho']
      simp [Call.record, hstep]
    · simp [Call.record, hnone, hno]

/-- The file after `fopen(path, "w")` on an empty descriptor. -/
def newStream : File where
  dev := ⟨[], 0⟩
  buf := some []
  bufSize := 4096
  bufMode := .full
  modeFlags := 0x241#32
  errorFlag := false

/-- Text that is flushed before `fprintf` keeps its place. -/
theorem stream_order_flushed :
    Returned (Call.record (fun _ n => n) (fun c => c.bytes.length)) (fun _ _ s => (fclose (fun _ n => n) s.1).2.received = [] ++ s.2)
      (newStream, []) [.fputc 0x41, .fflush, .fprintf [0x42#8]] := by
  refine (stream_order_iff _ (fun _ _ h => ⟨Int.natCast_pos.mpr h, Int.le_refl _⟩) _ (fun _ => Nat.le_refl _) 0x77#8 0x00#8 (.inl rfl) true
    ⟨[], 0⟩ newStream rfl _).2.mpr ⟨trivial, fun s1 h1 => ⟨trivial, fun s2 h2 => ⟨?_, fun _ _ => trivial⟩⟩⟩
  cases h1
  cases h2
  exact ⟨by decide, by decide⟩

/-- `fputc` of an `A` and then `fprintf` of a `B`: the descriptor receives `BA`. -/
theorem stream_out_of_order :
    ((run (Call.record (fun _ n => n) (fun c => c.bytes.length)) (newStream, []) [.fputc 0x41, .fprintf [0x42#8]]).map
      fun s => ((fclose (fun _ n => n) s.1).2.received, s.2)) = some ([0x42#8, 0x41#8], [0x41#8, 0x42#8]) := by
  decide

/-- `fputs` of the characters 0xFF and `A` ends after the first. -/
example : (fputs (fun _ n => n) newStream [0xFF#8, 0x41#8]).2.buf = some [0xFF#8] := by
  decide

end TsOs
