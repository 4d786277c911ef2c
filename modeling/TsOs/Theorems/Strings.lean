import TsOs.Strings

/-!
# What the string functions write

`strncpy` writes `n` bytes unless it meets the end of the source before. `strtok` gives the words of the string.
-/

namespace TsOs

open List Words

namespace StringsAux

/-! ## `strncpy` -/

theorem strncpyPad_eq (n d : Nat) : strncpyPad n d = (range' d n).map fun i => (i, 0#8) := by
  induction n generalizing d with
  | zero => rfl
  | succ n ih => simp [strncpyPad, ih, range'_succ]

variable {src : Nat → BitVec 8}

/-- Without a NUL in its way the first loop copies all the bytes. -/
theorem strncpyCopy_long {n i : Nat} (h : ∀ j, i ≤ j → j < i + n → src j ≠ 0#8) :
    strncpyCopy src n i = ((range' i n).map fun j => (j, src j), 0, i + n) := by
  induction n generalizing i with
  | zero => rfl
  | succ n ih =>
    rw [strncpyCopy, if_neg (h i (by omega) (by omega)), ih fun j hj hlt => h j (by omega) (by omega)]
    simp [range'_succ]
    omega

/-- At a NUL it has written one byte more than it has counted. -/
theorem strncpyCopy_short {n i k : Nat} (hk : k < n) (hnul : src (i + k) = 0#8) (h : ∀ j, i ≤ j → j < i + k → src j ≠ 0#8) :
    strncpyCopy src n i = ((range' i (k + 1)).map fun j => (j, src j), n - k, i + k + 1) := by
  induction k generalizing n i with
  | zero =>
    obtain ⟨n, rfl⟩ := Nat.exists_eq_add_one_of_ne_zero (Nat.ne_of_gt hk)
    simp only [Nat.add_zero] at hnul
    simp [strncpyCopy, hnul]
  | succ k ih =>
    obtain ⟨n, rfl⟩ := Nat.exists_eq_add_one_of_ne_zero (Nat.ne_of_gt (Nat.zero_lt_of_lt hk))
    rw [strncpyCopy, if_neg (h i (by omega) (by omega)),
      ih (by omega) (by rwa [Nat.add_assoc, Nat.add_comm 1 k]) fun j hj hlt => h j (by omega) (by omega)]
    simp [range'_succ]
    omega

end StringsAux

open StringsAux

/-- `strncpy` writes `dest[0]` to `dest[n - 1]` and no other byte if and only if the `len` bytes of the source before its NUL are `n`
at least. The bytes are those of the source, and 0 from its NUL on. -/
theorem strncpy_exact_iff (src : Nat → BitVec 8) (n len : Nat) (hnul : src len = 0#8) (hlen : ∀ i < len, src i ≠ 0#8) :
    strncpy src n = (range n).map (fun i => (i, if i < len then src i else 0#8)) ↔ n ≤ len := by
  simp only [strncpy, strncpyPad_eq]
  refine ⟨fun h => ?_, fun h => ?_⟩
  · by_contra hlt
    rw [strncpyCopy_short (k := len) (by omega) (by simpa) fun j _ hj => hlen j (by omega)] at h
    have hwritten := congrArg length h
    simp at hwritten
    omega
  · rw [strncpyCopy_long fun j _ hj => hlen j (by omega), range_eq_range']
    simp only [range'_zero, map_nil, append_nil]
    refine map_congr_left fun i hi => ?_
    rw [if_pos (by simp at hi; omega)]

theorem strncpy_exact_cut : strncpy (fun i => if i < 3 then 97#8 else 0#8) 2 = [(0, 97#8), (1, 97#8)] :=
  (strncpy_exact_iff _ 2 3 rfl (by simp)).2 (by decide)

/-- The empty string, copied into one byte, is written into two. -/
theorem strncpy_past : ¬ ∀ w ∈ strncpy (fun _ => 0#8) 1, w.1 < 1 := by
  decide

/-! ## `strtok` -/

/-- `l'` is `l` with a NUL in place of some of the delimiters that follow a byte of a token. -/
inductive Cut (delim : List (BitVec 8)) : List (BitVec 8) → List (BitVec 8) → Prop
  | nil : Cut delim [] []
  | keep {l l' : List (BitVec 8)} (c : BitVec 8) : Cut delim l l' → Cut delim (c :: l) (c :: l')
  | cut {l l' : List (BitVec 8)} {c d : BitVec 8} : c ∉ delim → d ∈ delim → Cut delim l l' →
    Cut delim (c :: d :: l) (c :: 0#8 :: l')

variable {delim l l' : List (BitVec 8)}

theorem Cut.append (h : Cut delim l l') (a : List (BitVec 8)) : Cut delim (a ++ l) (a ++ l') := by
  induction a with
  | nil => exact h
  | cons c a ih => exact ih.keep c

theorem Cut.token (h : Cut delim l l') {x d : BitVec 8} {w : List (BitVec 8)} (hw : ∀ c ∈ x :: w, c ∉ delim) (hd : d ∈ delim) :
    Cut delim (x :: w ++ d :: l) (x :: w ++ 0#8 :: l') := by
  induction w generalizing x with
  | nil => exact .cut (hw x mem_cons_self) hd h
  | cons y w ih => exact (ih fun c hc => hw c (mem_cons_of_mem _ hc)).keep x

namespace StringsAux

/-- A string ends with its buffer or at a NUL. -/
theorem cstr_append (buf : List (BitVec 8)) {r : List (BitVec 8)} (h : 0#8 ∉ l) (hr : ∀ c ∈ r.head?, c = 0#8) :
    cstr (buf ++ (l ++ r)) buf.length = l := by
  have hl : ∀ c ∈ l, decide (c ≠ 0#8) = true := by
    intro c hc
    simpa using ne_of_mem_of_not_mem hc h
  rw [cstr, drop_left, takeWhile_append_of_pos hl]
  cases r <;> simp_all

/-- The calls on the rest `l` of the string, behind what was already taken. -/
theorem strtokAll_spec (delim : List (BitVec 8)) {fuel : Nat} (buf : List (BitVec 8)) (hl : 0#8 ∉ l) (hfuel : l.length < fuel) :
    ∃ s tokens l', strtokAll delim fuel ⟨buf ++ l, some buf.length⟩ none = some (s, tokens) ∧ s.buf = buf ++ l' ∧
      Cut delim l l' ∧ tokens.map (cstr s.buf) = words delim.contains l := by
  induction fuel generalizing buf l with
  | zero => omega
  | succ fuel ih =>
    -- the delimiters before the token, and the token with what is behind it
    obtain ⟨d, t, rfl, hd, -, hskip, hx⟩ := exists_span delim.contains l
    have hp : cstr (buf ++ (d ++ t)) buf.length = d ++ t := by
      simpa using cstr_append buf (r := []) hl (by simp)
    have htoken : cstr (buf ++ (d ++ t)) (buf.length + d.length) = t := by
      have := cstr_append (buf ++ d) (r := []) (fun h => hl (mem_append_right d h)) (by simp)
      simpa using this
    rw [strtokAll, strtok, words_seps hskip]
    simp only [Option.none_or, hp, ← hd, htoken]
    cases t with
    | nil =>
      exact ⟨⟨buf ++ d, some (buf.length + d.length)⟩, [], d, by simp, rfl, by simpa using Cut.nil.append d, by simp⟩
    | cons x t =>
      simp only [head?_cons, Option.mem_some_iff, forall_eq'] at hx
      obtain ⟨w, r, rfl, hw, hr, hrun, hy⟩ := exists_span (!delim.contains ·) t
      rw [words_run hx, ← hw, ← hr]
      have hstop : cstr (buf ++ (d ++ x :: (w ++ r))) (buf.length + d.length + (w.length + 1)) = r := by
        have := cstr_append (buf ++ d ++ x :: w) (l := r) (r := []) (fun h => hl (by simp [h])) (by simp)
        simpa [Nat.add_assoc] using this
      simp only [takeWhile_cons, hx, ← hw, Bool.not_false, if_true, length_cons, hstop]
      have hnul : 0#8 ∉ x :: w := fun h => hl (by simp at h ⊢; tauto)
      cases r with
      | nil =>
        obtain ⟨s, tokens, l', hall, hbuf, hcut, hmap⟩ := ih (l := []) (buf ++ (d ++ x :: w)) (by simp) (by simp at hfuel ⊢; omega)
        cases hcut
        have htok : cstr s.buf (buf.length + d.length) = x :: w := by
          have := cstr_append (buf ++ d) (r := []) hnul (by simp)
          simpa [hbuf] using this
        refine ⟨s, (buf.length + d.length) :: tokens, d ++ x :: w, ?_, by simp [hbuf], ?_, by simp [htok, hmap]⟩
        · simp only [append_nil, length_append, length_cons, ← Nat.add_assoc] at hall ⊢
          simp [hall]
        · simpa using Cut.nil.append (d ++ x :: w)
      | cons y r =>
        have hy : y ∈ delim := by simpa using hy
        obtain ⟨s, tokens, l', hall, hbuf, hcut, hmap⟩ := ih (l := r) (buf ++ (d ++ x :: (w ++ [0#8])))
          (fun h => hl (by simp [h])) (by simp at hfuel ⊢; omega)
        have htok : cstr s.buf (buf.length + d.length) = x :: w := by
          have := cstr_append (buf ++ d) (r := 0#8 :: l') hnul (by simp)
          simpa [hbuf] using this
        have hset : (buf ++ (d ++ x :: (w ++ y :: r))).set (buf.length + d.length + (w.length + 1)) 0#8 =
            buf ++ (d ++ x :: (w ++ [0#8])) ++ r := by
          simp [Nat.add_assoc]
        refine ⟨s, (buf.length + d.length) :: tokens, d ++ x :: (w ++ 0#8 :: l'), ?_, by simp [hbuf], ?_, ?_⟩
        · have hend : (buf ++ (d ++ x :: (w ++ [0#8]))).length = buf.length + d.length + (w.length + 1) + 1 := by
            simp [Nat.add_assoc]
          rw [hend] at hall
          simp only [reduceCtorEq, if_false, hset, hall, Option.map_some]
        · exact (hcut.token (by simpa using And.intro (by simpa using hx) hrun) hy).append d
        · simp [htok, hmap, words_sep, hy]

end StringsAux

/-- The calls of `strtok` on a string, until one returns `NULL`, give the maximal runs of bytes that are no delimiters, in order.
Only delimiters right behind a token are changed. -/
theorem strtok_words (delim str : List (BitVec 8)) (saveptr : Option Nat) (hstr : 0#8 ∉ str) :
    ∃ s tokens, strtokAll delim (str.length + 1) ⟨str, saveptr⟩ (some 0) = some (s, tokens) ∧
      tokens.map (cstr s.buf) = words delim.contains str ∧ Cut delim str s.buf := by
  obtain ⟨s, tokens, l', hall, hbuf, hcut, hwords⟩ :=
    strtokAll_spec delim [] hstr (Nat.lt_succ_self str.length)
  rw [nil_append] at hbuf
  exact ⟨s, tokens, hall, hwords, hbuf ▸ hcut⟩

theorem strtok_words_comma : ∃ s tokens, strtokAll [44#8] 5 ⟨[44#8, 97#8, 44#8, 98#8], none⟩ (some 0) = some (s, tokens) ∧
    tokens.map (cstr s.buf) = [[97#8], [98#8]] ∧ Cut [44#8] [44#8, 97#8, 44#8, 98#8] s.buf :=
  strtok_words [44#8] [44#8, 97#8, 44#8, 98#8] none (by decide)

end TsOs
