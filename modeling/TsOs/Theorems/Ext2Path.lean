import TsOs.Ext2Path

/-!
# Splitting and resolving

The split of a path looks for its last slash and the resolution takes components from the left; they agree on which file is meant.
-/

namespace TsOs

open List

namespace Ext2PathAux

variable {f : Nat → Path → Nat} {cur : Nat} {p name : Path}

theorem resolveFrom_cons_slash : resolveFrom f cur (slash :: p) = resolveFrom f cur p := by
  rw [resolveFrom, if_neg (cons_ne_nil _ _), if_pos (by simp [component]), drop_one, tail_cons]

theorem ext2ResolvePath_eq (p : Path) : ext2ResolvePath true f p = resolveFrom f 2 p := by
  induction p with
  | nil => simp [ext2ResolvePath, resolveFrom]
  | cons c p ih =>
    by_cases hc : c = slash
    · rw [hc, resolveFrom_cons_slash, ← ih]
      simp [ext2ResolvePath]
    · simp [ext2ResolvePath, hc]

theorem component_append (p name : Path) : component (p ++ slash :: name) = component p := by
  rw [component, component]
  congr 1
  induction p with
  | nil => simp
  | cons c p ih => rw [cons_append, takeWhile_cons, takeWhile_cons, ih]

section Name

variable (hs : slash ∉ name)
include hs

theorem lastSlash_eq (i : Nat) (last : Option Nat) : lastSlash i last name = last := by
  induction name generalizing i with
  | nil => rfl
  | cons c name ih =>
    rw [mem_cons, not_or] at hs
    rw [lastSlash, if_neg (Ne.symm hs.1), ih hs.2]

theorem lastSlash_append (i : Nat) (last : Option Nat) : lastSlash i last (p ++ slash :: name) = some (i + p.length) := by
  induction p generalizing i last with
  | nil => simp [lastSlash, lastSlash_eq hs]
  | cons c p ih => rw [cons_append, lastSlash, ih, length_cons, Nat.add_right_comm, Nat.add_assoc]

variable (hlen : name.length < ext2MaxPath) (hname : name ≠ [])
include hlen hname

theorem resolveFrom_name : resolveFrom f cur name = f cur name := by
  have hcomp : component name = name := by
    rw [component, takeWhile_eq_self_iff.mpr fun c hc => by simpa using ne_of_mem_of_not_mem hc hs, take_of_length_le (by omega)]
  rw [resolveFrom, if_neg hname, hcomp, if_neg hname]
  simp +contextual [skipSlash, resolveFrom, eq_comm]

/-- The last name of a path is looked up in what the rest resolves to. -/
theorem resolveFrom_append (hcur : cur ≠ 0) :
    resolveFrom f cur (p ++ slash :: name) = if resolveFrom f cur p = 0 then 0 else f (resolveFrom f cur p) name := by
  fun_induction resolveFrom f cur p with
  | case1 cur => rw [nil_append, resolveFrom_cons_slash, resolveFrom_name hs hlen hname, if_neg hcur]
  | case2 cur p hp hcomp ih =>
    rw [resolveFrom, component_append, if_neg (by simp), if_pos hcomp, drop_append_of_le_length (length_pos_of_ne_nil hp), ih hcur]
  | case3 cur p hp hcomp found hfound =>
    rw [resolveFrom, component_append, if_neg (by simp), if_neg hcomp]
    simp [found, hfound]
  | case4 cur p hp hcomp found hfound ih =>
    have hle : (component p).length ≤ p.length := by
      rw [component, length_take]
      exact (Nat.min_le_right _ _).trans (takeWhile_sublist _).length_le
    rw [resolveFrom, component_append, if_neg (by simp), if_neg hcomp, drop_append_of_le_length hle, ← ih hfound]
    refine (if_neg hfound).trans ?_
    cases p.drop (component p).length with
    | nil => simp [skipSlash, resolveFrom_cons_slash, found]
    | cons c rest =>
      rw [cons_append, skipSlash, skipSlash]
      split <;> simp_all [found]

end Name

end Ext2PathAux

open Ext2PathAux

/-- A path resolves to what its name is in the directory that its parent resolves to. -/
theorem ext2_split_resolve (mounted : Bool) (ext2DirLookup : Nat → Path → Nat) (path : Path) (hlen : path.length < ext2MaxPath)
    (hname : (ext2SplitPath path).2 ≠ []) :
    ext2ResolvePath mounted ext2DirLookup path =
      if ext2ResolvePath mounted ext2DirLookup (ext2SplitPath path).1 = 0 then 0
      else ext2DirLookup (ext2ResolvePath mounted ext2DirLookup (ext2SplitPath path).1) (ext2SplitPath path).2 := by
  cases mounted with
  | false => simp [ext2ResolvePath]
  | true =>
    rw [ext2ResolvePath_eq, ext2ResolvePath_eq]
    by_cases hmem : slash ∈ path
    · obtain ⟨s, t, hst, hs⟩ := eq_append_cons_of_mem (mem_reverse.mpr hmem)
      obtain ⟨p, name, rfl, hs⟩ : ∃ p name, path = p ++ slash :: name ∧ slash ∉ name :=
        ⟨t.reverse, s.reverse, by simpa using congrArg reverse hst, by simpa using hs⟩
      have hsplit : ext2SplitPath (p ++ slash :: name) = (if p = [] then [slash] else p, name) := by
        rw [ext2SplitPath, lastSlash_append hs]
        cases p with
        | nil => simp
        | cons c p => simp
      have hparent : resolveFrom ext2DirLookup 2 (if p = [] then [slash] else p) = resolveFrom ext2DirLookup 2 p := by
        split
        · rw [resolveFrom_cons_slash, ‹p = []›]
        · rfl
      rw [hsplit] at hname ⊢
      rw [hparent, resolveFrom_append hs (by simp at hlen; omega) hname (by decide)]
    · have hsplit : ext2SplitPath path = ([slash], path) := by rw [ext2SplitPath, lastSlash_eq hmem]
      rw [hsplit] at hname ⊢
      rw [resolveFrom_name hmem hlen hname, resolveFrom_cons_slash, resolveFrom, if_pos rfl]
      rfl

/-- The path `a//b`. -/
theorem ext2_split_resolve_nested : ext2SplitPath [97#8, 47#8, 47#8, 98#8] = ([97#8, 47#8], [98#8]) ∧
    ∀ f, ext2ResolvePath true f [97#8, 47#8, 47#8, 98#8] =
      if ext2ResolvePath true f [97#8, 47#8] = 0 then 0 else f (ext2ResolvePath true f [97#8, 47#8]) [98#8] :=
  ⟨by decide, fun f => ext2_split_resolve true f _ (by decide) (by decide)⟩

end TsOs
