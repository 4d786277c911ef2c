import TsOs.Lemmas.Ext2

/-!
# What mounting establishes

A successful `ext2_mount` leaves the geometry that its superblock gives.
-/

namespace TsOs

open Bytes StateProg Ext2Aux Ext2SimAux List BitVec Triple

/-- The geometry in memory is the one `ext2_mount` computes from the superblock. -/
structure Mounted (fs : Ext2Fs) : Prop where
  mounted : fs.mounted = true
  geometry : fs.withSb fs.sb = fs

namespace Ext2MountAux

variable {σ : Type} (dev : BlockDev σ)

/-- Reading a block changes nothing in memory. -/
theorem readBlockRaw_fs (P : Ext2Fs → Prop) (devId : BitVec 8) (b : Nat) (buf : Block) :
    Triple (fun m => P m.fs) (ext2ReadBlockRaw dev devId b buf) (fun _ m => P m.fs) := by
  have hread : ∀ k, Triple (fun m => P m.fs) (readSector dev k) (fun _ m => P m.fs) := fun _ _ h => h
  refine (hread _).bind fun lo => ?_
  cases lo with
  | none => exact pure fun _ h => h
  | some lo =>
    refine (hread _).bind fun hi => ?_
    cases hi with
    | none => exact pure fun _ h => h
    | some hi => exact pure fun _ h => h

theorem getFs_fs (P : Ext2Fs → Prop) : Triple (fun m : Ext2 σ => P m.fs) getFs (fun _ m => P m.fs) := fun _ h => h

theorem stackBuf_fs (P : Ext2Fs → Prop) : Triple (fun m : Ext2 σ => P m.fs) stackBuf (fun _ m => P m.fs) := fun _ h => h

/-- Reading the descriptors changes nothing else in memory. -/
theorem readDescs_geometry (devId : BitVec 8) (gdBytes blockSize : Nat) (bs : List Nat) :
    Triple (fun m => m.fs.withSb m.fs.sb = m.fs) (readDescs dev devId gdBytes blockSize bs)
      (fun _ m => m.fs.withSb m.fs.sb = m.fs) := by
  induction bs with
  | nil => exact pure fun _ h => h
  | cons b bs ih =>
    refine (stackBuf_fs fun fs => fs.withSb fs.sb = fs).bind fun buf =>
      (readBlockRaw_fs dev (fun fs => fs.withSb fs.sb = fs) devId (2 + b) buf).bind fun r => ?_
    refine ite (fun _ => pure fun _ h => h) fun _ => ?_
    refine bind (fun m h => ?_) fun _ => ih
    let chunk := min (gdBytes - b * blockSize) blockSize
    exact congrArg (fun fs : Ext2Fs => { fs with gd := splice m.fs.gd (b * blockSize) (view r.2) chunk }) h

end Ext2MountAux

open Ext2MountAux in
/-- A successful `ext2_mount` leaves the file system mounted, with the geometry of its superblock. -/
theorem ext2Mount_mounted {σ : Type} (dev : BlockDev σ) (devId : BitVec 8) (mem : Bool) :
    Triple (fun _ => True) (ext2Mount dev devId mem) (fun st m => st = .ok → Mounted m.fs) := by
  have hfail : ∀ {P : Ext2 σ → Prop} {st : Ext2Status}, st ≠ .ok →
      Triple P (pure st) (fun st m => st = .ok → Mounted m.fs) := fun hst _ _ h => absurd h hst
  refine (getFs_fs fun _ => True).bind fun _ => ite (fun _ => hfail (by decide)) fun _ => ?_
  refine bind (R := fun _ _ => True) (fun _ _ => trivial) fun _ => (stackBuf_fs fun _ => True).bind fun _ =>
    (readBlockRaw_fs dev (fun _ => True) _ _ _).bind fun r => ?_
  refine ite (fun h => hfail h) fun _ => ite (fun _ => hfail (by decide)) fun _ =>
    ite (fun _ => hfail (by decide)) fun _ => ite (fun _ => hfail (by decide)) fun _ => ?_
  refine bind (R := fun _ m => m.fs.withSb m.fs.sb = m.fs) (fun _ _ => rfl) fun _ =>
    (getFs_fs fun fs => fs.withSb fs.sb = fs).bind fun _ => ite (fun _ => hfail (by decide)) fun _ =>
      (readDescs_geometry dev _ _ _ _).bind fun st => ?_
  refine ite (fun h => hfail h) fun _ => bind (R := fun _ m => Mounted m.fs) (fun m h => ?_) fun _ =>
    pure fun _ h _ => h
  exact ⟨rfl, congrArg (fun fs => { fs with mounted := true }) h⟩

end TsOs
