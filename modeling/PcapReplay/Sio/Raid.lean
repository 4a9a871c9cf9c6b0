import PcapReplay.Fs.Addressing
import PcapReplay.Nvme.Interface

/-! The raid functions of `simpleio.c`. The read and the write version of each differ in the
command they submit and, when they stage the data, in the side on which they copy it. -/

namespace PcapReplay
open Interaction
variable {n : ℕ}

def gigaSectorNum (n : ℕ) : ℕ := superSectorNum * n

def gigaSectorLength (n : ℕ) : ℕ := superSectorLength * n

theorem gigaSectorNum_pos (n : ℕ) [NeZero n] : 0 < gigaSectorNum n :=
  Nat.mul_pos (by decide) (Nat.pos_of_neZero n)

theorem gigaSectorLength_eq (n : ℕ) : gigaSectorLength n = gigaSectorNum n * sectorLength := by
  simp only [gigaSectorLength, gigaSectorNum, superSectorLength_eq, superSectorNum_eq, sectorLength_eq]
  ring

def pollAll (raid : NvmeRaid n) : Nvme Unit := (List.finRange n).forM fun i => process (raid.ns i)

-- `none` while it has not returned
def sioWaittasks (raid : NvmeRaid n) : ℕ → Nvme (Option Unit)
  | 0 => pure none
  | rounds + 1 => do
    if ← waiting then
      pollAll raid
      sioWaittasks raid rounds
    else pure (some ())

def toBoundary (lba : UInt64) : ℕ := superSectorNum - lba.toNat % superSectorNum

theorem toBoundary_pos (lba : UInt64) : 0 < toBoundary lba :=
  Nat.sub_pos_of_lt (Nat.mod_lt _ (by decide))

theorem toBoundary_le (lba : UInt64) : toBoundary lba ≤ 256 := Nat.sub_le _ _

theorem toNat_sub_ofNat {c : UInt32} {k : ℕ} (h : k ≤ c.toNat) :
    (c - UInt32.ofNat k).toNat = c.toNat - k := by
  have hk : (UInt32.ofNat k).toNat = k :=
    UInt32.toNat_ofNat_of_lt' (Nat.lt_of_le_of_lt h (UInt32.toNat_lt c))
  rw [UInt32.toNat_sub_of_le _ _ (UInt32.le_iff_toNat_le.mpr (by omega)), hk]

variable [NeZero n]

def sioCmd (dir : Dir) (raid : NvmeRaid n) (payload : Ptr) (lba : UInt64) (lbaCount : UInt32) : Command where
  dir := dir
  ns := raid.ns (superGetdisk n lba)
  payload := payload
  lba := superGetdisklba n lba
  lbaCount := lbaCount

/-- The loop over whole supersectors: the code of the command that failed, or the payload, the
block and the count that are left. -/
def sioLoop (dir : Dir) (raid : NvmeRaid n) (k : ℕ) (payload : Ptr) (lba : UInt64) (lbaCount : UInt32) :
    Nvme (Except ℤ (Ptr × UInt64 × { c : UInt32 // c.toNat < superSectorNum })) :=
  if h : superSectorNum ≤ lbaCount.toNat then do
    let rc ← cmd (sioCmd dir raid payload lba (UInt32.ofNat superSectorNum))
    if rc ≠ 0 then pure (.error rc)
    else
      schedule
      let lbaCount' := lbaCount - UInt32.ofNat superSectorNum
      let lba := lba + UInt64.ofNat superSectorNum
      let payload := payload.add (superSectorNum * sectorLength)
      if n * 128 < k + 1 then
        pollAll raid
        sioLoop dir raid 0 payload lba lbaCount'
      else sioLoop dir raid (k + 1) payload lba lbaCount'
  else pure (.ok (payload, lba, ⟨lbaCount, by omega⟩))
termination_by lbaCount.toNat
decreasing_by
  all_goals
    rw [toNat_sub_ofNat h]
    exact Nat.sub_lt (Nat.lt_of_lt_of_le (by decide) h) (by decide)

def sioTransfer (dir : Dir) (raid : NvmeRaid n) (payload : Ptr) (lba : UInt64) (lbaCount : UInt32) :
    Nvme ℤ :=
  if _hfit : lbaCount.toNat ≤ toBoundary lba then do
    let rc ← cmd (sioCmd dir raid payload lba lbaCount)
    if rc ≠ 0 then pure rc
    else
      schedule
      pollAll raid
      pure 0
  else if _hhead : lba.toNat % superSectorNum ≠ 0 then do
    let rc ← sioTransfer dir raid payload lba (UInt32.ofNat (toBoundary lba))
    if rc ≠ 0 then pure rc
    else
      let rc ← sioTransfer dir raid (payload.add (toBoundary lba * sectorLength))
        (lba + UInt64.ofNat (toBoundary lba)) (lbaCount - UInt32.ofNat (toBoundary lba))
      if rc ≠ 0 then pure rc
      else
        pollAll raid
        pure 0
  else do
    match ← sioLoop dir raid 0 payload lba lbaCount with
    | .error rc => pure rc
    | .ok (payload, lba, rest) =>
      if rest.val ≠ 0 then
        -- the code of this call is not looked at
        let _ ← sioTransfer dir raid payload lba rest.val
      pollAll raid
      pure 0
termination_by lbaCount.toNat
decreasing_by
  · have hofNat : (UInt32.ofNat (toBoundary lba)).toNat = toBoundary lba :=
      UInt32.toNat_ofNat_of_lt' (Nat.lt_of_le_of_lt (toBoundary_le lba) (by decide))
    omega
  · have hpos := toBoundary_pos lba
    rw [toNat_sub_ofNat (by omega)]
    omega
  · have := rest.property
    unfold toBoundary at _hfit
    omega

def sioRread (raid : NvmeRaid n) : Ptr → UInt64 → UInt32 → Nvme ℤ := sioTransfer .read raid

def sioRwrite (raid : NvmeRaid n) : Ptr → UInt64 → UInt32 → Nvme ℤ := sioTransfer .write raid

/-- A chunk of `blocks` blocks through the staging buffer `mem`. In the loop over whole chunks a
code ends the call before the wait, in the tail after it. -/
def sioChunk (dir : Dir) (raid : NvmeRaid n) (rounds : ℕ) (inLoop : Bool) (mem payload : Ptr)
    (lba : UInt64) (blocks : ℕ) : Nvme (Option ℤ) := do
  if dir = .write then memcpy mem payload (blocks * sectorLength)
  let ret ← sioTransfer dir raid mem lba (UInt32.ofNat blocks)
  if inLoop ∧ ret ≠ 0 then pure (some ret)
  else
    match ← sioWaittasks raid rounds with
    | none => pure none
    | some () =>
      if dir = .read then memcpy payload mem (blocks * sectorLength)
      pure (some ret)

def sioChunks (dir : Dir) (raid : NvmeRaid n) (rounds : ℕ) (mem payload : Ptr) (lba : UInt64)
    (lbaCount : UInt32) : Nvme (Option ℤ) :=
  if _h : gigaSectorNum n ≤ lbaCount.toNat then do
    match ← sioChunk dir raid rounds true mem payload lba (gigaSectorNum n) with
    | some 0 =>
      sioChunks dir raid rounds mem (payload.add (gigaSectorLength n))
        (lba + UInt64.ofNat (gigaSectorNum n)) (lbaCount - UInt32.ofNat (gigaSectorNum n))
    | r => pure r
  else if lbaCount ≠ 0 then sioChunk dir raid rounds false mem payload lba lbaCount.toNat
  else pure (some 0)
termination_by lbaCount.toNat
decreasing_by
  rw [toNat_sub_ofNat _h]
  have := gigaSectorNum_pos n
  omega

/-- `none` after `exit`, and while a wait has not returned. -/
def sioTransferPinit (dir : Dir) (raid : NvmeRaid n) (rounds : ℕ) (payload : Ptr) (lba : UInt64)
    (lbaCount : UInt32) : Nvme (Option ℤ) := do
  match ← spdkMalloc (gigaSectorLength n) with
  | none => pure none
  | some mem => sioChunks dir raid rounds ⟨mem, 0⟩ payload lba lbaCount

def sioRreadPinit (raid : NvmeRaid n) : ℕ → Ptr → UInt64 → UInt32 → Nvme (Option ℤ) :=
  sioTransferPinit .read raid

def sioRwritePinit (raid : NvmeRaid n) : ℕ → Ptr → UInt64 → UInt32 → Nvme (Option ℤ) :=
  sioTransferPinit .write raid

section chunk
variable {σ : Type} {step : (o : Op) → σ → Ans o → σ → Prop} {raid : NvmeRaid n} {rounds : ℕ} {inLoop : Bool}
  {mem payload : Ptr} {lba : UInt64} {blocks : ℕ} {s s' : σ} {r : Option ℤ}

theorem exec_sioChunk_write
    (h : Prog.Exec step (sioChunk .write raid rounds inLoop mem payload lba blocks) s r s') :
    ∃ s₁ ret s₂, Prog.Exec step (memcpy mem payload (blocks * sectorLength)) s () s₁ ∧
      Prog.Exec step (sioTransfer .write raid mem lba (UInt32.ofNat blocks)) s₁ ret s₂ ∧
      (ret = 0 → ∃ done, Prog.Exec step (sioWaittasks raid rounds) s₂ done s' ∧ r = done.map fun _ => 0) := by
  unfold sioChunk at h
  simp only [if_true, reduceCtorEq, if_false] at h
  obtain ⟨_, s₁, hcopy, h⟩ := Prog.exec_bind.mp h
  obtain ⟨ret, s₂, htransfer, h⟩ := Prog.exec_bind.mp h
  refine ⟨s₁, ret, s₂, hcopy, htransfer, fun hret => ?_⟩
  rw [hret, if_neg (by simp)] at h
  obtain ⟨done, s₃, hwait, h⟩ := Prog.exec_bind.mp h
  cases done with
  | none =>
    obtain ⟨rfl, rfl⟩ := Prog.exec_pure.mp h
    exact ⟨none, hwait, rfl⟩
  | some _ =>
    obtain ⟨rfl, rfl⟩ := Prog.exec_pure.mp h
    exact ⟨some (), hwait, rfl⟩

theorem exec_sioChunk_read
    (h : Prog.Exec step (sioChunk .read raid rounds inLoop mem payload lba blocks) s r s') :
    ∃ ret s₁, Prog.Exec step (sioTransfer .read raid mem lba (UInt32.ofNat blocks)) s ret s₁ ∧
      (ret = 0 → ∃ done s₂, Prog.Exec step (sioWaittasks raid rounds) s₁ done s₂ ∧
        r = (done.map fun _ => 0) ∧ ∀ u, done = some u →
          Prog.Exec step (memcpy payload mem (blocks * sectorLength)) s₂ () s') := by
  unfold sioChunk at h
  simp only [if_true, reduceCtorEq, if_false] at h
  obtain ⟨ret, s₁, htransfer, h⟩ := Prog.exec_bind.mp h
  refine ⟨ret, s₁, htransfer, fun hret => ?_⟩
  rw [hret, if_neg (by simp)] at h
  obtain ⟨done, s₂, hwait, h⟩ := Prog.exec_bind.mp h
  cases done with
  | none =>
    obtain ⟨rfl, _⟩ := Prog.exec_pure.mp h
    exact ⟨none, s₂, hwait, rfl, fun _ hnone => absurd hnone (by simp)⟩
  | some _ =>
    obtain ⟨_, s₃, hcopy, h⟩ := Prog.exec_bind.mp h
    obtain ⟨rfl, rfl⟩ := Prog.exec_pure.mp h
    exact ⟨some (), s₂, hwait, rfl, fun _ _ => hcopy⟩

end chunk

end PcapReplay
