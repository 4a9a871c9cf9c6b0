import PcapReplay.Fs.Table

/-! `cp --from-sys --to-raid` up to the point where it starts to copy. -/

namespace PcapReplay
open Interaction
variable {n : ℕ}

def originBlocks (originSize : UInt64) : UInt64 :=
  if originSize % UInt64.ofNat sectorLength ≠ 0 then originSize / UInt64.ofNat sectorLength + 1
  else originSize / UInt64.ofNat sectorLength

def fileSize (f : MetaFile) : UInt64 := (f.endBlock - f.startBlock) * UInt64.ofNat sectorLength

inductive Target (n : ℕ) where
  -- `app_run` has returned
  | stop
  -- `raid_file`, which is NULL where `addFile` has refused
  | file (s : Option (Slot n))

def copyTarget [NeZero n] (raid : NvmeRaid n) (toRaid : Name) (originSize : UInt64) (fpcap : Bool) :
    Nvme (Target n × NvmeRaid n) :=
  match findFile raid toRaid with
  | some s =>
    if fileSize (raid.file s) < originSize then pure (.stop, raid)
    else if fpcap then pure (.stop, raid)
    else do
      let f := raid.file s
      let raid' := raid.setFile s { f with endBlock := f.startBlock + originBlocks originSize }
      updateRaid raid'
      pure (.file (some s), raid')
  | none => do
    let r ← addFile raid toRaid (originBlocks originSize)
    pure (.file r.1, r.2)

def tableShrink (raid : NvmeRaid n) (s : Slot n) (originSize : UInt64) : NvmeRaid n :=
  raid.setFile s
    { raid.file s with endBlock := (raid.file s).startBlock + originBlocks originSize }

theorem mod_sectorLength_ne {o : UInt64} : o % UInt64.ofNat sectorLength ≠ 0 ↔ o.toNat % 512 ≠ 0 := by
  have hmod : (o % UInt64.ofNat sectorLength).toNat = o.toNat % 512 := by simp
  rw [Ne, ← UInt64.toNat_inj, hmod, UInt64.toNat_zero]

theorem originBlocks_toNat (o : UInt64) : (originBlocks o).toNat = (o.toNat + 511) / 512 := by
  have ho := o.toNat_lt
  have hdiv : (o / UInt64.ofNat sectorLength).toNat = o.toNat / 512 := by simp
  unfold originBlocks
  split_ifs with h
  · rw [mod_sectorLength_ne] at h
    rw [UInt64.toNat_add, hdiv, UInt64.toNat_one]
    omega
  · rw [mod_sectorLength_ne] at h
    rw [hdiv]
    omega

theorem originBlocks_le {f : MetaFile} {o : UInt64}
    (hf : f.startBlock.toNat ≤ f.endBlock.toNat) (ho : o ≤ fileSize f) :
    f.startBlock.toNat + (originBlocks o).toNat ≤ f.endBlock.toNat := by
  have hsize : (fileSize f).toNat ≤ (f.endBlock.toNat - f.startBlock.toNat) * 512 := by
    rw [fileSize, UInt64.toNat_mul, UInt64.toNat_sub_of_le _ _ (UInt64.le_iff_toNat_le.mpr hf)]
    exact Nat.mod_le _ _
  have hle := UInt64.le_iff_toNat_le.mp ho
  rw [originBlocks_toNat]
  omega

variable [NeZero n]

theorem copyTarget_eq (raid : NvmeRaid n) (toRaid : Name) (originSize : UInt64) (fpcap : Bool) :
    copyTarget raid toRaid originSize fpcap = pure (.stop, raid) ∨
      (∃ s, (copyTarget raid toRaid originSize fpcap = do
          updateRaid (tableShrink raid s originSize)
          pure (.file (some s), tableShrink raid s originSize)) ∧
        findFile raid toRaid = some s ∧ originSize ≤ fileSize (raid.file s) ∧ fpcap = false) ∨
      ((copyTarget raid toRaid originSize fpcap = do
          let r ← addFile raid toRaid (originBlocks originSize)
          pure (.file r.1, r.2)) ∧ findFile raid toRaid = none) := by
  unfold copyTarget
  cases hs : findFile raid toRaid with
  | some s =>
    simp only
    split_ifs with h₁ h₂
    · exact Or.inl rfl
    · exact Or.inl rfl
    · exact Or.inr (Or.inl ⟨s, rfl, rfl, UInt64.not_lt.mp h₁, by simpa using h₂⟩)
  | none => exact Or.inr (Or.inr ⟨rfl, rfl⟩)

theorem copyTarget_cases {raid raid' : NvmeRaid n} {toRaid : Name} {originSize : UInt64}
    {fpcap : Bool} {t : Target n} (h : (copyTarget raid toRaid originSize fpcap).Returns (t, raid')) :
    (t = .stop ∧ raid' = raid) ∨
      (∃ s, t = .file (some s) ∧ raid' = tableShrink raid s originSize ∧
        findFile raid toRaid = some s ∧ originSize ≤ fileSize (raid.file s)) ∨
      ∃ r, t = .file r ∧ (addFile raid toRaid (originBlocks originSize)).Returns (r, raid') := by
  rcases copyTarget_eq raid toRaid originSize fpcap with heq | ⟨s, heq, hs, ho, _⟩ | ⟨heq, _⟩
  · rw [heq] at h
    exact Or.inl (Prod.mk.inj (Prog.returns_pure.mp h))
  · rw [heq, Prog.returns_bind_const, Prog.returns_pure, Prod.mk.injEq] at h
    exact Or.inr (Or.inl ⟨s, h.1, h.2, hs, ho⟩)
  · rw [heq] at h
    obtain ⟨⟨r, raid₁⟩, h₁, h₂⟩ := Prog.returns_bind.mp h
    obtain ⟨rfl, rfl⟩ := Prod.mk.inj (Prog.returns_pure.mp h₂)
    exact Or.inr (Or.inr ⟨r, rfl, h₁⟩)

end PcapReplay
