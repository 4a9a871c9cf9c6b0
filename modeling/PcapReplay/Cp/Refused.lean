import PcapReplay.Cp.Copy
import PcapReplay.Fs.Persist
import PcapReplay.Spcap.Import

/-! `cp --from-sys --to-raid` with and without `--nscap`, and the copies that cannot proceed. -/

namespace PcapReplay
open Interaction Prog
variable {n : ℕ} [NeZero n]

inductive Stop where
  -- a missing file entry or buffer was used, or `copyBlocks` has not returned
  | broken
  -- `exit`
  | exited

/-- `cp --from-sys --to-raid`: the raid it leaves, and the `sio_write` calls of the capture writer.
`zmalloc i` says whether the `i`th buffer of `initSpcap` is granted, and `capture` is what `pcap_next`
returns, if the file opens as a capture. -/
def copyInto (raid : NvmeRaid n) (rounds : ℕ) (fpcap : Bool) (zmalloc : ℕ → Bool) (toRaid : Name) (map : Ptr)
    (originSize : UInt64) (capture : Option (List Packet)) :
    Nvme (Except Stop (NvmeRaid n × List (SuperWrite n))) := do
  let (target, raid) ← copyTarget raid toRaid originSize fpcap
  match target with
  | .stop => pure (.ok (raid, []))
  | .file raidFile =>
    if fpcap then
      -- `raid_file->endBlock` is set whether or not there is a file
      match raidFile, capture with
      | none, _ => pure (.error .broken)
      | some _, none => pure (.error .exited)
      | some s, some pkts =>
        match importPcap zmalloc (raid.file s) pkts with
        | none => pure (.error .broken)
        | some sp => do
          let raid := raid.setFile s sp.file
          updateRaid raid
          pure (.ok (raid, sp.wrote))
    else
      match ← copyBlocks raid rounds raidFile map originSize with
      | none => pure (.error .broken)
      | some () => pure (.ok (raid, []))

theorem copyInto_regular (raid : NvmeRaid n) (rounds : ℕ) (zmalloc : ℕ → Bool) (toRaid : Name) (map : Ptr)
    (originSize : UInt64) (capture : Option (List Packet)) :
    copyInto raid rounds false zmalloc toRaid map originSize capture =
      copyIn raid rounds toRaid map originSize >>= fun r =>
        match r with
        | none => pure (.error .broken)
        | some raid => pure (.ok (raid, [])) := by
  unfold copyInto copyIn
  rw [bind_assoc]
  congr 1
  funext p
  obtain ⟨target, raid'⟩ := p
  cases target with
  | stop => rfl
  | file raidFile =>
    simp only [Bool.false_eq_true, if_false, bind_assoc]
    congr 1
    funext r
    cases r <;> rfl

inductive CopyRefused (raid : NvmeRaid n) (zmalloc : ℕ → Bool) (toRaid : Name) (originSize : UInt64) :
    Bool → Prop
  | entry {fpcap : Bool} {raid' : NvmeRaid n} (hnew : findFile raid toRaid = none)
      (h : (addFile raid toRaid (originBlocks originSize)).Returns (none, raid')) :
      CopyRefused raid zmalloc toRaid originSize fpcap
  | buffers {raid' : NvmeRaid n} {s : Slot n} (hnew : findFile raid toRaid = none)
      (h : (addFile raid toRaid (originBlocks originSize)).Returns (some s, raid'))
      (hinit : (initSpcap zmalloc { raid'.file s with endBlock := (raid'.file s).startBlock } :
        ℤ × Spcap n).1 ≠ 0) : CopyRefused raid zmalloc toRaid originSize true

/-- Whatever the machine answers, the command uses no missing entry or buffer and submits no data write,
and the disks keep the table. -/
structure LeavesRaid (raid : NvmeRaid n) (p : Nvme (Except Stop (NvmeRaid n × List (SuperWrite n)))) :
    Prop where
  ends : Ensures (fun o => ∀ c, o ≠ .cmd c) (fun r => r ≠ .error .broken ∧ ∀ q, r = .ok q → q.2 = []) p
  metadata : ∀ (out : Fin n → WriteOutcome) media, Synced raid media → Synced raid (callOn out media p).2

section refused
variable {raid raid' : NvmeRaid n} {rounds : ℕ} {fpcap : Bool} {zmalloc : ℕ → Bool} {toRaid : Name}
  {map : Ptr} {originSize : UInt64} {capture : Option (List Packet)} {s : Slot n}

theorem addFile_refused {blsize : UInt64} (h : (addFile raid toRaid blsize).Returns (none, raid')) :
    addFile raid toRaid blsize = pure (none, raid) := by
  rcases addFile_eq raid toRaid blsize with ⟨heq, _⟩ | ⟨s, heq, _⟩
  · exact heq
  · rw [heq, returns_bind_const, returns_pure] at h
    exact absurd (congrArg Prod.fst h) (by simp)

theorem copyTarget_new (hnew : findFile raid toRaid = none) :
    copyTarget raid toRaid originSize fpcap =
      addFile raid toRaid (originBlocks originSize) >>= fun r => pure (.file r.1, r.2) := by
  unfold copyTarget
  simp only [hnew]

theorem copyInto_of_entry (hnew : findFile raid toRaid = none)
    (h : (addFile raid toRaid (originBlocks originSize)).Returns (none, raid')) :
    copyInto raid rounds fpcap zmalloc toRaid map originSize capture =
      if fpcap then pure (.error .broken)
      else copyBlocks raid rounds none map originSize >>= fun r =>
        match r with
        | none => pure (.error .broken)
        | some () => pure (.ok (raid, [])) := by
  unfold copyInto
  rw [copyTarget_new hnew, addFile_refused h]
  rfl

theorem copyBlocks_empty : copyBlocks raid rounds none map 0 = pure (some ()) := rfl

theorem copyBlocks_none_returns (h : originSize ≠ 0) :
    (copyBlocks raid rounds none map originSize).Returns none := by
  unfold copyBlocks
  split_ifs with hmod
  · exact returns_call.mpr ⟨some 0, returns_call.mpr ⟨(), returns_pure.mpr rfl⟩⟩
  · have hblocks : originBlocks originSize ≠ 0 := by
      intro hzero
      have htoNat := originBlocks_toNat originSize
      rw [hzero, UInt64.toNat_zero] at htoNat
      have hne : originSize.toNat ≠ 0 := fun h0 => h (UInt64.toNat_inj.mp h0)
      omega
    unfold copyWhole
    rw [if_pos hblocks]
    exact returns_pure.mpr rfl

theorem copyInto_of_buffers (rounds : ℕ) (map : Ptr) (capture : Option (List Packet))
    (hnew : findFile raid toRaid = none)
    (h : (addFile raid toRaid (originBlocks originSize)).Returns (some s, raid'))
    (hinit : (initSpcap zmalloc { raid'.file s with endBlock := (raid'.file s).startBlock } :
      ℤ × Spcap n).1 ≠ 0) :
    ∃ stop, copyInto raid rounds true zmalloc toRaid map originSize capture =
      updateRaid raid' >>= fun _ => pure (.error stop) := by
  obtain ⟨rfl, ha, hs⟩ := addFile_some h
  unfold copyInto
  rw [copyTarget_new hnew, addFile_of_admits ha hs]
  cases capture with
  | none => exact ⟨.exited, by simp only [bind_assoc, pure_bind, if_true]⟩
  | some pkts =>
    refine ⟨.broken, ?_⟩
    simp only [bind_assoc, pure_bind, if_true, importPcap_refused hinit pkts]

omit [NeZero n] in
theorem not_synced_of_added (hns : raid'.ns = raid.ns) (hdead : ¬ raid.Live s) (hlive : raid'.Live s)
    {media : Media} (hs : Synced raid' media) : ¬ Synced raid media := by
  intro hold
  have hbytes : (raid'.msector s.1).toBytes = (raid.msector s.1).toBytes := by
    rw [← hs s.1, ← hold s.1, hns]
  have hfile : raid'.file s = raid.file s := by
    unfold NvmeRaid.file
    rw [toBytes_injective hbytes]
  unfold NvmeRaid.Live at hdead hlive
  rw [hfile] at hlive
  exact hdead hlive

theorem not_leavesRaid_of_buffers
    (h : (addFile raid toRaid (originBlocks originSize)).Returns (some s, raid')) (stop : Stop) :
    ¬ LeavesRaid raid (updateRaid raid' >>= fun _ => pure (.error stop)) := by
  intro hleaves
  obtain ⟨hraid, ha, hfree⟩ := addFile_some h
  have hns : raid'.ns = raid.ns := by
    rw [hraid]
    rfl
  have hlive : raid'.Live s := by
    unfold NvmeRaid.Live
    rw [hraid, file_tableAdd_self]
    exact ha.named
  let media : Media := written raid (fun _ => .ok) fun _ _ => 0
  have hkept := hleaves.metadata (fun _ => .ok) media (synced_written (fun _ => rfl) _)
  rw [callOn_updateRaid] at hkept
  have hnew : Synced raid' (written raid' (fun _ => .ok) media) := synced_written (fun _ => rfl) media
  exact not_synced_of_added hns (freeSlot_dead hfree) hlive hnew hkept

theorem returns_none_of_not_admits (hno : ¬ Admits raid toRaid (originBlocks originSize)) :
    (addFile raid toRaid (originBlocks originSize)).Returns (none, raid) := by
  rcases addFile_eq raid toRaid (originBlocks originSize) with ⟨heq, _⟩ | ⟨_, _, ha, _⟩
  · rw [heq]
    exact returns_pure.mpr rfl
  · exact absurd ha hno

theorem leavesRaid_entry_iff (hnew : findFile raid toRaid = none)
    (h : (addFile raid toRaid (originBlocks originSize)).Returns (none, raid')) (rounds : ℕ) (map : Ptr)
    (capture : Option (List Packet)) :
    LeavesRaid raid (copyInto raid rounds fpcap zmalloc toRaid map originSize capture) ↔
      fpcap = false ∧ originSize = 0 := by
  rw [copyInto_of_entry hnew h]
  cases fpcap with
  | true =>
    refine ⟨fun hleaves => ?_, fun hplain => absurd hplain.1 (by simp)⟩
    exact absurd rfl (hleaves.ends.returns (returns_pure.mpr rfl)).1
  | false =>
    rw [if_neg Bool.false_ne_true]
    constructor
    · intro hleaves
      refine ⟨rfl, ?_⟩
      by_contra hne
      have hnone : (copyBlocks raid rounds none map originSize).Returns none := copyBlocks_none_returns hne
      have hbroken := hleaves.ends.returns (returns_bind.mpr ⟨none, hnone, returns_pure.mpr rfl⟩)
      exact hbroken.1 rfl
    · rintro ⟨_, rfl⟩
      rw [copyBlocks_empty]
      refine ⟨ensures_pure ⟨by simp, fun q hq => ?_⟩, fun _ _ => id⟩
      rw [← Except.ok.inj hq]

end refused

/-- A refused copy leaves the raid as it was exactly if it copies an empty file without `--nscap`. -/
theorem leavesRaid_iff {raid : NvmeRaid n} {fpcap : Bool} {zmalloc : ℕ → Bool} {toRaid : Name}
    {originSize : UInt64} (h : CopyRefused raid zmalloc toRaid originSize fpcap) (rounds : ℕ) (map : Ptr)
    (capture : Option (List Packet)) :
    LeavesRaid raid (copyInto raid rounds fpcap zmalloc toRaid map originSize capture) ↔
      fpcap = false ∧ originSize = 0 := by
  cases h with
  | entry hnew hadd => exact leavesRaid_entry_iff hnew hadd rounds map capture
  | buffers hnew hadd hinit =>
    refine ⟨fun hleaves => ?_, fun hplain => absurd hplain.1 (by simp)⟩
    obtain ⟨stop, heq⟩ := copyInto_of_buffers rounds map capture hnew hadd hinit
    rw [heq] at hleaves
    exact absurd hleaves (not_leavesRaid_of_buffers hadd stop)

theorem leavesRaid_iff_full_table : LeavesRaid (countFiles (formatted (attached fun _ : Fin 1 => 1024)) 12 12)
    (copyInto (countFiles (formatted (attached fun _ : Fin 1 => 1024)) 12 12) 2 false (fun _ => true)
      (fun _ => 65) ⟨0, 0⟩ 0 none) := by
  have hnew : findFile (countFiles (formatted (attached fun _ : Fin 1 => 1024)) 12 12) (fun _ => 65) =
      none := by decide +kernel
  exact (leavesRaid_iff (.entry hnew (returns_none_of_not_admits fun ha => ha.room (by decide))) 2 ⟨0, 0⟩
    none).mpr ⟨rfl, rfl⟩

/-- The only disk is full, and a file of 100 bytes is to be copied. -/
theorem refused_copy_uses_no_entry :
    ¬ ∀ (raid : NvmeRaid 1) (fpcap : Bool) (zmalloc : ℕ → Bool) (toRaid : Name) (originSize : UInt64)
      (rounds : ℕ) (map : Ptr) (capture : Option (List Packet)),
      CopyRefused raid zmalloc toRaid originSize fpcap →
        LeavesRaid raid (copyInto raid rounds fpcap zmalloc toRaid map originSize capture) := by
  intro hall
  have hnew : findFile (oneFileRaid 1 768) (fun _ => 66) = none := by decide +kernel
  have hfull : ¬ originBlocks 100 ≤ rightFreeBlocks (oneFileRaid 1 768) := by decide +kernel
  have hno : ¬ Admits (oneFileRaid 1 768) (fun _ => 66) (originBlocks 100) := fun ha => hfull ha.space
  have hadd := returns_none_of_not_admits hno
  have hleaves := hall (oneFileRaid 1 768) false (fun _ => true) _ _ 2 ⟨0, 0⟩ none (.entry hnew hadd)
  have hempty := ((leavesRaid_entry_iff hnew hadd 2 ⟨0, 0⟩ none).mp hleaves).2
  exact absurd hempty (by decide)

end PcapReplay
