import PcapReplay.Cp.Usage
import PcapReplay.Spcap.Rotation
import PcapReplay.Tools.Copies

/-! The import of a capture on the machine, and what it does to the directory that a raid holds. -/

namespace PcapReplay
open Interaction Dma Prog Spcap
variable {n : ℕ}

inductive SuperOp where
  | writeWait (ns : ℕ) (lba : UInt64) (data : Fin superSectorLength → UInt8)

@[reducible] def SuperAns : SuperOp → Type
  | .writeWait _ _ _ => ℤ

abbrev Capture := Prog (Op ⊕ SuperOp) (Sum.elim Ans SuperAns)

def sioWriteSuper (ns : ℕ) (lba : UInt64) (data : Fin superSectorLength → UInt8) : Capture ℤ :=
  ask (Sum.inr (SuperOp.writeWait ns lba data))

def writeSupers (raid : NvmeRaid n) : List (SuperWrite n) → Capture Unit
  | [] => pure ()
  | x :: xs => do
    let _ ← sioWriteSuper (raid.ns x.disk) x.lba x.data
    writeSupers raid xs

/-- `cp --from-sys --to-raid --nscap`, with the arguments of `copyInto`. -/
def copyCapture [NeZero n] (raid : NvmeRaid n) (zmalloc : ℕ → Bool) (toRaid : Name) (originSize : UInt64)
    (capture : Option (List Packet)) : Capture (Except Stop (NvmeRaid n)) := do
  let (target, raid) ← (copyTarget raid toRaid originSize true).inl
  match target with
  | .stop => pure (.ok raid)
  | .file none => pure (.error .broken)
  | .file (some s) =>
    match capture with
    | none => pure (.error .exited)
    | some pkts =>
      match importPcap zmalloc (raid.file s) pkts with
      | none => pure (.error .broken)
      | some sp => do
        writeSupers raid sp.wrote
        let raid := raid.setFile s sp.file
        (updateRaid raid).inl
        pure (.ok raid)

def captureMain [NeZero n] (qsort : Qsort n) (raid : NvmeRaid n) (zmalloc : ℕ → Bool) (toRaid : Name)
    (originSize : UInt64) (capture : Option (List Packet)) : Capture (Except Stop (NvmeRaid n)) := do
  match ← (createRaid qsort raid).inl with
  | none => pure (.error .exited)
  | some raid => copyCapture raid zmalloc toRaid originSize capture

namespace World

def writeSuper (m : Store Space UInt8) (ns : ℕ) (lba : UInt64) (data : Fin superSectorLength → UInt8) :
    Store Space UInt8 := fun s a =>
  if h : s = .disk ns ∧ lba.toNat * sectorLength ≤ a ∧ a < lba.toNat * sectorLength + superSectorLength then
    data ⟨a - lba.toNat * sectorLength, by omega⟩
  else m s a

def superPerform (π : Policy) : (o : SuperOp) → World → SuperAns o → World → Prop
  | .writeWait ns lba data, w, rc, w' =>
    (rc = 0 ∧ w' = w.setStore (writeSuper w.bus.store ns lba data)) ∨ (π.ioError ∧ rc ≠ 0 ∧ w' = w)

/-- The machine of the other operations, with supersectors that are written and waited for. -/
def superStep (π : Policy) : (o : Op ⊕ SuperOp) → World → Sum.elim Ans SuperAns o → World → Prop
  | .inl o => step π o
  | .inr o => fun w r w' => ∃ b, Bus.Drift w.bus b ∧ superPerform π o { w with bus := b } r w'

variable {π : Policy} {w w' : World}

theorem writeSuper_run {ns : ℕ} {lba : UInt64} {data : Fin superSectorLength → UInt8} {rc : ℤ}
    (hπ : π.Smooth) (hidle : w.flights = 0) (h : Exec (superStep π) (sioWriteSuper ns lba data) w rc w') :
    w.Keeps w' ∧ (∀ a : Fin superSectorLength, w'.disks ns (lba.toNat * sectorLength + a) = data a) ∧
      ∀ k a, (k = ns → ¬ (lba.toNat * sectorLength ≤ a ∧ a < lba.toNat * sectorLength + superSectorLength)) →
        w'.disks k a = w.disks k a := by
  obtain ⟨b, hdrift, ⟨_, rfl⟩ | ⟨hio, _⟩⟩ := exec_ask.mp h
  · obtain rfl := hdrift.evolves.of_idle hidle
    have hapart : ∀ s a, (s = .disk ns → ¬ (lba.toNat * sectorLength ≤ a ∧
        a < lba.toNat * sectorLength + superSectorLength)) →
        writeSuper w.bus.store ns lba data s a = w.bus.store s a :=
      fun s a hs => dif_neg fun hc => hs hc.1 hc.2
    refine ⟨⟨⟨rfl, rfl, rfl⟩, le_rfl, fun _ buf _ => ?_⟩, fun a => ?_, fun k a hk => ?_⟩
    · funext a
      exact hapart (.mem buf) a fun hc => absurd hc (by simp)
    · have hin : Space.disk ns = .disk ns ∧ lba.toNat * sectorLength ≤ lba.toNat * sectorLength + a ∧
          lba.toNat * sectorLength + a < lba.toNat * sectorLength + superSectorLength :=
        ⟨rfl, Nat.le_add_right _ _, Nat.add_lt_add_left a.isLt _⟩
      show writeSuper w.bus.store ns lba data (.disk ns) (lba.toNat * sectorLength + a) = data a
      rw [writeSuper, dif_pos hin]
      exact congrArg data (Fin.ext (Nat.add_sub_cancel_left _ _))
    · exact hapart _ _ fun hc => hk (Space.disk.inj hc)
  · exact absurd hio hπ.io

end World

def SuperWrite.Takes (raid : NvmeRaid n) (x : SuperWrite n) (k a : ℕ) : Prop :=
  k = raid.ns x.disk ∧ x.lba.toNat * sectorLength ≤ a ∧ a < x.lba.toNat * sectorLength + superSectorLength

theorem writeSupers_run {π : Policy} {raid : NvmeRaid n} {xs : List (SuperWrite n)} {w w' : World} {r : Unit}
    (hπ : π.Smooth) (honce : (xs.map SuperWrite.disk).Nodup) (hidle : w.flights = 0)
    (h : Exec (World.superStep π) (writeSupers raid xs) w r w') :
    w.Keeps w' ∧ (∀ x ∈ xs, ∀ a : Fin superSectorLength,
        w'.disks (raid.ns x.disk) (x.lba.toNat * sectorLength + a) = x.data a) ∧
      ∀ k a, (∀ x ∈ xs, ¬ x.Takes raid k a) → w'.disks k a = w.disks k a := by
  induction xs generalizing w with
  | nil =>
    obtain ⟨_, rfl⟩ := exec_pure.mp h
    exact ⟨.refl w', fun x hx => absurd hx List.not_mem_nil, fun _ _ _ => rfl⟩
  | cons x xs ih =>
    rw [List.map_cons, List.nodup_cons] at honce
    obtain ⟨rc, w₁, hfirst, hrest⟩ := exec_bind.mp h
    obtain ⟨hkeeps, hdata, hkept⟩ := World.writeSuper_run hπ hidle hfirst
    obtain ⟨hkeeps', hall, hothers⟩ := ih honce.2 (hkeeps.idle hidle) hrest
    refine ⟨hkeeps.trans hkeeps', ?_, fun k a hk => ?_⟩
    · rw [List.forall_mem_cons]
      refine ⟨fun a => ?_, hall⟩
      rw [hothers _ _, hdata]
      -- the others go to other disks
      rintro y hy ⟨hsame, _⟩
      exact honce.1 (raid.ns.injective hsame ▸ List.mem_map_of_mem hy)
    · rw [List.forall_mem_cons] at hk
      rw [hothers k a hk.2, hkept k a fun hns hin => hk.1 ⟨hns, hin⟩]

variable [NeZero n]

/-- The capture takes one rotation behind the last file, which ends where a rotation may begin. -/
structure CaptureFits (raid : NvmeRaid n) (pkts : List Packet) : Prop extends OneRotation n pkts where
  aligned : 256 ∣ (rightFreeBlock raid).toNat ∨ n = 1
  room : (rightFreeBlock raid).toNat + n * superSectorNum ≤ raid.totalBlocks.toNat

section places
variable {raid : NvmeRaid n} {pkts : List Packet} {name : Name} {s : Slot n}

theorem OneRotation.dirtyDisks (h : OneRotation n pkts) : dirtyDisks n pkts = List.finRange n := by
  apply List.filter_eq_self.mpr
  intro d _
  apply decide_eq_true
  rw [Nat.mod_eq_of_lt (h.short d)]
  exact (length_captured_pos pkts d).ne'

theorem OneRotation.importBlocks_toNat (h : OneRotation n pkts) (hn : n ≤ maxDisks) :
    (importBlocks n pkts).toNat = n * 256 := by
  rw [PcapReplay.importBlocks_toNat hn, h.dirtyDisks, List.length_finRange, superSectorNum_eq]

theorem CaptureFits.importFits (h : CaptureFits raid pkts) : ImportFits raid pkts := by
  unfold ImportFits
  rw [h.dirtyDisks, List.length_finRange]
  exact h.room

theorem CaptureFits.placed (h : CaptureFits raid pkts) (hz : Sized raid) {i j : ℕ} (hi : i < n)
    (hj : j < 256) :
    ∃ b : UInt64, b.toNat = (rightFreeBlock raid).toNat + i * 256 + j ∧
      superGetdisk n b = initDisk (rightFreeBlock raid) i ∧
      (superGetdisklba n b).toNat = (initLba n (rightFreeBlock raid) i).toNat + j := by
  have hroom := h.room
  have hsmall := hz.small
  have hle : (i + 1) * 256 ≤ n * 256 := Nat.mul_le_mul_right _ hi
  rw [superSectorNum_eq] at hroom
  have haligned : Aligned n (rightFreeBlock raid) := by
    rcases h.aligned with hdvd | hone
    · exact Or.inl hdvd
    · exact Or.inr ⟨hone, by omega⟩
  exact first_placed haligned hi (by omega) hj

theorem CaptureFits.covers (h : CaptureFits raid pkts) (hz : Sized raid) : Covers n
    (rightFreeBlock raid) := by
  have hroom := h.room
  have hsmall := hz.small
  rw [superSectorNum_eq] at hroom
  exact covers_of_le (by omega)

theorem CaptureFits.block_eq (h : CaptureFits raid pkts) (hz : Sized raid) {k : ℕ} (hk : k < n * 256) :
    superGetdisk n (rightFreeBlock raid + UInt64.ofNat k) = initDisk (rightFreeBlock raid) (k / 256) ∧
      (superGetdisklba n (rightFreeBlock raid + UInt64.ofNat k)).toNat =
        (initLba n (rightFreeBlock raid) (k / 256)).toNat + k % 256 := by
  have hi : k / 256 < n := Nat.div_lt_of_lt_mul (by omega)
  obtain ⟨b, hb, hdisk, hlba⟩ := h.placed hz hi (Nat.mod_lt k (by decide : 0 < 256))
  have hroom := h.room
  have hsmall := hz.small
  rw [superSectorNum_eq] at hroom
  have hsum : rightFreeBlock raid + UInt64.ofNat k = b := by
    apply UInt64.toNat_inj.mp
    rw [toNat_add_ofNat (by omega), hb]
    omega
  rw [hsum]
  exact ⟨hdisk, hlba⟩

end places

inductive Directory.Captures (n : ℕ) (d : Directory) (name : Key) (pkts : List Packet) : Directory → Prop
  | store {bytes : List UInt8} (hname : name ≠ []) (hnew : d name = none) (hbytes : CaptureOf n bytes pkts) :
      Captures n d name pkts (Function.update d name (some bytes))
  | present (hold : name = [] ∨ d name ≠ none) : Captures n d name pkts d

theorem copyCapture_cases {raid raid' : NvmeRaid n} {zmalloc : ℕ → Bool} {name : Name} {originSize : UInt64}
    {pkts : List Packet} {π : Policy} {w w' : World}
    (hrun : Exec (World.superStep π) (copyCapture raid zmalloc name originSize (some pkts)) w (.ok raid') w') :
    (raid' = raid ∧ w' = w ∧ findFile raid name ≠ none) ∨
      ∃ s sp w₁ w₂, Admits raid name (originBlocks originSize) ∧ freeSlot raid = some s ∧
        raid' = tableAdd raid s name (importBlocks n pkts) ∧
        Covers n (rightFreeBlock raid) ∧
        Imported ((tableAdd raid s name (originBlocks originSize)).file s) pkts sp ∧
        Runs π (updateRaid (tableAdd raid s name (originBlocks originSize))) w () w₁ ∧
        Exec (World.superStep π) (writeSupers (tableAdd raid s name (originBlocks originSize)) sp.wrote) w₁ () w₂ ∧
        Runs π (updateRaid raid') w₂ () w' := by
  obtain ⟨⟨target, raid₁⟩, w₁, htarget, hrest⟩ := exec_bind.mp hrun
  rw [exec_inl] at htarget
  cases hfind : findFile raid name with
  | some t =>
    have hstop : copyTarget raid name originSize true = pure (.stop, raid) := by
      unfold copyTarget
      simp only [hfind]
      split_ifs <;> rfl
    rw [hstop] at htarget
    obtain ⟨heq, rfl⟩ := exec_pure.mp htarget
    obtain ⟨rfl, rfl⟩ := Prod.mk.inj heq
    obtain ⟨hraid, rfl⟩ := exec_pure.mp hrest
    exact Or.inl ⟨Except.ok.inj hraid, rfl, by simp⟩
  | none =>
    rw [copyTarget_new hfind] at htarget
    rcases addFile_eq raid name (originBlocks originSize) with ⟨heq, _⟩ | ⟨s, heq, ha, hfree⟩
    · rw [heq, pure_bind] at htarget
      obtain ⟨heq, rfl⟩ := exec_pure.mp htarget
      obtain ⟨rfl, rfl⟩ := Prod.mk.inj heq
      exact absurd (exec_pure.mp hrest).1 (by simp)
    · rw [heq, bind_assoc] at htarget
      obtain ⟨_, w₀, hupdate, htarget⟩ := exec_bind.mp htarget
      obtain ⟨heq, rfl⟩ := exec_pure.mp htarget
      obtain ⟨rfl, rfl⟩ := Prod.mk.inj heq
      simp only at hrest
      cases himport : (importPcap zmalloc ((tableAdd raid s name (originBlocks originSize)).file s) pkts :
        Option (Spcap n)) with
      | none =>
        rw [himport] at hrest
        exact absurd (exec_pure.mp hrest).1 (by simp)
      | some sp =>
        rw [himport] at hrest
        obtain ⟨_, w₂, hwrites, hrest⟩ := exec_bind.mp hrest
        obtain ⟨_, w₃, htable, hrest⟩ := exec_bind.mp hrest
        obtain ⟨hraid, rfl⟩ := exec_pure.mp hrest
        rw [exec_inl] at htable
        obtain ⟨hcovers, _, himported⟩ := importPcap_some (importPcap_granted himport)
        rw [file_tableAdd_self] at hcovers
        rw [setFile_imported himported] at hraid htable
        obtain rfl := Except.ok.inj hraid
        exact Or.inr ⟨s, sp, _, w₂, ha, hfree, rfl, hcovers, himported, hupdate, hwrites, htable⟩

theorem OneRotation.fit {pkts : List Packet} (h : OneRotation n pkts) : (captured pkts : Streams n).Fit := by
  intro d
  have hshort := h.short d
  rw [superSectorLength_eq] at hshort
  rw [buffSize_eq]
  omega

theorem CaptureFits.ends {raid : NvmeRaid n} {name : Name} {originSize : UInt64} {pkts : List Packet}
    {s : Slot n}
    {π : Policy} {w w' : World} {r : Except Stop (NvmeRaid n)} (h : CaptureFits raid pkts) (hz : Sized raid)
    (ha : Admits raid name (originBlocks originSize)) (hs : freeSlot raid = some s)
    (hrun : Exec (World.superStep π) (copyCapture raid (fun _ => true) name originSize (some pkts)) w r w') :
    ∃ raid', r = .ok raid' := by
  have hcovers : Covers n ((tableAdd raid s name (originBlocks originSize)).file s).startBlock := by
    rw [file_tableAdd_self]
    exact h.covers hz
  obtain ⟨sp, himport, _⟩ := (importPcap_covered hcovers pkts).1 h.toOneRotation.fit
  obtain ⟨⟨target, raid₁⟩, w₁, htarget, hrest⟩ := exec_bind.mp hrun
  rw [exec_inl, copyTarget_new ha.absent, addFile_of_admits ha hs, bind_assoc] at htarget
  obtain ⟨_, w₀, _, htarget⟩ := exec_bind.mp htarget
  obtain ⟨heq, rfl⟩ := exec_pure.mp htarget
  obtain ⟨rfl, rfl⟩ := Prod.mk.inj heq
  simp only [himport] at hrest
  obtain ⟨_, w₂, _, hrest⟩ := exec_bind.mp hrest
  obtain ⟨_, w₃, _, hrest⟩ := exec_bind.mp hrest
  exact ⟨_, (exec_pure.mp hrest).1⟩

theorem OneRotation.wrote_eq {pkts : List Packet} (h : OneRotation n pkts) {file : MetaFile} {sp : Spcap n}
    (hi : Imported file pkts sp) : sp.wrote = (List.finRange n).map fun d =>
      ⟨d, cursors n file d, fun a => (captured pkts d).getD a 0⟩ := by
  obtain ⟨data, hw, hdata⟩ := hi.wrote_eq
  rw [hw, h.dirtyDisks]
  apply List.map_congr_left
  intro d _
  rw [hdata d (h.short d)]

section imported
variable {raid : NvmeRaid n} {name : Name} {pkts : List Packet} {s : Slot n} {originSize blsize : UInt64}
  {sp : Spcap n} (h : CaptureFits raid pkts)
include h

theorem CaptureFits.obtained (hn : n ≤ maxDisks) (ha : Admits raid name (originBlocks originSize))
    (hfree : freeSlot raid = some s) : Obtained raid name (UInt64.ofNat (n * superSectorLength)) s
      (tableAdd raid s name (importBlocks n pkts)) := by
  have hblocks : originBlocks (UInt64.ofNat (n * superSectorLength)) = importBlocks n pkts := by
    have hsize : (UInt64.ofNat (n * superSectorLength)).toNat = n * 131072 := by
      simp only [maxDisks, superSectorLength_eq] at *
      exact toNat_ofNat_of_lt (by omega)
    apply UInt64.toNat_inj.mp
    rw [originBlocks_toNat, hsize, h.importBlocks_toNat hn]
    omega
  rw [← hblocks]
  exact .add (hblocks ▸ h.importFits.admits hn ha) hfree

theorem CaptureFits.fileBlocks_eq (hn : n ≤ maxDisks) (hz : Sized raid) :
    fileBlocks (tableAdd raid s name (importBlocks n pkts)) s = n * 256 := by
  have hcount := h.importBlocks_toNat hn
  have hroom := h.room
  have hsmall := hz.small
  rw [superSectorNum_eq] at hroom
  rw [fileBlocks, file_tableAdd_self]
  show (rightFreeBlock raid + importBlocks n pkts).toNat - (rightFreeBlock raid).toNat = n * 256
  rw [toNat_add_of_lt (by omega), Nat.add_sub_cancel_left, hcount]

variable (hi : Imported ((tableAdd raid s name blsize).file s) pkts sp) (hc : Covers n (rightFreeBlock raid))
include hi hc

theorem CaptureFits.mem_wrote (x : SuperWrite n) : x ∈ sp.wrote ↔ ∃ i < n,
    x = ⟨initDisk (rightFreeBlock raid) i, initLba n (rightFreeBlock raid) i, fun a =>
      (captured pkts (initDisk (rightFreeBlock raid) i : Fin n)).getD a 0⟩ := by
  have hstart : ((tableAdd raid s name blsize).file s).startBlock = rightFreeBlock raid := by
    rw [file_tableAdd_self]
  have hcursor : ∀ i < n, cursors n ((tableAdd raid s name blsize).file s) (initDisk (rightFreeBlock raid) i) =
      initLba n (rightFreeBlock raid) i := by
    intro i hi
    rw [← hstart]
    exact cursors_eq (hstart ▸ hc) hi
  rw [h.toOneRotation.wrote_eq hi, List.mem_map]
  constructor
  · rintro ⟨d, _, rfl⟩
    obtain ⟨i, hi, rfl⟩ := hc d
    exact ⟨i, hi, by rw [hcursor i hi]⟩
  · rintro ⟨i, hi, rfl⟩
    exact ⟨_, List.mem_finRange _, by rw [hcursor i hi]⟩

omit hc in
theorem CaptureFits.wrote_once : (sp.wrote.map SuperWrite.disk).Nodup := by
  rw [h.toOneRotation.wrote_eq hi, List.map_map]
  show ((List.finRange n).map fun d => d).Nodup
  rw [List.map_id']
  exact List.nodup_finRange n

theorem CaptureFits.takes_fileCells (hn : n ≤ maxDisks) (hz : Sized raid) {x : SuperWrite n}
    (hx : x ∈ sp.wrote)
    {k a : ℕ} (ht : x.Takes raid k a) :
    FileCells (tableAdd raid s name (importBlocks n pkts)) s (.disk k) a := by
  obtain ⟨i, hin, rfl⟩ := (h.mem_wrote hi hc x).mp hx
  obtain ⟨rfl, hle, hlt⟩ := ht
  simp only [sectorLength_eq, superSectorLength_eq] at hle hlt
  have hle' : (i + 1) * 256 ≤ n * 256 := Nat.mul_le_mul_right _ hin
  have hroom := h.room
  have hsmall := hz.small
  have hblocks := h.importBlocks_toNat hn
  rw [superSectorNum_eq] at hroom
  have hsector : (initLba n (rightFreeBlock raid) i).toNat + (a / 512 - (initLba n (rightFreeBlock raid) i).toNat) =
      a / 512 := by omega
  obtain ⟨b, hb, hdisk, hlba⟩ :=
    h.placed hz hin (show a / 512 - (initLba n (rightFreeBlock raid) i).toNat < 256 by omega)
  rw [hsector] at hlba
  rw [fileCells_iff]
  refine ⟨b.toNat, ?_, ?_, ?_, ?_⟩
  · unfold NvmeRaid.Owns
    rw [file_tableAdd_self]
    show (rightFreeBlock raid).toNat ≤ b.toNat ∧ b.toNat < (rightFreeBlock raid + importBlocks n pkts).toNat
    rw [toNat_add_of_lt (by omega)]
    omega
  · rw [blockSpace, UInt64.ofNat_toNat, hdisk]
    rfl
  · rw [blockByte, UInt64.ofNat_toNat, hlba, sectorLength_eq]
    exact Nat.div_mul_le_self a 512
  · rw [blockByte, UInt64.ofNat_toNat, hlba, sectorLength_eq]
    exact Nat.lt_div_mul_add (by decide)

end imported

theorem CaptureFits.contents {st : RaidState n} {name : Name} {pkts : List Packet} {s : Slot n}
    {blsize : UInt64}
    {sp : Spcap n} {disks : Disks} (h : CaptureFits st.raid pkts) (hn : n ≤ maxDisks) (hz : Sized st.raid)
    (hi : Imported ((tableAdd st.raid s name blsize).file s) pkts sp) (hc : Covers n (rightFreeBlock st.raid))
    (hdata : ∀ x ∈ sp.wrote, ∀ a : Fin superSectorLength,
      disks (st.raid.ns x.disk) (x.lba.toNat * sectorLength + a) = x.data a) :
    Contents ⟨tableAdd st.raid s name (importBlocks n pkts), disks⟩ s
      (captureBytes n (rightFreeBlock st.raid) pkts) := by
  have hblocks := @CaptureFits.fileBlocks_eq n _ st.raid name pkts s h hn hz
  refine ⟨?_, ?_, fun k hk a => ?_⟩
  · rw [length_captureBytes, hblocks, superSectorLength_eq]
    omega
  · show fileBlocks (tableAdd st.raid s name (importBlocks n pkts)) s < 2 ^ 32
    simp only [maxDisks] at hn
    omega
  · have hk' : k < n * 256 := hk.trans_eq hblocks
    have ha := a.isLt
    have hin : k / 256 < n := Nat.div_lt_of_lt_mul (by omega)
    have hbyte : k % 256 * 512 + a < superSectorLength := by
      simp only [sectorLength_eq, superSectorLength_eq] at *
      omega
    obtain ⟨hdisk, hlba⟩ := h.block_eq hz hk'
    have hread := hdata _ ((h.mem_wrote hi hc _).mpr ⟨k / 256, hin, rfl⟩) ⟨k % 256 * 512 + a, hbyte⟩
    have hoffset : k * sectorLength + a = k / 256 * superSectorLength + (k % 256 * 512 + a) := by
      simp only [sectorLength_eq, superSectorLength_eq]
      omega
    rw [hoffset, getD_captureBytes hin hbyte]
    unfold RaidState.block
    rw [file_tableAdd_self]
    show disks (st.raid.ns (superGetdisk n (rightFreeBlock st.raid + UInt64.ofNat k)))
      ((superGetdisklba n (rightFreeBlock st.raid + UInt64.ofNat k)).toNat * sectorLength + a) = _
    rw [hdisk, hlba, Nat.add_mul, Nat.add_assoc]
    exact hread

theorem Carries.copyCapture {st : RaidState n} {d : Directory} {name : Name} {originSize : UInt64}
    {w w' : World} {zmalloc : ℕ → Bool} {pkts : List Packet} {raid' : NvmeRaid n} (h : Carries st d)
    (hn : n ≤ maxDisks) (hz : Sized st.raid) (hidle : w.flights = 0) (hdisks : w.disks = st.disks)
    (hfits : findFile st.raid name = none → CaptureFits st.raid pkts)
    (hrun : Exec (World.superStep flawless) (copyCapture st.raid zmalloc name originSize (some pkts)) w
      (.ok raid') w') :
    ∃ d', d.Captures n name.str pkts d' ∧ Carries ⟨raid', w'.disks⟩ d' ∧ Kin st.raid raid' ∧ w'.flights = 0 := by
  have hsmooth : flawless.Smooth := ⟨id, id⟩
  rcases copyCapture_cases hrun with
    ⟨rfl, rfl, hpresent⟩ | ⟨s, sp, w₁, w₂, ha, hfree, rfl, hc, hi, htable, hwrites, hlast⟩
  · refine ⟨d, .present ?_, by rw [hdisks]; exact h, .refl _, hidle⟩
    by_cases hname : name 0 = 0
    · exact Or.inl ((Name.str_eq_nil name).mpr hname)
    · obtain ⟨t, ht⟩ := Option.ne_none_iff_exists'.mp hpresent
      obtain ⟨old, hold, _⟩ := h.found hname ht
      exact Or.inr (by simp [hold])
  · have hfit := hfits ha.absent
    have hobt := hfit.obtained hn ha hfree
    have hchanges := hobt.changes h.sound h.headed hn hz.reserved
    have hkin : Kin st.raid (tableAdd st.raid s name (importBlocks n pkts)) :=
      ⟨hchanges.ns, hchanges.total, hobt.tableChange.counted hn⟩
    obtain ⟨hkeeps₁, _, hrest₁⟩ := updateRaid_run hsmooth hidle htable
    have hidle₁ := hkeeps₁.idle hidle
    obtain ⟨hkeeps₂, hdata, hrest₂⟩ := writeSupers_run hsmooth (hfit.wrote_once hi) hidle₁ hwrites
    have hidle₂ := hkeeps₂.idle hidle₁
    obtain ⟨hkeeps₃, hsynced, hrest₃⟩ := updateRaid_run hsmooth hidle₂ hlast
    have hr : Rewritten st ⟨tableAdd st.raid s name (importBlocks n pkts), w'.disks⟩ s := by
      refine ⟨hchanges, hsynced, fun k a hk hcell => ?_⟩
      have hwrote : w₂.disks k a = w₁.disks k a :=
        hrest₂ k a fun x hx ht => hcell (hfit.takes_fileCells hi hc hn hz hx ht)
      calc w'.disks k a = w₂.disks k a := hrest₃ k a (Or.inr hk)
        _ = w₁.disks k a := hwrote
        _ = w.disks k a := hrest₁ k a (Or.inr hk)
        _ = st.disks k a := by rw [hdisks]
    have hcontents : Contents ⟨tableAdd st.raid s name (importBlocks n pkts), w'.disks⟩ s
        (captureBytes n (rightFreeBlock st.raid) pkts) := by
      apply hfit.contents hn hz hi hc
      intro x hx a
      -- the tables lie before everything that the capture takes
      have hcell := hfit.takes_fileCells hi hc hn hz hx
        ⟨rfl, Nat.le_add_right _ _, Nat.add_lt_add_left a.isLt _⟩
      obtain ⟨b, hb, _, hle, _⟩ := fileCells_iff.mp hcell
      have hfirst := hchanges.sound.sectorLength_le hz.small hb
      exact (hrest₃ _ _ (Or.inr (hfirst.trans hle))).trans (hdata x hx a)
    have hne : name.str ≠ [] := fun hnil => ha.named ((Name.str_eq_nil name).mp hnil)
    have hstr := hobt.str_eq
    refine ⟨Function.update d name.str (some (captureBytes n (rightFreeBlock st.raid) pkts)),
      .store hne (h.absent ha.absent) (captureOf_captureBytes hc hfit.toOneRotation), ?_, hkin, hkeeps₃.idle hidle₂⟩
    refine h.rewritten hr hz.small (hobt.name_iff h.sound) (fun hnil => absurd hnil hne)
      (fun hnone => absurd hnone (by simp)) fun bytes hb => ⟨?_, hstr, Option.some.inj hb ▸ hcontents⟩
    exact fun h0 => ha.named ((Name.head_eq_zero hstr).mp h0)

end PcapReplay
