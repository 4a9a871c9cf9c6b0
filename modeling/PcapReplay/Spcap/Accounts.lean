import PcapReplay.Spcap.Counters
import PcapReplay.Spcap.Cuts

/-! What a run of `writePkt` leaves in the accounts of the writer. -/

namespace PcapReplay
open Spcap Balance
variable {n : ℕ} [NeZero n]

structure Pkt where
  nsw8 : ℕ
  size : ℕ
  esize : ℕ
  payload : ℕ → UInt8

def writePkts (sp : Spcap n) (pkts : List Pkt) : Option (Spcap n) :=
  pkts.foldlM (fun sp p => writePkt sp p.nsw8 p.size p.esize p.payload) sp

theorem writePkts_append (sp : Spcap n) (pkts : List Pkt) (p : Pkt) :
    writePkts sp (pkts ++ [p]) =
      (writePkts sp pkts).bind fun sp => writePkt sp p.nsw8 p.size p.esize p.payload := by
  unfold writePkts
  rw [List.foldlM_append]
  simp only [List.foldlM_cons, List.foldlM_nil, Option.bind_eq_bind, Option.pure_def,
    Option.bind_fun_some]

def recorded (p : Pkt) (buff : ℕ → UInt8) (w : ℕ) : ℕ → UInt8 :=
  copied (copied buff w headerLength fun i => spcapHeader p.nsw8 p.size p.esize (sourceIndex w i))
    (w + headerLength) p.size fun i => p.payload (sourceIndex (w + headerLength) i)

theorem writePkt_eq_some {sp sp' : Spcap n} (hl : Level sp) (p : Pkt) :
    writePkt sp p.nsw8 p.size p.esize p.payload = some sp' ↔
      ∃ buff, sp.buffs (spcapDstDisk sp.dataWrote) = some buff ∧
        sp.dataWrote (spcapDstDisk sp.dataWrote) + (headerLength + p.size) ≤ buffSize ∧
        sp' = sp.filled (spcapDstDisk sp.dataWrote)
          (recorded p buff (sp.dataWrote (spcapDstDisk sp.dataWrote)))
          (sp.dataWrote (spcapDstDisk sp.dataWrote) + (headerLength + p.size)) := by
  unfold writePkt
  generalize spcapDstDisk sp.dataWrote = d
  dsimp only
  rw [Option.bind_eq_some_iff]
  constructor
  · rintro ⟨sp₁, h₁, h₂⟩
    have hl₁ := hl.writeBuff h₁
    obtain ⟨buff, hb, _, hfit₁, rfl⟩ := (writeBuff_eq_some (congrFun hl d)).mp h₁
    obtain ⟨buff₁, hb₁, _, hfit, rfl⟩ := (writeBuff_eq_some (congrFun hl₁ d)).mp h₂
    rw [filled_buffs] at hb₁
    rw [filled_dataWrote, Nat.add_assoc] at hfit
    refine ⟨buff, hb, hfit, ?_⟩
    rw [filled_dataWrote, filled_filled, ← Option.some.inj hb₁, recorded, Nat.add_assoc]
  · rintro ⟨buff, hb, hfit, rfl⟩
    have hheader : 0 < headerLength := by decide
    refine ⟨_, writeBuff_filled hb (congrFun hl d) _ (by omega) (by omega), ?_⟩
    generalize hfirst : copied buff (sp.dataWrote d) headerLength _ = first
    rw [writeBuff_filled (filled_buffs sp d first _) (by simp) p.payload
      (by rw [filled_dataWrote]; omega) (by rw [filled_dataWrote]; omega), filled_dataWrote,
      filled_filled, recorded, hfirst, Nat.add_assoc]

structure Staged (sp₀ sp : Spcap n) (w : Fin n → ℕ) : Prop where
  file : sp.file = sp₀.file
  curlba : sp.curlba = sp₀.curlba
  wrote : sp.wrote = sp₀.wrote
  null : ∀ d, sp.buffs d = none ↔ sp₀.buffs d = none
  ptr : sp.currPtr = w
  data : sp.dataWrote = w

omit [NeZero n] in
theorem Staged.filled {sp₀ sp : Spcap n} {w : Fin n → ℕ} (h : Staged sp₀ sp w) {d : Fin n}
    (hd : sp.buffs d ≠ none) (buff : ℕ → UInt8) (k : ℕ) :
    Staged sp₀ (sp.filled d buff (w d + k)) (put w d k) where
  file := h.file
  curlba := h.curlba
  wrote := h.wrote
  null e := by
    by_cases he : e = d
    · subst he
      rw [filled_buffs, ← h.null e]
      simp [hd]
    · rw [← h.null e]
      simp [Spcap.filled, he]
  ptr := by
    unfold Spcap.filled
    rw [h.ptr]
    rfl
  data := by
    unfold Spcap.filled
    rw [h.data]
    rfl

theorem Staged.writePkt_iff {sp₀ sp : Spcap n} {w : Fin n → ℕ} (h : Staged sp₀ sp w) (p : Pkt) :
    (∃ sp', writePkt sp p.nsw8 p.size p.esize p.payload = some sp') ↔
      sp₀.buffs (spcapDstDisk w) ≠ none ∧ w (spcapDstDisk w) + (headerLength + p.size) ≤ buffSize := by
  have hl : Level sp := h.ptr.trans h.data.symm
  rw [Ne, ← h.null, ← h.data]
  constructor
  · rintro ⟨sp', hw⟩
    obtain ⟨buff, hb, hfit, _⟩ := (writePkt_eq_some hl p).mp hw
    exact ⟨by simp [hb], hfit⟩
  · rintro ⟨hb, hfit⟩
    obtain ⟨buff, hb⟩ := Option.ne_none_iff_exists'.mp hb
    exact ⟨_, (writePkt_eq_some hl p).mpr ⟨buff, hb, hfit, rfl⟩⟩

theorem Staged.writePkt {sp₀ sp sp' : Spcap n} {w : Fin n → ℕ} (h : Staged sp₀ sp w) {p : Pkt}
    (hw : writePkt sp p.nsw8 p.size p.esize p.payload = some sp') :
    Staged sp₀ sp' (route spcapDstDisk w (headerLength + p.size)) := by
  have hl : Level sp := h.ptr.trans h.data.symm
  obtain ⟨buff, hb, _, rfl⟩ := (writePkt_eq_some hl p).mp hw
  rw [h.data] at hb ⊢
  exact h.filled (by simp [hb]) _ _

section run
variable {sp₀ : Spcap n} (h₀ : Staged sp₀ sp₀ fun _ => 0)
include h₀

theorem writePkts_staged {pkts : List Pkt} {sp : Spcap n} (h : writePkts sp₀ pkts = some sp) :
    Staged sp₀ sp (loads (pkts.map Pkt.size)) := by
  induction pkts using List.reverseRecOn generalizing sp with
  | nil =>
    obtain rfl := Option.some.inj h
    exact h₀
  | append_singleton pkts p ih =>
    rw [writePkts_append] at h
    obtain ⟨sp₁, h₁, h₂⟩ := Option.bind_eq_some_iff.mp h
    rw [List.map_append, List.map_singleton, loads_append]
    exact (ih h₁).writePkt h₂

theorem writePkts_runs_iff (pkts : List Pkt) :
    (∃ sp, writePkts sp₀ pkts = some sp) ↔
      ∀ d, loads (pkts.map Pkt.size) d ≤ buffSize ∧
        (loads (pkts.map Pkt.size) d ≠ 0 → sp₀.buffs d ≠ none) := by
  induction pkts using List.reverseRecOn with
  | nil => exact iff_of_true ⟨sp₀, rfl⟩ fun d => ⟨Nat.zero_le _, fun hne => absurd rfl hne⟩
  | append_singleton pkts p ih =>
    rw [List.map_append, List.map_singleton, loads_append, writePkts_append]
    generalize hw : (loads (pkts.map Pkt.size) : Fin n → ℕ) = w at *
    have hstaged : ∀ sp, writePkts sp₀ pkts = some sp → Staged sp₀ sp w := by
      intro sp h
      rw [← hw]
      exact writePkts_staged h₀ h
    unfold route
    constructor
    · rintro ⟨sp', h⟩ d
      obtain ⟨sp, h₁, h₂⟩ := Option.bind_eq_some_iff.mp h
      obtain ⟨hb, hfit⟩ := ((hstaged sp h₁).writePkt_iff p).mp ⟨sp', h₂⟩
      by_cases hd : d = spcapDstDisk w
      · subst hd
        rw [put_self]
        exact ⟨hfit, fun _ => hb⟩
      · rw [put_of_ne _ _ hd]
        exact ih.mp ⟨sp, h₁⟩ d
    · intro h
      obtain ⟨sp, h₁⟩ := ih.mpr fun d => by
        have hle := le_put w (spcapDstDisk w) (headerLength + p.size) d
        refine ⟨hle.trans (h d).1, fun hne => (h d).2 fun hzero => hne ?_⟩
        exact Nat.le_zero.mp (hle.trans hzero.le)
      obtain ⟨hfit, hb⟩ := h (spcapDstDisk w)
      rw [put_self] at hfit hb
      have hheader : 0 < headerLength := by decide
      obtain ⟨sp', h₂⟩ := ((hstaged sp h₁).writePkt_iff p).mpr ⟨hb (by omega), hfit⟩
      exact ⟨sp', Option.bind_eq_some_iff.mpr ⟨sp, h₁, h₂⟩⟩

end run

structure Accounted (sp₀ sp : Spcap n) : Prop where
  ptr : ∀ d, sp.currPtr d = sp.dataWrote d % (numBufs * superSectorLength)
  stored : ∀ d, (sp.wrote.filter fun w => w.disk = d).length = sp.dataWrote d / superSectorLength
  curlba : ∀ d, sp.curlba d =
    sp₀.curlba d + UInt64.ofNat (superSectorNum * (sp.dataWrote d / superSectorLength))
  endBlock : sp.file.endBlock = sp₀.file.startBlock +
    UInt64.ofNat (superSectorNum * ∑ d, sp.dataWrote d / superSectorLength)

omit [NeZero n] in
theorem Staged.accounted_iff {sp₀ sp : Spcap n} {w : Fin n → ℕ} (h : Staged sp₀ sp w)
    (hwrote : sp₀.wrote = []) (hfile : sp₀.file.endBlock = sp₀.file.startBlock) :
    Accounted sp₀ sp ↔ ∀ d, w d < superSectorLength := by
  have hpos : 0 < superSectorLength := by decide
  constructor
  · intro ha d
    have hstored := ha.stored d
    rw [h.wrote, hwrote, h.data] at hstored
    exact (Nat.div_eq_zero_iff_lt hpos).mp hstored.symm
  · intro hlt
    have hzero : ∀ d, w d / superSectorLength = 0 := fun d => Nat.div_eq_of_lt (hlt d)
    refine ⟨fun d => ?_, fun d => ?_, fun d => ?_, ?_⟩
    · have hbound := hlt d
      rw [h.ptr, h.data, Nat.mod_eq_of_lt]
      simp only [numBufs, superSectorLength_eq] at *
      omega
    · rw [h.wrote, hwrote, h.data, hzero]
      rfl
    · rw [h.curlba, h.data, hzero]
      simp
    · rw [h.file, h.data, hfile]
      simp only [hzero, Finset.sum_const_zero, Nat.mul_zero]
      exact (UInt64.add_zero _).symm

theorem initSpcap_done {zmalloc : ℕ → Bool} {file : MetaFile}
    (h : (initSpcap zmalloc file : ℤ × Spcap n).1 = 0) :
    (initSpcap zmalloc file : ℤ × Spcap n).2.file = file ∧
      (initSpcap zmalloc file : ℤ × Spcap n).2.wrote = [] ∧
      ∀ d, (initSpcap zmalloc file : ℤ × Spcap n).2.buffs d ≠ none ↔
        ∃ i < n, initDisk file.startBlock i = d := by
  rcases initSpcap_cases n zmalloc file with ⟨hne, _⟩ | heq
  · exact absurd h hne
  · rw [heq, initSpcap, initLoop_eq]
    obtain ⟨hfile, hwrote⟩ := foldl_place_frame (List.range n) (blank file : Spcap n)
    refine ⟨hfile, hwrote, fun d => ?_⟩
    by_cases hd : ∃ i < n, initDisk file.startBlock i = d
    · obtain ⟨i, hi, hid⟩ := hd
      have hbuff := (foldl_place_of_mem (List.range n) (blank file : Spcap n)
        ⟨i, List.mem_range.mpr hi, hid⟩).1
      exact iff_of_true (by simp [hbuff]) ⟨i, hi, hid⟩
    · have hbuff := (foldl_place_of_not (List.range n) (blank file : Spcap n)
        fun i hi hid => hd ⟨i, List.mem_range.mp hi, hid⟩).1
      exact iff_of_false (fun hne => hne hbuff) hd

def KeepsAccounts (sp₀ : Spcap n) (pkts : List Pkt) : Prop :=
  ∃ sp, writePkts sp₀ pkts = some sp ∧ Accounted sp₀ sp

section accounts
variable {zmalloc : ℕ → Bool} {file : MetaFile} (hinit : (initSpcap zmalloc file : ℤ × Spcap n).1 = 0)
  (hfile : file.endBlock = file.startBlock)

variable (n) in
theorem initSpcap_staged (zmalloc : ℕ → Bool) (file : MetaFile) :
    Staged (initSpcap zmalloc file : ℤ × Spcap n).2 (initSpcap zmalloc file).2 fun _ => 0 := by
  obtain ⟨hp, hw⟩ := initSpcap_counters (n := n) zmalloc file
  exact ⟨rfl, rfl, rfl, fun _ => Iff.rfl, hp, hw⟩

include hinit hfile

theorem accounted_iff_loads {pkts : List Pkt} {sp : Spcap n}
    (h : writePkts (initSpcap zmalloc file : ℤ × Spcap n).2 pkts = some sp) :
    Accounted (initSpcap zmalloc file).2 sp ↔
      ∀ d : Fin n, loads (pkts.map Pkt.size) d < superSectorLength := by
  obtain ⟨hf, hwrote, _⟩ := initSpcap_done hinit
  rw [← hf] at hfile
  exact (writePkts_staged (initSpcap_staged n zmalloc file) h).accounted_iff hwrote hfile

/-- The accounts are in order as long as no disk has a whole supersector. -/
theorem keepsAccounts_iff (pkts : List Pkt) :
    KeepsAccounts (initSpcap zmalloc file : ℤ × Spcap n).2 pkts ↔
      ∀ d : Fin n, loads (pkts.map Pkt.size) d < superSectorLength ∧
        (loads (pkts.map Pkt.size) d ≠ 0 → ∃ i < n, initDisk file.startBlock i = d) := by
  obtain ⟨_, _, hbuffs⟩ := initSpcap_done hinit
  have hruns := writePkts_runs_iff (initSpcap_staged n zmalloc file) pkts
  constructor
  · rintro ⟨sp, hrun, hacc⟩ d
    have hlt := (accounted_iff_loads hinit hfile hrun).mp hacc
    exact ⟨hlt d, fun hne => (hbuffs d).mp ((hruns.mp ⟨sp, hrun⟩ d).2 hne)⟩
  · intro hall
    have hle : superSectorLength ≤ buffSize := by decide
    obtain ⟨sp, hrun⟩ := hruns.mpr fun d =>
      ⟨(hall d).1.le.trans hle, fun hne => (hbuffs d).mpr ((hall d).2 hne)⟩
    exact ⟨sp, hrun, (accounted_iff_loads hinit hfile hrun).mpr fun d => (hall d).1⟩

end accounts

def smallPkt (size : ℕ) : Pkt := { nsw8 := 0, size := size, esize := size, payload := fun _ => 1 }

theorem newFile_init : (initSpcap (fun _ => true) newFile : ℤ × Spcap n).1 = 0 := by
  rw [initSpcap, initLoop_eq]

theorem keepsAccounts_two_disks :
    KeepsAccounts (initSpcap (fun _ => true) newFile : ℤ × Spcap 2).2 [smallPkt 60, smallPkt 1400] :=
  (keepsAccounts_iff newFile_init rfl _).mpr (by decide)

/-- Two records of 65536 bytes fill a supersector, and it is not stored. -/
theorem full_supersector_not_stored :
    (initSpcap (fun _ => true) newFile : ℤ × Spcap 1).1 = 0 ∧
      ¬ KeepsAccounts (initSpcap (fun _ => true) newFile : ℤ × Spcap 1).2
        [smallPkt 65528, smallPkt 65528] := by
  refine ⟨newFile_init, fun h => ?_⟩
  obtain ⟨sp, hrun, hacc⟩ := h
  have hlt := (accounted_iff_loads newFile_init rfl hrun).mp hacc 0
  exact absurd hlt (by decide)

theorem dataWrote_eq_run {zmalloc : ℕ → Bool} {file : MetaFile} {pkts : List Pkt} {sp : Spcap n}
    (h : writePkts (initSpcap zmalloc file : ℤ × Spcap n).2 pkts = some sp) (d : Fin n) :
    sp.dataWrote d = (Counters.run (pkts.map fun p => UInt64.ofNat p.size) d).toNat := by
  have h₀ := initSpcap_staged n zmalloc file
  induction pkts using List.reverseRecOn generalizing sp d with
  | nil =>
    obtain rfl := Option.some.inj h
    exact congrFun h₀.data d
  | append_singleton pkts p ih =>
    have hstaged := writePkts_staged h₀ h
    have hfit := (writePkts_runs_iff h₀ (pkts ++ [p])).mp ⟨sp, h⟩
    rw [writePkts_append] at h
    obtain ⟨sp₁, h₁, h₂⟩ := Option.bind_eq_some_iff.mp h
    have hw := (writePkts_staged h₀ h₁).data
    rw [List.map_append, List.map_singleton, loads_append, ← hw] at hstaged hfit
    have hsize : (UInt64.ofNat p.size).toNat = p.size := by
      apply UInt64.toNat_ofNat_of_lt'
      have hdst := (hfit (spcapDstDisk sp₁.dataWrote)).1
      rw [route, put_self] at hdst
      simp only [UInt64.size, buffSize_eq] at *
      omega
    have hbound : ∀ e,
        route spcapDstDisk sp₁.dataWrote (headerLength + (UInt64.ofNat p.size).toNat) e < 2 ^ 64 := by
      intro e
      rw [hsize]
      exact (hfit e).1.trans_lt (by decide)
    have hstep := Counters.toNat_writePkt (fun e => (ih h₁ e).symm) hbound d
    rw [hsize] at hstep
    rw [hstaged.data, Counters.run, List.map_append, List.foldl_append]
    exact hstep.symm

end PcapReplay
