import PcapReplay.Spcap.Import
import Mathlib.Data.List.Nodup

/-! When an import stores every byte of the capture. -/

namespace PcapReplay
open Spcap
variable {n : ℕ} [NeZero n]

def supersectors (d : Fin n) (lba : UInt64) (l : List UInt8) : List (SuperWrite n) :=
  (List.range (l.length / superSectorLength)).map fun k =>
    ⟨d, lba + UInt64.ofNat (k * superSectorNum), fun a => l.getD (k * superSectorLength + a) 0⟩

/-- On every disk, from its first cursor on, the supersectors of its stream and some padding are
stored, each once and in order. -/
def Stored (n : ℕ) [NeZero n] (file : MetaFile) (pkts : List Packet) : Prop :=
  ∃ sp : Spcap n, importPcap (fun _ => true) file pkts = some sp ∧
    ∀ d, ∃ pad : List UInt8, pad.length < superSectorLength ∧
      superSectorLength ∣ (captured pkts d ++ pad).length ∧
      (sp.wrote.filter fun w => w.disk = d) =
        supersectors d (cursors n file d) (captured pkts d ++ pad)

theorem mem_dirtyDisks {pkts : List Packet} {d : Fin n} :
    d ∈ dirtyDisks n pkts ↔ (captured pkts d).length % superSectorLength ≠ 0 := by
  rw [dirtyDisks, List.mem_filter, decide_eq_true_iff]
  exact and_iff_right (List.mem_finRange d)

theorem Imported.filter_wrote {file : MetaFile} {pkts : List Packet} {sp : Spcap n}
    {data : Fin n → Fin superSectorLength → UInt8}
    (h : sp.wrote = (dirtyDisks n pkts).map fun d => ⟨d, cursors n file d, data d⟩) (d : Fin n) :
    (sp.wrote.filter fun w => w.disk = d) =
      if (captured pkts d).length % superSectorLength ≠ 0 then [⟨d, cursors n file d, data d⟩]
      else [] := by
  have hnodup : (dirtyDisks n pkts).Nodup := (List.nodup_finRange n).filter _
  have hfilter : ((dirtyDisks n pkts).filter fun e => e = d) = if d ∈ dirtyDisks n pkts then [d] else [] := by
    rw [List.filter_eq, hnodup.count]
    split_ifs <;> rfl
  rw [h, List.filter_map]
  show ((dirtyDisks n pkts).filter fun e => e = d).map _ = _
  rw [hfilter]
  simp only [mem_dirtyDisks]
  split_ifs <;> rfl

theorem importPcap_some {file : MetaFile} {pkts : List Packet} {sp : Spcap n}
    (h : importPcap (fun _ => true) file pkts = some sp) :
    Covers n file.startBlock ∧ (captured pkts : Streams n).Fit ∧ Imported file pkts sp := by
  by_cases hc : Covers n file.startBlock
  · obtain ⟨hfit, hnot⟩ := importPcap_covered hc pkts
    by_cases hf : (captured pkts : Streams n).Fit
    · obtain ⟨sp', he, hi⟩ := hfit hf
      obtain rfl := Option.some.inj (h.symm.trans he)
      exact ⟨hc, hf, hi⟩
    · simp [hnot hf] at h
  · simp [importPcap_uncovered hc] at h

theorem Stored.length_lt {file : MetaFile} {pkts : List Packet} (h : Stored n file pkts) (d : Fin n) :
    (captured pkts d).length < superSectorLength := by
  obtain ⟨sp, himport, hd⟩ := h
  obtain ⟨_, _, hi⟩ := importPcap_some himport
  obtain ⟨data, hw, _⟩ := hi.wrote_eq
  obtain ⟨pad, _, ⟨m, hm⟩, heq⟩ := hd d
  rw [Imported.filter_wrote hw] at heq
  have hcount := congrArg List.length heq
  have hdiv : (captured pkts d ++ pad).length / superSectorLength = m := by
    rw [hm, Nat.mul_div_cancel_left _ (by decide)]
  rw [supersectors, List.length_map, List.length_range, hdiv] at hcount
  rw [List.length_append] at hm
  by_contra hlt
  split_ifs at hcount with hdirty
  · simp only [superSectorLength_eq, List.length_singleton] at *
    omega
  · simp only [superSectorLength_eq, List.length_nil] at *
    omega

theorem length_captured_pos (pkts : List Packet) (d : Fin n) : 0 < (captured pkts d).length := by
  simp [captured, zeroHeader, headerLength]

theorem getD_zeros (l : List UInt8) (k a : ℕ) : (l ++ List.replicate k 0).getD a 0 = l.getD a 0 := by
  rcases Nat.lt_or_ge a l.length with ha | ha
  · rw [List.getD_append _ _ _ _ ha]
  · rw [List.getD_append_right _ _ _ _ ha, List.getD_eq_default _ _ ha]
    simp [List.getD_eq_getElem?_getD, List.getElem?_replicate]
    split_ifs <;> rfl

theorem stored_iff (file : MetaFile) (pkts : List Packet) :
    Stored n file pkts ↔ Covers n file.startBlock ∧
      ∀ d : Fin n, (captured pkts d).length < superSectorLength := by
  constructor
  · intro h
    refine ⟨?_, h.length_lt⟩
    obtain ⟨sp, himport, _⟩ := h
    exact (importPcap_some himport).1
  · rintro ⟨hc, hlt⟩
    have hfit : (captured pkts : Streams n).Fit := fun d => (hlt d).le.trans (by decide)
    obtain ⟨sp, he, hi⟩ := (importPcap_covered hc pkts).1 hfit
    obtain ⟨data, hw, hdata⟩ := hi.wrote_eq
    refine ⟨sp, he, fun d => ?_⟩
    have hpos := length_captured_pos pkts d
    have hd := hlt d
    have hpad : (captured pkts d ++
        List.replicate (superSectorLength - (captured pkts d).length) 0).length = superSectorLength := by
      rw [List.length_append, List.length_replicate]
      omega
    refine ⟨List.replicate (superSectorLength - (captured pkts d).length) 0, ?_, ?_, ?_⟩
    · rw [List.length_replicate]
      omega
    · rw [hpad]
    · have hdirty : (captured pkts d).length % superSectorLength ≠ 0 := by
        rw [Nat.mod_eq_of_lt hd]
        omega
      rw [Imported.filter_wrote hw, if_pos hdirty, supersectors, hpad, Nat.div_self (by decide),
        List.range_one, List.map_singleton, hdata d hd]
      have hzero : UInt64.ofNat 0 = 0 := rfl
      simp only [getD_zeros, Nat.zero_mul, Nat.zero_add, hzero, UInt64.add_zero]

theorem length_captured_one (pkts : List Packet) :
    (captured pkts (0 : Fin 1)).length = (pkts.map fun p => p.record.length).sum + headerLength := by
  have hone : ∀ f, spcapDstDisk f = (0 : Fin 1) := fun f => Subsingleton.elim _ _
  have hfold : ∀ S : Streams 1, (pkts.foldl Streams.route S 0).length =
      (S 0).length + (pkts.map fun p => p.record.length).sum := by
    induction pkts with
    | nil => simp
    | cons p ps ih =>
      intro S
      simp [ih, Streams.route, Streams.append, hone, Nat.add_assoc]
  simp [captured, streams, hfold, zeroHeader]

theorem Packet.length_record (p : Packet) : p.record.length = headerLength + p.len.toNat := by
  simp [Packet.record]

theorem stored_one_packet :
    Stored 1 { name := fun _ => 65, startBlock := 256, endBlock := 256 }
      [{ len := 60, caplen := 60, payload := fun _ => 1 }] := by
  refine (stored_iff _ _).mpr ⟨fun d => ⟨0, by decide, Subsingleton.elim _ _⟩, fun d => ?_⟩
  rw [Subsingleton.elim d 0, length_captured_one]
  simp [Packet.length_record, headerLength]

/-- Two packets of 65535 bytes on one disk reach the end of the first supersector, and nothing of
them is stored after it. -/
theorem capture_not_stored :
    ¬ ∀ pkts : List Packet, (∀ p ∈ pkts, p.len = p.caplen ∧ p.len.toNat < 65536) →
      Stored 1 { name := fun _ => 65, startBlock := 256, endBlock := 256 } pkts := by
  intro h
  have hlt := (h (List.replicate 2 { len := 65535, caplen := 65535, payload := fun _ => 0 })
    (by simp)).length_lt 0
  rw [length_captured_one] at hlt
  simp [Packet.length_record, headerLength] at hlt

end PcapReplay
