import PcapReplay.Spcap.Accounts

/-! Which of the bytes at a packet are stored, for captures with a snap length. -/

namespace PcapReplay
open Spcap
variable {n : ℕ}

theorem stream_eq {sp : Spcap n} {d : Fin n} {buff : ℕ → UInt8} (hb : sp.buffs d = some buff) :
    sp.stream d = bytesOf (sp.dataWrote d) buff := by
  unfold Spcap.stream
  rw [hb]

theorem bytesOf_copied (buff : ℕ → UInt8) (w k : ℕ) (payload : ℕ → UInt8) :
    bytesOf (w + k) (copied buff w k payload) = bytesOf w buff ++ bytesOf k payload := by
  unfold bytesOf
  rw [List.range_add, List.map_append, List.map_map]
  congr 1
  · apply List.map_congr_left
    intro a ha
    have hlt := List.mem_range.mp ha
    exact if_neg (by omega)
  · apply List.map_congr_left
    intro i hi
    have hlt := List.mem_range.mp hi
    have hin : w ≤ w + i ∧ w + i < w + k := by omega
    show copied buff w k payload (w + i) = payload i
    unfold copied
    rw [if_pos hin, Nat.add_sub_cancel_left]

theorem bytesOf_inj {k : ℕ} {p q : ℕ → UInt8} (h : bytesOf k p = bytesOf k q) {i : ℕ} (hi : i < k) :
    p i = q i := List.map_inj_left.mp h i (List.mem_range.mpr hi)

theorem bytesOf_recorded (p : Pkt) (buff : ℕ → UInt8) (w : ℕ) :
    bytesOf (w + (headerLength + p.size)) (recorded p buff w) =
      bytesOf w buff ++ bytesOf headerLength (fun i => spcapHeader p.nsw8 p.size p.esize (sourceIndex w i)) ++
        bytesOf p.size fun i => p.payload (sourceIndex (w + headerLength) i) := by
  rw [recorded, ← Nat.add_assoc, bytesOf_copied, bytesOf_copied]

variable [NeZero n]

def StoresCaptured (sp : Spcap n) (len caplen : UInt32) : Prop :=
  ∀ payload : ℕ → UInt8, ∃ sp' header,
    writePCAPPkt sp { len := len, caplen := caplen, payload := payload } = some sp' ∧
    header.length = headerLength ∧
    sp'.stream (spcapDstDisk sp.dataWrote) =
      sp.stream (spcapDstDisk sp.dataWrote) ++ header ++ bytesOf caplen.toNat payload

theorem writePCAPPkt_stream {sp sp' : Spcap n} (hl : Level sp) {p : Packet}
    (h : writePCAPPkt sp p = some sp') :
    sp'.stream (spcapDstDisk sp.dataWrote) = sp.stream (spcapDstDisk sp.dataWrote) ++
      bytesOf headerLength (fun i => spcapHeader 0 p.len.toNat p.caplen.toNat
        (sourceIndex (sp.dataWrote (spcapDstDisk sp.dataWrote)) i)) ++
      bytesOf p.len.toNat fun i =>
        p.payload (sourceIndex (sp.dataWrote (spcapDstDisk sp.dataWrote) + headerLength) i) := by
  obtain ⟨buff, hb, _, rfl⟩ := (writePkt_eq_some hl
    { nsw8 := 0, size := p.len.toNat, esize := p.caplen.toNat, payload := p.payload }).mp h
  rw [stream_eq hb, stream_eq (filled_buffs sp _ _ _), filled_dataWrote]
  exact bytesOf_recorded _ buff _

theorem writePCAPPkt_iff {sp : Spcap n} (hl : Level sp) (p : Packet) :
    (∃ sp', writePCAPPkt sp p = some sp') ↔ sp.buffs (spcapDstDisk sp.dataWrote) ≠ none ∧
      sp.dataWrote (spcapDstDisk sp.dataWrote) + (headerLength + p.len.toNat) ≤ buffSize :=
  (⟨rfl, rfl, rfl, fun _ => Iff.rfl, hl, rfl⟩ : Staged sp sp sp.dataWrote).writePkt_iff
    { nsw8 := 0, size := p.len.toNat, esize := p.caplen.toNat, payload := p.payload }

theorem storesCaptured_iff_of_level {sp : Spcap n} (hl : Level sp) (len caplen : UInt32) :
    StoresCaptured sp len caplen ↔
      sp.buffs (spcapDstDisk sp.dataWrote) ≠ none ∧
      sp.dataWrote (spcapDstDisk sp.dataWrote) + (headerLength + len.toNat) ≤ buffSize ∧
      caplen = len ∧ len.toNat ≤ room (sp.dataWrote (spcapDstDisk sp.dataWrote) + headerLength) := by
  generalize hstart : sp.dataWrote (spcapDstDisk sp.dataWrote) + headerLength = start
  constructor
  · intro h
    have hstored : ∀ payload, caplen = len ∧
        bytesOf len.toNat (fun i => payload (sourceIndex start i)) = bytesOf caplen.toNat payload := by
      intro payload
      obtain ⟨sp', header, hw, hlength, hstream⟩ := h payload
      rw [writePCAPPkt_stream hl hw, hstart, List.append_assoc, List.append_assoc] at hstream
      obtain ⟨_, hpayload⟩ := List.append_inj (List.append_cancel_left hstream)
        ((length_bytesOf _ _).trans hlength.symm)
      have hlen := congrArg List.length hpayload
      rw [length_bytesOf, length_bytesOf] at hlen
      exact ⟨(UInt32.toNat_inj.mp hlen).symm, hpayload⟩
    obtain ⟨sp', _, hw, _⟩ := h fun _ => 0
    obtain ⟨hb, hfit⟩ := (writePCAPPkt_iff hl _).mp ⟨sp', hw⟩
    refine ⟨hb, hfit, (hstored fun _ => 0).1, ?_⟩
    -- behind a boundary stands the first byte of the payload once more
    by_contra hcross
    obtain ⟨rfl, hbytes⟩ := hstored fun i => if i = room start then 1 else 0
    have hroom := room_pos start
    have hbyte := bytesOf_inj hbytes (Nat.not_le.mp hcross)
    have hsource : sourceIndex start (room start) = 0 := by
      rw [sourceIndex, if_neg (Nat.lt_irrefl _), Nat.sub_self, Nat.zero_mod]
    dsimp only at hbyte
    rw [hsource, if_neg hroom.ne, if_pos rfl] at hbyte
    exact absurd hbyte (by decide)
  · rintro ⟨hb, hfit, rfl, hroom⟩ payload
    obtain ⟨sp', hw⟩ :=
      (writePCAPPkt_iff hl { len := caplen, caplen := caplen, payload := payload }).mpr ⟨hb, hfit⟩
    have hstream := writePCAPPkt_stream hl hw
    rw [hstart] at hstream
    have hsource : ∀ i ∈ List.range caplen.toNat, payload (sourceIndex start i) = payload i := by
      intro i hi
      have hlt := List.mem_range.mp hi
      rw [sourceIndex_of_lt (by omega)]
    have hbytes : bytesOf caplen.toNat (fun i => payload (sourceIndex start i)) =
        bytesOf caplen.toNat payload := List.map_congr_left hsource
    rw [hbytes] at hstream
    exact ⟨sp', _, hw, length_bytesOf _ _, hstream⟩

/-- The captured bytes alone are stored if and only if the packet was captured whole and stays in
the supersector and in the buffer. -/
theorem storesCaptured_iff {sp : Spcap n} (h : Written sp) (len caplen : UInt32) :
    StoresCaptured sp len caplen ↔
      sp.buffs (spcapDstDisk sp.dataWrote) ≠ none ∧
      sp.dataWrote (spcapDstDisk sp.dataWrote) + (headerLength + len.toNat) ≤ buffSize ∧
      caplen = len ∧ len.toNat ≤ room (sp.dataWrote (spcapDstDisk sp.dataWrote) + headerLength) :=
  storesCaptured_iff_of_level h.level len caplen

theorem newFile_destination :
    (initial newFile : Spcap 1).buffs (spcapDstDisk (initial newFile : Spcap 1).dataWrote) ≠ none ∧
      (initial newFile : Spcap 1).dataWrote (spcapDstDisk (initial newFile : Spcap 1).dataWrote) = 0 := by
  obtain ⟨hb, hw⟩ := newFile_start (spcapDstDisk (initial newFile : Spcap 1).dataWrote)
  exact ⟨by simp [hb], hw⟩

theorem storesCaptured_whole_packet : StoresCaptured (initial newFile : Spcap 1) 60 60 := by
  obtain ⟨hb, hw⟩ := newFile_destination
  refine (storesCaptured_iff written_newFile 60 60).mpr ⟨hb, ?_, rfl, ?_⟩
  · rw [hw]
    decide
  · rw [hw]
    decide

/-- Of a packet of 1500 bytes that was cut at 96, 1404 bytes behind the buffer are stored too. -/
theorem cut_packet_read_past :
    Written (initial newFile : Spcap 1) ∧ ¬ StoresCaptured (initial newFile : Spcap 1) 1500 96 := by
  refine ⟨written_newFile, fun h => ?_⟩
  obtain ⟨_, _, hlen, _⟩ := (storesCaptured_iff_of_level written_newFile.level 1500 96).mp h
  exact absurd hlen (by decide)

end PcapReplay
