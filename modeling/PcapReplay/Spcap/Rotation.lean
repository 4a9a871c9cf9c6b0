import PcapReplay.Lib.Pool
import PcapReplay.Spcap.Readable

/-! The file of a capture that takes one supersector of each disk, and what can be read from it. -/

namespace PcapReplay
open Records Custody Spcap
variable {n : ℕ} [NeZero n]

def supersector (i : ℕ) (bytes : List UInt8) : List UInt8 :=
  (bytes.drop (i * superSectorLength)).take superSectorLength

/-- The bytes give the packets back: every supersector reads as some of them, in their order, and all of
them together as each packet once. -/
structure CaptureOf (n : ℕ) (bytes : List UInt8) (pkts : List Packet) : Prop where
  length : bytes.length = n * superSectorLength
  parts : ∃ parts : Fin n → List Packet, ∑ i, (parts i : Multiset Packet) = pkts ∧
    (∀ i, (parts i).Sublist pkts) ∧
    ∀ i : Fin n, spcapFormat.Reads (supersector i bytes) ((parts i).map Packet.bytes)

/-- No disk gets a whole supersector, and the headers hold the lengths of the packets. -/
structure OneRotation (n : ℕ) [NeZero n] (pkts : List Packet) : Prop where
  short : ∀ d : Fin n, (captured pkts d).length < superSectorLength
  whole : ∀ p ∈ pkts, p.caplen = p.len
  sized : ∀ p ∈ pkts, 0 < p.len.toNat ∧ p.len.toNat < 65536

def captureBytes (n : ℕ) [NeZero n] (startBlock : UInt64) (pkts : List Packet) : List UInt8 :=
  bytesOf (n * superSectorLength) fun a =>
    (captured pkts (initDisk startBlock (a / superSectorLength) : Fin n)).getD (a % superSectorLength) 0

def records (pkts : List Packet) : List UInt8 := (pkts.map Packet.record).flatten

theorem records_cons (p : Packet) (ps : List Packet) : records (p :: ps) = p.record ++ records ps := rfl

theorem records_append (ps qs : List Packet) : records (ps ++ qs) = records ps ++ records qs := by
  rw [records, List.map_append, List.flatten_append]
  rfl

theorem records_singleton (p : Packet) : records [p] = p.record := List.append_nil _

theorem length_storedAt (w : ℕ) (pkts : List Packet) : (storedAt w pkts).length = (records pkts).length := by
  induction pkts generalizing w with
  | nil => rfl
  | cons p ps ih =>
    rw [storedAt, records_cons, List.length_append, List.length_append, Packet.length_recordAt,
      Packet.length_record, ih]

theorem room_of_lt {w : ℕ} (h : w < superSectorLength) : room w = superSectorLength - w := by
  rw [room, Nat.mod_eq_of_lt h]

theorem storedAt_eq_records {w : ℕ} {pkts : List Packet}
    (h : w + (records pkts).length ≤ superSectorLength) : storedAt w pkts = records pkts := by
  induction pkts generalizing w with
  | nil => rfl
  | cons p ps ih =>
    rw [records_cons, List.length_append, Packet.length_record] at h
    have hpos : 0 < headerLength := by decide
    have hfirst : room w = superSectorLength - w := room_of_lt (by omega)
    have hheader : headerLength ≤ room w := by omega
    have hpayload : p.len.toNat ≤ room (w + headerLength) := by
      rcases Nat.lt_or_ge (w + headerLength) superSectorLength with hlt | hge
      · rw [room_of_lt hlt]
        omega
      · omega
    rw [storedAt, records_cons, Packet.recordAt, Packet.record, copiedAt, dif_pos hheader, copiedAt,
      dif_pos hpayload, ih (by omega)]

theorem legible_of_short {w : ℕ} {pkts : List Packet}
    (h : w + (records pkts).length + headerLength ≤ superSectorLength)
    (hsized : ∀ p ∈ pkts, 0 < p.len.toNat ∧ p.len.toNat < 65536) : Legible w pkts := by
  induction pkts generalizing w with
  | nil => trivial
  | cons p ps ih =>
    rw [records_cons, List.length_append, Packet.length_record] at h
    have height : headerLength = 8 := rfl
    obtain ⟨hpos, hlt⟩ := hsized p List.mem_cons_self
    have hheader : room w = superSectorLength - w := room_of_lt (by omega)
    have hpayload : room (w + headerLength) = superSectorLength - (w + headerLength) := room_of_lt (by omega)
    refine ⟨⟨hpos, hlt, Or.inl (by omega), fun i hi => ?_⟩, ih (by omega) fun q hq => ?_⟩
    · omega
    · exact hsized q (List.mem_cons_of_mem p hq)

theorem streams_eq_records (pkts : List Packet) (d : Fin n) : streams pkts d = records (routed pkts d) := by
  have hfold : ∀ (l : List Packet) (S : Streams n) (R : Fin n → List Packet),
      (∀ d, S d = records (R d)) → ∀ d, l.foldl Streams.route S d = records (l.foldl routePacket R d) := by
    intro l
    induction l with
    | nil => exact fun S R h => h
    | cons p ps ih =>
      intro S R h
      apply ih
      intro e
      have hdst : (fun d => (S d).length) = fun d => (storedAt 0 (R d)).length := by
        funext d
        rw [h, length_storedAt]
      rw [Streams.route, routePacket, hdst]
      generalize spcapDstDisk (fun d => (storedAt 0 (R d)).length) = dst
      by_cases he : e = dst
      · subst he
        rw [Streams.append, Function.update_self, Function.update_self, records_append, h, records_singleton]
      · rw [Streams.append, Function.update_of_ne he, Function.update_of_ne he, h]
  exact hfold pkts (fun _ => []) (fun _ => []) (fun _ => rfl) d

theorem routed_sublist (pkts : List Packet) (d : Fin n) : (routed pkts d).Sublist pkts := by
  have hfold : ∀ (l : List Packet) (R : Fin n → List Packet), (l.foldl routePacket R d).Sublist (R d ++ l) := by
    intro l
    induction l with
    | nil =>
      intro R
      rw [List.append_nil]
      exact .refl _
    | cons p ps ih =>
      intro R
      apply (ih (routePacket R p)).trans
      unfold routePacket
      generalize spcapDstDisk (fun d => (storedAt 0 (R d)).length) = dst
      by_cases he : d = dst
      · subst he
        rw [Function.update_self, List.append_assoc]
        exact .refl _
      · rw [Function.update_of_ne he]
        exact (List.sublist_cons_self p ps).append_left _
  exact hfold pkts fun _ => []

theorem sum_routed (pkts : List Packet) : ∑ d : Fin n, (routed pkts d : Multiset Packet) = pkts := by
  have hfold : ∀ (l : List Packet) (R : Fin n → List Packet),
      ∑ d, (l.foldl routePacket R d : Multiset Packet) = ∑ d, (R d : Multiset Packet) + l := by
    intro l
    induction l with
    | nil => exact fun R => (add_zero _).symm
    | cons p ps ih =>
      intro R
      rw [List.foldl_cons, ih]
      unfold routePacket
      generalize spcapDstDisk (fun d => (storedAt 0 (R d)).length) = dst
      have hupdate : (fun d => (Function.update R dst (R dst ++ [p]) d : Multiset Packet)) =
          Function.update (fun d => (R d : Multiset Packet)) dst ((R dst : Multiset Packet) + {p}) := by
        funext d
        by_cases he : d = dst
        · subst he
          rw [Function.update_self, Function.update_self, ← Multiset.coe_add, Multiset.coe_singleton]
        · rw [Function.update_of_ne he, Function.update_of_ne he]
      have hsum := sum_update_add (fun d => (R d : Multiset Packet)) dst ((R dst : Multiset Packet) + {p})
      apply add_right_cancel (b := (R dst : Multiset Packet))
      rw [hupdate, add_right_comm, hsum, ← Multiset.cons_coe, ← Multiset.singleton_add]
      abel
  exact (hfold pkts fun _ => []).trans (by simp)

section reading
variable {pkts : List Packet} {startBlock : UInt64}

theorem OneRotation.reads (h : OneRotation n pkts) (d : Fin n) :
    spcapFormat.Reads (captured pkts d) ((routed pkts d).map Packet.bytes) := by
  have hshort := h.short d
  rw [captured, streams_eq_records, List.length_append] at hshort
  have hzero : zeroHeader.length = headerLength := length_bytesOf _ _
  have hsized : ∀ p ∈ routed pkts d, 0 < p.len.toNat ∧ p.len.toNat < 65536 :=
    fun p hp => h.sized p (mem_routed hp)
  have hlegible : Legible 0 (routed pkts d) := legible_of_short (by omega) hsized
  have hrecovers := (recovers_iff_legible 0 _ fun p hp => h.whole p (mem_routed hp)).mpr hlegible
  rw [storedAt_eq_records (by omega), ← streams_eq_records] at hrecovers
  exact hrecovers.reads

theorem length_captureBytes : (captureBytes n startBlock pkts).length = n * superSectorLength :=
  length_bytesOf _ _

theorem getD_captureBytes {i a : ℕ} (hi : i < n) (ha : a < superSectorLength) :
    (captureBytes n startBlock pkts).getD (i * superSectorLength + a) 0 =
      (captured pkts (initDisk startBlock i : Fin n)).getD a 0 := by
  have hle : (i + 1) * superSectorLength ≤ n * superSectorLength := Nat.mul_le_mul_right _ hi
  rw [Nat.succ_mul] at hle
  rw [captureBytes, getD_bytesOf _ (by omega), Nat.mul_comm i, Nat.mul_add_div (by decide),
    Nat.div_eq_of_lt ha, Nat.add_zero, Nat.mul_add_mod, Nat.mod_eq_of_lt ha]

theorem supersector_captureBytes {i : ℕ} (hi : i < n)
    (hshort : (captured pkts (initDisk startBlock i : Fin n)).length ≤ superSectorLength) :
    supersector i (captureBytes n startBlock pkts) = captured pkts (initDisk startBlock i : Fin n) ++
      List.replicate (superSectorLength - (captured pkts (initDisk startBlock i : Fin n)).length) 0 := by
  have hle : (i + 1) * superSectorLength ≤ n * superSectorLength := Nat.mul_le_mul_right _ hi
  rw [Nat.succ_mul] at hle
  have hlength : (supersector i (captureBytes n startBlock pkts)).length = superSectorLength := by
    rw [supersector, List.length_take, List.length_drop, length_captureBytes]
    omega
  apply List.ext_getElem
  · rw [hlength, List.length_append, List.length_replicate]
    omega
  · intro a ha ha'
    have hbyte := @getD_captureBytes _ _ pkts startBlock _ _ hi (hlength ▸ ha)
    rw [List.getD_eq_getElem _ _ (by rw [length_captureBytes]; omega)] at hbyte
    rw [← getD_zeros _ (superSectorLength - (captured pkts (initDisk startBlock i : Fin n)).length),
      List.getD_eq_getElem _ _ ha'] at hbyte
    rw [← hbyte]
    simp [supersector]

theorem captureOf_captureBytes (hc : Covers n startBlock) (h : OneRotation n pkts) :
    CaptureOf n (captureBytes n startBlock pkts) pkts := by
  refine ⟨length_captureBytes, fun i => routed pkts (initDisk startBlock i : Fin n), ?_, ?_, ?_⟩
  · have hinj : Function.Injective fun i : Fin n => (initDisk startBlock i : Fin n) :=
      fun i j hij => Fin.ext (hc.injOn i.isLt j.isLt hij)
    have hbij := Finite.injective_iff_bijective.mp hinj
    rw [hbij.sum_comp fun d => (routed pkts d : Multiset Packet), sum_routed]
  · exact fun i => routed_sublist pkts _
  · intro i pad
    rw [supersector_captureBytes i.isLt (h.short _).le, List.append_assoc]
    exact h.reads _ _

end reading
end PcapReplay
