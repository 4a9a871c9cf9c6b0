import PcapReplay.Lib.Records
import PcapReplay.Spcap.Placement
import PcapReplay.Spcap.Records

/-! Which captures can be read again from the records that the writer makes of them. -/

namespace PcapReplay
open LittleEndian Records Spcap
variable {n : ℕ} [NeZero n]

def sizeField (header : List UInt8) : ℕ := value 2 fun i => header.getD (4 + i) 0

def spcapFormat : Format UInt8 where
  width := headerLength
  pos := by decide
  size := sizeField
  stop header := decide (header = zeroHeader)

def Packet.bytes (p : Packet) : List UInt8 := bytesOf p.len.toNat p.payload

def HeadersHold : List UInt8 → List Packet → Prop
  | _, [] => True
  | l, p :: ps =>
    (sizeField (l.take headerLength) = p.len.toNat ∧ l.take headerLength ≠ zeroHeader) ∧
      HeadersHold (l.drop (headerLength + p.len.toNat)) ps

structure Recovers (l : List UInt8) (pkts : List Packet) : Prop where
  headers : HeadersHold l pkts
  reads : spcapFormat.Reads l (pkts.map Packet.bytes)

def Readable (n : ℕ) [NeZero n] (file : MetaFile) (pkts : List Packet) : Prop :=
  ∃ sp : Spcap n, importPcap (fun _ => true) file pkts = some sp ∧
    ∀ d, Recovers (sp.stream d) (routed pkts d)

/-- The length fits its field, and what a boundary repeats of the record written at `w` does not
show. -/
structure Packet.Legible (p : Packet) (w : ℕ) : Prop where
  pos : 0 < p.len.toNat
  lt : p.len.toNat < 65536
  header : 6 ≤ room w ∨ room w = 5 ∧ p.len.toNat < 256
  payload : ∀ i, room (w + headerLength) + i < p.len.toNat →
    p.payload i = p.payload (room (w + headerLength) + i)

def Legible : ℕ → List Packet → Prop
  | _, [] => True
  | w, p :: ps => p.Legible w ∧ Legible (w + (headerLength + p.len.toNat)) ps

section record
variable {p : Packet} {w : ℕ}

theorem bytesOf_eq_iff {size : ℕ} {f g : ℕ → UInt8} :
    bytesOf size f = bytesOf size g ↔ ∀ i < size, f i = g i := by
  unfold bytesOf
  rw [List.map_inj_left]
  simp only [List.mem_range]

theorem getD_bytesOf {size i : ℕ} (f : ℕ → UInt8) (h : i < size) : (bytesOf size f).getD i 0 = f i := by
  simp [bytesOf, h]

theorem copiedAt_payload_iff {size : ℕ} (hsize : size ≤ superSectorLength) (payload : ℕ → UInt8) :
    copiedAt w size payload = bytesOf size payload ↔
      ∀ i, room w + i < size → payload i = payload (room w + i) := by
  rw [copiedAt_eq hsize, bytesOf_eq_iff]
  constructor
  · intro h i hi
    have hlate := h (room w + i) hi
    rwa [if_neg (by omega), Nat.add_sub_cancel_left] at hlate
  · intro h i hi
    split_ifs with hroom
    · rfl
    · have hlate := h (i - room w) (by omega)
      rwa [Nat.add_sub_cancel' (Nat.not_lt.mp hroom)] at hlate

def headerAt (p : Packet) (w : ℕ) : List UInt8 :=
  copiedAt w headerLength (spcapHeader 0 p.len.toNat p.caplen.toNat)

variable (p w) in
theorem sizeField_headerAt : sizeField (headerAt p w) =
    (if 4 < room w then p.len.toNat % 256 else 0) +
      256 * (if 5 < room w then p.len.toNat / 256 % 256
        else if room w = 1 then p.len.toNat % 256 else 0) := by
  have hroom := room_pos w
  have hlow : ∀ i < 4, spcapHeader 0 p.len.toNat p.caplen.toNat i = 0 := by
    intro i hi
    simp [spcapHeader, hi, byte]
  have hfour : (spcapHeader 0 p.len.toNat p.caplen.toNat 4).toNat = p.len.toNat % 256 := by
    simp [spcapHeader, byte]
  have hfive : (spcapHeader 0 p.len.toNat p.caplen.toNat 5).toNat = p.len.toNat / 256 % 256 := by
    simp [spcapHeader, byte]
  unfold sizeField headerAt
  rw [copiedAt_eq (by decide)]
  simp only [value, Nat.mul_zero, Nat.add_zero, Nat.zero_add, getD_bytesOf _ (by decide : 4 < headerLength),
    getD_bytesOf _ (by decide : 4 + 1 < headerLength)]
  congr 1
  · split_ifs with h
    · exact hfour
    · rw [hlow _ (by omega)]
      rfl
  · congr 1
    split_ifs with h h₁
    · exact hfive
    · rw [h₁]
      exact hfour
    · rw [hlow _ (by omega)]
      rfl

theorem headerAt_iff (hcap : p.caplen = p.len) :
    sizeField (headerAt p w) = p.len.toNat ∧ headerAt p w ≠ zeroHeader ↔
      0 < p.len.toNat ∧ p.len.toNat < 65536 ∧ (6 ≤ room w ∨ room w = 5 ∧ p.len.toNat < 256) := by
  have hroom := room_pos w
  have hsize := sizeField_headerAt p w
  constructor
  · rintro ⟨hfield, hne⟩
    have hpos : 0 < p.len.toNat := by
      by_contra hzero
      have hlen : p.len.toNat = 0 := by omega
      apply hne
      rw [headerAt, hcap, hlen]
      exact copiedAt_zero w
    rw [hsize] at hfield
    refine ⟨hpos, ?_⟩
    split_ifs at hfield <;> omega
  · rintro ⟨hpos, hlt, hwhole⟩
    have hfield : sizeField (headerAt p w) = p.len.toNat := by
      rw [hsize]
      split_ifs <;> omega
    refine ⟨hfield, fun hzero => ?_⟩
    rw [hzero] at hfield
    have hempty : sizeField zeroHeader = 0 := by decide
    omega

theorem packet_legible_iff (hcap : p.caplen = p.len) :
    p.Legible w ↔ (sizeField (headerAt p w) = p.len.toNat ∧ headerAt p w ≠ zeroHeader) ∧
      copiedAt (w + headerLength) p.len.toNat p.payload = p.bytes := by
  rw [headerAt_iff hcap]
  constructor
  · intro h
    exact ⟨⟨h.pos, h.lt, h.header⟩, (copiedAt_payload_iff (h.lt.le.trans (by decide)) _).mpr h.payload⟩
  · rintro ⟨⟨hpos, hlt, hheader⟩, hpayload⟩
    exact ⟨hpos, hlt, hheader, (copiedAt_payload_iff (hlt.le.trans (by decide)) _).mp hpayload⟩

end record

theorem recovers_nil : Recovers zeroHeader [] := by
  have hstop : spcapFormat.stop zeroHeader = true := by
    show decide (zeroHeader = zeroHeader) = true
    exact decide_eq_true rfl
  exact ⟨trivial, spcapFormat.reads_stop (length_bytesOf _ _) hstop⟩

theorem recovers_cons {header body rest : List UInt8} {p : Packet} {ps : List Packet}
    (hh : header.length = headerLength) (hb : body.length = p.len.toNat) :
    Recovers (header ++ (body ++ rest)) (p :: ps) ↔
      ((sizeField header = p.len.toNat ∧ header ≠ zeroHeader) ∧ body = p.bytes) ∧ Recovers rest ps := by
  have htake : (header ++ (body ++ rest)).take headerLength = header := List.take_left' hh
  have hdrop : (header ++ (body ++ rest)).drop (headerLength + p.len.toNat) = rest := by
    rw [← List.drop_drop, List.drop_left' hh]
    exact List.drop_left' hb
  have hholds : HeadersHold (header ++ (body ++ rest)) (p :: ps) ↔
      (sizeField header = p.len.toNat ∧ header ≠ zeroHeader) ∧ HeadersHold rest ps := by
    rw [HeadersHold, htake, hdrop]
  -- what is read of a good header
  have hreads : sizeField header = p.len.toNat → header ≠ zeroHeader →
      (spcapFormat.Reads (header ++ (body ++ rest)) ((p :: ps).map Packet.bytes) ↔
        body = p.bytes ∧ spcapFormat.Reads rest (ps.map Packet.bytes)) := by
    intro hsize hne
    have hgo : spcapFormat.stop header = false := decide_eq_false hne
    exact spcapFormat.reads_record_iff hh hgo (hb.trans hsize.symm)
  constructor
  · intro h
    obtain ⟨⟨hsize, hne⟩, hrest⟩ := hholds.mp h.headers
    obtain ⟨hbody, hread⟩ := (hreads hsize hne).mp h.reads
    exact ⟨⟨⟨hsize, hne⟩, hbody⟩, hrest, hread⟩
  · rintro ⟨⟨⟨hsize, hne⟩, hbody⟩, hrest⟩
    exact ⟨hholds.mpr ⟨⟨hsize, hne⟩, hrest.headers⟩, (hreads hsize hne).mpr ⟨hbody, hrest.reads⟩⟩

theorem recovers_iff_legible (w : ℕ) (pkts : List Packet) (hcap : ∀ p ∈ pkts, p.caplen = p.len) :
    Recovers (storedAt w pkts ++ zeroHeader) pkts ↔ Legible w pkts := by
  induction pkts generalizing w with
  | nil => exact ⟨fun _ => trivial, fun _ => recovers_nil⟩
  | cons p ps ih =>
    have hp : p.caplen = p.len := hcap p List.mem_cons_self
    have hsplit : storedAt w (p :: ps) ++ zeroHeader =
        headerAt p w ++ (copiedAt (w + headerLength) p.len.toNat p.payload ++
          (storedAt (w + (headerLength + p.len.toNat)) ps ++ zeroHeader)) := by
      simp only [storedAt, Packet.recordAt, headerAt, List.append_assoc]
    have hheader : (headerAt p w).length = headerLength := length_copiedAt _ _ _
    rw [hsplit, recovers_cons hheader (length_copiedAt _ _ _), ← packet_legible_iff hp,
      ih _ fun q hq => hcap q (List.mem_cons_of_mem p hq), Legible]

theorem readable_iff_legible {file : MetaFile} {pkts : List Packet} (hcap : ∀ p ∈ pkts, p.caplen = p.len) :
    Readable n file pkts ↔ Covers n file.startBlock ∧ (captured pkts : Streams n).Fit ∧
      ∀ d : Fin n, Legible 0 (routed pkts d) := by
  have hdisk : ∀ d : Fin n, Recovers (storedAt 0 (routed pkts d) ++ zeroHeader) (routed pkts d) ↔
      Legible 0 (routed pkts d) := fun d =>
    recovers_iff_legible 0 (routed pkts d) fun p hp => hcap p (mem_routed hp)
  constructor
  · rintro ⟨sp, himport, hreads⟩
    obtain ⟨hcovers, hfit, _⟩ := importPcap_some himport
    refine ⟨hcovers, hfit, fun d => (hdisk d).mp ?_⟩
    rw [← importPcap_stream himport]
    exact hreads d
  · rintro ⟨hcovers, hfit, hlegible⟩
    obtain ⟨sp, himport, _⟩ := (importPcap_covered hcovers pkts).1 hfit
    refine ⟨sp, himport, fun d => ?_⟩
    rw [importPcap_stream himport]
    exact (hdisk d).mpr (hlegible d)

/-- A capture can be read again exactly if it stays in its buffers and each of its packets is legible
where it is written. Two such captures with the same stream on a disk have the same packets there. -/
theorem capture_decodable {file : MetaFile} {pkts : List Packet} (hcap : ∀ p ∈ pkts, p.caplen = p.len) :
    (Readable n file pkts ↔ Covers n file.startBlock ∧ (captured pkts : Streams n).Fit ∧
        ∀ d : Fin n, Legible 0 (routed pkts d)) ∧
      ∀ file' pkts' (sp sp' : Spcap n), Readable n file pkts → Readable n file' pkts' →
        importPcap (fun _ => true) file pkts = some sp → importPcap (fun _ => true) file' pkts' = some sp' →
        ∀ d pad pad', sp.stream d ++ pad = sp'.stream d ++ pad' →
          (routed pkts d).map Packet.bytes = (routed pkts' d).map Packet.bytes := by
  refine ⟨readable_iff_legible hcap, fun file' pkts' sp sp' h h' himport himport' d pad pad' heq => ?_⟩
  obtain ⟨sp₁, h₁, hreads⟩ := h
  obtain ⟨sp₂, h₂, hreads'⟩ := h'
  obtain rfl := Option.some.inj (himport.symm.trans h₁)
  obtain rfl := Option.some.inj (himport'.symm.trans h₂)
  exact (hreads d).reads.unique (hreads' d).reads heq

theorem routed_one_disk (pkts : List Packet) (d : Fin 1) : routed pkts d = pkts := by
  have hfold : ∀ (l : List Packet) (R : Fin 1 → List Packet), l.foldl routePacket R d = R d ++ l := by
    intro l
    induction l with
    | nil => simp
    | cons p ps ih =>
      intro R
      rw [List.foldl_cons, ih, routePacket, Subsingleton.elim (spcapDstDisk _) d, Function.update_self,
        List.append_assoc, List.singleton_append]
  exact hfold pkts fun _ => []

theorem capture_decodable_one_packet :
    Readable 1 { name := fun _ => 65, startBlock := 256, endBlock := 256 }
      [{ len := 60, caplen := 60, payload := fun _ => 1 }] := by
  refine (capture_decodable (by simp)).1.mpr ⟨covers_of_le (by decide), fun d => ?_, fun d => ?_⟩
  · rw [Subsingleton.elim d 0, length_captured_one]
    simp [Packet.length_record, headerLength]
  · rw [routed_one_disk]
    exact ⟨⟨by decide, by decide, Or.inl (by decide), fun i _ => rfl⟩, trivial⟩

/-- The size of a packet of 65536 bytes does not fit its header. -/
theorem long_packet_unreadable :
    ¬ ∀ pkts : List Packet, (∀ p ∈ pkts, p.caplen = p.len) →
      Readable 1 { name := fun _ => 65, startBlock := 256, endBlock := 256 } pkts := by
  intro h
  have hcap : ∀ p ∈ [({ len := 65536, caplen := 65536, payload := fun _ => 1 } : Packet)],
      p.caplen = p.len := by simp
  have hlegible := ((readable_iff_legible hcap).mp (h _ hcap)).2.2 0
  rw [routed_one_disk] at hlegible
  exact absurd hlegible.1.lt (by decide)

end PcapReplay
