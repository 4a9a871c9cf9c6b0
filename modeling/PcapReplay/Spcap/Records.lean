import PcapReplay.Spcap.Stored

/-! The records of a capture, byte for byte as the writer leaves them in the staging buffers. -/

namespace PcapReplay
open LittleEndian Spcap
variable {n : ℕ}

def room (w : ℕ) : ℕ := superSectorLength - w % superSectorLength

def copiedAt (w size : ℕ) (payload : ℕ → UInt8) : List UInt8 :=
  if _h : size ≤ room w then bytesOf size payload
  else bytesOf (room w) payload ++ copiedAt (w + room w) (size - room w) payload
termination_by size
decreasing_by
  have hused : w % superSectorLength < superSectorLength := Nat.mod_lt _ (by decide)
  simp only [room] at _h ⊢
  omega

theorem room_pos (w : ℕ) : 0 < room w := by
  have hused : w % superSectorLength < superSectorLength := Nat.mod_lt _ (by decide)
  unfold room
  omega

theorem room_boundary (w : ℕ) : room (w + room w) = superSectorLength := by
  have hused : w % superSectorLength < superSectorLength := Nat.mod_lt _ (by decide)
  have hmod : (w + room w) % superSectorLength = 0 := by
    simp only [room, superSectorLength_eq] at *
    omega
  rw [room, hmod, Nat.sub_zero]

theorem toWrite_eq (w size : ℕ) :
    (if superSectorLength < w % superSectorLength + size then superSectorLength - w % superSectorLength
      else size) = if size ≤ room w then size else room w := by
  have hused : w % superSectorLength < superSectorLength := Nat.mod_lt _ (by decide)
  unfold room
  split_ifs <;> omega

@[simp] theorem length_copiedAt (w size : ℕ) (payload : ℕ → UInt8) :
    (copiedAt w size payload).length = size := by
  induction size using Nat.strong_induction_on generalizing w with
  | _ size ih =>
    have hpos := room_pos w
    rw [copiedAt]
    split_ifs with hle
    · exact length_bytesOf size payload
    · rw [List.length_append, length_bytesOf, ih _ (by omega)]
      omega

theorem copiedAt_eq {w size : ℕ} (hsize : size ≤ superSectorLength) (payload : ℕ → UInt8) :
    copiedAt w size payload =
      bytesOf size fun i => if i < room w then payload i else payload (i - room w) := by
  rw [copiedAt]
  split_ifs with hle
  · apply List.map_congr_left
    intro i hi
    have hlt := List.mem_range.mp hi
    rw [if_pos (by omega)]
  · have hrest : copiedAt (w + room w) (size - room w) payload = bytesOf (size - room w) payload := by
      rw [copiedAt, dif_pos]
      rw [room_boundary]
      omega
    rw [hrest]
    apply List.ext_getElem
    · simp only [List.length_append, length_bytesOf]
      omega
    · intro i h₁ h₂
      rw [List.getElem_append]
      simp only [bytesOf, List.getElem_map, List.getElem_range, List.length_map, List.length_range]
      split_ifs <;> rfl

structure Content (sp : Spcap n) (T : Streams n) : Prop where
  buff : ∀ d, sp.buffs d = some fun a => (T d).getD a 0
  ptr : ∀ d, sp.currPtr d = (T d).length
  data : ∀ d, sp.dataWrote d = (T d).length

section content
variable {sp sp' : Spcap n} {T : Streams n} {d : Fin n}

theorem Content.put {k : ℕ} {payload : ℕ → UInt8} (hc : Content sp T)
    (h : sp.put d k payload = some sp') : Content sp' (T.append d (bytesOf k payload)) := by
  unfold Spcap.put at h
  simp only [hc.buff, hc.ptr] at h
  split_ifs at h
  obtain rfl := Option.some.inj h
  constructor
  · intro e
    by_cases he : e = d
    · subst he
      simp only [Streams.append, Function.update_self, copied_stream]
    · simp [Streams.append, he, hc.buff]
  · intro e
    by_cases he : e = d
    · subst he
      simp [Streams.append]
    · simp [Streams.append, he, hc.ptr]
  · intro e
    by_cases he : e = d
    · subst he
      simp [Streams.append, hc.data]
    · simp [Streams.append, he, hc.data]

theorem Content.writeBuff {size : ℕ} {payload : ℕ → UInt8} (hc : Content sp T)
    (hpos : 0 < (T d).length + size) (h : writeBuff sp d size payload = some sp') :
    Content sp' (T.append d (copiedAt (T d).length size payload)) := by
  induction size using Nat.strong_induction_on generalizing sp T with
  | _ size ih =>
    have hroom := room_pos (T d).length
    rw [PcapReplay.writeBuff] at h
    simp only [hc.data d, toWrite_eq] at h
    obtain ⟨sp₁, h₁, h⟩ := Option.bind_eq_some_iff.mp h
    obtain ⟨sp₂, h₂, h₃⟩ := Option.bind_eq_some_iff.mp h
    have hc₁ := hc.put h₁
    -- the flush is skipped, for some bytes were written
    have hone : (if sp₁.dataWrote d = 0 then 1 else 0) % superSectorLength = 0 := by
      have hne : sp₁.dataWrote d ≠ 0 := by
        rw [hc₁.data]
        simp only [Streams.append, Function.update_self, List.length_append, length_bytesOf]
        split_ifs <;> omega
      rw [if_neg hne, Nat.zero_mod]
    rw [hone, if_neg (by simp)] at h₂
    obtain rfl := Option.some.inj h₂
    rw [copiedAt]
    by_cases hle : size ≤ room (T d).length
    · simp only [if_pos hle, Nat.sub_self, dite_true] at h₃ hc₁
      rw [dif_pos hle, ← Option.some.inj h₃]
      exact hc₁
    · have hrest : size - room (T d).length ≠ 0 := by omega
      simp only [if_neg hle, dif_neg hrest] at h₃ hc₁
      have hlength : ((T.append d (bytesOf (room (T d).length) payload)) d).length =
          (T d).length + room (T d).length := by simp [Streams.append]
      have hc₂ := ih _ (by omega) hc₁ (by omega) h₃
      rw [hlength, Streams.append_append] at hc₂
      rw [dif_neg hle]
      exact hc₂

end content

def Packet.recordAt (p : Packet) (w : ℕ) : List UInt8 :=
  copiedAt w headerLength (spcapHeader 0 p.len.toNat p.caplen.toNat) ++
    copiedAt (w + headerLength) p.len.toNat p.payload

def storedAt : ℕ → List Packet → List UInt8
  | _, [] => []
  | w, p :: ps => p.recordAt w ++ storedAt (w + (headerLength + p.len.toNat)) ps

@[simp] theorem Packet.length_recordAt (p : Packet) (w : ℕ) :
    (p.recordAt w).length = headerLength + p.len.toNat := by
  simp [Packet.recordAt]

theorem storedAt_append (w : ℕ) (l : List Packet) (p : Packet) :
    storedAt w (l ++ [p]) = storedAt w l ++ p.recordAt (w + (storedAt w l).length) := by
  induction l generalizing w with
  | nil => simp [storedAt]
  | cons q qs ih =>
    rw [List.cons_append, storedAt, ih, storedAt]
    simp only [List.length_append, Packet.length_recordAt, List.append_assoc, Nat.add_assoc]

variable [NeZero n]

def routePacket (R : Fin n → List Packet) (p : Packet) : Fin n → List Packet :=
  let dstDisk := spcapDstDisk fun d => (storedAt 0 (R d)).length
  Function.update R dstDisk (R dstDisk ++ [p])

def routed (pkts : List Packet) : Fin n → List Packet := pkts.foldl routePacket fun _ => []

theorem mem_routePacket {R : Fin n → List Packet} {p q : Packet} {d : Fin n}
    (h : p ∈ routePacket R q d) : p = q ∨ p ∈ R d := by
  unfold routePacket at h
  generalize spcapDstDisk (fun d => (storedAt 0 (R d)).length) = e at h
  by_cases hde : d = e
  · subst hde
    rw [Function.update_self] at h
    rcases List.mem_append.mp h with hR | hq
    · exact Or.inr hR
    · exact Or.inl (List.mem_singleton.mp hq)
  · rw [Function.update_of_ne hde] at h
    exact Or.inr h

theorem mem_routed {pkts : List Packet} {d : Fin n} {p : Packet} (h : p ∈ routed pkts d) : p ∈ pkts := by
  have hfold : ∀ (l : List Packet) (R : Fin n → List Packet),
      p ∈ l.foldl routePacket R d → p ∈ l ∨ p ∈ R d := by
    intro l
    induction l with
    | nil => exact fun _ => Or.inr
    | cons q qs ih =>
      intro R hp
      rcases ih (routePacket R q) hp with hq | hR
      · exact Or.inl (List.mem_cons_of_mem q hq)
      · rcases mem_routePacket hR with rfl | hR
        · exact Or.inl List.mem_cons_self
        · exact Or.inr hR
  simpa using hfold pkts (fun _ => []) h

section run
variable {sp sp' : Spcap n} {pkts : List Packet}

theorem Content.writePCAPPkt {T : Streams n} {p : Packet} (hc : Content sp T)
    (h : writePCAPPkt sp p = some sp') :
    Content sp' (T.append (spcapDstDisk fun d => (T d).length)
      (p.recordAt (T (spcapDstDisk fun d => (T d).length)).length)) := by
  have hdst : spcapDstDisk sp.dataWrote = spcapDstDisk fun d => (T d).length :=
    congrArg spcapDstDisk (funext hc.data)
  obtain ⟨sp₁, h₁, h₂⟩ := Option.bind_eq_some_iff.mp h
  rw [hdst] at h₁ h₂
  generalize spcapDstDisk (fun d => (T d).length) = d at h₁ h₂ ⊢
  have hc₁ := hc.writeBuff (by simp [headerLength]) h₁
  have hlength : (T.append d (copiedAt (T d).length headerLength
      (spcapHeader 0 p.len.toNat p.caplen.toNat)) d).length = (T d).length + headerLength := by
    simp [Streams.append]
  have hc₂ := hc₁.writeBuff (by rw [hlength]; simp [headerLength]) h₂
  rwa [hlength, Streams.append_append] at hc₂

theorem content_routed {R : Fin n → List Packet} (hc : Content sp fun d => storedAt 0 (R d))
    (h : pkts.foldlM PcapReplay.writePCAPPkt sp = some sp') :
    Content sp' fun d => storedAt 0 (pkts.foldl routePacket R d) := by
  induction pkts generalizing sp R with
  | nil =>
    obtain rfl := Option.some.inj h
    exact hc
  | cons p ps ih =>
    rw [List.foldlM_cons] at h
    obtain ⟨sp₁, h₁, h₂⟩ := Option.bind_eq_some_iff.mp h
    have hroute : (fun d => storedAt 0 (routePacket R p d)) =
        Streams.append (fun d => storedAt 0 (R d)) (spcapDstDisk fun d => (storedAt 0 (R d)).length)
          (p.recordAt (storedAt 0 (R (spcapDstDisk fun d => (storedAt 0 (R d)).length))).length) := by
      unfold routePacket
      generalize spcapDstDisk (fun d => (storedAt 0 (R d)).length) = e
      funext d
      by_cases hde : d = e
      · subst hde
        simp [Streams.append, storedAt_append]
      · simp [Streams.append, hde]
    have hc₁ := hc.writePCAPPkt h₁
    rw [← hroute] at hc₁
    exact ih hc₁ h₂

theorem spcapHeader_zero : spcapHeader 0 0 0 = fun _ => 0 := by
  funext a
  simp [spcapHeader, byte]

theorem copiedAt_zero (w : ℕ) : copiedAt w headerLength (spcapHeader 0 0 0) = zeroHeader := by
  rw [copiedAt_eq (by decide), spcapHeader_zero, zeroHeader, spcapHeader_zero]
  simp only [ite_self]

omit [NeZero n] in
theorem Content.headers {T : Streams n} (hc : Content sp T) (ds : List (Fin n))
    (h : ds.foldlM (fun sp d => PcapReplay.writeBuff sp d headerLength (spcapHeader 0 0 0)) sp = some sp') :
    Content sp' (ds.foldl (fun T d => T.append d zeroHeader) T) := by
  induction ds generalizing sp T with
  | nil =>
    obtain rfl := Option.some.inj h
    exact hc
  | cons d ds ih =>
    rw [List.foldlM_cons] at h
    obtain ⟨sp₁, h₁, h₂⟩ := Option.bind_eq_some_iff.mp h
    have hc₁ := hc.writeBuff (by simp [headerLength]) h₁
    rw [copiedAt_zero] at hc₁
    exact ih hc₁ h₂

omit [NeZero n] in
theorem flushBuffs_keeps (h : flushBuffs sp = some sp') :
    sp'.buffs = sp.buffs ∧ sp'.dataWrote = sp.dataWrote := by
  have hdisk : ∀ (s : Spcap n) d s', flushDisk s d = some s' →
      s.buffs = sp.buffs ∧ s.dataWrote = sp.dataWrote →
        s'.buffs = sp.buffs ∧ s'.dataWrote = sp.dataWrote := by
    intro s d s' hflush hs
    unfold flushDisk at hflush
    by_cases hdirty : s.dataWrote d % superSectorLength ≠ 0
    · rw [if_pos hdirty] at hflush
      obtain ⟨hbuffs, hdata⟩ := Spcap.store_keeps hflush
      exact ⟨hbuffs.trans hs.1, hdata.trans hs.2⟩
    · rw [if_neg hdirty] at hflush
      rwa [← Option.some.inj hflush]
  have hself : sp.buffs = sp.buffs ∧ sp.dataWrote = sp.dataWrote := ⟨rfl, rfl⟩
  exact foldlM_some_keeps hdisk h hself

def Spcap.stream (sp : Spcap n) (d : Fin n) : List UInt8 :=
  match sp.buffs d with
  | none => []
  | some buff => bytesOf (sp.dataWrote d) buff

theorem bytesOf_getD (l : List UInt8) : (bytesOf l.length fun a => l.getD a 0) = l := by
  apply List.ext_getElem
  · exact length_bytesOf _ _
  · intro i h₁ h₂
    simp [bytesOf, h₂]

theorem importPcap_stream {file : MetaFile} (h : importPcap (fun _ => true) file pkts = some sp)
    (d : Fin n) : sp.stream d = storedAt 0 (routed pkts d) ++ zeroHeader := by
  obtain ⟨hcovers, _⟩ := importPcap_some h
  have hstart : Content (initial file : Spcap n) fun d => storedAt 0 [] := by
    have hinit := initial_holds hcovers
    refine ⟨fun d => ?_, hinit.ptr, hinit.data⟩
    obtain ⟨buff, hb, hempty⟩ := hinit.buff d
    rw [hb, hempty (by decide)]
    rfl
  obtain ⟨sp₁, h₁, h₂⟩ := Option.bind_eq_some_iff.mp h
  obtain ⟨sp₂, h₃, h₄⟩ := Option.bind_eq_some_iff.mp h₂
  have hc := (content_routed hstart h₁).headers (List.finRange n) h₃
  rw [closed_eq] at hc
  obtain ⟨hbuffs, hdata⟩ := flushBuffs_keeps h₄
  unfold Spcap.stream
  rw [hbuffs, hdata, hc.buff, hc.data]
  exact bytesOf_getD _

end run
end PcapReplay
