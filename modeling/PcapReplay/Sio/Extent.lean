import PcapReplay.Sio.Staged

/-! What the raid transfers can write, whatever the machine answers. -/

namespace PcapReplay
open Interaction Dma Prog
variable {own : Space → ℕ → Prop}

def Op.Within (own : Space → ℕ → Prop) : Op → Prop
  | .cmd c => ∀ s a, c.xfer.Writes s a → own s a
  | .memcpy dst src len => ∀ s a, (memXfer dst src len).Writes s a → own s a
  | .writeWait ns lba _ =>
    ∀ a, lba.toNat * sectorLength ≤ a → a < (lba.toNat + 1) * sectorLength → own (.disk ns) a
  | _ => True

theorem World.step_confined {π : Policy} {o : Op} {w w' : World} {r : Ans o} {m₀ : Store Space UInt8}
    (hmem : ∀ buf a, own (.mem buf) a) (ho : o.Within own) (h : World.step π o w r w')
    (hc : Bus.Confined own m₀ w.bus) : Bus.Confined own m₀ w'.bus := by
  obtain ⟨b, hdrift, h⟩ := h
  have hb := hc.evolves hdrift.evolves
  cases o with
  | cmd c =>
    rcases h with ⟨_, rfl⟩ | ⟨_, _, rfl⟩
    · exact hb.submit c.ns ho
    · exact hb
  | schedule =>
    obtain rfl := h
    exact hb
  | process ns =>
    obtain ⟨k, b', hk, rfl⟩ := h
    exact hb.completes hk
  | waiting =>
    obtain ⟨_, rfl⟩ := h
    exact hb
  | malloc len zero =>
    rcases h with ⟨_, m, hm, _, rfl⟩ | ⟨_, _, rfl⟩
    · refine hb.setStore fun s a hs => hm s a ?_
      rintro rfl
      exact hs (hmem _ a)
    · exact hb
  | memcpy dst src len =>
    obtain rfl := h
    exact hb.exec ho
  | readWait ns lba =>
    obtain ⟨rfl, _⟩ := h
    exact hb
  | writeWait ns lba data =>
    rcases h with ⟨_, rfl⟩ | ⟨_, _, rfl⟩
    · refine hb.setStore fun s a hs => if_neg ?_
      rintro ⟨rfl, hle, hlt⟩
      exact hs (ho a hle hlt)
    · exact hb

variable {n : ℕ} [NeZero n]

/-- What a transfer may do: everything but to submit other commands than those for its requests, each of them
for one disk. A request may be cut anywhere. -/
structure Allows (P : Op → Prop) (R : UInt64 → UInt32 → Prop) (dir : Dir) (raid : NvmeRaid n) : Prop where
  schedule : P .schedule
  process : ∀ i, P (.process (raid.ns i))
  waiting : P .waiting
  malloc : ∀ len, P (.malloc len false)
  memcpy : ∀ dst src len, P (.memcpy dst src len)
  cmd : ∀ payload {lba lbaCount}, R lba lbaCount → lbaCount.toNat ≤ toBoundary lba →
    P (.cmd (sioCmd dir raid payload lba lbaCount))
  head : ∀ {lba lbaCount k}, R lba lbaCount → k ≤ lbaCount.toNat → R lba (UInt32.ofNat k)
  tail : ∀ {lba lbaCount k}, R lba lbaCount → k ≤ lbaCount.toNat →
    R (lba + UInt64.ofNat k) (lbaCount - UInt32.ofNat k)

section transfers
variable {P : Op → Prop} {R : UInt64 → UInt32 → Prop} {dir : Dir} {raid : NvmeRaid n} (h : Allows P R dir raid)
include h

theorem pollAll_ensures : Ensures P (fun _ => True) (pollAll raid) := by
  unfold pollAll
  induction List.finRange n with
  | nil => exact ensures_pure trivial
  | cons i l ih => exact (ensures_ask (h.process i)).bind fun _ _ => ih

theorem sioWaittasks_ensures (rounds : ℕ) : Ensures P (fun _ => True) (sioWaittasks raid rounds) := by
  induction rounds with
  | zero => exact ensures_pure trivial
  | succ rounds ih =>
    refine (ensures_ask h.waiting).bind fun again _ => ?_
    cases again with
    | false => exact ensures_pure trivial
    | true => exact (pollAll_ensures h).bind fun _ _ => ih

theorem sioLoop_ensures (k : ℕ) (payload : Ptr) (lba : UInt64) (lbaCount : UInt32)
    (hlba : lba.toNat % superSectorNum = 0) (hr : R lba lbaCount) :
    Ensures P (fun r => ∀ p, r = .ok p → R p.2.1 p.2.2.val) (sioLoop dir raid k payload lba lbaCount) := by
  induction k, payload, lba, lbaCount using sioLoop.induct with
  | case1 k payload lba lbaCount hle ih₀ ih₁ =>
    have hlba' : (lba + UInt64.ofNat superSectorNum).toNat % superSectorNum = 0 := by
      have hmod : lba.toNat % 256 = 0 := hlba
      rw [UInt64.toNat_add, superSectorNum_eq, show (UInt64.ofNat 256).toNat = 256 from rfl]
      omega
    have hone : (UInt32.ofNat superSectorNum).toNat ≤ toBoundary lba := by
      rw [toBoundary, hlba]
      decide
    rw [sioLoop, dif_pos hle]
    refine (ensures_ask (h.cmd payload (h.head hr hle) hone)).bind fun rc _ => ?_
    split_ifs
    · exact ensures_pure fun p hp => by simp at hp
    · refine (ensures_ask h.schedule).bind fun _ _ => ?_
      exact (pollAll_ensures h).bind fun _ _ => ih₀ hlba' (h.tail hr hle)
    · exact (ensures_ask h.schedule).bind fun _ _ => ih₁ hlba' (h.tail hr hle)
  | case2 k payload lba lbaCount hlt =>
    rw [sioLoop, dif_neg hlt]
    apply ensures_pure
    rintro p hp
    obtain rfl := Except.ok.inj hp
    exact hr

theorem sioTransfer_ensures (payload : Ptr) (lba : UInt64) (lbaCount : UInt32) (hr : R lba lbaCount) :
    Ensures P (fun _ => True) (sioTransfer dir raid payload lba lbaCount) := by
  have hend : Ensures P (fun _ => True) (pollAll raid >>= fun _ => (pure 0 : Nvme ℤ)) :=
    (pollAll_ensures h).bind fun _ _ => ensures_pure trivial
  induction payload, lba, lbaCount using sioTransfer.induct with
  | case1 payload lba lbaCount hfit =>
    rw [sioTransfer, dif_pos hfit]
    refine (ensures_ask (h.cmd payload hr hfit)).bind fun rc _ => ?_
    split_ifs
    · exact ensures_pure trivial
    · exact (ensures_ask h.schedule).bind fun _ _ => hend
  | case2 payload lba lbaCount hfit hhead ih₁ ih₂ =>
    have hle : toBoundary lba ≤ lbaCount.toNat := (Nat.lt_of_not_le hfit).le
    rw [sioTransfer, dif_neg hfit, dif_pos hhead]
    refine (ih₁ (h.head hr hle)).bind fun rc _ => ?_
    split_ifs
    · exact ensures_pure trivial
    · refine (ih₂ (h.tail hr hle)).bind fun rc _ => ?_
      split_ifs
      · exact ensures_pure trivial
      · exact hend
  | case3 payload lba lbaCount hfit hhead ih =>
    rw [not_not] at hhead
    rw [sioTransfer, dif_neg hfit, dif_neg (not_not.mpr hhead)]
    refine (sioLoop_ensures h 0 payload lba lbaCount hhead hr).bind fun r hloop => ?_
    cases r with
    | error rc => exact ensures_pure trivial
    | ok p =>
      have hrest := hloop p rfl
      obtain ⟨payload', lba', rest⟩ := p
      show Ensures _ _ (if rest.val ≠ 0 then sioTransfer dir raid payload' lba' rest.val >>= fun _ =>
        pollAll raid >>= fun _ => pure 0 else pollAll raid >>= fun _ => pure 0)
      split_ifs
      · exact (ih payload' lba' rest hrest).bind fun _ _ => hend
      · exact hend

theorem sioChunk_ensures (rounds : ℕ) (inLoop : Bool) (mem payload : Ptr) (lba : UInt64) (blocks : ℕ)
    (hr : R lba (UInt32.ofNat blocks)) :
    Ensures P (fun _ => True) (sioChunk dir raid rounds inLoop mem payload lba blocks) := by
  have htransfer := sioTransfer_ensures h mem lba _ hr
  unfold sioChunk
  cases dir with
  | write =>
    simp only [if_true, reduceCtorEq, if_false]
    refine (ensures_ask (h.memcpy mem payload _)).bind fun _ _ => htransfer.bind fun ret _ => ?_
    split_ifs
    · exact ensures_pure trivial
    · refine (sioWaittasks_ensures h rounds).bind fun done _ => ?_
      cases done with
      | none => exact ensures_pure trivial
      | some _ => exact ensures_pure trivial
  | read =>
    simp only [if_true, reduceCtorEq, if_false]
    refine htransfer.bind fun ret _ => ?_
    split_ifs
    · exact ensures_pure trivial
    · refine (sioWaittasks_ensures h rounds).bind fun done _ => ?_
      cases done with
      | none => exact ensures_pure trivial
      | some _ => exact (ensures_ask (h.memcpy payload mem _)).bind fun _ _ => ensures_pure trivial

theorem sioChunks_ensures (rounds : ℕ) (mem payload : Ptr) (lba : UInt64) (lbaCount : UInt32)
    (hr : R lba lbaCount) : Ensures P (fun _ => True) (sioChunks dir raid rounds mem payload lba lbaCount) := by
  induction payload, lba, lbaCount using @sioChunks.induct n _ with
  | case1 payload lba lbaCount hle ih =>
    rw [sioChunks, dif_pos hle]
    refine (sioChunk_ensures h rounds true mem payload lba _ (h.head hr hle)).bind fun r _ => ?_
    split
    · exact ih (h.tail hr hle)
    · exact ensures_pure trivial
  | case2 payload lba lbaCount hlt hpos =>
    rw [sioChunks, dif_neg hlt, if_pos hpos]
    exact sioChunk_ensures h rounds false mem payload lba _ (h.head hr le_rfl)
  | case3 payload lba lbaCount hlt hzero =>
    rw [sioChunks, dif_neg hlt, if_neg hzero]
    exact ensures_pure trivial

theorem sioTransferPinit_ensures (rounds : ℕ) (payload : Ptr) (lba : UInt64) (lbaCount : UInt32)
    (hr : R lba lbaCount) : Ensures P (fun _ => True) (sioTransferPinit dir raid rounds payload lba lbaCount) := by
  refine (ensures_ask (h.malloc _)).bind fun mem _ => ?_
  cases mem with
  | none => exact ensures_pure trivial
  | some mem => exact sioChunks_ensures h rounds ⟨mem, 0⟩ payload lba lbaCount hr

end transfers

def DataCells (raid : NvmeRaid n) (lba count : ℕ) (s : Space) (a : ℕ) : Prop :=
  (∃ buf, s = .mem buf) ∨ BlockCells raid lba count s a

section cells
variable {raid : NvmeRaid n} {start count : ℕ}

theorem memcpy_within (dst src : Ptr) (len : ℕ) :
    (Op.memcpy dst src len).Within (DataCells raid start count) :=
  fun _ _ h => Or.inl ⟨_, h.1⟩

theorem sioCmd_within (dir : Dir) (payload : Ptr) {lba : UInt64} {lbaCount : UInt32}
    (hto : lbaCount.toNat ≤ toBoundary lba) (hstart : start ≤ lba.toNat)
    (hend : lba.toNat + lbaCount.toNat ≤ start + count) (hlt : start + count < 2 ^ 64) :
    (Op.cmd (sioCmd dir raid payload lba lbaCount)).Within (DataCells raid start count) := by
  intro s a h
  cases dir with
  | read => exact Or.inl ⟨_, h.1⟩
  | write =>
    have hdvd : sectorLength ∣ (sioCmd .write raid payload lba lbaCount).xfer.len := Nat.dvd_mul_left _ _
    have hparts := sioCmd_parts .write raid payload (show lba.toNat % 256 + lbaCount.toNat ≤ 256 by
      simp only [toBoundary, superSectorNum_eq] at hto
      omega) (by omega)
    rw [UInt64.ofNat_toNat, UInt32.ofNat_toNat] at hparts
    obtain ⟨p, hp, hw⟩ := (Xfer.writes_iff_parts hdvd s a).mp h
    rw [hparts, List.mem_map] at hp
    obtain ⟨i, hi, rfl⟩ := hp
    rw [List.mem_range] at hi
    obtain ⟨rfl, hle, hlt'⟩ := hw
    refine Or.inr ⟨lba.toNat + i, ⟨by omega, by omega⟩, rfl, hle, ?_⟩
    simpa only [Command.xfer, sioCmd, UInt32.toNat_one, Nat.one_mul, blockByte] using hlt'

theorem allows_within (dir : Dir) (hlt : start + count < 2 ^ 64) :
    Allows (Op.Within (DataCells raid start count))
      (fun lba lbaCount => start ≤ lba.toNat ∧ lba.toNat + lbaCount.toNat ≤ start + count) dir raid where
  schedule := trivial
  process _ := trivial
  waiting := trivial
  malloc _ := trivial
  memcpy := memcpy_within
  cmd payload _ _ hr hto := sioCmd_within dir payload hto hr.1 hr.2 hlt
  head := by
    intro lba lbaCount k hr hk
    have hofNat : (UInt32.ofNat k).toNat = k := UInt32.toNat_ofNat_of_lt' (hk.trans_lt lbaCount.toNat_lt)
    rw [hofNat]
    exact ⟨hr.1, by omega⟩
  tail := by
    intro lba lbaCount k hr hk
    rw [toNat_add_ofNat (by omega), toNat_sub_ofNat hk]
    exact ⟨by omega, by omega⟩

end cells
end PcapReplay
