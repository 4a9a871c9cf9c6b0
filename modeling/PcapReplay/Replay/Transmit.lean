import PcapReplay.Lib.Custody
import PcapReplay.Replay.Runtime
import PcapReplay.Replay.Tuples

/-! Who has an mbuf while an lcore receives and sends. -/

namespace PcapReplay
open Interaction Prog Custody Tokens
variable {ports lcores : UInt32}

def custodyEvent : ((o : IoOp) × IoAns o) → Option (Event Mbuf)
  | ⟨.rxBurst _ _ _, pkts⟩ => some (.take pkts)
  | ⟨.ctrlmbufAlloc, none⟩ => none
  | ⟨.ctrlmbufAlloc, some m⟩ => some (.take [m])
  | ⟨.txBurst _ _ txPkts nbPkts, nPkts⟩ => some (.hand txPkts nbPkts.toNat nPkts.toNat)
  | ⟨.mbufFree m, _⟩ => some (.drop m)
  | ⟨.index _ _, _⟩ => none

def custodyEvents (t : IoTrace) : List (Event Mbuf) := t.filterMap custodyEvent

/-- Before the next mbufs are taken, and at the end, those before have been sent or freed, once. -/
def Conserved (t : IoTrace) : Prop := Settles (custodyEvents t)

theorem custodyEvents_append (t₁ t₂ : IoTrace) :
    custodyEvents (t₁ ++ t₂) = custodyEvents t₁ ++ custodyEvents t₂ := List.filterMap_append

def OnePacket (bszTxWr : UInt32) (t : IoTrace) : Prop :=
  bszTxWr = 1 ∨ ∀ m : Mbuf, (⟨.ctrlmbufAlloc, some m⟩ : (o : IoOp) × IoAns o) ∉ t

structure Judged (bszTxWr : UInt32) (t : IoTrace) : Prop where
  settles : OnePacket bszTxWr t → run 0 (custodyEvents t) = some 0
  fails : ¬ OnePacket bszTxWr t → run 0 (custodyEvents t) = none

section judged
variable {bszTxWr : UInt32} {t t₁ t₂ : IoTrace}

theorem onePacket_append : OnePacket bszTxWr (t₁ ++ t₂) ↔ OnePacket bszTxWr t₁ ∧ OnePacket bszTxWr t₂ := by
  unfold OnePacket
  rw [← or_and_left]
  apply or_congr_right
  simp only [List.mem_append, not_or, forall_and]

theorem onePacket_nil : OnePacket bszTxWr [] := Or.inr fun _ => List.not_mem_nil

theorem onePacket_singleton {e : (o : IoOp) × IoAns o} (h : ∀ m : Mbuf, e ≠ ⟨.ctrlmbufAlloc, some m⟩) :
    OnePacket bszTxWr [e] := Or.inr fun m hm => h m (List.mem_singleton.mp hm).symm

theorem Judged.conserved_iff (h : Judged bszTxWr t) : Conserved t ↔ OnePacket bszTxWr t := by
  constructor
  · intro hconserved
    by_contra hnot
    have hfails := h.fails hnot
    unfold Conserved Settles at hconserved
    rw [hconserved] at hfails
    exact Option.some_ne_none 0 hfails
  · exact h.settles

theorem Judged.append (h₁ : Judged bszTxWr t₁) (h₂ : Judged bszTxWr t₂) : Judged bszTxWr (t₁ ++ t₂) := by
  constructor
  · intro h
    obtain ⟨ho₁, ho₂⟩ := onePacket_append.mp h
    rw [custodyEvents_append, run_append, h₁.settles ho₁]
    exact h₂.settles ho₂
  · intro h
    rw [custodyEvents_append, run_append]
    by_cases ho₁ : OnePacket bszTxWr t₁
    · rw [h₁.settles ho₁]
      exact h₂.fails fun ho₂ => h (onePacket_append.mpr ⟨ho₁, ho₂⟩)
    · rw [h₁.fails ho₁]
      rfl

theorem judged_nil : Judged bszTxWr [] := ⟨fun _ => rfl, fun h => absurd onePacket_nil h⟩

theorem judged_index (a : IoArray) (i : ℕ) : Judged bszTxWr [⟨.index a i, ()⟩] :=
  ⟨fun _ => rfl, fun h => absurd (onePacket_singleton (by simp)) h⟩

theorem dropAll_drops {pkts : List Mbuf} {j : ℕ} {r : Unit} (ht : Traces (dropAll j pkts) t r) :
    custodyEvents t = pkts.map .drop ∧ OnePacket bszTxWr t := by
  induction pkts generalizing j t with
  | nil =>
    obtain ⟨rfl, _⟩ := traces_pure.mp ht
    exact ⟨rfl, onePacket_nil⟩
  | cons pkt pkts ih =>
    obtain ⟨t₁, t', _, rfl, h₁, ht'⟩ := traces_bind.mp ht
    obtain ⟨t₂, t₃, _, rfl, h₂, h₃⟩ := traces_bind.mp ht'
    obtain rfl := traces_ask.mp h₁
    obtain rfl := traces_ask.mp h₂
    obtain ⟨hevents, hone⟩ := ih h₃
    refine ⟨congrArg (Event.drop pkt :: ·) hevents, ?_⟩
    apply onePacket_append.mpr
    exact ⟨onePacket_singleton (by simp), onePacket_append.mpr ⟨onePacket_singleton (by simp), hone⟩⟩

theorem rxQueue_judged {bszRd : UInt32} {q : NicQueue} {r : Unit} (ht : Traces (rxQueue bszRd q) t r) :
    Judged bszTxWr t := by
  obtain ⟨t₁, t₂, pkts, rfl, h₁, h₂⟩ := traces_bind.mp ht
  obtain rfl := traces_ask.mp h₁
  obtain ⟨hevents, hone⟩ := dropAll_drops h₂
  constructor
  · intro _
    show run 0 (.take pkts :: custodyEvents t₂) = some 0
    rw [hevents]
    exact run_drops pkts
  · intro h
    exact absurd (onePacket_append.mpr ⟨onePacket_singleton (by simp), hone⟩) h

theorem afterBurst_one {m : Mbuf} {port : UInt8} {nPkts : ℕ} {r : Unit} (hsent : nPkts ≤ 1)
    (ht : Traces (if nPkts < 1 then freeUnsent m nPkts 1 else indexArray .mbufOut port.toNat) t r) :
    run ([m].drop nPkts : Multiset Mbuf) (custodyEvents t) = some 0 := by
  rcases Nat.le_one_iff_eq_zero_or_eq_one.mp hsent with rfl | rfl
  · obtain ⟨t₁, t₂, _, rfl, h₁, h₂⟩ := traces_bind.mp ht
    obtain rfl := traces_ask.mp h₁
    obtain ⟨rfl, _⟩ := traces_pure.mp h₂
    exact run_drops [m]
  · obtain rfl := traces_ask.mp ht
    rfl

theorem txQueue_judged {q : NicQueue} {r : Unit} (hpos : 1 ≤ bszTxWr.toNat) (hmax : bszTxWr.toNat ≤ 512)
    (ht : Traces (txQueue bszTxWr q) t r) (hc : ∀ e ∈ t, BurstContract e.1 e.2) : Judged bszTxWr t := by
  obtain ⟨t₁, t₂, alloc, rfl, h₁, h₂⟩ := traces_bind.mp ht
  obtain rfl := traces_ask.mp h₁
  cases alloc with
  | none =>
    obtain ⟨rfl, _⟩ := traces_pure.mp h₂
    exact ⟨fun _ => rfl, fun h => absurd (onePacket_singleton (by simp)) h⟩
  | some m =>
    obtain ⟨t₃, t₄, nPkts, rfl, h₃, h₄⟩ := traces_bind.mp h₂
    obtain rfl := traces_ask.mp h₃
    have hevents : custodyEvents ([⟨.ctrlmbufAlloc, some m⟩] ++
        ([⟨.txBurst q.port q.queue [m] bszTxWr.toUInt16, nPkts⟩] ++ t₄)) =
        .take [m] :: .hand [m] bszTxWr.toNat nPkts.toNat :: custodyEvents t₄ := by
      rw [← toUInt16_toNat hmax]
      rfl
    by_cases hone : bszTxWr = 1
    · subst hone
      have hsent : nPkts.toNat ≤ 1 := hc ⟨.txBurst q.port q.queue [m] 1, nPkts⟩
        (List.mem_append_right _ (List.mem_append_left _ List.mem_cons_self))
      refine ⟨fun _ => ?_, fun h => absurd (Or.inl rfl) h⟩
      rw [hevents, @run_take_hand _ _ [m] (1 : UInt32).toNat le_rfl]
      exact afterBurst_one hsent h₄
    · refine ⟨fun h => h.elim (absurd · hone) fun hnone => absurd List.mem_cons_self (hnone m), fun _ => ?_⟩
      have hmore : [m].length < bszTxWr.toNat :=
        Nat.lt_of_le_of_ne hpos fun h => hone (UInt32.toNat_inj.mp h.symm)
      rw [hevents]
      exact run_take_hand_more hmore _ _

theorem overQueues_judged {io : IoSide} {side : Side} {body : NicQueue → Io Unit} {is : List ℕ} {r : Unit}
    (hbody : ∀ q t r, Traces (body q) t r → (∀ e ∈ t, BurstContract e.1 e.2) → Judged bszTxWr t)
    (ht : Traces (overQueues io side body is) t r) (hc : ∀ e ∈ t, BurstContract e.1 e.2) :
    Judged bszTxWr t := by
  induction is generalizing t with
  | nil =>
    obtain ⟨rfl, _⟩ := traces_pure.mp ht
    exact judged_nil
  | cons i is ih =>
    rw [overQueues] at ht
    obtain ⟨t₁, t₂, _, rfl, h₁, h₂⟩ := traces_bind.mp ht
    obtain rfl := traces_ask.mp h₁
    apply (judged_index _ i).append
    rw [List.forall_mem_append] at hc
    split_ifs at h₂ with hi
    · obtain ⟨t₃, t₄, _, rfl, h₃, h₄⟩ := traces_bind.mp h₂
      rw [List.forall_mem_append] at hc
      exact (hbody _ t₃ _ h₃ hc.2.1).append (ih h₄ hc.2.2)
    · obtain ⟨rfl, _⟩ := traces_pure.mp h₂
      exact judged_nil

end judged

theorem mainLoopIo_judged {replay : Replay ports lcores} {lcore : Fin lcores.toNat} {rounds : ℕ} {t : IoTrace}
    {r : Unit} (hpos : 1 ≤ (replay.burstSizeIo .tx).toNat) (hmax : (replay.burstSizeIo .tx).toNat ≤ 512)
    (ht : Traces (replayLcoreMainLoopIo replay lcore rounds) t r) (hc : ∀ e ∈ t, BurstContract e.1 e.2) :
    Judged (replay.burstSizeIo .tx) t := by
  induction rounds generalizing t with
  | zero =>
    obtain ⟨rfl, _⟩ := traces_pure.mp ht
    exact judged_nil
  | succ rounds ih =>
    obtain ⟨t₁, t', _, rfl, h₁, ht'⟩ := traces_bind.mp ht
    obtain ⟨t₂, t₃, _, rfl, h₂, h₃⟩ := traces_bind.mp ht'
    rw [List.forall_mem_append, List.forall_mem_append] at hc
    refine Judged.append ?_ (Judged.append ?_ (ih h₃ hc.2.2))
    · unfold ifQueues at h₁
      split_ifs at h₁
      · exact overQueues_judged (fun _ _ _ h _ => rxQueue_judged h) h₁ hc.1
      · obtain ⟨rfl, _⟩ := traces_pure.mp h₁
        exact judged_nil
    · unfold ifQueues at h₂
      split_ifs at h₂
      · exact overQueues_judged (fun _ _ _ h hc => txQueue_judged hpos hmax h hc) h₂ hc.2.1
      · obtain ⟨rfl, _⟩ := traces_pure.mp h₂
        exact judged_nil

/-- However long the loop runs, its packets are all sent or freed, once, when it sends one packet at
a time, and else only when it never gets one. -/
theorem transmit_conserves_iff (replay : Replay ports lcores) (lcore : Fin lcores.toNat) (rounds : ℕ)
    {t : IoTrace} (hpos : 1 ≤ (replay.burstSizeIo .tx).toNat) (hmax : (replay.burstSizeIo .tx).toNat ≤ 512)
    (ht : Traces (replayLcoreMainLoopIo replay lcore rounds) t ()) (hc : ∀ e ∈ t, BurstContract e.1 e.2) :
    Conserved t ↔ replay.burstSizeIo .tx = 1 ∨
      ∀ m : Mbuf, (⟨.ctrlmbufAlloc, some m⟩ : (o : IoOp) × IoAns o) ∉ t := by
  exact (mainLoopIo_judged hpos hmax ht hc).conserved_iff

def lcoreOne : Fin (128 : UInt32).toNat := ⟨1, by decide⟩

def oneQueue (burst : UInt32) : Replay 32 128 :=
  { ((Replay.zero 32 128).storeTuple (fun _ => true) .tx ⟨0, 0, 1, some 0⟩).2 with
    burstSizeIo := Function.update (Function.update (fun _ => 0) .rx 144) .tx burst }

theorem transmit_conserves_one_packet :
    Conserved (eagerTrace (replayLcoreMainLoopIo (oneQueue 1) lcoreOne 3)) := by
  have ht := traces_eager (replayLcoreMainLoopIo (oneQueue 1) lcoreOne 3)
  have hc := eagerTrace_contract (replayLcoreMainLoopIo (oneQueue 1) lcoreOne 3)
  exact (transmit_conserves_iff (oneQueue 1) lcoreOne 3 (by decide) (by decide) ht hc).mpr (Or.inl rfl)

theorem transmit_not_conserves : ∃ replay₁ replay : Replay 32 128,
    parseArgTx split (fun _ => true) ['(', '0', ',', '0', ',', '0', ',', '1', ')'] (Replay.zero 32 128) =
      some (0, replay₁) ∧
    parseArgBsz split ['1', '4', '4', ',', '1', '4', '4'] replay₁ = some (0, replay) ∧
    ∃ t, Traces (replayLcoreMainLoopIo replay lcoreOne 1) t () ∧ (∀ e ∈ t, BurstContract e.1 e.2) ∧
      ¬ Conserved t := by
  have harg : parentheses ['(', '0', ',', '0', ',', '0', ',', '1', ')'] =
      ([['0', ',', '0', ',', '0', ',', '1']], true) :=
    @parentheses_one ['0', ',', '0', ',', '0', ',', '1'] (by decide)
  have hparse := @parseArg_one 32 128 split (fun _ => true) .tx _ _ ⟨0, 0, 1, some 0⟩ (Replay.zero 32 128)
    (by decide) harg rfl rfl
  have ht := traces_eager (replayLcoreMainLoopIo (oneQueue 144) lcoreOne 1)
  have hc := eagerTrace_contract (replayLcoreMainLoopIo (oneQueue 144) lcoreOne 1)
  refine ⟨_, oneQueue 144, hparse, rfl, _, ht, hc, fun hconserved => ?_⟩
  have halloc : (⟨.ctrlmbufAlloc, some 0⟩ : (o : IoOp) × IoAns o) ∈
      eagerTrace (replayLcoreMainLoopIo (oneQueue 144) lcoreOne 1) := by
    apply mem_eagerTrace
    apply @mem_dry_mainLoopIo 32 128 .ctrlmbufAlloc _ _ (by decide) ⟨0, by decide⟩ (by decide)
    exact List.mem_cons_self
  rcases (mainLoopIo_judged (by decide) (by decide) ht hc).conserved_iff.mp hconserved with hone | hnone
  · exact absurd hone (by decide)
  · exact hnone 0 halloc

end PcapReplay
