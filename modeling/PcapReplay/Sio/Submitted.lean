import PcapReplay.Sio.Blocks
import PcapReplay.Sio.Errors

/-! Which blocks a transfer through the staging buffer has submitted when it returns. -/

namespace PcapReplay
open Interaction Prog
variable {n : ℕ}

def NoCommand : Op → Prop
  | .cmd _ => False
  | _ => True

theorem issued_of_ensures {α : Type} {p : Nvme α} {Q : α → Prop} (hp : Ensures NoCommand Q p) {t : Trace}
    {a : α} (ht : Traces p t a) : issued t = [] := by
  have hquiet := (hp.traces ht).2
  apply List.filterMap_eq_nil_iff.mpr
  intro e he
  obtain ⟨o, r⟩ := e
  have ho := hquiet _ he
  cases o with
  | cmd c => exact absurd ho id
  | _ => rfl

theorem pollAll_noCommand (raid : NvmeRaid n) : Ensures NoCommand (fun _ => True) (pollAll raid) := by
  have hlist : ∀ l : List (Fin n),
      Ensures NoCommand (fun _ => True) (l.forM fun i => process (raid.ns i)) := by
    intro l
    induction l with
    | nil => exact ensures_pure trivial
    | cons i l ih =>
      have hone : Ensures NoCommand (fun _ => True) (process (raid.ns i)) := ensures_ask trivial
      exact hone.bind fun _ _ => ih
  exact hlist _

theorem sioWaittasks_noCommand (raid : NvmeRaid n) (rounds : ℕ) :
    Ensures NoCommand (fun _ => True) (sioWaittasks raid rounds) := by
  induction rounds with
  | zero => exact ensures_pure trivial
  | succ rounds ih =>
    have hask : Ensures NoCommand (fun _ => True) waiting := ensures_ask trivial
    apply hask.bind
    intro again _
    cases again with
    | true => exact (pollAll_noCommand raid).bind fun _ _ => ih
    | false => exact ensures_pure trivial

def Waited (t : Trace) : Prop := (⟨.waiting, true⟩ : (o : Op) × Ans o) ∈ t

theorem sioWaittasks_none {raid : NvmeRaid n} {rounds : ℕ} {t : Trace}
    (ht : Traces (sioWaittasks raid (rounds + 1)) t none) : Waited t := by
  obtain ⟨t₁, t₂, again, rfl, h₁, h₂⟩ := traces_bind.mp ht
  obtain rfl := traces_ask.mp h₁
  cases again with
  | true => exact List.mem_cons_self
  | false =>
    obtain ⟨_, h⟩ := traces_pure.mp h₂
    exact absurd h (by simp)

section staged
variable [NeZero n] {dir : Dir} {raid : NvmeRaid n} {rounds : ℕ} {mem payload : Ptr} {t : Trace}

def Returned (plan : Plan) (t : Trace) (r : Option ℤ) : Prop :=
  (r = none ∧ Waited t) ∨ ∃ rc, r = some rc ∧ Outcome plan (issued t) rc

theorem returned_after {t₁ t₂ : Trace} {plan : Plan} {r : Option ℤ} (h₁ : issued t₁ = [])
    (h₂ : Returned plan t₂ r) : Returned plan (t₁ ++ t₂) r := by
  rcases h₂ with ⟨hr, hw⟩ | ⟨rc, hr, hout⟩
  · exact Or.inl ⟨hr, List.mem_append_right t₁ hw⟩
  · refine Or.inr ⟨rc, hr, ?_⟩
    rwa [issued_append, h₁, List.nil_append]

theorem transferWait_returned {inLoop : Bool} {lba : UInt64} {lbaCount : UInt32} {r : Option ℤ}
    {after : Nvme Unit} (hafter : Ensures NoCommand (fun _ => True) after)
    (ht : Traces (sioTransfer dir raid mem lba lbaCount >>= fun ret =>
      if inLoop ∧ ret ≠ 0 then pure (some ret)
      else sioWaittasks raid (rounds + 1) >>= fun done =>
        match done with
        | none => pure none
        | some () => after >>= fun _ => pure (some ret)) t r) :
    Returned (transferPlan dir raid mem lba lbaCount.toNat) t r := by
  obtain ⟨t₁, t₂, ret, rfl, h₁, h₂⟩ := traces_bind.mp ht
  obtain ⟨_, _, hout, rfl⟩ := tries_sioTransfer dir raid mem lba lbaCount t₁ ret h₁
  split_ifs at h₂ with hstop
  · obtain ⟨rfl, rfl⟩ := traces_pure.mp h₂
    rw [List.append_nil]
    exact Or.inr ⟨ret, rfl, hout⟩
  · obtain ⟨t₃, t₄, done, rfl, h₃, h₄⟩ := traces_bind.mp h₂
    cases done with
    | none =>
      obtain ⟨rfl, rfl⟩ := traces_pure.mp h₄
      rw [List.append_nil]
      exact Or.inl ⟨rfl, List.mem_append_right t₁ (sioWaittasks_none h₃)⟩
    | some _ =>
      obtain ⟨t₅, t₆, _, rfl, h₅, h₆⟩ := traces_bind.mp h₄
      obtain ⟨rfl, rfl⟩ := traces_pure.mp h₆
      have hwait := issued_of_ensures (sioWaittasks_noCommand raid (rounds + 1)) h₃
      have hcopy := issued_of_ensures hafter h₅
      refine Or.inr ⟨ret, rfl, ?_⟩
      rwa [List.append_nil, issued_append, issued_append, hwait, hcopy, List.append_nil, List.append_nil]

theorem memcpy_noCommand (dst src : Ptr) (len : ℕ) :
    Ensures NoCommand (fun _ => True) (memcpy dst src len) := ensures_ask trivial

theorem sioChunk_returned {inLoop : Bool} {lba : UInt64} {blocks : ℕ} {r : Option ℤ} (h32 : blocks < 2 ^ 32)
    (ht : Traces (sioChunk dir raid (rounds + 1) inLoop mem payload lba blocks) t r) :
    Returned (transferPlan dir raid mem lba blocks) t r := by
  have hofNat : (UInt32.ofNat blocks).toNat = blocks := UInt32.toNat_ofNat_of_lt' h32
  rw [← hofNat]
  unfold sioChunk at ht
  cases dir with
  | write =>
    simp only [if_true, reduceCtorEq, if_false] at ht
    obtain ⟨t₁, t₂, _, rfl, h₁, h₂⟩ := traces_bind.mp ht
    apply returned_after (issued_of_ensures (memcpy_noCommand _ _ _) h₁)
    have hnothing : Ensures NoCommand (fun _ => True) (pure () : Nvme Unit) := ensures_pure trivial
    exact transferWait_returned hnothing h₂
  | read =>
    simp only [if_true, reduceCtorEq, if_false] at ht
    exact transferWait_returned (memcpy_noCommand payload mem _) ht

def pinitPlan (dir : Dir) (raid : NvmeRaid n) (mem : Ptr) (lba : UInt64) (count : ℕ) : Plan :=
  if _h : gigaSectorNum n ≤ count then
    transferPlan dir raid mem lba (gigaSectorNum n) ++
      pinitPlan dir raid mem (lba + UInt64.ofNat (gigaSectorNum n)) (count - gigaSectorNum n)
  else if count ≠ 0 then transferPlan dir raid mem lba count
  else []
termination_by count
decreasing_by
  have hpos := gigaSectorNum_pos n
  omega

theorem sioChunks_returned (payload : Ptr) (lba : UInt64) (lbaCount : UInt32) {r : Option ℤ}
    (ht : Traces (sioChunks dir raid (rounds + 1) mem payload lba lbaCount) t r) :
    Returned (pinitPlan dir raid mem lba lbaCount.toNat) t r := by
  induction payload, lba, lbaCount using @sioChunks.induct n _ generalizing t with
  | case1 payload lba lbaCount h ih =>
    have h32 := lbaCount.toNat_lt
    rw [toNat_sub_ofNat h] at ih
    rw [sioChunks, dif_pos h] at ht
    rw [pinitPlan, dif_pos h]
    obtain ⟨t₁, t₂, res, rfl, h₁, h₂⟩ := traces_bind.mp ht
    rcases sioChunk_returned (by omega) h₁ with ⟨rfl, hw⟩ | ⟨rc, rfl, hout⟩
    · obtain ⟨rfl, rfl⟩ := traces_pure.mp h₂
      exact Or.inl ⟨rfl, List.mem_append_left [] hw⟩
    · by_cases hrc : rc = 0
      · subst hrc
        rcases ih h₂ with ⟨rfl, hw⟩ | ⟨rc, rfl, hout'⟩
        · exact Or.inl ⟨rfl, List.mem_append_right t₁ hw⟩
        · refine Or.inr ⟨rc, rfl, ?_⟩
          rw [issued_append]
          exact hout.of_zero.then hout'
      · have hpure : Traces (pure (some rc) : Nvme (Option ℤ)) t₂ r := by
          split at h₂
          · next heq => exact absurd (Option.some.inj heq) hrc
          · exact h₂
        obtain ⟨rfl, rfl⟩ := traces_pure.mp hpure
        rw [List.append_nil]
        exact Or.inr ⟨rc, rfl, hout.cut hrc _⟩
  | case2 payload lba lbaCount h hpos =>
    have hne : lbaCount.toNat ≠ 0 := fun hz => hpos (UInt32.toNat_inj.mp hz)
    rw [sioChunks, dif_neg h, if_pos hpos] at ht
    rw [pinitPlan, dif_neg h, if_pos hne]
    exact sioChunk_returned lbaCount.toNat_lt ht
  | case3 payload lba lbaCount h hzero =>
    have hz : ¬ lbaCount.toNat ≠ 0 := fun hne => hzero fun heq => hne (by rw [heq]; rfl)
    rw [sioChunks, dif_neg h, if_neg hzero] at ht
    rw [pinitPlan, dif_neg h, if_neg hz]
    obtain ⟨rfl, rfl⟩ := traces_pure.mp ht
    exact Or.inr ⟨0, rfl, .pass pass_nil⟩

end staged

def blockCell [NeZero n] (raid : NvmeRaid n) (b : UInt64) : ℕ × UInt64 :=
  (raid.ns (superGetdisk n b), superGetdisklba n b)

def blockCells [NeZero n] (raid : NvmeRaid n) (lba : UInt64) (count : ℕ) : List (ℕ × UInt64) :=
  (List.range count).map fun k => blockCell raid (lba + UInt64.ofNat k)

def Command.cells (c : Command) : List (ℕ × UInt64) :=
  (List.range c.lbaCount.toNat).map fun k => (c.ns, c.lba + UInt64.ofNat k)

def Plan.cells (plan : Plan) : List (ℕ × UInt64) := plan.flatMap fun p => p.1.cells

theorem Plan.cells_append (plan plan' : Plan) : Plan.cells (plan ++ plan') = plan.cells ++ plan'.cells :=
  List.flatMap_append

theorem Plan.cells_singleton (p : Command × Bool) : Plan.cells [p] = p.1.cells := List.flatMap_singleton _ _

section cells
variable [NeZero n] (dir : Dir) (raid : NvmeRaid n) (payload : Ptr) (lba : UInt64)

theorem blockCells_add (a b : ℕ) :
    blockCells raid lba (a + b) = blockCells raid lba a ++ blockCells raid (lba + UInt64.ofNat a) b := by
  unfold blockCells
  rw [List.range_add, List.map_append, List.map_map]
  congr 1
  apply List.map_congr_left
  intro k _
  show blockCell raid (lba + UInt64.ofNat (a + k)) = _
  rw [UInt64.ofNat_add, UInt64.add_assoc]

theorem blockCells_nodup {count : ℕ} (h : count ≤ 2 ^ 64) : (blockCells raid lba count).Nodup := by
  apply List.Nodup.map_on _ List.nodup_range
  intro i hi j hj heq
  rw [List.mem_range] at hi hj
  obtain ⟨hns, hlba⟩ := Prod.mk.inj heq
  have hblock := eq_of_superGetdisk n (raid.ns.injective hns) hlba
  have hk := congrArg UInt64.toNat ((UInt64.add_right_inj lba).mp hblock)
  rwa [toNat_ofNat_of_lt (by omega), toNat_ofNat_of_lt (by omega)] at hk

theorem cells_sioCmd {count : ℕ} (h : count ≤ toBoundary lba) :
    (sioCmd dir raid payload lba (UInt32.ofNat count)).cells = blockCells raid lba count := by
  have hto := toBoundary_le lba
  have hlt := lba.toNat_lt
  have hcount : (UInt32.ofNat count).toNat = count :=
    UInt32.toNat_ofNat_of_lt' (Nat.lt_of_le_of_lt (h.trans hto) (by decide))
  unfold Command.cells blockCells
  show (List.range (UInt32.ofNat count).toNat).map _ = _
  rw [hcount]
  apply List.map_congr_left
  intro k hk
  rw [List.mem_range] at hk
  simp only [toBoundary, superSectorNum_eq] at h
  -- the command stays inside one supersector
  obtain ⟨hdisk, hsector⟩ := superGetdisk_add n (b := lba.toNat) (i := k) (by omega) (by omega)
  rw [UInt64.ofNat_add, UInt64.ofNat_toNat] at hdisk hsector
  have hsum : superGetdisklba n lba + UInt64.ofNat k = superGetdisklba n (lba + UInt64.ofNat k) := by
    apply UInt64.toNat_inj.mp
    have hfit := (superGetdisklba n (lba + UInt64.ofNat k)).toNat_lt
    rw [hsector] at hfit ⊢
    rw [UInt64.toNat_add, toNat_ofNat_of_lt (by omega), Nat.mod_eq_of_lt hfit]
  show (raid.ns (superGetdisk n lba), superGetdisklba n lba + UInt64.ofNat k) = _
  rw [hsum, ← hdisk]
  rfl

theorem cells_loopPlan (h : lba.toNat % superSectorNum = 0) (m : ℕ) :
    Plan.cells (loopPlan dir raid payload lba m) = blockCells raid lba (m * superSectorNum) := by
  induction m generalizing payload lba with
  | zero => simp [loopPlan, Plan.cells, blockCells]
  | succ m ih =>
    have hnext := add_superSectors_aligned h 1
    rw [Nat.one_mul] at hnext
    have hfit : superSectorNum ≤ toBoundary lba := (toBoundary_of_aligned h).ge
    have hsum : (m + 1) * superSectorNum = superSectorNum + m * superSectorNum := by ring
    rw [loopPlan, hsum, blockCells_add, ← ih _ _ hnext, ← cells_sioCmd dir raid payload lba hfit]
    rfl

theorem cells_alignedPlan (h : lba.toNat % superSectorNum = 0) (count : ℕ) :
    Plan.cells (alignedPlan dir raid payload lba count) = blockCells raid lba count := by
  unfold alignedPlan
  split_ifs with hle
  · rw [Plan.cells_singleton, cells_sioCmd]
    rwa [toBoundary_of_aligned h]
  · have hparts := Nat.div_add_mod' count superSectorNum
    rw [Plan.cells_append, cells_loopPlan dir raid payload lba h]
    unfold tailPlan
    split_ifs with hz
    · rw [hz, Nat.add_zero] at hparts
      rw [hparts]
      exact List.append_nil _
    · have hlt : count % superSectorNum ≤ superSectorNum := (Nat.mod_lt _ (by decide)).le
      rw [Plan.cells_singleton, cells_sioCmd, ← blockCells_add, hparts]
      rwa [toBoundary_of_aligned (add_superSectors_aligned h _)]

theorem cells_transferPlan (count : ℕ) :
    Plan.cells (transferPlan dir raid payload lba count) = blockCells raid lba count := by
  unfold transferPlan
  split_ifs with haligned hfit
  · exact cells_alignedPlan dir raid payload lba haligned count
  · exact (Plan.cells_singleton _).trans (cells_sioCmd dir raid payload lba hfit)
  · obtain ⟨rest, rfl⟩ := Nat.exists_eq_add_of_le (Nat.le_of_not_le hfit)
    rw [Nat.add_sub_cancel_left, blockCells_add, ← cells_sioCmd dir raid payload lba le_rfl,
      ← cells_alignedPlan dir raid (payload.add (toBoundary lba * sectorLength)) _
        (add_toBoundary_aligned lba)]
    rfl

theorem cells_pinitPlan (mem : Ptr) (count : ℕ) :
    Plan.cells (pinitPlan dir raid mem lba count) = blockCells raid lba count := by
  induction lba, count using @pinitPlan.induct n _ with
  | case1 lba count h ih =>
    obtain ⟨rest, rfl⟩ := Nat.exists_eq_add_of_le h
    rw [Nat.add_sub_cancel_left] at ih
    rw [pinitPlan, dif_pos h, Nat.add_sub_cancel_left, Plan.cells_append, cells_transferPlan, ih,
      blockCells_add]
  | case2 lba count h hne => rw [pinitPlan, dif_neg h, if_pos hne, cells_transferPlan]
  | case3 lba count h hz =>
    rw [not_not] at hz
    rw [pinitPlan, dif_neg h, if_neg (not_not.mpr hz), hz]
    rfl

end cells

def taken (xs : List (Command × ℤ)) : List (ℕ × UInt64) :=
  (xs.filter fun x => x.2 = 0).flatMap fun x => x.1.cells

theorem mem_taken {xs : List (Command × ℤ)} {cell : ℕ × UInt64} :
    cell ∈ taken xs ↔ ∃ c, (c, 0) ∈ xs ∧ cell ∈ c.cells := by
  unfold taken
  rw [List.mem_flatMap]
  constructor
  · rintro ⟨⟨c, rc⟩, hx, hcell⟩
    obtain ⟨hmem, hrc⟩ := List.mem_filter.mp hx
    obtain rfl : rc = 0 := of_decide_eq_true hrc
    exact ⟨c, hmem, hcell⟩
  · rintro ⟨c, hmem, hcell⟩
    exact ⟨(c, 0), List.mem_filter.mpr ⟨hmem, by simp⟩, hcell⟩

section pass
variable {plan : Plan} {xs : List (Command × ℤ)} (h : Pass plan xs)
include h

theorem Pass.cells_eq : Plan.cells plan = xs.flatMap fun x => x.1.cells := by
  have hfst := congrArg (List.flatMap Command.cells) h.map_fst
  rw [List.flatMap_map, List.flatMap_map] at hfst
  exact hfst.symm

theorem Pass.all_taken (hall : ∀ x ∈ xs, x.2 = 0) {cell : ℕ × UInt64} (hcell : cell ∈ Plan.cells plan) :
    cell ∈ taken xs := by
  rw [h.cells_eq, List.mem_flatMap] at hcell
  obtain ⟨⟨c, rc⟩, hx, hcell⟩ := hcell
  obtain rfl : rc = 0 := hall _ hx
  exact mem_taken.mpr ⟨c, hx, hcell⟩

theorem Pass.not_taken (hnodup : (Plan.cells plan).Nodup) {c : Command} {rc : ℤ} (hx : (c, rc) ∈ xs)
    (hrc : rc ≠ 0) {cell : ℕ × UInt64} (hcell : cell ∈ c.cells) : cell ∉ taken xs := by
  intro hmem
  obtain ⟨c', hx', hcell'⟩ := mem_taken.mp hmem
  rw [h.cells_eq, List.nodup_flatMap] at hnodup
  obtain ⟨_, hapart⟩ := hnodup
  have hsymm : Std.Symm (Function.onFun List.Disjoint fun x : Command × ℤ => x.1.cells) :=
    ⟨fun _ _ => List.Disjoint.symm⟩
  have hne : (c, rc) ≠ (c', 0) := fun heq => hrc (Prod.mk.inj heq).2
  exact hapart.forall hx hx' hne hcell hcell'

end pass

def SubmitsAll [NeZero n] (ans : ℕ → ℤ) (raid : NvmeRaid n) (lba : UInt64) (count : ℕ)
    (p : Nvme (Option ℤ)) : Prop :=
  ∀ t, Traces p t (some 0) → Answered ans t →
    ∀ k < count, blockCell raid (lba + UInt64.ofNat k) ∈ taken (issued t)

def pinitLooked (n : ℕ) [NeZero n] (lba : UInt64) (count : ℕ) : List Bool :=
  if _h : gigaSectorNum n ≤ count then
    transferLooked lba (gigaSectorNum n) ++
      pinitLooked n (lba + UInt64.ofNat (gigaSectorNum n)) (count - gigaSectorNum n)
  else if count ≠ 0 then transferLooked lba count
  else []
termination_by count
decreasing_by
  have hpos := gigaSectorNum_pos n
  omega

section submits
variable [NeZero n] (dir : Dir) (raid : NvmeRaid n)

theorem map_pinitPlan (mem : Ptr) (lba : UInt64) (count : ℕ) :
    (pinitPlan dir raid mem lba count).map Prod.snd = pinitLooked n lba count := by
  induction lba, count using @pinitLooked.induct n _ with
  | case1 lba count h ih =>
    rw [pinitPlan, dif_pos h, pinitLooked, dif_pos h, List.map_append, map_transferPlan, ih]
  | case2 lba count h hne =>
    rw [pinitPlan, dif_neg h, if_pos hne, pinitLooked, dif_neg h, if_pos hne, map_transferPlan]
  | case3 lba count h hz =>
    rw [pinitPlan, dif_neg h, if_neg hz, pinitLooked, dif_neg h, if_neg hz]
    rfl

def DropsBlocks (plan : Plan) : Prop := ∀ p ∈ plan, p.2 = false → 0 < p.1.lbaCount.toNat

theorem loopPlan_looked (payload : Ptr) (lba : UInt64) (m : ℕ) :
    ∀ p ∈ loopPlan dir raid payload lba m, p.2 = true := by
  intro p hp
  have hmem := List.mem_map_of_mem (f := Prod.snd) hp
  rw [map_loopPlan] at hmem
  exact List.eq_of_mem_replicate hmem

theorem alignedPlan_dropsBlocks (payload : Ptr) (lba : UInt64) (count : ℕ) :
    DropsBlocks (alignedPlan dir raid payload lba count) := by
  intro p hp hfalse
  unfold alignedPlan at hp
  split_ifs at hp
  · obtain rfl := List.mem_singleton.mp hp
    exact absurd hfalse (by simp)
  · rcases List.mem_append.mp hp with hp | hp
    · rw [loopPlan_looked dir raid _ _ _ p hp] at hfalse
      exact absurd hfalse (by simp)
    · unfold tailPlan at hp
      split_ifs at hp with hz
      · exact absurd hp List.not_mem_nil
      · obtain rfl := List.mem_singleton.mp hp
        have hlt : count % superSectorNum < superSectorNum := Nat.mod_lt _ (by decide)
        show 0 < (UInt32.ofNat (count % superSectorNum)).toNat
        rw [UInt32.toNat_ofNat_of_lt' (hlt.trans (by decide))]
        exact Nat.pos_of_ne_zero hz

theorem transferPlan_dropsBlocks (payload : Ptr) (lba : UInt64) (count : ℕ) :
    DropsBlocks (transferPlan dir raid payload lba count) := by
  unfold transferPlan
  split_ifs
  · exact alignedPlan_dropsBlocks dir raid payload lba count
  · intro p hp hfalse
    obtain rfl := List.mem_singleton.mp hp
    exact absurd hfalse (by simp)
  · intro p hp hfalse
    rcases List.mem_cons.mp hp with rfl | hp
    · exact absurd hfalse (by simp)
    · exact alignedPlan_dropsBlocks dir raid _ _ _ p hp hfalse

theorem pinitPlan_dropsBlocks (mem : Ptr) (lba : UInt64) (count : ℕ) :
    DropsBlocks (pinitPlan dir raid mem lba count) := by
  induction lba, count using @pinitPlan.induct n _ with
  | case1 lba count h ih =>
    intro p hp hfalse
    rw [pinitPlan, dif_pos h] at hp
    rcases List.mem_append.mp hp with hp | hp
    · exact transferPlan_dropsBlocks dir raid mem lba _ p hp hfalse
    · exact ih p hp hfalse
  | case2 lba count h hne =>
    rw [pinitPlan, dif_neg h, if_pos hne]
    exact transferPlan_dropsBlocks dir raid mem lba count
  | case3 lba count h hz =>
    rw [pinitPlan, dif_neg h, if_neg hz]
    exact fun p hp => absurd hp List.not_mem_nil

theorem sioTransferPinit_returned {rounds : ℕ} {payload : Ptr} {lba : UInt64} {lbaCount : UInt32} {t : Trace}
    {r : Option ℤ} (ht : Traces (sioTransferPinit dir raid (rounds + 1) payload lba lbaCount) t r) :
    (∃ len, (⟨.malloc len false, none⟩ : (o : Op) × Ans o) ∈ t ∧ r = none) ∨
      ∃ mem, Returned (pinitPlan dir raid mem lba lbaCount.toNat) t r := by
  obtain ⟨t₁, t₂, res, rfl, h₁, h₂⟩ := traces_bind.mp ht
  obtain rfl := traces_ask.mp h₁
  cases res with
  | none =>
    obtain ⟨_, rfl⟩ := traces_pure.mp h₂
    exact Or.inl ⟨_, List.mem_cons_self, rfl⟩
  | some mem => exact Or.inr ⟨⟨mem, 0⟩, returned_after rfl (sioChunks_returned payload lba lbaCount h₂)⟩

def quiet : (o : Op) → Ans o
  | .waiting => false
  | .malloc _ _ => some 0
  | _ => default

theorem sioTransferPinit_submits_iff (rounds : ℕ) (payload : Ptr) (lba : UInt64) (lbaCount : UInt32)
    (ans : ℕ → ℤ) :
    SubmitsAll ans raid lba lbaCount.toNat (sioTransferPinit dir raid (rounds + 1) payload lba lbaCount) ↔
      ¬ Swallowed (pinitLooked n lba lbaCount.toNat) ans := by
  have h32 := lbaCount.toNat_lt
  have hcell : ∀ k < lbaCount.toNat,
      blockCell raid (lba + UInt64.ofNat k) ∈ blockCells raid lba lbaCount.toNat :=
    fun k hk => List.mem_map_of_mem (List.mem_range.mpr hk)
  constructor
  · rintro hsub ⟨hlooked, j, hj, hrejected⟩
    obtain ⟨t, r, ht, hans, hquiet⟩ := exists_answered ans quiet
      (sioTransferPinit dir raid (rounds + 1) payload lba lbaCount)
    -- nothing keeps this run from returning
    rcases sioTransferPinit_returned dir raid ht with ⟨len, hmem, _⟩ | ⟨mem, ⟨_, hw⟩ | ⟨rc, rfl, hout⟩⟩
    · exact absurd (hquiet _ hmem rfl) (by simp [quiet])
    · exact absurd (hquiet _ hw rfl) (by simp [quiet])
    · rw [← map_pinitPlan dir raid mem] at hlooked hj
      obtain rfl := hout.zero_of_looked hans hlooked
      have hpass := hout.of_zero
      have hcells := cells_pinitPlan dir raid lba mem lbaCount.toNat
      have hnodup : (Plan.cells (pinitPlan dir raid mem lba lbaCount.toNat)).Nodup := by
        rw [hcells]
        exact blockCells_nodup raid lba (by omega)
      obtain ⟨c, hplan, hx, _⟩ := hpass.codes hans hj
      have hpos := pinitPlan_dropsBlocks dir raid mem lba lbaCount.toNat _ (List.mem_of_getElem? hplan) rfl
      have hfirst : (c.ns, c.lba + UInt64.ofNat 0) ∈ c.cells :=
        List.mem_map_of_mem (List.mem_range.mpr hpos)
      have hlost := hpass.not_taken hnodup hx hrejected hfirst
      have hblock : (c.ns, c.lba + UInt64.ofNat 0) ∈ blockCells raid lba lbaCount.toNat := by
        rw [← hcells]
        exact List.mem_flatMap.mpr ⟨_, List.mem_of_getElem? hplan, hfirst⟩
      obtain ⟨k, hk, heq⟩ := List.mem_map.mp hblock
      have hmem := hsub t ht hans k (List.mem_range.mp hk)
      rw [heq] at hmem
      exact hlost hmem
  · intro hsw t ht hans k hk
    rcases sioTransferPinit_returned dir raid ht with ⟨_, _, hr⟩ | ⟨mem, ⟨hr, _⟩ | ⟨rc, hr, hout⟩⟩
    · exact absurd hr (by simp)
    · exact absurd hr (by simp)
    · obtain rfl := Option.some.inj hr
      rw [← map_pinitPlan dir raid mem] at hsw
      have hall := (hout.of_zero.all_accepted_iff hans).mpr hsw
      apply hout.of_zero.all_taken hall
      rw [cells_pinitPlan]
      exact hcell k hk

/-- Errors are swallowed where the code of the blocks behind the last whole supersector of a
transfer is the only one that is not 0. -/
theorem submissionErrors_reported_iff (rounds : ℕ) (payload : Ptr) (lba : UInt64) (lbaCount : UInt32)
    (ans : ℕ → ℤ) :
    (ReportsErrors ans (sioTransfer dir raid payload lba lbaCount) ↔
      ¬ Swallowed (transferLooked lba lbaCount.toNat) ans) ∧
    (SubmitsAll ans raid lba lbaCount.toNat (sioTransferPinit dir raid (rounds + 1) payload lba lbaCount) ↔
      ¬ Swallowed (pinitLooked n lba lbaCount.toNat) ans) :=
  ⟨sioTransfer_reports_iff dir raid payload lba lbaCount ans,
    sioTransferPinit_submits_iff dir raid rounds payload lba lbaCount ans⟩

end submits

theorem submissionErrors_reported_one_block :
    ReportsErrors (fun _ => -1) (sioTransfer .write (attached fun _ : Fin 2 => 1024) ⟨0, 0⟩ 7 1) ∧
      SubmitsAll (fun _ => -1) (attached fun _ : Fin 2 => 1024) 7 1
        (sioTransferPinit .write (attached fun _ : Fin 2 => 1024) 1 ⟨0, 0⟩ 7 1) := by
  have hiff := submissionErrors_reported_iff .write (attached fun _ : Fin 2 => 1024) 0 ⟨0, 0⟩ 7 1 fun _ => -1
  have hlooked : transferLooked 7 1 = [true] := by decide
  have hpinit : pinitLooked 2 7 1 = [true] := by
    rw [pinitLooked, dif_neg (by decide), if_pos (by decide), hlooked]
  have hnot : ¬ Swallowed [true] fun _ => -1 := fun h => absurd (h.1 0 rfl) (by decide)
  exact ⟨hiff.1.mpr (by rwa [UInt32.toNat_one, hlooked]), hiff.2.mpr (by rwa [UInt32.toNat_one, hpinit])⟩

def rejectSecond (j : ℕ) : ℤ := if j = 1 then -1 else 0

theorem swallowed_rejectSecond : Swallowed [true, false] rejectSecond := by
  refine ⟨fun j hj => ?_, 1, rfl, by decide⟩
  match j with
  | 0 => rfl
  | 1 => simp at hj
  | j + 2 => simp at hj

/-- One supersector and one block more: the command of that block is rejected, the code is 0. -/
theorem submissionErrors_swallowed :
    ¬ ReportsErrors rejectSecond (sioRread (attached fun _ : Fin 2 => 1024) ⟨0, 0⟩ 0 257) ∧
      ¬ SubmitsAll rejectSecond (attached fun _ : Fin 2 => 1024) 0 257
        (sioRwritePinit (attached fun _ : Fin 2 => 1024) 1 ⟨0, 0⟩ 0 257) := by
  have hcount : (257 : UInt32).toNat = 257 := rfl
  have hlooked : transferLooked 0 257 = [true, false] := by decide
  have hpinit : pinitLooked 2 0 257 = [true, false] := by
    rw [pinitLooked, dif_neg (by decide), if_pos (by decide), hlooked]
  have hsw := swallowed_rejectSecond
  constructor
  · intro h
    have hnot := (sioTransfer_reports_iff .read _ _ _ _ _).mp h
    rw [hcount, hlooked] at hnot
    exact hnot hsw
  · intro h
    have hnot := (sioTransferPinit_submits_iff .write _ 0 ⟨0, 0⟩ 0 257 rejectSecond).mp h
    rw [hcount, hpinit] at hnot
    exact hnot hsw

end PcapReplay
