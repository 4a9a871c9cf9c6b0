import PcapReplay.Sio.Raid
import PcapReplay.Nvme.World

/-! The commands a raid transfer submits when none is refused. -/

namespace PcapReplay
open Interaction Striping Prog
variable {n : ℕ} {α β : Type}

def accept (o : Op) : Ans o := default

inductive Script (raid : NvmeRaid n) : List Command → List Op → Prop
  | nil : Script raid [] []
  | poll (i : Fin n) {cs : List Command} {os : List Op} (h : Script raid cs os) :
      Script raid cs (.process (raid.ns i) :: os)
  | cmd (c : Command) {cs : List Command} {os : List Op} (h : Script raid cs os) :
      Script raid (c :: cs) (.cmd c :: .schedule :: os)

theorem Script.append {raid : NvmeRaid n} {cs cs' : List Command} {os os' : List Op}
    (h : Script raid cs os) (h' : Script raid cs' os') : Script raid (cs ++ cs') (os ++ os') := by
  induction h with
  | nil => exact h'
  | poll i _ ih => exact ih.poll i
  | cmd c _ ih => exact ih.cmd c

def Submits (raid : NvmeRaid n) (p : Nvme α) (cs : List Command) (a : α) : Prop :=
  ∃ os, dry accept p = (os, a) ∧ Script raid cs os

section Submits
variable {raid : NvmeRaid n} {cs cs' : List Command} {a : α} {b : β}

theorem submits_pure (raid : NvmeRaid n) (a : α) : Submits raid (pure a) [] a :=
  ⟨[], rfl, .nil⟩

theorem Submits.bind {p : Nvme α} {f : α → Nvme β} (hp : Submits raid p cs a)
    (hf : Submits raid (f a) cs' b) : Submits raid (p >>= f) (cs ++ cs') b := by
  obtain ⟨os, hos, hs⟩ := hp
  obtain ⟨os', hos', hs'⟩ := hf
  refine ⟨os ++ os', ?_, hs.append hs'⟩
  rw [dry_bind, hos, hos']

theorem submits_pollAll (raid : NvmeRaid n) : Submits raid (pollAll raid) [] () := by
  have hlist : ∀ l : List (Fin n), Submits raid (l.forM fun i => process (raid.ns i)) [] () := by
    intro l
    induction l with
    | nil => exact submits_pure raid ()
    | cons i l ih =>
      have hone : Submits raid (process (raid.ns i)) [] () := ⟨_, rfl, Script.nil.poll i⟩
      exact hone.bind ih
  exact hlist _

theorem Submits.pollAll {p : Nvme α} (h : Submits raid p cs a) :
    Submits raid (PcapReplay.pollAll raid >>= fun _ => p) cs a :=
  (submits_pollAll raid).bind h

theorem Submits.next {p : Nvme ℤ} {q : Nvme α} (hp : Submits raid p cs 0) (h : Submits raid q cs' a)
    (onError : ℤ → Nvme α) :
    Submits raid (p >>= fun rc => if rc ≠ 0 then onError rc else q) (cs ++ cs') a := by
  apply hp.bind
  rwa [if_neg (not_not.mpr rfl)]

theorem Submits.cmd {p : Nvme α} {onError : ℤ → Nvme α} (c : Command) (h : Submits raid p cs a) :
    Submits raid (PcapReplay.cmd c >>= fun rc => if rc ≠ 0 then onError rc
      else PcapReplay.schedule >>= fun _ => p) (c :: cs) a := by
  obtain ⟨os, hos, hs⟩ := h
  have hzero : accept (.cmd c) = 0 := rfl
  refine ⟨.cmd c :: .schedule :: os, ?_, hs.cmd c⟩
  simp only [PcapReplay.cmd, PcapReplay.schedule, Op.ask, dry_bind, dry_ask, hzero, ne_eq,
    not_true_eq_false, if_false, hos, List.singleton_append]

end Submits

namespace World

theorem step_accept {π : Policy} (hπ : ¬ π.reject) {raid : NvmeRaid n} {cs : List Command} {os : List Op}
    (h : Script raid cs os) : ∀ o ∈ os, ∀ w r w', step π o w r w' → r = accept o := by
  induction h with
  | nil => simp
  | poll i _ ih =>
    intro o ho
    rcases List.mem_cons.mp ho with rfl | ho
    · exact fun _ _ _ _ => rfl
    · exact ih o ho
  | cmd c _ ih =>
    intro o ho
    rcases List.mem_cons.mp ho with rfl | ho
    · rintro w r w' ⟨b, _, ⟨rfl, _⟩ | ⟨hr, _⟩⟩
      · rfl
      · exact absurd hr hπ
    rcases List.mem_cons.mp ho with rfl | ho
    · exact fun _ _ _ _ => rfl
    · exact ih o ho

end World

theorem Submits.runs {raid : NvmeRaid n} {p : Nvme α} {cs : List Command} {a r : α} {π : Policy}
    {w w' : World} (h : Submits raid p cs a) (hπ : ¬ π.reject) (hrun : Runs π p w r w') :
    r = a ∧ ∃ os, Script raid cs os ∧ Performs (World.step π) accept os w w' := by
  obtain ⟨os, hos, hs⟩ := h
  obtain ⟨ha, hp⟩ := Exec.performs accept hrun (by rw [hos]; exact World.step_accept hπ hs)
  rw [hos] at ha hp
  exact ⟨ha, os, hs, hp⟩

theorem Ptr.add_zero (p : Ptr) : p.add 0 = p := rfl

theorem Ptr.add_add (p : Ptr) (a b : ℕ) : (p.add a).add b = p.add (a + b) := by
  simp [Ptr.add, Nat.add_assoc]

variable [NeZero n]

def pieces (dir : Dir) (raid : NvmeRaid n) (payload : Ptr) (lba count : ℕ) : List Command :=
  (split superSectorNum lba count).map fun p =>
    sioCmd dir raid (payload.add ((p.1 - lba) * sectorLength)) (UInt64.ofNat p.1) (UInt32.ofNat p.2)

section pieces
variable (dir : Dir) (raid : NvmeRaid n) (payload : Ptr)

theorem pieces_zero (lba : ℕ) : pieces dir raid payload lba 0 = [] := by
  rw [pieces, split_zero, List.map_nil]

theorem pieces_of_le (lba : UInt64) (lbaCount : UInt32) (hpos : 1 ≤ lbaCount.toNat)
    (h : lbaCount.toNat ≤ toBoundary lba) :
    pieces dir raid payload lba.toNat lbaCount.toNat = [sioCmd dir raid payload lba lbaCount] := by
  rw [pieces, split_of_le (by decide) hpos h, List.map_singleton, Nat.sub_self, Nat.zero_mul,
    Ptr.add_zero, UInt64.ofNat_toNat, UInt32.ofNat_toNat]

theorem pieces_append {lba k : ℕ} (count : ℕ) (hk : (lba + k) % superSectorNum = 0) :
    pieces dir raid payload lba (k + count) =
      pieces dir raid payload lba k ++
        pieces dir raid (payload.add (k * sectorLength)) (lba + k) count := by
  unfold pieces
  rw [split_append (by decide) hk, List.map_append]
  congr 1
  apply List.map_congr_left
  intro p hp
  have hle : lba + k ≤ p.1 := (split_piece (by decide) hp).2.2.1
  rw [Ptr.add_add, ← Nat.add_mul]
  congr 4
  omega

end pieces

section transfer
variable (dir : Dir) (raid : NvmeRaid n)

theorem sioLoop_submits (k : ℕ) (payload : Ptr) (lba : UInt64) (lbaCount : UInt32)
    (hlba : lba.toNat % superSectorNum = 0)
    (hlt : lba.toNat + lbaCount.toNat < 2 ^ 64) :
    ∃ (m : ℕ) (rest : { c : UInt32 // c.toNat < superSectorNum }),
      m % superSectorNum = 0 ∧ lbaCount.toNat = m + rest.val.toNat ∧
      Submits raid (sioLoop dir raid k payload lba lbaCount) (pieces dir raid payload lba.toNat m)
        (.ok (payload.add (m * sectorLength), lba + UInt64.ofNat m, rest)) := by
  induction k, payload, lba, lbaCount using sioLoop.induct with
  | case1 k payload lba lbaCount h ih₀ ih₁ =>
    simp only [superSectorNum_eq] at *
    have hlba' : (lba + UInt64.ofNat 256).toNat = lba.toNat + 256 := toNat_add_ofNat (by omega)
    have hcount' : (lbaCount - UInt32.ofNat 256).toNat = lbaCount.toNat - 256 := toNat_sub_ofNat h
    rw [hlba', hcount'] at ih₀ ih₁
    -- the check for completions after many commands submits nothing
    obtain ⟨m, rest, hm, hrest, hsub⟩ : ∃ (m : ℕ) (rest : { c : UInt32 // c.toNat < superSectorNum }),
        m % 256 = 0 ∧ lbaCount.toNat - 256 = m + rest.val.toNat ∧
        Submits raid (if n * 128 < k + 1 then pollAll raid >>= fun _ =>
            sioLoop dir raid 0 (payload.add (256 * sectorLength)) (lba + UInt64.ofNat 256)
              (lbaCount - UInt32.ofNat 256)
          else sioLoop dir raid (k + 1) (payload.add (256 * sectorLength)) (lba + UInt64.ofNat 256)
              (lbaCount - UInt32.ofNat 256))
          (pieces dir raid (payload.add (256 * sectorLength)) (lba.toNat + 256) m)
          (.ok ((payload.add (256 * sectorLength)).add (m * sectorLength),
            lba + UInt64.ofNat 256 + UInt64.ofNat m, rest)) := by
      split_ifs
      · obtain ⟨m, rest, hm, hrest, hsub⟩ := ih₀ (by omega) (by omega)
        exact ⟨m, rest, hm, hrest, hsub.pollAll⟩
      · exact ih₁ (by omega) (by omega)
    refine ⟨256 + m, rest, by omega, by omega, ?_⟩
    have hfirst : pieces dir raid payload lba.toNat 256 =
        [sioCmd dir raid payload lba (UInt32.ofNat 256)] := by
      apply pieces_of_le dir raid payload lba (UInt32.ofNat 256) (by decide)
      rw [toBoundary, superSectorNum_eq, hlba]
      decide
    rw [pieces_append dir raid payload m (by simp only [superSectorNum_eq]; omega), hfirst, sioLoop,
      dif_pos (show superSectorNum ≤ lbaCount.toNat from h)]
    rw [Ptr.add_add, ← Nat.add_mul, UInt64.add_assoc, ← UInt64.ofNat_add] at hsub
    exact hsub.cmd _
  | case2 k payload lba lbaCount h =>
    refine ⟨0, ⟨lbaCount, by omega⟩, rfl, (Nat.zero_add _).symm, ?_⟩
    rw [sioLoop, dif_neg h, pieces_zero, Nat.zero_mul, Ptr.add_zero]
    have hzero : lba + UInt64.ofNat 0 = lba := UInt64.add_zero lba
    rw [hzero]
    exact submits_pure raid _

theorem sioTransfer_submits (payload : Ptr) (lba : UInt64) (lbaCount : UInt32) (hpos : 1 ≤ lbaCount.toNat)
    (hlt : lba.toNat + lbaCount.toNat < 2 ^ 64) :
    Submits raid (sioTransfer dir raid payload lba lbaCount)
      (pieces dir raid payload lba.toNat lbaCount.toNat) 0 := by
  induction payload, lba, lbaCount using sioTransfer.induct with
  | case1 payload lba lbaCount hfit =>
    rw [sioTransfer, dif_pos hfit, pieces_of_le dir raid payload lba lbaCount hpos hfit]
    exact (submits_pure raid _).pollAll.cmd _
  | case2 payload lba lbaCount hfit hhead ih₁ ih₂ =>
    have hto := toBoundary_pos lba
    have hto' := toBoundary_le lba
    have hhd : (UInt32.ofNat (toBoundary lba)).toNat = toBoundary lba :=
      UInt32.toNat_ofNat_of_lt' (Nat.lt_of_le_of_lt hto' (by decide))
    have hlba' : (lba + UInt64.ofNat (toBoundary lba)).toNat = lba.toNat + toBoundary lba :=
      toNat_add_ofNat (by omega)
    have hcount' : (lbaCount - UInt32.ofNat (toBoundary lba)).toNat = lbaCount.toNat - toBoundary lba :=
      toNat_sub_ofNat (by omega)
    have hbound : (lba.toNat + toBoundary lba) % superSectorNum = 0 := by
      simp only [toBoundary, superSectorNum_eq]
      omega
    rw [hhd] at ih₁
    rw [hlba', hcount'] at ih₂
    have hsplit : pieces dir raid payload lba.toNat lbaCount.toNat =
        pieces dir raid payload lba.toNat (toBoundary lba) ++
          pieces dir raid (payload.add (toBoundary lba * sectorLength)) (lba.toNat + toBoundary lba)
            (lbaCount.toNat - toBoundary lba) := by
      rw [← pieces_append dir raid payload _ hbound, Nat.add_sub_cancel' (by omega)]
    rw [sioTransfer, dif_neg hfit, dif_pos hhead, hsplit]
    have hrest := (ih₂ (by omega) (by omega)).next (submits_pure raid (0 : ℤ)).pollAll pure
    rw [List.append_nil] at hrest
    exact (ih₁ hto (by omega)).next hrest pure
  | case3 payload lba lbaCount hfit hhead ih =>
    rw [not_not] at hhead
    obtain ⟨m, rest, hm, hcount, hloop⟩ := sioLoop_submits dir raid 0 payload lba lbaCount hhead hlt
    have hbound : (lba.toNat + m) % superSectorNum = 0 := by
      rw [Nat.add_mod, hhead, hm]
      rfl
    have hsplit := pieces_append dir raid payload rest.val.toNat hbound
    rw [sioTransfer, dif_neg hfit, dif_neg (not_not.mpr hhead), hcount, hsplit]
    apply hloop.bind
    show Submits raid (if rest.val ≠ 0 then
        sioTransfer dir raid (payload.add (m * sectorLength)) (lba + UInt64.ofNat m) rest.val >>=
          fun _ => pollAll raid >>= fun _ => pure 0
      else pollAll raid >>= fun _ => pure 0) _ 0
    have hend : Submits raid (pollAll raid >>= fun _ => pure (0 : ℤ)) [] 0 :=
      (submits_pure raid 0).pollAll
    by_cases hz : rest.val = 0
    · rw [if_neg (not_not.mpr hz), hz, UInt32.toNat_zero, pieces_zero]
      exact hend
    · have hrest : rest.val.toNat ≠ 0 := fun h => hz (UInt32.toNat_inj.mp h)
      have hlba' : (lba + UInt64.ofNat m).toNat = lba.toNat + m :=
        toNat_add_ofNat (by omega)
      have htail := ih (payload.add (m * sectorLength)) (lba + UInt64.ofNat m) rest (by omega)
        (by rw [hlba']; omega)
      rw [hlba'] at htail
      rw [if_pos hz, ← List.append_nil (pieces dir raid _ _ _)]
      exact htail.bind hend

end transfer
end PcapReplay
