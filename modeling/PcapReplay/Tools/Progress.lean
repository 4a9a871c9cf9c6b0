import PcapReplay.Cp.Refused
import PcapReplay.Fs.Admission
import PcapReplay.Tools.Sessions

/-! Which tools come to their end. -/

namespace PcapReplay
open Interaction Dma Prog
variable {n : ℕ} [NeZero n]

def Tool.Breaks (raid : NvmeRaid n) : Tool → Prop
  | .cpIn toRaid originSize => originSize ≠ 0 ∧ findFile raid toRaid = none ∧
    ¬ RoomFor raid toRaid (originBlocks originSize)
  | _ => False

theorem World.memcpy_disks {π : Policy} {w w' : World} {dst src : Ptr} {len : ℕ} {r : Unit}
    (hidle : w.flights = 0) (h : Runs π (memcpy dst src len) w r w') : w'.disks = w.disks := by
  obtain ⟨b, hdrift, rfl⟩ := exec_ask.mp h
  obtain rfl := hdrift.evolves.of_idle hidle
  have hapart : ∀ k a, ¬ (memXfer dst src len).Writes (.disk k) a := by
    rintro k a ⟨hk, _⟩
    exact Space.noConfusion hk
  funext k a
  exact Xfer.exec_of_not_writes (hapart k a) w.bus.store

section copies
variable {raid : NvmeRaid n} {π : Policy} {w w' : World} {rounds : ℕ} {name : Name} {map : Ptr}
  {originSize : UInt64}

theorem copyBlocks_none_quiet {r : Option Unit} (hidle : w.flights = 0)
    (hrun : Runs π (copyBlocks raid rounds none map originSize) w r w') : w'.flights = 0 ∧ w'.disks = w.disks := by
  unfold copyBlocks at hrun
  split_ifs at hrun with hmod
  · obtain ⟨res, w₁, hmalloc, hrun⟩ := exec_bind.mp hrun
    have hquiet := World.malloc_quiet hmalloc
    have hidle₁ := hquiet.idle hidle
    rw [← hquiet.disks hidle]
    cases res with
    | none =>
      obtain ⟨_, rfl⟩ := exec_pure.mp hrun
      exact ⟨hidle₁, rfl⟩
    | some p =>
      obtain ⟨_, w₂, hcopy, hrun⟩ := exec_bind.mp hrun
      obtain ⟨_, rfl⟩ := exec_pure.mp hrun
      exact ⟨(World.memcpy_sameTasks hcopy).idle hidle₁, World.memcpy_disks hidle₁ hcopy⟩
  · unfold copyWhole at hrun
    split_ifs at hrun
    · obtain ⟨_, rfl⟩ := exec_pure.mp hrun
      exact ⟨hidle, rfl⟩
    · obtain ⟨_, rfl⟩ := exec_pure.mp hrun
      exact ⟨hidle, rfl⟩

theorem copyBlocks_empty_run {r : Option Unit} (hrun : Runs π (copyBlocks raid rounds none map 0) w r w') :
    r = some () := by
  rw [copyBlocks_empty] at hrun
  exact (exec_pure.mp hrun).1

section inv
variable (hi : TableInv raid) (hn : n ≤ maxDisks) (ht : n * 256 ≤ raid.totalBlocks.toNat)
include hi hn ht

theorem copyIn_none_iff (hw : Fresh w map) {r : Option (NvmeRaid n)}
    (hrun : PromptRuns flawless (copyIn raid (rounds + 2) name map originSize) w r w') :
    (r = none ↔ (Tool.cpIn name originSize).Breaks raid) ∧ (r = none → w'.flights = 0 ∧ w'.disks = w.disks) := by
  by_cases hfit : FileFits raid name originSize
  · obtain ⟨raid', rfl⟩ := copyIn_returns hi hn ht hfit hw hrun
    refine ⟨iff_of_false (by simp) ?_, fun hnone => absurd hnone (by simp)⟩
    rintro ⟨_, habsent, hroom⟩
    rw [← admits_iff_roomFor hi hn ht] at hroom
    rcases hfit with ⟨s, hs, _⟩ | ⟨s, raid', hadd⟩
    · rw [habsent] at hs
      exact absurd hs (by simp)
    · exact hroom (addFile_some hadd).2.1
  · unfold FileFits at hfit
    rw [not_or] at hfit
    obtain ⟨hlarge, hrefused⟩ := hfit
    unfold copyIn at hrun
    obtain ⟨⟨t, raid₁⟩, w₁, htarget, hrest⟩ := exec_bind.mp hrun
    unfold copyTarget at htarget
    cases hs : findFile raid name with
    | some s =>
      have hlt : fileSize (raid.file s) < originSize :=
        UInt64.not_le.mp fun hle => hlarge ⟨s, hs, hle⟩
      simp only [hs] at htarget
      rw [if_pos hlt] at htarget
      obtain ⟨heq, rfl⟩ := exec_pure.mp htarget
      obtain ⟨rfl, rfl⟩ := Prod.mk.inj heq
      obtain ⟨rfl, _⟩ := exec_pure.mp hrest
      refine ⟨iff_of_false (by simp) ?_, fun hnone => absurd hnone (by simp)⟩
      rintro ⟨_, habsent, _⟩
      rw [hs] at habsent
      exact absurd habsent (by simp)
    | none =>
      have hno : ¬ Admits raid name (originBlocks originSize) := by
        intro ha
        cases hfree : freeSlot raid with
        | none => exact freeSlot_ne_none (hi.total ▸ ha.room) hfree
        | some s => exact hrefused ⟨s, _, returns_addFile ha hfree⟩
      have hadd : addFile raid name (originBlocks originSize) = pure (none, raid) := by
        rcases addFile_eq raid name (originBlocks originSize) with ⟨heq, _⟩ | ⟨_, _, ha, _⟩
        · exact heq
        · exact absurd ha hno
      simp only [hs, hadd, pure_bind] at htarget
      obtain ⟨heq, rfl⟩ := exec_pure.mp htarget
      obtain ⟨rfl, rfl⟩ := Prod.mk.inj heq
      obtain ⟨c, w₂, hcopy, hlast⟩ := exec_bind.mp hrest
      have hquiet := copyBlocks_none_quiet hw.idle (PromptRuns.runs hcopy)
      have hbreaks : (Tool.cpIn name originSize).Breaks raid₁ ↔ originSize ≠ 0 := by
        show originSize ≠ 0 ∧ findFile raid₁ name = none ∧ ¬ RoomFor raid₁ name (originBlocks originSize) ↔ _
        rw [← admits_iff_roomFor hi hn ht]
        exact ⟨And.left, fun hne => ⟨hne, hs, hno⟩⟩
      rw [hbreaks]
      cases c with
      | none =>
        obtain ⟨rfl, rfl⟩ := exec_pure.mp hlast
        refine ⟨iff_of_true rfl ?_, fun _ => hquiet⟩
        rintro rfl
        exact absurd (copyBlocks_empty_run (PromptRuns.runs hcopy)) (by simp)
      | some _ =>
        obtain ⟨rfl, _⟩ := exec_pure.mp hlast
        refine ⟨iff_of_false (by simp) ?_, fun hnone => absurd hnone (by simp)⟩
        rw [not_not]
        exact copyBlocks_none_empty (PromptRuns.runs hcopy)

end inv
end copies

section tools
variable {st : RaidState n} {d : Directory} {w w' : World} {map : Ptr} {rounds : ℕ} {tool : Tool}

theorem Carries.copyOut_ends (h : Carries st d) (hw : Fresh w map) {name : Name} {c : Option (Option UInt64)}
    (hrun : PromptRuns flawless (PcapReplay.copyOut st.raid (rounds + 2) name map) w c w') :
    ∃ size, c = some size := by
  cases hs : findFile st.raid name with
  | none =>
    unfold PcapReplay.copyOut at hrun
    simp only [hs] at hrun
    exact ⟨none, (exec_pure.mp hrun).1⟩
  | some s =>
    obtain ⟨hprep, _⟩ := prepared_of_found h.sound hs (h.fileBlocks_lt s)
    exact copyOut_returns id id hw.idle hw.balanced (by rw [hw.scheduled_toNat]; decide) hprep hrun

theorem Holds.appRun_none_iff (h : Holds st d) (hn : n ≤ maxDisks) (hz : Sized st.raid) (hw : Fresh w map)
    {r : Option (Report × NvmeRaid n)}
    (hrun : PromptRuns flawless (tool.appRun st.raid (rounds + 2) map) w r w') :
    (r = none ↔ tool.Breaks st.raid) ∧ (r = none → w'.flights = 0 ∧ w'.disks = w.disks) := by
  have hreturned : ∀ {p}, r = some p → ¬ tool.Breaks st.raid →
      (r = none ↔ tool.Breaks st.raid) ∧ (r = none → w'.flights = 0 ∧ w'.disks = w.disks) := by
    rintro p rfl hno
    exact ⟨iff_of_false (by simp) hno, fun hnone => absurd hnone (by simp)⟩
  cases tool with
  | format => exact hreturned (exec_pure.mp hrun).1 id
  | ls => exact hreturned (exec_pure.mp hrun).1 id
  | rm files =>
    obtain ⟨_, _, _, hrest⟩ := exec_bind.mp hrun
    exact hreturned (exec_pure.mp hrest).1 id
  | cpIn toRaid originSize =>
    obtain ⟨c, w₁, hcopy, hrest⟩ := exec_bind.mp hrun
    obtain ⟨hiff, hkept⟩ := copyIn_none_iff h.inv hn hz.reserved hw hcopy
    cases c with
    | none =>
      obtain ⟨rfl, rfl⟩ := exec_pure.mp hrest
      exact ⟨iff_of_true rfl (hiff.mp rfl), fun _ => hkept rfl⟩
    | some raid' =>
      exact hreturned (exec_pure.mp hrest).1 fun hbreaks => absurd (hiff.mpr hbreaks) (by simp)
  | cpOut fromRaid =>
    obtain ⟨c, w₁, hcopy, hrest⟩ := exec_bind.mp hrun
    obtain ⟨size, rfl⟩ := h.toCarries.copyOut_ends hw hcopy
    exact hreturned (exec_pure.mp hrest).1 id

end tools

section empty
variable {disks : Disks} {raid : NvmeRaid n} (h : Holds ⟨raid, disks⟩ Directory.empty)
include h

theorem Holds.dead_empty (s : Slot n) : ¬ raid.Live s := by
  intro hs
  obtain ⟨bytes, hbytes, _⟩ := h.files s hs
  exact absurd hbytes (by simp [Directory.empty])

theorem Holds.rightFreeBlock_empty (hn : n ≤ maxDisks) : (rightFreeBlock raid).toNat = n * 256 := by
  apply Nat.le_antisymm
  · apply rightFreeBlock_le hn le_rfl
    intro s
    rw [(h.inv.free s (h.dead_empty s)).2]
    exact Nat.zero_le _
  · exact reserved_le_rightFreeBlock hn raid

theorem Holds.roomFor_empty (hn : n ≤ maxDisks) {name : Name} {blsize : UInt64} (hname : name 0 ≠ 0)
    (hfits : n * 256 + blsize.toNat ≤ raid.totalBlocks.toNat) : RoomFor raid name blsize := by
  have hnone : raid.live = ∅ := by
    apply Finset.eq_empty_iff_forall_notMem.mpr
    intro s hs
    exact h.dead_empty s ((raid.mem_live s).mp hs)
  refine ⟨hname, fun s hs => absurd hs (h.dead_empty s), ?_, ?_⟩
  · rw [hnone, Finset.card_empty]
    exact Nat.mul_pos (by decide) (Nat.pos_of_neZero n)
  · have hfree := h.rightFreeBlock_empty hn
    omega

end empty

section processes
variable {qsort : Qsort n} {ns : Fin n ↪ ℕ} {size : Fin n → UInt64} (hn : n ≤ maxDisks)
  (hz : Sized (attachedAs ns size)) (hq : qsort.Sorts)
include hn hz hq

theorem HeldBy.main_none_iff {disks : Disks} {d : Directory} {raid : NvmeRaid n} {σ τ : Equiv.Perm (Fin n)}
    {tool : Tool} {w w' : World} {map : Ptr} {rounds : ℕ} {r : Option (Report × NvmeRaid n)}
    (hd : HeldBy ns size disks d raid σ) (hw : Fresh w map) (hdisks : w.disks = disks)
    (hrun : PromptRuns flawless (tool.main qsort (attachedAs (τ.toEmbedding.trans ns) (size ∘ τ)) (rounds + 2) map)
      w r w') :
    (r = none ↔ tool.Breaks raid) ∧ (r = none → w'.flights = 0 ∧ w'.disks = disks) := by
  have hstep : ∀ o w r w', World.promptStep flawless o w r w' → World.step flawless o w r w' :=
    fun _ _ _ _ => And.left
  by_cases hformat : tool = .format
  · subst hformat
    obtain ⟨rfl, _⟩ := format_main hstep hq hn hw.idle hrun
    exact ⟨iff_of_false (by simp) id, fun hnone => absurd hnone (by simp)⟩
  · obtain ⟨w₁, hquiet, happ⟩ := hd.drives.main hstep hq hd.holds.headed hd.holds.synced hformat hw.idle hdisks hrun
    rw [hd.holds.counted.mounted_eq] at happ
    obtain ⟨hiff, hkept⟩ := hd.holds.appRun_none_iff hn (hd.drives.sized hz) (hw.keeps hquiet.toKeeps) happ
    refine ⟨hiff, fun hnone => ?_⟩
    obtain ⟨hidle, hsame⟩ := hkept hnone
    exact ⟨hidle, hsame.trans ((hquiet.disks hw.idle).trans hdisks)⟩

omit [NeZero n] hn hz hq in
theorem exists_fresh (disks : Disks) : ∃ w map, Fresh w map ∧ w.disks = disks := by
  let m : Store Space UInt8 := fun s a =>
    match s with
    | .mem _ => 0
    | .disk ns => disks ns a
  exact ⟨⟨⟨m, 0⟩, 0, 0, 1⟩, ⟨0, 0⟩, ⟨rfl, rfl, rfl, Nat.one_pos⟩, rfl⟩

omit hn hz hq in
theorem exists_mainRun (tool : Tool) (σ : Equiv.Perm (Fin n)) (disks : Disks) :
    ∃ w map r w', Fresh w map ∧ w.disks = disks ∧ PromptRuns flawless
      (tool.main qsort (attachedAs (σ.toEmbedding.trans ns) (size ∘ σ)) 2 map) w r w' := by
  obtain ⟨w, map, hw, hdisks⟩ := exists_fresh disks
  obtain ⟨r, w', hrun⟩ := exists_promptRuns flawless
    (tool.main qsort (attachedAs (σ.toEmbedding.trans ns) (size ∘ σ)) 2 map) w
  exact ⟨w, map, r, w', hw, hdisks, hrun⟩

omit hz in
theorem exists_format (disks : Disks) :
    ∃ call answer disks', ToolRun qsort ns size .format disks call answer disks' := by
  obtain ⟨w, map, r, w', hw, hdisks, hrun⟩ := @exists_mainRun n _ qsort ns size .format 1 disks
  obtain ⟨rfl, hidle, _⟩ := format_main (fun _ _ _ _ => id) hq hn hw.idle hrun.runs
  exact ⟨_, _, _, .mk (fun _ => []) trivial hw hdisks hrun.runs .refl hidle⟩

theorem HeldBy.exists_toolRun {disks : Disks} {d : Directory} {raid : NvmeRaid n} {σ : Equiv.Perm (Fin n)}
    (hd : HeldBy ns size disks d raid σ) {tool : Tool} (haccepted : tool.Accepted) (hno : ¬ tool.Breaks raid) :
    ∃ call answer disks', ToolRun qsort ns size tool disks call answer disks' := by
  obtain ⟨w, map, r, w', hw, hdisks, hrun⟩ := @exists_mainRun n _ qsort ns size tool 1 disks
  obtain ⟨p, rfl⟩ : ∃ p, r = some p := by
    obtain ⟨hiff, _⟩ := hd.main_none_iff hn hz hq hw hdisks hrun
    exact Option.ne_none_iff_exists'.mp fun hnone => hno (hiff.mp hnone)
  obtain ⟨b, hev, hidle⟩ := w'.bus.exists_settled
  let v : World := { w' with bus := b }
  have hev' : Bus.Evolves w'.bus v.bus := hev
  exact ⟨_, _, _, .mk (fun _ => []) haccepted hw hdisks hrun.runs hev' hidle⟩

end processes

/-- On a machine that completes what it is asked for, a tool breaks off exactly where it copies a file with
at least one byte for which there is no entry, and then the disks are as they were. -/
theorem tools_end_iff {qsort : Qsort n} {ns : Fin n ↪ ℕ} {size : Fin n → UInt64} {log : List (Call × Answer)}
    {disks : Disks} (hn : n ≤ maxDisks) (ht : n * superSectorNum ≤ (attachedAs ns size).totalBlocks.toNat)
    (h63 : (attachedAs ns size).totalBlocks.toNat ≤ 2 ^ 63) (hq : qsort.Sorts)
    (h : Sessions qsort ns size log disks) :
    ∃ d, Directory.Run log d ∧ ∃ raid : NvmeRaid n, Holds ⟨raid, disks⟩ d ∧
      raid.totalBlocks = (attachedAs ns size).totalBlocks ∧
      ∀ (tool : Tool) (σ : Equiv.Perm (Fin n)) w map rounds r w', Fresh w map → w.disks = disks →
        PromptRuns flawless
          (tool.main qsort (attachedAs (σ.toEmbedding.trans ns) (size ∘ σ)) (rounds + 2) map) w r w' →
        (r = none ↔ tool.Breaks raid) ∧ (r = none → w'.flights = 0 ∧ w'.disks = disks) := by
  have hz : Sized (attachedAs ns size) := ⟨ht, h63⟩
  obtain ⟨d, hlog, raid, τ, hd⟩ := h.held hn hz hq
  exact ⟨d, hlog, raid, hd.holds, hd.drives.total,
    fun _ _ _ _ _ _ _ hw hdisks hrun => hd.main_none_iff hn hz hq hw hdisks hrun⟩

theorem exists_sessions_two_disks : ∃ log disks, log.length = 3 ∧
    Sessions sortTwo Fin.valEmbedding (fun _ : Fin 2 => 1024) log disks := by
  have hn : 2 ≤ maxDisks := by decide
  have hz : Sized (attachedAs Fin.valEmbedding fun _ : Fin 2 => 1024) := ⟨by decide +kernel, by decide +kernel⟩
  obtain ⟨call, answer, disks₁, hformat⟩ :=
    @exists_format 2 _ sortTwo Fin.valEmbedding (fun _ => 1024) hn sortTwo_sorts fun _ _ => 0
  obtain ⟨rfl, rfl, raid, σ, hd⟩ := hformat.format hn sortTwo_sorts
  let name : Name := fun _ => 65
  have hroom : RoomFor raid name (originBlocks 700) := by
    refine hd.holds.roomFor_empty hn (by decide) ?_
    rw [hd.drives.total]
    decide +kernel
  have hsmall : (Tool.cpIn name 700).Small := show (UInt64.toNat 700 + 511) / 512 < 2 ^ 32 by decide
  obtain ⟨call₂, answer₂, disks₂, hcopy⟩ :=
    @HeldBy.exists_toolRun _ _ _ _ _ hn hz sortTwo_sorts _ _ _ _ hd (.cpIn name 700) trivial fun hb => hb.2.2 hroom
  obtain ⟨d, raid₂, σ₂, _, hd₂⟩ := hcopy.step hn hz sortTwo_sorts hd hsmall
  obtain ⟨call₃, answer₃, disks₃, hls⟩ :=
    @HeldBy.exists_toolRun _ _ _ _ _ hn hz sortTwo_sorts _ _ _ _ hd₂ .ls trivial id
  exact ⟨_, disks₃, rfl, ((Sessions.format hformat).next (.cpIn name 700) hsmall hcopy).next .ls trivial hls⟩

theorem sessions_refine_directory_two_disks : ∃ log disks, log.length = 3 ∧
    Sessions sortTwo Fin.valEmbedding (fun _ : Fin 2 => 1024) log disks ∧
    ∃ d, Directory.Run log d ∧ ∃ raid : NvmeRaid 2, Holds ⟨raid, disks⟩ d := by
  obtain ⟨log, disks, hlength, h⟩ := exists_sessions_two_disks
  exact ⟨log, disks, hlength, h,
    sessions_refine_directory (by decide) (by decide +kernel) (by decide +kernel) sortTwo_sorts h⟩

theorem tools_end_iff_two_disks : ∃ disks,
    Sessions sortTwo Fin.valEmbedding (fun _ : Fin 2 => 1024) [(.format, .nothing)] disks ∧
    ∀ σ : Equiv.Perm (Fin 2),
      (∃ w map p w', Fresh w map ∧ w.disks = disks ∧ PromptRuns flawless
        ((Tool.cpIn (fun _ => 65) 700).main sortTwo (attachedAs (σ.toEmbedding.trans Fin.valEmbedding)
          ((fun _ => 1024) ∘ σ)) 2 map) w (some p) w') ∧
      ∃ w map w', Fresh w map ∧ w.disks = disks ∧ PromptRuns flawless
        ((Tool.cpIn (fun _ => 65) 1048577).main sortTwo (attachedAs (σ.toEmbedding.trans Fin.valEmbedding)
          ((fun _ => 1024) ∘ σ)) 2 map) w none w' ∧ w'.disks = disks := by
  obtain ⟨call, answer, disks, hformat⟩ :=
    @exists_format 2 _ sortTwo Fin.valEmbedding (fun _ => 1024) (by decide) sortTwo_sorts fun _ _ => 0
  obtain ⟨rfl, rfl, _⟩ := hformat.format (by decide) sortTwo_sorts
  have hlog := Sessions.format hformat
  obtain ⟨d, hd, raid, hholds, htotal, hends⟩ :=
    tools_end_iff (by decide) (by decide +kernel) (by decide +kernel) sortTwo_sorts hlog
  obtain rfl := hd.of_format
  have hsectors : raid.totalBlocks.toNat = 2048 := by
    rw [htotal]
    decide +kernel
  refine ⟨disks, hlog, fun σ => ⟨?_, ?_⟩⟩
  · have hroom : RoomFor raid (fun _ => 65) (originBlocks 700) := by
      refine hholds.roomFor_empty (by decide) (by decide) ?_
      rw [hsectors]
      decide
    obtain ⟨w, map, r, w', hw, hdisks, hrun⟩ :=
      @exists_mainRun 2 _ sortTwo Fin.valEmbedding (fun _ => 1024) (.cpIn (fun _ => 65) 700) σ disks
    obtain ⟨hiff, _⟩ := hends _ σ w map 0 r w' hw hdisks hrun
    obtain ⟨p, rfl⟩ := Option.ne_none_iff_exists'.mp fun hnone => (hiff.mp hnone).2.2 hroom
    exact ⟨w, map, p, w', hw, hdisks, hrun⟩
  · have hbreaks : (Tool.cpIn (fun _ => 65) 1048577).Breaks raid := by
      refine ⟨by decide, ?_, fun hroom => ?_⟩
      · exact (findFile_eq_none_iff (by decide)).mpr fun s hs => absurd hs (hholds.dead_empty s)
      · have hspace := hroom.space
        rw [hsectors] at hspace
        exact absurd (hspace.trans (Nat.sub_le _ _)) (by decide)
    obtain ⟨w, map, r, w', hw, hdisks, hrun⟩ :=
      @exists_mainRun 2 _ sortTwo Fin.valEmbedding (fun _ => 1024) (.cpIn (fun _ => 65) 1048577) σ disks
    obtain ⟨hiff, hkept⟩ := hends _ σ w map 0 r w' hw hdisks hrun
    obtain rfl := hiff.mpr hbreaks
    exact ⟨w, map, w', hw, hdisks, hrun, (hkept rfl).2⟩

end PcapReplay
