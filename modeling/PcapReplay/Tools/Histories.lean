import PcapReplay.Tools.Progress
import PcapReplay.Tools.Survival

/-! The file system over any sequence of tools, some of which are stopped before their end. -/

namespace PcapReplay
open Interaction Dma Prog
variable {n : ℕ} [NeZero n]

/-- A process attaches the drives in some order and is stopped somewhere in the tool, or at its end before
what it has left outstanding completes. It may also have broken off by itself, and transfers may have been
refused when they were submitted, but no command on sector 0 has been, and no allocation. None of its commands
reaches past the end of a drive. -/
inductive StoppedRun (qsort : Qsort n) (ns : Fin n ↪ ℕ) (size : Fin n → UInt64) (tool : Tool)
    (disks : Disks) :
    Call → Disks → Prop
  | mk {π : Policy} (hπ : π.Smooth) {σ : Equiv.Perm (Fin n)} {w w' : World} {map : Ptr} {rounds : ℕ}
      {disks' : Disks} (hw : Fresh w map) (hdisks : w.disks = disks)
      (hcut : Cut (World.step π) (tool.main qsort (attachedAs (σ.toEmbedding.trans ns) (size ∘ σ)) rounds map) w w')
      (hleft : w'.Leaves disks') : StoppedRun qsort ns size tool disks (tool.call w.bus.store map) disks'

inductive Histories (qsort : Qsort n) (ns : Fin n ↪ ℕ) (size : Fin n → UInt64) :
    List (Call × Option Answer) → Disks → Prop
  | format {disks disks' : Disks} {call : Call} {answer : Answer}
      (h : ToolRun qsort ns size .format disks call answer disks') :
      Histories qsort ns size [(call, some answer)] disks'
  | next {log : List (Call × Option Answer)} {disks disks' : Disks} {call : Call} {answer : Answer}
      (h : Histories qsort ns size log disks) (tool : Tool) (hsmall : tool.Small)
      (hrun : ToolRun qsort ns size tool disks call answer disks') :
      Histories qsort ns size (log ++ [(call, some answer)]) disks'
  | stop {log : List (Call × Option Answer)} {disks disks' : Disks} {call : Call}
      (h : Histories qsort ns size log disks) (tool : Tool) (hne : tool ≠ .format) (hsmall : tool.Small)
      (hrun : StoppedRun qsort ns size tool disks call disks') :
      Histories qsort ns size (log ++ [(call, none)]) disks'

section main
variable {qsort : Qsort n} {ns : Fin n ↪ ℕ} {size : Fin n → UInt64} {π : Policy} {raid : NvmeRaid n}
  {σ τ : Equiv.Perm (Fin n)} {tool : Tool} {w w' : World} {map : Ptr} {rounds : ℕ} {disks disks' : Disks}
  {d : Directory}

theorem Carries.mounted (h : Carries ⟨raid, disks⟩ d) : Carries ⟨raid.mounted, disks⟩ d where
  sound := h.sound.congr (fun _ => rfl) rfl
  headed := ⟨h.headed.magic, h.headed.ids, h.headed.totals⟩
  synced := h.synced
  unnamed := h.unnamed
  files s hs := by
    obtain ⟨bytes, hbytes, hcontents⟩ := h.files s hs
    exact ⟨bytes, hbytes, hcontents.length, hcontents.small, hcontents.blocks⟩
  named := h.named

omit [NeZero n] in
theorem Drives.of_eq {raid' : NvmeRaid n} (h : Drives ns size raid σ) (hns : raid'.ns = raid.ns)
    (ht : raid'.totalBlocks = raid.totalBlocks) : Drives ns size raid' σ :=
  ⟨fun i => by rw [hns, h.ns_eq], ht.trans h.total⟩

variable (hq : qsort.Sorts)
include hq

theorem Drives.createRaid_cut (hd : Drives ns size raid τ) (hπ : π.Smooth) (hm : Headed raid)
    (hs : SyncedOn raid disks) (hidle : w.flights = 0) (hdisks : w.disks = disks) (hleft : w'.Leaves disks')
    (hcut : Cut (World.step π) (createRaid qsort (attachedAs (σ.toEmbedding.trans ns) (size ∘ σ))) w w') :
    disks' = disks := by
  have hreads : ∀ raid' : NvmeRaid n, Ensures (Op.Within Mem) (fun _ => True)
      (collect fun i => sioReadPinit (raid'.ns i) (raid'.msector i)) :=
    fun raid' => collect_ensures fun i => sioReadPinit_mem _ _
  rw [createRaid_eq] at hcut
  rcases cut_bind.mp hcut with hcut | ⟨got, w₁, hread, hcut⟩
  · exact (disks_of_cut (hreads _) hidle hcut hleft).trans hdisks
  · obtain ⟨hgot, hquiet⟩ := readTables_run (hd.attached_ns σ) hπ hs hidle hdisks hread
    rw [createRaidFrom_eq hm hq (hd.attached_ns σ) (hd.attached_total σ) hgot] at hcut
    obtain rfl := cut_pure.mp hcut
    rw [hleft.of_idle (hquiet.idle hidle), hquiet.disks hidle, hdisks]

theorem Drives.main_cut (hd : Drives ns size raid τ) (hπ : π.Smooth) (hm : Headed raid)
    (hs : SyncedOn raid disks)
    (hne : tool ≠ .format) (hidle : w.flights = 0) (hdisks : w.disks = disks) (hleft : w'.Leaves disks')
    (hcut : Cut (World.step π) (tool.main qsort (attachedAs (σ.toEmbedding.trans ns) (size ∘ σ)) rounds map) w w') :
    disks' = disks ∨
      ∃ w₁, w.Quiet w₁ ∧ Cut (World.step π) (tool.appRun raid.mounted rounds map) w₁ w' := by
  unfold Tool.main at hcut
  rw [Tool.appInit_eq hne, pure_bind] at hcut
  rcases cut_bind.mp hcut with hcut | ⟨r, w₁, hcreate, hcut⟩
  · exact Or.inl (hd.createRaid_cut hq hπ hm hs hidle hdisks hleft hcut)
  · right
    obtain ⟨rfl, hquiet⟩ := createRaid_run hm hq (hd.attached_ns σ) (hd.attached_total σ) hπ hs hidle hdisks hcreate
    exact ⟨w₁, hquiet, hcut⟩

variable (hn : n ≤ maxDisks) (hz : Sized (attachedAs ns size))
include hn hz

theorem StoppedRun.step {call : Call} (hd : Drives ns size raid τ) (h : Carries ⟨raid, disks⟩ d)
    (hne : tool ≠ .format) (hsmall : tool.Small) (hrun : StoppedRun qsort ns size tool disks call disks') :
    ∃ d' raid', d.Interrupted call d' ∧ Carries ⟨raid', disks'⟩ d' ∧ Drives ns size raid' τ := by
  obtain @⟨π, hπ, σ, w, w', map, rounds, disks', hw, hdisks, hcut, hleft⟩ := hrun
  have huntouched : disks' = disks → ∃ d' raid', d.Interrupted (tool.call w.bus.store map) d' ∧
      Carries ⟨raid', disks'⟩ d' ∧ Drives ns size raid' τ := by
    intro hsame
    exact ⟨d, raid, .untouched d _, by rw [hsame]; exact h, hd⟩
  rcases hd.main_cut hq hπ h.headed h.synced hne hw.idle hdisks hleft hcut with hsame | ⟨w₁, hquiet, hcut⟩
  · exact huntouched hsame
  · have hidle₁ := hquiet.idle hw.idle
    have hdisks₁ : w₁.disks = disks := (hquiet.disks hw.idle).trans hdisks
    have hd' : Drives ns size raid.mounted τ := hd.of_eq rfl rfl
    have hz' := hd'.sized hz
    cases tool with
    | format => exact absurd rfl hne
    | ls =>
      obtain rfl := cut_pure.mp hcut
      exact huntouched ((hleft.of_idle hidle₁).trans hdisks₁)
    | rm files =>
      have hcut' : Cut (World.step π) (rmRun raid.mounted files) w₁ w' := cut_bind_pure.mp hcut
      obtain ⟨hidle', k, raid₁, hstored, hns, htotal⟩ := h.mounted.rmRun_cut hπ hz' hidle₁ hdisks₁ hcut'
      rw [hleft.of_idle hidle']
      exact ⟨_, raid₁, .rm d _ k, hstored, hd'.of_eq hns htotal⟩
    | cpIn toRaid originSize =>
      have hcut' : Cut (World.step π) (copyIn raid.mounted rounds toRaid map originSize) w₁ w' := by
        rcases cut_bind.mp hcut with hcut | ⟨r, w₂, hcopy, hcut⟩
        · exact hcut
        · cases r with
          | none =>
            obtain rfl := cut_pure.mp hcut
            exact hcopy.cut
          | some _ =>
            obtain rfl := cut_pure.mp hcut
            exact hcopy.cut
      have h32 : (originBlocks originSize).toNat < 2 ^ 32 := by
        rw [originBlocks_toNat]
        exact hsmall
      obtain ⟨d', raid₁, hstep, hstored, hns, htotal⟩ := h.mounted.copyIn_cut hπ hn hz' hidle₁ hdisks₁ h32
        (length_memBytes w.bus.store map originSize.toNat) hcut' hleft
      exact ⟨d', raid₁, hstep, hstored, hd'.of_eq hns htotal⟩
    | cpOut fromRaid =>
      have hmem : Ensures (Op.Within Mem) (fun _ => True)
          ((Tool.cpOut fromRaid).appRun raid.mounted rounds map) := by
        refine (copyOut_mem rounds fromRaid map).bind fun r _ => ?_
        cases r with
        | none => exact ensures_pure trivial
        | some _ => exact ensures_pure trivial
      exact huntouched ((disks_of_cut hmem hidle₁ hcut hleft).trans hdisks₁)

theorem ToolRun.kept {call : Call} {answer : Answer} (hd : Drives ns size raid τ)
    (h : Carries ⟨raid, disks⟩ d)
    (hsmall : tool.Small) (hrun : ToolRun qsort ns size tool disks call answer disks') :
    ∃ d' raid' τ', d.Kept (call, some answer) d' ∧ Carries ⟨raid', disks'⟩ d' ∧ Drives ns size raid' τ' := by
  by_cases hformat : tool = .format
  · subst hformat
    obtain ⟨rfl, rfl, raid', τ', hheld⟩ := hrun.format hn hq
    exact ⟨_, raid', τ', .answered (.format d), hheld.holds.toCarries, hheld.drives⟩
  · obtain @⟨σ, w, w', v, map, rounds, report, raid', behind, _, hw, hdisks, hrun, hev, hidle⟩ := hrun
    obtain ⟨w₁, hquiet, happ⟩ := hd.main (fun _ _ _ _ => id) hq h.headed h.synced hformat hw.idle hdisks hrun
    have hdisks₁ : w₁.disks = disks := (hquiet.disks hw.idle).trans hdisks
    have hd' : Drives ns size raid.mounted τ := hd.of_eq rfl rfl
    by_cases hls : tool = .ls
    · subst hls
      obtain ⟨rfl, rfl, hsame⟩ := lsRun_run (hquiet.idle hw.idle) happ hev
      obtain ⟨lines, hlists, _, hshown⟩ := h.mounted.shown behind
      refine ⟨d, raid.mounted, τ, ?_, by rw [hsame, hdisks₁]; exact h.mounted, hd'⟩
      show d.Kept (.ls, some (.listing ((lsRun raid.mounted).map (Listing.shown behind)))) d
      rw [hshown]
      split_ifs
      · exact .hidden d
      · exact .miscounted hlists _
    · obtain ⟨d', hstep, hstored, hkin⟩ := h.mounted.appRun hn (hd'.sized hz) hformat hls hsmall
        (hw.keeps hquiet.toKeeps) hdisks₁ happ hev hidle
      rw [tool.call_congr (hquiet.memory hw.idle map.buf hw.mapped)] at hstep
      exact ⟨d', raid', τ, .answered hstep, hstored, hd'.kin hkin⟩

theorem Histories.stored {log : List (Call × Option Answer)} (h : Histories qsort ns size log disks) :
    ∃ d, Directory.History log d ∧ ∃ raid τ, Carries ⟨raid, disks⟩ d ∧ Drives ns size raid τ := by
  induction h with
  | format hrun =>
    obtain ⟨rfl, rfl, raid, τ, hheld⟩ := hrun.format hn hq
    exact ⟨_, .snoc .nil (.answered (.format _)), raid, τ, hheld.holds.toCarries, hheld.drives⟩
  | next _ tool hsmall hrun ih =>
    obtain ⟨d, hlog, raid, τ, hstored, hd⟩ := ih
    obtain ⟨d', raid', τ', hkept, hstored', hd'⟩ := hrun.kept hq hn hz hd hstored hsmall
    exact ⟨d', hlog.snoc hkept, raid', τ', hstored', hd'⟩
  | stop _ tool hne hsmall hrun ih =>
    obtain ⟨d, hlog, raid, τ, hstored, hd⟩ := ih
    obtain ⟨d', raid', hstep, hstored', hd'⟩ := hrun.step hq hn hz hd hstored hne hsmall
    exact ⟨d', hlog.snoc (.stopped hstep), raid', τ, hstored', hd'⟩

end main

theorem Drives.remounts {qsort : Qsort n} {ns : Fin n ↪ ℕ} {size : Fin n → UInt64} {raid : NvmeRaid n}
    {τ σ : Equiv.Perm (Fin n)} {disks : Disks} {d : Directory} {w w' : World} {r : Option (NvmeRaid n)}
    (hq : qsort.Sorts) (hd : Drives ns size raid τ) (hs : Carries ⟨raid, disks⟩ d) (hidle : w.flights = 0)
    (hdisks : w.disks = disks)
    (hrun : Runs flawless (createRaid qsort (attachedAs (σ.toEmbedding.trans ns) (size ∘ σ))) w r w') :
    r = some raid.mounted ∧ w'.disks = disks := by
  obtain ⟨hr, hquiet⟩ := createRaid_run hs.headed hq (hd.attached_ns σ) (hd.attached_total σ) ⟨id, id⟩ hs.synced
    hidle hdisks hrun
  exact ⟨hr, (hquiet.disks hidle).trans hdisks⟩

/-- Wherever the processes of tools other than `format` are stopped, the drives can be mounted in any order,
the files are those of the directory, and only the file that a stopped copy was writing has lost its bytes. -/
theorem histories_keep_files {qsort : Qsort n} {ns : Fin n ↪ ℕ} {size : Fin n → UInt64}
    {log : List (Call × Option Answer)} {disks : Disks} (hn : n ≤ maxDisks)
    (ht : n * superSectorNum ≤ (attachedAs ns size).totalBlocks.toNat)
    (h63 : (attachedAs ns size).totalBlocks.toNat ≤ 2 ^ 63) (hq : qsort.Sorts)
    (h : Histories qsort ns size log disks) :
    ∃ d, Directory.History log d ∧ ∃ raid : NvmeRaid n, Carries ⟨raid, disks⟩ d ∧
      ∀ (σ : Equiv.Perm (Fin n)) w r w', w.flights = 0 → w.disks = disks →
        Runs flawless (createRaid qsort (attachedAs (σ.toEmbedding.trans ns) (size ∘ σ))) w r w' →
        r = some raid.mounted ∧ w'.disks = disks := by
  obtain ⟨d, hlog, raid, τ, hstored, hd⟩ := h.stored hq hn ⟨ht, h63⟩
  exact ⟨d, hlog, raid, hstored, fun _ _ _ _ hidle hdisks hrun => hd.remounts hq hstored hidle hdisks hrun⟩

/-- A format, and a copy that is stopped when its file is in the tables, but none of its bytes on the disks. -/
theorem histories_keep_files_two_disks : ∃ call disks,
    Histories sortTwo Fin.valEmbedding (fun _ : Fin 2 => 1024) [(.format, some .nothing), (call, none)] disks ∧
    ∃ d, Directory.History [(.format, some .nothing), (call, none)] d ∧
      ∃ raid : NvmeRaid 2, Carries ⟨raid, disks⟩ d := by
  let name : Name := fun _ => 65
  have hsmall : (Tool.cpIn name 700).Small := show (UInt64.toNat 700 + 511) / 512 < 2 ^ 32 by decide
  obtain ⟨call, answer, disks₁, hformat⟩ :=
    @exists_format 2 _ sortTwo Fin.valEmbedding (fun _ => 1024) (by decide) sortTwo_sorts fun _ _ => 0
  obtain ⟨rfl, rfl, raid, τ, hheld⟩ := hformat.format (by decide) sortTwo_sorts
  -- the mount, and the entry of the file
  let σ : Equiv.Perm (Fin 2) := 1
  obtain ⟨w, map, hw, hdisks⟩ := exists_fresh disks₁
  obtain ⟨r, w₁, hcreate⟩ := exists_promptRuns flawless
    (createRaid sortTwo (attachedAs (σ.toEmbedding.trans Fin.valEmbedding) ((fun _ => 1024) ∘ σ))) w
  obtain ⟨rfl, _⟩ :=
    hheld.drives.remounts sortTwo_sorts hheld.holds.toCarries hw.idle hdisks hcreate.runs
  obtain ⟨⟨t, raid₂⟩, w₂, hentry⟩ := exists_promptRuns flawless (copyTarget raid.mounted name 700 false) w₁
  have hcopy : Cut (World.step flawless) (copyIn raid.mounted 2 name map 700) w₁ w₂ :=
    cut_bind.mpr (Or.inr ⟨(t, raid₂), w₂, hentry.runs, Cut.refl _ w₂⟩)
  have hcut : Cut (World.step flawless) ((Tool.cpIn name 700).main sortTwo
      (attachedAs (σ.toEmbedding.trans Fin.valEmbedding) ((fun _ => 1024) ∘ σ)) 2 map) w w₂ := by
    unfold Tool.main
    rw [Tool.appInit_eq (by simp), pure_bind]
    exact cut_bind.mpr (Or.inr ⟨some raid.mounted, w₁, hcreate.runs, cut_bind.mpr (Or.inl hcopy)⟩)
  have hlog := (Histories.format hformat).stop (.cpIn name 700) (by simp) hsmall
    (.mk ⟨id, id⟩ hw hdisks hcut fun _ _ => Or.inl rfl)
  obtain ⟨d, hd, raid', hstored, _⟩ :=
    histories_keep_files (by decide) (by decide +kernel) (by decide +kernel) sortTwo_sorts hlog
  exact ⟨_, w₂.disks, hlog, d, hd, raid', hstored⟩

end PcapReplay
