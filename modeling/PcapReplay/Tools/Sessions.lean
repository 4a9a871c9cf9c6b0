import PcapReplay.Tools.Copies
import PcapReplay.Tools.Listing

/-! Tools that are run one after the other, each by a process that finds what the last one has left on
the drives. -/

namespace PcapReplay
open Interaction Dma Prog
variable {n : ℕ}

def Tool.call (m : Store Space UInt8) (map : Ptr) : Tool → Call
  | .format => .format
  | .ls => .ls
  | .rm files => .rm (files.map Name.str)
  | .cpIn toRaid originSize => .cpIn toRaid.str (memBytes m map originSize.toNat)
  | .cpOut fromRaid => .cpOut fromRaid.str

/-- What a listing says, with this memory behind the table of a line. -/
def Listing.shown (behind : ℕ → List UInt8) (l : Listing) : List (Key × ℕ) × ℤ :=
  (l.lines.map fun line => (line.printed (behind line.id), line.sectors.toNat), l.showing)

def Report.answer (behind : ℕ → List UInt8) (m : Store Space UInt8) (map : Ptr) : Report → Answer
  | .nothing => .nothing
  | .listing l => .listing (l.map (Listing.shown behind))
  | .removed ok => .removed ok
  | .copied bytes => .copied (bytes.map fun k => memBytes m map k.toNat)

def Tool.Small : Tool → Prop
  | .cpIn _ originSize => (originSize.toNat + 511) / 512 < 2 ^ 32
  | _ => True

variable [NeZero n]

/-- A process attaches the drives in some order and runs the tool to its end. None of its commands and
allocations fails, none of its commands reaches past the end of a drive, and what it has left outstanding
when it exits completes. -/
inductive ToolRun (qsort : Qsort n) (ns : Fin n ↪ ℕ) (size : Fin n → UInt64) (tool : Tool) (disks : Disks) :
    Call → Answer → Disks → Prop
  | mk {σ : Equiv.Perm (Fin n)} {w w' v : World} {map : Ptr} {rounds : ℕ} {report : Report}
      {raid' : NvmeRaid n} (behind : ℕ → List UInt8) (haccepted : tool.Accepted) (hw : Fresh w map)
      (hdisks : w.disks = disks)
      (hrun : Runs flawless (tool.main qsort (attachedAs (σ.toEmbedding.trans ns) (size ∘ σ)) rounds map) w
        (some (report, raid')) w')
      (hev : Bus.Evolves w'.bus v.bus) (hidle : v.flights = 0) :
      ToolRun qsort ns size tool disks (tool.call w.bus.store map) (report.answer behind w'.bus.store map) v.disks

inductive Sessions (qsort : Qsort n) (ns : Fin n ↪ ℕ) (size : Fin n → UInt64) :
    List (Call × Answer) → Disks → Prop
  | format {disks disks' : Disks} {call : Call} {answer : Answer}
      (h : ToolRun qsort ns size .format disks call answer disks') : Sessions qsort ns size [(call, answer)] disks'
  | next {log : List (Call × Answer)} {disks disks' : Disks} {call : Call} {answer : Answer}
      (h : Sessions qsort ns size log disks) (tool : Tool) (hsmall : tool.Small)
      (hrun : ToolRun qsort ns size tool disks call answer disks') :
      Sessions qsort ns size (log ++ [(call, answer)]) disks'

section tools
variable {st : RaidState n} {d : Directory} {raid' : NvmeRaid n} {w w' v : World} {map : Ptr} {rounds : ℕ}
  {report : Report} {behind : ℕ → List UInt8}

def listed (behind : ℕ → List UInt8) (raid : NvmeRaid n) : List (Key × ℕ) :=
  (liveSlots raid).map fun s => ((lsLine raid s).printed (behind (slotId s)), fileBlocks raid s)

omit [NeZero n] in
theorem map_take_listed (behind : ℕ → List UInt8) (raid : NvmeRaid n) :
    (listed behind raid).map (fun line => (line.1.take nameLength, line.2)) =
      (liveSlots raid).map fun s => ((raid.file s).name.str, fileBlocks raid s) := by
  rw [listed, List.map_map]
  apply List.map_congr_left
  intro s _
  exact congrArg (fun name => (name, fileBlocks raid s)) (printed_lsLine raid s _)

theorem Carries.lists (h : Carries st d) (behind : ℕ → List UInt8) : d.Lists (listed behind st.raid) := by
  have htake := map_take_listed behind st.raid
  constructor
  · have hnames := congrArg (List.map Prod.fst) htake
    rw [List.map_map, List.map_map] at hnames
    have hnodup : ((liveSlots st.raid).map fun s => (st.raid.file s).name.str).Nodup := by
      refine (nodup_liveSlots st.raid).map_on fun s hs t ht hst => ?_
      exact h.sound.unique (mem_liveSlots.mp hs) (mem_liveSlots.mp ht) ((cmpFile_eq_zero _ _).mpr hst)
    exact hnames ▸ hnodup
  · intro name sectors
    rw [htake, List.mem_map]
    constructor
    · rintro ⟨s, hs, hline⟩
      obtain ⟨rfl, rfl⟩ := Prod.mk.inj hline
      obtain ⟨bytes, hd, hcontents⟩ := h.files s (mem_liveSlots.mp hs)
      exact ⟨bytes, hd, hcontents.length⟩
    · rintro ⟨bytes, hd, hlength⟩
      obtain ⟨s, hlive, rfl⟩ := h.named name bytes hd
      obtain ⟨bytes', hd', hcontents⟩ := h.files s hlive
      rw [hd] at hd'
      obtain rfl := Option.some.inj hd'
      have hsectors : fileBlocks st.raid s = sectors := by
        have := hcontents.length
        omega
      exact ⟨s, mem_liveSlots.mpr hlive, by rw [hsectors]⟩

theorem Carries.shown (h : Carries st d) (behind : ℕ → List UInt8) :
    ∃ lines, d.Lists lines ∧ lines.length = st.raid.live.card ∧
      (lsRun st.raid).map (Listing.shown behind) =
        if st.raid.numFiles = 0 then none else some (lines, st.raid.numFiles) := by
  refine ⟨_, h.lists behind, ?_, ?_⟩
  · rw [listed, List.length_map, length_liveSlots]
  · have hlines : ((liveSlots st.raid).map (lsLine st.raid)).map
        (fun line => (line.printed (behind line.id), line.sectors.toNat)) = listed behind st.raid := by
      rw [listed, List.map_map]
      apply List.map_congr_left
      intro s _
      exact congrArg (Prod.mk _) (h.sound.length_toNat s)
    rw [lsRun_eq]
    split_ifs
    · rfl
    · rw [Option.map_some, Listing.shown, hlines]

theorem Holds.ls (h : Holds st d) (behind : ℕ → List UInt8) :
    d.Step .ls (.listing ((lsRun st.raid).map (Listing.shown behind))) d := by
  obtain ⟨lines, hlists, hlength, hshown⟩ := h.shown behind
  have hnum : st.raid.numFiles = lines.length := by rw [h.counted.num, hlength]
  rw [hshown, hnum]
  split_ifs with hz
  · have hnil : lines = [] := List.length_eq_zero_iff.mp (Int.ofNat_eq_zero.mp hz)
    have hempty : d = Directory.empty := by
      funext name
      by_contra hne
      obtain ⟨bytes, hbytes⟩ := Option.ne_none_iff_exists'.mp hne
      obtain ⟨s, hlive, rfl⟩ := h.named name bytes hbytes
      rw [hnil, List.length_nil] at hlength
      exact absurd ((st.raid.mem_live s).mpr hlive) (Finset.card_eq_zero.mp hlength.symm ▸ Finset.notMem_empty s)
    rw [hempty]
    exact .lsEmpty
  · refine .ls hlists fun hnil => hz ?_
    rw [hnil]
    rfl

theorem Carries.appRun (h : Carries st d) (hn : n ≤ maxDisks) (hz : Sized st.raid) {tool : Tool}
    (hne : tool ≠ .format) (hls : tool ≠ .ls) (hsmall : tool.Small) (hw : Fresh w map) (hdisks : w.disks = st.disks)
    (hrun : Runs flawless (tool.appRun st.raid rounds map) w (some (report, raid')) w')
    (hev : Bus.Evolves w'.bus v.bus) (hidle : v.flights = 0) :
    ∃ d', d.Step (tool.call w.bus.store map) (report.answer behind w'.bus.store map) d' ∧
      Carries ⟨raid', v.disks⟩ d' ∧ Kin st.raid raid' := by
  cases tool with
  | format => exact absurd rfl hne
  | ls => exact absurd rfl hls
  | rm files =>
    obtain ⟨⟨ok, raid₁⟩, w₁, hrm, hrest⟩ := exec_bind.mp hrun
    obtain ⟨heq, rfl⟩ := exec_pure.mp hrest
    obtain ⟨rfl, rfl⟩ := Prod.mk.inj (Option.some.inj heq)
    obtain ⟨hok, hstored, hkeeps, hkin⟩ := h.rmRun hn hz hw.idle hdisks hrm
    have hsame : v.disks = w'.disks := by
      unfold World.disks
      rw [hev.of_idle (hkeeps.idle hw.idle)]
    refine ⟨_, ?_, by rw [hsame]; exact hstored, hkin⟩
    have hstep := Directory.Step.rm d (files.map Name.str)
    rwa [← hok] at hstep
  | cpIn toRaid originSize =>
    obtain ⟨r, w₁, hcopy, hrest⟩ := exec_bind.mp hrun
    cases r with
    | none => exact absurd hrest.1 (by simp)
    | some raid₁ =>
      obtain ⟨heq, rfl⟩ := exec_pure.mp hrest
      obtain ⟨rfl, rfl⟩ := Prod.mk.inj (Option.some.inj heq)
      have h32 : (originBlocks originSize).toNat < 2 ^ 32 := by
        rw [originBlocks_toNat]
        exact hsmall
      exact h.copyIn hn hz hw hdisks h32 hcopy hev hidle
  | cpOut fromRaid =>
    obtain ⟨r, w₁, hcopy, hrest⟩ := exec_bind.mp hrun
    cases r with
    | none => exact absurd hrest.1 (by simp)
    | some bytes =>
      obtain ⟨heq, rfl⟩ := exec_pure.mp hrest
      obtain ⟨rfl, rfl⟩ := Prod.mk.inj (Option.some.inj heq)
      obtain ⟨hidle', hkept⟩ := copyOut_quiet h.sound hz hw hcopy
      have hsame : v.disks = st.disks := by
        rw [← hdisks, ← hkept]
        unfold World.disks
        rw [hev.of_idle hidle']
      exact ⟨d, h.copyOut hw hdisks hcopy, by rw [hsame]; exact h, .refl _⟩

theorem lsRun_run {raid : NvmeRaid n} {step : (o : Op) → World → Ans o → World → Prop}
    (hidle : w.flights = 0) (hrun : Exec step (Tool.ls.appRun raid rounds map) w (some (report, raid')) w')
    (hev : Bus.Evolves w'.bus v.bus) : report = .listing (lsRun raid) ∧ raid' = raid ∧ v.disks = w.disks := by
  obtain ⟨heq, rfl⟩ := exec_pure.mp hrun
  obtain ⟨rfl, rfl⟩ := Prod.mk.inj (Option.some.inj heq)
  refine ⟨rfl, rfl, ?_⟩
  unfold World.disks
  rw [hev.of_idle hidle]

theorem Holds.appRun (h : Holds st d) (hn : n ≤ maxDisks) (hz : Sized st.raid) {tool : Tool}
    (hne : tool ≠ .format) (hsmall : tool.Small) (hw : Fresh w map) (hdisks : w.disks = st.disks)
    (hrun : Runs flawless (tool.appRun st.raid rounds map) w (some (report, raid')) w')
    (hev : Bus.Evolves w'.bus v.bus) (hidle : v.flights = 0) :
    ∃ d', d.Step (tool.call w.bus.store map) (report.answer behind w'.bus.store map) d' ∧
      Holds ⟨raid', v.disks⟩ d' ∧ Kin st.raid raid' := by
  by_cases hls : tool = .ls
  · subst hls
    obtain ⟨rfl, rfl, hsame⟩ := lsRun_run hw.idle hrun hev
    exact ⟨d, h.ls behind, by rw [hsame, hdisks]; exact h, .refl _⟩
  · obtain ⟨d', hstep, hstored, hkin⟩ := h.toCarries.appRun hn hz hne hls hsmall hw hdisks hrun hev hidle
    exact ⟨d', hstep, ⟨hstored, hkin.counted h.counted⟩, hkin⟩

theorem Tool.call_congr {m m' : Store Space UInt8} (h : m (.mem map.buf) = m' (.mem map.buf)) (tool : Tool) :
    tool.call m map = tool.call m' map := by
  cases tool with
  | cpIn toRaid originSize => exact congrArg (Call.cpIn toRaid.str) (memBytes_congr h _)
  | _ => rfl

end tools

section processes
variable {qsort : Qsort n} {ns : Fin n ↪ ℕ} {size : Fin n → UInt64}

omit [NeZero n] in
theorem attachedAs_totalBlocks (σ : Equiv.Perm (Fin n)) :
    (attachedAs (σ.toEmbedding.trans ns) (size ∘ σ)).totalBlocks = (attachedAs ns size).totalBlocks := by
  have hperm : (List.ofFn (size ∘ σ)).Perm (List.ofFn size) := σ.ofFn_comp_perm size
  refine hperm.foldl_eq' (fun a _ b _ total => ?_) 0
  rw [UInt64.add_assoc, UInt64.add_comm a b, ← UInt64.add_assoc]

structure Drives (ns : Fin n ↪ ℕ) (size : Fin n → UInt64) (raid : NvmeRaid n) (σ : Equiv.Perm (Fin n))
    : Prop where
  ns_eq : ∀ i, raid.ns i = ns (σ i)
  total : raid.totalBlocks = (attachedAs ns size).totalBlocks

theorem Drives.kin {raid raid' : NvmeRaid n} {σ : Equiv.Perm (Fin n)} (h : Drives ns size raid σ)
    (hk : Kin raid raid') : Drives ns size raid' σ :=
  ⟨fun i => by rw [hk.ns, h.ns_eq], hk.total.trans h.total⟩

omit [NeZero n] in
theorem Drives.sized {raid : NvmeRaid n} {σ : Equiv.Perm (Fin n)} (h : Drives ns size raid σ)
    (hz : Sized (attachedAs ns size)) : Sized raid := hz.of_total h.total

structure HeldBy (ns : Fin n ↪ ℕ) (size : Fin n → UInt64) (disks : Disks) (d : Directory) (raid : NvmeRaid n)
    (σ : Equiv.Perm (Fin n)) : Prop where
  holds : Holds ⟨raid, disks⟩ d
  drives : Drives ns size raid σ

section attached
variable {raid : NvmeRaid n} {τ : Equiv.Perm (Fin n)} (h : Drives ns size raid τ) (σ : Equiv.Perm (Fin n))
include h

omit [NeZero n]

theorem Drives.attached_ns (i : Fin n) :
    (attachedAs (σ.toEmbedding.trans ns) (size ∘ σ)).ns i = raid.ns (σ.trans τ.symm i) := by
  rw [h.ns_eq]
  exact congrArg ns (τ.apply_symm_apply (σ i)).symm

theorem Drives.attached_total :
    (attachedAs (σ.toEmbedding.trans ns) (size ∘ σ)).totalBlocks = raid.totalBlocks := by
  rw [h.total]
  exact attachedAs_totalBlocks σ

end attached

section main
variable {step : (o : Op) → World → Ans o → World → Prop} {σ : Equiv.Perm (Fin n)} {tool : Tool}
  {w w' : World}
  {map : Ptr} {rounds : ℕ} {r : Option (Report × NvmeRaid n)}
  (hstep : ∀ o w r w', step o w r w' → World.step flawless o w r w') (hq : qsort.Sorts)
include hstep hq

theorem format_main (hn : n ≤ maxDisks) (hidle : w.flights = 0)
    (hrun : Exec step (Tool.format.main qsort (attachedAs (σ.toEmbedding.trans ns) (size ∘ σ)) rounds map) w r
      w') :
    r = some (.nothing, formatted (attachedAs (σ.toEmbedding.trans ns) (size ∘ σ))) ∧ w'.flights = 0 ∧
      HeldBy ns size w'.disks Directory.empty (formatted (attachedAs (σ.toEmbedding.trans ns) (size ∘ σ))) σ := by
  obtain ⟨raid₁, w₁, hformat, hrun⟩ := exec_bind.mp hrun
  have hreturns := Exec.returns hformat
  obtain rfl := formatRaid_returns.mp hreturns
  obtain ⟨_, w₂, hupdate, hformat⟩ := exec_bind.mp hformat
  obtain ⟨_, rfl⟩ := exec_pure.mp hformat
  obtain ⟨hkeeps, hsynced, _⟩ := updateRaid_run ⟨id, id⟩ hidle (hupdate.mono hstep)
  have hmount := @mountable_formatted n _ (attachedAs (σ.toEmbedding.trans ns) (size ∘ σ)) hn rfl
  obtain ⟨r', w₃, hcreate, hrun⟩ := exec_bind.mp hrun
  have hidle₁ := hkeeps.idle hidle
  obtain ⟨rfl, hquiet⟩ := createRaid_run (σ := 1) hmount.headed hq (fun _ => rfl) rfl ⟨id, id⟩ hsynced hidle₁ rfl
    (hcreate.mono hstep)
  obtain ⟨rfl, rfl⟩ := exec_pure.mp hrun
  have hdead : ∀ s, ¬ (formatted (attachedAs (σ.toEmbedding.trans ns) (size ∘ σ))).Live s := by
    intro s
    simp [formatted, NvmeRaid.Live, NvmeRaid.file, initMeta]
  refine ⟨by rw [hmount.counted.mounted_eq], hquiet.idle hidle₁, ?_, fun _ => rfl, attachedAs_totalBlocks σ⟩
  rw [hquiet.disks hidle₁]
  refine ⟨⟨(tableInv_format _ rfl hreturns).sound, hmount.headed, hsynced, rfl, ?_, ?_⟩, hmount.counted⟩
  · exact fun s hs => absurd hs (hdead s)
  · exact fun key bytes hd => absurd hd (by simp [Directory.empty])

omit [NeZero n] hstep hq in
theorem Tool.appInit_eq {raid : NvmeRaid n} (hne : tool ≠ .format) : tool.appInit raid = pure raid := by
  cases tool with
  | format => exact absurd rfl hne
  | _ => rfl

theorem Drives.main {disks : Disks} {raid : NvmeRaid n} {τ : Equiv.Perm (Fin n)} (hd : Drives ns size raid τ)
    (hm : Headed raid) (hs : SyncedOn raid disks) (hne : tool ≠ .format) (hidle : w.flights = 0)
    (hdisks : w.disks = disks)
    (hrun : Exec step (tool.main qsort (attachedAs (σ.toEmbedding.trans ns) (size ∘ σ)) rounds map) w r w') :
    ∃ w₁, w.Quiet w₁ ∧ Exec step (tool.appRun raid.mounted rounds map) w₁ r w' := by
  unfold Tool.main at hrun
  rw [Tool.appInit_eq hne, pure_bind] at hrun
  obtain ⟨r', w₁, hcreate, hrun⟩ := exec_bind.mp hrun
  obtain ⟨rfl, hquiet⟩ := createRaid_run hm hq (hd.attached_ns σ) (hd.attached_total σ) ⟨id, id⟩ hs hidle hdisks
    (hcreate.mono hstep)
  exact ⟨w₁, hquiet, hrun⟩

end main

variable (hn : n ≤ maxDisks) (hz : Sized (attachedAs ns size)) (hq : qsort.Sorts)
include hn hz hq

omit hz in
theorem ToolRun.format {disks disks' : Disks} {call : Call} {answer : Answer}
    (h : ToolRun qsort ns size .format disks call answer disks') :
    call = .format ∧ answer = .nothing ∧ ∃ raid σ, HeldBy ns size disks' Directory.empty raid σ := by
  obtain @⟨σ, w, w', v, map, rounds, report, raid', behind, _, hw, _, hrun, hev, _⟩ := h
  obtain ⟨heq, hidle, hheld⟩ := format_main (fun _ _ _ _ => id) hq hn hw.idle hrun
  obtain ⟨rfl, rfl⟩ := Prod.mk.inj (Option.some.inj heq)
  have hsame : v.disks = w'.disks := by
    unfold World.disks
    rw [hev.of_idle hidle]
  exact ⟨rfl, rfl, _, σ, by rw [hsame]; exact hheld⟩

theorem ToolRun.step {tool : Tool} {disks disks' : Disks} {call : Call} {answer : Answer} {d : Directory}
    {raid : NvmeRaid n} {σ : Equiv.Perm (Fin n)} (hd : HeldBy ns size disks d raid σ) (hsmall : tool.Small)
    (h : ToolRun qsort ns size tool disks call answer disks') :
    ∃ d' raid' σ', d.Step call answer d' ∧ HeldBy ns size disks' d' raid' σ' := by
  by_cases hformat : tool = .format
  · subst hformat
    obtain ⟨rfl, rfl, raid', σ', hd'⟩ := h.format hn hq
    exact ⟨_, raid', σ', .format d, hd'⟩
  · obtain @⟨τ, w, w', v, map, rounds, report, raid', behind, _, hw, hdisks, hrun, hev, hidle⟩ := h
    obtain ⟨w₁, hquiet, happ⟩ := hd.drives.main (fun _ _ _ _ => id) hq hd.holds.headed hd.holds.synced hformat
      hw.idle hdisks hrun
    rw [hd.holds.counted.mounted_eq] at happ
    obtain ⟨d', hstep, hholds, hkin⟩ := hd.holds.appRun hn (hd.drives.sized hz) hformat hsmall
      (hw.keeps hquiet.toKeeps) ((hquiet.disks hw.idle).trans hdisks) happ hev hidle
    rw [tool.call_congr (hquiet.memory hw.idle map.buf hw.mapped)] at hstep
    exact ⟨d', raid', σ, hstep, hholds, hd.drives.kin hkin⟩

theorem Sessions.held {log : List (Call × Answer)} {disks : Disks} (h : Sessions qsort ns size log disks) :
    ∃ d, Directory.Run log d ∧ ∃ raid σ, HeldBy ns size disks d raid σ := by
  induction h with
  | format hrun =>
    obtain ⟨rfl, rfl, hheld⟩ := hrun.format hn hq
    exact ⟨_, .snoc .nil (.format _), hheld⟩
  | next _ tool hsmall hrun ih =>
    obtain ⟨d, hlog, raid, σ, hd⟩ := ih
    obtain ⟨d', raid', σ', hstep, hd'⟩ := hrun.step hn hz hq hd hsmall
    exact ⟨d', hlog.snoc hstep, raid', σ', hd'⟩

end processes

/-- Whatever tools are run after a format, in whatever order the drives are attached and the commands
complete, they answer as a directory of padded files would, and the disks hold that directory. -/
theorem sessions_refine_directory {qsort : Qsort n} {ns : Fin n ↪ ℕ} {size : Fin n → UInt64}
    {log : List (Call × Answer)} {disks : Disks} (hn : n ≤ maxDisks)
    (ht : n * superSectorNum ≤ (attachedAs ns size).totalBlocks.toNat)
    (h63 : (attachedAs ns size).totalBlocks.toNat ≤ 2 ^ 63) (hq : qsort.Sorts)
    (h : Sessions qsort ns size log disks) :
    ∃ d, Directory.Run log d ∧ ∃ raid : NvmeRaid n, Holds ⟨raid, disks⟩ d := by
  obtain ⟨d, hlog, raid, _, hheld⟩ := h.held hn ⟨ht, h63⟩ hq
  exact ⟨d, hlog, raid, hheld.holds⟩

end PcapReplay
