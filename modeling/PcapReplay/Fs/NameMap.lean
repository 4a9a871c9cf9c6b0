import PcapReplay.Fs.Admission
import PcapReplay.Lib.MapLog

/-! The slot table as a finite map from names to extents. -/

namespace PcapReplay
open Interaction MapLog
variable {n : ℕ} [NeZero n]

structure Entry (n : ℕ) where
  slot : Slot n
  startBlock : UInt64
  endBlock : UInt64

def entry (raid : NvmeRaid n) (s : Slot n) : Entry n :=
  ⟨s, (raid.file s).startBlock, (raid.file s).endBlock⟩

def lookup (raid : NvmeRaid n) (name : Name) : Option (Entry n) := (findFile raid name).map (entry raid)

section lookup
variable {raid raid' : NvmeRaid n} {name other : Name} {blsize : UInt64} {s : Slot n}

theorem findFile_eq_some_iff (hi : TableInv raid) (hname : name 0 ≠ 0) :
    findFile raid name = some s ↔ raid.Live s ∧ name.str = (raid.file s).name.str := by
  constructor
  · intro h
    refine ⟨findFile_live hname h, ?_⟩
    rw [← cmpFile_eq_zero]
    simpa using List.find?_some h
  · rintro ⟨hlive, hstr⟩
    apply findFile_eq_some
    · rwa [cmpFile_eq_zero]
    · intro t hts hcmp
      rw [cmpFile_eq_zero] at hcmp
      have hlive' : raid.Live t := fun h0 => hname ((Name.head_eq_zero hcmp).mpr h0)
      -- two live slots of one name
      refine hts (hi.unique t s hlive' hlive ?_)
      rw [cmpFile_eq_zero, ← hcmp, hstr]

theorem lookup_eq_some_iff (hi : TableInv raid) (hname : name 0 ≠ 0) {v : Entry n} :
    lookup raid name = some v ↔
      raid.Live v.slot ∧ name.str = (raid.file v.slot).name.str ∧ entry raid v.slot = v := by
  rw [lookup, Option.map_eq_some_iff]
  constructor
  · rintro ⟨s, hs, rfl⟩
    obtain ⟨hlive, hstr⟩ := (findFile_eq_some_iff hi hname).mp hs
    exact ⟨hlive, hstr, rfl⟩
  · rintro ⟨hlive, hstr, hv⟩
    exact ⟨v.slot, (findFile_eq_some_iff hi hname).mpr ⟨hlive, hstr⟩, hv⟩

theorem lookup_of_ne (hi : TableInv raid) (hi' : TableInv raid')
    (hfile : ∀ t, t ≠ s → raid'.file t = raid.file t) (hother : other 0 ≠ 0)
    (hs : raid.Live s → other.str ≠ (raid.file s).name.str)
    (hs' : raid'.Live s → other.str ≠ (raid'.file s).name.str) :
    lookup raid' other = lookup raid other := by
  ext v
  rw [lookup_eq_some_iff hi' hother, lookup_eq_some_iff hi hother]
  by_cases hvs : v.slot = s
  · rw [hvs]
    exact iff_of_false (fun h => hs' h.1 h.2.1) fun h => hs h.1 h.2.1
  · rw [NvmeRaid.Live, entry, entry, hfile _ hvs]
    rfl

theorem lookup_tableAdd (hi : TableInv raid) (hi' : TableInv (tableAdd raid s name blsize))
    (hname : name 0 ≠ 0) (hs : freeSlot raid = some s) (hother : other 0 ≠ 0) :
    lookup (tableAdd raid s name blsize) other =
      if other.str = name.str then some (entry (tableAdd raid s name blsize) s) else lookup raid other := by
  have hself := file_tableAdd_self raid s name blsize
  split_ifs with heq
  · rw [lookup_eq_some_iff hi' hother]
    refine ⟨?_, ?_, rfl⟩
    · rw [entry, NvmeRaid.Live, hself]
      exact hname
    · rw [entry, hself, heq]
  · refine lookup_of_ne hi hi' (fun t hts => ?_) hother (fun hlive => absurd hlive (freeSlot_dead hs)) ?_
    · rw [file_tableAdd, if_neg hts]
    · rw [hself]
      exact fun _ => heq

theorem lookup_tableDel (hi : TableInv raid) (hname : name 0 ≠ 0) (hs : findFile raid name = some s)
    (hother : other 0 ≠ 0) :
    lookup (tableDel raid s) other = if other.str = name.str then none else lookup raid other := by
  have hi' := hi.del hname hs
  obtain ⟨hlive, hstr⟩ := (findFile_eq_some_iff hi hname).mp hs
  have hdead : ¬ (tableDel raid s).Live s := by
    simp [tableDel, NvmeRaid.Live]
  have hfile : ∀ t, t ≠ s → (tableDel raid s).file t = raid.file t := by
    intro t hts
    rw [file_tableDel, if_neg hts]
  split_ifs with heq
  · rw [Option.eq_none_iff_forall_ne_some]
    intro v hv
    obtain ⟨hlive', hstr', _⟩ := (lookup_eq_some_iff hi' hother).mp hv
    have hvs : v.slot ≠ s := fun hvs => hdead (hvs ▸ hlive')
    rw [NvmeRaid.Live, hfile _ hvs] at hlive'
    rw [hfile _ hvs] at hstr'
    refine hvs (hi.unique v.slot s hlive' hlive ?_)
    rw [cmpFile_eq_zero, ← hstr', heq, hstr]
  · refine lookup_of_ne hi hi' hfile hother (fun _ => ?_) fun hlive' => absurd hlive' hdead
    rwa [← hstr]

end lookup

def Refines (raid : NvmeRaid n) (m : List UInt8 → Option (Entry n)) : Prop :=
  ∀ name, name 0 ≠ 0 → lookup raid name = m name.str

inductive Calls (raid₁ : NvmeRaid n) : List (Event (List UInt8) (Entry n)) → NvmeRaid n → Prop
  | nil : Calls raid₁ [] raid₁
  | add {log} {raid raid' : NvmeRaid n} {name : Name} {blsize : UInt64} {s : Slot n}
      (h : Calls raid₁ log raid) (hadd : (addFile raid name blsize).Returns (some s, raid')) :
      Calls raid₁ (log ++ [.put name.str (entry raid' s)]) raid'
  | addRefused {log} {raid raid' : NvmeRaid n} {name : Name} {blsize : UInt64}
      (h : Calls raid₁ log raid) (hadd : (addFile raid name blsize).Returns (none, raid')) :
      Calls raid₁ log raid'
  | del {log} {raid raid' : NvmeRaid n} {name : Name} (h : Calls raid₁ log raid)
      (hdel : (delFile raid name).Returns (1, raid')) : Calls raid₁ (log ++ [.drop name.str]) raid'
  | delRefused {log} {raid raid' : NvmeRaid n} {name : Name} {ret : UInt8} (h : Calls raid₁ log raid)
      (hdel : (delFile raid name).Returns (ret, raid')) (hret : ret ≠ 1) : Calls raid₁ log raid'

section refines
variable {raid raid' : NvmeRaid n} {name : Name} {blsize : UInt64} {s : Slot n}
  {m : List UInt8 → Option (Entry n)}

theorem Refines.add (h : Refines raid m) (hi : TableInv raid)
    (hi' : TableInv (tableAdd raid s name blsize)) (hname : name 0 ≠ 0) (hs : freeSlot raid = some s) :
    Refines (tableAdd raid s name blsize)
      (MapLog.apply m (.put name.str (entry (tableAdd raid s name blsize) s))) := by
  intro other hother
  rw [lookup_tableAdd hi hi' hname hs hother, MapLog.apply, Function.update_apply, h other hother]
  rfl

theorem Refines.del (h : Refines raid m) (hi : TableInv raid) (hname : name 0 ≠ 0)
    (hs : findFile raid name = some s) :
    Refines (tableDel raid s) (MapLog.apply m (.drop name.str)) := by
  intro other hother
  rw [lookup_tableDel hi hname hs hother, MapLog.apply, Function.update_apply, h other hother]
  rfl

theorem Calls.reachable {raid₀ raid₁ : NvmeRaid n} {log} (hformat : (formatRaid raid₀).Returns raid₁)
    (h : Calls raid₁ log raid) : Reachable raid₀ raid := by
  refine ⟨raid₁, hformat, ?_⟩
  induction h with
  | nil => exact .refl
  | add _ hadd ih => exact ih.tail (.add hadd)
  | addRefused _ hadd ih => exact ih.tail (.add hadd)
  | del _ hdel ih => exact ih.tail (.del hdel)
  | delRefused _ hdel _ ih => exact ih.tail (.del hdel)

theorem Calls.refines {raid₀ raid₁ : NvmeRaid n} {log} (hn : n ≤ maxDisks)
    (ht : n * 256 ≤ raid₀.totalBlocks.toNat) (h0 : raid₀.numFiles = 0)
    (hformat : (formatRaid raid₀).Returns raid₁) (h : Calls raid₁ log raid) :
    Refines raid (replay log) := by
  induction h with
  | nil =>
    intro name hname
    have hi := tableInv_format raid₀ h0 hformat
    rw [formatRaid_returns] at hformat
    rw [replay, List.foldl_nil, Option.eq_none_iff_forall_ne_some]
    intro v hv
    refine ((lookup_eq_some_iff hi hname).mp hv).1 ?_
    simp [hformat, formatted, NvmeRaid.file, initMeta]
  | add h hadd ih =>
    have hi := (h.reachable hformat).inv hn ht h0
    have hi' := ((h.add hadd).reachable hformat).inv hn ht h0
    obtain ⟨rfl, ha, hs⟩ := addFile_some hadd
    rw [replay_append]
    exact ih.add hi hi' ha.named hs
  | addRefused h hadd ih =>
    rcases addFile_cases hadd with ⟨_, rfl, _⟩ | ⟨t, hst, _⟩
    · exact ih
    · exact absurd hst (by simp)
  | del h hdel ih =>
    have hi := (h.reachable hformat).inv hn ht h0
    rcases delFile_cases hdel with ⟨hzero, _⟩ | ⟨s, _, rfl, hname, hs⟩
    · exact absurd hzero (by decide)
    · rw [replay_append]
      exact ih.del hi hname hs
  | delRefused h hdel hret ih =>
    rcases delFile_cases hdel with ⟨_, rfl, _⟩ | ⟨s, hone, _⟩
    · exact ih
    · exact absurd hone hret

end refines

/-- What `findFile` finds is what the last successful call for that name has left, and a call does
not change what it finds for other names. -/
theorem findFile_refines {raid₀ raid₁ raid : NvmeRaid n} {log} (hn : n ≤ maxDisks)
    (ht : n * superSectorNum ≤ raid₀.totalBlocks.toNat) (h0 : raid₀.numFiles = 0)
    (hformat : (formatRaid raid₀).Returns raid₁) (h : Calls raid₁ log raid) (name : Name)
    (hname : name 0 ≠ 0) :
    (∀ v, lookup raid name = some v ↔
      ∃ l₁ l₂, log = l₁ ++ .put name.str v :: l₂ ∧ ∀ e ∈ l₂, e.key ≠ name.str) ∧
    (∀ ret raid', (delFile raid name).Returns (ret, raid') → (ret = 1 ↔ findFile raid name ≠ none)) ∧
    ∀ other, other.str ≠ name.str →
      (∀ blsize ret raid', (addFile raid other blsize).Returns (ret, raid') →
        lookup raid' name = lookup raid name) ∧
      ∀ ret raid', (delFile raid other).Returns (ret, raid') → lookup raid' name = lookup raid name := by
  have hreach := h.reachable hformat
  have hi := hreach.inv hn ht h0
  rw [← hreach.totalBlocks] at ht
  refine ⟨fun v => ?_, fun ret raid' hdel => ?_, fun other hother => ⟨fun blsize ret raid' hadd => ?_,
    fun ret raid' hdel => ?_⟩⟩
  · rw [h.refines hn (by rwa [← hreach.totalBlocks]) h0 hformat name hname]
    exact replay_eq_some_iff
  · rcases delFile_cases hdel with ⟨rfl, _, hno⟩ | ⟨s, rfl, _, _, hs⟩
    · exact iff_of_false (by decide) fun hne => hne (hno hname)
    · exact iff_of_true rfl (by rw [hs]; simp)
  · rcases addFile_cases hadd with ⟨_, rfl, _⟩ | ⟨s, _, rfl, ha, hs⟩
    · rfl
    · rw [lookup_tableAdd hi (hi.add hn ht ha hs) ha.named hs hname, if_neg (Ne.symm hother)]
  · rcases delFile_cases hdel with ⟨_, rfl, _⟩ | ⟨s, _, rfl, hother0, hs⟩
    · rfl
    · rw [lookup_tableDel hi hother0 hs hname, if_neg (Ne.symm hother)]

theorem findFile_refines_one_file :
    lookup (oneFileRaid 1 3) (fun _ => 65) = some ⟨(0, 0), 256, 259⟩ := by
  have hadd : (addFile (formatted (attached fun _ : Fin 1 => 1024)) (fun _ => 65) 3).Returns
      (some (0, 0), oneFileRaid 1 3) := by
    obtain ⟨ret, h⟩ := oneFileRaid_added 1 3
    rcases addFile_cases h with ⟨_, hsame, _⟩ | ⟨s, rfl, _, _, hs⟩
    · exact absurd (congrArg NvmeRaid.numFiles hsame) (by decide +kernel)
    · have hzero : freeSlot (formatted (attached fun _ : Fin 1 => 1024)) = some (0, 0) := by decide +kernel
      rwa [← hs, hzero] at h
  have h := (findFile_refines (by decide) (by decide +kernel) rfl (formatRaid_returns.mpr rfl)
    (Calls.nil.add hadd) (fun _ => 65) (by decide)).1 ⟨(0, 0), 256, 259⟩
  exact h.mpr ⟨[], [], by rfl, by simp⟩

end PcapReplay
