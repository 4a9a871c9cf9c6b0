import PcapReplay.Tools.Captures
import PcapReplay.Tools.Options

/-! Command lines that are run one after the other, between the files of the system and those of the raid. -/

namespace PcapReplay
open Interaction Dma Prog Log Spcap Getopt
variable {n : ℕ}

inductive Program where
  | format
  | ls
  | rm
  | cp

structure CommandLine where
  program : Program
  argv : List Word

inductive Config where
  | format
  | ls
  | rm (files : List Word)
  | cp (p : Cp.Params)

def CommandLine.appConfig (c : CommandLine) : Except ℤ Config :=
  match c.program with
  | .format => (noOptions formatOptions c.argv).map fun _ => .format
  | .ls => (noOptions rmOptions c.argv).map fun _ => .ls
  | .rm => (Rm.appConfig c.argv).map .rm
  | .cp => (Cp.appConfig c.argv).map .cp

abbrev Files := Word → Option (List UInt8)

/-- The bytes at a pointer to a word; what stands behind its NUL is not known. -/
def Points (w : Word) (name : Name) : Prop := ∃ behind, List.ofFn name = (w ++ 0 :: behind).take nameLength

/-- What the raid sees of a name. -/
def key (w : Word) : Key := (cString w).take nameLength

theorem cString_append_nul (w behind : List UInt8) : cString (w ++ 0 :: behind) = cString w := by
  unfold cString
  induction w with
  | nil => rfl
  | cons b w ih =>
    rw [List.cons_append, List.takeWhile_cons, List.takeWhile_cons, ih]

theorem Points.str {w : Word} {name : Name} (h : Points w name) : name.str = key w := by
  obtain ⟨behind, h⟩ := h
  rw [Name.str, h, key, ← cString_append_nul w behind, cString, cString, List.take_takeWhile]

theorem map_str_of_points {ws : List Word} {names : List Name} (h : List.Forall₂ Points ws names) :
    names.map Name.str = ws.map key := by
  induction h with
  | nil => rfl
  | cons hp _ ih => rw [List.map_cons, List.map_cons, hp.str, ih]

inductive Ending where
  | exited (code : ℤ)
  | ended (answer : Answer)
  | stopped

namespace Config

def call (files : Files) : Config → Option Call
  | format => some .format
  | ls => some .ls
  | rm fs => some (.rm (fs.map key))
  | cp p =>
    match p.fromSys, p.toRaid with
    | some f, some r => if p.pcap then none else (files f).map (.cpIn (key r))
    | _, _ => p.fromRaid.map fun r => .cpOut (key r)

def stored (answer : Answer) (files : Files) : Config → Files
  | cp p =>
    match p.toSys, answer with
    | some f, .copied (some bytes) => Function.update files f (some bytes)
    | _, _ => files
  | _ => files

/-- The files of the system after a stop: the one that was being written may have any bytes. -/
def Leaves (files files' : Files) : Config → Prop
  | cp p => files' = files ∨ ∃ f bytes, p.toSys = some f ∧ files' = Function.update files f (some bytes)
  | _ => files' = files

end Config

section acts
variable (pcapOf : List UInt8 → Option (List Packet)) (step : Directory → Event → Directory → Prop)

/-- What a process means for the raid, and the files of the system behind it. The capture in a file is what
libpcap finds there. -/
inductive Means (files : Files) : CommandLine × Ending → Option Event → Files → Prop
  | exited {c : CommandLine} {code : ℤ} (hc : c.appConfig = .error code) : Means files (c, .exited code) none files
  | ended {c : CommandLine} {req : Config} {call : Call} {answer : Answer} (hc : c.appConfig = .ok req)
      (hcall : req.call files = some call) :
      Means files (c, .ended answer) (some (.tool call (some answer))) (req.stored answer files)
  | stopped {c : CommandLine} {req : Config} {call : Call} {files' : Files} (hc : c.appConfig = .ok req)
      (hcall : req.call files = some call) (hfiles : req.Leaves files files') :
      Means files (c, .stopped) (some (.tool call none)) files'
  | missing {c : CommandLine} {p : Cp.Params} {f : Word} (hc : c.appConfig = .ok (.cp p)) (hf : p.fromSys = some f)
      (hnone : files f = none) : Means files (c, .ended .nothing) none files
  | unwritten {c : CommandLine} {p : Cp.Params} {f : Word} {files' : Files} (hc : c.appConfig = .ok (.cp p))
      (hf : p.toSys = some f) (hfiles : files' = files ∨ files' = Function.update files f (some [])) :
      Means files (c, .ended .nothing) none files'
  | capture {c : CommandLine} {p : Cp.Params} {f r : Word} {bytes : List UInt8} {pkts : List Packet}
      (hc : c.appConfig = .ok (.cp p)) (hf : p.fromSys = some f) (hr : p.toRaid = some r) (hpcap : p.pcap = true)
      (hbytes : files f = some bytes) (hpkts : pcapOf bytes = some pkts) :
      Means files (c, .ended .nothing) (some (.capture (key r) pkts)) files
  | halted {c : CommandLine} {p : Cp.Params} {f r : Word} {bytes : List UInt8}
      (hc : c.appConfig = .ok (.cp p)) (hf : p.fromSys = some f) (hr : p.toRaid = some r) (hpcap : p.pcap = true)
      (hbytes : files f = some bytes) :
      Means files (c, .stopped) (some (.halted (key r) bytes.length)) files

inductive Acts : Files × Directory → CommandLine × Ending → Files × Directory → Prop
  | silent {files files' : Files} {d : Directory} {e : CommandLine × Ending} (h : Means pcapOf files e none files') :
      Acts (files, d) e (files', d)
  | event {files files' : Files} {d d' : Directory} {e : CommandLine × Ending} {ev : Event}
      (h : Means pcapOf files e (some ev) files') (hstep : step d ev d') : Acts (files, d) e (files', d')

end acts

inductive Asks (files : Files) : Config → Tool → Call → Prop
  | format : Asks files .format .format .format
  | ls : Asks files .ls .ls .ls
  | rm {fs : List Word} {names : List Name} (h : List.Forall₂ Points fs names) :
      Asks files (.rm fs) (.rm names) (.rm (names.map Name.str))
  | cpIn {p : Cp.Params} {f r : Word} {bytes : List UInt8} {name : Name} {originSize : UInt64}
      (hf : p.fromSys = some f) (hr : p.toRaid = some r) (hpcap : p.pcap = false) (hbytes : files f = some bytes)
      (hsize : originSize.toNat = bytes.length) (hname : Points r name) :
      Asks files (.cp p) (.cpIn name originSize) (.cpIn name.str bytes)
  | cpOut {p : Cp.Params} {f r : Word} {name : Name} (hr : p.fromRaid = some r) (hf : p.toSys = some f)
      (hname : Points r name) : Asks files (.cp p) (.cpOut name) (.cpOut name.str)

variable [NeZero n]

section processes
variable (qsort : Qsort n) (ns : Fin n ↪ ℕ) (size : Fin n → UInt64)

inductive MountRun (disks : Disks) : NvmeRaid n → Disks → Prop
  | mk {σ : Equiv.Perm (Fin n)} {w w' : World} {raid : NvmeRaid n} (hidle : w.flights = 0)
      (hdisks : w.disks = disks)
      (hrun : Runs flawless (createRaid qsort (attachedAs (σ.toEmbedding.trans ns) (size ∘ σ))) w (some raid) w') :
      MountRun disks raid w'.disks

/-- A process, on the files of the system and the drives. None is given for a copy of 2^32 sectors or more,
and for the import of a capture with a new name that does not fit into the raid. -/
inductive ProcessStep (pcapOf : List UInt8 → Option (List Packet)) :
    Files × Disks → CommandLine × Ending → Files × Disks → Prop
  | exited {files : Files} {disks : Disks} {c : CommandLine} {code : ℤ} (hc : c.appConfig = .error code) :
      ProcessStep pcapOf (files, disks) (c, .exited code) (files, disks)
  | ended {files : Files} {disks disks' : Disks} {c : CommandLine} {req : Config} {tool : Tool} {call : Call}
      {answer : Answer} (hc : c.appConfig = .ok req) (hask : Asks files req tool call) (hsmall : tool.Small)
      (hrun : ToolRun qsort ns size tool disks call answer disks') :
      ProcessStep pcapOf (files, disks) (c, .ended answer) (req.stored answer files, disks')
  | stopped {files files' : Files} {disks disks' : Disks} {c : CommandLine} {req : Config} {tool : Tool} {call : Call}
      (hc : c.appConfig = .ok req) (hask : Asks files req tool call) (hne : tool ≠ .format) (hsmall : tool.Small)
      (hrun : StoppedRun qsort ns size tool disks call disks') (hfiles : req.Leaves files files') :
      ProcessStep pcapOf (files, disks) (c, .stopped) (files', disks')
  | missing {files : Files} {disks disks' : Disks} {c : CommandLine} {p : Cp.Params} {f : Word} {raid : NvmeRaid n}
      (hc : c.appConfig = .ok (.cp p)) (hf : p.fromSys = some f) (hnone : files f = none)
      (hrun : MountRun qsort ns size disks raid disks') :
      ProcessStep pcapOf (files, disks) (c, .ended .nothing) (files, disks')
  | unwritten {files files' : Files} {disks disks' : Disks} {c : CommandLine} {p : Cp.Params} {f r : Word} {name : Name}
      {raid : NvmeRaid n} (hc : c.appConfig = .ok (.cp p)) (hr : p.fromRaid = some r) (hf : p.toSys = some f)
      (hname : Points r name) (hrun : MountRun qsort ns size disks raid disks') (hfound : (findFile raid name).isSome)
      (hfiles : files' = files ∨ files' = Function.update files f (some [])) :
      ProcessStep pcapOf (files, disks) (c, .ended .nothing) (files', disks')
  | capture {files : Files} {disks disks' : Disks} {c : CommandLine} {p : Cp.Params} {f r : Word} {bytes : List UInt8}
      {pkts : List Packet} {name : Name} (hc : c.appConfig = .ok (.cp p)) (hf : p.fromSys = some f)
      (hr : p.toRaid = some r) (hpcap : p.pcap = true) (hbytes : files f = some bytes)
      (hpkts : pcapOf bytes = some pkts) (hname : Points r name)
      (hrun : ImportRun qsort ns size name pkts disks disks') :
      ProcessStep pcapOf (files, disks) (c, .ended .nothing) (files, disks')
  | halted {files : Files} {disks disks' : Disks} {c : CommandLine} {p : Cp.Params} {f r : Word} {bytes : List UInt8}
      {name : Name} {originSize : UInt64} (hc : c.appConfig = .ok (.cp p)) (hf : p.fromSys = some f)
      (hr : p.toRaid = some r) (hpcap : p.pcap = true) (hbytes : files f = some bytes)
      (hsize : originSize.toNat = bytes.length) (h32 : (originBlocks originSize).toNat < 2 ^ 32)
      (hname : Points r name) (hrun : HaltedRun qsort ns size name originSize disks disks') :
      ProcessStep pcapOf (files, disks) (c, .stopped) (files, disks')

end processes

theorem CommandLine.imports_or_exports {c : CommandLine} {p : Cp.Params} (hc : c.appConfig = .ok (.cp p)) :
    p.Imports ∨ p.Exports := by
  obtain ⟨program, argv⟩ := c
  unfold appConfig at hc
  cases program with
  | format => cases hargs : noOptions formatOptions argv <;> simp [hargs, Except.map] at hc
  | ls => cases hargs : noOptions rmOptions argv <;> simp [hargs, Except.map] at hc
  | rm => cases hargs : Rm.appConfig argv <;> simp [hargs, Except.map] at hc
  | cp =>
    cases hargs : Cp.appConfig argv with
    | error code => simp [hargs, Except.map] at hc
    | ok q =>
      simp only [hargs, Except.map] at hc
      obtain rfl := Config.cp.inj (Except.ok.inj hc)
      exact ((Cp.appConfig_iff argv q).mp hargs).2.2

theorem CommandLine.imports {c : CommandLine} {p : Cp.Params} {f : Word} (hc : c.appConfig = .ok (.cp p))
    (hf : p.fromSys = some f) : p.Imports := by
  rcases imports_or_exports hc with himports | hexports
  · exact himports
  · exact absurd hf (by rw [hexports.2.2.1]; simp)

theorem CommandLine.exports {c : CommandLine} {p : Cp.Params} {r : Word} (hc : c.appConfig = .ok (.cp p))
    (hr : p.fromRaid = some r) : p.Exports := by
  rcases imports_or_exports hc with himports | hexports
  · exact absurd hr (by rw [himports.2.2.1]; simp)
  · exact hexports

theorem Config.call_cpIn {files : Files} {p : Cp.Params} {f r : Word} {bytes : List UInt8} (hf : p.fromSys = some f)
    (hr : p.toRaid = some r) (hpcap : p.pcap = false) (hbytes : files f = some bytes) :
    (Config.cp p).call files = some (.cpIn (key r) bytes) := by
  simp [Config.call, hf, hr, hpcap, hbytes]

theorem Config.call_cpOut {p : Cp.Params} {r : Word} (h : p.Exports) (hr : p.fromRaid = some r) (files : Files) :
    (Config.cp p).call files = some (.cpOut (key r)) := by
  simp [Config.call, h.2.2.1, hr]

theorem Asks.call {files : Files} {c : CommandLine} {req : Config} {tool : Tool} {call : Call}
    (hc : c.appConfig = .ok req) (h : Asks files req tool call) : req.call files = some call := by
  cases h with
  | format => rfl
  | ls => rfl
  | rm h => rw [Config.call, map_str_of_points h]
  | cpIn hf hr hpcap hbytes _ hname =>
    rw [hname.str]
    exact Config.call_cpIn hf hr hpcap hbytes
  | cpOut hr _ hname =>
    rw [hname.str]
    exact Config.call_cpOut (CommandLine.exports hc hr) hr files

section step
variable {qsort : Qsort n} {ns : Fin n ↪ ℕ} {size : Fin n → UInt64}
  {pcapOf : List UInt8 → Option (List Packet)} {files files' : Files} {disks disks' : Disks}
  {e : CommandLine × Ending}

theorem ProcessStep.cases (h : ProcessStep qsort ns size pcapOf (files, disks) e (files', disks')) :
    (∃ ev, Means pcapOf files e (some ev) files' ∧ DriveStep qsort ns size disks ev disks' ∧
      (e.2 ≠ .stopped → ev.Ended)) ∨
    Means pcapOf files e none files' ∧ (disks' = disks ∨ ∃ raid, MountRun qsort ns size disks raid disks') := by
  cases h with
  | exited hc => exact Or.inr ⟨.exited hc, Or.inl rfl⟩
  | ended hc hask hsmall hrun =>
    exact Or.inl ⟨_, .ended hc (hask.call hc), .answered hsmall hrun, fun _ => rfl⟩
  | stopped hc hask hne hsmall hrun hfiles =>
    exact Or.inl ⟨_, .stopped hc (hask.call hc) hfiles, .stopped hne hsmall hrun, fun h => absurd rfl h⟩
  | missing hc hf hnone hrun => exact Or.inr ⟨.missing hc hf hnone, Or.inr ⟨_, hrun⟩⟩
  | unwritten hc hr hf hname hrun hfound hfiles => exact Or.inr ⟨.unwritten hc hf hfiles, Or.inr ⟨_, hrun⟩⟩
  | capture hc hf hr hpcap hbytes hpkts hname hrun =>
    refine Or.inl ⟨_, .capture hc hf hr hpcap hbytes hpkts, ?_, fun _ => trivial⟩
    rw [← hname.str]
    exact .capture hrun
  | halted hc hf hr hpcap hbytes hsize h32 hname hrun =>
    refine Or.inl ⟨_, .halted hc hf hr hpcap hbytes, ?_, fun h => absurd rfl h⟩
    rw [← hname.str, ← hsize]
    exact .halted h32 hrun

variable {raid : NvmeRaid n} {τ : Equiv.Perm (Fin n)} {d : Directory}

theorem MountRun.disks_eq {mounted : NvmeRaid n} (hq : qsort.Sorts) (hd : Drives ns size raid τ)
    (hs : Carries ⟨raid, disks⟩ d) (h : MountRun qsort ns size disks mounted disks') : disks' = disks := by
  obtain ⟨hidle, hdisks, hrun⟩ := h
  exact (hd.remounts hq hs hidle hdisks hrun).2

variable (hn : n ≤ maxDisks) (hz : Sized (attachedAs ns size)) (hq : qsort.Sorts)
include hn hz hq

theorem ProcessStep.held (h : ProcessStep qsort ns size pcapOf (files, disks) e (files', disks'))
    (hended : e.2 ≠ .stopped) (hd : HeldBy ns size disks d raid τ) :
    ∃ d', Acts pcapOf (Directory.Answers n) (files, d) e (files', d') ∧
      ∃ raid' τ', HeldBy ns size disks' d' raid' τ' := by
  rcases h.cases with ⟨ev, hmeans, hstep, hev⟩ | ⟨hmeans, hmount⟩
  · obtain ⟨d', hanswers, hd'⟩ := hstep.held hn hz hq (hev hended) hd
    exact ⟨d', .event hmeans hanswers, hd'⟩
  · have hsame : disks' = disks := by
      rcases hmount with hsame | ⟨_, hmount⟩
      · exact hsame
      · exact hmount.disks_eq hq hd.drives hd.holds.toCarries
    exact ⟨d, .silent hmeans, raid, τ, by rw [hsame]; exact hd⟩

theorem ProcessStep.stored (h : ProcessStep qsort ns size pcapOf (files, disks) e (files', disks'))
    (hd : Drives ns size raid τ) (hs : Carries ⟨raid, disks⟩ d) :
    ∃ d', Acts pcapOf (Directory.Survives n) (files, d) e (files', d') ∧
      ∃ raid' τ', Carries ⟨raid', disks'⟩ d' ∧ Drives ns size raid' τ' := by
  rcases h.cases with ⟨ev, hmeans, hstep, _⟩ | ⟨hmeans, hmount⟩
  · obtain ⟨d', hsurvives, hd'⟩ := hstep.stored hn hz hq hd hs
    exact ⟨d', .event hmeans hsurvives, hd'⟩
  · have hsame : disks' = disks := by
      rcases hmount with hsame | ⟨_, hmount⟩
      · exact hsame
      · exact hmount.disks_eq hq hd hs
    exact ⟨d, .silent hmeans, raid, τ, by rw [hsame]; exact hs, hd⟩

end step

section runs
variable {qsort : Qsort n} {ns : Fin n ↪ ℕ} {size : Fin n → UInt64}
  {pcapOf : List UInt8 → Option (List Packet)} {files₀ files : Files} {disks₀ disks : Disks}
  {c : CommandLine} {answer : Answer} {log : List (CommandLine × Ending)}
  (hn : n ≤ maxDisks) (hz : Sized (attachedAs ns size)) (hq : qsort.Sorts) (hc : c.appConfig = .ok .format)
include hn hz hq hc

omit hz in
theorem ProcessStep.format {files' : Files} {disks' : Disks}
    (h : ProcessStep qsort ns size pcapOf (files₀, disks₀) (c, .ended answer) (files', disks')) (d : Directory) :
    (∀ step : Directory → Event → Directory → Prop,
      step d (.tool .format (some .nothing)) Directory.empty →
        Acts pcapOf step (files₀, d) (c, .ended answer) (files', Directory.empty)) ∧
    ∃ raid τ, HeldBy ns size disks' Directory.empty raid τ := by
  cases h with
  | ended hc' hask hsmall hrun =>
    obtain rfl := Except.ok.inj (hc.symm.trans hc')
    cases hask with
    | format =>
      obtain ⟨_, rfl, hheld⟩ := hrun.format hn hq
      exact ⟨fun step hstep => .event (.ended hc rfl) hstep, hheld⟩
  | missing hc' => exact absurd (Except.ok.inj (hc.symm.trans hc')) nofun
  | unwritten hc' => exact absurd (Except.ok.inj (hc.symm.trans hc')) nofun
  | capture hc' => exact absurd (Except.ok.inj (hc.symm.trans hc')) nofun

end runs

namespace Config

def Spares (name : Key) : Config → Prop
  | format => False
  | ls => True
  | rm fs => name ∉ fs.map key
  | cp p => ∀ r, p.toRaid = some r → p.pcap = false → name ≠ key r

theorem Spares.event {name : Key} {req : Config} {files : Files} {call : Call} (h : req.Spares name)
    (hcall : req.call files = some call) (answer : Option Answer) : (Event.tool call answer).Spares name := by
  cases req with
  | format => exact h.elim
  | ls =>
    obtain rfl := Option.some.inj hcall
    trivial
  | rm fs =>
    obtain rfl := Option.some.inj hcall
    exact h
  | cp p =>
    dsimp only [Config.call] at hcall
    split at hcall
    · rename_i f r hf hr
      split_ifs at hcall with hpcap
      obtain ⟨bytes, _, rfl⟩ := Option.map_eq_some_iff.mp hcall
      exact h r hr ((Bool.not_eq_true _).mp hpcap)
    · obtain ⟨r, _, rfl⟩ := Option.map_eq_some_iff.mp hcall
      trivial

end Config

section served
variable {pcapOf : List UInt8 → Option (List Packet)} {step : Directory → Event → Directory → Prop}
  {files files' : Files} {d d' : Directory} {name : Key} {c : CommandLine} {p : Cp.Params} {f r : Word}

theorem Acts.cpIn {bytes : List UInt8} (hc : c.appConfig = .ok (.cp p)) (hf : p.fromSys = some f)
    (hr : p.toRaid = some r) (hpcap : p.pcap = false) (hbytes : files f = some bytes)
    (h : Acts pcapOf step (files, d) (c, .ended .nothing) (files', d')) :
    step d (.tool (.cpIn (key r) bytes) (some .nothing)) d' := by
  cases h with
  | silent h =>
    cases h with
    | missing hc' hf' hnone =>
      obtain rfl := Config.cp.inj (Except.ok.inj (hc.symm.trans hc'))
      obtain rfl := Option.some.inj (hf.symm.trans hf')
      exact absurd hbytes (by rw [hnone]; simp)
    | unwritten hc' hf' =>
      obtain rfl := Config.cp.inj (Except.ok.inj (hc.symm.trans hc'))
      exact absurd hf' (by rw [(CommandLine.imports hc hf).2.2.2]; simp)
  | event h hstep =>
    cases h with
    | ended hc' hcall =>
      obtain rfl := Except.ok.inj (hc.symm.trans hc')
      rw [Config.call_cpIn hf hr hpcap hbytes] at hcall
      obtain rfl := Option.some.inj hcall
      exact hstep
    | capture hc' _ _ hpcap' =>
      obtain rfl := Config.cp.inj (Except.ok.inj (hc.symm.trans hc'))
      exact absurd hpcap' (by rw [hpcap]; decide)

theorem Acts.cpOut {bytes : Option (List UInt8)} (hc : c.appConfig = .ok (.cp p)) (hr : p.fromRaid = some r)
    (h : Acts pcapOf step (files, d) (c, .ended (.copied bytes)) (files', d')) :
    step d (.tool (.cpOut (key r)) (some (.copied bytes))) d' ∧
      files' = (Config.cp p).stored (.copied bytes) files := by
  cases h with
  | silent h => cases h
  | event h hstep =>
    cases h with
    | ended hc' hcall =>
      obtain rfl := Except.ok.inj (hc.symm.trans hc')
      rw [Config.call_cpOut (CommandLine.exports hc hr) hr] at hcall
      obtain rfl := Option.some.inj hcall
      exact ⟨hstep, rfl⟩

omit [NeZero n] in
theorem Acts.same {ending : Ending} (hspares : ∀ req, c.appConfig = .ok req → req.Spares name) (hd : d name ≠ none)
    (h : Acts pcapOf (Directory.Survives n) (files, d) (c, ending) (files', d')) : d' name = d name := by
  cases h with
  | silent => rfl
  | event h hstep =>
    cases h with
    | ended hc hcall => exact hstep.same ((hspares _ hc).event hcall _) hd
    | stopped hc hcall => exact hstep.same ((hspares _ hc).event hcall _) hd
    | capture => exact hstep.same trivial hd
    | halted => exact hstep.same trivial hd

end served

end PcapReplay
