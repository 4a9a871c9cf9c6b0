import PcapReplay.Lib.Log
import PcapReplay.Tools.Halted

/-! Captures among the other files, over any sequence of tools. -/

namespace PcapReplay
open Interaction Dma Prog Log Spcap
variable {n : ℕ}

/-- What is done to the drives: a tool, with its answer unless it is stopped, the import of a capture, or one
that does not come to its end, from a file of so many bytes. -/
inductive Event where
  | tool (call : Call) (answer : Option Answer)
  | capture (name : Key) (pkts : List Packet)
  | halted (name : Key) (size : ℕ)

namespace Event

def Ended : Event → Prop
  | tool _ answer => answer.isSome
  | capture _ _ => True
  | halted _ _ => False

def Spares (name : Key) : Event → Prop
  | tool .format _ => False
  | tool (.rm names) _ => name ∉ names
  | tool (.cpIn other _) _ => name ≠ other
  | _ => True

end Event

namespace Directory

inductive Answers (n : ℕ) : Directory → Event → Directory → Prop
  | tool {d d' : Directory} {call : Call} {answer : Answer} (h : d.Step call answer d') :
      Answers n d (.tool call (some answer)) d'
  | capture {d d' : Directory} {name : Key} {pkts : List Packet} (h : d.Captures n name pkts d') :
      Answers n d (.capture name pkts) d'

inductive Survives (n : ℕ) : Directory → Event → Directory → Prop
  | tool {d d' : Directory} {call : Call} {answer : Option Answer} (h : d.Kept (call, answer) d') :
      Survives n d (.tool call answer) d'
  | capture {d d' : Directory} {name : Key} {pkts : List Packet} (h : d.Captures n name pkts d') :
      Survives n d (.capture name pkts) d'
  | halted {d d' : Directory} {name : Key} {size : ℕ} (h : d.Unfinished n name size d') :
      Survives n d (.halted name size) d'

variable {d d' : Directory} {name : Key}

theorem remove_same {names : List Key} (h : name ∉ names) : (d.remove names).2 name = d name := by
  induction names generalizing d with
  | nil => rfl
  | cons other names ih =>
    rw [List.mem_cons, not_or] at h
    exact (ih h.2).trans (Function.update_of_ne h.1 _ _)

theorem Step.same {call : Call} {answer : Answer} (h : d.Step call answer d')
    (hs : (Event.tool call (some answer)).Spares name) : d' name = d name := by
  cases h with
  | format => exact hs.elim
  | rm names => exact remove_same hs
  | store => exact Function.update_of_ne hs _ _
  | _ => rfl

theorem Interrupted.same {call : Call} (h : d.Interrupted call d') (hs : (Event.tool call none).Spares name) :
    d' name = d name := by
  cases h with
  | untouched => rfl
  | rm names k => exact remove_same fun hmem => hs (List.mem_of_mem_take hmem)
  | store => exact Function.update_of_ne hs _ _

theorem Captures.same {other : Key} {pkts : List Packet} (h : d.Captures n other pkts d')
    (hd : d name ≠ none) :
    d' name = d name := by
  cases h with
  | store _ hnew _ =>
    have hne : name ≠ other := by
      rintro rfl
      exact hd hnew
    exact Function.update_of_ne hne _ _
  | present _ => rfl

theorem Unfinished.same {other : Key} {size : ℕ} (h : d.Unfinished n other size d') (hd : d name ≠ none) :
    d' name = d name := by
  cases h with
  | untouched => rfl
  | begun _ hnew _ =>
    have hne : name ≠ other := by
      rintro rfl
      exact hd hnew
    exact Function.update_of_ne hne _ _

theorem Survives.same {e : Event} (h : Survives n d e d') (hs : e.Spares name) (hd : d name ≠ none) :
    d' name = d name := by
  cases h with
  | tool h =>
    cases h with
    | answered h => exact h.same hs
    | stopped h => exact h.same hs
    | _ => rfl
  | capture h => exact h.same hd
  | halted h => exact h.same hd

theorem Step.copied {answer : Answer} (hname : name ≠ []) (h : d.Step (.cpOut name) answer d') :
    answer = .copied (d name) ∧ d' = d := by
  cases h with
  | load => exact ⟨rfl, rfl⟩
  | loadUnnamed => exact absurd rfl hname

theorem Survives.copied {bytes : Option (List UInt8)} (hname : name ≠ [])
    (h : Survives n d (.tool (.cpOut name) (some (.copied bytes))) d') : bytes = d name ∧ d' = d := by
  cases h with
  | tool h =>
    cases h with
    | answered h =>
      obtain ⟨hcopied, hsame⟩ := h.copied hname
      exact ⟨Answer.copied.inj hcopied, hsame⟩

end Directory

variable [NeZero n]

/-- A process attaches the drives in some order and imports a capture, which fits into the raid it mounts if
its name is new. None of its commands fails or reaches past the end of a drive. -/
inductive ImportRun (qsort : Qsort n) (ns : Fin n ↪ ℕ) (size : Fin n → UInt64) (name : Name)
    (pkts : List Packet)
    (disks : Disks) : Disks → Prop
  | mk {σ : Equiv.Perm (Fin n)} {w w' : World} {zmalloc : ℕ → Bool} {originSize : UInt64} {raid' : NvmeRaid n}
      (hidle : w.flights = 0) (hdisks : w.disks = disks)
      (hfits : ∀ raid w₁, Runs flawless (createRaid qsort (attachedAs (σ.toEmbedding.trans ns) (size ∘ σ))) w
        (some raid) w₁ → findFile raid name = none → CaptureFits raid pkts)
      (hrun : Exec (World.superStep flawless)
        (captureMain qsort (attachedAs (σ.toEmbedding.trans ns) (size ∘ σ)) zmalloc name originSize (some pkts)) w
        (.ok raid') w') :
      ImportRun qsort ns size name pkts disks w'.disks

/-- A process that imports a capture is stopped somewhere, or breaks off; its supersectors may have been
written in part, and the file in the system need not be a capture. One that is fits into the raid if its name
is new. No command on sector 0 has been refused, and no buffer for one. -/
inductive HaltedRun (qsort : Qsort n) (ns : Fin n ↪ ℕ) (size : Fin n → UInt64) (name : Name)
    (originSize : UInt64)
    (disks : Disks) : Disks → Prop
  | mk {π : Policy} (hπ : π.Smooth) {σ : Equiv.Perm (Fin n)} {w w' : World} {zmalloc : ℕ → Bool}
      {capture : Option (List Packet)} {disks' : Disks} (hidle : w.flights = 0) (hdisks : w.disks = disks)
      (hfits : ∀ pkts raid w₁, capture = some pkts →
        Runs π (createRaid qsort (attachedAs (σ.toEmbedding.trans ns) (size ∘ σ))) w (some raid) w₁ →
        findFile raid name = none → CaptureFits raid pkts)
      (hcut : Cut (World.tornStep π)
        (captureMain qsort (attachedAs (σ.toEmbedding.trans ns) (size ∘ σ)) zmalloc name originSize capture) w w')
      (hleft : w'.Leaves disks') : HaltedRun qsort ns size name originSize disks disks'

inductive CaptureHistories (qsort : Qsort n) (ns : Fin n ↪ ℕ) (size : Fin n → UInt64)
    : List Event → Disks → Prop
  | format {disks disks' : Disks} {call : Call} {answer : Answer}
      (h : ToolRun qsort ns size .format disks call answer disks') :
      CaptureHistories qsort ns size [.tool call (some answer)] disks'
  | next {log : List Event} {disks disks' : Disks} {call : Call} {answer : Answer}
      (h : CaptureHistories qsort ns size log disks) (tool : Tool) (hsmall : tool.Small)
      (hrun : ToolRun qsort ns size tool disks call answer disks') :
      CaptureHistories qsort ns size (log ++ [.tool call (some answer)]) disks'
  | stop {log : List Event} {disks disks' : Disks} {call : Call}
      (h : CaptureHistories qsort ns size log disks)
      (tool : Tool) (hne : tool ≠ .format) (hsmall : tool.Small)
      (hrun : StoppedRun qsort ns size tool disks call disks') :
      CaptureHistories qsort ns size (log ++ [.tool call none]) disks'
  | capture {log : List Event} {disks disks' : Disks} (h : CaptureHistories qsort ns size log disks)
      (name : Name)
      (pkts : List Packet) (hrun : ImportRun qsort ns size name pkts disks disks') :
      CaptureHistories qsort ns size (log ++ [.capture name.str pkts]) disks'
  | halt {log : List Event} {disks disks' : Disks} (h : CaptureHistories qsort ns size log disks)
      (name : Name)
      (originSize : UInt64) (h32 : (originBlocks originSize).toNat < 2 ^ 32)
      (hrun : HaltedRun qsort ns size name originSize disks disks') :
      CaptureHistories qsort ns size (log ++ [.halted name.str originSize.toNat]) disks'

section histories
variable {qsort : Qsort n} {ns : Fin n ↪ ℕ} {size : Fin n → UInt64} {raid : NvmeRaid n}
  {τ : Equiv.Perm (Fin n)}
  {disks disks' : Disks} {d : Directory}

theorem Drives.mounted (h : Drives ns size raid τ) : Drives ns size raid.mounted τ := h.of_eq rfl rfl

variable (hn : n ≤ maxDisks) (hz : Sized (attachedAs ns size)) (hq : qsort.Sorts)
include hn hz hq

theorem ImportRun.step {name : Name} {pkts : List Packet} (hd : Drives ns size raid τ)
    (h : Carries ⟨raid, disks⟩ d)
    (hrun : ImportRun qsort ns size name pkts disks disks') :
    ∃ d' raid', d.Captures n name.str pkts d' ∧ Carries ⟨raid', disks'⟩ d' ∧ Drives ns size raid' τ ∧
      Kin raid.mounted raid' := by
  obtain @⟨σ, w, w', zmalloc, originSize, raid', hidle, hdisks, hfits, hrun⟩ := hrun
  obtain ⟨r, w₁, hcreate, hcopy⟩ := exec_bind.mp hrun
  rw [exec_inl] at hcreate
  obtain ⟨rfl, hquiet⟩ := createRaid_run h.headed hq (hd.attached_ns σ) (hd.attached_total σ) ⟨id, id⟩ h.synced
    hidle hdisks hcreate
  obtain ⟨d', hstep, hstored, hkin, _⟩ := h.mounted.copyCapture hn (hd.mounted.sized hz) (hquiet.idle hidle)
    ((hquiet.disks hidle).trans hdisks) (hfits _ _ hcreate) hcopy
  exact ⟨d', raid', hstep, hstored, hd.mounted.kin hkin, hkin⟩

theorem HaltedRun.step {name : Name} {originSize : UInt64} (hd : Drives ns size raid τ)
    (h : Carries ⟨raid, disks⟩ d) (h32 : (originBlocks originSize).toNat < 2 ^ 32)
    (hrun : HaltedRun qsort ns size name originSize disks disks') :
    ∃ d' raid', d.Unfinished n name.str originSize.toNat d' ∧ Carries ⟨raid', disks'⟩ d' ∧
      Drives ns size raid' τ := by
  obtain @⟨π, hπ, σ, w, w', zmalloc, capture, disks', hidle, hdisks, hfits, hcut, hleft⟩ := hrun
  rcases cut_bind.mp hcut with hcut | ⟨r, w₁, hcreate, hcut⟩
  · rw [cut_inl] at hcut
    have hsame := hd.createRaid_cut hq hπ h.headed h.synced hidle hdisks hleft hcut
    exact ⟨d, raid, .untouched, by rw [hsame]; exact h, hd⟩
  · rw [exec_inl] at hcreate
    obtain ⟨rfl, hquiet⟩ := createRaid_run h.headed hq (hd.attached_ns σ) (hd.attached_total σ) hπ h.synced hidle
      hdisks hcreate
    obtain ⟨hidle', d', raid', hstep, hstored, hns, htotal⟩ := h.mounted.copyCapture_cut hπ hn (hd.mounted.sized hz)
      (hquiet.idle hidle) ((hquiet.disks hidle).trans hdisks) h32
      (fun pkts hpkts => hfits pkts _ _ hpkts hcreate) hcut
    rw [hleft.of_idle hidle']
    exact ⟨d', raid', hstep, hstored, hd.mounted.of_eq hns htotal⟩

inductive DriveStep (qsort : Qsort n) (ns : Fin n ↪ ℕ) (size : Fin n → UInt64) (disks : Disks) :
    Event → Disks → Prop
  | answered {tool : Tool} {call : Call} {answer : Answer} {disks' : Disks} (hsmall : tool.Small)
      (hrun : ToolRun qsort ns size tool disks call answer disks') :
      DriveStep qsort ns size disks (.tool call (some answer)) disks'
  | stopped {tool : Tool} {call : Call} {disks' : Disks} (hne : tool ≠ .format) (hsmall : tool.Small)
      (hrun : StoppedRun qsort ns size tool disks call disks') : DriveStep qsort ns size disks (.tool call none) disks'
  | capture {name : Name} {pkts : List Packet} {disks' : Disks}
      (hrun : ImportRun qsort ns size name pkts disks disks') :
      DriveStep qsort ns size disks (.capture name.str pkts) disks'
  | halted {name : Name} {originSize : UInt64} {disks' : Disks} (h32 : (originBlocks originSize).toNat < 2 ^ 32)
      (hrun : HaltedRun qsort ns size name originSize disks disks') :
      DriveStep qsort ns size disks (.halted name.str originSize.toNat) disks'

theorem DriveStep.held {e : Event} (h : DriveStep qsort ns size disks e disks') (hended : e.Ended)
    (hd : HeldBy ns size disks d raid τ) :
    ∃ d', Directory.Answers n d e d' ∧ ∃ raid' τ', HeldBy ns size disks' d' raid' τ' := by
  cases h with
  | answered hsmall hrun =>
    obtain ⟨d', raid', τ', hstep, hd'⟩ := hrun.step hn hz hq hd hsmall
    exact ⟨d', .tool hstep, raid', τ', hd'⟩
  | stopped => exact absurd hended (by simp [Event.Ended])
  | capture hrun =>
    obtain ⟨d', raid', hstep, hstored, hd', hkin⟩ := hrun.step hn hz hq hd.drives hd.holds.toCarries
    rw [hd.holds.counted.mounted_eq] at hkin
    exact ⟨d', .capture hstep, raid', τ, ⟨hstored, hkin.counted hd.holds.counted⟩, hd'⟩
  | halted => exact hended.elim

theorem DriveStep.stored {e : Event} (h : DriveStep qsort ns size disks e disks') (hd : Drives ns size raid τ)
    (hs : Carries ⟨raid, disks⟩ d) :
    ∃ d', Directory.Survives n d e d' ∧ ∃ raid' τ', Carries ⟨raid', disks'⟩ d' ∧ Drives ns size raid' τ' := by
  cases h with
  | answered hsmall hrun =>
    obtain ⟨d', raid', τ', hkept, hstored, hd'⟩ := hrun.kept hq hn hz hd hs hsmall
    exact ⟨d', .tool hkept, raid', τ', hstored, hd'⟩
  | stopped hne hsmall hrun =>
    obtain ⟨d', raid', hstep, hstored, hd'⟩ := hrun.step hq hn hz hd hs hne hsmall
    exact ⟨d', .tool (.stopped hstep), raid', τ, hstored, hd'⟩
  | capture hrun =>
    obtain ⟨d', raid', hstep, hstored, hd', _⟩ := hrun.step hn hz hq hd hs
    exact ⟨d', .capture hstep, raid', τ, hstored, hd'⟩
  | halted h32 hrun =>
    obtain ⟨d', raid', hstep, hstored, hd'⟩ := hrun.step hn hz hq hd hs h32
    exact ⟨d', .halted hstep, raid', τ, hstored, hd'⟩

omit hn hz hq in
theorem CaptureHistories.steps {log : List Event} (h : CaptureHistories qsort ns size log disks) :
    ∃ disks₀ disks₁ call answer later, ToolRun qsort ns size .format disks₀ call answer disks₁ ∧
      log = .tool call (some answer) :: later ∧ Leads (DriveStep qsort ns size) later disks₁ disks := by
  have hnext : ∀ {log disks e disks'}, (∃ disks₀ disks₁ call answer later,
      ToolRun qsort ns size .format disks₀ call answer disks₁ ∧ log = .tool call (some answer) :: later ∧
        Leads (DriveStep qsort ns size) later disks₁ disks) → DriveStep qsort ns size disks e disks' →
      ∃ disks₀ disks₁ call answer later, ToolRun qsort ns size .format disks₀ call answer disks₁ ∧
        log ++ [e] = .tool call (some answer) :: later ∧ Leads (DriveStep qsort ns size) later disks₁ disks' := by
    rintro log disks e disks' ⟨disks₀, disks₁, call, answer, later, hformat, rfl, hlater⟩ hstep
    exact ⟨disks₀, disks₁, call, answer, later ++ [e], hformat, rfl, hlater.snoc hstep⟩
  induction h with
  | @format disks disks' call answer hrun => exact ⟨disks, disks', call, answer, [], hrun, rfl, rfl⟩
  | next _ tool hsmall hrun ih => exact hnext ih (.answered hsmall hrun)
  | stop _ tool hne hsmall hrun ih => exact hnext ih (.stopped hne hsmall hrun)
  | capture _ name pkts hrun ih => exact hnext ih (.capture hrun)
  | halt _ name originSize h32 hrun ih => exact hnext ih (.halted h32 hrun)

theorem CaptureHistories.held {log : List Event} (h : CaptureHistories qsort ns size log disks)
    (hended : ∀ e ∈ log, e.Ended) :
    ∃ d, Leads (Directory.Answers n) log Directory.empty d ∧ ∃ raid τ, HeldBy ns size disks d raid τ := by
  obtain ⟨_, disks₁, call, answer, later, hformat, rfl, hlater⟩ := h.steps
  rw [List.forall_mem_cons] at hended
  obtain ⟨rfl, rfl, hheld⟩ := hformat.format hn hq
  obtain ⟨d, hlog, hd⟩ := hlater.simulates (R := fun disks d => ∃ raid τ, HeldBy ns size disks d raid τ) hheld
    fun e he _ _ _ hstep ⟨_, _, hd⟩ => hstep.held hn hz hq (hended.2 e he) hd
  exact ⟨d, ⟨_, .tool (.format _), hlog⟩, hd⟩

theorem CaptureHistories.stored {log : List Event} (h : CaptureHistories qsort ns size log disks) :
    ∃ d, Leads (Directory.Survives n) log Directory.empty d ∧ ∃ raid τ, Carries ⟨raid, disks⟩ d ∧
      Drives ns size raid τ := by
  obtain ⟨_, disks₁, call, answer, later, hformat, rfl, hlater⟩ := h.steps
  obtain ⟨rfl, rfl, raid₁, τ₁, hheld⟩ := hformat.format hn hq
  obtain ⟨d, hlog, hd⟩ := hlater.simulates
    (R := fun disks d => ∃ raid τ, Carries ⟨raid, disks⟩ d ∧ Drives ns size raid τ)
    ⟨raid₁, τ₁, hheld.holds.toCarries, hheld.drives⟩
    fun _ _ _ _ _ hstep ⟨_, _, hs, hd⟩ => hstep.stored hn hz hq hd hs
  exact ⟨d, ⟨_, .tool (.answered (.format _)), hlog⟩, hd⟩

end histories

end PcapReplay
