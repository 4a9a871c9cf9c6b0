import PcapReplay.Fs.Table
import Mathlib.Data.Fin.Tuple.Sort

/-! Mounting: `createRaid`. -/

namespace PcapReplay
open Interaction
variable {n : ℕ}

structure IDisk where
  msector : MetaSector
  ns : ℕ

def NvmeRaid.disk (raid : NvmeRaid n) (i : Fin n) : IDisk := ⟨raid.msector i, raid.ns i⟩

def NvmeRaid.reorder (raid : NvmeRaid n) (σ : Equiv.Perm (Fin n)) : NvmeRaid n :=
  { raid with
    msector := fun i => raid.msector (σ i)
    ns := σ.toEmbedding.trans raid.ns }

def checkMeta (m : MetaSector) : Bool := m.magic == magicNumber

def cmpIDisk (p q : IDisk) : ℤ := if q.msector.diskId < p.msector.diskId then 1 else 0

/-- `qsort` rearranges an array of disks: position `i` of the result is position `σ i` before. -/
abbrev Qsort (n : ℕ) := (IDisk → IDisk → ℤ) → (Fin n → IDisk) → Equiv.Perm (Fin n)

def Qsort.Ascending (qsort : Qsort n) : Prop :=
  ∀ d : Fin n → IDisk, Monotone fun i => (d (qsort cmpIDisk d i)).msector.diskId.toNat

def Refused (m : Fin n → MetaSector) : Prop :=
  ∃ i, (m i).diskId.toNat ≠ i ∧ (m i).totalDisks.toNat ≠ n

instance (m : Fin n → MetaSector) : Decidable (Refused m) :=
  inferInstanceAs (Decidable (∃ _, _ ∧ _))

def orderRaid [NeZero n] (qsort : Qsort n) (raid : NvmeRaid n) : Option (NvmeRaid n) :=
  let raid := raid.reorder (qsort cmpIDisk raid.disk)
  if Refused raid.msector then none
  else some { raid with numFiles := (raid.msector 0).totalFiles.toNat }

def initialised (m : Fin n → MetaSector) : ℕ := (List.finRange n).countP fun i => checkMeta (m i)

def createRaid [NeZero n] (qsort : Qsort n) (raid : NvmeRaid n) : Nvme (Option (NvmeRaid n)) := do
  -- the codes of the reads are not looked at
  let got ← Prog.collect fun i => sioReadPinit (raid.ns i) (raid.msector i)
  let raid : NvmeRaid n := { raid with msector := fun i => (got i).2 }
  let cnt := initialised raid.msector
  if cnt = 0 then do
    let raid ← formatRaid raid
    pure (orderRaid qsort raid)
  else if cnt < n then pure none
  else pure (orderRaid qsort raid)

theorem initialised_eq_zero {m : Fin n → MetaSector} :
    initialised m = 0 ↔ ∀ i, checkMeta (m i) = false := by
  simp [initialised, List.countP_eq_zero]

theorem initialised_lt {m : Fin n → MetaSector} :
    initialised m < n ↔ ∃ i, checkMeta (m i) = false := by
  have hle : initialised m ≤ n := by
    have h := List.countP_le_length (p := fun i => checkMeta (m i)) (l := List.finRange n)
    simpa [initialised] using h
  have hall : initialised m = n ↔ ∀ i, checkMeta (m i) = true := by
    have h := List.countP_eq_length (p := fun i => checkMeta (m i)) (l := List.finRange n)
    simpa [initialised] using h
  constructor
  · intro h
    by_contra hne
    exact h.ne (hall.mpr fun i => by simpa using fun hi => hne ⟨i, hi⟩)
  · rintro ⟨i, hi⟩
    refine lt_of_le_of_ne hle fun h => ?_
    simp [hall.mp h i] at hi

inductive ReadOutcome where
  | ok
  -- the pinned buffer could not be allocated
  | noMemory
  -- the read was refused: its code, and what the pinned buffer happened to hold
  | ioError (rc : {rc : ℤ // rc ≠ 0}) (garbage : Sector)

/-- The `k`th metadata read has the outcome `out k`; the log is of the metadata writes. -/
structure MountState where
  reads : ℕ
  writes : List (ℕ × Sector)

def mountEnv (media : ℕ → Sector) (out : ℕ → ReadOutcome) :
    (o : Op) → MountState → Ans o × MountState
  | .malloc _ _, s =>
    match out s.reads with
    | .noMemory => (none, { s with reads := s.reads + 1 })
    | _ => (some 0, s)
  | .readWait ns _, s =>
    match out s.reads with
    | .ioError rc garbage => ((rc, garbage), { s with reads := s.reads + 1 })
    | _ => ((0, media ns), { s with reads := s.reads + 1 })
  | .writeWait ns _ data, s => (0, { s with writes := s.writes ++ [(ns, data)] })
  | .cmd _, s => (0, s)
  | .schedule, s => ((), s)
  | .process _, s => ((), s)
  | .waiting, s => (false, s)
  | .memcpy _ _ _, s => ((), s)

def outcomes (out : Fin n → ReadOutcome) (k : ℕ) : ReadOutcome :=
  if h : k < n then out ⟨k, h⟩ else .ok

def afterRead (media : Sector) (old : MetaSector) : ReadOutcome → MetaSector
  | .ok => .ofBytes media
  | .noMemory => old
  | .ioError _ garbage => .ofBytes garbage

section runs
variable (media : ℕ → Sector) (out : ℕ → ReadOutcome)

theorem run_sioReadPinit (ns : ℕ) (old : MetaSector) (s : MountState) :
    ((sioReadPinit ns old).run (mountEnv media out) s).1.2 = afterRead (media ns) old (out s.reads) ∧
      ((sioReadPinit ns old).run (mountEnv media out) s).2 = { s with reads := s.reads + 1 } := by
  cases ho : out s.reads <;>
    simp [sioReadPinit, spdkMalloc, sioRead, Op.ask, mountEnv, afterRead, ho]

theorem run_reads (ns : Fin n → ℕ) (old : Fin n → MetaSector) (s : MountState) :
    (∀ i, (((Prog.collect fun i => sioReadPinit (ns i) (old i)).run (mountEnv media out) s).1 i).2 =
        afterRead (media (ns i)) (old i) (out (s.reads + i))) ∧
      ((Prog.collect fun i => sioReadPinit (ns i) (old i)).run (mountEnv media out) s).2 =
        { s with reads := s.reads + n } := by
  induction n generalizing s with
  | zero => exact ⟨fun i => i.elim0, rfl⟩
  | succ n ih =>
    obtain ⟨h₁, h₂⟩ := run_sioReadPinit media out (ns 0) (old 0) s
    obtain ⟨h₃, h₄⟩ := ih (fun i => ns i.succ) (fun i => old i.succ) { s with reads := s.reads + 1 }
    simp only [Prog.collect, Prog.run_bind, Prog.run_pure, h₂]
    refine ⟨fun i => ?_, ?_⟩
    · refine Fin.cases ?_ (fun i => ?_) i
      · simpa using h₁
      · have hsum : s.reads + 1 + (i : ℕ) = s.reads + (i.succ : ℕ) := by
          rw [Fin.val_succ]
          omega
        rw [Fin.cons_succ, h₃, hsum]
    · rw [h₄]
      simp only [MountState.mk.injEq, and_true]
      omega

theorem run_writes (ns : Fin n → ℕ) (m : Fin n → MetaSector) (s : MountState)
    (hok : out s.reads = .ok) :
    ((Prog.collect fun i => sioWritePinit (ns i) (m i)).run (mountEnv media out) s).2 =
      { s with writes := s.writes ++ List.ofFn fun i => (ns i, (m i).toBytes) } := by
  induction n generalizing s with
  | zero => simp [Prog.collect]
  | succ n ih =>
    have hwrite : ((sioWritePinit (ns 0) (m 0)).run (mountEnv media out) s).2 =
        { s with writes := s.writes ++ [(ns 0, (m 0).toBytes)] } := by
      simp [sioWritePinit, spdkMalloc, sioWrite, Op.ask, mountEnv, hok]
    simp only [Prog.collect, Prog.run_bind, Prog.run_pure, hwrite]
    have hrest := ih (fun i => ns i.succ) (fun i => m i.succ)
      { s with writes := s.writes ++ [(ns 0, (m 0).toBytes)] } hok
    rw [hrest, List.ofFn_succ]
    simp

theorem run_formatRaid (raid : NvmeRaid n) (s : MountState) (hok : out s.reads = .ok) :
    (formatRaid raid).run (mountEnv media out) s =
      (formatted raid, { s with
        writes := s.writes ++ List.ofFn fun i => (raid.ns i, ((formatted raid).msector i).toBytes) }) := by
  have h₁ := formatRaid_returns.mp (Prog.returns_run (mountEnv media out) (formatRaid raid) s)
  refine Prod.ext h₁ ?_
  simp only [formatRaid, updateRaid, Prog.run_bind, Prog.run_pure]
  exact run_writes media out raid.ns (formatted raid).msector s hok

end runs

variable [NeZero n] (qsort : Qsort n) (media : ℕ → Sector) (out : Fin n → ReadOutcome)
  (raid : NvmeRaid n)

def readIn : NvmeRaid n :=
  { raid with msector := fun i => afterRead (media (raid.ns i)) (raid.msector i) (out i) }

theorem run_createRaid :
    (createRaid qsort raid).run (mountEnv media (outcomes out)) ⟨0, []⟩ =
      if initialised (readIn media out raid).msector = 0 then
        (orderRaid qsort (formatted (readIn media out raid)), ⟨n, List.ofFn fun i =>
          (raid.ns i, ((formatted (readIn media out raid)).msector i).toBytes)⟩)
      else if initialised (readIn media out raid).msector < n then (none, ⟨n, []⟩)
      else (orderRaid qsort (readIn media out raid), ⟨n, []⟩) := by
  obtain ⟨h₁, h₂⟩ := run_reads media (outcomes out) raid.ns raid.msector ⟨0, []⟩
  have hread : (fun i => (((Prog.collect fun i => sioReadPinit (raid.ns i) (raid.msector i)).run
      (mountEnv media (outcomes out)) ⟨0, []⟩).1 i).2) = (readIn media out raid).msector := by
    funext i
    simp [h₁ i, readIn, outcomes]
  have hok : outcomes out n = .ok := by simp [outcomes]
  simp only [createRaid, Prog.run_bind, h₂, hread, Nat.zero_add]
  split_ifs with hz hlt
  · rw [Prog.run_bind, run_formatRaid media (outcomes out) _ ⟨n, []⟩ hok]
    rfl
  · rfl
  · rfl

end PcapReplay
