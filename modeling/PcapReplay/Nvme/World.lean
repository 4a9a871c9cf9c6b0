import PcapReplay.Nvme.Interface

/-! The machine the programs run on. Submitted commands move their data at any moment; their
callbacks run only inside `process`, which may complete any of the commands of its queue that
have moved their data. The namespaces have no last sector: a run is one of the programs as long as its
commands stay on the drives. -/

namespace PcapReplay
open Interaction Dma

structure World where
  bus : Bus Space ℕ UInt8
  taskScheduled : UInt64
  taskCompleted : UInt64
  nextBuf : ℕ

/-- The failures an environment may show. -/
structure Policy where
  reject : Prop
  ioError : Prop
  noMemory : Prop

namespace World

def flights (w : World) : Multiset (Flight Space ℕ) := w.bus.flights

def setStore (w : World) (m : Store Space UInt8) : World := { w with bus := { w.bus with store := m } }

def sector (w : World) (ns : ℕ) (lba : UInt64) : Sector := fun a =>
  w.bus.store (.disk ns) (lba.toNat * sectorLength + a)

def writeSector (m : Store Space UInt8) (ns : ℕ) (lba : UInt64) (data : Sector) :
    Store Space UInt8 := fun s a =>
  if s = .disk ns ∧ lba.toNat * sectorLength ≤ a ∧ a < (lba.toNat + 1) * sectorLength then
    data (a - lba.toNat * sectorLength)
  else m s a

theorem writeSector_mem (m : Store Space UInt8) (ns : ℕ) (lba : UInt64) (data : Sector) (buf : ℕ) :
    writeSector m ns lba data (.mem buf) = m (.mem buf) := by
  funext a
  unfold writeSector
  exact if_neg fun h => Space.noConfusion h.1

def perform (π : Policy) : (o : Op) → World → Ans o → World → Prop
  | .cmd c, w, rc, w' =>
    (rc = 0 ∧ w' = { w with bus := w.bus.submit c.xfer c.ns }) ∨ (π.reject ∧ rc ≠ 0 ∧ w' = w)
  | .schedule, w, _, w' => w' = { w with taskScheduled := w.taskScheduled + 1 }
  | .process ns, w, _, w' => ∃ k b, Bus.Completes ns k w.bus b ∧
      w' = { w with bus := b, taskCompleted := w.taskCompleted + UInt64.ofNat k }
  | .waiting, w, r, w' => r = decide (w.taskCompleted < w.taskScheduled) ∧ w' = w
  | .malloc _ zero, w, r, w' =>
    (r = some w.nextBuf ∧ ∃ m : Store Space UInt8, (∀ s a, s ≠ .mem w.nextBuf → m s a = w.bus.store s a) ∧
      (zero → ∀ a, m (.mem w.nextBuf) a = 0) ∧ w' = { w.setStore m with nextBuf := w.nextBuf + 1 }) ∨
    (π.noMemory ∧ r = none ∧ w' = w)
  | .memcpy dst src len, w, _, w' => w' = w.setStore ((memXfer dst src len).exec w.bus.store)
  | .readWait ns lba, w, r, w' => w' = w ∧ (r.1 = 0 ∧ r.2 = w.sector ns lba ∨ π.ioError ∧ r.1 ≠ 0)
  | .writeWait ns lba data, w, rc, w' =>
    (rc = 0 ∧ w' = w.setStore (writeSector w.bus.store ns lba data)) ∨ (π.ioError ∧ rc ≠ 0 ∧ w' = w)

def step (π : Policy) (o : Op) (w : World) (r : Ans o) (w' : World) : Prop :=
  ∃ b, Bus.Drift w.bus b ∧ perform π o { w with bus := b } r w'

def queues (w : World) : Multiset ℕ := w.flights.map Flight.queue

def Prompt : Op → World → World → Prop
  | .cmd c, w, w' => w'.queues = c.ns ::ₘ w.queues
  | .process ns, w, w' => w'.queues = w.queues.filter (· ≠ ns)
  | _, w, w' => w'.queues = w.queues

def promptStep (π : Policy) (o : Op) (w : World) (r : Ans o) (w' : World) : Prop :=
  step π o w r w' ∧ Prompt o w w'

theorem promptStep_total (π : Policy) (o : Op) (w : World) : ∃ r w', promptStep π o w r w' := by
  cases o with
  | cmd c =>
    refine ⟨0, _, ⟨w.bus, .refl, Or.inl ⟨rfl, rfl⟩⟩, ?_⟩
    exact Multiset.map_cons _ _ _
  | schedule => exact ⟨(), _, ⟨w.bus, .refl, rfl⟩, rfl⟩
  | process ns =>
    obtain ⟨b₁, k, b', hd, hc, hq⟩ := Bus.exists_completes_queue ns w.bus
    exact ⟨(), _, ⟨b₁, hd, k, b', hc, rfl⟩, hq⟩
  | waiting => exact ⟨_, w, ⟨w.bus, .refl, rfl, rfl⟩, rfl⟩
  | malloc len zero =>
    let m : Store Space UInt8 := fun s a => if s = .mem w.nextBuf then 0 else w.bus.store s a
    refine ⟨some w.nextBuf, { w.setStore m with nextBuf := w.nextBuf + 1 }, ?_, rfl⟩
    exact ⟨w.bus, .refl, Or.inl ⟨rfl, m, fun s a hs => if_neg hs, fun _ a => if_pos rfl, rfl⟩⟩
  | memcpy dst src len => exact ⟨(), _, ⟨w.bus, .refl, rfl⟩, rfl⟩
  | readWait ns lba => exact ⟨(0, w.sector ns lba), w, ⟨w.bus, .refl, rfl, Or.inl ⟨rfl, rfl⟩⟩, rfl⟩
  | writeWait ns lba data => exact ⟨0, _, ⟨w.bus, .refl, Or.inl ⟨rfl, rfl⟩⟩, rfl⟩

end World

def Runs {α : Type} (π : Policy) (p : Nvme α) (w : World) (a : α) (w' : World) : Prop :=
  p.Exec (World.step π) w a w'

def PromptRuns {α : Type} (π : Policy) (p : Nvme α) (w : World) (a : α) (w' : World) : Prop :=
  p.Exec (World.promptStep π) w a w'

theorem PromptRuns.runs {α : Type} {π : Policy} {p : Nvme α} {w : World} {a : α} {w' : World}
    (h : PromptRuns π p w a w') : Runs π p w a w' :=
  Prog.Exec.mono (fun _ _ _ _ => And.left) h

theorem exists_promptRuns {α : Type} (π : Policy) (p : Nvme α) (w : World) :
    ∃ a w', PromptRuns π p w a w' :=
  Prog.exec_total (World.promptStep_total π) p w

end PcapReplay
