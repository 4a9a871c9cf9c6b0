import PcapReplay.Sio.Blocks

/-! Runs of the raid transfers: the batch of a call under way, and the two counters. -/

namespace PcapReplay
open Interaction Dma Prog
variable {n : ℕ} {π : Policy} {raid : NvmeRaid n} {cs : List Command} {os : List Op} {w w' : World}

def World.Balanced (w : World) : Prop :=
  w.taskScheduled.toNat = w.taskCompleted.toNat + w.flights.card

namespace World

structure SameTasks (w w' : World) : Prop where
  card : w'.flights.card = w.flights.card
  scheduled : w'.taskScheduled = w.taskScheduled
  completed : w'.taskCompleted = w.taskCompleted

theorem SameTasks.balanced (h : SameTasks w w') (hw : w.Balanced) : w'.Balanced := by
  unfold Balanced at *
  rw [h.card, h.scheduled, h.completed, hw]

theorem SameTasks.idle (h : SameTasks w w') (hw : w.flights = 0) : w'.flights = 0 := by
  rw [← Multiset.card_eq_zero, h.card, hw, Multiset.card_zero]

theorem drift_sameTasks {b : Bus Space ℕ UInt8} (h : Bus.Drift w.bus b) : SameTasks w { w with bus := b } :=
  ⟨h.card, rfl, rfl⟩

theorem memcpy_sameTasks {dst src : Ptr} {len : ℕ} {r : Unit} (h : Runs π (memcpy dst src len) w r w') :
    SameTasks w w' := by
  obtain ⟨b, hdrift, rfl⟩ := exec_ask.mp h
  exact ⟨hdrift.card, rfl, rfl⟩

theorem malloc_sameTasks {len : ℕ} {zero : Bool} {r : Option ℕ}
    (h : Runs π (Op.malloc len zero).ask w r w') : SameTasks w w' := by
  obtain ⟨b, hdrift, ⟨_, m, _, _, rfl⟩ | ⟨_, _, rfl⟩⟩ := exec_ask.mp h
  · exact ⟨hdrift.card, rfl, rfl⟩
  · exact drift_sameTasks hdrift

theorem Balanced.process {ns : ℕ} {r : Unit} (hw : w.Balanced) (h : step π (.process ns) w r w') :
    w'.Balanced ∧ w'.taskScheduled = w.taskScheduled ∧ w'.nextBuf = w.nextBuf := by
  obtain ⟨b, hdrift, k, b', ⟨_, done, hdone, hfl, _⟩, rfl⟩ := h
  unfold Balanced flights at *
  have hcard : w.bus.flights.card = k + b'.flights.card := by
    rw [← hdrift.card, ← hdone, ← Multiset.card_add]
    exact congrArg Multiset.card hfl
  -- no more tasks complete than were scheduled
  have hk : (w.taskCompleted + UInt64.ofNat k).toNat = w.taskCompleted.toNat + k := by
    have := w.taskScheduled.toNat_lt
    exact toNat_add_ofNat (by omega)
  refine ⟨?_, rfl, rfl⟩
  show w.taskScheduled.toNat = (w.taskCompleted + UInt64.ofNat k).toNat + b'.flights.card
  omega

theorem Balanced.task {c : Command} {w₁ : World} {r : Unit} (hw : w.Balanced)
    (hlt : w.taskScheduled.toNat + 1 < 2 ^ 64) (h : step π (.cmd c) w 0 w₁)
    (h₁ : step π .schedule w₁ r w') :
    w'.Balanced ∧ w'.taskScheduled.toNat = w.taskScheduled.toNat + 1 ∧ w'.nextBuf = w.nextBuf := by
  obtain ⟨b, hdrift, ⟨_, rfl⟩ | ⟨_, hne, _⟩⟩ := h
  · obtain ⟨b', hdrift', rfl⟩ := h₁
    unfold Balanced flights at *
    have hone : (w.taskScheduled + 1).toNat = w.taskScheduled.toNat + 1 := toNat_add_ofNat hlt
    have hcard : b'.flights.card = w.bus.flights.card + 1 := by
      rw [hdrift'.card, ← hdrift.card]
      exact Multiset.card_cons _ _
    refine ⟨?_, hone, rfl⟩
    show (w.taskScheduled + 1).toNat = w.taskCompleted.toNat + b'.flights.card
    omega
  · exact absurd rfl hne

end World

namespace Script

section staged
variable {own : Space → ℕ → Prop} {b₀ : Bus Space ℕ UInt8} {m₀ : Store Space UInt8}
  {X : Multiset (Xfer Space)} {mine : Multiset (Flight Space ℕ)} {v : Bus Space ℕ UInt8}

theorem staged (h : Script raid cs os) (hst : Bus.Staged own b₀ m₀ X w.bus mine v)
    (hb₀ : b₀.Avoids own)
    (hX : Bus.Batch own (X + (cs.map Command.xfer : Multiset (Xfer Space))))
    (hrun : Performs (World.step π) accept os w w') :
    ∃ mine' v', Bus.Staged own b₀ m₀ (X + (cs.map Command.xfer : Multiset (Xfer Space))) w'.bus mine' v' := by
  induction h generalizing w X mine v with
  | nil =>
    obtain rfl : w' = w := hrun
    exact ⟨mine, v, by simpa using hst⟩
  | poll i _ ih =>
    obtain ⟨w₁, ⟨b, hdrift, k, b', hk, rfl⟩, hrest⟩ := hrun
    obtain ⟨_, _, h₁⟩ := hst.drift (hX.of_le (Multiset.le_add_right _ _)) hb₀ hdrift
    obtain ⟨_, _, h₂⟩ := h₁.completes hk
    exact ih h₂ hX hrest
  | @cmd c cs os _ ih =>
    obtain ⟨w₁, ⟨b, hdrift, hcmd⟩, w₂, ⟨b', hdrift', rfl⟩, hrest⟩ := hrun
    have hcons : X + ((c :: cs).map Command.xfer : Multiset (Xfer Space)) =
        c.xfer ::ₘ X + (cs.map Command.xfer : Multiset (Xfer Space)) := by
      rw [List.map_cons, ← Multiset.cons_coe, Multiset.add_cons, Multiset.cons_add]
    rw [hcons] at hX ⊢
    have hXc := hX.of_le (Multiset.le_add_right _ _)
    obtain ⟨_, _, h₁⟩ := hst.drift (hXc.of_le (Multiset.le_cons_self _ _)) hb₀ hdrift
    rcases hcmd with ⟨_, rfl⟩ | ⟨_, hne, _⟩
    · obtain ⟨_, _, h₂⟩ := (h₁.submit c.xfer c.ns).drift hXc hb₀ hdrift'
      exact ih h₂ hX hrest
    · exact absurd rfl hne

end staged

theorem balanced (h : Script raid cs os) (hw : w.Balanced) (hlt : w.taskScheduled.toNat + cs.length < 2 ^ 64)
    (hrun : Performs (World.step π) accept os w w') :
    w'.Balanced ∧ w'.taskScheduled.toNat = w.taskScheduled.toNat + cs.length ∧ w'.nextBuf = w.nextBuf := by
  induction h generalizing w with
  | nil =>
    obtain rfl : w' = w := hrun
    exact ⟨hw, rfl, rfl⟩
  | poll i _ ih =>
    obtain ⟨w₁, hstep, hrest⟩ := hrun
    obtain ⟨hbal, hts, hbuf⟩ := hw.process hstep
    rw [← hts] at hlt ⊢
    rw [← hbuf]
    exact ih hbal hlt hrest
  | cmd c _ ih =>
    obtain ⟨w₁, hcmd, w₂, hsched, hrest⟩ := hrun
    rw [List.length_cons] at hlt ⊢
    obtain ⟨hbal, hts, hbuf⟩ := hw.task (by omega) hcmd hsched
    obtain ⟨hbal', hts', hbuf'⟩ := ih hbal (by omega) hrest
    exact ⟨hbal', by omega, hbuf'.trans hbuf⟩

end Script

section calls
variable {α : Type} {own : Space → ℕ → Prop} {b₀ : Bus Space ℕ UInt8} {m₀ : Store Space UInt8}
  {X : Multiset (Xfer Space)} {mine : Multiset (Flight Space ℕ)} {v : Bus Space ℕ UInt8}

theorem Submits.staged {p : Nvme α} {a r : α} (h : Submits raid p cs a) (hπ : ¬ π.reject)
    (hb₀ : b₀.Avoids own) (hst : Bus.Staged own b₀ m₀ X w.bus mine v)
    (hX : Bus.Batch own (X + (cs.map Command.xfer : Multiset (Xfer Space))))
    (hbal : w.Balanced) (hlt : w.taskScheduled.toNat + cs.length < 2 ^ 64) (hrun : Runs π p w r w') :
    r = a ∧ w'.Balanced ∧ w'.taskScheduled.toNat = w.taskScheduled.toNat + cs.length ∧
      w'.nextBuf = w.nextBuf ∧
      ∃ mine' v',
        Bus.Staged own b₀ m₀ (X + (cs.map Command.xfer : Multiset (Xfer Space))) w'.bus mine' v' := by
  obtain ⟨hr, os, hscript, hperf⟩ := h.runs hπ hrun
  obtain ⟨hbal', hts, hbuf⟩ := hscript.balanced hbal hlt hperf
  exact ⟨hr, hbal', hts, hbuf, hscript.staged hst hb₀ hX hperf⟩

theorem sioWaittasks_run {rounds : ℕ} (hπ : ¬ π.reject) (hb₀ : b₀.Avoids own)
    (hst : Bus.Staged own b₀ m₀ X w.bus mine v) (hX : Bus.Batch own X) (hbal : w.Balanced)
    (hrun : Runs π (sioWaittasks raid rounds) w (some ()) w') :
    w'.flights = 0 ∧ w'.Balanced ∧ w'.taskScheduled = w.taskScheduled ∧ w'.nextBuf = w.nextBuf ∧
      ∃ mine' v', Bus.Staged own b₀ m₀ X w'.bus mine' v' := by
  induction rounds generalizing w mine v with
  | zero => exact absurd hrun.1 (by simp)
  | succ rounds ih =>
    obtain ⟨r, w₁, hwait, hrest⟩ := exec_bind.mp hrun
    obtain ⟨b, hdrift, hr, rfl⟩ := exec_ask.mp hwait
    obtain ⟨mine₁, v₁, hst₁⟩ := hst.drift hX hb₀ hdrift
    have hbal₁ := (World.drift_sameTasks hdrift).balanced hbal
    cases r with
    | true =>
      obtain ⟨_, w₂, hpoll, hagain⟩ := exec_bind.mp hrest
      have hts := w.taskScheduled.toNat_lt
      obtain ⟨_, hbal₂, hts₂, hbuf₂, mine₂, v₂, hst₂⟩ := (submits_pollAll raid).staged hπ hb₀ hst₁
        (by simpa using hX) hbal₁ hts hpoll
      obtain ⟨hidle, hbal', hts', hbuf', hst'⟩ := ih (by simpa using hst₂) hbal₂ hagain
      exact ⟨hidle, hbal', hts'.trans (UInt64.toNat_inj.mp hts₂), hbuf'.trans hbuf₂, hst'⟩
    | false =>
      obtain ⟨_, rfl⟩ := exec_pure.mp hrest
      have hle : w.taskScheduled.toNat ≤ w.taskCompleted.toNat :=
        UInt64.le_iff_toNat_le.mp (UInt64.not_lt.mp (of_decide_eq_false hr.symm))
      refine ⟨?_, hbal₁, rfl, rfl, mine₁, v₁, hst₁⟩
      apply Multiset.card_eq_zero.mp
      have : w.taskScheduled.toNat = w.taskCompleted.toNat + b.flights.card := hbal₁
      show b.flights.card = 0
      omega

theorem Submits.counts {p : Nvme α} {cs : List Command} {a r : α} (h : Submits raid p cs a)
    (hπ : ¬ π.reject) (hbal : w.Balanced) (hlt : w.taskScheduled.toNat + cs.length < 2 ^ 64)
    (hrun : Runs π p w r w') :
    r = a ∧ w'.Balanced ∧ w'.taskScheduled.toNat = w.taskScheduled.toNat + cs.length ∧
      w'.nextBuf = w.nextBuf := by
  obtain ⟨hr, os, hscript, hperf⟩ := h.runs hπ hrun
  exact ⟨hr, hscript.balanced hbal hlt hperf⟩

theorem sioWaittasks_idle {rounds : ℕ} (hπ : ¬ π.reject) (hbal : w.Balanced)
    (hrun : Runs π (sioWaittasks raid rounds) w (some ()) w') :
    w'.flights = 0 ∧ w'.Balanced ∧ w'.taskScheduled = w.taskScheduled := by
  have hnone : w.bus.Avoids fun _ _ => False := fun _ _ _ _ _ => id
  obtain ⟨hidle, hbal', hts, _⟩ := sioWaittasks_run hπ hnone (Bus.Staged.start w.bus)
    ⟨by simp, by simp, by simp, by simp⟩ hbal hrun
  exact ⟨hidle, hbal', hts⟩

end calls

end PcapReplay
