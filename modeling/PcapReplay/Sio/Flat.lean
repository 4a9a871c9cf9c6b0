import PcapReplay.Sio.Runs

/-! The raid as one flat array of blocks. -/

namespace PcapReplay
open Dma

abbrev Block := Fin sectorLength → UInt8

abbrev FlatArray := UInt64 → Block

structure Served where
  dir : Dir
  lba : UInt64
  count : ℕ
  data : ℕ → Block

namespace FlatArray

def apply (f : FlatArray) (e : Served) : FlatArray :=
  match e.dir with
  | .read => f
  | .write => fun b =>
    if e.lba.toNat ≤ b.toNat ∧ b.toNat < e.lba.toNat + e.count then e.data (b.toNat - e.lba.toNat) else f b

/-- Every read returns what the requests before it have left in its blocks. -/
def Explains : FlatArray → List Served → Prop
  | _, [] => True
  | f, e :: es =>
    (e.dir = .read → ∀ k < e.count, e.data k = f (e.lba + UInt64.ofNat k)) ∧ Explains (f.apply e) es

end FlatArray

structure Request where
  dir : Dir
  payload : Ptr
  lba : UInt64
  lbaCount : UInt32

namespace Request

def Valid (r : Request) : Prop :=
  1 ≤ r.lbaCount.toNat ∧ r.lba.toNat + r.lbaCount.toNat + superSectorNum ≤ 2 ^ 64

def blocks (r : Request) (m : Store Space UInt8) (k : ℕ) : Block := fun a =>
  m (.mem r.payload.buf) (r.payload.off + k * sectorLength + a)

/-- A write takes its payload from the memory before the call, a read leaves it in the memory after. -/
def served (r : Request) (before after : Store Space UInt8) : Served where
  dir := r.dir
  lba := r.lba
  count := r.lbaCount.toNat
  data := r.blocks (match r.dir with | .read => after | .write => before)

variable {n : ℕ} [NeZero n]

def call (r : Request) (raid : NvmeRaid n) : Nvme ℤ := sioTransfer r.dir raid r.payload r.lba r.lbaCount

def reference (r : Request) (raid : NvmeRaid n) : Store Space UInt8 → Store Space UInt8 :=
  Xfer.execAll (blockXfers r.dir raid r.payload r.lba.toNat r.lbaCount.toNat)

def Serves (π : Policy) (raid : NvmeRaid n) (r : Request) (w : World) (rc : ℤ) (w' : World) : Prop :=
  ∃ w₁, Runs π (r.call raid) w rc w₁ ∧ Bus.Evolves w₁.bus w'.bus ∧ w'.flights = 0

end Request

section
variable {n : ℕ} [NeZero n]

def flat (raid : NvmeRaid n) (m : Store Space UInt8) : FlatArray := fun b a =>
  m (.disk (raid.ns (superGetdisk n b))) ((superGetdisklba n b).toNat * sectorLength + a)

inductive Session (π : Policy) (raid : NvmeRaid n) : World → List Served → World → Prop
  | done (w : World) : Session π raid w [] w
  | serve {w w₁ w' : World} {es : List Served} (r : Request) (rc : ℤ) (hr : r.Valid)
      (h : r.Serves π raid w rc w₁) (hrest : Session π raid w₁ es w') :
      Session π raid w (r.served w.bus.store w₁.bus.store :: es) w'
  | caller {w w₁ w' : World} {es : List Served}
      (hdisk : ∀ ns, w₁.bus.store (.disk ns) = w.bus.store (.disk ns))
      (hflights : w₁.flights = w.flights) (hrest : Session π raid w₁ es w') : Session π raid w es w'

variable {π : Policy} {raid : NvmeRaid n} {r : Request} {w w' : World} {rc : ℤ}

namespace Request

theorem Valid.lt (hr : r.Valid) : r.lba.toNat + r.lbaCount.toNat < 2 ^ 64 := by
  have := hr.2
  simp only [superSectorNum_eq] at this
  omega

theorem Serves.effect (h : r.Serves π raid w rc w') (hπ : ¬ π.reject) (hr : r.Valid)
    (hw : w.flights = 0) :
    rc = 0 ∧ Effect (fun _ _ => True)
      (blockXfers r.dir raid r.payload r.lba.toNat r.lbaCount.toNat : Multiset (Xfer Space))
      w.bus.store w'.bus.store := by
  obtain ⟨w₁, hrun, hev, hidle⟩ := h
  have hlt := hr.lt
  obtain ⟨rfl, os, hscript, hperf⟩ :=
    (sioTransfer_submits r.dir raid r.payload r.lba r.lbaCount hr.1 hlt).runs hπ hrun
  have hbatch := pieces_batch r.dir raid r.payload (fun _ _ => True) hlt.le (by simp)
  have havoid : w.bus.Avoids fun _ _ => True := Bus.avoids_of_idle hw
  obtain ⟨mine, v, hst⟩ := hscript.staged (Bus.Staged.start w.bus) havoid
    (by rwa [zero_add]) hperf
  rw [zero_add] at hst
  obtain ⟨mine', v', hst'⟩ := hst.progress hbatch havoid hev
  refine ⟨rfl, ?_⟩
  have hparts := (hst'.effect hidle).parts (Command.dvd_len_map _)
  rwa [pieces_parts r.dir raid r.payload _ _ hlt.le] at hparts

theorem Serves.reference_eq (h : r.Serves π raid w rc w') (hπ : ¬ π.reject) (hr : r.Valid)
    (hw : w.flights = 0) : w'.bus.store = r.reference raid w.bus.store := by
  have hbatch : Bus.Batch (fun _ _ => True)
      (blockXfers r.dir raid r.payload r.lba.toNat r.lbaCount.toNat : Multiset (Xfer Space)) :=
    blockXfers_batch r.dir raid r.payload _ hr.lt.le (by simp)
  funext s a
  exact (h.effect hπ hr hw).2.unique (hbatch.effect_execAll _) trivial

theorem exists_serves (r : Request) (π : Policy) (raid : NvmeRaid n) (w : World) :
    ∃ rc w', r.Serves π raid w rc w' := by
  obtain ⟨rc, w₁, hrun⟩ := exists_promptRuns π (r.call raid) w
  obtain ⟨b, hev, hidle⟩ := w₁.bus.exists_settled
  exact ⟨rc, { w₁ with bus := b }, w₁, hrun.runs, hev, hidle⟩

end Request

theorem flat_eq (m : Store Space UInt8) (b : UInt64) (a : Fin sectorLength) :
    flat raid m b a = m (blockSpace raid b.toNat) (blockByte n b.toNat + a) := by
  rw [flat, blockSpace, blockByte, UInt64.ofNat_toNat]

section effect
variable {m₀ m : Store Space UInt8} {payload : Ptr} {lba : UInt64} {count : ℕ}

theorem flat_of_written {own : Space → ℕ → Prop}
    (h : Effect own (blockXfers .write raid payload lba.toNat count : Multiset (Xfer Space)) m₀ m)
    {b : UInt64} (hb : lba.toNat ≤ b.toNat ∧ b.toNat < lba.toNat + count) (a : Fin sectorLength) :
    flat raid m b a =
      m₀ (.mem payload.buf) (payload.off + (b.toNat - lba.toNat) * sectorLength + a) := by
  have hplace := h.inPlace _ (Multiset.mem_coe.mpr
    ((mem_blockXfers .write raid payload).mpr ⟨b.toNat, hb, rfl⟩)) a
  simp only [blockCmd_write] at hplace
  rw [flat_eq]
  exact hplace a.isLt

theorem flat_of_write
    (h : Effect (fun _ _ => True) (blockXfers .write raid payload lba.toNat count : Multiset (Xfer Space))
      m₀ m)
    (hlt : lba.toNat + count ≤ 2 ^ 64) (b : UInt64) (a : Fin sectorLength) :
    flat raid m b a =
      if lba.toNat ≤ b.toNat ∧ b.toNat < lba.toNat + count then
        m₀ (.mem payload.buf) (payload.off + (b.toNat - lba.toNat) * sectorLength + a)
      else flat raid m₀ b a := by
  split_ifs with hb
  · exact flat_of_written h hb a
  · rw [flat_eq, flat_eq]
    apply h.kept _ _ trivial
    intro x hx hw
    obtain ⟨c, hc, rfl⟩ := (mem_blockXfers .write raid payload).mp (Multiset.mem_coe.mp hx)
    rw [blockCmd_write] at hw
    obtain ⟨hs, hcell⟩ := hw
    have hbc : b.toNat = c := block_eq_of_cell b.toNat_lt (by omega) hs
      ⟨Nat.le_add_right _ _, Nat.add_lt_add_left a.isLt _⟩ hcell
    omega

theorem flat_of_read
    (h : Effect (fun _ _ => True) (blockXfers .read raid payload lba.toNat count : Multiset (Xfer Space))
      m₀ m) :
    flat raid m = flat raid m₀ := by
  funext b a
  apply h.kept _ _ trivial
  intro x hx hw
  obtain ⟨c, hc, rfl⟩ := (mem_blockXfers .read raid payload).mp (Multiset.mem_coe.mp hx)
  rw [blockCmd_read] at hw
  exact absurd hw.1 (by simp)

theorem payload_of_read {own : Space → ℕ → Prop}
    (h : Effect own (blockXfers .read raid payload lba.toNat count : Multiset (Xfer Space)) m₀ m)
    (hlt : lba.toNat + count ≤ 2 ^ 64) {k : ℕ} (hk : k < count) (a : Fin sectorLength) :
    m (.mem payload.buf) (payload.off + k * sectorLength + a) =
      flat raid m₀ (lba + UInt64.ofNat k) a := by
  have hplace := h.inPlace _ (Multiset.mem_coe.mpr ((mem_blockXfers .read raid payload).mpr
    ⟨lba.toNat + k, by omega, rfl⟩)) a
  simp only [blockCmd_read, Nat.add_sub_cancel_left] at hplace
  rw [flat_eq, toNat_add_ofNat (by omega)]
  exact hplace a.isLt

end effect

theorem Request.Serves.flat (h : r.Serves π raid w rc w') (hπ : ¬ π.reject) (hr : r.Valid)
    (hw : w.flights = 0) :
    (r.dir = .read → ∀ k < r.lbaCount.toNat,
      (r.served w.bus.store w'.bus.store).data k = flat raid w.bus.store (r.lba + UInt64.ofNat k)) ∧
    flat raid w'.bus.store = (flat raid w.bus.store).apply (r.served w.bus.store w'.bus.store) := by
  have heff := (h.effect hπ hr hw).2
  have hlt := hr.lt.le
  obtain ⟨dir, payload, lba, lbaCount⟩ := r
  cases dir with
  | read =>
    refine ⟨fun _ k hk => ?_, flat_of_read heff⟩
    funext a
    exact payload_of_read heff hlt hk a
  | write =>
    refine ⟨nofun, ?_⟩
    funext b a
    rw [flat_of_write heff hlt]
    unfold FlatArray.apply Request.served
    by_cases hb : lba.toNat ≤ b.toNat ∧ b.toNat < lba.toNat + lbaCount.toNat
    · simp only [if_pos hb]
      rfl
    · simp only [if_neg hb]

theorem Session.flat {es : List Served} (h : Session π raid w es w') (hπ : ¬ π.reject) (hw : w.flights = 0) :
    FlatArray.Explains (flat raid w.bus.store) es ∧
      flat raid w'.bus.store = es.foldl FlatArray.apply (flat raid w.bus.store) := by
  induction h with
  | done w => exact ⟨trivial, rfl⟩
  | serve r rc hr h _ ih =>
    obtain ⟨hread, happly⟩ := h.flat hπ hr hw
    obtain ⟨w₁, _, _, hidle⟩ := h
    obtain ⟨hexp, hfinal⟩ := ih hidle
    rw [happly] at hexp hfinal
    exact ⟨⟨hread, hexp⟩, hfinal⟩
  | @caller w w₁ w' es hdisk hflights _ ih =>
    have hsame : PcapReplay.flat raid w₁.bus.store = PcapReplay.flat raid w.bus.store := by
      funext b a
      exact congrFun (hdisk _) _
    rw [← hsame]
    exact ih (hflights.trans hw)

/-- The raid is a flat array: over any session every read returns what was written last, every
request has the effect of its blocks taken one by one, and its commands are those of its blocks. -/
theorem raid_flat (hπ : ¬ π.reject) (raid : NvmeRaid n) :
    (∀ w es w', w.flights = 0 → Session π raid w es w' →
      FlatArray.Explains (flat raid w.bus.store) es ∧
        flat raid w'.bus.store = es.foldl FlatArray.apply (flat raid w.bus.store)) ∧
    (∀ r : Request, r.Valid → ∀ w, w.flights = 0 →
      (∃ rc w', r.Serves π raid w rc w') ∧
        ∀ rc w', r.Serves π raid w rc w' → rc = 0 ∧ w'.bus.store = r.reference raid w.bus.store) ∧
    ∀ r : Request, r.Valid → ∃ cs, Submits raid (r.call raid) cs 0 ∧
      (cs.map Command.xfer).flatMap (Xfer.parts sectorLength) =
        (List.range' r.lba.toNat r.lbaCount.toNat).map fun b =>
          (blockCmd r.dir raid r.payload r.lba.toNat b).xfer := by
  refine ⟨fun w es w' hw h => h.flat hπ hw, fun r hr w hw => ⟨r.exists_serves π raid w, ?_⟩, ?_⟩
  · exact fun rc w' h => ⟨(h.effect hπ hr hw).1, h.reference_eq hπ hr hw⟩
  · intro r hr
    exact ⟨_, sioTransfer_submits r.dir raid r.payload r.lba r.lbaCount hr.1 hr.lt,
      pieces_parts r.dir raid r.payload _ _ hr.lt.le⟩

theorem raid_flat_two_disks : ∃ es w', es.length = 2 ∧
    Session ⟨False, False, False⟩ (attached fun _ : Fin 2 => 1024)
      ⟨⟨fun _ _ => 0, 0⟩, 0, 0, 1⟩ es w' ∧
    FlatArray.Explains (flat (attached fun _ : Fin 2 => 1024) fun _ _ => 0) es := by
  let raid : NvmeRaid 2 := attached fun _ => 1024
  let r : Request := ⟨.write, ⟨0, 0⟩, 700, 300⟩
  let r' : Request := ⟨.read, ⟨0, 0⟩, 600, 257⟩
  obtain ⟨rc, w₁, h⟩ := r.exists_serves ⟨False, False, False⟩ raid ⟨⟨fun _ _ => 0, 0⟩, 0, 0, 1⟩
  obtain ⟨rc', w₂, h'⟩ := r'.exists_serves ⟨False, False, False⟩ raid w₁
  have hsession : Session _ raid _ _ w₂ :=
    .serve r rc ⟨by decide, by decide⟩ h (.serve r' rc' ⟨by decide, by decide⟩ h' (.done w₂))
  exact ⟨_, w₂, rfl, hsession, ((raid_flat id raid).1 _ _ _ rfl hsession).1⟩

end
end PcapReplay
