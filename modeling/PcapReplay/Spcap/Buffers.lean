import PcapReplay.Spcap.Writer
import Mathlib.Data.List.FinRange
import Mathlib.Data.List.GetD

/-! What the staging buffers hold. The abstract state is one byte stream for each disk. -/

namespace PcapReplay
variable {n : ℕ}

abbrev Streams (n : ℕ) := Fin n → List UInt8

def bytesOf (size : ℕ) (payload : ℕ → UInt8) : List UInt8 := (List.range size).map payload

@[simp] theorem length_bytesOf (size : ℕ) (payload : ℕ → UInt8) :
    (bytesOf size payload).length = size := by
  simp [bytesOf]

def Streams.append (S : Streams n) (d : Fin n) (l : List UInt8) : Streams n :=
  Function.update S d (S d ++ l)

theorem Streams.append_append (S : Streams n) (d : Fin n) (l m : List UInt8) :
    (S.append d l).append d m = S.append d (l ++ m) := by
  simp [Streams.append]

def Streams.Fit (S : Streams n) : Prop := ∀ d, (S d).length ≤ buffSize

def Streams.Grows (S S' : Streams n) : Prop := ∀ d, (S d).length ≤ (S' d).length

theorem Streams.Fit.of_grows {S S' : Streams n} (h : S'.Fit) (hg : S.Grows S') : S.Fit := fun d =>
  (hg d).trans (h d)

theorem Streams.grows_append (S : Streams n) (d : Fin n) (l : List UInt8) :
    S.Grows (S.append d l) := by
  intro e
  by_cases h : e = d
  · subst h
    simp [Streams.append]
  · simp [Streams.append, h]

theorem Streams.grows_foldl {α : Type} {g : Streams n → α → Streams n}
    (hg : ∀ (S : Streams n) (x : α), S.Grows (g S x)) (l : List α) (S : Streams n) :
    S.Grows (l.foldl g S) := by
  induction l generalizing S with
  | nil => exact fun d => le_rfl
  | cons x xs ih => exact fun d => (hg S x d).trans (ih (g S x) d)

def Packet.record (p : Packet) : List UInt8 :=
  bytesOf headerLength (spcapHeader 0 p.len.toNat p.caplen.toNat) ++ bytesOf p.len.toNat p.payload

def Streams.route [NeZero n] (S : Streams n) (p : Packet) : Streams n :=
  S.append (spcapDstDisk fun d => (S d).length) p.record

def streams [NeZero n] (pkts : List Packet) : Streams n := pkts.foldl Streams.route fun _ => []

def zeroHeader : List UInt8 := bytesOf headerLength (spcapHeader 0 0 0)

/-- The streams with the header that `freeSpcap` puts behind each. -/
def captured [NeZero n] (pkts : List Packet) : Streams n := fun d => streams pkts d ++ zeroHeader

theorem copied_stream (l : List UInt8) (size : ℕ) (payload : ℕ → UInt8) :
    copied (fun a => l.getD a 0) l.length size payload =
      fun a => (l ++ bytesOf size payload).getD a 0 := by
  funext a
  unfold copied
  split_ifs with h
  · have hr : a - l.length < size := by omega
    rw [List.getD_append_right _ _ _ _ h.1]
    simp [bytesOf, hr]
  · show l.getD a 0 = (l ++ bytesOf size payload).getD a 0
    rcases Nat.lt_or_ge a l.length with ha | ha
    · rw [List.getD_append _ _ _ _ ha]
    · have hfar : (bytesOf size payload).length ≤ a - l.length := by
        rw [length_bytesOf]
        omega
      rw [List.getD_append_right _ _ _ _ ha, List.getD_eq_default _ _ ha,
        List.getD_eq_default _ _ hfar]

namespace Spcap

def filled (sp : Spcap n) (d : Fin n) (buff : ℕ → UInt8) (w : ℕ) : Spcap n :=
  { sp with
    buffs := Function.update sp.buffs d (some buff)
    dataWrote := Function.update sp.dataWrote d w
    currPtr := Function.update sp.currPtr d w }

section filled
variable (sp : Spcap n) (d : Fin n) (buff : ℕ → UInt8) (w : ℕ)

@[simp] theorem filled_buffs : (sp.filled d buff w).buffs d = some buff := Function.update_self _ _ _

@[simp] theorem filled_dataWrote : (sp.filled d buff w).dataWrote d = w := Function.update_self _ _ _

@[simp] theorem filled_currPtr : (sp.filled d buff w).currPtr d = w := Function.update_self _ _ _

theorem filled_filled (buff' : ℕ → UInt8) (w' : ℕ) :
    (sp.filled d buff w).filled d buff' w' = sp.filled d buff' w' := by
  simp only [filled, Function.update_idem]

end filled

section put
variable {sp : Spcap n} {d : Fin n} {buff : ℕ → UInt8} (hb : sp.buffs d = some buff)
  (hp : sp.currPtr d = sp.dataWrote d)
include hb hp

theorem put_of_le {k : ℕ} {payload : ℕ → UInt8} (hk : sp.dataWrote d + k ≤ buffSize) :
    sp.put d k payload =
      some (sp.filled d (copied buff (sp.dataWrote d) k payload) (sp.dataWrote d + k)) := by
  unfold put filled
  simp only [hb, hp, if_neg (Nat.not_lt.mpr hk)]

theorem put_of_lt {k : ℕ} {payload : ℕ → UInt8} (hk : buffSize < sp.dataWrote d + k) :
    sp.put d k payload = none := by
  unfold put
  simp only [hb, hp, if_pos hk]

end put

theorem writeBuff_step {sp : Spcap n} {d : Fin n} {buff : ℕ → UInt8} (hb : sp.buffs d = some buff)
    (hp : sp.currPtr d = sp.dataWrote d) {size toWrite : ℕ} {payload : ℕ → UInt8}
    (htw : (if superSectorLength < sp.dataWrote d % superSectorLength + size then
      superSectorLength - sp.dataWrote d % superSectorLength else size) = toWrite)
    (hpos : 0 < sp.dataWrote d + size) (hnear : sp.dataWrote d + toWrite ≤ buffSize) :
    writeBuff sp d size payload =
      if size - toWrite = 0 then
        some (sp.filled d (copied buff (sp.dataWrote d) toWrite payload) (sp.dataWrote d + toWrite))
      else
        writeBuff (sp.filled d (copied buff (sp.dataWrote d) toWrite payload)
          (sp.dataWrote d + toWrite)) d (size - toWrite) payload := by
  have hused : sp.dataWrote d % superSectorLength < superSectorLength := Nat.mod_lt _ (by decide)
  have hnz : sp.dataWrote d + toWrite ≠ 0 := by
    rw [← htw]
    split_ifs <;> omega
  have hone : (if sp.dataWrote d + toWrite = 0 then 1 else 0) % superSectorLength = 0 := by
    rw [if_neg hnz, Nat.zero_mod]
  rw [writeBuff]
  simp only [htw, put_of_le hb hp hnear, Option.bind_some, filled, Function.update_self, hone,
    ne_eq, not_true_eq_false, if_false]
  rfl

theorem writeBuff_spec {sp : Spcap n} {d : Fin n} {buff : ℕ → UInt8} (hb : sp.buffs d = some buff)
    (hp : sp.currPtr d = sp.dataWrote d) {size : ℕ} (payload : ℕ → UInt8)
    (hpos : 0 < sp.dataWrote d + size) :
    (buffSize < sp.dataWrote d + size → writeBuff sp d size payload = none) ∧
      (sp.dataWrote d + size ≤ buffSize → ∃ buff',
        writeBuff sp d size payload = some (sp.filled d buff' (sp.dataWrote d + size)) ∧
        (sp.dataWrote d % superSectorLength + size ≤ superSectorLength →
          buff' = copied buff (sp.dataWrote d) size payload)) := by
  induction size using Nat.strong_induction_on generalizing sp buff with
  | _ size ih =>
    have hused : sp.dataWrote d % superSectorLength < superSectorLength := Nat.mod_lt _ (by decide)
    generalize htw : (if superSectorLength < sp.dataWrote d % superSectorLength + size then
      superSectorLength - sp.dataWrote d % superSectorLength else size) = toWrite
    have hle : toWrite ≤ size := by
      rw [← htw]
      split_ifs <;> omega
    rcases Nat.lt_or_ge buffSize (sp.dataWrote d + toWrite) with hfar | hnear
    · have hnone : writeBuff sp d size payload = none := by
        rw [writeBuff]
        simp only [htw, put_of_lt hb hp hfar, Option.bind_none]
      exact ⟨fun _ => hnone, fun h => by omega⟩
    · rw [writeBuff_step hb hp htw hpos hnear]
      split_ifs with hz
      · obtain rfl : toWrite = size := by omega
        exact ⟨fun h => by omega, fun _ => ⟨_, rfl, fun _ => rfl⟩⟩
      · -- a boundary is crossed, so nothing is claimed of the content
        have hlt : size - toWrite < size := by
          rw [← htw] at hz ⊢
          split_ifs at hz ⊢ <;> omega
        have hcross : ¬ sp.dataWrote d % superSectorLength + size ≤ superSectorLength := by
          intro h
          rw [if_neg (by omega)] at htw
          omega
        have hsum : sp.dataWrote d + toWrite + (size - toWrite) = sp.dataWrote d + size := by omega
        generalize hfirst : copied buff (sp.dataWrote d) toWrite payload = first
        obtain ⟨h₁, h₂⟩ := ih (size - toWrite) hlt (filled_buffs sp d first (sp.dataWrote d + toWrite))
          (by simp) (by rw [filled_dataWrote]; omega)
        simp only [filled_dataWrote, hsum, filled_filled] at h₁ h₂
        refine ⟨h₁, fun h => ?_⟩
        obtain ⟨buff', heq, _⟩ := h₂ h
        exact ⟨buff', heq, fun hc => absurd hc hcross⟩

/-- Since the state `sp₀` the streams `S` were written, and nothing was stored yet. -/
structure Holds (sp₀ sp : Spcap n) (S : Streams n) : Prop where
  file : sp.file = sp₀.file
  curlba : sp.curlba = sp₀.curlba
  wrote : sp.wrote = sp₀.wrote
  buff : ∀ d, ∃ buff, sp.buffs d = some buff ∧
    ((S d).length < superSectorLength → buff = fun a => (S d).getD a 0)
  ptr : ∀ d, sp.currPtr d = (S d).length
  data : ∀ d, sp.dataWrote d = (S d).length
  fit : S.Fit

theorem Holds.filled {sp₀ sp : Spcap n} {S : Streams n} (h : Holds sp₀ sp S) {d : Fin n}
    {l : List UInt8} {buff : ℕ → UInt8} (hfit : (S.append d l).Fit)
    (hbuff : (S d ++ l).length < superSectorLength → buff = fun a => (S d ++ l).getD a 0) :
    Holds sp₀ (sp.filled d buff (S d ++ l).length) (S.append d l) where
  file := h.file
  curlba := h.curlba
  wrote := h.wrote
  buff e := by
    by_cases he : e = d
    · subst he
      exact ⟨buff, by simp [Spcap.filled], by simpa [Streams.append] using hbuff⟩
    · simpa [Spcap.filled, Streams.append, he] using h.buff e
  ptr e := by
    by_cases he : e = d
    · subst he
      simp [Spcap.filled, Streams.append]
    · simp [Spcap.filled, Streams.append, he, h.ptr e]
  data e := by
    by_cases he : e = d
    · subst he
      simp [Spcap.filled, Streams.append]
    · simp [Spcap.filled, Streams.append, he, h.data e]
  fit := hfit

def Follows (sp₀ : Spcap n) (f : Spcap n → Option (Spcap n)) (S S' : Streams n) : Prop :=
  ∀ sp, Holds sp₀ sp S →
    (S'.Fit → ∃ sp', f sp = some sp' ∧ Holds sp₀ sp' S') ∧ (¬ S'.Fit → f sp = none)

theorem Follows.bind {sp₀ : Spcap n} {f g : Spcap n → Option (Spcap n)} {S S' S'' : Streams n}
    (hf : Follows sp₀ f S S') (hg : Follows sp₀ g S' S'') (hgrow : S'.Grows S'') :
    Follows sp₀ (fun sp => (f sp).bind g) S S'' := by
  intro sp h
  obtain ⟨h₁, h₂⟩ := hf sp h
  by_cases hfit : S'.Fit
  · obtain ⟨sp', he, h'⟩ := h₁ hfit
    simpa only [he, Option.bind_some] using hg sp' h'
  · have hnone := h₂ hfit
    refine ⟨fun h'' => absurd (h''.of_grows hgrow) hfit, fun _ => ?_⟩
    simp only [hnone, Option.bind_none]

theorem follows_foldlM {α : Type} {sp₀ : Spcap n} {f : Spcap n → α → Option (Spcap n)}
    {g : Streams n → α → Streams n} (hf : ∀ S x, Follows sp₀ (fun sp => f sp x) S (g S x))
    (hg : ∀ (S : Streams n) (x : α), S.Grows (g S x)) (l : List α) (S : Streams n) :
    Follows sp₀ (fun sp => l.foldlM f sp) S (l.foldl g S) := by
  induction l generalizing S with
  | nil => exact fun sp h => ⟨fun _ => ⟨sp, rfl, h⟩, fun hn => absurd h.fit hn⟩
  | cons x xs ih =>
    simp only [List.foldlM_cons, List.foldl_cons]
    exact (hf S x).bind (ih (g S x)) (Streams.grows_foldl hg xs (g S x))

theorem follows_writeBuff (sp₀ : Spcap n) (S : Streams n) (d : Fin n) (size : ℕ)
    (payload : ℕ → UInt8) (hpos : 0 < (S d).length + size) :
    Follows sp₀ (fun sp => writeBuff sp d size payload) S (S.append d (bytesOf size payload)) := by
  intro sp h
  obtain ⟨buff, hb, hcontent⟩ := h.buff d
  have hdata := h.data d
  have hfits : (S.append d (bytesOf size payload)).Fit ↔ (S d).length + size ≤ buffSize := by
    constructor
    · intro hfit
      simpa [Streams.append] using hfit d
    · intro hle e
      by_cases he : e = d
      · subst he
        simpa [Streams.append] using hle
      · simpa [Streams.append, he] using h.fit e
  obtain ⟨hfar, hnear⟩ := writeBuff_spec hb ((h.ptr d).trans hdata.symm) payload (by rwa [hdata])
  rw [hdata] at hfar hnear
  refine ⟨fun hfit => ?_, fun hfit => hfar (Nat.not_le.mp fun hle => hfit (hfits.mpr hle))⟩
  obtain ⟨buff', he, hb'⟩ := hnear (hfits.mp hfit)
  have hlen : (S d ++ bytesOf size payload).length = (S d).length + size := by simp
  rw [← hlen] at he
  refine ⟨_, he, h.filled hfit fun hlt => ?_⟩
  rw [hlen] at hlt
  have hmod : (S d).length % superSectorLength = (S d).length := Nat.mod_eq_of_lt (by omega)
  rw [hb' (by omega), hcontent (by omega)]
  exact copied_stream (S d) size payload

theorem follows_writePCAPPkt [NeZero n] (sp₀ : Spcap n) (S : Streams n) (p : Packet) :
    Follows sp₀ (fun sp => writePCAPPkt sp p) S (S.route p) := by
  intro sp h
  have hd : spcapDstDisk sp.dataWrote = spcapDstDisk fun d => (S d).length :=
    congrArg spcapDstDisk (funext h.data)
  generalize hdst : spcapDstDisk (fun d => (S d).length) = d at hd
  have hroute : S.route p = (S.append d (bytesOf headerLength
      (spcapHeader 0 p.len.toNat p.caplen.toNat))).append d (bytesOf p.len.toNat p.payload) := by
    rw [Streams.append_append, Streams.route, hdst, Packet.record]
  have hheader := follows_writeBuff sp₀ S d headerLength
    (spcapHeader 0 p.len.toNat p.caplen.toNat) (by simp [headerLength])
  have hpayload := follows_writeBuff sp₀ (S.append d (bytesOf headerLength
    (spcapHeader 0 p.len.toNat p.caplen.toNat))) d p.len.toNat p.payload
    (by simp [Streams.append, headerLength])
  have hboth := hheader.bind hpayload (Streams.grows_append _ d _) sp h
  rw [hroute]
  simpa only [writePCAPPkt, writePkt, hd] using hboth

theorem closed_eq (S : Streams n) :
    (List.finRange n).foldl (fun S d => S.append d zeroHeader) S = fun d => S d ++ zeroHeader := by
  have h : ∀ (l : List (Fin n)), l.Nodup → ∀ (S : Streams n) (d : Fin n),
      l.foldl (fun S d => S.append d zeroHeader) S d = if d ∈ l then S d ++ zeroHeader else S d := by
    intro l
    induction l with
    | nil => simp
    | cons e es ih =>
      intro hnodup S d
      obtain ⟨hnot, hes⟩ := List.nodup_cons.mp hnodup
      rw [List.foldl_cons, ih hes]
      by_cases hde : d = e
      · subst hde
        simp [hnot, Streams.append]
      · simp [hde, Streams.append]
  funext d
  rw [h _ (List.nodup_finRange n), if_pos (List.mem_finRange d)]

theorem follows_headers (sp₀ : Spcap n) (S : Streams n) :
    Follows sp₀
      (fun sp => (List.finRange n).foldlM
        (fun sp d => writeBuff sp d headerLength (spcapHeader 0 0 0)) sp)
      S (fun d => S d ++ zeroHeader) := by
  rw [← closed_eq]
  exact follows_foldlM
    (fun S d => follows_writeBuff sp₀ S d headerLength (spcapHeader 0 0 0) (by simp [headerLength]))
    (fun S d => S.grows_append d zeroHeader) (List.finRange n) S

def Dirty (sp : Spcap n) (d : Fin n) : Prop := sp.dataWrote d % superSectorLength ≠ 0

instance (sp : Spcap n) (d : Fin n) : Decidable (sp.Dirty d) :=
  inferInstanceAs (Decidable (_ ≠ _))

def pending (sp : Spcap n) (buff : Fin n → ℕ → UInt8) (d : Fin n) : SuperWrite n where
  disk := d
  lba := sp.curlba d
  data a := buff d (sp.dataWrote d - sp.dataWrote d % superSectorLength + a)

def advance (f : MetaFile) (k : ℕ) : MetaFile :=
  { f with endBlock := f.endBlock + UInt64.ofNat (k * superSectorNum) }

theorem advance_advance (f : MetaFile) (k m : ℕ) : advance (advance f k) m = advance f (k + m) := by
  simp only [advance, Nat.add_mul, UInt64.ofNat_add, UInt64.add_assoc]

def flushed (sp : Spcap n) (buff : Fin n → ℕ → UInt8) (d : Fin n) : Spcap n :=
  { sp with
    wrote := sp.wrote ++ [sp.pending buff d]
    curlba := Function.update sp.curlba d (sp.curlba d + UInt64.ofNat superSectorNum)
    file := advance sp.file 1 }

structure Ready (sp : Spcap n) (buff : Fin n → ℕ → UInt8) : Prop where
  buff : ∀ d, sp.buffs d = some (buff d)
  ptr : sp.currPtr = sp.dataWrote
  le : ∀ d, sp.dataWrote d ≤ buffSize

theorem Ready.flush_eq {sp : Spcap n} {buff : Fin n → ℕ → UInt8} (h : Ready sp buff) {d : Fin n}
    (hd : sp.Dirty d) : flushDisk sp d = some (sp.flushed buff d) := by
  have hle := h.le d
  have hptr := congrFun h.ptr d
  unfold Dirty at hd
  have hne : sp.dataWrote d ≠ buffSize := by
    simp only [superSectorLength_eq, buffSize_eq] at *
    omega
  have hin : ¬ (sp.dataWrote d < sp.dataWrote d % superSectorLength ∨
      buffSize < sp.dataWrote d - sp.dataWrote d % superSectorLength + superSectorLength) := by
    simp only [superSectorLength_eq, buffSize_eq] at *
    omega
  unfold flushDisk store
  rw [if_pos hd]
  simp only [h.buff, hptr, if_neg hin, if_neg hne, flushed, advance, Nat.one_mul]
  rfl

theorem flush_spec (ds : List (Fin n)) (hds : ds.Nodup) {sp : Spcap n} {buff : Fin n → ℕ → UInt8}
    (h : Ready sp buff) :
    ∃ sp', ds.foldlM flushDisk sp = some sp' ∧
      sp'.wrote = sp.wrote ++ (ds.filter sp.Dirty).map (sp.pending buff) ∧
      sp'.file = advance sp.file (ds.filter sp.Dirty).length := by
  induction ds generalizing sp with
  | nil => exact ⟨sp, rfl, by simp, by simp [advance]⟩
  | cons d ds ih =>
    obtain ⟨hnot, hnodup⟩ := List.nodup_cons.mp hds
    rw [List.foldlM_cons]
    by_cases hd : sp.Dirty d
    · have hready : Ready (sp.flushed buff d) buff := ⟨h.buff, h.ptr, h.le⟩
      obtain ⟨sp', he, hw, hf⟩ := ih hnodup hready
      have hdirty : ds.filter (sp.flushed buff d).Dirty = ds.filter sp.Dirty := rfl
      rw [hdirty] at hw hf
      have hpending : ∀ e ∈ ds.filter sp.Dirty, (sp.flushed buff d).pending buff e = sp.pending buff e := by
        intro e hmem
        have hne : e ≠ d := fun hed => hnot (hed ▸ (List.mem_filter.mp hmem).1)
        simp [pending, flushed, hne]
      refine ⟨sp', ?_, ?_, ?_⟩
      · rw [h.flush_eq hd]
        exact he
      · rw [hw, List.filter_cons_of_pos (by simpa using hd), List.map_cons]
        rw [List.map_congr_left hpending, flushed, List.append_assoc, List.singleton_append]
      · rw [hf, List.filter_cons_of_pos (by simpa using hd), List.length_cons, Nat.add_comm, flushed,
          advance_advance]
    · obtain ⟨sp', he, hw, hf⟩ := ih hnodup h
      have hskip : flushDisk sp d = some sp := if_neg hd
      refine ⟨sp', ?_, ?_, ?_⟩
      · rw [hskip]
        exact he
      · rw [hw, List.filter_cons_of_neg (by simpa using hd)]
      · rw [hf, List.filter_cons_of_neg (by simpa using hd)]

end Spcap
end PcapReplay
