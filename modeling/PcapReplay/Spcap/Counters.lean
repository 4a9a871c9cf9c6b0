import PcapReplay.Lib.Balance
import PcapReplay.Spcap.Writer
import Mathlib.Algebra.Order.Ring.Nat
import Mathlib.Algebra.BigOperators.Fin

/-! The counters `dataWrote` of a capture, whatever the buffers hold. -/

namespace PcapReplay
open Balance
variable {n : ℕ}

section loads
variable [NeZero n]

theorem foldl_least_le {ι : Type} (w : ι → ℕ) (l : List ι) (e : ι) :
    w (l.foldl (fun diskId i => if w i < w diskId then i else diskId) e) ≤ w e ∧
      ∀ i ∈ l, w (l.foldl (fun diskId i => if w i < w diskId then i else diskId) e) ≤ w i := by
  induction l generalizing e with
  | nil => simp
  | cons i is ih =>
    rw [List.foldl_cons]
    obtain ⟨hstart, hrest⟩ := ih (if w i < w e then i else e)
    have hboth : w (if w i < w e then i else e) ≤ w e ∧ w (if w i < w e then i else e) ≤ w i := by
      split_ifs with hlt
      · exact ⟨hlt.le, le_rfl⟩
      · exact ⟨le_rfl, Nat.not_lt.mp hlt⟩
    refine ⟨hstart.trans hboth.1, fun j hj => ?_⟩
    rcases List.mem_cons.mp hj with rfl | hj
    · exact hstart.trans hboth.2
    · exact hrest j hj

theorem spcapDstDisk_least (w : Fin n → ℕ) (d : Fin n) : w (spcapDstDisk w) ≤ w d :=
  (foldl_least_le w (List.finRange n) 0).2 d (List.mem_finRange d)

def loads (sizes : List ℕ) : Fin n → ℕ :=
  (sizes.map (headerLength + ·)).foldl (route spcapDstDisk) fun _ => 0

theorem loads_append (sizes : List ℕ) (size : ℕ) :
    (loads (sizes ++ [size]) : Fin n → ℕ) = route spcapDstDisk (loads sizes) (headerLength + size) := by
  simp only [loads, List.map_append, List.map_cons, List.map_nil, List.foldl_append, List.foldl_cons,
    List.foldl_nil]

theorem loads_le_append (sizes more : List ℕ) (d : Fin n) : loads sizes d ≤ loads (sizes ++ more) d := by
  unfold loads
  rw [List.map_append, List.foldl_append]
  exact le_foldl_route spcapDstDisk _ _ d

theorem sum_loads (sizes : List ℕ) :
    ∑ d, (loads sizes : Fin n → ℕ) d = (sizes.map (headerLength + ·)).sum := by
  unfold loads
  rw [sum_foldl_route, Finset.sum_const_zero, Nat.zero_add]

theorem loads_within {M : ℕ} {sizes : List ℕ} (h : ∀ size ∈ sizes, headerLength + size ≤ M) :
    Within M (loads sizes : Fin n → ℕ) := by
  apply (within_const M 0).foldl_route spcapDstDisk_least
  intro k hk
  obtain ⟨size, hsize, rfl⟩ := List.mem_map.mp hk
  exact h size hsize

end loads

namespace Counters

def toWrite (used size : UInt64) : UInt64 :=
  if UInt64.ofNat superSectorLength < used + size then UInt64.ofNat superSectorLength - used else size

theorem toNat_superSectorLength : (UInt64.ofNat superSectorLength).toNat = superSectorLength := by decide

theorem toNat_used_lt (w : UInt64) : (w % UInt64.ofNat superSectorLength).toNat < superSectorLength := by
  rw [UInt64.toNat_mod, toNat_superSectorLength]
  exact Nat.mod_lt _ (by decide)

theorem toWrite_cases {used : UInt64} (hused : used.toNat < superSectorLength) (size : UInt64) :
    toWrite used size = size ∨
      0 < (toWrite used size).toNat ∧ (toWrite used size).toNat ≤ size.toNat := by
  unfold toWrite
  split_ifs with hcross
  · right
    have hlt := UInt64.lt_iff_toNat_lt.mp hcross
    have hle : used ≤ UInt64.ofNat superSectorLength := by
      rw [UInt64.le_iff_toNat_le, toNat_superSectorLength]
      exact hused.le
    have hsize := size.toNat_lt
    rw [UInt64.toNat_add, toNat_superSectorLength] at hlt
    rw [UInt64.toNat_sub_of_le _ _ hle, toNat_superSectorLength]
    simp only [superSectorLength_eq] at *
    omega
  · exact Or.inl rfl

theorem toNat_rest_lt {used : UInt64} (hused : used.toNat < superSectorLength) {size : UInt64}
    (h : size - toWrite used size ≠ 0) : (size - toWrite used size).toNat < size.toNat := by
  rcases toWrite_cases hused size with hall | ⟨hpos, hle⟩
  · rw [hall, UInt64.sub_self] at h
    exact absurd rfl h
  · rw [UInt64.toNat_sub_of_le _ _ (UInt64.le_iff_toNat_le.mpr hle)]
    omega

def writeBuff (dataWrote : Fin n → UInt64) (d : Fin n) (size : UInt64) : Fin n → UInt64 :=
  let used := dataWrote d % UInt64.ofNat superSectorLength
  let rest := size - toWrite used size
  let dataWrote := Function.update dataWrote d (dataWrote d + toWrite used size)
  if _h : rest = 0 then dataWrote else writeBuff dataWrote d rest
termination_by size.toNat
decreasing_by exact toNat_rest_lt (toNat_used_lt _) _h

theorem writeBuff_eq_update (dataWrote : Fin n → UInt64) (d : Fin n) (size : UInt64) :
    writeBuff dataWrote d size = Function.update dataWrote d (dataWrote d + size) := by
  induction h : size.toNat using Nat.strong_induction_on generalizing size dataWrote with
  | _ m ih =>
    subst h
    have hsum (k : UInt64) : k + (size - k) = size := by
      rw [UInt64.add_comm, UInt64.sub_add_cancel]
    rw [writeBuff]
    by_cases hrest : size - toWrite (dataWrote d % UInt64.ofNat superSectorLength) size = 0
    · have hall := hsum (toWrite (dataWrote d % UInt64.ofNat superSectorLength) size)
      rw [hrest, UInt64.add_zero] at hall
      rw [dif_pos hrest, hall]
    · rw [dif_neg hrest, ih _ (toNat_rest_lt (toNat_used_lt _) hrest) _ _ rfl, Function.update_self,
        Function.update_idem, UInt64.add_assoc, hsum]

def initSpcap : Fin n → UInt64 := fun _ => 0

variable [NeZero n]

def writePkt (dataWrote : Fin n → UInt64) (size : UInt64) : Fin n → UInt64 :=
  let dstDisk := spcapDstDisk fun d => (dataWrote d).toNat
  writeBuff (writeBuff dataWrote dstDisk (UInt64.ofNat headerLength)) dstDisk size

def run (sizes : List UInt64) : Fin n → UInt64 := sizes.foldl writePkt initSpcap

def freeSpcap (dataWrote : Fin n → UInt64) : Fin n → UInt64 :=
  (List.finRange n).foldl (fun dataWrote d => writeBuff dataWrote d (UInt64.ofNat headerLength)) dataWrote

theorem toNat_writePkt {dataWrote : Fin n → UInt64} {w : Fin n → ℕ} (hw : ∀ d, (dataWrote d).toNat = w d)
    {size : UInt64} (hfit : ∀ d, route spcapDstDisk w (headerLength + size.toNat) d < 2 ^ 64) (d : Fin n) :
    (writePkt dataWrote size d).toNat = route spcapDstDisk w (headerLength + size.toNat) d := by
  have hdst : spcapDstDisk (fun d => (dataWrote d).toNat) = spcapDstDisk w :=
    congrArg spcapDstDisk (funext hw)
  have hcount : writePkt dataWrote size = Function.update dataWrote (spcapDstDisk w)
      (dataWrote (spcapDstDisk w) + UInt64.ofNat headerLength + size) := by
    unfold writePkt
    simp only [hdst, writeBuff_eq_update, Function.update_self, Function.update_idem]
  have hheader : (UInt64.ofNat headerLength).toNat = headerLength := rfl
  have hbound := hfit d
  rw [hcount]
  unfold route at hbound ⊢
  by_cases hd : d = spcapDstDisk w
  · subst hd
    rw [put_self] at hbound ⊢
    rw [Function.update_self, UInt64.toNat_add, UInt64.toNat_add, hw, hheader, Nat.mod_add_mod,
      Nat.add_assoc, Nat.mod_eq_of_lt hbound]
  · rw [Function.update_of_ne hd, put_of_ne _ _ hd, hw]

theorem toNat_run {sizes : List UInt64}
    (hfit : ∀ d, (loads (sizes.map UInt64.toNat) : Fin n → ℕ) d < 2 ^ 64) (d : Fin n) :
    (run sizes d).toNat = loads (sizes.map UInt64.toNat) d := by
  induction sizes using List.reverseRecOn generalizing d with
  | nil => rfl
  | append_singleton sizes size ih =>
    rw [List.map_append, List.map_singleton] at hfit ⊢
    have hbefore : ∀ e, (run sizes e).toNat = (loads (sizes.map UInt64.toNat) : Fin n → ℕ) e :=
      ih fun e => (loads_le_append _ [size.toNat] e).trans_lt (hfit e)
    rw [loads_append] at hfit ⊢
    rw [run, List.foldl_append]
    exact toNat_writePkt hbefore hfit d

omit [NeZero n] in
theorem freeSpcap_eq (dataWrote : Fin n → UInt64) (d : Fin n) :
    freeSpcap dataWrote d = dataWrote d + UInt64.ofNat headerLength := by
  have hlist : ∀ (l : List (Fin n)), l.Nodup → ∀ w : Fin n → UInt64,
      l.foldl (fun w e => writeBuff w e (UInt64.ofNat headerLength)) w d =
        if d ∈ l then w d + UInt64.ofNat headerLength else w d := by
    intro l hl
    induction l with
    | nil => exact fun w => rfl
    | cons e es ih =>
      intro w
      obtain ⟨hnot, hes⟩ := List.nodup_cons.mp hl
      rw [List.foldl_cons, ih hes, writeBuff_eq_update]
      by_cases hd : d = e
      · subst hd
        rw [if_neg hnot, if_pos List.mem_cons_self, Function.update_self]
      · simp only [List.mem_cons, hd, false_or, Function.update_of_ne hd]
  rw [freeSpcap, hlist _ (List.nodup_finRange n), if_pos (List.mem_finRange d)]

/-- At every time the counters of two disks differ by one record at most and come to what was
written, and the headers of `freeSpcap` raise each alike. -/
theorem run_balanced {M : ℕ} {sizes : List UInt64} (hM : ∀ size ∈ sizes, headerLength + size.toNat ≤ M)
    (hfit : ∀ d, (loads (sizes.map UInt64.toNat) : Fin n → ℕ) d < 2 ^ 64) :
    (∀ before, before <+: sizes →
      (∀ d e : Fin n, (run before d).toNat ≤ (run before e).toNat + M) ∧
      ∑ d : Fin n, (run before d).toNat = (before.map fun size => headerLength + size.toNat).sum) ∧
    ((∀ d, (loads (sizes.map UInt64.toNat) : Fin n → ℕ) d + headerLength < 2 ^ 64) →
      ∀ d : Fin n, (freeSpcap (run sizes) d).toNat = (run sizes d).toNat + headerLength) ∧
    ∀ d : Fin n, (sizes.map fun size => headerLength + size.toNat).sum ≤ n * ((run sizes d).toNat + M) := by
  have hwithin : ∀ before, before <+: sizes →
      (∀ d, (run before d).toNat = (loads (before.map UInt64.toNat) : Fin n → ℕ) d) ∧
        Within M (loads (before.map UInt64.toNat) : Fin n → ℕ) := by
    rintro before ⟨more, rfl⟩
    rw [List.map_append] at hfit
    refine ⟨toNat_run fun d => (loads_le_append _ _ d).trans_lt (hfit d), loads_within fun k hk => ?_⟩
    obtain ⟨size, hsize, rfl⟩ := List.mem_map.mp hk
    exact hM size (List.mem_append_left more hsize)
  have hsum : ∀ before : List UInt64, ∑ d, (loads (before.map UInt64.toNat) : Fin n → ℕ) d =
      (before.map fun size => headerLength + size.toNat).sum := by
    intro before
    rw [sum_loads, List.map_map]
    rfl
  obtain ⟨hrun, hall⟩ := hwithin sizes (List.prefix_refl sizes)
  refine ⟨fun before hbefore => ?_, fun hroom d => ?_, fun d => ?_⟩
  · obtain ⟨heq, hw⟩ := hwithin before hbefore
    simp only [heq]
    exact ⟨hw, hsum before⟩
  · have hheader : (UInt64.ofNat headerLength).toNat = headerLength := rfl
    rw [freeSpcap_eq, UInt64.toNat_add, hheader, hrun, Nat.mod_eq_of_lt (hroom d)]
  · have hbound := hall.sum_le d
    rwa [hsum, Fintype.card_fin, smul_eq_mul, ← hrun] at hbound

theorem run_balanced_two_disks :
    (run [60, 1400, 60] (1 : Fin 2)).toNat ≤ (run [60, 1400, 60] (0 : Fin 2)).toNat + 1408 ∧
      1544 ≤ 2 * ((run [60, 1400, 60] (0 : Fin 2)).toNat + 1408) := by
  have hM : ∀ size ∈ ([60, 1400, 60] : List UInt64), headerLength + size.toNat ≤ 1408 := by
    simp only [List.forall_mem_cons]
    exact ⟨by decide, by decide, by decide, fun _ h => absurd h List.not_mem_nil⟩
  have hfit : ∀ d, (loads (([60, 1400, 60] : List UInt64).map UInt64.toNat) : Fin 2 → ℕ) d < 2 ^ 64 := by
    decide
  obtain ⟨hrun, _, htotal⟩ := run_balanced hM hfit
  exact ⟨(hrun _ (List.prefix_refl _)).1 1 0, htotal 0⟩

end Counters
end PcapReplay
