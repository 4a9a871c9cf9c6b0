import Mathlib.Algebra.Order.Group.Multiset
import Mathlib.Data.List.Induction
import Mathlib.Data.List.Pairwise
import Mathlib.Logic.Relation

/-! Block transfers between address spaces that run on their own after they were submitted.
A transfer moves its data once, at any moment, and may leave the set of flights any time after
that. The results say when a batch of transfers is insensitive to that order, next to transfers
of others that keep away from it. -/

namespace Dma

abbrev Store (S β : Type) := S → ℕ → β

structure Xfer (S : Type) where
  src : S
  srcOff : ℕ
  dst : S
  dstOff : ℕ
  len : ℕ
deriving DecidableEq

variable {S Q β : Type}

namespace Xfer

def Reads (x : Xfer S) (s : S) (a : ℕ) : Prop := s = x.src ∧ x.srcOff ≤ a ∧ a < x.srcOff + x.len

def Writes (x : Xfer S) (s : S) (a : ℕ) : Prop := s = x.dst ∧ x.dstOff ≤ a ∧ a < x.dstOff + x.len

instance [DecidableEq S] (x : Xfer S) (s : S) (a : ℕ) : Decidable (x.Writes s a) :=
  inferInstanceAs (Decidable (_ ∧ _ ∧ _))

def exec [DecidableEq S] (x : Xfer S) (m : Store S β) : Store S β := fun s a =>
  if x.Writes s a then m x.src (x.srcOff + (a - x.dstOff)) else m s a

def InPlace (x : Xfer S) (m₀ m : Store S β) : Prop :=
  ∀ i < x.len, m x.dst (x.dstOff + i) = m₀ x.src (x.srcOff + i)

theorem reads_add (x : Xfer S) {i : ℕ} (hi : i < x.len) : x.Reads x.src (x.srcOff + i) :=
  ⟨rfl, by omega, by omega⟩

theorem writes_add (x : Xfer S) {i : ℕ} (hi : i < x.len) : x.Writes x.dst (x.dstOff + i) :=
  ⟨rfl, by omega, by omega⟩

def part (x : Xfer S) (u i : ℕ) : Xfer S :=
  { x with srcOff := x.srcOff + i * u, dstOff := x.dstOff + i * u, len := u }

def parts (u : ℕ) (x : Xfer S) : List (Xfer S) := (List.range (x.len / u)).map (x.part u)

section parts
variable {x : Xfer S} {u : ℕ}

theorem exists_part_iff (hx : u ∣ x.len) (i : ℕ) :
    i < x.len ↔ ∃ j < x.len / u, j * u ≤ i ∧ i < j * u + u := by
  obtain ⟨k, hk⟩ := hx
  rcases Nat.eq_zero_or_pos u with rfl | hu
  · simp [hk]
  rw [hk, Nat.mul_div_cancel_left k hu]
  constructor
  · intro hi
    refine ⟨i / u, Nat.div_lt_of_lt_mul hi, Nat.div_mul_le_self i u, ?_⟩
    have : i < i / u * u + u := Nat.lt_div_mul_add hu
    omega
  · rintro ⟨j, hj, _, hi⟩
    have hle : (j + 1) * u ≤ k * u := Nat.mul_le_mul_right u hj
    rw [Nat.succ_mul] at hle
    rw [Nat.mul_comm u k]
    omega

theorem reads_iff_parts (hx : u ∣ x.len) (s : S) (a : ℕ) :
    x.Reads s a ↔ ∃ p ∈ x.parts u, p.Reads s a := by
  have hcells := exists_part_iff hx (a - x.srcOff)
  simp only [parts, List.mem_map, List.mem_range, exists_exists_and_eq_and, Reads, part]
  constructor
  · rintro ⟨rfl, hle, hlt⟩
    obtain ⟨j, hj, h1, h2⟩ := hcells.mp (by omega)
    exact ⟨j, hj, rfl, by omega, by omega⟩
  · rintro ⟨j, hj, rfl, hle, hlt⟩
    have := hcells.mpr ⟨j, hj, by omega, by omega⟩
    exact ⟨rfl, by omega, by omega⟩

theorem writes_iff_parts (hx : u ∣ x.len) (s : S) (a : ℕ) :
    x.Writes s a ↔ ∃ p ∈ x.parts u, p.Writes s a := by
  have hcells := exists_part_iff hx (a - x.dstOff)
  simp only [parts, List.mem_map, List.mem_range, exists_exists_and_eq_and, Writes, part]
  constructor
  · rintro ⟨rfl, hle, hlt⟩
    obtain ⟨j, hj, h1, h2⟩ := hcells.mp (by omega)
    exact ⟨j, hj, rfl, by omega, by omega⟩
  · rintro ⟨j, hj, rfl, hle, hlt⟩
    have := hcells.mpr ⟨j, hj, by omega, by omega⟩
    exact ⟨rfl, by omega, by omega⟩

theorem inPlace_iff_parts (hx : u ∣ x.len) {m₀ m : Store S β} :
    x.InPlace m₀ m ↔ ∀ p ∈ x.parts u, p.InPlace m₀ m := by
  constructor
  · intro h p hp i hi
    obtain ⟨j, hj, rfl⟩ := List.mem_map.mp hp
    have hij : j * u + i < x.len := by
      refine (exists_part_iff hx _).mpr ⟨j, List.mem_range.mp hj, by omega, ?_⟩
      have : i < u := hi
      omega
    simp only [part, Nat.add_assoc]
    exact h _ hij
  · intro h i hi
    obtain ⟨j, hj, h1, h2⟩ := (exists_part_iff hx i).mp hi
    have hpart := h (x.part u j) (List.mem_map_of_mem (List.mem_range.mpr hj)) (i - j * u)
      (show i - j * u < u by omega)
    simp only [part, Nat.add_assoc, Nat.add_sub_cancel' h1] at hpart
    exact hpart

end parts

variable [DecidableEq S]

theorem exec_of_not_writes {x : Xfer S} {s : S} {a : ℕ} (h : ¬ x.Writes s a) (m : Store S β) :
    x.exec m s a = m s a := if_neg h

theorem exec_dst (x : Xfer S) {i : ℕ} (hi : i < x.len) (m : Store S β) :
    x.exec m x.dst (x.dstOff + i) = m x.src (x.srcOff + i) := by
  rw [exec, if_pos (x.writes_add hi), Nat.add_sub_cancel_left]

theorem InPlace.exec_of_apart {x y : Xfer S} {m₀ m : Store S β} (h : x.InPlace m₀ m)
    (hxy : ∀ s a, x.Writes s a → ¬ y.Writes s a) : x.InPlace m₀ (y.exec m) := by
  intro i hi
  rw [exec_of_not_writes (hxy _ _ (x.writes_add hi)), h i hi]

def execAll (xs : List (Xfer S)) (m : Store S β) : Store S β := xs.foldl (fun m x => x.exec m) m

end Xfer

/-- In the region, `m` is `m₀` after the transfers of `X`, each of which has read from `m₀`. -/
structure Effect (own : S → ℕ → Prop) (X : Multiset (Xfer S)) (m₀ m : Store S β) : Prop where
  inPlace : ∀ x ∈ X, x.InPlace m₀ m
  kept : ∀ s a, own s a → (∀ x ∈ X, ¬ x.Writes s a) → m s a = m₀ s a

section Effect
variable {own : S → ℕ → Prop} {m₀ m : Store S β}

theorem Effect.unique {X : Multiset (Xfer S)} {m' : Store S β} (h : Effect own X m₀ m)
    (h' : Effect own X m₀ m') {s : S} {a : ℕ} (hs : own s a) : m s a = m' s a := by
  by_cases hw : ∃ x ∈ X, x.Writes s a
  · obtain ⟨x, hx, rfl, hle, hlt⟩ := hw
    have hi : a - x.dstOff < x.len := by omega
    have hcell := (h.inPlace x hx _ hi).trans (h'.inPlace x hx _ hi).symm
    rwa [Nat.add_sub_cancel' hle] at hcell
  · push Not at hw
    exact (h.kept s a hs hw).trans (h'.kept s a hs hw).symm

theorem Effect.congr_source {X : Multiset (Xfer S)} {m₁ : Store S β} (h : Effect own X m₁ m)
    (hX : ∀ x ∈ X, ∀ s a, x.Reads s a → own s a) (hm : ∀ s a, own s a → m₁ s a = m₀ s a) :
    Effect own X m₀ m where
  inPlace x hx i hi := (h.inPlace x hx i hi).trans (hm _ _ (hX x hx _ _ (x.reads_add hi)))
  kept s a hs hw := (h.kept s a hs hw).trans (hm s a hs)

theorem Effect.parts {xs : List (Xfer S)} {u : ℕ} (hu : ∀ x ∈ xs, u ∣ x.len)
    (h : Effect own (xs : Multiset (Xfer S)) m₀ m) :
    Effect own (xs.flatMap (Xfer.parts u) : Multiset (Xfer S)) m₀ m where
  inPlace p hp := by
    obtain ⟨x, hx, hpx⟩ := List.mem_flatMap.mp (Multiset.mem_coe.mp hp)
    exact (Xfer.inPlace_iff_parts (hu x hx)).mp (h.inPlace x (Multiset.mem_coe.mpr hx)) p hpx
  kept s a hs hw := by
    apply h.kept s a hs
    intro x hx hxw
    obtain ⟨p, hp, hpw⟩ := (Xfer.writes_iff_parts (hu x (Multiset.mem_coe.mp hx)) s a).mp hxw
    exact hw p (Multiset.mem_coe.mpr (List.mem_flatMap.mpr ⟨x, Multiset.mem_coe.mp hx, hp⟩)) hpw

end Effect

structure Flight (S Q : Type) where
  xfer : Xfer S
  queue : Q
  moved : Bool

structure Bus (S Q β : Type) where
  store : Store S β
  flights : Multiset (Flight S Q)

namespace Bus

def submit (b : Bus S Q β) (x : Xfer S) (q : Q) : Bus S Q β :=
  { b with flights := ⟨x, q, false⟩ ::ₘ b.flights }

def Completes (q : Q) (k : ℕ) (b b' : Bus S Q β) : Prop :=
  b'.store = b.store ∧ ∃ r : Multiset (Flight S Q),
    r.card = k ∧ b.flights = r + b'.flights ∧ ∀ f ∈ r, f.queue = q ∧ f.moved = true

inductive Drop : Bus S Q β → Bus S Q β → Prop
  | mk (m : Store S β) (f : Flight S Q) (fs : Multiset (Flight S Q)) (hf : f.moved = true) :
      Drop ⟨m, f ::ₘ fs⟩ ⟨m, fs⟩

/-- The transfers stay in the region, none reads what one of them writes, and no two write the
same cell. -/
structure Batch (own : S → ℕ → Prop) (X : Multiset (Xfer S)) : Prop where
  reads_own : ∀ x ∈ X, ∀ s a, x.Reads s a → own s a
  writes_own : ∀ x ∈ X, ∀ s a, x.Writes s a → own s a
  apart : ∀ x ∈ X, ∀ y ∈ X, ∀ s a, x.Reads s a → ¬ y.Writes s a
  disjoint : ∀ x ∈ X, ∀ y ∈ X, x ≠ y → ∀ s a, x.Writes s a → ¬ y.Writes s a

theorem Batch.of_le {own : S → ℕ → Prop} {X Y : Multiset (Xfer S)} (hY : Batch own Y) (h : X ≤ Y) :
    Batch own X where
  reads_own x hx := hY.reads_own x (Multiset.mem_of_le h hx)
  writes_own x hx := hY.writes_own x (Multiset.mem_of_le h hx)
  apart x hx y hy := hY.apart x (Multiset.mem_of_le h hx) y (Multiset.mem_of_le h hy)
  disjoint x hx y hy := hY.disjoint x (Multiset.mem_of_le h hx) y (Multiset.mem_of_le h hy)

theorem Batch.of_parts {own : S → ℕ → Prop} {xs : List (Xfer S)} {u : ℕ} (hu : ∀ x ∈ xs, u ∣ x.len)
    (hnodup : (xs.flatMap (Xfer.parts u)).Nodup)
    (h : Batch own (xs.flatMap (Xfer.parts u) : Multiset (Xfer S))) :
    Batch own (xs : Multiset (Xfer S)) := by
  have hpart : ∀ x ∈ xs, ∀ p ∈ x.parts u, p ∈ (xs.flatMap (Xfer.parts u) : Multiset (Xfer S)) :=
    fun x hx p hp => Multiset.mem_coe.mpr (List.mem_flatMap.mpr ⟨x, hx, hp⟩)
  have hreads : ∀ x ∈ xs, ∀ s a, x.Reads s a → ∃ p ∈ x.parts u, p.Reads s a :=
    fun x hx s a => (Xfer.reads_iff_parts (hu x hx) s a).mp
  have hwrites : ∀ x ∈ xs, ∀ s a, x.Writes s a → ∃ p ∈ x.parts u, p.Writes s a :=
    fun x hx s a => (Xfer.writes_iff_parts (hu x hx) s a).mp
  simp only [← Multiset.mem_coe] at hreads hwrites hpart
  constructor
  · intro x hx s a hr
    obtain ⟨p, hp, hpr⟩ := hreads x hx s a hr
    exact h.reads_own p (hpart x hx p hp) s a hpr
  · intro x hx s a hw
    obtain ⟨p, hp, hpw⟩ := hwrites x hx s a hw
    exact h.writes_own p (hpart x hx p hp) s a hpw
  · intro x hx y hy s a hr hw
    obtain ⟨p, hp, hpr⟩ := hreads x hx s a hr
    obtain ⟨q, hq, hqw⟩ := hwrites y hy s a hw
    exact h.apart p (hpart x hx p hp) q (hpart y hy q hq) s a hpr hqw
  · intro x hx y hy hxy s a hwx hwy
    obtain ⟨p, hp, hpw⟩ := hwrites x hx s a hwx
    obtain ⟨q, hq, hqw⟩ := hwrites y hy s a hwy
    -- a part is one of a single transfer
    have hpq : p ≠ q := by
      rintro rfl
      have hsymm : Std.Symm (Function.onFun List.Disjoint fun x : Xfer S => x.parts u) :=
        ⟨fun _ _ h => List.Disjoint.symm h⟩
      have hdisj := (List.nodup_flatMap.mp hnodup).2.forall (Multiset.mem_coe.mp hx)
        (Multiset.mem_coe.mp hy) hxy
      exact hdisj hp hq
    exact h.disjoint p (hpart x hx p hp) q (hpart y hy q hq) hpq s a hpw hqw

def Avoids (own : S → ℕ → Prop) (b : Bus S Q β) : Prop :=
  ∀ f ∈ b.flights, ∀ s a, f.xfer.Reads s a ∨ f.xfer.Writes s a → ¬ own s a

theorem avoids_of_idle {own : S → ℕ → Prop} {b : Bus S Q β} (hb : b.flights = 0) : b.Avoids own := by
  intro f hf
  rw [hb] at hf
  exact absurd hf (Multiset.notMem_zero f)

structure Confined (own : S → ℕ → Prop) (m₀ : Store S β) (b : Bus S Q β) : Prop where
  writes : ∀ f ∈ b.flights, ∀ s a, f.xfer.Writes s a → own s a
  kept : ∀ s a, ¬ own s a → b.store s a = m₀ s a

section Confined
variable {own : S → ℕ → Prop} {m₀ : Store S β} {b b' : Bus S Q β}

theorem confined_of_idle (hb : b.flights = 0) : Confined own b.store b where
  writes f hf := by
    rw [hb] at hf
    exact absurd hf (Multiset.notMem_zero f)
  kept _ _ _ := rfl

theorem Confined.submit (h : Confined own m₀ b) {x : Xfer S} (q : Q)
    (hx : ∀ s a, x.Writes s a → own s a) : Confined own m₀ (b.submit x q) where
  writes f hf := by
    rcases Multiset.mem_cons.mp hf with rfl | hf
    · exact hx
    · exact h.writes f hf
  kept := h.kept

theorem Confined.setStore (h : Confined own m₀ b) {m : Store S β}
    (hm : ∀ s a, ¬ own s a → m s a = b.store s a) : Confined own m₀ { b with store := m } where
  writes := h.writes
  kept s a hs := (hm s a hs).trans (h.kept s a hs)

theorem Confined.completes (h : Confined own m₀ b) {q : Q} {k : ℕ} (hc : Completes q k b b') :
    Confined own m₀ b' := by
  obtain ⟨hstore, r, _, hfl, _⟩ := hc
  constructor
  · intro f hf
    apply h.writes f
    rw [hfl]
    exact Multiset.mem_add.mpr (Or.inr hf)
  · intro s a hs
    rw [hstore]
    exact h.kept s a hs

end Confined

variable [DecidableEq S]

inductive Move : Bus S Q β → Bus S Q β → Prop
  | mk (m : Store S β) (f : Flight S Q) (fs : Multiset (Flight S Q)) (hf : f.moved = false) :
      Move ⟨m, f ::ₘ fs⟩ ⟨f.xfer.exec m, { f with moved := true } ::ₘ fs⟩

def Drift : Bus S Q β → Bus S Q β → Prop := Relation.ReflTransGen Move

def Evolves : Bus S Q β → Bus S Q β → Prop := Relation.ReflTransGen fun b b' => Move b b' ∨ Drop b b'

theorem Drift.card {b b' : Bus S Q β} (h : Drift b b') : b'.flights.card = b.flights.card := by
  induction h with
  | refl => rfl
  | tail _ hm ih => cases hm; simpa using ih

theorem Drift.evolves {b b' : Bus S Q β} (h : Drift b b') : Evolves b b' :=
  Relation.ReflTransGen.mono (fun _ _ hm => Or.inl hm) _ _ h

theorem Evolves.of_idle {b b' : Bus S Q β} (h : Evolves b b') (hb : b.flights = 0) : b' = b := by
  induction h with
  | refl => rfl
  | tail _ hm ih =>
    subst ih
    rcases hm with hm | hm <;> cases hm <;> exact absurd hb (Multiset.cons_ne_zero)

theorem Drift.map_queue {b b' : Bus S Q β} (h : Drift b b') :
    b'.flights.map Flight.queue = b.flights.map Flight.queue := by
  induction h with
  | refl => rfl
  | tail _ hm ih => cases hm; simpa using ih

theorem exists_drift_moved (b : Bus S Q β) :
    ∃ b', Drift b b' ∧ ∀ f ∈ b'.flights, f.moved = true := by
  obtain ⟨m, fs⟩ := b
  -- the transfers of `done` have moved already
  suffices h : ∀ (todo done : Multiset (Flight S Q)) (m : Store S β), (∀ f ∈ done, f.moved = true) →
      ∃ b', Drift ⟨m, todo + done⟩ b' ∧ ∀ f ∈ b'.flights, f.moved = true by
    simpa using h fs 0 m (by simp)
  intro todo
  induction todo using Multiset.induction_on with
  | empty =>
    intro done m hdone
    exact ⟨⟨m, 0 + done⟩, .refl, by simpa using hdone⟩
  | cons f todo ih =>
    intro done m hdone
    by_cases hf : f.moved = true
    · obtain ⟨b', hd, hb'⟩ := ih (f ::ₘ done) m fun g hg => by
        rcases Multiset.mem_cons.mp hg with rfl | hg
        · exact hf
        · exact hdone g hg
      exact ⟨b', by rwa [Multiset.cons_add, ← Multiset.add_cons], hb'⟩
    · obtain ⟨b', hd, hb'⟩ := ih ({ f with moved := true } ::ₘ done) (f.xfer.exec m) fun g hg => by
        rcases Multiset.mem_cons.mp hg with rfl | hg
        · rfl
        · exact hdone g hg
      refine ⟨b', Relation.ReflTransGen.head ?_ hd, hb'⟩
      rw [Multiset.cons_add, Multiset.add_cons]
      exact .mk m f (todo + done) (by simpa using hf)

theorem exists_completes_queue [DecidableEq Q] (q : Q) (b : Bus S Q β) :
    ∃ b₁ k b', Drift b b₁ ∧ Completes q k b₁ b' ∧
      b'.flights.map Flight.queue = (b.flights.map Flight.queue).filter (· ≠ q) := by
  obtain ⟨b₁, hd, hmoved⟩ := exists_drift_moved b
  refine ⟨b₁, _, ⟨b₁.store, b₁.flights.filter fun f => ¬ f.queue = q⟩, hd,
    ⟨rfl, b₁.flights.filter fun f => f.queue = q, rfl, ?_, ?_⟩, ?_⟩
  · exact (Multiset.filter_add_not _ _).symm
  · intro f hf
    rw [Multiset.mem_filter] at hf
    exact ⟨hf.2, hmoved f hf.1⟩
  · rw [← hd.map_queue, Multiset.filter_map]
    rfl

theorem exists_settled (b : Bus S Q β) : ∃ b', Evolves b b' ∧ b'.flights = 0 := by
  obtain ⟨⟨m, fs⟩, hd, hmoved⟩ := exists_drift_moved b
  have hdrops : ∀ fs : Multiset (Flight S Q), (∀ f ∈ fs, f.moved = true) →
      Evolves (⟨m, fs⟩ : Bus S Q β) ⟨m, 0⟩ := by
    intro fs
    induction fs using Multiset.induction_on with
    | empty => exact fun _ => .refl
    | cons f fs ih =>
      intro h
      exact Relation.ReflTransGen.head (Or.inr (.mk m f fs (h f (Multiset.mem_cons_self f fs))))
        (ih fun g hg => h g (Multiset.mem_cons_of_mem hg))
  exact ⟨⟨m, 0⟩, (hd.evolves).trans (hdrops fs hmoved), rfl⟩

theorem Evolves.avoids {own : S → ℕ → Prop} {b b' : Bus S Q β} (h : Evolves b b')
    (hb : b.Avoids own) : b'.Avoids own := by
  induction h with
  | refl => exact hb
  | tail _ hm ih =>
    rcases hm with hm | hm
    · obtain ⟨m, f, fs, _⟩ := hm
      intro g hg
      rcases Multiset.mem_cons.mp hg with rfl | hg
      · exact ih f (Multiset.mem_cons_self f fs)
      · exact ih g (Multiset.mem_cons_of_mem hg)
    · obtain ⟨m, f, fs, _⟩ := hm
      exact fun g hg => ih g (Multiset.mem_cons_of_mem hg)

theorem Batch.effect_execAll {own : S → ℕ → Prop} {xs : List (Xfer S)}
    (h : Batch own (xs : Multiset (Xfer S))) (m₀ : Store S β) :
    Effect own (xs : Multiset (Xfer S)) m₀ (Xfer.execAll xs m₀) := by
  induction xs using List.reverseRecOn with
  | nil => exact ⟨by simp, fun _ _ _ _ => rfl⟩
  | append_singleton xs x ih =>
    have hxs : (xs : Multiset (Xfer S)) ≤ (xs ++ [x] : List (Xfer S)) :=
      Multiset.coe_le.mpr (List.sublist_append_left xs [x]).subperm
    have hx : x ∈ ((xs ++ [x] : List (Xfer S)) : Multiset (Xfer S)) := by simp
    have he := ih (h.of_le hxs)
    have hrun : Xfer.execAll (xs ++ [x]) m₀ = x.exec (Xfer.execAll xs m₀) := by
      rw [Xfer.execAll, List.foldl_append]
      rfl
    have hplace : x.InPlace m₀ (x.exec (Xfer.execAll xs m₀)) := by
      intro i hi
      rw [Xfer.exec_dst _ hi]
      apply he.kept _ _ (h.reads_own x hx _ _ (x.reads_add hi))
      exact fun y hy => h.apart x hx y (Multiset.mem_of_le hxs hy) _ _ (x.reads_add hi)
    rw [hrun]
    constructor
    · intro y hy
      by_cases hyx : y = x
      · rwa [hyx]
      · have hy' : y ∈ (xs : Multiset (Xfer S)) := by
          rw [Multiset.mem_coe, List.mem_append, List.mem_singleton] at hy
          exact Multiset.mem_coe.mpr (hy.resolve_right hyx)
        exact (he.inPlace y hy').exec_of_apart (h.disjoint y hy x hx hyx)
    · intro s a hs hw
      rw [Xfer.exec_of_not_writes (hw x hx)]
      exact he.kept s a hs fun y hy => hw y (Multiset.mem_of_le hxs hy)

theorem Batch.effect_add {own : S → ℕ → Prop} {X Y : Multiset (Xfer S)} (h : Batch own (X + Y))
    {m₀ m₁ m : Store S β} (hX : Effect own X m₀ m₁) (hY : Effect own Y m₁ m) :
    Effect own (X + Y) m₀ m := by
  have hinX : ∀ x ∈ X, x ∈ X + Y := fun x hx => Multiset.mem_add.mpr (Or.inl hx)
  have hinY : ∀ y ∈ Y, y ∈ X + Y := fun y hy => Multiset.mem_add.mpr (Or.inr hy)
  have hplaceY : ∀ y ∈ Y, y.InPlace m₀ m := by
    intro y hy i hi
    rw [hY.inPlace y hy i hi]
    have hr := y.reads_add hi
    exact hX.kept _ _ (h.reads_own y (hinY y hy) _ _ hr)
      fun x hx => h.apart y (hinY y hy) x (hinX x hx) _ _ hr
  constructor
  · intro x hx
    rcases Multiset.mem_add.mp hx with hxX | hxY
    · by_cases hxY : x ∈ Y
      · exact hplaceY x hxY
      · intro i hi
        have hw := x.writes_add hi
        have hkept := hY.kept _ _ (h.writes_own x hx _ _ hw) fun y hy =>
          h.disjoint x hx y (hinY y hy) (fun hxy => hxY (hxy ▸ hy)) _ _ hw
        rw [hkept, hX.inPlace x hxX i hi]
    · exact hplaceY x hxY
  · intro s a hs hw
    rw [hY.kept s a hs fun y hy => hw y (hinY y hy), hX.kept s a hs fun x hx => hw x (hinX x hx)]

theorem Evolves.store_eq {own : S → ℕ → Prop} {b b' : Bus S Q β} (h : Evolves b b') (hb : b.Avoids own)
    {s : S} {a : ℕ} (hs : own s a) : b'.store s a = b.store s a := by
  induction h with
  | refl => rfl
  | tail hrun hm ih =>
    have havoid := Evolves.avoids hrun hb
    rcases hm with hm | hm
    · obtain ⟨m, f, fs, _⟩ := hm
      exact (Xfer.exec_of_not_writes
        (fun hw => havoid f (Multiset.mem_cons_self f fs) s a (Or.inr hw) hs) m).trans ih
    · obtain ⟨m, f, fs, _⟩ := hm
      exact ih

/-- The state of a batch `X` submitted from the memory `m₀`, in a call entered in `b₀`: outside
the region everything is as the transfers of `b₀` alone leave it; inside, each transfer of `X`
is pending or has its data in place, and the other cells are as in `m₀`. -/
structure Staged (own : S → ℕ → Prop) (b₀ : Bus S Q β) (m₀ : Store S β) (X : Multiset (Xfer S))
    (b : Bus S Q β) (mine : Multiset (Flight S Q)) (v : Bus S Q β) : Prop where
  evolves : Evolves b₀ v
  flights_eq : b.flights = mine + v.flights
  frame : ∀ s a, ¬ own s a → b.store s a = v.store s a
  kept : ∀ s a, own s a → (∀ x ∈ X, ¬ x.Writes s a) → b.store s a = m₀ s a
  mem : ∀ f ∈ mine, f.xfer ∈ X
  data : ∀ x ∈ X, (∃ f ∈ mine, f.xfer = x ∧ f.moved = false) ∨ x.InPlace m₀ b.store
  moved : ∀ f ∈ mine, f.moved = true → f.xfer.InPlace m₀ b.store

variable {own : S → ℕ → Prop} {b₀ : Bus S Q β} {m₀ : Store S β} {X : Multiset (Xfer S)}
  {b b' : Bus S Q β} {mine : Multiset (Flight S Q)} {v : Bus S Q β}

theorem Staged.start (b : Bus S Q β) : Staged own b b.store 0 b 0 b where
  evolves := .refl
  flights_eq := (zero_add _).symm
  frame _ _ _ := rfl
  kept _ _ _ _ := rfl
  mem := by simp
  data := by simp
  moved := by simp

theorem Staged.restart (h : Staged own b₀ m₀ X b 0 v) {m : Store S β}
    (hm : ∀ s a, ¬ own s a → m s a = b.store s a) :
    Staged own b₀ m 0 { b with store := m } 0 v where
  evolves := h.evolves
  flights_eq := h.flights_eq
  frame s a hs := (hm s a hs).trans (h.frame s a hs)
  kept _ _ _ _ := rfl
  mem := by simp
  data := by simp
  moved := by simp

theorem Staged.submit (h : Staged own b₀ m₀ X b mine v) (x : Xfer S) (q : Q) :
    Staged own b₀ m₀ (x ::ₘ X) (b.submit x q) (⟨x, q, false⟩ ::ₘ mine) v where
  evolves := h.evolves
  flights_eq := by rw [Bus.submit, h.flights_eq, Multiset.cons_add]
  frame := h.frame
  kept s a hs hX := h.kept s a hs fun y hy => hX y (Multiset.mem_cons_of_mem hy)
  mem f hf := by
    rcases Multiset.mem_cons.mp hf with rfl | hf
    · exact Multiset.mem_cons_self x X
    · exact Multiset.mem_cons_of_mem (h.mem f hf)
  data y hy := by
    rcases Multiset.mem_cons.mp hy with rfl | hy
    · exact Or.inl ⟨_, Multiset.mem_cons_self _ _, rfl, rfl⟩
    · rcases h.data y hy with ⟨f, hf, hf'⟩ | hp
      · exact Or.inl ⟨f, Multiset.mem_cons_of_mem hf, hf'⟩
      · exact Or.inr hp
  moved f hf hfm := by
    rcases Multiset.mem_cons.mp hf with rfl | hf
    · exact absurd hfm (by simp)
    · exact h.moved f hf hfm

theorem Staged.source (h : Staged own b₀ m₀ X b mine v) (hX : Batch own X) {x : Xfer S}
    (hx : x ∈ X) {i : ℕ} (hi : i < x.len) :
    b.store x.src (x.srcOff + i) = m₀ x.src (x.srcOff + i) :=
  h.kept _ _ (hX.reads_own x hx _ _ (x.reads_add hi))
    fun y hy => hX.apart x hx y hy _ _ (x.reads_add hi)

theorem Staged.move_mine (h : Staged own b₀ m₀ X b mine v) (hX : Batch own X) {f : Flight S Q}
    (hf : f ∈ mine) {fs : Multiset (Flight S Q)} (hfs : b.flights = f ::ₘ fs) :
    ∃ mine', Staged own b₀ m₀ X ⟨f.xfer.exec b.store, { f with moved := true } ::ₘ fs⟩ mine' v := by
  obtain ⟨rest, rfl⟩ := Multiset.exists_cons_of_mem hf
  have hfX := h.mem f hf
  have hplace : f.xfer.InPlace m₀ (f.xfer.exec b.store) := fun i hi => by
    rw [Xfer.exec_dst _ hi, h.source hX hfX hi]
  -- data already in place stays there, whether or not it is the data of this transfer
  have hother : ∀ y ∈ X, y.InPlace m₀ b.store → y.InPlace m₀ (f.xfer.exec b.store) := by
    intro y hy hp
    by_cases hne : y = f.xfer
    · rw [hne]
      exact hplace
    · exact hp.exec_of_apart (hX.disjoint y hy f.xfer hfX hne)
  refine ⟨{ f with moved := true } ::ₘ rest, h.evolves, ?_, ?_, ?_, ?_, ?_, ?_⟩
  · have := h.flights_eq
    rw [hfs, Multiset.cons_add, Multiset.cons_inj_right] at this
    rw [this, Multiset.cons_add]
  · intro s a hs
    have hnot : ¬ f.xfer.Writes s a := fun hw => hs (hX.writes_own _ hfX s a hw)
    exact (Xfer.exec_of_not_writes hnot _).trans (h.frame s a hs)
  · intro s a hs hw
    exact (Xfer.exec_of_not_writes (hw _ hfX) _).trans (h.kept s a hs hw)
  · intro g hg
    rcases Multiset.mem_cons.mp hg with rfl | hg
    · exact hfX
    · exact h.mem g (Multiset.mem_cons_of_mem hg)
  · intro y hy
    rcases h.data y hy with ⟨g, hg, rfl, hgm⟩ | hp
    · rcases Multiset.mem_cons.mp hg with rfl | hg
      · exact Or.inr hplace
      · exact Or.inl ⟨g, Multiset.mem_cons_of_mem hg, rfl, hgm⟩
    · exact Or.inr (hother y hy hp)
  · intro g hg hgm
    rcases Multiset.mem_cons.mp hg with rfl | hg
    · exact hplace
    · have hg' : g ∈ f ::ₘ rest := Multiset.mem_cons_of_mem hg
      exact hother _ (h.mem g hg') (h.moved g hg' hgm)

theorem Staged.move_other (h : Staged own b₀ m₀ X b mine v) (hX : Batch own X)
    (hb₀ : b₀.Avoids own) {f : Flight S Q} (hf : f ∈ v.flights) (hfm : f.moved = false)
    {fs : Multiset (Flight S Q)} (hfs : b.flights = f ::ₘ fs) :
    ∃ v', Staged own b₀ m₀ X ⟨f.xfer.exec b.store, { f with moved := true } ::ₘ fs⟩ mine v' := by
  obtain ⟨rest, hrest⟩ := Multiset.exists_cons_of_mem hf
  have hout : ∀ s a, own s a → f.xfer.exec b.store s a = b.store s a := fun s a hs =>
    Xfer.exec_of_not_writes (fun hw => h.evolves.avoids hb₀ f hf s a (Or.inr hw) hs) _
  have hplace : ∀ x ∈ X, x.InPlace m₀ b.store → x.InPlace m₀ (f.xfer.exec b.store) := by
    intro x hx hp i hi
    rw [hout _ _ (hX.writes_own x hx _ _ (x.writes_add hi)), hp i hi]
  have hv : Evolves b₀ ⟨f.xfer.exec v.store, { f with moved := true } ::ₘ rest⟩ := by
    refine h.evolves.tail (Or.inl ?_)
    have hve : v = ⟨v.store, f ::ₘ rest⟩ := by rw [← hrest]
    rw [hve]
    exact .mk _ _ _ hfm
  refine ⟨_, hv, ?_, ?_, ?_, h.mem, ?_, ?_⟩
  · have := h.flights_eq
    rw [hfs, hrest, Multiset.add_cons, Multiset.cons_inj_right] at this
    rw [this, Multiset.add_cons]
  · intro s a hs
    change f.xfer.exec b.store s a = f.xfer.exec v.store s a
    by_cases hw : f.xfer.Writes s a
    · simp only [Xfer.exec, if_pos hw]
      refine h.frame _ _ fun hown => h.evolves.avoids hb₀ f hf _ _ (Or.inl ?_) hown
      obtain ⟨_, h1, h2⟩ := hw
      exact ⟨rfl, by omega, by omega⟩
    · rw [Xfer.exec_of_not_writes hw, Xfer.exec_of_not_writes hw, h.frame s a hs]
  · exact fun s a hs hw => (hout s a hs).trans (h.kept s a hs hw)
  · exact fun x hx => (h.data x hx).imp_right (hplace x hx)
  · exact fun g hg hgm => hplace _ (h.mem g hg) (h.moved g hg hgm)

theorem Staged.move (h : Staged own b₀ m₀ X b mine v) (hX : Batch own X) (hb₀ : b₀.Avoids own)
    (hm : Move b b') : ∃ mine' v', Staged own b₀ m₀ X b' mine' v' := by
  obtain ⟨m, f, fs, hfm⟩ := hm
  have hf : f ∈ mine + v.flights := by
    rw [← h.flights_eq]
    exact Multiset.mem_cons_self f fs
  rcases Multiset.mem_add.mp hf with hf | hf
  · obtain ⟨mine', h'⟩ := h.move_mine hX hf rfl
    exact ⟨mine', v, h'⟩
  · obtain ⟨v', h'⟩ := h.move_other hX hb₀ hf hfm rfl
    exact ⟨mine, v', h'⟩

theorem Staged.drop (h : Staged own b₀ m₀ X b mine v) (hd : Drop b b') :
    ∃ mine' v', Staged own b₀ m₀ X b' mine' v' := by
  obtain ⟨m, f, fs, hfm⟩ := hd
  have hf : f ∈ mine + v.flights := by
    rw [← h.flights_eq]
    exact Multiset.mem_cons_self f fs
  rcases Multiset.mem_add.mp hf with hf | hf
  · obtain ⟨rest, rfl⟩ := Multiset.exists_cons_of_mem hf
    refine ⟨rest, v, h.evolves, ?_, h.frame, h.kept, ?_, ?_, ?_⟩
    · have := h.flights_eq
      rwa [Multiset.cons_add, Multiset.cons_inj_right] at this
    · exact fun g hg => h.mem g (Multiset.mem_cons_of_mem hg)
    · intro x hx
      rcases h.data x hx with ⟨g, hg, hgx, hgm⟩ | hp
      · rcases Multiset.mem_cons.mp hg with rfl | hg
        · simp [hfm] at hgm
        · exact Or.inl ⟨g, hg, hgx, hgm⟩
      · exact Or.inr hp
    · exact fun g hg => h.moved g (Multiset.mem_cons_of_mem hg)
  · obtain ⟨rest, hrest⟩ := Multiset.exists_cons_of_mem hf
    have hv : Evolves b₀ ⟨v.store, rest⟩ := by
      refine h.evolves.tail (Or.inr ?_)
      have hve : v = ⟨v.store, f ::ₘ rest⟩ := by rw [← hrest]
      conv_lhs => rw [hve]
      exact .mk _ _ _ hfm
    refine ⟨mine, _, hv, ?_, h.frame, h.kept, h.mem, h.data, h.moved⟩
    have := h.flights_eq
    rwa [hrest, Multiset.add_cons, Multiset.cons_inj_right] at this

theorem Staged.completes (h : Staged own b₀ m₀ X b mine v) {q : Q} {k : ℕ}
    (hc : Completes q k b b') : ∃ mine' v', Staged own b₀ m₀ X b' mine' v' := by
  obtain ⟨hs, r, -, hfl, hr⟩ := hc
  obtain ⟨m, fs⟩ := b
  obtain ⟨m', fs'⟩ := b'
  dsimp only at hs hfl
  subst hs hfl
  induction r using Multiset.induction_on generalizing mine v with
  | empty => exact ⟨mine, v, by rwa [zero_add] at h⟩
  | cons f r ih =>
    rw [Multiset.cons_add] at h
    obtain ⟨mine', v', h'⟩ := h.drop (.mk _ f _ (hr f (Multiset.mem_cons_self f r)).2)
    exact ih (fun g hg => hr g (Multiset.mem_cons_of_mem hg)) h'

theorem Staged.progress (h : Staged own b₀ m₀ X b mine v) (hX : Batch own X) (hb₀ : b₀.Avoids own)
    (he : Evolves b b') : ∃ mine' v', Staged own b₀ m₀ X b' mine' v' := by
  induction he with
  | refl => exact ⟨mine, v, h⟩
  | tail _ hm ih =>
    obtain ⟨mine', v', h'⟩ := ih
    rcases hm with hm | hm
    · exact h'.move hX hb₀ hm
    · exact h'.drop hm

theorem Staged.drift (h : Staged own b₀ m₀ X b mine v) (hX : Batch own X) (hb₀ : b₀.Avoids own)
    (hd : Drift b b') : ∃ mine' v', Staged own b₀ m₀ X b' mine' v' :=
  h.progress hX hb₀ hd.evolves

theorem Staged.settled (h : Staged own b₀ m₀ X b mine v) (hb : b.flights = 0) :
    mine = 0 ∧ v.flights = 0 ∧ ∀ x ∈ X, x.InPlace m₀ b.store := by
  have hsum := congrArg Multiset.card (h.flights_eq.symm.trans hb)
  rw [Multiset.card_add, Multiset.card_zero] at hsum
  obtain rfl : mine = 0 := Multiset.card_eq_zero.mp (by omega)
  refine ⟨rfl, Multiset.card_eq_zero.mp (by omega), fun x hx => ?_⟩
  rcases h.data x hx with ⟨f, hf, _⟩ | hp
  · exact absurd hf (Multiset.notMem_zero f)
  · exact hp

theorem Staged.effect (h : Staged own b₀ m₀ X b mine v) (hb : b.flights = 0) :
    Effect own X m₀ b.store :=
  ⟨(h.settled hb).2.2, h.kept⟩

def Resting (own : S → ℕ → Prop) (b₀ b : Bus S Q β) : Prop := ∃ v, Staged own b₀ b.store 0 b 0 v

theorem resting_self (own : S → ℕ → Prop) (b : Bus S Q β) : Resting own b b := ⟨b, .start b⟩

theorem Staged.resting (h : Staged own b₀ m₀ X b mine v) (hb : b.flights = 0) : Resting own b₀ b := by
  obtain ⟨rfl, _, _⟩ := h.settled hb
  exact ⟨v, h.restart fun _ _ _ => rfl⟩

theorem Resting.setStore (h : Resting own b₀ b) {m : Store S β}
    (hm : ∀ s a, ¬ own s a → m s a = b.store s a) : Resting own b₀ { b with store := m } := by
  obtain ⟨v, h⟩ := h
  exact ⟨v, h.restart hm⟩

theorem Resting.progress (h : Resting own b₀ b) (hb₀ : b₀.Avoids own) (he : Evolves b b') :
    Resting own b₀ b' ∧ ∀ s a, own s a → b'.store s a = b.store s a := by
  obtain ⟨v, h⟩ := h
  obtain ⟨mine, v', h'⟩ := h.progress ⟨by simp, by simp, by simp, by simp⟩ hb₀ he
  have hmine : mine = 0 := Multiset.eq_zero_of_forall_notMem fun f hf => by simpa using h'.mem f hf
  subst hmine
  exact ⟨⟨v', h'.restart fun _ _ _ => rfl⟩, fun s a hs => h'.kept s a hs (by simp)⟩

theorem Resting.drift (h : Resting own b₀ b) (hb₀ : b₀.Avoids own) (hd : Drift b b') :
    Resting own b₀ b' ∧ ∀ s a, own s a → b'.store s a = b.store s a :=
  h.progress hb₀ hd.evolves

theorem Resting.others (h : Resting own b₀ b) (hb₀ : b₀.Avoids own) :
    ∃ v, Evolves b₀ v ∧ b.flights = v.flights ∧ (∀ s a, ¬ own s a → b.store s a = v.store s a) ∧
      ∀ s a, own s a → v.store s a = b₀.store s a := by
  obtain ⟨v, h⟩ := h
  exact ⟨v, h.evolves, h.flights_eq.trans (zero_add _), h.frame, fun s a => h.evolves.store_eq hb₀⟩

theorem Confined.exec {b : Bus S Q β} (h : Confined own m₀ b) {x : Xfer S}
    (hx : ∀ s a, x.Writes s a → own s a) : Confined own m₀ { b with store := x.exec b.store } :=
  h.setStore fun s a hs => Xfer.exec_of_not_writes (fun hw => hs (hx s a hw)) b.store

theorem Confined.evolves {b b' : Bus S Q β} (h : Confined own m₀ b) (he : Evolves b b') :
    Confined own m₀ b' := by
  induction he with
  | refl => exact h
  | tail _ hm ih =>
    rcases hm with hm | hm
    · obtain ⟨m, f, fs, _⟩ := hm
      have hf := ih.writes f (Multiset.mem_cons_self f fs)
      refine ⟨fun g hg => ?_, (ih.exec hf).kept⟩
      rcases Multiset.mem_cons.mp hg with rfl | hg
      · exact hf
      · exact ih.writes g (Multiset.mem_cons_of_mem hg)
    · obtain ⟨m, f, fs, _⟩ := hm
      exact ⟨fun g hg => ih.writes g (Multiset.mem_cons_of_mem hg), ih.kept⟩

end Bus
end Dma
