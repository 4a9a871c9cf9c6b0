import PcapReplay.Replay.Bounds

/-! Which accepted tuples are recorded as they are written. -/

namespace PcapReplay
open Strtoul Tokens
variable {ports lcores : UInt32}

structure TupleNumbers where
  port : ℤ
  queue : ℤ
  nvme : ℤ
  lcore : ℤ

def TupleNumbers.listed (w : TupleNumbers) : Side → List ℤ
  | .rx => [w.port, w.queue, w.lcore]
  | .tx => [w.port, w.queue, w.nvme, w.lcore]

def WrittenAs (side : Side) (field : Text) (w : TupleNumbers) : Prop :=
  ∃ toks, field = joined ',' toks ∧ List.Forall₂ Numeral toks (w.listed side)

structure RecordsTuple (side : Side) (w : TupleNumbers) (replay replay' : Replay ports lcores)
    (port : Fin ports.toNat) (queue : Fin maxQueuesPerNicPort) (lcore : Fin lcores.toNat) (q : NicQueue) :
    Prop where
  port_eq : (port : ℤ) = w.port
  queue_eq : (queue : ℤ) = w.queue
  lcore_eq : (lcore : ℤ) = w.lcore
  nicPort_eq : (q.port.toNat : ℤ) = w.port
  nicQueue_eq : (q.queue.toNat : ℤ) = w.queue
  mask : ∀ s p c, replay'.nicQueueMask s p c =
    if s = side ∧ p = port ∧ c = queue then 1 else replay.nicQueueMask s p c
  queues : ∀ l s, ((replay'.lcoreParams l).io s).queues =
    if l = lcore ∧ s = side then ((replay.lcoreParams l).io s).queues ++ [q]
    else ((replay.lcoreParams l).io s).queues
  nvme : side = .tx → ((replay'.nicTxQueueNvme port queue).toNat : ℤ) = w.nvme
  nvme_other : ∀ p c, ¬ (side = .tx ∧ p = port ∧ c = queue) →
    replay'.nicTxQueueNvme p c = replay.nicTxQueueNvme p c

inductive Recorded (side : Side) : List Text → Replay ports lcores → Replay ports lcores → Prop
  | nil (replay : Replay ports lcores) : Recorded side [] replay replay
  | cons {field : Text} {fields : List Text} {w : TupleNumbers} {replay replay₁ replay' : Replay ports lcores}
      {port : Fin ports.toNat} {queue : Fin maxQueuesPerNicPort} {lcore : Fin lcores.toNat} {q : NicQueue}
      (hwritten : WrittenAs side field w) (hrecords : RecordsTuple side w replay replay₁ port queue lcore q)
      (h : Recorded side fields replay₁ replay') : Recorded side (field :: fields) replay replay'

def PlainField (side : Side) (field : Text) : Prop :=
  ∃ w, WrittenAs side field w ∧ (∀ v ∈ w.listed side, 0 ≤ v ∧ v < 2 ^ 32) ∧ w.port < 256 ∧
    (side = .tx → w.nvme < 256)

theorem RecordsTuple.plain {side : Side} {w : TupleNumbers} {replay replay' : Replay ports lcores}
    {port : Fin ports.toNat} {queue : Fin maxQueuesPerNicPort} {lcore : Fin lcores.toNat} {q : NicQueue}
    (h : RecordsTuple side w replay replay' port queue lcore q) :
    (∀ v ∈ w.listed side, 0 ≤ v ∧ v < 2 ^ 32) ∧ w.port < 256 ∧ (side = .tx → w.nvme < 256) := by
  have hport := h.port_eq
  have hnic := h.nicPort_eq
  have hqueue := h.queue_eq
  have hlcore := h.lcore_eq
  have hport8 := q.port.toNat_lt
  have hqueue128 : (queue : ℕ) < 128 := queue.isLt
  have hlcores := lcores.toNat_lt
  have hlt := lcore.isLt
  have hnvme : side = .tx → 0 ≤ w.nvme ∧ w.nvme < 256 := by
    intro hs
    have heq := h.nvme hs
    have h8 := (replay'.nicTxQueueNvme port queue).toNat_lt
    omega
  refine ⟨?_, by omega, fun hs => (hnvme hs).2⟩
  cases side with
  | rx =>
    simp only [TupleNumbers.listed, List.forall_mem_cons]
    exact ⟨by omega, by omega, by omega, by simp⟩
  | tx =>
    have h8 := hnvme rfl
    simp only [TupleNumbers.listed, List.forall_mem_cons]
    exact ⟨by omega, by omega, by omega, by omega, by simp⟩

theorem Recorded.plain {side : Side} {fields : List Text} {replay replay' : Replay ports lcores}
    (h : Recorded side fields replay replay') : ∀ field ∈ fields, PlainField side field := by
  induction h with
  | nil => simp
  | @cons field fields w _ _ _ _ _ _ _ hwritten hrecords _ ih =>
    intro f hf
    rcases List.mem_cons.mp hf with rfl | hf
    · exact ⟨w, hwritten, hrecords.plain⟩
    · exact ih f hf

theorem tokenVal_numeral {tok : Text} {v : ℤ} (h : Numeral tok v) (hv : 0 ≤ v ∧ v < 2 ^ 32) :
    ((tokenVal tok).toNat : ℤ) = v := by
  obtain ⟨_, _, hval⟩ := strtoul_numeral h
  have habs : |v| < 2 ^ 64 := by
    rw [abs_of_nonneg hv.1]
    omega
  have hmod := hval habs
  unfold tokenVal
  rw [UInt64.toNat_toUInt32]
  omega

theorem tuple_rx {r : ℤ × List UInt32} {t : Tuple} (h : Side.tuple .rx r = some t) :
    r = (3, [t.port, t.queue, t.lcore]) ∧ t.nvme = none := by
  unfold Side.tuple at h
  split at h
  · obtain rfl := Option.some.inj h
    exact ⟨rfl, rfl⟩
  · contradiction
  · exact absurd h (by simp)

theorem tuple_tx {r : ℤ × List UInt32} {t : Tuple} (h : Side.tuple .tx r = some t) :
    ∃ nvme, r = (4, [t.port, t.queue, nvme, t.lcore]) ∧ t.nvme = some nvme := by
  unfold Side.tuple at h
  split at h
  · contradiction
  · obtain rfl := Option.some.inj h
    exact ⟨_, rfl, rfl⟩
  · exact absurd h (by simp)

theorem readField_tokens {strsplit : Strsplit} (hsplit : Splits strsplit) {side : Side} {field : Text}
    {t : Tuple} (hread : readField strsplit side field = some (some t)) {toks : List Text}
    (hfield : field = joined ',' toks)
    (hlen : toks.length = side.numVals) (htoks : ∀ tok ∈ toks, ',' ∉ tok) :
    side.tuple (toks.length, toks.map tokenVal) = some t := by
  have hconv : FieldConverts strsplit field side.numVals := by
    by_contra hnot
    rw [readField_of_not side hnot] at hread
    exact absurd hread (by simp)
  rw [readField_of_converts hsplit side hconv] at hread
  have htuple := Option.some.inj hread
  have hcount : (strsplit field side.numVals ',').length = side.numVals := by
    generalize strsplit field side.numVals ',' = toks' at htuple
    cases side with
    | rx => exact Int.ofNat_inj.mp (congrArg Prod.fst (tuple_rx htuple).1)
    | tx =>
      obtain ⟨_, hr, _⟩ := tuple_tx htuple
      exact Int.ofNat_inj.mp (congrArg Prod.fst hr)
  have heq : strsplit field side.numVals ',' = toks := by
    subst hfield
    have hpos : 0 < side.numVals := by cases side <;> decide
    apply hsplit.eq_of_joined hpos htoks
    · rw [hcount, hlen]
    · exact fun tok htok => (hconv tok htok).comma_notMem
  rwa [heq] at htuple

theorem numerals_comma {toks : List Text} {vs : List ℤ} (h : List.Forall₂ Numeral toks vs) :
    ∀ tok ∈ toks, ',' ∉ tok := by
  induction h with
  | nil => simp
  | cons hv _ ih =>
    intro tok htok
    rcases List.mem_cons.mp htok with rfl | htok
    · exact hv.comma_notMem
    · exact ih tok htok

theorem tokenVals_numerals {toks : List Text} {vs : List ℤ} (h : List.Forall₂ Numeral toks vs)
    (hrange : ∀ v ∈ vs, 0 ≤ v ∧ v < 2 ^ 32) : (toks.map tokenVal).map (fun u => (u.toNat : ℤ)) = vs := by
  induction h with
  | nil => rfl
  | @cons tok v toks vs hv _ ih =>
    rw [List.forall_mem_cons] at hrange
    rw [List.map_cons, List.map_cons, ih hrange.2, tokenVal_numeral hv hrange.1]

theorem PlainField.read {strsplit : Strsplit} (hsplit : Splits strsplit) {side : Side} {field : Text}
    {t : Tuple} (hplain : PlainField side field) (hread : readField strsplit side field = some (some t)) :
    ∃ w, WrittenAs side field w ∧ w.port < 256 ∧ (t.port.toNat : ℤ) = w.port ∧ (t.queue.toNat : ℤ) = w.queue ∧
      (t.lcore.toNat : ℤ) = w.lcore ∧
      (side = .tx → ∃ nvme, t.nvme = some nvme ∧ (nvme.toNat : ℤ) = w.nvme ∧ w.nvme < 256) ∧
      (side = .rx → t.nvme = none) := by
  obtain ⟨w, ⟨toks, hfield, hnumerals⟩, hrange, hport, hnvme⟩ := hplain
  have hcommas := numerals_comma hnumerals
  have hlen : toks.length = side.numVals := by
    rw [hnumerals.length_eq]
    cases side <;> rfl
  have htuple := readField_tokens hsplit hread hfield hlen hcommas
  have hvals := tokenVals_numerals hnumerals hrange
  refine ⟨w, ⟨toks, hfield, hnumerals⟩, hport, ?_⟩
  cases side with
  | rx =>
    obtain ⟨hr, hnone⟩ := tuple_rx htuple
    rw [(Prod.mk.inj hr).2] at hvals
    simp only [List.map_cons, TupleNumbers.listed, List.cons.injEq] at hvals
    exact ⟨hvals.1, hvals.2.1, hvals.2.2.1, fun hs => absurd hs (by simp), fun _ => hnone⟩
  | tx =>
    obtain ⟨nvme, hr, hsome⟩ := tuple_tx htuple
    rw [(Prod.mk.inj hr).2] at hvals
    simp only [List.map_cons, TupleNumbers.listed, List.cons.injEq] at hvals
    exact ⟨hvals.1, hvals.2.1, hvals.2.2.2.1, fun hs => ⟨nvme, hsome, hvals.2.2.1, hnvme hs⟩,
      fun hs => absurd hs (by simp)⟩

theorem PlainField.records {strsplit : Strsplit} (hsplit : Splits strsplit) {enabled : UInt32 → Bool}
    {side : Side} {field : Text} {t : Tuple} {replay replay' : Replay ports lcores}
    (hplain : PlainField side field)
    (hread : readField strsplit side field = some (some t))
    (hstore : replay.storeTuple enabled side t = (0, replay')) :
    ∃ w port queue lcore q, WrittenAs side field w ∧
      RecordsTuple side w replay replay' port queue lcore q := by
  obtain ⟨w, hwritten, hport256, hport, hqueue, hlcore, hnvme, hnone⟩ := hplain.read hsplit hread
  obtain ⟨port, queue, lcore, hstored⟩ := storeTuple_zero enabled side hstore
  have hp := hstored.port_eq
  have hq := hstored.queue_eq
  have hl := hstored.lcore_eq
  have hqueue128 : (queue : ℕ) < 128 := queue.isLt
  have hport8 : (t.port.toUInt8.toNat : ℤ) = w.port := by
    rw [UInt32.toNat_toUInt8]
    omega
  have hqueue8 : (t.queue.toUInt8.toNat : ℤ) = w.queue := by
    rw [UInt32.toNat_toUInt8]
    omega
  refine ⟨w, port, queue, lcore, _, hwritten, by omega, by omega, by omega, hport8, hqueue8, hstored.mask,
    hstored.queues, ?_, ?_⟩
  · intro hs
    obtain ⟨nvme, hsome, hval, hlt⟩ := hnvme hs
    rw [hstored.nvme, if_pos ⟨rfl, rfl⟩, hsome]
    show (nvme.toUInt8.toNat : ℤ) = w.nvme
    rw [UInt32.toNat_toUInt8]
    omega
  · intro p c hother
    rw [hstored.nvme]
    split_ifs with hpc
    · cases side with
      | rx =>
        rw [hnone rfl]
        rfl
      | tx => exact absurd ⟨rfl, hpc⟩ hother
    · rfl

theorem Stores.recorded {strsplit : Strsplit} (hsplit : Splits strsplit) {enabled : UInt32 → Bool}
    {side : Side} {fields : List Text} {replay replay' : Replay ports lcores}
    (h : Stores strsplit enabled side fields replay replay')
    (hplain : ∀ field ∈ fields, PlainField side field) : Recorded side fields replay replay' := by
  induction h with
  | nil replay => exact .nil replay
  | cons hread hstore _ ih =>
    rw [List.forall_mem_cons] at hplain
    obtain ⟨w, port, queue, lcore, q, hwritten, hrecords⟩ := hplain.1.records hsplit hread hstore
    exact .cons hwritten hrecords (ih hplain.2)

/-- The tuples of an accepted argument are recorded as written when they are numerals whose values
fit the types. -/
theorem accepted_recorded_iff {strsplit : Strsplit} (hsplit : Splits strsplit) {enabled : UInt32 → Bool}
    {side : Side} {arg : Text} {replay replay' : Replay ports lcores}
    (h : parseArg strsplit enabled side arg replay = some (0, replay')) :
    Recorded side (tupleTexts arg) replay replay' ↔ ∀ field ∈ tupleTexts arg, PlainField side field :=
  ⟨Recorded.plain, (parseArg_zero strsplit enabled side h).recorded hsplit⟩

theorem numeral_digit {c : Char} {d : ℕ} (hc : c ≠ '0') (hd : digit 10 c = some d) : Numeral [c] d := by
  have hdigits : DigitsFrom 10 0 [c] (0 * 10 + d) := .cons hd (.nil _)
  rw [Nat.zero_mul, Nat.zero_add] at hdigits
  exact ⟨[], [], false, [c], d, rfl, by simp, .none, .decimal hc hdigits, rfl⟩

theorem accepted_recorded_three_digits : ∃ replay',
    parseArg split (fun _ => true) .rx ['(', '1', ',', '2', ',', '3', ')'] (Replay.zero 32 128) =
      some (0, replay') ∧
    Recorded .rx (tupleTexts ['(', '1', ',', '2', ',', '3', ')']) (Replay.zero 32 128) replay' := by
  have harg : parentheses ['(', '1', ',', '2', ',', '3', ')'] = ([['1', ',', '2', ',', '3']], true) :=
    @parentheses_one ['1', ',', '2', ',', '3'] (by decide)
  have hparse := @parseArg_one 32 128 split (fun _ => true) .rx _ _ ⟨1, 2, 3, none⟩ (Replay.zero 32 128)
    (by decide) harg rfl rfl
  refine ⟨_, hparse, (accepted_recorded_iff splits_split hparse).mpr ?_⟩
  intro field hfield
  rw [tupleTexts, harg, List.mem_singleton] at hfield
  subst hfield
  have h₁ : Numeral ['1'] 1 := numeral_digit (by decide) (by decide)
  have h₂ : Numeral ['2'] 2 := numeral_digit (by decide) (by decide)
  have h₃ : Numeral ['3'] 3 := numeral_digit (by decide) (by decide)
  refine ⟨⟨1, 2, 0, 3⟩, ⟨[['1'], ['2'], ['3']], rfl, .cons h₁ (.cons h₂ (.cons h₃ .nil))⟩, by decide,
    by decide, by decide⟩

theorem PlainField.numerals {side : Side} {toks : List Text} (h : PlainField side (joined ',' toks))
    (hlen : toks.length = side.numVals) (htoks : ∀ tok ∈ toks, ',' ∉ tok) :
    ∃ w : TupleNumbers, List.Forall₂ Numeral toks (w.listed side) ∧
      (∀ v ∈ w.listed side, 0 ≤ v ∧ v < 2 ^ 32) ∧ (side = .tx → w.nvme < 256) := by
  obtain ⟨w, ⟨toks', hjoin, hnumerals⟩, hrange, _, hnvme⟩ := h
  have hlen' : toks.length = toks'.length := by
    rw [hlen, hnumerals.length_eq]
    cases side <;> rfl
  have hjoin' : joined ',' toks ++ [] = joined ',' toks' := by rw [List.append_nil, hjoin]
  obtain rfl := joined_inj hlen' htoks (numerals_comma hnumerals) (Or.inl rfl) hjoin'
  exact ⟨w, hnumerals, hrange, hnvme⟩

/-- The port 2^32 becomes the port 0, and the drive 256 the drive 0. -/
theorem accepted_not_recorded :
    (∃ replay', parseArgRx split (fun _ => true)
        ['(', '4', '2', '9', '4', '9', '6', '7', '2', '9', '6', ',', '0', ',', '0', ')']
        (Replay.zero 32 128) = some (0, replay') ∧
      ¬ Recorded .rx (tupleTexts
        ['(', '4', '2', '9', '4', '9', '6', '7', '2', '9', '6', ',', '0', ',', '0', ')'])
        (Replay.zero 32 128) replay') ∧
    ∃ replay', parseArgTx split (fun _ => true) ['(', '0', ',', '0', ',', '2', '5', '6', ',', '0', ')']
        (Replay.zero 32 128) = some (0, replay') ∧
      ¬ Recorded .tx (tupleTexts ['(', '0', ',', '0', ',', '2', '5', '6', ',', '0', ')'])
        (Replay.zero 32 128) replay' := by
  constructor
  · have harg : parentheses ['(', '4', '2', '9', '4', '9', '6', '7', '2', '9', '6', ',', '0', ',', '0', ')'] =
        ([joined ',' [['4', '2', '9', '4', '9', '6', '7', '2', '9', '6'], ['0'], ['0']]], true) :=
      @parentheses_one (joined ',' [['4', '2', '9', '4', '9', '6', '7', '2', '9', '6'], ['0'], ['0']])
        (by decide)
    refine ⟨_, @parseArg_one 32 128 split (fun _ => true) .rx _ _ ⟨0, 0, 0, none⟩ (Replay.zero 32 128)
      (by decide) harg rfl rfl, fun hrec => ?_⟩
    rw [tupleTexts, harg] at hrec
    obtain ⟨w, hnumerals, hrange, _⟩ := (hrec.plain _ List.mem_cons_self).numerals rfl (by decide)
    cases hnumerals with
    | cons hport _ =>
      have hport32 := hrange w.port List.mem_cons_self
      have hval : ((0 : ℕ) : ℤ) = w.port := tokenVal_numeral hport hport32
      have h64 : ((4294967296 : ℕ) : ℤ) = w.port % 2 ^ 64 :=
        (strtoul_numeral hport).2.2 (by rw [abs_of_nonneg hport32.1]; omega)
      omega
  · have harg : parentheses ['(', '0', ',', '0', ',', '2', '5', '6', ',', '0', ')'] =
        ([joined ',' [['0'], ['0'], ['2', '5', '6'], ['0']]], true) :=
      @parentheses_one (joined ',' [['0'], ['0'], ['2', '5', '6'], ['0']]) (by decide)
    refine ⟨_, @parseArg_one 32 128 split (fun _ => true) .tx _ _ ⟨0, 0, 0, some 256⟩ (Replay.zero 32 128)
      (by decide) harg rfl rfl, fun hrec => ?_⟩
    rw [tupleTexts, harg] at hrec
    obtain ⟨w, hnumerals, hrange, hnvme⟩ := (hrec.plain _ List.mem_cons_self).numerals rfl (by decide)
    cases hnumerals with
    | cons _ hrest =>
      cases hrest with
      | cons _ hrest =>
        cases hrest with
        | cons hdrive _ =>
          have hval : ((256 : ℕ) : ℤ) = w.nvme :=
            tokenVal_numeral hdrive (hrange w.nvme (by simp [TupleNumbers.listed]))
          have hlt := hnvme rfl
          omega

end PcapReplay
