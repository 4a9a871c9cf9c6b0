import PcapReplay.Replay.Options

/-! The loop over the tuples as a walk along the texts between parentheses. -/

namespace PcapReplay
open Strtoul Tokens
variable {ports lcores : UInt32}

/-- The texts between successive parentheses, and whether every opening one has been closed. -/
def parentheses (p0 : Text) : List Text × Bool :=
  match _h : strchr p0 '(' with
  | none => ([], true)
  | some p =>
    match _h' : strchr p ')' with
    | none => ([], false)
    | some p0' =>
      let later := parentheses p0'
      (p.tail.take (p.tail.length - p0'.length) :: later.1, later.2)
termination_by p0.length
decreasing_by exact (strchr_closing _h _h').2

def tupleTexts (p0 : Text) : List Text := (parentheses p0).1

section texts
variable {p0 p p0' : Text}

theorem parentheses_none (h : strchr p0 '(' = none) : parentheses p0 = ([], true) := by
  rw [parentheses]
  split
  · rfl
  · next h' => exact absurd (h.symm.trans h') (by simp)

theorem parentheses_open (h : strchr p0 '(' = some p) (h' : strchr p ')' = none) :
    parentheses p0 = ([], false) := by
  rw [parentheses]
  split
  · next h₁ => exact absurd (h.symm.trans h₁) (by simp)
  · next p₁ h₁ =>
    obtain rfl := Option.some.inj (h.symm.trans h₁)
    split
    · rfl
    · next h₂ => exact absurd (h'.symm.trans h₂) (by simp)

theorem parentheses_some (h : strchr p0 '(' = some p) (h' : strchr p ')' = some p0') :
    parentheses p0 =
      (p.tail.take (p.tail.length - p0'.length) :: (parentheses p0').1, (parentheses p0').2) := by
  rw [parentheses]
  split
  · next h₁ => exact absurd (h.symm.trans h₁) (by simp)
  · next p₁ h₁ =>
    obtain rfl := Option.some.inj (h.symm.trans h₁)
    split
    · next h₂ => exact absurd (h'.symm.trans h₂) (by simp)
    · next p₂ h₂ =>
      obtain rfl := Option.some.inj (h'.symm.trans h₂)
      rfl

theorem strchr_append {field : Text} (h : ')' ∉ field) : strchr (field ++ [')']) ')' = some [')'] := by
  induction field with
  | nil => rfl
  | cons c field ih =>
    have hc : c ≠ ')' := fun hc => h (hc ▸ List.mem_cons_self)
    rw [List.cons_append, strchr, if_neg hc]
    exact ih fun hm => h (List.mem_cons_of_mem c hm)

theorem parentheses_one {field : Text} (h : ')' ∉ field) :
    parentheses ('(' :: (field ++ [')'])) = ([field], true) := by
  have hopen : strchr ('(' :: (field ++ [')'])) '(' = some ('(' :: (field ++ [')'])) := if_pos rfl
  have hclose : strchr ('(' :: (field ++ [')'])) ')' = some [')'] := by
    rw [strchr, if_neg (by decide)]
    exact strchr_append h
  have hlen : (field ++ [')']).length - [')'].length = field.length := by
    rw [List.length_append, Nat.add_sub_cancel]
  rw [parentheses_some hopen hclose, parentheses_none rfl, List.tail_cons, hlen, List.take_left]

end texts

section walk
variable (strsplit : Strsplit) (enabled : UInt32 → Bool) (side : Side)

def readField (field : Text) : Option (Option Tuple) :=
  (strToUnsignedVals strsplit field field.length ',' side.numVals).map side.tuple

/-- The walk along the fields, with the number of tuples stored before. -/
def takeFields (done : Bool) : List Text → ℕ → Replay ports lcores → Option (ℤ × Replay ports lcores)
  | [], nTuples, replay => some (if done then if nTuples = 0 then -11 else 0 else -2, replay)
  | field :: fields, nTuples, replay =>
    match readField strsplit side field with
    | none => none
    | some none => some (-2, replay)
    | some (some t) =>
      let stored := replay.storeTuple enabled side t
      if stored.1 ≠ 0 then some stored
      else if maxTuples < nTuples + 1 then some (-10, stored.2)
      else takeFields done fields (nTuples + 1) stored.2

theorem strToUnsignedVals_take (s : Text) {len : ℕ} (h : len ≤ s.length) (numVals : ℕ) :
    strToUnsignedVals strsplit s len ',' numVals =
      strToUnsignedVals strsplit (s.take len) (s.take len).length ',' numVals := by
  have hlen : (s.take len).length = len := by rw [List.length_take, Nat.min_eq_left h]
  unfold strToUnsignedVals strToUnsignedArray
  rw [hlen, List.take_take, Nat.min_self]

theorem parseTuples_eq (p0 : Text) (nTuples : ℕ) (replay : Replay ports lcores) :
    parseTuples strsplit enabled side p0 nTuples replay =
      takeFields strsplit enabled side (parentheses p0).2 (tupleTexts p0) nTuples replay := by
  unfold tupleTexts
  induction p0 using parentheses.induct generalizing nTuples replay with
  | case1 p0 h =>
    rw [parentheses_none h, parseTuples]
    split
    · rfl
    · next h₁ => exact absurd (h.symm.trans h₁) (by simp)
  | case2 p0 p h h' =>
    rw [parentheses_open h h', parseTuples]
    split
    · next h₁ => exact absurd (h.symm.trans h₁) (by simp)
    · next p₁ h₁ =>
      obtain rfl := Option.some.inj (h.symm.trans h₁)
      split
      · rfl
      · next h₂ => exact absurd (h'.symm.trans h₂) (by simp)
  | case3 p0 p h p0' h' ih =>
    have hread := strToUnsignedVals_take strsplit p.tail (Nat.sub_le p.tail.length p0'.length) side.numVals
    rw [parentheses_some h h', parseTuples]
    split
    · next h₁ => exact absurd (h.symm.trans h₁) (by simp)
    · next p₁ h₁ =>
      obtain rfl := Option.some.inj (h.symm.trans h₁)
      split
      · next h₂ => exact absurd (h'.symm.trans h₂) (by simp)
      · next p₂ h₂ =>
        obtain rfl := Option.some.inj (h'.symm.trans h₂)
        rw [hread, takeFields, readField]
        cases strToUnsignedVals strsplit (p.tail.take (p.tail.length - p0'.length))
            (p.tail.take (p.tail.length - p0'.length)).length ',' side.numVals with
        | none => rfl
        | some r =>
          rw [Option.map_some]
          dsimp only
          cases side.tuple r with
          | none => rfl
          | some t =>
            dsimp only
            rw [ih]

theorem Replay.assignQueue_code (replay : Replay ports lcores) (t : Tuple) (lcore : Fin lcores.toNat) :
    (replay.assignQueue side t lcore).1 ≤ 0 := by
  unfold Replay.assignQueue
  dsimp only
  split_ifs <;> simp

theorem Replay.storeTuple_code (replay : Replay ports lcores) (t : Tuple) :
    (replay.storeTuple enabled side t).1 ≤ 0 := by
  unfold Replay.storeTuple
  dsimp only
  split_ifs
  · simp
  · simp
  · simp
  · simp
  · exact Replay.assignQueue_code side _ t _

section rounds
variable {done : Bool} {field : Text} {fields : List Text} {nTuples : ℕ} {replay : Replay ports lcores}
  {r : ℤ × Replay ports lcores}

theorem takeFields_cons
    (h : takeFields strsplit enabled side done (field :: fields) nTuples replay = some r) :
    (r.1 = -2 ∨ r.1 = -10) ∨ ∃ t, readField strsplit side field = some (some t) ∧
      (r.1 ≠ 0 ∧ r = replay.storeTuple enabled side t ∨
        ∃ replay₁, replay.storeTuple enabled side t = (0, replay₁) ∧
          takeFields strsplit enabled side done fields (nTuples + 1) replay₁ = some r) := by
  rw [takeFields] at h
  split at h
  · exact absurd h (by simp)
  · obtain rfl := Option.some.inj h
    exact Or.inl (Or.inl rfl)
  · next t hread =>
    dsimp only at h
    split_ifs at h with hcode
    · obtain rfl := Option.some.inj h
      exact Or.inr ⟨t, hread, Or.inl ⟨hcode, rfl⟩⟩
    · obtain rfl := Option.some.inj h
      exact Or.inl (Or.inr rfl)
    · rw [not_not] at hcode
      exact Or.inr ⟨t, hread, Or.inr ⟨_, Prod.ext hcode rfl, h⟩⟩

theorem takeFields_code (h : takeFields strsplit enabled side done fields nTuples replay = some r) :
    r.1 ≤ 0 := by
  induction fields generalizing nTuples replay with
  | nil =>
    obtain rfl := Option.some.inj h
    dsimp only
    split_ifs <;> decide
  | cons field fields ih =>
    rcases takeFields_cons strsplit enabled side h with (hr | hr) | ⟨t, _, ⟨_, rfl⟩ | ⟨replay₁, _, hrest⟩⟩
    · rw [hr]
      decide
    · rw [hr]
      decide
    · exact Replay.storeTuple_code enabled side replay t
    · exact ih hrest

end rounds

structure TupleStored (t : Tuple) (replay replay' : Replay ports lcores) (port : Fin ports.toNat)
    (queue : Fin maxQueuesPerNicPort) (lcore : Fin lcores.toNat) : Prop where
  port_eq : t.port.toNat = port
  queue_eq : t.queue.toNat = queue
  lcore_eq : t.lcore.toNat = lcore
  free : replay.nicQueueMask side port queue = 0
  lcoreEnabled : enabled t.lcore = true
  notWorker : (replay.lcoreParams lcore).type ≠ .worker
  room : ((replay.lcoreParams lcore).io side).nNicQueues < maxNicQueuesPerIoLcore
  result : replay' = ((replay.setMask side port queue).setNvme port queue t.nvme).setLcore lcore
    { type := .io
      io := Function.update (replay.lcoreParams lcore).io side (((replay.lcoreParams lcore).io side).push room
        { port := t.port.toUInt8, queue := t.queue.toUInt8 }) }

theorem lcoreParams_masked (replay : Replay ports lcores) (port : Fin ports.toNat)
    (queue : Fin maxQueuesPerNicPort) (nvme : Option UInt32) :
    ((replay.setMask side port queue).setNvme port queue nvme).lcoreParams = replay.lcoreParams := by
  cases nvme <;> rfl

theorem lcoreParams_setLcore (replay : Replay ports lcores) (lcore l : Fin lcores.toNat) (lp : LcoreParams) :
    (replay.setLcore lcore lp).lcoreParams l = if l = lcore then lp else replay.lcoreParams l :=
  Function.update_apply _ _ _ _

theorem storeTuple_zero {t : Tuple} {replay replay' : Replay ports lcores}
    (h : replay.storeTuple enabled side t = (0, replay')) :
    ∃ port queue lcore, TupleStored enabled side t replay replay' port queue lcore := by
  unfold Replay.storeTuple at h
  dsimp only at h
  split_ifs at h with hrange hmask henabled hlcore
  · exact absurd (congrArg Prod.fst h) (by simp)
  · exact absurd (congrArg Prod.fst h) (by simp)
  · exact absurd (congrArg Prod.fst h) (by simp)
  · exact absurd (congrArg Prod.fst h) (by simp)
  · rw [not_not] at hmask
    unfold Replay.assignQueue at h
    simp only [lcoreParams_masked] at h
    split_ifs at h with hworker hdup hfull
    · exact absurd (congrArg Prod.fst h) (by simp)
    · exact absurd (congrArg Prod.fst h) (by simp)
    · exact absurd (congrArg Prod.fst h) (by simp)
    · exact ⟨_, _, _, rfl, rfl, rfl, hmask, Bool.eq_true_of_not_eq_false henabled, hworker,
        Nat.not_le.mp hfull, (Prod.mk.inj h).2.symm⟩

section frame
variable {enabled side} {t : Tuple} {replay replay' : Replay ports lcores} {port : Fin ports.toNat}
  {queue : Fin maxQueuesPerNicPort} {lcore : Fin lcores.toNat}
  (h : TupleStored enabled side t replay replay' port queue lcore)
include h

theorem TupleStored.mask (s : Side) (p : Fin ports.toNat) (q : Fin maxQueuesPerNicPort) :
    replay'.nicQueueMask s p q =
      if s = side ∧ p = port ∧ q = queue then 1 else replay.nicQueueMask s p q := by
  rw [h.result]
  cases t.nvme <;> rfl

theorem TupleStored.nvme (p : Fin ports.toNat) (q : Fin maxQueuesPerNicPort) :
    replay'.nicTxQueueNvme p q =
      if p = port ∧ q = queue then (t.nvme.map UInt32.toUInt8).getD (replay.nicTxQueueNvme p q)
      else replay.nicTxQueueNvme p q := by
  rw [h.result]
  cases t.nvme with
  | none => exact (ite_self _).symm
  | some nvme => rfl

theorem TupleStored.type (l : Fin lcores.toNat) :
    (replay'.lcoreParams l).type = if l = lcore then .io else (replay.lcoreParams l).type := by
  rw [h.result, lcoreParams_setLcore, lcoreParams_masked]
  split_ifs
  · rfl
  · rfl

theorem TupleStored.io (l : Fin lcores.toNat) (s : Side) :
    (replay'.lcoreParams l).io s =
      if l = lcore ∧ s = side then ((replay.lcoreParams lcore).io side).push h.room
        { port := t.port.toUInt8, queue := t.queue.toUInt8 }
      else (replay.lcoreParams l).io s := by
  refine (congrArg (fun r : Replay ports lcores => (r.lcoreParams l).io s) h.result).trans ?_
  rw [lcoreParams_setLcore, lcoreParams_masked]
  by_cases hl : l = lcore
  · subst hl
    rw [if_pos rfl]
    by_cases hs : s = side
    · subst hs
      rw [if_pos ⟨rfl, rfl⟩]
      exact Function.update_self _ _ _
    · rw [if_neg fun hc => hs hc.2]
      exact Function.update_of_ne hs _ _
  · rw [if_neg hl, if_neg fun hc => hl hc.1]

theorem TupleStored.queues (l : Fin lcores.toNat) (s : Side) :
    ((replay'.lcoreParams l).io s).queues =
      if l = lcore ∧ s = side then ((replay.lcoreParams l).io s).queues ++
        [{ port := t.port.toUInt8, queue := t.queue.toUInt8 }]
      else ((replay.lcoreParams l).io s).queues := by
  rw [h.io]
  split_ifs with hl
  · rw [hl.1, hl.2, IoSide.queues_push]
  · rfl

end frame

inductive Stores : List Text → Replay ports lcores → Replay ports lcores → Prop
  | nil (replay : Replay ports lcores) : Stores [] replay replay
  | cons {field : Text} {fields : List Text} {t : Tuple} {replay replay₁ replay' : Replay ports lcores}
      (hread : readField strsplit side field = some (some t))
      (hstore : replay.storeTuple enabled side t = (0, replay₁)) (h : Stores fields replay₁ replay') :
      Stores (field :: fields) replay replay'

theorem takeFields_zero {done : Bool} {fields : List Text} {nTuples : ℕ}
    {replay replay' : Replay ports lcores}
    (h : takeFields strsplit enabled side done fields nTuples replay = some (0, replay')) :
    Stores strsplit enabled side fields replay replay' := by
  induction fields generalizing nTuples replay with
  | nil =>
    obtain ⟨_, rfl⟩ := Prod.mk.inj (Option.some.inj h)
    exact .nil replay
  | cons field fields ih =>
    rcases takeFields_cons strsplit enabled side h with hr | ⟨t, hread, ⟨hr, _⟩ | ⟨replay₁, hstore, hrest⟩⟩
    · exact absurd hr (by simp)
    · exact absurd rfl hr
    · exact .cons hread hstore (ih hrest)

theorem parseArg_zero {arg : Text} {replay replay' : Replay ports lcores}
    (h : parseArg strsplit enabled side arg replay = some (0, replay')) :
    Stores strsplit enabled side (tupleTexts arg) replay replay' := by
  unfold parseArg at h
  split_ifs at h
  · exact absurd h (by simp)
  · rw [parseTuples_eq] at h
    exact takeFields_zero strsplit enabled side h

end walk

theorem parseArg_one {strsplit : Strsplit} {enabled : UInt32 → Bool} {side : Side} {arg field : Text}
    {t : Tuple} {replay : Replay ports lcores} (hlen : arg.length ≤ maxChars)
    (harg : parentheses arg = ([field], true))
    (hread : readField strsplit side field = some (some t))
    (hstore : (replay.storeTuple enabled side t).1 = 0) :
    parseArg strsplit enabled side arg replay = some (0, (replay.storeTuple enabled side t).2) := by
  have hshort : ¬ strnlen arg (maxChars + 1) = maxChars + 1 :=
    fun h => (strnlen_eq_iff arg maxChars).mp h hlen
  rw [parseArg, if_neg hshort, parseTuples_eq, tupleTexts, harg, takeFields, hread]
  dsimp only
  rw [if_neg (not_not.mpr hstore), if_neg (by decide)]
  rfl

end PcapReplay
