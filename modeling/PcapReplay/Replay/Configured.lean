import PcapReplay.Replay.Agreement

/-! The parameters behind a command line whose options have been accepted. -/

namespace PcapReplay
variable {ports lcores : UInt32}

inductive Opt where
  | queues (side : Side)
  | rsz
  | bsz
deriving DecidableEq

def defaultNicRingSize : Side → UInt32
  | .rx => 1024
  | .tx => 1024

def defaultBurstSizeIo : Side → UInt32
  | .rx => 144
  | .tx => 144

def Given (opt : Opt) (args : List (Opt × Text)) : Prop := ∃ arg, (opt, arg) ∈ args

instance (opt : Opt) (args : List (Opt × Text)) : Decidable (Given opt args) :=
  decidable_of_iff (opt ∈ args.map Prod.fst) (by simp [Given])

theorem given_cons {opt opt' : Opt} {arg : Text} {args : List (Opt × Text)} :
    Given opt ((opt', arg) :: args) ↔ opt = opt' ∨ Given opt args := by
  simp only [Given, List.mem_cons, Prod.mk.injEq, exists_or, exists_and_left, exists_eq, and_true]

section loop
variable (strsplit : Strsplit) (enabled : UInt32 → Bool)

def parseOpt : Opt → Text → Replay ports lcores → Option (ℤ × Replay ports lcores)
  | .queues side => parseArg strsplit enabled side
  | .rsz => parseArgRsz strsplit
  | .bsz => parseArgBsz strsplit

/-- The loop of `replay_parse_args`, whose code is -1 at the first option that is not accepted. `--ifile` is
left out, and so is the check behind the loop that the mandatory options have been given. -/
def parseOpts : List (Opt × Text) → Replay ports lcores → Option (ℤ × Replay ports lcores)
  | [], replay => some (0, replay)
  | (opt, arg) :: args, replay =>
    match parseOpt strsplit enabled opt arg replay with
    | none => none
    | some (ret, replay') => if ret ≠ 0 then some (-1, replay') else parseOpts args replay'

def Replay.assignDefaults (replay : Replay ports lcores) (args : List (Opt × Text)) :
    Replay ports lcores :=
  { replay with
    nicRingSize := if Given .rsz args then replay.nicRingSize else defaultNicRingSize
    burstSizeIo := if Given .bsz args then replay.burstSizeIo else defaultBurstSizeIo }

/-- The parameters after options that are all accepted, whether or not the mandatory ones are among them. -/
def Configured (args : List (Opt × Text)) (replay : Replay ports lcores) : Prop :=
  ∃ parsed, parseOpts strsplit enabled args (Replay.zero ports lcores) = some (0, parsed) ∧
    replay = parsed.assignDefaults args

theorem parseArgRsz_zero {arg : Text} {replay replay' : Replay ports lcores}
    (h : parseArgRsz strsplit arg replay = some (0, replay')) :
    ∃ sizes, replay' = { replay with nicRingSize := sizes } := by
  unfold parseArgRsz at h
  split_ifs at h
  · exact absurd h (by simp)
  · split at h
    · contradiction
    · dsimp only at h
      split_ifs at h
      · exact absurd h (by simp)
      · exact absurd h (by simp)
      · exact ⟨_, (Prod.mk.inj (Option.some.inj h)).2.symm⟩

theorem parseArgBsz_zero {arg : Text} {replay replay' : Replay ports lcores}
    (h : parseArgBsz strsplit arg replay = some (0, replay')) :
    ∃ sizes, (∀ side, 1 ≤ (sizes side).toNat ∧ (sizes side).toNat ≤ 512) ∧
      replay' = { replay with burstSizeIo := sizes } := by
  unfold parseArgBsz at h
  split_ifs at h
  · exact absurd h (by simp)
  · split at h
    · contradiction
    · next ret stored _ =>
      dsimp only at h
      split_ifs at h with hret hzero hlarge
      · exact absurd h (by simp)
      · exact absurd h (by simp)
      · exact absurd h (by simp)
      · refine ⟨_, ?_, (Prod.mk.inj (Option.some.inj h)).2.symm⟩
        rw [not_or] at hzero hlarge
        have hsize : ∀ size : UInt32, ¬ size = 0 → ¬ mbufArraySize < size →
            1 ≤ size.toNat ∧ size.toNat ≤ 512 := by
          intro size hz hl
          refine ⟨Nat.pos_of_ne_zero fun h0 => hz (UInt32.toNat_inj.mp h0), ?_⟩
          rw [UInt32.lt_iff_toNat_lt, Nat.not_lt] at hl
          exact hl
        intro side
        cases side with
        | rx => exact hsize _ hzero.1 hlarge.1
        | tx => exact hsize _ hzero.2 hlarge.2

theorem parseOpt_zero {opt : Opt} {arg : Text} {replay replay' : Replay ports lcores}
    (h : parseOpt strsplit enabled opt arg replay = some (0, replay')) :
    (∃ side, opt = .queues side ∧ Stores strsplit enabled side (tupleTexts arg) replay replay') ∨
    (opt = .rsz ∧ ∃ sizes, replay' = { replay with nicRingSize := sizes }) ∨
    (opt = .bsz ∧ ∃ sizes, (∀ side, 1 ≤ (sizes side).toNat ∧ (sizes side).toNat ≤ 512) ∧
      replay' = { replay with burstSizeIo := sizes }) := by
  cases opt with
  | queues side => exact Or.inl ⟨side, rfl, parseArg_zero strsplit enabled side h⟩
  | rsz => exact Or.inr (Or.inl ⟨rfl, parseArgRsz_zero strsplit h⟩)
  | bsz => exact Or.inr (Or.inr ⟨rfl, parseArgBsz_zero strsplit h⟩)

theorem parseOpts_cons {opt : Opt} {arg : Text} {args : List (Opt × Text)}
    {replay replay' : Replay ports lcores}
    (h : parseOpts strsplit enabled ((opt, arg) :: args) replay = some (0, replay')) :
    ∃ replay₁, parseOpt strsplit enabled opt arg replay = some (0, replay₁) ∧
      parseOpts strsplit enabled args replay₁ = some (0, replay') := by
  rw [parseOpts] at h
  split at h
  · contradiction
  · next ret replay₁ hopt =>
    split_ifs at h with hret
    · exact absurd h (by simp)
    · rw [not_not] at hret
      exact ⟨replay₁, hret ▸ hopt, h⟩

theorem parseOpts_next {opt : Opt} {arg : Text} {replay replay₁ : Replay ports lcores}
    (h : parseOpt strsplit enabled opt arg replay = some (0, replay₁)) (args : List (Opt × Text)) :
    parseOpts strsplit enabled ((opt, arg) :: args) replay = parseOpts strsplit enabled args replay₁ := by
  rw [parseOpts, h]
  exact if_neg (by simp)

def fieldTuple (side : Side) (field : Text) : Option Tuple := (readField strsplit side field).join

def argTuples (side : Side) (arg : Text) : List Tuple := (tupleTexts arg).filterMap (fieldTuple strsplit side)

def optTuples (side : Side) : Opt × Text → List Tuple
  | (.queues s, arg) => if s = side then argTuples strsplit side arg else []
  | (.rsz, _) => []
  | (.bsz, _) => []

def allTuples (side : Side) (args : List (Opt × Text)) : List Tuple := args.flatMap (optTuples strsplit side)

end loop

section names
variable {strsplit : Strsplit} {enabled : UInt32 → Bool} {side s : Side}
  {replay replay' : Replay ports lcores} {p c : ℕ}

def Names (tuples : List Tuple) (port queue : ℕ) : Prop :=
  ∃ t ∈ tuples, t.port.toNat = port ∧ t.queue.toNat = queue

theorem names_append {ts ts' : List Tuple} : Names (ts ++ ts') p c ↔ Names ts p c ∨ Names ts' p c := by
  unfold Names
  simp only [List.mem_append, or_and_right, exists_or]

def Queued (replay : Replay ports lcores) (side : Side) (port queue : ℕ) : Prop :=
  ∃ lcore, ∃ q ∈ ((replay.lcoreParams lcore).io side).queues, q.port.toNat = port ∧ q.queue.toNat = queue

theorem TupleStored.queued_iff (hports : ports.toNat ≤ 256) {t : Tuple} {port : Fin ports.toNat}
    {queue : Fin maxQueuesPerNicPort} {lcore : Fin lcores.toNat}
    (h : TupleStored enabled s t replay replay' port queue lcore) :
    Queued replay' side p c ↔
      Queued replay side p c ∨ s = side ∧ t.port.toNat = p ∧ t.queue.toNat = c := by
  have hnew := nicQueue_toNat hports port queue
  rw [← h.nicQueue_eq hports, ← h.port_eq, ← h.queue_eq] at hnew
  unfold Queued
  constructor
  · rintro ⟨l, q, hq, hp, hc⟩
    rw [h.queues] at hq
    split_ifs at hq with hl
    · rcases List.mem_append.mp hq with hold | hnow
      · exact Or.inl ⟨l, q, hold, hp, hc⟩
      · obtain rfl := List.mem_singleton.mp hnow
        exact Or.inr ⟨hl.2.symm, hnew.1.symm.trans hp, hnew.2.symm.trans hc⟩
    · exact Or.inl ⟨l, q, hq, hp, hc⟩
  · rintro (⟨l, q, hq, hp, hc⟩ | ⟨rfl, rfl, rfl⟩)
    · refine ⟨l, q, ?_, hp, hc⟩
      rw [h.queues]
      split_ifs
      · exact List.mem_append_left _ hq
      · exact hq
    · refine ⟨lcore, _, ?_, hnew⟩
      rw [h.queues, if_pos ⟨rfl, rfl⟩]
      exact List.mem_append_right _ List.mem_cons_self

theorem Stores.queued_iff (hports : ports.toNat ≤ 256) {fields : List Text}
    (h : Stores strsplit enabled s fields replay replay') :
    Queued replay' side p c ↔
      Queued replay side p c ∨ s = side ∧ Names (fields.filterMap (fieldTuple strsplit s)) p c := by
  induction h with
  | nil replay => simp [Names]
  | @cons field fields t replay replay₁ replay' hread hstore _ ih =>
    obtain ⟨port, queue, lcore, hstored⟩ := storeTuple_zero enabled s hstore
    have hhead : fieldTuple strsplit s field = some t := by
      rw [fieldTuple, hread]
      rfl
    have hnames : Names [t] p c ↔ t.port.toNat = p ∧ t.queue.toNat = c := by
      simp only [Names, List.mem_singleton, exists_eq_left]
    rw [ih, hstored.queued_iff hports, List.filterMap_cons_some hhead, ← List.singleton_append, names_append,
      hnames, and_or_left, or_assoc]

theorem Stores.burst {fields : List Text} (h : Stores strsplit enabled s fields replay replay') :
    replay'.burstSizeIo = replay.burstSizeIo := by
  induction h with
  | nil replay => rfl
  | @cons _ _ t _ _ _ _ hstore _ ih =>
    obtain ⟨_, _, _, hstored⟩ := storeTuple_zero enabled s hstore
    rw [ih, hstored.result]
    cases t.nvme with
    | none => rfl
    | some _ => rfl

theorem parseOpts_queued_iff (hports : ports.toNat ≤ 256) {args : List (Opt × Text)}
    (h : parseOpts strsplit enabled args replay = some (0, replay')) :
    Queued replay' side p c ↔ Queued replay side p c ∨ Names (allTuples strsplit side args) p c := by
  induction args generalizing replay with
  | nil =>
    obtain ⟨_, rfl⟩ := Prod.mk.inj (Option.some.inj h)
    simp [Names, allTuples]
  | cons a args ih =>
    obtain ⟨opt, arg⟩ := a
    obtain ⟨replay₁, hopt, hrest⟩ := parseOpts_cons strsplit enabled h
    have hall : allTuples strsplit side ((opt, arg) :: args) =
        optTuples strsplit side (opt, arg) ++ allTuples strsplit side args := List.flatMap_cons
    have hstep : Queued replay₁ side p c ↔
        Queued replay side p c ∨ Names (optTuples strsplit side (opt, arg)) p c := by
      rcases parseOpt_zero strsplit enabled hopt with ⟨s, rfl, hstores⟩ | ⟨rfl, _, rfl⟩ | ⟨rfl, _, _, rfl⟩
      · rw [hstores.queued_iff hports, optTuples]
        split_ifs with hs
        · subst hs
          rw [and_iff_right rfl]
          rfl
        · simp [Names, hs]
      · simp [Names, optTuples, Queued]
      · simp [Names, optTuples, Queued]
    rw [ih hrest, hstep, hall, names_append, or_assoc]

theorem parseOpts_burst {args : List (Opt × Text)}
    (h : parseOpts strsplit enabled args replay = some (0, replay')) :
    replay'.burstSizeIo = replay.burstSizeIo ∧ ¬ Given .bsz args ∨
      ∀ side, 1 ≤ (replay'.burstSizeIo side).toNat ∧ (replay'.burstSizeIo side).toNat ≤ 512 := by
  induction args generalizing replay with
  | nil =>
    obtain ⟨_, rfl⟩ := Prod.mk.inj (Option.some.inj h)
    exact Or.inl ⟨rfl, by simp [Given]⟩
  | cons a args ih =>
    obtain ⟨opt, arg⟩ := a
    obtain ⟨replay₁, hopt, hrest⟩ := parseOpts_cons strsplit enabled h
    rcases ih hrest with ⟨hsame, hnot⟩ | hsizes
    · rw [hsame, given_cons]
      rcases parseOpt_zero strsplit enabled hopt with ⟨s, rfl, hstores⟩ | ⟨rfl, _, rfl⟩ | ⟨_, _, hsizes, rfl⟩
      · exact Or.inl ⟨hstores.burst, not_or.mpr ⟨by simp, hnot⟩⟩
      · exact Or.inl ⟨rfl, not_or.mpr ⟨by simp, hnot⟩⟩
      · exact Or.inr hsizes
    · exact Or.inr hsizes

theorem parseOpts_agrees (hports : ports.toNat ≤ 256) {args : List (Opt × Text)}
    (h : parseOpts strsplit enabled args replay = some (0, replay')) {k : ℕ} (ha : Agrees side k replay) :
    ∃ k', Agrees side k' replay' := by
  induction args generalizing replay k with
  | nil =>
    obtain ⟨_, rfl⟩ := Prod.mk.inj (Option.some.inj h)
    exact ⟨k, ha⟩
  | cons a args ih =>
    obtain ⟨replay₁, hopt, hrest⟩ := parseOpts_cons strsplit enabled h
    rcases parseOpt_zero strsplit enabled hopt with ⟨s, _, hstores⟩ | ⟨_, _, rfl⟩ | ⟨_, _, _, rfl⟩
    · exact ih hrest (hstores.agrees hports ha)
    · exact ih hrest ⟨ha.counted, ha.small, ha.room, ha.io, ha.masked, ha.assigned⟩
    · exact ih hrest ⟨ha.counted, ha.small, ha.room, ha.io, ha.masked, ha.assigned⟩

variable {args : List (Opt × Text)}

theorem Configured.queued_iff (hports : ports.toNat ≤ 256) (h : Configured strsplit enabled args replay) :
    Queued replay side p c ↔ Names (allTuples strsplit side args) p c := by
  obtain ⟨parsed, hparsed, rfl⟩ := h
  have hzero : ¬ Queued (Replay.zero ports lcores) side p c := by
    rintro ⟨_, _, hq, _⟩
    exact absurd hq List.not_mem_nil
  exact (parseOpts_queued_iff hports hparsed).trans (or_iff_right hzero)

theorem Configured.burst (h : Configured strsplit enabled args replay) (side : Side) :
    1 ≤ (replay.burstSizeIo side).toNat ∧ (replay.burstSizeIo side).toNat ≤ 512 := by
  obtain ⟨parsed, hparsed, rfl⟩ := h
  unfold Replay.assignDefaults
  dsimp only
  split_ifs with hgiven
  · exact ((parseOpts_burst hparsed).resolve_left fun hc => hc.2 hgiven) side
  · cases side with
    | rx => decide
    | tx => decide

theorem Configured.agrees (hports : ports.toNat ≤ 256) (h : Configured strsplit enabled args replay)
    (side : Side) : ∃ k, Agrees side k replay := by
  obtain ⟨parsed, hparsed, rfl⟩ := h
  obtain ⟨k, ha⟩ := parseOpts_agrees hports hparsed (agrees_zero side)
  exact ⟨k, ha.counted, ha.small, ha.room, ha.io, ha.masked, ha.assigned⟩

/-- What holds of the empty parameters, and is kept by a stored tuple and by new sizes, holds after
accepted options. -/
theorem Configured.induct {I : Replay ports lcores → Prop} (hzero : I (Replay.zero ports lcores))
    (hstored : ∀ side t replay replay' port queue lcore,
      TupleStored enabled side t replay replay' port queue lcore → I replay → I replay')
    (hsizes : ∀ (replay : Replay ports lcores) ring burst, I replay →
      I { replay with nicRingSize := ring, burstSizeIo := burst })
    (h : Configured strsplit enabled args replay) : I replay := by
  have hfields : ∀ side fields (replay replay' : Replay ports lcores),
      Stores strsplit enabled side fields replay replay' → I replay → I replay' := by
    intro side fields replay replay' hstores
    induction hstores with
    | nil => exact id
    | @cons _ _ t _ _ _ _ hstore _ ih =>
      obtain ⟨port, queue, lcore, htuple⟩ := storeTuple_zero enabled side hstore
      exact fun hI => ih (hstored side t _ _ port queue lcore htuple hI)
  have hloop : ∀ args (replay replay' : Replay ports lcores),
      parseOpts strsplit enabled args replay = some (0, replay') → I replay → I replay' := by
    intro args
    induction args with
    | nil =>
      intro replay replay' hparse hI
      obtain ⟨_, rfl⟩ := Prod.mk.inj (Option.some.inj hparse)
      exact hI
    | cons a args ih =>
      intro replay replay' hparse hI
      obtain ⟨opt, arg⟩ := a
      obtain ⟨replay₁, hopt, hrest⟩ := parseOpts_cons strsplit enabled hparse
      apply ih replay₁ replay' hrest
      rcases parseOpt_zero strsplit enabled hopt with ⟨s, _, hstores⟩ | ⟨_, ring, rfl⟩ | ⟨_, burst, _, rfl⟩
      · exact hfields s _ _ _ hstores hI
      · exact hsizes replay ring replay.burstSizeIo hI
      · exact hsizes replay replay.nicRingSize burst hI
  obtain ⟨parsed, hparsed, rfl⟩ := h
  exact hsizes parsed _ _ (hloop args _ parsed hparsed hzero)

end names

theorem configured_one {strsplit : Strsplit} {enabled : UInt32 → Bool} {arg field : Text} {t : Tuple}
    (side : Side) (hlen : arg.length ≤ maxChars) (harg : parentheses arg = ([field], true))
    (hread : readField strsplit side field = some (some t))
    (hstore : ((Replay.zero ports lcores).storeTuple enabled side t).1 = 0) :
    ∃ replay : Replay ports lcores, Configured strsplit enabled [(.queues side, arg)] replay ∧
      allTuples strsplit side [(.queues side, arg)] = [t] := by
  have hparse : parseOpt strsplit enabled (.queues side) arg (Replay.zero ports lcores) =
      some (0, ((Replay.zero ports lcores).storeTuple enabled side t).2) :=
    parseArg_one hlen harg hread hstore
  refine ⟨_, ⟨((Replay.zero ports lcores).storeTuple enabled side t).2, ?_, rfl⟩, ?_⟩
  · rw [parseOpts_next strsplit enabled hparse]
    rfl
  · have htuple : fieldTuple strsplit side field = some t := by
      rw [fieldTuple, hread]
      rfl
    rw [allTuples, List.flatMap_singleton, optTuples, if_pos rfl, argTuples, tupleTexts, harg,
      List.filterMap_cons_some htuple, List.filterMap_nil]

theorem configured_two {strsplit : Strsplit} {enabled : UInt32 → Bool} {opt₁ opt₂ : Opt} {arg₁ arg₂ : Text}
    {replay₁ replay₂ : Replay ports lcores}
    (h₁ : parseOpt strsplit enabled opt₁ arg₁ (Replay.zero ports lcores) = some (0, replay₁))
    (h₂ : parseOpt strsplit enabled opt₂ arg₂ replay₁ = some (0, replay₂)) :
    Configured strsplit enabled [(opt₁, arg₁), (opt₂, arg₂)]
      (replay₂.assignDefaults [(opt₁, arg₁), (opt₂, arg₂)]) := by
  refine ⟨replay₂, ?_, rfl⟩
  rw [parseOpts_next strsplit enabled h₁, parseOpts_next strsplit enabled h₂]
  rfl

end PcapReplay
