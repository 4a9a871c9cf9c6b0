import PcapReplay.Lib.Trace
import PcapReplay.Replay.Transmit

/-! The wait for the links at the end of the network initialisation. -/

namespace PcapReplay
open Interaction Prog
variable {ports lcores : UInt32}

inductive LinkOp where
  | linkGet (portid : UInt8)
  | printLink (portid : UInt8) (up : Bool)
  | printDot
  | delay
  | printDone
deriving DecidableEq

abbrev LinkAns : LinkOp → Type
  | .linkGet _ => Bool
  | .printLink _ _ => Unit
  | .printDot => Unit
  | .delay => Unit
  | .printDone => Unit

abbrev Link (α : Type) := Prog LinkOp LinkAns α

abbrev LinkTrace := List ((o : LinkOp) × LinkAns o)

abbrev rteEthLinkGetNowait (portid : UInt8) : Link Bool := ask (LinkOp.linkGet portid)

def maxCheckTime : ℕ := 90

def Replay.linkChecked (replay : Replay ports lcores) (portMask : UInt32) (portid : UInt8) : Bool :=
  portMask &&& (1 <<< portid.toUInt32) ≠ 0 ∧
    ¬ (UInt32.ofInt (replay.getNicQueuesPerPort .rx portid) = 0 ∧
      UInt32.ofInt (replay.getNicQueuesPerPort .tx portid) = 0)

def linkPass (checked : UInt8 → Bool) (printFlag : Bool) : List UInt8 → Link Bool
  | [] => pure true
  | portid :: portids =>
    if checked portid = false then linkPass checked printFlag portids
    else do
      let up ← rteEthLinkGetNowait portid
      if printFlag then do
        ask (LinkOp.printLink portid up)
        linkPass checked printFlag portids
      else if up = false then pure false
      else linkPass checked printFlag portids

def waitUnless (allPortsUp : Bool) : Link Unit :=
  if allPortsUp = false then do
    ask LinkOp.printDot
    ask LinkOp.delay
  else pure ()

def linkRounds (checked : UInt8 → Bool) (portids : List UInt8) : Bool → ℕ → Link Unit
  | _, 0 => pure ()
  | printFlag, left + 1 => do
    let count := maxCheckTime - left
    let allPortsUp ← linkPass checked printFlag portids
    if printFlag then pure ()
    else do
      waitUnless allPortsUp
      if allPortsUp ∨ count = maxCheckTime - 1 then do
        ask LinkOp.printDone
        linkRounds checked portids true left
      else linkRounds checked portids false left

def checkAllPortsLinkStatus (replay : Replay ports lcores) (portNum : UInt8) (portMask : UInt32) :
    Link Unit :=
  linkRounds (replay.linkChecked portMask) ((List.range portNum.toNat).map UInt8.ofNat) false
    (maxCheckTime + 1)

def upAnswers (portids : List UInt8) : LinkTrace := portids.map fun portid => ⟨.linkGet portid, true⟩

def Waits (portids : List UInt8) (t : LinkTrace) : Prop :=
  ∃ before portid after, portids = before ++ portid :: after ∧
    t = upAnswers before ++ [⟨.linkGet portid, false⟩, ⟨.printDot, ()⟩, ⟨.delay, ()⟩]

def report (portids : List UInt8) (ups : List Bool) : LinkTrace :=
  (portids.zip ups).flatMap fun answer => [⟨.linkGet answer.1, answer.2⟩, ⟨.printLink answer.1 answer.2, ()⟩]

section pass
variable {checked : UInt8 → Bool} {portids : List UInt8} {t : LinkTrace}

theorem linkPass_quiet {allPortsUp : Bool} (ht : Traces (linkPass checked false portids) t allPortsUp) :
    (allPortsUp = true ∧ t = upAnswers (portids.filter checked)) ∨
    (allPortsUp = false ∧ ∃ before portid after, portids.filter checked = before ++ portid :: after ∧
      t = upAnswers before ++ [⟨.linkGet portid, false⟩]) := by
  induction portids generalizing t with
  | nil =>
    obtain ⟨rfl, rfl⟩ := traces_pure.mp ht
    exact Or.inl ⟨rfl, rfl⟩
  | cons portid portids ih =>
    rw [linkPass] at ht
    by_cases hskip : checked portid = false
    · rw [if_pos hskip] at ht
      rw [List.filter_cons_of_neg (by rw [hskip]; decide)]
      exact ih ht
    · rw [if_neg hskip] at ht
      rw [List.filter_cons_of_pos (Bool.eq_true_of_not_eq_false hskip)]
      obtain ⟨t₁, t₂, up, rfl, h₁, h₂⟩ := traces_bind.mp ht
      obtain rfl := traces_ask.mp h₁
      rw [if_neg Bool.false_ne_true] at h₂
      split_ifs at h₂ with hdown
      · obtain ⟨rfl, rfl⟩ := traces_pure.mp h₂
        subst hdown
        exact Or.inr ⟨rfl, [], portid, portids.filter checked, rfl, rfl⟩
      · obtain rfl := Bool.eq_true_of_not_eq_false hdown
        rcases ih h₂ with ⟨hup, rfl⟩ | ⟨hup, before, next, after, hports, rfl⟩
        · exact Or.inl ⟨hup, rfl⟩
        · exact Or.inr ⟨hup, portid :: before, next, after, congrArg (portid :: ·) hports, rfl⟩

theorem linkPass_prints {allPortsUp : Bool} (ht : Traces (linkPass checked true portids) t allPortsUp) :
    ∃ ups : List Bool, ups.length = (portids.filter checked).length ∧
      t = report (portids.filter checked) ups := by
  induction portids generalizing t with
  | nil =>
    obtain ⟨rfl, _⟩ := traces_pure.mp ht
    exact ⟨[], rfl, rfl⟩
  | cons portid portids ih =>
    rw [linkPass] at ht
    by_cases hskip : checked portid = false
    · rw [if_pos hskip] at ht
      rw [List.filter_cons_of_neg (by rw [hskip]; decide)]
      exact ih ht
    · rw [if_neg hskip] at ht
      rw [List.filter_cons_of_pos (Bool.eq_true_of_not_eq_false hskip)]
      obtain ⟨t₁, t₂, up, rfl, h₁, h₂⟩ := traces_bind.mp ht
      obtain rfl := traces_ask.mp h₁
      rw [if_pos rfl] at h₂
      obtain ⟨t₃, t₄, _, rfl, h₃, h₄⟩ := traces_bind.mp h₂
      obtain rfl := traces_ask.mp h₃
      obtain ⟨ups, hlen, rfl⟩ := ih h₄
      exact ⟨up :: ups, congrArg Nat.succ hlen, rfl⟩

end pass

/-- The program waits at most `maxCheckTime` times, each time because a link is down, and goes on
early only when it has found all links up; then it says so and reports every port once. -/
def LinksReported (portids : List UInt8) (t : LinkTrace) : Prop :=
  ∃ (waits : List LinkTrace) (full : LinkTrace) (ups : List Bool),
    t = waits.flatten ++ full ++ ⟨.printDone, ()⟩ :: report portids ups ∧
    (∀ wait ∈ waits, Waits portids wait) ∧ ups.length = portids.length ∧
    (waits.length < maxCheckTime ∧ full = upAnswers portids ∨ waits.length = maxCheckTime ∧ full = [])

theorem linkRounds_prints {checked : UInt8 → Bool} {portids : List UInt8} {left : ℕ} {t : LinkTrace}
    {r : Unit} (ht : Traces (linkRounds checked portids true (left + 1)) t r) :
    ∃ ups : List Bool, ups.length = (portids.filter checked).length ∧
      t = report (portids.filter checked) ups := by
  obtain ⟨t₁, t₂, _, rfl, h₁, h₂⟩ := traces_bind.mp ht
  rw [if_pos rfl] at h₂
  obtain ⟨rfl, _⟩ := traces_pure.mp h₂
  rw [List.append_nil]
  exact linkPass_prints h₁

theorem linkRounds_round {checked : UInt8 → Bool} {portids : List UInt8} {left : ℕ} {t : LinkTrace} {r : Unit}
    (ht : Traces (linkRounds checked portids false (left + 1)) t r) : ∃ t₁ t₂ allPortsUp, t = t₁ ++ t₂ ∧
      (allPortsUp = true ∧ t₁ = upAnswers (portids.filter checked) ∨
        allPortsUp = false ∧ Waits (portids.filter checked) t₁) ∧
      Traces (if allPortsUp ∨ maxCheckTime - left = maxCheckTime - 1 then do
          ask LinkOp.printDone
          linkRounds checked portids true left
        else linkRounds checked portids false left) t₂ r := by
  rw [linkRounds] at ht
  obtain ⟨t₁, t', allPortsUp, rfl, h₁, ht'⟩ := traces_bind.mp ht
  rw [if_neg Bool.false_ne_true] at ht'
  obtain ⟨t₂, t₃, _, rfl, h₂, h₃⟩ := traces_bind.mp ht'
  refine ⟨t₁ ++ t₂, t₃, allPortsUp, (List.append_assoc _ _ _).symm, ?_, h₃⟩
  rcases linkPass_quiet h₁ with ⟨rfl, rfl⟩ | ⟨rfl, before, portid, after, hports, rfl⟩
  · obtain ⟨rfl, _⟩ := traces_pure.mp h₂
    exact Or.inl ⟨rfl, List.append_nil _⟩
  · obtain ⟨t₄, t₅, _, rfl, h₄, h₅⟩ := traces_bind.mp h₂
    obtain rfl := traces_ask.mp h₄
    obtain rfl := traces_ask.mp h₅
    refine Or.inr ⟨rfl, before, portid, after, hports, ?_⟩
    rw [List.append_assoc]
    rfl

theorem linkRounds_last {checked : UInt8 → Bool} {portids : List UInt8} {left : ℕ} {t : LinkTrace} {r : Unit}
    (ht : Traces (do
      ask LinkOp.printDone
      linkRounds checked portids true (left + 1)) t r) :
    ∃ ups : List Bool, ups.length = (portids.filter checked).length ∧
      t = ⟨.printDone, ()⟩ :: report (portids.filter checked) ups := by
  obtain ⟨t₁, t₂, _, rfl, h₁, h₂⟩ := traces_bind.mp ht
  obtain rfl := traces_ask.mp h₁
  obtain ⟨ups, hlen, rfl⟩ := linkRounds_prints h₂
  exact ⟨ups, hlen, rfl⟩

theorem linkRounds_waits {checked : UInt8 → Bool} {portids : List UInt8} {left : ℕ} {t : LinkTrace} {r : Unit}
    (hleft : left < maxCheckTime) (ht : Traces (linkRounds checked portids false (left + 2)) t r) :
    ∃ (waits : List LinkTrace) (full : LinkTrace) (ups : List Bool),
      t = waits.flatten ++ full ++ ⟨.printDone, ()⟩ :: report (portids.filter checked) ups ∧
      (∀ wait ∈ waits, Waits (portids.filter checked) wait) ∧
      ups.length = (portids.filter checked).length ∧
      (waits.length < left + 1 ∧ full = upAnswers (portids.filter checked) ∨
        waits.length = left + 1 ∧ full = []) := by
  induction left generalizing t with
  | zero =>
    obtain ⟨t₁, t₂, allPortsUp, rfl, hround, hrest⟩ := linkRounds_round ht
    rw [if_pos (Or.inr rfl)] at hrest
    obtain ⟨ups, hlen, rfl⟩ := linkRounds_last hrest
    rcases hround with ⟨_, rfl⟩ | ⟨_, hwait⟩
    · exact ⟨[], _, ups, rfl, fun _ h => absurd h List.not_mem_nil, hlen, Or.inl ⟨Nat.one_pos, rfl⟩⟩
    · refine ⟨[t₁], [], ups, ?_, ?_, hlen, Or.inr ⟨rfl, rfl⟩⟩
      · rw [List.flatten_singleton, List.append_nil]
      · intro wait h
        rwa [List.mem_singleton.mp h]
  | succ left ih =>
    obtain ⟨t₁, t₂, allPortsUp, rfl, hround, hrest⟩ := linkRounds_round ht
    rcases hround with ⟨rfl, rfl⟩ | ⟨rfl, hwait⟩
    · rw [if_pos (Or.inl rfl)] at hrest
      obtain ⟨ups, hlen, rfl⟩ := linkRounds_last hrest
      exact ⟨[], _, ups, rfl, fun _ h => absurd h List.not_mem_nil, hlen, Or.inl ⟨Nat.succ_pos _, rfl⟩⟩
    · have hgo : ¬ (false = true ∨ maxCheckTime - (left + 2) = maxCheckTime - 1) := by
        rintro (hup | hcount)
        · exact Bool.false_ne_true hup
        · omega
      rw [if_neg hgo] at hrest
      obtain ⟨waits, full, ups, rfl, hwaits, hlen, hend⟩ := ih (by omega) hrest
      refine ⟨t₁ :: waits, full, ups, ?_, ?_, hlen, ?_⟩
      · rw [List.flatten_cons]
        simp only [List.append_assoc]
      · rw [List.forall_mem_cons]
        exact ⟨hwait, hwaits⟩
      · rw [List.length_cons]
        rcases hend with ⟨hlt, hfull⟩ | ⟨heq, hfull⟩
        · exact Or.inl ⟨Nat.succ_lt_succ hlt, hfull⟩
        · exact Or.inr ⟨congrArg Nat.succ heq, hfull⟩

/-- Whatever the links answer, the check ends with one report of every port that is in use. -/
theorem links_reported (replay : Replay ports lcores) (portNum : UInt8) (portMask : UInt32) {t : LinkTrace}
    (ht : Traces (checkAllPortsLinkStatus replay portNum portMask) t ()) :
    LinksReported (((List.range portNum.toNat).map UInt8.ofNat).filter (replay.linkChecked portMask)) t :=
  @linkRounds_waits _ _ 89 _ _ (by decide) ht

def downLinks : (o : LinkOp) → LinkAns o
  | .linkGet _ => false
  | .printLink _ _ => ()
  | .printDot => ()
  | .delay => ()
  | .printDone => ()

theorem traces_down (p : Link Unit) : ∃ t, Traces p t () := ⟨_, traces_dry downLinks p⟩

theorem links_reported_never_up : ∃ t,
    Traces (checkAllPortsLinkStatus (oneQueue 1) 32 0xffffffff) t () ∧
    LinksReported (((List.range 32).map UInt8.ofNat).filter ((oneQueue 1).linkChecked 0xffffffff)) t := by
  obtain ⟨t, ht⟩ := traces_down (checkAllPortsLinkStatus (oneQueue 1) 32 0xffffffff)
  exact ⟨t, ht, links_reported (oneQueue 1) 32 0xffffffff ht⟩

end PcapReplay
