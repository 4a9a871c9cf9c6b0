import PcapReplay.Lib.Getopt
import Mathlib.Data.List.Induction

/-! The command lines of the tools: `app_config` and `app_paramCheck`. -/

namespace PcapReplay
open Getopt Options

abbrev Word := List UInt8

def ascii (s : String) : Word := s.toList.map Char.toUInt8

def help : Long UInt8 := ⟨ascii "help", false, 'h'.toUInt8⟩

def rmOptions : Options UInt8 :=
  { dash := '-'.toUInt8, equals := '='.toUInt8, short := [('h'.toUInt8, false)], long := [help] }

def cpLetters : List (UInt8 × Bool) :=
  [('h'.toUInt8, false), ('p'.toUInt8, false), ('s'.toUInt8, true), ('t'.toUInt8, true), ('y'.toUInt8, true),
    ('f'.toUInt8, true)]

def formatOptions : Options UInt8 := { rmOptions with short := cpLetters }

def nscap : Long UInt8 := ⟨ascii "nscap", false, 'p'.toUInt8⟩
def fromSys : Long UInt8 := ⟨ascii "from-sys", true, 'y'.toUInt8⟩
def fromRaid : Long UInt8 := ⟨ascii "from-raid", true, 'f'.toUInt8⟩
def toSys : Long UInt8 := ⟨ascii "to-sys", true, 's'.toUInt8⟩
def toRaid : Long UInt8 := ⟨ascii "to-raid", true, 't'.toUInt8⟩

def cpOptions : Options UInt8 :=
  { rmOptions with short := cpLetters, long := [help, nscap, fromSys, fromRaid, toSys, toRaid] }

/-- The code of `exit`, or the operands, where every option ends the process. -/
def noOptions (o : Options UInt8) (argv : List Word) : Except ℤ (List Word) :=
  match (o.scan argv).1 with
  | [] => .ok (o.scan argv).2
  | _ :: _ => .error 1

namespace Rm

def appConfig (argv : List Word) : Except ℤ (List Word) := do
  let files ← noOptions rmOptions argv
  if files.length = 0 then .error (-1) else .ok files

end Rm

namespace Cp

/-- `FILENAME_MAX` of the C library. -/
def filenameMax : ℕ := 4096

structure Params where
  fromSys : Option Word
  fromRaid : Option Word
  toSys : Option Word
  toRaid : Option Word
  pcap : Bool
deriving DecidableEq

def Params.zero : Params := ⟨none, none, none, none, false⟩

def option (p : Params) : Found UInt8 → Except ℤ Params
  | .wrong => .error 1
  | .opt c optarg =>
    if c = 'y'.toUInt8 then .ok { p with fromSys := some optarg }
    else if c = 'f'.toUInt8 then
      if optarg.length > filenameMax then .error (-1) else .ok { p with fromRaid := some optarg }
    else if c = 's'.toUInt8 then .ok { p with toSys := some optarg }
    else if c = 't'.toUInt8 then
      if optarg.length > filenameMax then .error (-1) else .ok { p with toRaid := some optarg }
    else if c = 'p'.toUInt8 then .ok { p with pcap := true }
    else .error 1

def Params.stopExecution (p : Params) : Bool :=
  p.fromSys.isSome && p.toSys.isSome ||
  p.fromRaid.isSome && p.toRaid.isSome ||
  p.fromSys.isSome && !p.toRaid.isSome ||
  p.fromRaid.isSome && !p.toSys.isSome ||
  !p.fromSys.isSome && p.toRaid.isSome ||
  !p.fromRaid.isSome && p.toSys.isSome ||
  !p.fromSys.isSome && !p.fromRaid.isSome && !p.toSys.isSome && !p.toRaid.isSome ||
  p.fromSys.isSome && p.fromRaid.isSome ||
  p.toSys.isSome && p.toRaid.isSome

def appConfig (argv : List Word) : Except ℤ Params := do
  let p ← (cpOptions.scan argv).1.foldlM option .zero
  if p.stopExecution then .error (-1) else .ok p

def Params.Imports (p : Params) : Prop := p.fromSys.isSome ∧ p.toRaid.isSome ∧ p.fromRaid = none ∧ p.toSys = none

def Params.Exports (p : Params) : Prop := p.fromRaid.isSome ∧ p.toSys.isSome ∧ p.fromSys = none ∧ p.toRaid = none

theorem Params.stopExecution_eq_false (p : Params) : p.stopExecution = false ↔ p.Imports ∨ p.Exports := by
  obtain ⟨fromSys, fromRaid, toSys, toRaid, pcap⟩ := p
  cases fromSys <;> cases fromRaid <;> cases toSys <;> cases toRaid <;>
    simp [Params.stopExecution, Params.Imports, Params.Exports]

def Known : Found UInt8 → Prop
  | .wrong => False
  | .opt c optarg =>
    c = 'y'.toUInt8 ∨ c = 's'.toUInt8 ∨ c = 'p'.toUInt8 ∨
      (c = 'f'.toUInt8 ∨ c = 't'.toUInt8) ∧ optarg.length ≤ filenameMax

def given (found : List (Found UInt8)) : Params where
  fromSys := (args 'y'.toUInt8 found).getLast?
  fromRaid := (args 'f'.toUInt8 found).getLast?
  toSys := (args 's'.toUInt8 found).getLast?
  toRaid := (args 't'.toUInt8 found).getLast?
  pcap := args 'p'.toUInt8 found ≠ []

def Params.next (p : Params) : Found UInt8 → Params
  | .wrong => p
  | .opt c optarg =>
    { fromSys := if c = 'y'.toUInt8 then some optarg else p.fromSys
      fromRaid := if c = 'f'.toUInt8 then some optarg else p.fromRaid
      toSys := if c = 's'.toUInt8 then some optarg else p.toSys
      toRaid := if c = 't'.toUInt8 then some optarg else p.toRaid
      pcap := c == 'p'.toUInt8 || p.pcap }

theorem option_known (p : Params) (e : Found UInt8) (h : Known e) : option p e = .ok (p.next e) := by
  cases e with
  | wrong => exact h.elim
  | opt c optarg =>
    obtain rfl | rfl | rfl | ⟨rfl | rfl, hle⟩ := h
    · simp +decide [option, Params.next]
    · simp +decide [option, Params.next]
    · simp +decide [option, Params.next]
    · simp +decide [option, Params.next, Nat.not_lt.mpr hle]
    · simp +decide [option, Params.next, Nat.not_lt.mpr hle]

theorem option_unknown (p : Params) (e : Found UInt8) (h : ¬ Known e) : ∃ code, option p e = .error code := by
  cases e with
  | wrong => exact ⟨1, rfl⟩
  | opt c optarg =>
    dsimp only [option]
    dsimp only [Known] at h
    split_ifs with hy hf hlen hs ht hlen hp
    · exact absurd (Or.inl hy) h
    · exact ⟨_, rfl⟩
    · exact absurd (Or.inr (Or.inr (Or.inr ⟨Or.inl hf, Nat.not_lt.mp hlen⟩))) h
    · exact absurd (Or.inr (Or.inl hs)) h
    · exact ⟨_, rfl⟩
    · exact absurd (Or.inr (Or.inr (Or.inr ⟨Or.inr ht, Nat.not_lt.mp hlen⟩))) h
    · exact absurd (Or.inr (Or.inr (Or.inl hp))) h
    · exact ⟨_, rfl⟩

theorem given_eq_foldl {found : List (Found UInt8)} (h : ∀ e ∈ found, Known e) :
    given found = found.foldl Params.next .zero := by
  induction found using List.reverseRecOn with
  | nil => rfl
  | append_singleton found e ih =>
    rw [List.forall_mem_append, List.forall_mem_singleton] at h
    rw [List.foldl_append, List.foldl_cons, List.foldl_nil, ← ih h.1]
    cases e with
    | wrong => exact h.2.elim
    | opt c optarg =>
      unfold given Params.next
      congr 1
      · exact getLast?_args_snoc _ _ _ _
      · exact getLast?_args_snoc _ _ _ _
      · exact getLast?_args_snoc _ _ _ _
      · exact getLast?_args_snoc _ _ _ _
      · rw [args_snoc]
        by_cases hp : c = 'p'.toUInt8 <;> simp [hp]

theorem appConfig_iff (argv : List Word) (p : Params) : appConfig argv = .ok p ↔
    (∀ e ∈ (cpOptions.scan argv).1, Known e) ∧ p = given (cpOptions.scan argv).1 ∧ (p.Imports ∨ p.Exports) := by
  have hloop : (cpOptions.scan argv).1.foldlM option .zero = .ok p ↔
      (∀ e ∈ (cpOptions.scan argv).1, Known e) ∧ p = given (cpOptions.scan argv).1 := by
    rw [foldlM_eq_ok option_known option_unknown]
    constructor
    · rintro ⟨hall, rfl⟩
      exact ⟨hall, (given_eq_foldl hall).symm⟩
    · rintro ⟨hall, rfl⟩
      exact ⟨hall, given_eq_foldl hall⟩
  rw [← and_assoc, ← hloop, ← p.stopExecution_eq_false]
  unfold appConfig
  cases hp : (cpOptions.scan argv).1.foldlM option .zero with
  | error code =>
    constructor
    · exact fun h => absurd h nofun
    · exact fun h => absurd h.1 nofun
  | ok q =>
    show (if q.stopExecution then Except.error (-1) else .ok q) = Except.ok p ↔ _
    constructor
    · intro h
      split_ifs at h with hstop
      obtain rfl := Except.ok.inj h
      exact ⟨rfl, (Bool.not_eq_true _).mp hstop⟩
    · rintro ⟨h, hstop⟩
      obtain rfl := Except.ok.inj h
      exact if_neg ((Bool.not_eq_true _).mpr hstop)

def Params.options (p : Params) : List (Long UInt8 × Word) :=
  (p.fromSys.map (PcapReplay.fromSys, ·)).toList ++ (p.fromRaid.map (PcapReplay.fromRaid, ·)).toList ++
    (p.toSys.map (PcapReplay.toSys, ·)).toList ++ (p.toRaid.map (PcapReplay.toRaid, ·)).toList ++
    if p.pcap then [(nscap, [])] else []

def Params.spell (p : Params) : List Word := p.options.map fun e => cpOptions.spell e.1 e.2

theorem spells_cp : ∀ l ∈ [nscap, fromSys, fromRaid, toSys, toRaid], cpOptions.Spells l := by
  simp only [List.forall_mem_cons]
  refine ⟨?_, ?_, ?_, ?_, ?_, fun _ h => absurd h List.not_mem_nil⟩ <;>
    exact ⟨by decide, by decide, by decide⟩

theorem Params.mem_options {p : Params} {e : Long UInt8 × Word} (h : e ∈ p.options) :
    e.1 = PcapReplay.fromSys ∨ e.1 = PcapReplay.toSys ∨ e = (nscap, []) ∨
      e.1 = PcapReplay.fromRaid ∧ p.fromRaid = some e.2 ∨ e.1 = PcapReplay.toRaid ∧ p.toRaid = some e.2 := by
  unfold Params.options at h
  simp only [List.mem_append, Option.mem_toList, Option.map_eq_some_iff] at h
  obtain (((⟨a, _, rfl⟩ | ⟨a, ha, rfl⟩) | ⟨a, _, rfl⟩) | ⟨a, ha, rfl⟩) | hpcap := h
  · exact Or.inl rfl
  · exact Or.inr (Or.inr (Or.inr (Or.inl ⟨rfl, ha⟩)))
  · exact Or.inr (Or.inl rfl)
  · exact Or.inr (Or.inr (Or.inr (Or.inr ⟨rfl, ha⟩)))
  · split_ifs at hpcap
    · exact Or.inr (Or.inr (Or.inl (List.mem_singleton.mp hpcap)))
    · exact absurd hpcap List.not_mem_nil

theorem Params.given_options (p : Params) : given (p.options.map fun e => .opt e.1.val e.2) = p := by
  obtain ⟨fromSys, fromRaid, toSys, toRaid, pcap⟩ := p
  cases fromSys <;> cases fromRaid <;> cases toSys <;> cases toRaid <;> cases pcap <;> rfl

def Params.Short (p : Params) : Prop :=
  ∀ name, p.fromRaid = some name ∨ p.toRaid = some name → name.length ≤ filenameMax

theorem appConfig_spell {p : Params} (hshort : p.Short) (h : p.Imports ∨ p.Exports) :
    appConfig p.spell = .ok p := by
  have hscan : cpOptions.scan p.spell = (p.options.map fun e => .opt e.1.val e.2, []) := by
    have hspells : ∀ e ∈ p.options, cpOptions.Spells e.1 := by
      intro e he
      apply spells_cp
      obtain h | h | h | ⟨h, _⟩ | ⟨h, _⟩ := Params.mem_options he <;> simp [h]
    have harg : ∀ e ∈ p.options, e.1.hasArg = false → e.2 = [] := by
      intro e he hno
      obtain h | h | h | ⟨h, _⟩ | ⟨h, _⟩ := Params.mem_options he
      · exact absurd hno (by rw [h]; decide)
      · exact absurd hno (by rw [h]; decide)
      · rw [h]
      · exact absurd hno (by rw [h]; decide)
      · exact absurd hno (by rw [h]; decide)
    have := scan_spells hspells harg []
    rwa [List.append_nil, Options.scan, List.append_nil] at this
  rw [appConfig_iff, hscan]
  refine ⟨?_, p.given_options.symm, h⟩
  rw [List.forall_mem_map]
  intro e he
  obtain h | h | h | ⟨h, hname⟩ | ⟨h, hname⟩ := Params.mem_options he
  · rw [h]
    exact Or.inl rfl
  · rw [h]
    exact Or.inr (Or.inl rfl)
  · rw [h]
    exact Or.inr (Or.inr (Or.inl rfl))
  · rw [h]
    exact Or.inr (Or.inr (Or.inr ⟨Or.inl rfl, hshort _ (Or.inl hname)⟩))
  · rw [h]
    exact Or.inr (Or.inr (Or.inr ⟨Or.inr rfl, hshort _ (Or.inr hname)⟩))

theorem short_given {found : List (Found UInt8)} (h : ∀ e ∈ found, Known e) : (given found).Short := by
  have hle : ∀ c name, c = 'f'.toUInt8 ∨ c = 't'.toUInt8 → (args c found).getLast? = some name →
      name.length ≤ filenameMax := by
    intro c name hc hlast
    obtain hy | hs | hp | ⟨_, hle⟩ := h _ (mem_args.mp (List.mem_of_getLast? hlast))
    · exact absurd hc (by rw [hy]; decide)
    · exact absurd hc (by rw [hs]; decide)
    · exact absurd hc (by rw [hp]; decide)
    · exact hle
  rintro name (hname | hname)
  · exact hle _ name (Or.inl rfl) hname
  · exact hle _ name (Or.inr rfl) hname

/-- A command line is accepted exactly if every option is one of the tool's, no name of a file in the raid is
too long, and the last arguments of the options name one file in the system and one in the raid. What can be
asked for so are all copies from one to the other, with names in the raid up to the bound. -/
theorem command_lines_of_cp :
    (∀ argv p, appConfig argv = .ok p ↔
      (∀ e ∈ (cpOptions.scan argv).1, Known e) ∧ p = given (cpOptions.scan argv).1 ∧ (p.Imports ∨ p.Exports)) ∧
    ∀ p, (∃ argv, appConfig argv = .ok p) ↔ p.Short ∧ (p.Imports ∨ p.Exports) := by
  refine ⟨appConfig_iff, fun p => ⟨?_, fun ⟨hshort, h⟩ => ⟨p.spell, appConfig_spell hshort h⟩⟩⟩
  rintro ⟨argv, h⟩
  obtain ⟨hknown, rfl, hway⟩ := (appConfig_iff argv p).mp h
  exact ⟨short_given hknown, hway⟩

end Cp
end PcapReplay
