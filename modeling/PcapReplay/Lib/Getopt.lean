import Mathlib.Data.List.TakeWhile

/-! The options and operands of a command line, as `getopt_long` gives them. -/

namespace Getopt
variable {α ε σ : Type} [DecidableEq α]

structure Long (α : Type) where
  name : List α
  hasArg : Bool
  val : α
deriving DecidableEq

structure Options (α : Type) where
  dash : α
  equals : α
  short : List (α × Bool)
  long : List (Long α)

inductive Found (α : Type) where
  | opt (val : α) (optarg : List α)
  | wrong

namespace Options
variable (o : Options α)

/-- The option of that name, or the one that it abbreviates unless there are different ones. -/
def find (name : List α) : Option (Long α) :=
  match o.long.find? fun l => l.name = name with
  | some l => some l
  | none =>
    match o.long.filter fun l => name.isPrefixOf l.name with
    | [] => none
    | l :: ls => if ls.all fun l' => l'.hasArg = l.hasArg ∧ l'.val = l.val then some l else none

/-- What the letters behind a dash give, and the last of them if it waits for an argument. -/
def letters : List α → List (Found α) × Option α
  | [] => ([], none)
  | c :: cs =>
    match o.short.lookup c with
    | none => (.wrong :: (letters cs).1, (letters cs).2)
    | some false => (.opt c [] :: (letters cs).1, (letters cs).2)
    | some true => if cs = [] then ([], some c) else ([.opt c cs], none)

def longOption (w : List α) : List (Found α) × Option α :=
  match o.find (w.takeWhile (· ≠ o.equals)), w.dropWhile (· ≠ o.equals) with
  | none, _ => ([.wrong], none)
  | some l, [] => if l.hasArg then ([], some l.val) else ([.opt l.val []], none)
  | some l, _ :: optarg => if l.hasArg then ([.opt l.val optarg], none) else ([.wrong], none)

def word : List α → Option (List (Found α) × Option α)
  | c :: d :: cs =>
    if c ≠ o.dash then none else some (if d = o.dash then o.longOption cs else o.letters (d :: cs))
  | _ => none

/-- What the calls return one after the other, and the operands, which may stand between the options. -/
def scan : List (List α) → List (Found α) × List (List α)
  | [] => ([], [])
  | w :: ws =>
    if w = [o.dash, o.dash] then ([], ws)
    else
      match o.word w with
      | none => ((scan ws).1, w :: (scan ws).2)
      | some (found, none) => (found ++ (scan ws).1, (scan ws).2)
      | some (found, some val) =>
        match ws with
        | [] => (found ++ [.wrong], [])
        | optarg :: ws => (found ++ .opt val optarg :: (scan ws).1, (scan ws).2)

def spell (l : Long α) (optarg : List α) : List α :=
  o.dash :: o.dash :: (l.name ++ if l.hasArg then o.equals :: optarg else [])

structure Spells (l : Long α) : Prop where
  found : o.find l.name = some l
  ne : l.name ≠ []
  equals : o.equals ∉ l.name

variable {o} {l : Long α} {optarg : List α}

theorem Spells.longOption (h : o.Spells l) (harg : l.hasArg = false → optarg = []) :
    o.longOption (l.name ++ if l.hasArg then o.equals :: optarg else []) = ([.opt l.val optarg], none) := by
  have hall : ∀ c ∈ l.name, decide (c ≠ o.equals) = true := by
    intro c hc
    apply decide_eq_true
    rintro rfl
    exact h.equals hc
  have hname : (l.name ++ if l.hasArg then o.equals :: optarg else []).takeWhile (· ≠ o.equals) = l.name := by
    rw [List.takeWhile_append_of_pos hall]
    split_ifs <;> simp
  have hvalue : (l.name ++ if l.hasArg then o.equals :: optarg else []).dropWhile (· ≠ o.equals) =
      if l.hasArg then o.equals :: optarg else [] := by
    rw [List.dropWhile_append_of_pos hall]
    split_ifs <;> simp
  unfold Options.longOption
  rw [hname, hvalue, h.found]
  cases hl : l.hasArg with
  | false =>
    rw [harg hl]
    simp [hl]
  | true => simp [hl]

theorem Spells.scan (h : o.Spells l) (harg : l.hasArg = false → optarg = []) (ws : List (List α)) :
    o.scan (o.spell l optarg :: ws) = (.opt l.val optarg :: (o.scan ws).1, (o.scan ws).2) := by
  have hne : ¬ o.spell l optarg = [o.dash, o.dash] := by
    intro hstop
    have hnil := List.append_eq_nil_iff.mp (List.cons.inj (List.cons.inj hstop).2).2
    exact h.ne hnil.1
  have hword : o.word (o.spell l optarg) = some ([.opt l.val optarg], none) := by
    rw [spell, word, if_neg (not_not.mpr rfl), if_pos rfl, h.longOption harg]
  rw [Options.scan, if_neg hne, hword]
  rfl

theorem scan_spells {opts : List (Long α × List α)} (h : ∀ e ∈ opts, o.Spells e.1)
    (harg : ∀ e ∈ opts, e.1.hasArg = false → e.2 = []) (ws : List (List α)) :
    o.scan (opts.map (fun e => o.spell e.1 e.2) ++ ws) =
      (opts.map (fun e => .opt e.1.val e.2) ++ (o.scan ws).1, (o.scan ws).2) := by
  induction opts with
  | nil => rfl
  | cons e opts ih =>
    rw [List.forall_mem_cons] at h harg
    rw [List.map_cons, List.cons_append, h.1.scan harg.1, ih h.2 harg.2]
    rfl

end Options

def args (val : α) (found : List (Found α)) : List (List α) :=
  found.filterMap fun
    | .opt val' optarg => if val' = val then some optarg else none
    | .wrong => none

theorem mem_args {val : α} {optarg : List α} {found : List (Found α)} :
    optarg ∈ args val found ↔ .opt val optarg ∈ found := by
  unfold args
  rw [List.mem_filterMap]
  constructor
  · rintro ⟨e, he, hsome⟩
    cases e with
    | wrong => exact absurd hsome nofun
    | opt c arg =>
      dsimp only at hsome
      split_ifs at hsome with hc
      obtain rfl := hc
      obtain rfl := Option.some.inj hsome
      exact he
  · intro he
    exact ⟨_, he, if_pos rfl⟩

theorem args_snoc (val c : α) (optarg : List α) (found : List (Found α)) :
    args val (found ++ [.opt c optarg]) = args val found ++ if c = val then [optarg] else [] := by
  unfold args
  rw [List.filterMap_append]
  split_ifs with hc <;> simp [hc]

theorem getLast?_args_snoc (val c : α) (optarg : List α) (found : List (Found α)) :
    (args val (found ++ [.opt c optarg])).getLast? =
      if c = val then some optarg else (args val found).getLast? := by
  rw [args_snoc]
  split_ifs <;> simp

theorem foldlM_eq_ok {E : Type} {step : σ → E → Except ε σ} {next : σ → E → σ} {good : E → Prop}
    (hgood : ∀ s e, good e → step s e = .ok (next s e)) (hbad : ∀ s e, ¬ good e → ∃ code, step s e = .error code)
    {found : List E} {s s' : σ} :
    found.foldlM step s = .ok s' ↔ (∀ e ∈ found, good e) ∧ s' = found.foldl next s := by
  induction found generalizing s with
  | nil =>
    constructor
    · intro h
      exact ⟨fun _ he => absurd he List.not_mem_nil, (Except.ok.inj h).symm⟩
    · rintro ⟨_, rfl⟩
      rfl
  | cons e found ih =>
    rw [List.foldlM_cons, List.forall_mem_cons, List.foldl_cons]
    by_cases he : good e
    · rw [hgood s e he]
      exact ih.trans (by rw [and_iff_right he])
    · obtain ⟨code, hcode⟩ := hbad s e he
      rw [hcode]
      constructor
      · intro h
        exact absurd h nofun
      · rintro ⟨⟨hgo, _⟩, _⟩
        exact absurd hgo he

end Getopt
