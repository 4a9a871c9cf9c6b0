import PcapReplay.Fs.Names
import Mathlib.Logic.Function.Basic
import Mathlib.Data.List.GetD

/-! What the tools are for: a directory of named files, whose bytes come in whole sectors. -/

namespace PcapReplay

abbrev Key := List UInt8

abbrev Directory := Key → Option (List UInt8)

def pad (bytes : List UInt8) : List UInt8 :=
  bytes ++ List.replicate ((bytes.length + 511) / 512 * 512 - bytes.length) 0

theorem length_pad (bytes : List UInt8) : (pad bytes).length = (bytes.length + 511) / 512 * 512 := by
  rw [pad, List.length_append, List.length_replicate]
  omega

theorem getD_pad (bytes : List UInt8) (i : ℕ) : (pad bytes).getD i 0 = bytes.getD i 0 := by
  unfold pad
  rcases Nat.lt_or_ge i bytes.length with hlt | hge
  · rw [List.getD_append _ _ _ _ hlt]
  · rw [List.getD_append_right _ _ _ _ hge, List.getD_eq_default _ _ hge, List.getD_eq_getElem?_getD,
      List.getElem?_getD_replicate_default_eq]

inductive Call where
  | format
  | ls
  | rm (names : List Key)
  | cpIn (name : Key) (bytes : List UInt8)
  | cpOut (name : Key)

inductive Answer where
  | nothing
  /-- The names with their numbers of sectors, and how many files are said to be shown; `none` where
  there are said to be none. -/
  | listing (l : Option (List (Key × ℕ) × ℤ))
  | removed (ok : List Bool)
  | copied (bytes : Option (List UInt8))

namespace Directory

def empty : Directory := fun _ => none

/-- Each of the names is there to be removed unless an earlier one has been the same. -/
def remove (d : Directory) : List Key → List Bool × Directory
  | [] => ([], d)
  | name :: names =>
    let r := remove (Function.update d name none) names
    ((d name).isSome :: r.1, r.2)

/-- The lines are the files, each of them once. The name is what a line says of it where that has fewer than
26 bytes; else it is the first 26 of them, and the line goes on with others. -/
structure Lists (d : Directory) (lines : List (Key × ℕ)) : Prop where
  nodup : (lines.map fun line => line.1.take nameLength).Nodup
  mem : ∀ name sectors, (name, sectors) ∈ lines.map (fun line => (line.1.take nameLength, line.2)) ↔
    ∃ bytes, d name = some bytes ∧ bytes.length = sectors * 512

inductive Step : Directory → Call → Answer → Directory → Prop
  | format (d : Directory) : Step d .format .nothing empty
  | ls {d : Directory} {lines : List (Key × ℕ)} (hl : d.Lists lines) (hne : lines ≠ []) :
      Step d .ls (.listing (some (lines, lines.length))) d
  | lsEmpty : Step empty .ls (.listing none) empty
  | rm (d : Directory) (names : List Key) : Step d (.rm names) (.removed (d.remove names).1)
      (d.remove names).2
  | store {d : Directory} {name : Key} {bytes : List UInt8} (hname : name ≠ [])
      (hfits : ∀ old, d name = some old → bytes.length ≤ old.length) :
      Step d (.cpIn name bytes) .nothing (Function.update d name (some (pad bytes)))
  | tooLarge {d : Directory} {name : Key} {bytes old : List UInt8} (hold : d name = some old)
      (hlarge : old.length < bytes.length) : Step d (.cpIn name bytes) .nothing d
  /-- There is no room for one more file. -/
  | refused {d : Directory} {name : Key} (hnew : d name = none) : Step d (.cpIn name []) .nothing d
  | storeUnnamed (d : Directory) (bytes : List UInt8) : Step d (.cpIn [] bytes) .nothing d
  | load {d : Directory} {name : Key} (hname : name ≠ []) : Step d (.cpOut name) (.copied (d name)) d
  /-- The empty name is that of every free entry. -/
  | loadUnnamed (d : Directory) {bytes : Option (List UInt8)} (hbytes : bytes = none ∨ bytes = some []) :
      Step d (.cpOut []) (.copied bytes) d

inductive Run : List (Call × Answer) → Directory → Prop
  | nil : Run [] empty
  | snoc {log : List (Call × Answer)} {d d' : Directory} {call : Call} {answer : Answer} (h : Run log d)
      (hstep : d.Step call answer d') : Run (log ++ [(call, answer)]) d'

theorem Run.of_format {d : Directory} {answer : Answer} (h : Run [(.format, answer)] d) : d = empty := by
  generalize hlog : [(Call.format, answer)] = log at h
  cases h with
  | nil => rfl
  | @snoc before _ _ call _ _ hstep =>
    obtain ⟨_, hlast⟩ := List.append_inj' (show [] ++ _ = _ from hlog) rfl
    obtain ⟨rfl, rfl⟩ := Prod.mk.inj (List.singleton_inj.mp hlast)
    cases hstep
    rfl

/-- What a process leaves that is stopped before its end: a file that it was writing has its new size, and
may have any bytes. -/
inductive Interrupted : Directory → Call → Directory → Prop
  | untouched (d : Directory) (call : Call) : Interrupted d call d
  | rm (d : Directory) (names : List Key) (k : ℕ) : Interrupted d (.rm names) (d.remove (names.take k)).2
  | store {d : Directory} {name : Key} {bytes garbage : List UInt8} (hname : name ≠ [])
      (hfits : ∀ old, d name = some old → bytes.length ≤ old.length) (hlength : garbage.length = (pad bytes).length) :
      Interrupted d (.cpIn name bytes) (Function.update d name (some garbage))

/-- What becomes of the directory where processes may be stopped: one that was has no answer. The number of
files may then be wrong. -/
inductive Kept : Directory → Call × Option Answer → Directory → Prop
  | answered {d d' : Directory} {call : Call} {answer : Answer} (h : d.Step call answer d') :
      Kept d (call, some answer) d'
  | miscounted {d : Directory} {lines : List (Key × ℕ)} (hl : d.Lists lines) (count : ℤ) :
      Kept d (.ls, some (.listing (some (lines, count)))) d
  | hidden (d : Directory) : Kept d (.ls, some (.listing none)) d
  | stopped {d d' : Directory} {call : Call} (h : d.Interrupted call d') : Kept d (call, none) d'

inductive History : List (Call × Option Answer) → Directory → Prop
  | nil : History [] empty
  | snoc {log : List (Call × Option Answer)} {d d' : Directory} {event : Call × Option Answer}
      (h : History log d)
      (hstep : d.Kept event d') : History (log ++ [event]) d'

end Directory
end PcapReplay
