import Mathlib.Data.List.TakeDrop
import Mathlib.Order.Basic

/-! Streams of records that carry their length in a header, with a header that ends them. -/

namespace Records

/-- Headers of `width` symbols: `size` is the length of what follows one, and `stop` holds of the
headers that end a stream. -/
structure Format (α : Type) where
  width : ℕ
  pos : 0 < width
  size : List α → ℕ
  stop : List α → Bool

namespace Format
variable {α : Type} (F : Format α)

def read (l : List α) : Option (List (List α)) :=
  if _h : l.length < F.width then none
  else if F.stop (l.take F.width) then some []
  else if (l.drop F.width).length < F.size (l.take F.width) then none
  else
    (read (l.drop (F.width + F.size (l.take F.width)))).map fun records =>
      (l.drop F.width).take (F.size (l.take F.width)) :: records
termination_by l.length
decreasing_by
  have hpos := F.pos
  rw [List.length_drop]
  omega

variable {header body rest : List α}

theorem read_stop (hw : header.length = F.width) (hs : F.stop header = true) :
    F.read (header ++ rest) = some [] := by
  have htake : (header ++ rest).take F.width = header := List.take_left' hw
  have hlong : ¬ (header ++ rest).length < F.width := by
    rw [List.length_append]
    omega
  rw [read, dif_neg hlong, htake, if_pos hs]

theorem read_record (hw : header.length = F.width) (hs : F.stop header = false)
    (hb : body.length = F.size header) :
    F.read (header ++ (body ++ rest)) = (F.read rest).map fun records => body :: records := by
  have htake : (header ++ (body ++ rest)).take F.width = header := List.take_left' hw
  have hdrop : (header ++ (body ++ rest)).drop F.width = body ++ rest := List.drop_left' hw
  have hlong : ¬ (header ++ (body ++ rest)).length < F.width := by
    rw [List.length_append]
    omega
  have hbody : ¬ (body ++ rest).length < F.size header := by
    rw [List.length_append]
    omega
  have hrest : (header ++ (body ++ rest)).drop (F.width + F.size header) = rest := by
    rw [← List.drop_drop, hdrop]
    exact List.drop_left' hb
  rw [read, dif_neg hlong, htake, hs, if_neg Bool.false_ne_true, hdrop, if_neg hbody, hrest,
    List.take_left' hb]

def Reads (l : List α) (records : List (List α)) : Prop := ∀ pad, F.read (l ++ pad) = some records

theorem reads_stop (hw : header.length = F.width) (hs : F.stop header = true) : F.Reads header [] :=
  fun _ => F.read_stop hw hs

theorem reads_record_iff (hw : header.length = F.width) (hs : F.stop header = false)
    (hb : body.length = F.size header) {record : List α} {records : List (List α)} :
    F.Reads (header ++ (body ++ rest)) (record :: records) ↔ body = record ∧ F.Reads rest records := by
  have hread : ∀ pad, F.read (header ++ (body ++ rest) ++ pad) = some (record :: records) ↔
      body = record ∧ F.read (rest ++ pad) = some records := by
    intro pad
    rw [List.append_assoc, List.append_assoc, F.read_record hw hs hb]
    cases F.read (rest ++ pad) <;> simp
  constructor
  · intro h
    exact ⟨((hread []).mp (h [])).1, fun pad => ((hread pad).mp (h pad)).2⟩
  · rintro ⟨hbody, hrest⟩ pad
    exact (hread pad).mpr ⟨hbody, hrest pad⟩

variable {F} in
/-- The records are determined by the stream, even if something else follows it. -/
theorem Reads.unique {l l' pad pad' : List α} {records records' : List (List α)} (h : F.Reads l records)
    (h' : F.Reads l' records') (heq : l ++ pad = l' ++ pad') : records = records' := by
  have hread := h pad
  rw [heq, h' pad'] at hread
  exact (Option.some.inj hread).symm

end Format
end Records
