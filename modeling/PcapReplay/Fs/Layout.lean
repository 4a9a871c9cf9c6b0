import PcapReplay.Fs.Types
import PcapReplay.Lib.LittleEndian

/-! The packed layout of a metadata sector. -/

namespace PcapReplay
open LittleEndian

abbrev Sector := ℕ → UInt8

def metaFileLength : ℕ := nameLength + 16

namespace MetaFile

def toBytes (f : MetaFile) (k : ℕ) : UInt8 :=
  if h : k < nameLength then f.name ⟨k, h⟩
  else if k < nameLength + 8 then byte f.startBlock.toNat (k - nameLength)
  else byte f.endBlock.toNat (k - (nameLength + 8))

def ofBytes (b : ℕ → UInt8) : MetaFile where
  name k := b k
  startBlock := UInt64.ofNat (value 8 fun k => b (nameLength + k))
  endBlock := UInt64.ofNat (value 8 fun k => b (nameLength + 8 + k))

theorem ofBytes_toBytes (f : MetaFile) {b : ℕ → UInt8} (h : ∀ k < metaFileLength, b k = f.toBytes k) :
    ofBytes b = f := by
  have hs : value 8 (fun k => b (nameLength + k)) = f.startBlock.toNat := by
    refine (value_congr fun i hi => ?_).trans (value_byte f.startBlock.toNat_lt)
    rw [h _ (by simp only [metaFileLength]; omega), toBytes, dif_neg (by omega), if_pos (by omega),
      Nat.add_sub_cancel_left]
  have he : value 8 (fun k => b (nameLength + 8 + k)) = f.endBlock.toNat := by
    refine (value_congr fun i hi => ?_).trans (value_byte f.endBlock.toNat_lt)
    rw [h _ (by simp only [metaFileLength]; omega), toBytes, dif_neg (by omega), if_neg (by omega),
      Nat.add_sub_cancel_left]
  have hn : (fun k : Fin nameLength => b k) = f.name := by
    funext k
    rw [h k (by simp only [metaFileLength]; omega), toBytes, dif_pos k.isLt]
  rw [ofBytes, hs, he, hn, UInt64.ofNat_toNat, UInt64.ofNat_toNat]

end MetaFile

namespace MetaSector

def toBytes (m : MetaSector) : Sector := fun a =>
  if a < 4 then byte m.magic.toNat a
  else if a = 4 then m.version
  else if a = 5 then m.diskId
  else if a = 6 then m.totalDisks
  else if a = 7 then m.totalFiles
  else if h : (a - 8) / metaFileLength < maxFiles then
    (m.content ⟨(a - 8) / metaFileLength, h⟩).toBytes ((a - 8) % metaFileLength)
  else 0

def ofBytes (b : Sector) : MetaSector where
  magic := UInt32.ofNat (value 4 b)
  version := b 4
  diskId := b 5
  totalDisks := b 6
  totalFiles := b 7
  content j := MetaFile.ofBytes fun k => b (8 + metaFileLength * j + k)

theorem toBytes_content (m : MetaSector) (j : Fin maxFiles) {k : ℕ} (hk : k < metaFileLength) :
    m.toBytes (8 + metaFileLength * j + k) = (m.content j).toBytes k := by
  have hsub : 8 + metaFileLength * j + k - 8 = metaFileLength * j + k := by omega
  have hdiv : (metaFileLength * j + k) / metaFileLength = j := by
    rw [Nat.mul_add_div (by decide), Nat.div_eq_of_lt hk, Nat.add_zero]
  have hmod : (metaFileLength * j + k) % metaFileLength = k := by
    rw [Nat.mul_add_mod, Nat.mod_eq_of_lt hk]
  rw [toBytes, if_neg (by omega), if_neg (by omega), if_neg (by omega), if_neg (by omega),
    if_neg (by omega)]
  simp only [hsub, hdiv, hmod, j.isLt, dite_true]

def fromName (m : MetaSector) (j : Fin maxFiles) : List UInt8 :=
  ((List.range sectorLength).map m.toBytes).drop (8 + metaFileLength * j)

theorem take_fromName (m : MetaSector) (j : Fin maxFiles) (behind : List UInt8) :
    (m.fromName j ++ behind).take nameLength = List.ofFn (m.content j).name := by
  have hj : (j : ℕ) < 12 := j.isLt
  have hlength : (m.fromName j).length = 512 - (8 + 42 * j) := by
    rw [fromName, List.length_drop, List.length_map, List.length_range]
    rfl
  apply List.ext_getElem
  · rw [List.length_take, List.length_append, List.length_ofFn, hlength]
    show min 26 _ = 26
    omega
  · intro k _ hk'
    rw [List.length_ofFn] at hk'
    have hk : k < 26 := hk'
    have hbyte := m.toBytes_content j (show k < metaFileLength from hk'.trans (by decide))
    rw [MetaFile.toBytes, dif_pos hk'] at hbyte
    have hlt : k < (m.fromName j).length := by
      rw [hlength]
      omega
    rw [List.getElem_take, List.getElem_append_left hlt,
      List.getElem_ofFn, ← hbyte]
    simp only [fromName, List.getElem_drop, List.getElem_map, List.getElem_range]

theorem ofBytes_toBytes (m : MetaSector) {b : Sector} (h : ∀ a < sectorLength, b a = m.toBytes a) :
    ofBytes b = m := by
  have hm : value 4 b = m.magic.toNat := by
    refine (value_congr fun i hi => ?_).trans (value_byte m.magic.toNat_lt)
    rw [h i (by simp only [sectorLength]; omega), toBytes, if_pos hi]
  have hc : (fun j : Fin maxFiles => MetaFile.ofBytes fun k => b (8 + metaFileLength * j + k)) =
      m.content := by
    funext j
    refine MetaFile.ofBytes_toBytes _ fun k hk => ?_
    have hlt : 8 + metaFileLength * j + k < sectorLength := by
      have hj := j.isLt
      simp only [sectorLength, metaFileLength, nameLength, maxFiles] at *
      omega
    rw [h _ hlt, toBytes_content m j hk]
  have hb : ∀ a < 8, b a = m.toBytes a := fun a ha => h a (by simp only [sectorLength]; omega)
  rw [ofBytes, hm, hc, hb 4 (by omega), hb 5 (by omega), hb 6 (by omega), hb 7 (by omega),
    UInt32.ofNat_toNat]
  rfl

end MetaSector
end PcapReplay
