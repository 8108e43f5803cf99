import Dagayn.Dict
import Mathlib

/-!
# The stored files

The rows of one file are always written together, with one `file_hash` and one
`mtime_ns`, so a graph database is, for an update, a table of files. A write sets the
rows of one path (or removes them) or refreshes its mtime; the store operations are
lists of writes. `lookup_writeAll` reads a list of writes path by path, which is how
every later proof uses it: what happens to a path depends on the writes at that path.
-/

namespace Dagayn

/-- What the `nodes` rows of one file agree on. -/
structure FileRow where
  fileHash : String
  mtimeNs : Int
  languages : List String := []
deriving DecidableEq, Repr

inductive FileWrite where
  | mtime (mtimeNs : Int)
  | rows (row : Option FileRow)
deriving DecidableEq, Repr

def FileWrite.apply : FileWrite → Option FileRow → Option FileRow
  | .mtime m, row => row.map fun r => { r with mtimeNs := m }
  | .rows row, _ => row

abbrev FileTable := Dict String FileRow

namespace FileTable

def write (d : FileTable) (w : String × FileWrite) : FileTable :=
  match w.2.apply (d.lookup w.1) with
  | some row => AList.insert w.1 row d
  | none => AList.erase w.1 d

def writeAll (d : FileTable) (ws : List (String × FileWrite)) : FileTable := ws.foldl write d

def paths (d : FileTable) : List String := d.keys

variable {d : FileTable} {p : String} {ws : List (String × FileWrite)}

theorem mem_paths : p ∈ d.paths ↔ ∃ row, d.lookup p = some row := by
  rw [paths, ← AList.mem_keys, ← AList.lookup_isSome, Option.isSome_iff_exists]

theorem lookup_write (d : FileTable) (w : String × FileWrite) (p : String) :
    (d.write w).lookup p = if p = w.1 then w.2.apply (d.lookup w.1) else d.lookup p := by
  simp only [write]
  split
  · rename_i row h
    rw [Dict.lookup_insert_ite, h]
  · rename_i h
    rw [Dict.lookup_erase_ite, h]

theorem lookup_writeAll (p : String) : ∀ (ws : List (String × FileWrite)) (d : FileTable),
    (d.writeAll ws).lookup p
      = (ws.filter fun w => w.1 = p).foldl (fun row w => w.2.apply row) (d.lookup p)
  | [], _ => rfl
  | w :: ws, d => by
      have hcons : d.writeAll (w :: ws) = (d.write w).writeAll ws := rfl
      rw [hcons, lookup_writeAll p ws, lookup_write]
      by_cases h : w.1 = p
      · subst h
        simp
      · simp [h, Ne.symm h]

theorem lookup_writeAll_of_notMem (h : p ∉ ws.map Prod.fst) :
    (d.writeAll ws).lookup p = d.lookup p := by
  have hnil : ws.filter (fun w => w.1 = p) = [] := by
    rw [List.filter_eq_nil_iff]
    intro w hw hwp
    exact h (List.mem_map.mpr ⟨w, hw, by simpa using hwp⟩)
  rw [lookup_writeAll, hnil]
  rfl

theorem lookup_writeAll_induct {P : Option FileRow → Prop}
    (hw : ∀ w ∈ ws, w.1 = p → ∀ row, P row → P (w.2.apply row)) (h : P (d.lookup p)) :
    P ((d.writeAll ws).lookup p) := by
  induction ws generalizing d with
  | nil => exact h
  | cons w ws ih =>
      refine ih (d := d.write w) (fun v hv => hw v (List.mem_cons_of_mem _ hv)) ?_
      rw [lookup_write]
      split
      · rename_i hp
        subst hp
        exact hw w List.mem_cons_self rfl _ h
      · exact h

theorem lookup_writeAll_of_mem {P : Option FileRow → Prop} (hmem : p ∈ ws.map Prod.fst)
    (hfirst : ∀ w ∈ ws, w.1 = p → P (w.2.apply (d.lookup p)))
    (hnext : ∀ w ∈ ws, w.1 = p → ∀ row, P row → P (w.2.apply row)) :
    P ((d.writeAll ws).lookup p) := by
  induction ws generalizing d with
  | nil => exact absurd hmem List.not_mem_nil
  | cons w ws ih =>
      have hnext' : ∀ v ∈ ws, v.1 = p → ∀ row, P row → P (v.2.apply row) :=
        fun v hv => hnext v (List.mem_cons_of_mem _ hv)
      by_cases hwp : w.1 = p
      · refine lookup_writeAll_induct (d := d.write w) hnext' ?_
        rw [lookup_write, if_pos hwp.symm, hwp]
        exact hfirst w List.mem_cons_self hwp
      · refine ih (d := d.write w) ?_ ?_ hnext'
        · rw [List.map_cons, List.mem_cons] at hmem
          exact hmem.resolve_left (Ne.symm hwp)
        · intro v hv hvp
          rw [lookup_write, if_neg (Ne.symm hwp)]
          exact hfirst v (List.mem_cons_of_mem _ hv) hvp

theorem lookup_writeAll_remove {paths : List String} (h : p ∈ paths) :
    (d.writeAll (paths.map fun q => (q, .rows none))).lookup p = none := by
  have hrows : ∀ w ∈ paths.map fun q => (q, FileWrite.rows none), w.2 = .rows none := by
    intro w hw
    obtain ⟨q, -, rfl⟩ := List.mem_map.mp hw
    rfl
  refine lookup_writeAll_of_mem (P := fun row => row = none) ?_ ?_ ?_
  · rw [List.map_map, List.mem_map]
    exact ⟨p, h, rfl⟩
  · intro w hw _
    rw [hrows w hw]
    rfl
  · intro w hw _ row _
    rw [hrows w hw]
    rfl

end FileTable

end Dagayn
