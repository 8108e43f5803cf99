import Mathlib

/-!
# Line numbers by offset

A `LineCursor` is asked for the line of one offset after the other. The first few times it counts
from the start of the text, then from the offset it was last asked for, unless that lies behind.
-/

namespace Dagayn

namespace Markdowns

def lineCursorScanThreshold : Nat := 4

structure LineCursor where
  bytes : List UInt8
  offset : Nat
  line : Int
  lookups : Nat

/-- `bytes[start..stop]`, with `none` for a panic. -/
def byteRange (start stop : Nat) (bytes : List UInt8) : Option (List UInt8) :=
  if start ≤ stop ∧ stop ≤ bytes.length then some ((bytes.take stop).drop start) else none

def newlines (bytes : List UInt8) : Nat := bytes.countP fun byte => byte = '\n'.toUInt8

/-- The line of an offset; offsets behind the end are in the last one. -/
def lineAt (bytes : List UInt8) (offset : Nat) : Int := newlines (bytes.take offset) + 1

namespace LineCursor

def new (bytes : List UInt8) : LineCursor := ⟨bytes, 0, 1, 0⟩

def lineForOffset (c : LineCursor) (offset : Nat) : Option (LineCursor × Int) :=
  let stop := min offset c.bytes.length
  if c.lookups < lineCursorScanThreshold then
    (byteRange 0 stop c.bytes).map fun scanned =>
      let line : Int := newlines scanned + 1
      ({ c with lookups := c.lookups + 1, offset := stop, line := line }, line)
  else
    let (start, line) := if offset < c.offset then (0, 1) else (c.offset, c.line)
    (byteRange start stop c.bytes).map fun scanned =>
      let line := line + newlines scanned
      ({ c with offset := stop, line := line }, line)

def linesFor (c : LineCursor) : List Nat → Option (List Int)
  | [] => some []
  | offset :: offsets =>
      (c.lineForOffset offset).bind fun (c', line) => (c'.linesFor offsets).map (line :: ·)

structure Valid (c : LineCursor) : Prop where
  inside : c.offset ≤ c.bytes.length
  line : c.line = lineAt c.bytes c.offset

theorem valid_new (bytes : List UInt8) : (new bytes).Valid :=
  ⟨Nat.zero_le _, by rw [new, lineAt, List.take_zero]; rfl⟩

end LineCursor

theorem lineAt_min (bytes : List UInt8) (offset : Nat) :
    lineAt bytes (min offset bytes.length) = lineAt bytes offset := by
  rw [lineAt, lineAt, ← List.take_eq_take_min]

theorem lineAt_range {bytes scanned : List UInt8} {start stop : Nat}
    (h : byteRange start stop bytes = some scanned) :
    lineAt bytes stop = lineAt bytes start + newlines scanned := by
  rw [byteRange] at h
  split at h
  · rename_i hrange
    obtain rfl := Option.some.inj h
    have hsplit := List.take_append_drop start (bytes.take stop)
    rw [List.take_take, Nat.min_eq_left hrange.1] at hsplit
    have hcount : newlines (bytes.take stop) =
        newlines (bytes.take start) + newlines ((bytes.take stop).drop start) := by
      conv_lhs => rw [← hsplit]
      exact List.countP_append
    rw [lineAt, lineAt, hcount]
    push_cast
    omega
  · cases h

theorem byteRange_of_le {bytes : List UInt8} {start stop : Nat} (h : start ≤ stop)
    (h' : stop ≤ bytes.length) : ∃ scanned, byteRange start stop bytes = some scanned :=
  ⟨_, if_pos ⟨h, h'⟩⟩

namespace LineCursor

theorem Valid.lineForOffset {c : LineCursor} (h : c.Valid) (offset : Nat) :
    ∃ c', c.lineForOffset offset = some (c', lineAt c.bytes offset) ∧ c'.Valid ∧
      c'.bytes = c.bytes := by
  have hstop : min offset c.bytes.length ≤ c.bytes.length := Nat.min_le_right _ _
  -- where the count starts, with the line of that offset
  have hfrom : ∀ start (line : Int), line = lineAt c.bytes start →
      start ≤ min offset c.bytes.length → ∃ scanned,
        byteRange start (min offset c.bytes.length) c.bytes = some scanned ∧
          line + newlines scanned = lineAt c.bytes offset := by
    intro start line hline hstart
    obtain ⟨scanned, hscanned⟩ := byteRange_of_le hstart hstop
    exact ⟨scanned, hscanned, by rw [hline, ← lineAt_range hscanned, lineAt_min]⟩
  have hzero : (1 : Int) = lineAt c.bytes 0 := by rw [lineAt, List.take_zero]; rfl
  rw [LineCursor.lineForOffset]
  dsimp only
  split
  · obtain ⟨scanned, hscanned, hline⟩ := hfrom 0 1 hzero (Nat.zero_le _)
    rw [Int.add_comm] at hline
    rw [hscanned, Option.map_some, hline]
    exact ⟨_, rfl, ⟨hstop, (lineAt_min c.bytes offset).symm⟩, rfl⟩
  · split
    · obtain ⟨scanned, hscanned, hline⟩ := hfrom 0 1 hzero (Nat.zero_le _)
      rw [hscanned, Option.map_some, hline]
      exact ⟨_, rfl, ⟨hstop, (lineAt_min c.bytes offset).symm⟩, rfl⟩
    · rename_i hforward
      have hstart : c.offset ≤ min offset c.bytes.length :=
        Nat.le_min.mpr ⟨Nat.le_of_not_lt hforward, h.inside⟩
      obtain ⟨scanned, hscanned, hline⟩ := hfrom c.offset c.line h.line hstart
      rw [hscanned, Option.map_some, hline]
      exact ⟨_, rfl, ⟨hstop, (lineAt_min c.bytes offset).symm⟩, rfl⟩

theorem Valid.linesFor {c : LineCursor} (h : c.Valid) (offsets : List Nat) :
    c.linesFor offsets = some (offsets.map (lineAt c.bytes)) := by
  induction offsets generalizing c with
  | nil => rfl
  | cons offset offsets ih =>
      obtain ⟨c', hc', hvalid, hbytes⟩ := h.lineForOffset offset
      rw [LineCursor.linesFor, hc', Option.bind_some]
      dsimp only
      rw [ih hvalid, hbytes]
      rfl

end LineCursor

end Markdowns

end Dagayn
