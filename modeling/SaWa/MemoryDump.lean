import SaWa.HttpServer
import SaWa.SawaProtocol

/-! `Util::dumpMem`: the rows that show a buffer, and what can be read back out of them. -/
namespace MemoryDump

open HttpServer RangeStore SawaProtocol

/-- The table `ascii`. -/
def asciiOf (b : UInt8) : Char := if 32 ≤ b ∧ b ≤ 126 then Char.ofNat b.toNat else '.'

/-- `setfill('0') << setw(width) << hex`. -/
def hexField (width n : ℕ) : Text :=
  List.replicate (width - (Nat.toDigits 16 n).length) '0' ++ Nat.toDigits 16 n

def label (j : ℕ) : Text := ' ' :: hexField 4 j

def cell (b : UInt8) : Text := ' ' :: hexField 2 b.toNat

def blank : Text := [' ', ' ', ' ']

def column (asciiRow : Text) : Text := blank ++ asciiRow ++ ['\n']

/-- The loop over the cells of a row from column `i` on. It prints the `i`th byte of the buffer in
every row. `none` says that the function returns inside the row. -/
def cellLoop (addr : Mem) (size : ℤ) : ℕ → ℕ → ℕ → Text → Text × Option (ℕ × Text)
  | 0, _, j, asciiRow => ([], some (j, asciiRow))
  | n + 1, i, j, asciiRow =>
    if size ≤ j then ((List.replicate (16 - i) blank).flatten ++ column asciiRow, none)
    else
      let r := cellLoop addr size n (i + 1) (j + 1) (asciiRow.set i (asciiOf (addr j)))
      (cell (addr i) ++ r.1, r.2)

def spaces : Text := List.replicate 16 ' '

def dumpLoop (addr : Mem) (size : ℤ) : ℕ → ℕ → Option Text
  | 0, _ => none
  | fuel + 1, j =>
    if size ≤ j then some []
    else
      match cellLoop addr size 16 0 j spaces with
      | (printed, none) => some (label j ++ printed)
      | (printed, some (j', asciiRow)) =>
        (dumpLoop addr size fuel j').map (label j ++ printed ++ column asciiRow ++ ·)

def dumpMem (debugFlag : ℤ) (addr : Mem) (size : ℤ) : Option Text :=
  if debugFlag = 0 then some [] else dumpLoop addr size (size.toNat + 1) 0

/-! ### A dump and its reader -/

/-- The row at `offset` with these cells and these bytes in the column of characters. -/
def rowOf (offset : ℕ) (cells chars : List UInt8) : Text :=
  label offset ++ cells.flatMap cell ++ (List.replicate (16 - cells.length) blank).flatten ++
    column (chars.map asciiOf ++ List.replicate (16 - chars.length) ' ')

def rowCount (n : ℕ) : ℕ := (n + 15) / 16

/-- The bytes of `n` that are in row `r`. -/
def rowLength (n r : ℕ) : ℕ := min 16 (n - 16 * r)

/-- Sixteen bytes a row, each row with the offset of its first byte. -/
def dumpOf (bytes : List UInt8) : Text :=
  (List.range (rowCount bytes.length)).flatMap fun r =>
    let shown := (bytes.drop (16 * r)).take 16
    rowOf (16 * r) shown shown

def hexValue (c : Char) : Option ℕ :=
  if '0' ≤ c ∧ c ≤ '9' then some (c.toNat - 48)
  else if 'a' ≤ c ∧ c ≤ 'f' then some (c.toNat - 87)
  else none

/-- The bytes in the next `n` cells; a blank cell has none. -/
def readCells : ℕ → Text → List UInt8
  | n + 1, _ :: high :: low :: rest =>
    match hexValue high, hexValue low with
    | some h, some l => UInt8.ofNat (16 * h + l) :: readCells n rest
    | _, _ => readCells n rest
  | _, _ => []

def readLine (line : Text) : List UInt8 := readCells 16 ((line.drop 1).dropWhile (· ≠ ' '))

/-- The bytes in the hexadecimal cells of a dump. -/
def recover (dump : Text) : List UInt8 := (dump.splitOn '\n').flatMap readLine

structure Shows (bytes : List UInt8) (dump : Text) : Prop where
  layout : dump = dumpOf bytes
  recovered : recover dump = bytes

section Hex

theorem digitChar_hexValue {d : ℕ} (h : d < 16) : hexValue d.digitChar = some d := by
  revert d
  decide

theorem mem_toDigits {n : ℕ} {c : Char} (h : c ∈ Nat.toDigits 16 n) : (hexValue c).isSome := by
  induction n using Nat.strongRecOn with
  | ind n ih =>
    rw [Nat.toDigits_eq_if (by decide)] at h
    split at h
    · next hn =>
      rw [List.mem_singleton.1 h, digitChar_hexValue hn]
      rfl
    · next hn =>
      rcases List.mem_append.1 h with h | h
      · exact ih (n / 16) (by omega) h
      · rw [List.mem_singleton.1 h, digitChar_hexValue (Nat.mod_lt n (by decide))]
        rfl

theorem mem_hexField {width n : ℕ} {c : Char} (h : c ∈ hexField width n) :
    (hexValue c).isSome := by
  rcases List.mem_append.1 h with h | h
  · rw [List.eq_of_mem_replicate h]
    decide
  · exact mem_toDigits h

theorem hexField_byte (b : UInt8) :
    hexField 2 b.toNat = [(b.toNat / 16).digitChar, (b.toNat % 16).digitChar] := by
  have hlt := b.toNat_lt
  unfold hexField
  rw [Nat.toDigits_eq_if (by decide)]
  split
  · next h =>
    rw [Nat.div_eq_of_lt h, Nat.mod_eq_of_lt h]
    rfl
  · next h =>
    rw [Nat.toDigits_of_lt_base (by omega)]
    rfl

theorem readCells_cell (n : ℕ) (b : UInt8) (rest : Text) :
    readCells (n + 1) (cell b ++ rest) = b :: readCells n rest := by
  have hlt := b.toNat_lt
  rw [cell, hexField_byte]
  show (match hexValue _, hexValue _ with
    | some h, some l => UInt8.ofNat (16 * h + l) :: readCells n rest
    | _, _ => readCells n rest) = _
  rw [digitChar_hexValue (by omega), digitChar_hexValue (Nat.mod_lt _ (by decide))]
  show UInt8.ofNat _ :: _ = _
  rw [Nat.div_add_mod, UInt8.ofNat_toNat]

theorem readCells_blanks (n : ℕ) (rest : Text) :
    readCells n ((List.replicate n blank).flatten ++ rest) = [] := by
  induction n with
  | zero => simp [readCells]
  | succ n ih => exact ih

theorem readCells_row (cells : List UInt8) (k : ℕ) (rest : Text) :
    readCells (cells.length + k)
      (cells.flatMap cell ++ ((List.replicate k blank).flatten ++ rest)) = cells := by
  induction cells with
  | nil =>
    rw [List.length_nil, Nat.zero_add]
    exact readCells_blanks k rest
  | cons b cells ih =>
    rw [List.length_cons, Nat.succ_add, List.flatMap_cons, List.append_assoc, readCells_cell, ih]

end Hex

section Lines
variable {offset : ℕ} {cells chars : List UInt8}

def lineOf (offset : ℕ) (cells chars : List UInt8) : Text :=
  label offset ++ (cells.flatMap cell ++ ((List.replicate (16 - cells.length) blank).flatten ++
    (blank ++ (chars.map asciiOf ++ List.replicate (16 - chars.length) ' '))))

theorem rowOf_eq : rowOf offset cells chars = lineOf offset cells chars ++ ['\n'] := by
  simp [rowOf, lineOf, column]

theorem asciiOf_ne_newline (b : UInt8) : asciiOf b ≠ '\n' := by
  have hprintable : ∀ n < 127, 32 ≤ n → Char.ofNat n ≠ '\n' := by decide
  unfold asciiOf
  split
  · next h =>
    have hhigh := UInt8.le_iff_toNat_le.1 h.2
    exact hprintable b.toNat (Nat.lt_succ_of_le hhigh) (UInt8.le_iff_toNat_le.1 h.1)
  · decide

theorem newline_notMem_line : '\n' ∉ lineOf offset cells chars := by
  have hhex : ∀ {width n}, '\n' ∉ hexField width n := fun h => absurd (mem_hexField h) (by decide)
  simp [lineOf, label, cell, blank, hhex, asciiOf_ne_newline]

theorem readLine_line (hcells : cells.length ≤ 16) :
    readLine (lineOf offset cells chars) = cells := by
  have hfield : ∀ c ∈ hexField 4 offset, decide (c ≠ ' ') = true := by
    intro c hc
    have hsome := mem_hexField hc
    rw [decide_eq_true_eq]
    rintro rfl
    exact absurd hsome (by decide)
  have hspace : ∀ rest : Text, ∃ t, cells.flatMap cell ++
      ((List.replicate (16 - cells.length) blank).flatten ++ (blank ++ rest)) = ' ' :: t := by
    intro rest
    cases cells with
    | nil => exact ⟨_, rfl⟩
    | cons b cells => exact ⟨_, rfl⟩
  obtain ⟨t, ht⟩ := hspace (chars.map asciiOf ++ List.replicate (16 - chars.length) ' ')
  have hread := readCells_row cells (16 - cells.length)
    (blank ++ (chars.map asciiOf ++ List.replicate (16 - chars.length) ' '))
  rw [Nat.add_sub_cancel' hcells] at hread
  rw [readLine, lineOf, label, List.cons_append, List.drop_one, List.tail_cons,
    List.dropWhile_append_of_pos hfield, ht, List.dropWhile_cons_of_neg (by decide), ← ht, hread]

theorem recover_rows {ι : Type} (rows : List ι) (offset : ι → ℕ) (cells chars : ι → List UInt8)
    (hcells : ∀ r, (cells r).length ≤ 16) :
    recover (rows.flatMap fun r => rowOf (offset r) (cells r) (chars r)) = rows.flatMap cells := by
  induction rows with
  | nil => rfl
  | cons r rows ih =>
    rw [List.flatMap_cons, rowOf_eq, List.append_assoc, recover, List.singleton_append,
      List.splitOn_append_cons_self_of_not_mem newline_notMem_line, List.flatMap_cons,
      readLine_line (hcells r)]
    exact congrArg (cells r ++ ·) ih

end Lines

section Loops
variable {addr : Mem} {size : ℤ}

theorem set_replicate (shown : Text) (n : ℕ) (c : Char) :
    (shown ++ List.replicate (n + 1) ' ').set shown.length c =
      shown ++ [c] ++ List.replicate n ' ' := by
  simp [List.replicate_succ]

theorem cellLoop_full {n : ℕ} {shown : Text} {j : ℕ} (h : (j + n : ℕ) ≤ size) :
    cellLoop addr size n shown.length j (shown ++ List.replicate n ' ') =
      ((load addr shown.length n).flatMap cell,
        some (j + n, shown ++ (load addr j n).map asciiOf)) := by
  induction n generalizing shown j with
  | zero => simp [cellLoop]
  | succ n ih =>
    have hlen : (shown ++ [asciiOf (addr j)]).length = shown.length + 1 := by simp
    rw [cellLoop, if_neg (by omega), set_replicate, ← hlen, ih (by omega), hlen, load_succ,
      load_succ, List.flatMap_cons, List.map_cons]
    simp [Nat.add_assoc, Nat.add_comm 1]

/-- A row that ends after `k` bytes. -/
theorem cellLoop_stop {n k : ℕ} {shown : Text} {j : ℕ} (hn : shown.length + n = 16) (hk : k < n)
    (h : size = (j + k : ℕ)) :
    cellLoop addr size n shown.length j (shown ++ List.replicate n ' ') =
      ((load addr shown.length k).flatMap cell ++ ((List.replicate (n - k) blank).flatten ++
        column (shown ++ (load addr j k).map asciiOf ++ List.replicate (n - k) ' ')), none) := by
  induction n generalizing shown j k with
  | zero => omega
  | succ n ih =>
    cases k with
    | zero =>
      have hblanks : 16 - shown.length = n + 1 := by omega
      rw [cellLoop, if_pos (by omega), hblanks]
      simp
    | succ k =>
      have hlen : (shown ++ [asciiOf (addr j)]).length = shown.length + 1 := by simp
      rw [cellLoop, if_neg (by omega), set_replicate, ← hlen,
        ih (k := k) (by omega) (by omega) (by omega), hlen, load_succ, load_succ, List.flatMap_cons,
        List.map_cons, Nat.succ_sub_succ]
      simp

/-- What the function prints for row `r`. -/
def printedRow (addr : Mem) (n r : ℕ) : Text :=
  rowOf (16 * r) (load addr 0 (rowLength n r)) (load addr (16 * r) (rowLength n r))

theorem dumpLoop_eq {fuel n r : ℕ} (hn : size.toNat = n) (hr : r ≤ rowCount n)
    (hfuel : rowCount n - r < fuel) :
    dumpLoop addr size fuel (16 * r) =
      some ((List.range' r (rowCount n - r)).flatMap (printedRow addr n)) := by
  induction fuel generalizing r with
  | zero => omega
  | succ fuel ih =>
    have hcount : rowCount n = (n + 15) / 16 := rfl
    rw [dumpLoop]
    by_cases hend : size ≤ (16 * r : ℕ)
    · rw [if_pos hend, show rowCount n - r = 0 by omega]
      rfl
    rw [if_neg hend]
    by_cases hfull : 16 * r + 16 ≤ n
    -- a full row, and the rest by induction
    · have hloop : cellLoop addr size 16 0 (16 * r) spaces = _ :=
        @cellLoop_full addr size 16 [] (16 * r) (by omega)
      have hlen : rowLength n r = 16 := by
        unfold rowLength
        omega
      rw [hloop]
      show (dumpLoop addr size fuel (16 * (r + 1))).map _ = _
      rw [ih (by omega) (by omega), show rowCount n - r = rowCount n - (r + 1) + 1 by omega,
        List.range'_succ, List.flatMap_cons, Option.map_some]
      simp [printedRow, rowOf, hlen]
    -- the row in which the buffer ends
    · have hloop : cellLoop addr size 16 0 (16 * r) spaces = _ :=
        @cellLoop_stop addr size 16 (n - 16 * r) [] (16 * r) rfl (by omega) (by omega)
      have hlen : rowLength n r = n - 16 * r := by
        unfold rowLength
        omega
      rw [hloop, show rowCount n - r = 1 by omega]
      simp [printedRow, rowOf, hlen]

end Loops

section Rows
variable {addr : Mem} {size debugFlag : ℤ}

/-- The rows hold every byte once, in order. -/
theorem rows_load (m : Mem) (n : ℕ) :
    ((List.range (rowCount n)).flatMap fun r => load m (16 * r) (rowLength n r)) = load m 0 n := by
  have hrows : ∀ k, ((List.range k).flatMap fun r => load m (16 * r) (rowLength n r)) =
      load m 0 (min n (16 * k)) := by
    intro k
    induction k with
    | zero => simp
    | succ k ih =>
      rw [List.range_succ, List.flatMap_append, ih, List.flatMap_singleton]
      by_cases hk : n ≤ 16 * k
      · have hnone : rowLength n k = 0 := by
          unfold rowLength
          omega
        rw [hnone, load_zero, List.append_nil, Nat.min_eq_left hk, Nat.min_eq_left (by omega)]
      · have hmin : min n (16 * (k + 1)) = 16 * k + rowLength n k := by
          unfold rowLength
          omega
        rw [hmin, load_add, Nat.zero_add, Nat.min_eq_right (by omega)]
  rw [hrows, Nat.min_eq_left]
  unfold rowCount
  omega

theorem length_row_le (m : Mem) (p n r : ℕ) : (load m p (rowLength n r)).length ≤ 16 := by
  rw [length_load]
  exact Nat.min_le_left _ _

theorem dumpOf_load (n : ℕ) : dumpOf (load addr 0 n) =
    (List.range (rowCount n)).flatMap fun r =>
      rowOf (16 * r) (load addr (16 * r) (rowLength n r)) (load addr (16 * r) (rowLength n r)) := by
  have hrow : ∀ r, ((load addr 0 n).drop (16 * r)).take 16 =
      load addr (16 * r) (rowLength n r) := by
    intro r
    apply List.ext_getElem
    · simp [rowLength]
    · intro i _ _
      simp [getElem_load]
  simp only [dumpOf, length_load, hrow]

theorem recover_dumpOf (n : ℕ) : recover (dumpOf (load addr 0 n)) = load addr 0 n := by
  rw [dumpOf_load, recover_rows _ _ _ _ fun r => length_row_le addr (16 * r) n r, rows_load]

/-- The function comes to an end; its cells show the first row of the buffer again and again. -/
theorem dumpMem_eq (hdebug : debugFlag ≠ 0) : dumpMem debugFlag addr size =
    some ((List.range (rowCount size.toNat)).flatMap (printedRow addr size.toNat)) := by
  have hcount : rowCount size.toNat ≤ size.toNat := by
    unfold rowCount
    omega
  rw [dumpMem, if_neg hdebug, List.range_eq_range']
  exact dumpLoop_eq (r := 0) rfl (Nat.zero_le _) (by omega)

/-- The cells of every row are those of the first. -/
theorem first_cells (n r : ℕ) : load addr 0 (rowLength n r) =
    load (fun j => addr (j % 16)) (16 * r) (rowLength n r) := by
  apply List.ext_getElem (by simp)
  intro i hi _
  rw [length_load, rowLength] at hi
  rw [getElem_load, getElem_load, Nat.zero_add, Nat.mul_add_mod, Nat.mod_eq_of_lt (by omega)]

theorem recover_printed (n : ℕ) :
    recover ((List.range (rowCount n)).flatMap (printedRow addr n)) =
      load (fun j => addr (j % 16)) 0 n := by
  unfold printedRow
  rw [recover_rows _ _ _ _ fun r => length_row_le addr 0 n r]
  simp only [first_cells, rows_load]

theorem printed_eq_dumpOf {n : ℕ} (h : ∀ j < n, addr j = addr (j % 16)) :
    (List.range (rowCount n)).flatMap (printedRow addr n) = dumpOf (load addr 0 n) := by
  have hcells : ∀ r, load addr 0 (rowLength n r) = load addr (16 * r) (rowLength n r) := by
    intro r
    rw [first_cells]
    apply load_congr
    intro j _ hj
    rw [rowLength] at hj
    exact (h j (by omega)).symm
  rw [dumpOf_load]
  unfold printedRow
  simp only [hcells]

/-- The dump shows the buffer exactly when every row of the buffer is like the first. -/
theorem dumpMem_shows_iff (hdebug : debugFlag ≠ 0) (addr : Mem) (size : ℤ) :
    (∃ dump, dumpMem debugFlag addr size = some dump ∧ Shows (load addr 0 size.toNat) dump) ↔
      ∀ j < size.toNat, addr j = addr (j % 16) := by
  constructor
  · rintro ⟨dump, hdump, hshows⟩ j hj
    rw [dumpMem_eq hdebug, Option.some_inj] at hdump
    have hrecovered := hshows.recovered
    rw [← hdump, recover_printed] at hrecovered
    exact (load_inj hrecovered (Nat.zero_le j) (by omega)).symm
  · intro h
    have hlayout := printed_eq_dumpOf h
    refine ⟨_, dumpMem_eq hdebug, hlayout, ?_⟩
    rw [hlayout, recover_dumpOf]

/-- Twenty bytes of which the last four are the first four again. -/
theorem dumpMem_shows_again : ∃ dump, dumpMem 1 (fun j => UInt8.ofNat (j % 16)) 20 = some dump ∧
    Shows (load (fun j => UInt8.ofNat (j % 16)) 0 20) dump :=
  (dumpMem_shows_iff (by decide) (fun j => UInt8.ofNat (j % 16)) 20).2 (by decide)

/-- The seventeenth byte is shown as the first. -/
theorem seventeenth_byte :
    let addr : Mem := fun j => UInt8.ofNat j
    (dumpMem 1 addr 17).map recover =
        some [0, 1, 2, 3, 4, 5, 6, 7, 8, 9, 10, 11, 12, 13, 14, 15, 0] ∧
      ¬∃ dump, dumpMem 1 addr 17 = some dump ∧ Shows (load addr 0 17) dump := by
  intro addr
  have hrecovered : (dumpMem 1 addr 17).map recover =
      some [0, 1, 2, 3, 4, 5, 6, 7, 8, 9, 10, 11, 12, 13, 14, 15, 0] := by
    rw [dumpMem_eq (by decide), Option.map_some, recover_printed]
    rfl
  refine ⟨hrecovered, ?_⟩
  rintro ⟨dump, hdump, hshows⟩
  rw [hdump, Option.map_some, hshows.recovered] at hrecovered
  exact absurd hrecovered (by decide)

end Rows

end MemoryDump
