import SaWa.HttpServer
import SaWa.LittleEndian

/-! The messages of `server/towa_ipc.cpp`: a string becomes a `Message`, goes through a pipe behind
its size, and is read on the other side with or without a status byte. -/
namespace TowaMessages

open HttpServer LittleEndian

/-- A `Message` made of a string; the `int` in `size` is the length of the content. -/
structure Packet where
  content : Text
  fits : content.length < 2 ^ 31

/-- `Message::Message(string)`. A length that is negative as an `int` makes `new` throw. -/
def ofString (s : Text) : Option Packet :=
  if h : s.length % 2 ^ 32 < 2 ^ 31 then
    some ⟨s.take (s.length % 2 ^ 32), by
      rw [List.length_take]
      exact (Nat.min_le_left _ _).trans_lt h⟩
  else none

def charOf (b : UInt8) : Char := Char.ofNat b.toNat
def byteOf (c : Char) : UInt8 := UInt8.ofNat c.toNat

/-- `Message::sendTo`. -/
def Packet.sendTo (p : Packet) : Text :=
  (wordBytes (UInt32.ofNat p.content.length)).map charOf ++ p.content

/-- What `fread` leaves in a new array of this size. -/
def freadNew (fresh : ℕ → Text) (size : ℕ) (s : Text) : Text :=
  s.take size ++ (fresh size).drop s.length

/-- `Message::Message(FILE *, bool)` on what there is to read from the pipe: the header, if one is
read, and the content. The size counts the header. -/
def readFrom (fresh : ℕ → Text) (hasHeader : Bool) (s : Text) : Option (Option Char × Text) :=
  let size := (wordOf ((s.take 4).map byteOf)).toNat
  let s := s.drop 4
  if size < 2 ^ 31 then
    if hasHeader then
      if size = 0 then none
      else some (s.head?, freadNew fresh (size - 1) s.tail)
    else some (none, freadNew fresh size s)
  else none

theorem byteOf_charOf (b : UInt8) : byteOf (charOf b) = b := by
  have hb := b.toNat_lt
  have hvalid : b.toNat.isValidChar := Or.inl (by omega)
  have hchar : (charOf b).toNat = b.toNat := by
    rw [charOf, Char.ofNat, dif_pos hvalid]
    rfl
  rw [byteOf, hchar, UInt8.ofNat_toNat]

theorem freadNew_exact (fresh : ℕ → Text) (s : Text) (hf : (fresh s.length).length ≤ s.length) :
    freadNew fresh s.length s = s := by
  rw [freadNew, List.take_length, List.drop_of_length_le hf, List.append_nil]

section RoundTrip
variable {fresh : ℕ → Text}

theorem sendTo_size (p : Packet) :
    (wordOf ((p.sendTo.take 4).map byteOf)).toNat = p.content.length ∧
      p.sendTo.drop 4 = p.content := by
  have hlen : ((wordBytes (UInt32.ofNat p.content.length)).map charOf).length = 4 := by simp
  have hback : ((wordBytes (UInt32.ofNat p.content.length)).map charOf).map byteOf =
      wordBytes (UInt32.ofNat p.content.length) := by
    rw [List.map_map]
    conv_rhs => rw [← List.map_id (wordBytes (UInt32.ofNat p.content.length))]
    exact List.map_congr_left fun b _ => byteOf_charOf b
  have hfits := p.fits
  rw [Packet.sendTo, ← hlen, List.take_left, List.drop_left, hback, wordOf_wordBytes,
    toNat_ofNat (by omega)]
  exact ⟨rfl, rfl⟩

/-- A request is read as it was sent. -/
theorem readFrom_sendTo (hf : ∀ n, (fresh n).length = n) (p : Packet) :
    readFrom fresh false p.sendTo = some (none, p.content) := by
  obtain ⟨hsize, hcontent⟩ := sendTo_size p
  simp only [readFrom, hsize, hcontent, p.fits, if_true, Bool.false_eq_true, if_false]
  rw [freadNew_exact fresh p.content (hf _).le]

/-- The first byte of a reply becomes its header. -/
theorem readFrom_header (hf : ∀ n, (fresh n).length = n) {p : Packet} {c : Char} {rest : Text}
    (hp : p.content = c :: rest) :
    readFrom fresh true p.sendTo = some (some c, rest) := by
  obtain ⟨hsize, hcontent⟩ := sendTo_size p
  have hne : p.content.length ≠ 0 := by simp [hp]
  simp only [readFrom, hsize, hcontent, p.fits, hne, if_true, if_false]
  have htail : p.content.length - 1 = rest.length := by simp [hp]
  rw [htail, hp, List.head?_cons, List.tail_cons, freadNew_exact fresh rest (hf _).le]

/-- Without a header to read, the size becomes negative. -/
theorem readFrom_empty (fresh : ℕ → Text) {p : Packet} (hp : p.content = []) :
    readFrom fresh true p.sendTo = none := by
  obtain ⟨hsize, -⟩ := sendTo_size p
  have hnil : p.content.length = 0 := by rw [hp, List.length_nil]
  simp only [readFrom, hsize, hnil, if_true, ite_self]

end RoundTrip

/-! ### Strings -/

theorem ofString_some {s : Text} {p : Packet} (h : ofString s = some p) :
    p.content = s.take (s.length % 2 ^ 32) := by
  unfold ofString at h
  split_ifs at h
  exact congrArg Packet.content (Option.some.inj h).symm

theorem ofString_fits {s : Text} (h : s.length % 2 ^ 32 < 2 ^ 31) : ∃ p, ofString s = some p := by
  unfold ofString
  rw [dif_pos h]
  exact ⟨_, rfl⟩

theorem ofString_short {s : Text} (h : s.length < 2 ^ 31) :
    ofString s = some ⟨s, h⟩ := by
  have hmod : s.length % 2 ^ 32 = s.length := Nat.mod_eq_of_lt (by omega)
  simp only [ofString, hmod, h, dif_pos, List.take_length]

end TowaMessages
