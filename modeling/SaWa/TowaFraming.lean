import SaWa.TowaMessages
import SaWa.SawaFrameLoop
import Mathlib.Algebra.Group.Int.Defs

/-! Messages on a stream of bytes. Each of the two ways to read a message takes just the bytes
that sending it wrote, and leaves what follows to be read. -/
namespace TowaFraming

open LittleEndian RangeStore
open SawaServer (signed)

/-- A `Message`. The header is there only when it was read. -/
structure Message where
  size : ℤ
  content : List UInt8
  header : Option UInt8
  deriving DecidableEq

/-- `fread` of one item into a new array, with what is left on the stream. `heap` is what the
array held before, and still holds where the stream ends too early. -/
def fread (heap : ℕ → UInt8) (size : ℕ) (stream : List UInt8) : List UInt8 × List UInt8 :=
  (stream.take size ++ (load heap 0 size).drop stream.length, stream.drop size)

/-- `Message::Message(FILE *, bool)`. A negative size makes `new` throw. -/
def Message.read (heap : ℕ → UInt8) (hasHeader : Bool) (stream : List UInt8) :
    Option (Message × List UInt8) :=
  let size := signed (wordOf (fread (fun _ => 0) 4 stream).1)
  let stream := stream.drop 4
  let header := if hasHeader then stream.head? else none
  let size := if hasHeader then size - 1 else size
  let stream := if hasHeader then stream.drop 1 else stream
  if size < 0 then none
  else
    let (content, rest) := fread heap size.toNat stream
    some (⟨size, content, header⟩, rest)

/-- `Message::Message(string)`. -/
def Message.ofString (s : List UInt8) : Option Message :=
  let size := signed (UInt32.ofNat s.length)
  if size < 0 then none else some ⟨size, s.take size.toNat, none⟩

def Message.sendTo (m : Message) : List UInt8 := wordBytes (UInt32.ofNat m.size.toNat) ++ m.content

/-- What is put on the stream for a string; nothing when there is no message for it. -/
def sent (s : List UInt8) : List UInt8 := ((Message.ofString s).map Message.sendTo).getD []

/-- Several messages from one stream, each read in its own way into its own array. -/
def readMany : List (Bool × (ℕ → UInt8)) → List UInt8 → Option (List Message × List UInt8)
  | [], stream => some ([], stream)
  | (hasHeader, heap) :: readers, stream => do
    let (m, rest) ← Message.read heap hasHeader stream
    let (ms, rest) ← readMany readers rest
    return (m :: ms, rest)

/-- What the reader should make of a string that was sent. -/
def recovered (hasHeader : Bool) (s : List UInt8) : Message :=
  if hasHeader then ⟨s.length - 1, s.drop 1, s[0]?⟩ else ⟨s.length, s, none⟩

section RoundTrip
variable {s : List UInt8}

theorem fread_append (heap : ℕ → UInt8) (s rest : List UInt8) :
    fread heap s.length (s ++ rest) = (s, rest) := by
  have hdrop : (load heap 0 s.length).drop (s ++ rest).length = [] := by
    apply List.drop_of_length_le
    simp
  rw [fread, hdrop, List.take_left, List.drop_left, List.append_nil]

theorem ofString_eq (hs : s.length < 2 ^ 31) : Message.ofString s = some ⟨s.length, s, none⟩ := by
  have hsize : signed (UInt32.ofNat s.length) = s.length := SawaFrameLoop.signed_ofNat hs
  simp [Message.ofString, hsize]

theorem sent_eq (hs : s.length < 2 ^ 31) :
    sent s = wordBytes (UInt32.ofNat s.length) ++ s := by
  rw [sent, ofString_eq hs]
  simp [Message.sendTo]

theorem length_sent (hs : s.length < 2 ^ 31) : (sent s).length = 4 + s.length := by
  rw [sent_eq hs, List.length_append, length_wordBytes]

/-- The first field of a message on the stream. -/
theorem read_size (hs : s.length < 2 ^ 31) (rest : List UInt8) :
    signed (wordOf (fread (fun _ => 0) 4 (sent s ++ rest)).1) = s.length ∧
      (sent s ++ rest).drop 4 = s ++ rest := by
  have hsplit : sent s ++ rest = wordBytes (UInt32.ofNat s.length) ++ (s ++ rest) := by
    rw [sent_eq hs, List.append_assoc]
  have hword := fread_append (fun _ => 0) (wordBytes (UInt32.ofNat s.length)) (s ++ rest)
  rw [length_wordBytes] at hword
  rw [hsplit, hword, wordOf_wordBytes]
  refine ⟨SawaFrameLoop.signed_ofNat hs, ?_⟩
  exact List.drop_left' (length_wordBytes _)

/-- Either reader recovers the string, and takes nothing of what follows it. -/
theorem read_sent (heap : ℕ → UInt8) (hasHeader : Bool) (hpos : 1 ≤ s.length)
    (hs : s.length < 2 ^ 31) (rest : List UInt8) :
    Message.read heap hasHeader (sent s ++ rest) = some (recovered hasHeader s, rest) := by
  obtain ⟨hsize, hdrop⟩ := read_size hs rest
  cases hasHeader with
  | false =>
    have hneg : ¬ (s.length : ℤ) < 0 := by omega
    have hread := fread_append heap s rest
    simp only [Message.read, hsize, hdrop, Bool.false_eq_true, if_false, if_neg hneg,
      Int.toNat_natCast, hread, recovered]
  | true =>
    obtain ⟨c, t, rfl⟩ := List.exists_cons_of_length_pos hpos
    have hlen : ((c :: t).length : ℤ) - 1 = t.length := by simp
    have hneg : ¬ (t.length : ℤ) < 0 := by omega
    have hread := fread_append heap t rest
    simp only [Message.read, hsize, hdrop, if_true, hlen, if_neg hneg, Int.toNat_natCast,
      List.cons_append, List.head?_cons, List.drop_one, List.tail_cons, hread, recovered]
    rfl

theorem readMany_sent (ss : List (List UInt8)) (readers : List (Bool × (ℕ → UInt8)))
    (hlen : readers.length = ss.length) (hss : ∀ s ∈ ss, 1 ≤ s.length ∧ s.length < 2 ^ 31)
    (rest : List UInt8) :
    readMany readers (ss.flatMap sent ++ rest) =
      some (List.zipWith (fun r s => recovered r.1 s) readers ss, rest) := by
  induction ss generalizing readers with
  | nil =>
    rw [List.length_eq_zero_iff.mp hlen]
    rfl
  | cons s ss ih =>
    obtain ⟨⟨hasHeader, heap⟩, readers, rfl⟩ := List.exists_cons_of_length_eq_add_one hlen
    obtain ⟨hpos, hs⟩ := hss s List.mem_cons_self
    have hrest := ih readers (by simpa using hlen) fun t ht => hss t (List.mem_cons_of_mem s ht)
    rw [readMany, List.flatMap_cons, List.append_assoc, read_sent heap hasHeader hpos hs]
    simp only [Option.bind_eq_bind, Option.bind_some, hrest]
    rfl

end RoundTrip

/-- Sending a string and reading it back, whatever follows it on the stream. -/
structure RoundTrips (s : List UInt8) : Prop where
  message : ∃ m, Message.ofString s = some m ∧ sent s = m.sendTo
  length : (sent s).length = 4 + s.length
  plain : ∀ heap rest, Message.read heap false (sent s ++ rest) = some (⟨s.length, s, none⟩, rest)
  header : ∀ heap rest, ∃ c, s[0]? = some c ∧
    Message.read heap true (sent s ++ rest) = some (⟨s.length - 1, s.drop 1, some c⟩, rest)

/-- Each string comes back from either reader, and so does a list of them in order, the one
message read in this way and the next in that. -/
theorem messages_round_trip (ss : List (List UInt8))
    (hss : ∀ s ∈ ss, 1 ≤ s.length ∧ s.length < 2 ^ 31) :
    (∀ s ∈ ss, RoundTrips s) ∧
      ∀ readers : List (Bool × (ℕ → UInt8)), readers.length = ss.length → ∀ rest,
        readMany readers (ss.flatMap sent ++ rest) =
          some (List.zipWith (fun r s => recovered r.1 s) readers ss, rest) := by
  constructor
  · intro s hmem
    obtain ⟨hpos, hs⟩ := hss s hmem
    constructor
    · refine ⟨_, ofString_eq hs, ?_⟩
      rw [sent, ofString_eq hs]
      rfl
    · exact length_sent hs
    · intro heap rest
      exact read_sent heap false hpos hs rest
    · intro heap rest
      obtain ⟨c, t, rfl⟩ := List.exists_cons_of_length_pos hpos
      exact ⟨c, rfl, read_sent heap true hpos hs rest⟩
  · intro readers hlen rest
    exact readMany_sent ss readers hlen hss rest

/-- A message of one byte, all of which is its header, in front of one of two bytes. -/
theorem one_byte_then_two : readMany [(true, fun _ => 9), (false, fun _ => 9)]
      ([[1], [65, 66]].flatMap sent ++ [7]) =
    some ([⟨0, [], some 1⟩, ⟨2, [65, 66], none⟩], [7]) :=
  (messages_round_trip [[1], [65, 66]] (by decide)).2 [(true, fun _ => 9), (false, fun _ => 9)] rfl
    [7]

/-! ### The messages as texts -/

section Texts
open TowaMessages

theorem value_zeros (n : ℕ) : value (List.replicate n 0) = 0 := by
  induction n with
  | zero => rfl
  | succ n ih =>
    rw [List.replicate_succ, value, ih]
    rfl

theorem value_append_zeros (bs : List UInt8) (n : ℕ) :
    value (bs ++ List.replicate n 0) = value bs := by
  induction bs with
  | nil => exact value_zeros n
  | cons b bs ih => rw [List.cons_append, value, value, ih]

/-- The `int` of a word, by its sign. -/
theorem signed_eq (x : UInt32) :
    signed x = if x.toNat < 2 ^ 31 then (x.toNat : ℤ) else x.toNat - 2 ^ 32 := by
  have hb : signed x = x.toBitVec.toInt := rfl
  have hn : x.toBitVec.toNat = x.toNat := rfl
  have hlt := x.toNat_lt
  rw [hb, BitVec.toInt_eq_toNat_cond, hn]
  split_ifs <;> omega

/-- Where fewer than four bytes are left, the others are the zeros of the field. -/
theorem wordOf_fread (stream : List UInt8) :
    wordOf (fread (fun _ => 0) 4 stream).1 = wordOf (stream.take 4) := by
  have hzeros : (load (fun _ => (0 : UInt8)) 0 4).drop stream.length =
      List.replicate (4 - stream.length) 0 := by
    have hload : load (fun _ => (0 : UInt8)) 0 4 = List.replicate 4 0 := rfl
    rw [hload, List.drop_replicate]
  rw [fread, hzeros, wordOf, wordOf, value_append_zeros]

theorem map_byteOf_charOf (bs : List UInt8) : (bs.map charOf).map byteOf = bs := by
  rw [List.map_map]
  conv_rhs => rw [← List.map_id bs]
  exact List.map_congr_left fun b _ => byteOf_charOf b

/-- `readFrom` is the reader of bytes, but for the place where it leaves the stream. -/
theorem readFrom_bytes (heap : ℕ → UInt8) (hasHeader : Bool) (stream : List UInt8) :
    readFrom (fun n => (load heap 0 n).map charOf) hasHeader (stream.map charOf) =
      (Message.read heap hasHeader stream).map fun m =>
        (m.1.header.map charOf, m.1.content.map charOf) := by
  have hword : wordOf (((stream.map charOf).take 4).map byteOf) = wordOf (stream.take 4) := by
    rw [← List.map_take, map_byteOf_charOf]
  have hbody : ∀ (n : ℕ) (rest : List UInt8),
      freadNew (fun n => (load heap 0 n).map charOf) n (rest.map charOf) =
        (fread heap n rest).1.map charOf := by
    intro n rest
    rw [freadNew, fread, List.map_append, List.map_take, List.map_drop, List.length_map]
  have hlt := (wordOf (stream.take 4)).toNat_lt
  have hsigned := signed_eq (wordOf (stream.take 4))
  simp only [readFrom, Message.read, hword, wordOf_fread]
  by_cases hsize : (wordOf (stream.take 4)).toNat < 2 ^ 31
  · rw [if_pos hsize] at hsigned
    simp only [hsize, if_true, hsigned]
    cases hasHeader with
    | false =>
      have hneg : ¬ ((wordOf (stream.take 4)).toNat : ℤ) < 0 := by omega
      simp [hneg, ← List.map_drop, hbody]
    | true =>
      by_cases hzero : (wordOf (stream.take 4)).toNat = 0
      · simp [hzero]
      · have hneg : ¬ ((wordOf (stream.take 4)).toNat : ℤ) - 1 < 0 := by omega
        have hnat : (((wordOf (stream.take 4)).toNat : ℤ) - 1).toNat =
            (wordOf (stream.take 4)).toNat - 1 := by omega
        rw [if_neg hzero]
        simp only [if_true, if_neg hneg, hnat, ← List.map_drop, ← List.map_tail, hbody,
          List.head?_map, List.drop_one, Option.map_some]
  · rw [if_neg hsize] at hsigned
    have hneg : signed (wordOf (stream.take 4)) < 0 := by omega
    have hneg' : signed (wordOf (stream.take 4)) - 1 < 0 := by omega
    rw [if_neg hsize]
    cases hasHeader with
    | false => simp [hneg]
    | true => simp [hneg']

theorem sendTo_bytes {p : Packet} {s : List UInt8} (hp : p.content = s.map charOf) :
    p.sendTo = (sent s).map charOf := by
  have hlen : p.content.length = s.length := by rw [hp, List.length_map]
  rw [sent_eq (hlen ▸ p.fits), List.map_append, Packet.sendTo, hlen, hp]

end Texts

end TowaFraming
