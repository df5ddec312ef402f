import SaWa.LittleEndian

/-! The client/server protocol: command and reply codes of `server/sawa.h`, and the messages
of `protocol.md`. A message is a 4-byte length followed by a frame of that many bytes. -/
namespace SawaProtocol

open RangeStore LittleEndian

/-- What a byte pointer points at: the byte at each distance from it. -/
abbrev Mem := ℕ → UInt8

def sawaInfo : UInt8 := 0x01
def sawaRead : UInt8 := 0x02
def sawaWrite : UInt8 := 0x03
def sawaStop : UInt8 := 0x04
def sawaStat : UInt8 := 0x05

def sawaMsgOk : UInt8 := 0x42
def sawaMsgErr : UInt8 := 0x43
def sawaMsgNoauth : UInt8 := 0x44

/-- A frame with its length in front of it. -/
def message (frame : List UInt8) : List UInt8 :=
  wordBytes (UInt32.ofNat frame.length) ++ frame

@[simp] theorem length_message (frame : List UInt8) :
    (message frame).length = 4 + frame.length := by simp [message]

/-- The three requests of port 5000. -/
inductive Request where
  | info
  | read (offset size : UInt32)
  | write (offset : UInt32) (payload : List UInt8)
  deriving DecidableEq, Repr

namespace Request

/-- The frame the protocol documents for a request. -/
def frame : Request → List UInt8
  | .info => [sawaInfo]
  | .read offset size => sawaRead :: (wordBytes offset ++ wordBytes size)
  | .write offset payload => sawaWrite :: (wordBytes offset ++ payload)

/-- The first byte a request addresses, as an unbounded number. -/
def start : Request → ℕ
  | .info => 0
  | .read offset _ | .write offset _ => offset.toNat

/-- How many bytes a request addresses. -/
def count : Request → ℕ
  | .info => 0
  | .read _ size => size.toNat
  | .write _ payload => payload.length

theorem frame_ne_nil (r : Request) : r.frame ≠ [] := by cases r <;> simp [frame]

end Request

/-- The request a frame asks for, when it is long enough to hold the fields of its command. -/
def decode (f : List UInt8) : Option Request :=
  if f.head? = some sawaInfo then some .info
  else if f.head? = some sawaRead ∧ 9 ≤ f.length then
    some (.read (wordOf (slice f 1 4)) (wordOf (slice f 5 4)))
  else if f.head? = some sawaWrite ∧ 5 ≤ f.length then
    some (.write (wordOf (slice f 1 4)) (f.drop 5))
  else none

theorem decode_frame (r : Request) : decode r.frame = some r := by
  cases r with
  | info => rfl
  | read offset size =>
    have ho : slice (Request.read offset size).frame 1 4 = wordBytes offset := by
      simp [slice, Request.frame]
    have hdrop : (Request.read offset size).frame.drop 5 = wordBytes size := by
      simp [Request.frame]
    have hs : slice (Request.read offset size).frame 5 4 = wordBytes size := by
      rw [slice, hdrop]
      exact List.take_of_length_le (length_wordBytes size).le
    rw [decode, ho, hs, wordOf_wordBytes, wordOf_wordBytes]
    simp [Request.frame, sawaInfo, sawaRead]
  | write offset payload =>
    have ho : slice (Request.write offset payload).frame 1 4 = wordBytes offset := by
      simp [slice, Request.frame]
    have hp : (Request.write offset payload).frame.drop 5 = payload := by
      simp [Request.frame]
    rw [decode, ho, hp, wordOf_wordBytes]
    simp [Request.frame, sawaInfo, sawaRead, sawaWrite]

/-- A frame of one of the three documented shapes: 1 byte, 9 bytes, or at least 5 bytes. -/
def Documented (frame : List UInt8) : Prop :=
  frame = [sawaInfo] ∨ (frame.head? = some sawaRead ∧ frame.length = 9) ∨
    (frame.head? = some sawaWrite ∧ 5 ≤ frame.length)

/-- The documented frames are the frames of the requests. -/
theorem documented_iff_request (frame : List UInt8) :
    Documented frame ↔ ∃ r : Request, frame = r.frame := by
  constructor
  · rintro (rfl | ⟨hop, hlen⟩ | ⟨hop, hlen⟩)
    · exact ⟨.info, rfl⟩
    · obtain ⟨body, rfl⟩ := List.head?_eq_some_iff.mp hop
      rw [List.length_cons] at hlen
      refine ⟨.read (wordOf (body.take 4)) (wordOf (body.drop 4)), ?_⟩
      rw [Request.frame, wordBytes_wordOf (by simp; omega), wordBytes_wordOf (by simp; omega),
        List.take_append_drop]
    · obtain ⟨body, rfl⟩ := List.head?_eq_some_iff.mp hop
      rw [List.length_cons] at hlen
      refine ⟨.write (wordOf (body.take 4)) (body.drop 4), ?_⟩
      rw [Request.frame, wordBytes_wordOf (by simp; omega), List.take_append_drop]
  · rintro ⟨r, rfl⟩
    cases r with
    | info => exact .inl rfl
    | read offset size => exact .inr (.inl ⟨rfl, by simp [Request.frame]⟩)
    | write offset payload => exact .inr (.inr ⟨rfl, by simp [Request.frame]⟩)

end SawaProtocol
